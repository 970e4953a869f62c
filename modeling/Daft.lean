import Daft.Dsl.Expr
import Daft.Dsl.TreeNode
import Daft.Plan.LogicalPlan
import Daft.Plan.TransformDown
import Daft.Plan.Eval
import Daft.SplitUdfs.Truncate
import Daft.SplitUdfs.Rule
import Daft.SplitUdfs.Walks
import Daft.SplitUdfs.Coverage
import Daft.SplitUdfs.Split
import Daft.SplitUdfs.Errors
import Daft.SplitUdfs.Termination
import Daft.SplitUdfs.Chain
import Daft.SplitUdfs.Idempotence
import Daft.SplitUdfs.StageShape
import Daft.SplitUdfs.Names
import Daft.SplitUdfs.Semantics
import Daft.SplitUdfs.Resolution
import Daft.SplitUdfs.Progress
import Daft.SplitUdfs.Restore
import Daft.SplitUdfs.Preservation
import Daft.SplitUdfs.UdfCalls
import Daft.Video.Decoder
import Daft.Video.RunSync
import Daft.Video.Session
import Daft.Video.Buffer
