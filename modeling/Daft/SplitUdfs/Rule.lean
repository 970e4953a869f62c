import Daft.SplitUdfs.Truncate

/-! # `SplitUDFs`: splitting a projection into stateless and single-UDF stages

`splitProjection` routes each expression to one of the two rewriters and merges what they lift
into `remaining`, first name wins. `recursiveOptimizeProject` recurses on `remaining` and builds
`child → Project → UDFProject* → Project`, with fuel consumed at the recursive call only, which
`Termination` proves is never exhausted.
-/
namespace Daft.SplitUdfs
open Expr

/-- The loop state of `split_projection`: `truncated_exprs`, `new_children_seen`,
`new_children`. -/
structure SplitState where
  truncatedExprs : List Expr
  newChildrenSeen : List String
  newChildren : List Expr

namespace SplitState

/-- Appends the entries a rewriter collected to `new_children`, skipping names already seen. -/
def merge (st : SplitState) : List Expr → SplitState
  | [] => st
  | c :: cs =>
    (if st.newChildrenSeen.contains c.name then st
     else { st with newChildrenSeen := st.newChildrenSeen ++ [c.name],
                    newChildren := st.newChildren ++ [c] }).merge cs

def pushTruncated (st : SplitState) (e : Expr) : SplitState :=
  { st with truncatedExprs := st.truncatedExprs ++ [e] }

end SplitState

/-- One iteration of the loop of `split_projection`, on the expression at `exprIdx`. -/
def splitStep (stageIdx : Nat) (st : SplitState) (exprIdx : Nat) (expr : Expr) :
    Except DaftError SplitState :=
  if isUdfAndShouldTruncateChildren expr then
    match (TruncateRootUdf.new stageIdx exprIdx).rewrite expr with
    | (rw, rewrittenRoot) => .ok ((st.pushTruncated rewrittenRoot).merge rw.newChildren)
  else if expr.exists isUdf then
    (fun (p : TruncateAnyUdfChildren × Expr) => (st.pushTruncated p.2).merge p.1.newChildren) <$>
      (TruncateAnyUdfChildren.new stageIdx exprIdx).rewrite expr
  else .ok ((st.pushTruncated expr).merge (expr.getRequiredColumns.map column))

def splitLoop (stageIdx : Nat) : SplitState → Nat → List Expr → Except DaftError SplitState
  | st, _, [] => .ok st
  | st, exprIdx, expr :: exprs => do
    let st ← splitStep stageIdx st exprIdx expr
    splitLoop stageIdx st (exprIdx + 1) exprs

/-- `split_projection`: `(truncated_exprs, new_children)`. -/
def splitProjection (projection : List Expr) (stageIdx : Nat) :
    Except DaftError (List Expr × List Expr) :=
  (fun st => (st.truncatedExprs, st.newChildren)) <$> splitLoop stageIdx ⟨[], [], []⟩ 0 projection

/-- The `UDFProject` fold: each stage passes through every column of its input except one of
the stage's own name. -/
def udfStages : LogicalPlan → List Expr → Except DaftError LogicalPlan
  | child, [] => .ok child
  | child, expr :: exprs => do
    let passthroughColumns := (child.schema.map column).filter (fun c => c.name != expr.name)
    let u ← UdfProject.tryNew child expr passthroughColumns
    udfStages u.toPlan exprs

/-- The `passthrough_columns` of the stateless `Project`: every column of the child that no
stateless stage names. -/
def statelessPassthroughColumns (newPlanChild : LogicalPlan) (statelessStages : List Expr) :
    List Expr :=
  newPlanChild.schema.filterMap fun name =>
    if (statelessStages.map Expr.name).contains name then none else some (column name)

/-- The chain built once `newPlanChild` is known: the stateless `Project` over the child's
columns that no stateless stage shadows, one `UDFProject` per actor-pool stage, and the final
selection of the original output names. -/
def buildStages (projection : Project) (newPlanChild : LogicalPlan) (truncatedExprs : List Expr) :
    Except DaftError (Transformed LogicalPlan) :=
  match truncatedExprs.partition (existsSkipListMap · isUdf) with
  | (actorPoolStages, statelessStages) => do
    let newPlan ← Project.tryNew newPlanChild
      (statelessPassthroughColumns newPlanChild statelessStages ++ statelessStages)
    let newPlan ← udfStages newPlan.toPlan actorPoolStages
    let finalSelectionProject ← Project.tryNew newPlan (projection.projection.map (column ·.name))
    .ok (.yes finalSelectionProject.toPlan)

/-- `recursive_optimize_project`. -/
def recursiveOptimizeProject (fuel : Nat) (projection : Project) (plan : LogicalPlan)
    (recursiveCount : Nat) : Except DaftError (Transformed LogicalPlan) :=
  if !projection.projection.any (existsSkipListMap · isUdf) then .ok (.no plan)
  else match splitProjection projection.projection recursiveCount with
    | .error err => .error err
    | .ok (truncatedExprs, remaining) =>
      let newPlanChild : Except DaftError LogicalPlan :=
        if remaining.all isColumn then .ok projection.input
        else Project.tryNew projection.input remaining >>= fun newProject =>
          match fuel with
          | 0 => .error .fuelExhausted
          | fuel + 1 => Transformed.data <$>
              recursiveOptimizeProject fuel newProject newProject.toPlan (recursiveCount + 1)
      newPlanChild >>= fun child => buildStages projection child truncatedExprs

/-- The entry aliasing of `try_optimize_project`: an expression with a UDF that is not already
an alias is aliased to its own name. -/
def entryAlias (expr : Expr) : Expr :=
  if expr.exists isUdf && !expr.isAlias then expr.alias expr.name else expr

theorem entryAlias_eq (e : Expr) : entryAlias e = e ∨ entryAlias e = e.alias e.name := by
  unfold entryAlias; split <;> simp

@[simp] theorem entryAlias_name (e : Expr) : (entryAlias e).name = e.name := by
  rcases entryAlias_eq e with h | h <;> rw [h]; rfl

@[simp] theorem getRequiredColumns_entryAlias (e : Expr) :
    (entryAlias e).getRequiredColumns = e.getRequiredColumns := by
  rcases entryAlias_eq e with h | h <;> simp [h]

@[simp] theorem existsSkipListMap_entryAlias (e : Expr) :
    existsSkipListMap (entryAlias e) isUdf = existsSkipListMap e isUdf := by
  rcases entryAlias_eq e with h | h <;> simp [h]

theorem isAlias_entryAlias {e : Expr} (h : (entryAlias e).exists isUdf = true) :
    (entryAlias e).isAlias = true := by
  unfold entryAlias at *
  by_cases hc : (e.exists isUdf && !e.isAlias) = true
  · simp [hc]
  · simp only [hc, ite_false] at h ⊢
    simp_all

/-- `try_optimize_project`. -/
def tryOptimizeProject (projection : Project) (plan : LogicalPlan) :
    Except DaftError (Transformed LogicalPlan) := do
  let aliasedProjectionExprs := projection.projection.map entryAlias
  let aliasedProjection ← Project.tryNew projection.input aliasedProjectionExprs
  recursiveOptimizeProject (heightList aliasedProjectionExprs) aliasedProjection plan 0

/-- The closure `SplitUDFs::try_optimize` hands to `transform_down`. -/
def rule (node : LogicalPlan) : Except DaftError (Transformed LogicalPlan) :=
  match node with
  | .project input projection => tryOptimizeProject ⟨input, projection⟩ node
  | _ => .ok (.no node)

/-- `SplitUDFs::try_optimize`, with `fuel` levels of `transform_down`. -/
def tryOptimize (fuel : Nat) (plan : LogicalPlan) : Except DaftError (Transformed LogicalPlan) :=
  transformDown rule fuel plan

end Daft.SplitUdfs
