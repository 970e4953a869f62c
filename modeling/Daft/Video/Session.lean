import Mathlib.Algebra.Group.Int
import Mathlib.Algebra.Group.Nat.Basic
import Mathlib.Data.List.Basic
import Daft.Video.Decoder

/-! # `FfmpegDecoder::new` and the channel between the decoding thread and `next_frame`

A `Session` is the state of the decoding thread, the channel and the decoder's owner, and
`Session.step` one move of one party. In every interleaving `next_frame` returns the frames
`decode_frame` sends, in order and each once, then `Ok(None)` (`Session.Agrees`); while the
decoder is kept the run can go on until all of `reads decodeFrame` is read.
-/
namespace Daft.Video

/-- `VideoMetadata`, with `f64` read as `ℚ`. -/
structure VideoMetadata where
  fps : ℚ
  frames : Option Nat
  width : Nat
  height : Nat
  duration : ℚ
  pixFmt : String
  codec : String
  deriving DecidableEq, Repr

/-- What `detect_metadata` reads beyond the calls `decode_frame` makes: the best video stream's
`avg_frame_rate()` as numerator and denominator and its `frames()`, the decoder's size and the
names of its pixel format and codec, and the container's `duration()` in microseconds. -/
structure Probe where
  avgFrameRate : Int × Int
  frames : Int
  width : Nat
  height : Nat
  duration : Int
  pixFmtName : Option String
  codecName : Option String

/-- The decoding thread, the channel and the decoder that owns its receiver. -/
structure Session (Image : Type) where
  /-- What the decoding thread has still to send. -/
  pending : List (Except VideoError (VideoFrame Image))
  /-- The channel's messages, oldest first. -/
  queue : List (Except VideoError (VideoFrame Image))
  /-- The thread has returned and dropped the sender. -/
  closed : Bool
  /-- The decoder has been dropped, and its receiver with it. -/
  dropped : Bool
  /-- What the calls of `next_frame` have returned, oldest first. -/
  received : List (Except VideoError (Option (VideoFrame Image)))

/-- A move of one party. -/
inductive Event where
  /-- The decoding thread reaches its next `tx.send`, or returns. -/
  | decodeFrame
  /-- A call of `next_frame` returns. -/
  | nextFrame
  /-- The decoder is dropped. -/
  | drop
  deriving DecidableEq, Repr

namespace Ffmpeg
variable {Dec Packet Frame Rgb Image : Type} (ff : Ffmpeg Dec Packet Frame Rgb Image)

/-- `detect_metadata`: it opens the input and builds the decoder as `decode_frame` does, but no
scaler. -/
def detectMetadata (probe : Probe) : Except VideoError VideoMetadata :=
  match ff.input with
  | .error e => .error (.ffmpeg e)
  | .ok _ =>
    match ff.bestVideoStream with
    | none => .error .noVideoStream
    | some _ =>
      match ff.decoder with
      | .error e => .error (.ffmpeg e)
      | .ok _ => .ok
        { fps := if probe.avgFrameRate.2 ≠ 0 then (probe.avgFrameRate.1 : ℚ) / probe.avgFrameRate.2 else 30
          frames := some (probe.frames % 2 ^ 64).toNat
          width := probe.width
          height := probe.height
          duration := (probe.duration : ℚ) / 1000000
          pixFmt := probe.pixFmtName.getD "unknown"
          codec := probe.codecName.getD "unknown" }

def start : Session Image := ⟨ff.decodeFrame, [], false, false, []⟩

end Ffmpeg

/-- `FfmpegDecoder::new`: the metadata, and the session of the decoding thread it spawns. -/
def FfmpegDecoder.new {Dec Packet Frame Rgb Image : Type} (init : Except String Unit)
    (ff : Ffmpeg Dec Packet Frame Rgb Image) (probe : Probe) :
    Except VideoError (VideoMetadata × Session Image) :=
  match init with
  | .error _ => .error .initFailed
  | .ok () => (ff.detectMetadata probe).map fun meta => (meta, ff.start)

namespace Session
variable {Image : Type}

/-- One move; `none` when that party cannot move: the thread has returned, `next_frame` waits on
an empty open channel, or the decoder is gone. -/
def step (s : Session Image) : Event → Option (Session Image)
  | .decodeFrame =>
    match s.pending with
    | m :: rest =>
      -- `if tx.send(Ok(frame)).is_err() { return Ok(()); }`
      if s.dropped then some { s with pending := [], closed := true }
      else some { s with pending := rest, queue := s.queue ++ [m] }
    | [] => if s.closed then none else some { s with closed := true }
  | .nextFrame =>
    if s.dropped then none
    else match s.queue with
      | m :: rest => some { s with queue := rest, received := s.received ++ [nextFrame (some m)] }
      | [] => if s.closed then some { s with received := s.received ++ [nextFrame none] } else none
  | .drop => if s.dropped then none else some { s with queue := [], dropped := true }

def run (s : Session Image) : List Event → Session Image
  | [] => s
  | e :: events => run ((s.step e).getD s) events

/-- What holds of a session whose thread was to send `all`, once `next_frame` has taken `taken`
from the channel and returned `Ok(None)` `eofs` times. -/
structure Agrees (all : List (Except VideoError (VideoFrame Image))) (s : Session Image)
    (taken : List (Except VideoError (VideoFrame Image))) (eofs : Nat) : Prop where
  received : s.received = taken.map (nextFrame ∘ some) ++ List.replicate eofs (nextFrame none)
  taken_sent : taken <+: all
  conserved : s.dropped = false → taken ++ s.queue ++ s.pending = all
  drained : 0 < eofs → taken = all
  closed_sent : s.closed = true → s.dropped = false → s.pending = []

section Agrees
variable {all taken : List (Except VideoError (VideoFrame Image))} {eofs : Nat}

/-- Each move keeps the agreement: a send moves a message from the thread to the channel, a
`next_frame` from the channel to what was read, and `Ok(None)` is read only from a drained
channel of a returned thread. -/
theorem Agrees.step {s s' : Session Image} (h : Agrees all s taken eofs) :
    ∀ {e : Event}, s.step e = some s' → ∃ taken' eofs', Agrees all s' taken' eofs'
  | .decodeFrame, hs => by
    simp only [Session.step] at hs
    split at hs
    · next m rest hp =>
      have hc : s.dropped = false → s.closed = false := fun hd => by
        cases hcl : s.closed
        · rfl
        · simp [h.closed_sent hcl hd] at hp
      split at hs <;> cases hs
      · next hd => exact ⟨taken, eofs, h.received, h.taken_sent, by simp [hd], h.drained, by simp [hd]⟩
      · next hd =>
        simp only [Bool.not_eq_true] at hd
        refine ⟨taken, eofs, h.received, h.taken_sent, fun _ => ?_, h.drained, by simp [hc hd]⟩
        simpa [hp] using h.conserved hd
    · next hp =>
      split at hs <;> cases hs
      exact ⟨taken, eofs, h.received, h.taken_sent, h.conserved, h.drained, fun _ _ => hp⟩
  | .nextFrame, hs => by
    simp only [Session.step] at hs
    split at hs
    · cases hs
    next hd =>
    simp only [Bool.not_eq_true] at hd
    have hall := h.conserved hd
    split at hs
    · next m rest hq =>
      cases hs
      -- a message is left, so `Ok(None)` has not been read yet
      have he : eofs = 0 := Nat.eq_zero_of_not_pos fun hpos => by
        simp [h.drained hpos, hq] at hall
      subst he
      refine ⟨taken ++ [m], 0, by simp [h.received], ⟨rest ++ s.pending, by simpa [hq] using hall⟩,
        fun _ => by simpa [hq] using hall, nofun, h.closed_sent⟩
    · next hq =>
      split at hs <;> cases hs
      next hcl =>
      have hp := h.closed_sent hcl hd
      have htaken : taken = all := by simpa [hq, hp] using hall
      refine ⟨taken, eofs + 1, ?_, h.taken_sent, fun _ => by simpa [hq] using hall,
        fun _ => htaken, h.closed_sent⟩
      simp [h.received, List.replicate_succ']
  | .drop, hs => by
    simp only [Session.step] at hs
    split at hs <;> cases hs
    exact ⟨taken, eofs, h.received, h.taken_sent, nofun, h.drained, fun _ => nofun⟩

/-- A run of any interleaving keeps the agreement. -/
theorem Agrees.run : ∀ {s : Session Image} {taken : List (Except VideoError (VideoFrame Image))} {eofs : Nat}
    (events : List Event), Agrees all s taken eofs → ∃ taken' eofs', Agrees all (s.run events) taken' eofs'
  | _, _, _, [], h => ⟨_, _, h⟩
  | s, _, _, e :: events, h => by
    have hnext : ∃ taken' eofs', Agrees all ((s.step e).getD s) taken' eofs' := by
      cases hs : s.step e with
      | none => exact ⟨_, _, h⟩
      | some s' => exact h.step hs
    obtain ⟨_, _, h'⟩ := hnext
    exact Agrees.run events h'

end Agrees

end Session

end Daft.Video
