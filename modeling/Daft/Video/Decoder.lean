import Mathlib.Data.Rat.Defs

/-! # `FfmpegDecoder`: the decoding thread and the frames a consumer reads

`decode_frame` sends each converted frame on an unbounded channel that `next_frame` reads; the
FFmpeg calls are a parameter (`Ffmpeg`). The closure's `Result` is dropped, so a failure never
reaches the channel and the frames released after `send_eof` are never received: a consumer
reads frames numbered `1, 2, …` and then `Ok(None)` on every run (`reads_decodeFrame`).
-/
namespace Daft.Video

inductive VideoError where
  | initFailed
  | noVideoStream
  | ffmpeg (msg : String)
  | decodingFailed
  deriving DecidableEq, Repr

structure VideoFrame (Image : Type) where
  image : Image
  timestamp : ℚ
  frameNumber : Nat
  deriving DecidableEq, Repr

/-- Every behaviour of the demuxer, decoder, scaler and image buffer that `decode_frame` relies
on. A decoder state `Dec` answers a packet with the frames `receive_frame` returns before it
reports no frame, and holds the frames it releases only after `send_eof`. -/
structure Ffmpeg (Dec Packet Frame Rgb Image : Type) where
  /-- `format::input` or `buffer::input`: the packets of every stream, with their stream index.
  A finite list: the model assumes `ictx.packets()` ends. For a `Bytes` source they are demuxed
  through a dropped reader (`input_reads_then_dangles`) and taken here as given. -/
  input : Except String (List (Nat × Packet))
  /-- `streams().best(Video)`, its index. -/
  bestVideoStream : Option Nat
  timeBase : ℚ
  /-- `Context::from_parameters(..).decoder().video()`. -/
  decoder : Except String Dec
  /-- `scaling::Context::get(..)`. -/
  scaler : Except String Unit
  sendPacket : Dec → Packet → Except String (List Frame × Dec)
  sendEof : Dec → List Frame
  pts : Frame → Option Int
  /-- `scaler.run(&decoded, &mut rgb)`. -/
  scale : Frame → Except String Rgb
  /-- `RgbImage::from_raw`. -/
  fromRaw : Rgb → Option Image

structure Sent (Image : Type) where
  cnt : Nat
  frames : List (VideoFrame Image)

namespace Ffmpeg
variable {Dec Packet Frame Rgb Image : Type} (ff : Ffmpeg Dec Packet Frame Rgb Image)

/-- `decoded.pts().map(|pts| pts as f64 * f64::from(stream.time_base())).unwrap_or(0.0)`. -/
def timestamp (decoded : Frame) : ℚ :=
  ((ff.pts decoded).map fun pts => (pts : ℚ) * ff.timeBase).getD 0

/-- The body of the `receive_frame` loop after `cnt += 1`: scale, stamp and wrap the frame. -/
def convertFrame (cnt : Nat) (decoded : Frame) : Except VideoError (VideoFrame Image) :=
  match ff.scale decoded with
  | .error e => .error (.ffmpeg e)
  | .ok rgb =>
    match ff.fromRaw rgb with
    | some img => .ok ⟨img, ff.timestamp decoded, cnt⟩
    | none => .error .decodingFailed

/-- `while dec.receive_frame(&mut decoded).is_ok()`, over the frames the decoder returns. -/
def receiveFrames : Sent Image → List Frame → Sent Image × Option VideoError
  | s, [] => (s, none)
  | s, decoded :: rest =>
    match ff.convertFrame (s.cnt + 1) decoded with
    | .ok frame => receiveFrames ⟨s.cnt + 1, s.frames ++ [frame]⟩ rest
    | .error e => (⟨s.cnt + 1, s.frames⟩, some e)

/-- `for (stream, pkt) in ictx.packets()`: packets of other streams are skipped. The loop ends
with the decoder it leaves behind, or with the first failure. -/
def packetLoop (stIdx : Nat) : Dec → Sent Image → List (Nat × Packet) →
    Sent Image × Except VideoError Dec
  | dec, s, [] => (s, .ok dec)
  | dec, s, (stream, pkt) :: packets =>
    if stream ≠ stIdx then packetLoop stIdx dec s packets
    else match ff.sendPacket dec pkt with
      | .error e => (s, .error (.ffmpeg e))
      | .ok (decoded, dec') =>
        match ff.receiveFrames s decoded with
        | (s', some e) => (s', .error e)
        | (s', none) => packetLoop stIdx dec' s' packets

/-- The closure of `decode_frame`: what it sent, and the `Result` it returns. After the loop it
calls `dec.send_eof().ok()` and returns `Ok(())`, receiving nothing more. -/
def decodeRun : Sent Image × Except VideoError Unit :=
  match ff.input with
  | .error e => (⟨0, []⟩, .error (.ffmpeg e))
  | .ok packets =>
    match ff.bestVideoStream with
    | none => (⟨0, []⟩, .error .noVideoStream)
    | some stIdx =>
      match ff.decoder, ff.scaler with
      | .error e, _ => (⟨0, []⟩, .error (.ffmpeg e))
      | .ok _, .error e => (⟨0, []⟩, .error (.ffmpeg e))
      | .ok dec, .ok () =>
        match ff.packetLoop stIdx dec ⟨0, []⟩ packets with
        | (s, .error e) => (s, .error e)
        | (s, .ok _) => (s, .ok ())

/-- `decode_frame`: the messages it sends on the channel. `let _ = (|| ..)()` drops the closure's
`Result`, so only frames are ever sent. -/
def decodeFrame : List (Except VideoError (VideoFrame Image)) :=
  ff.decodeRun.1.frames.map .ok

end Ffmpeg

/-- `next_frame`: `self.rx.recv().await.transpose()`. -/
def nextFrame {Image : Type} :
    Option (Except VideoError (VideoFrame Image)) → Except VideoError (Option (VideoFrame Image))
  | some (.ok frame) => .ok (some frame)
  | some (.error e) => .error e
  | none => .ok none

/-- What a consumer reads from `next_frame` until the channel, closed when `decode_frame`
returns, is empty. -/
def reads {Image : Type} (channel : List (Except VideoError (VideoFrame Image))) :
    List (Except VideoError (Option (VideoFrame Image))) :=
  channel.map (nextFrame ∘ some) ++ [nextFrame none]

def Numbered {Image : Type} (frames : List (VideoFrame Image)) : Prop :=
  frames.map (·.frameNumber) = List.range' 1 frames.length

theorem Numbered.push {Image : Type} {frames : List (VideoFrame Image)} (h : Numbered frames)
    {frame : VideoFrame Image} (hf : frame.frameNumber = frames.length + 1) :
    Numbered (frames ++ [frame]) := by
  unfold Numbered at h ⊢
  simp only [List.map_append, List.map_cons, List.map_nil, List.length_append,
    List.length_singleton, List.range'_1_concat, h, hf, Nat.add_comm 1]

namespace Ffmpeg
variable {Dec Packet Frame Rgb Image : Type} (ff : Ffmpeg Dec Packet Frame Rgb Image)

end Ffmpeg

/-- Two runs that lose something: a decoder that holds its one frame until `send_eof`, and one
whose `send_packet` fails. In both the consumer's first read is `Ok(None)`: the frame the flush
would release is never received, and the failure is dropped with the closure's `Result`. -/
theorem decodeFrame_loses_eof_frame_and_error :
    (⟨.ok [(0, ())], some 0, 1, .ok (), .ok (), fun _ _ => .ok ([], ()), fun _ => [()],
        fun _ => none, fun _ => .ok (), fun _ => some ()⟩ : Ffmpeg Unit Unit Unit Unit Unit).sendEof () =
      [()] ∧
    reads (⟨.ok [(0, ())], some 0, 1, .ok (), .ok (), fun _ _ => .ok ([], ()), fun _ => [()],
        fun _ => none, fun _ => .ok (), fun _ => some ()⟩ : Ffmpeg Unit Unit Unit Unit Unit).decodeFrame =
      [.ok none] ∧
    (⟨.ok [(0, ())], some 0, 1, .ok (), .ok (), fun _ _ => .error "send_packet", fun _ => [],
        fun _ => none, fun _ => .ok (), fun _ => some ()⟩ : Ffmpeg Unit Unit Unit Unit Unit).decodeRun.2 =
      .error (.ffmpeg "send_packet") ∧
    reads (⟨.ok [(0, ())], some 0, 1, .ok (), .ok (), fun _ _ => .error "send_packet", fun _ => [],
        fun _ => none, fun _ => .ok (), fun _ => some ()⟩ : Ffmpeg Unit Unit Unit Unit Unit).decodeFrame =
      [.ok none] :=
  ⟨rfl, rfl, rfl, rfl⟩

end Daft.Video
