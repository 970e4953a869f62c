import Mathlib.Algebra.Group.Int
import Mathlib.Algebra.Group.Nat.Basic
import Mathlib.Data.List.Basic

/-! # `buffer.rs`: the reader behind `buffer::input`

FFmpeg reads an in-memory video through `read_packet`, which copies from a `Cursor` over its
bytes. The reader is a local of `input`: the reads made while `input` runs get the bytes in order,
and every read through the `Input` it returns reaches a dropped reader (`input_reads_then_dangles`).
-/
namespace Daft.Video

/-- `MemReader`: a `Cursor<Vec<u8>>`, its bytes and its position. -/
structure MemReader where
  data : List UInt8
  pos : Nat

def MemReader.new (buf : List UInt8) : MemReader := ⟨buf, 0⟩

/-- `Read::read` of a `Cursor<Vec<u8>>`, which never fails. -/
def MemReader.read (r : MemReader) (len : Nat) : Except Unit (MemReader × List UInt8) :=
  .ok (⟨r.data, r.pos + ((r.data.drop r.pos).take len).length⟩, (r.data.drop r.pos).take len)

def averrorEio : Int := -5

def averrorEnomem : Int := -12

/-- `n as c_int`: the low 32 bits of `n`, read as signed. -/
def asCInt (n : Nat) : Int := if n % 2 ^ 32 < 2 ^ 31 then ((n % 2 ^ 32 : Nat) : Int) else (n % 2 ^ 32 : Nat) - 2 ^ 32

/-- `read_packet` once `opaque` has given the reader: the reader after the call, the bytes written
to FFmpeg's buffer, and the return value. `buf_size as usize` keeps the low 64 bits. -/
def readPacket (r : MemReader) (bufSize : Int) : MemReader × List UInt8 × Int :=
  match r.read (bufSize % 2 ^ 64).toNat with
  | .ok (r', chunk) => (r', chunk, asCInt chunk.length)
  | .error () => (r, [], averrorEio)

/-- The reads FFmpeg makes with the buffer sizes `sizes`, each with its size, what it wrote and
what it returned. -/
def readPackets : MemReader → List Int → MemReader × List (Int × List UInt8 × Int)
  | r, [] => (r, [])
  | r, size :: sizes =>
    let (r', chunk, n) := readPacket r size
    let (r'', calls) := readPackets r' sizes
    (r'', (size, chunk, n) :: calls)

/-- The reader FFmpeg's I/O context reaches through its `opaque` pointer. -/
inductive ReaderSlot where
  | live (r : MemReader)
  /-- `reader` went out of scope when `input` returned: the pointer dangles. -/
  | dropped

/-- The `Input` that `input` returns, as far as its reads go. -/
structure Input where
  ioBufLen : Nat
  readerSlot : ReaderSlot

/-- A read FFmpeg makes through an `Input`: `none` once its reader is gone, where the read is a
use after free. -/
def Input.readPacket (ctx : Input) (bufSize : Int) : Option (MemReader × List UInt8 × Int) :=
  match ctx.readerSlot with
  | .live r => some (Daft.Video.readPacket r bufSize)
  | .dropped => none

/-- What FFmpeg does while `input` runs: whether each allocation succeeds, and the buffer sizes
of the reads and the return codes of `avformat_open_input` and `avformat_find_stream_info`. -/
structure Probing where
  malloc : Bool
  avioAllocContext : Bool
  avformatAllocContext : Bool
  openReads : List Int
  avformatOpenInput : Int
  findReads : List Int
  avformatFindStreamInfo : Int

/-- `buffer::input`: the reads FFmpeg makes through `reader` while `input` runs, and the result.
`reader` is a local of `input`, dropped when it returns while the `Input` keeps its address. -/
def input (data : List UInt8) (bufLen : Option Nat) (p : Probing) :
    List (Int × List UInt8 × Int) × Except Int Input :=
  let ioBufLen := bufLen.getD 0x10000
  if !p.malloc then ([], .error averrorEnomem) else
  let reader := MemReader.new data
  if !p.avioAllocContext then ([], .error averrorEnomem) else
  if !p.avformatAllocContext then ([], .error averrorEnomem) else
  let (reader, opened) := readPackets reader p.openReads
  if p.avformatOpenInput ≠ 0 then (opened, .error p.avformatOpenInput) else
  let (_, found) := readPackets reader p.findReads
  if p.avformatFindStreamInfo < 0 then (opened ++ found, .error p.avformatFindStreamInfo)
  else (opened ++ found, .ok ⟨ioBufLen, .dropped⟩)

end Daft.Video
