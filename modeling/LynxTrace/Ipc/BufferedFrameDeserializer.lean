import LynxTrace.Base.Framing
import LynxTrace.Base.Overwrite
import Mathlib.Algebra.Order.Ring.Int

/-!
# Ipc.BufferedFrameDeserializer — `BufferedFrameDeserializer` (src/ipc/buffered_frame_deserializer.cc)

The encoding of a frame comes from generated code: `serializeAsArray` and `parseFromArray` are parameters.  A failing
`PERFETTO_CHECK`, a write outside a buffer and a caller that receives more than it was offered are faults.  Pages given
back to the kernel read as zero.
-/

namespace LynxTrace.Ipc

inductive Fault
  | failedCheck
  | outOfBounds
  | overrun
  deriving DecidableEq, Repr

def kHeaderSize : ℕ := 4

/-- A `uint32_t` in memory, lowest byte first. -/
def littleEndian (n : ℕ) : List UInt8 :=
  [UInt8.ofNat n, UInt8.ofNat (n / 2 ^ 8), UInt8.ofNat (n / 2 ^ 16), UInt8.ofNat (n / 2 ^ 24)]

/-- The `uint32_t` that these bytes are. -/
def readLittleEndian : List UInt8 → ℕ
  | [] => 0
  | b :: bytes => b.toNat + 2 ^ 8 * readLittleEndian bytes

structure BufferedFrameDeserializer (Frame : Type*) where
  capacity : ℕ
  pageSize : ℕ
  /-- `none` until the first receive. -/
  buf : Option (List UInt8)
  size : ℕ
  decodedFrames : List Frame

namespace BufferedFrameDeserializer

variable {Frame : Type*} (parseFromArray : List UInt8 → Option Frame) (serializeAsArray : Frame → List UInt8)

/-- The constructor; `pageSize` is `GetSysPageSize()`, with the check it makes itself. -/
def new (pageSize capacity : ℕ) : Except Fault (BufferedFrameDeserializer Frame) :=
  if pageSize = 0 ∨ pageSize % 4096 ≠ 0 then .error .failedCheck
  else if capacity % pageSize ≠ 0 ∨ capacity < pageSize then .error .failedCheck
  else .ok ⟨capacity, pageSize, none, 0, []⟩

/-- `Serialize`: the header, then the payload, in a buffer of the size that the header tells. -/
def serialize (frame : Frame) : Except Fault (List UInt8) :=
  let payload := serializeAsArray frame
  let payloadSize := payload.length % 2 ^ 32
  if payloadSize < payload.length then .error .outOfBounds else .ok (littleEndian payloadSize ++ payload)

/-! ### `BeginReceive` -/

/-- `AdviseDontNeed` from a position of the buffer to its end. -/
def adviseDontNeed (buf : List UInt8) (start : ℕ) : List UInt8 :=
  overwrite buf start (List.replicate (buf.length - start) 0)

/-- The buffer is allocated upon the first receive. -/
def allocate (s : BufferedFrameDeserializer Frame) : BufferedFrameDeserializer Frame :=
  match s.buf with
  | some _ => s
  | none => { s with buf := some (adviseDontNeed (List.replicate s.capacity 0) s.pageSize) }

/-- The offered space: where it starts in the buffer, and how much it is. -/
def beginReceive (s : BufferedFrameDeserializer Frame) :
    Except Fault (BufferedFrameDeserializer Frame × ℕ × ℕ) :=
  let s := s.allocate
  if s.capacity ≤ s.size then .error .failedCheck else .ok (s, s.size, s.capacity - s.size)

/-! ### `EndReceive` -/

/-- `DecodeFrame`: what is added to the decoded frames. -/
def decodeFrame (data : List UInt8) : Option Frame := if data.length = 0 then none else parseFromArray data

/-- The loop of `EndReceive`: whether it ends without a frame that is too large, the bytes consumed and the decoded
frames. -/
def consumeFrames (capacity size : ℕ) (buf : List UInt8) (consumedSize : ℕ) (decodedFrames : List Frame) :
    Bool × ℕ × List Frame :=
  if size < consumedSize + kHeaderSize then (true, consumedSize, decodedFrames)
  else
    let payloadSize := readLittleEndian (slice buf consumedSize kHeaderSize)
    let nextFrameSize := min payloadSize capacity + kHeaderSize
    if size < consumedSize + nextFrameSize then
      if capacity < nextFrameSize then (false, consumedSize, decodedFrames) else (true, consumedSize, decodedFrames)
    else
      let frame := decodeFrame parseFromArray (slice buf (consumedSize + kHeaderSize) payloadSize)
      consumeFrames capacity size buf (consumedSize + nextFrameSize) (decodedFrames ++ frame.toList)
termination_by size - consumedSize
decreasing_by
  have : 0 < kHeaderSize := by decide
  omega

/-- The consumed bytes are shifted out. -/
def shiftOut (s : BufferedFrameDeserializer Frame) (consumedSize : ℕ) :
    Except Fault (BufferedFrameDeserializer Frame) :=
  if consumedSize = 0 then .ok s
  else
    let size := s.size - consumedSize
    if 0 < size ∧ s.capacity < consumedSize + size then .error .failedCheck
    else
      let buf := s.buf.getD []
      let buf := if 0 < size then overwrite buf 0 (slice buf consumedSize size) else buf
      let sizeRoundedUp := (size / s.pageSize + 1) * s.pageSize
      if consumedSize > s.pageSize ∧ sizeRoundedUp < s.capacity then
        if sizeRoundedUp ≤ size then .error .failedCheck
        else
          .ok { s with
            buf := some (adviseDontNeed buf sizeRoundedUp)
            size := size }
      else
        .ok { s with
          buf := some buf
          size := size }

/-- What `EndReceive` returns, and the deserializer after it. -/
def endReceive (s : BufferedFrameDeserializer Frame) (recvSize : ℕ) :
    Except Fault (Bool × BufferedFrameDeserializer Frame) :=
  if s.capacity < recvSize + s.size then .error .failedCheck
  else
    let s := { s with size := s.size + recvSize }
    let r := consumeFrames parseFromArray s.capacity s.size (s.buf.getD []) 0 s.decodedFrames
    let s := { s with decodedFrames := r.2.2 }
    if r.1 then (s.shiftOut r.2.1).map fun s => (true, s) else .ok (false, s)

/-- `PopNextFrame` until there is none. -/
def popFrames (s : BufferedFrameDeserializer Frame) : List Frame × BufferedFrameDeserializer Frame :=
  (s.decodedFrames, { s with decodedFrames := [] })

/-! ### Receiving -/

/-- The caller puts data into the buffer. -/
def put (s : BufferedFrameDeserializer Frame) (start : ℕ) (data : List UInt8) : BufferedFrameDeserializer Frame :=
  { s with buf := s.buf.map fun buf => overwrite buf start data }

/-- A receive: data is put into the offered space, and the frames are popped afterwards. -/
def receive (s : BufferedFrameDeserializer Frame) (data : List UInt8) :
    Except Fault (Bool × List Frame × BufferedFrameDeserializer Frame) :=
  match s.beginReceive with
  | .error fault => .error fault
  | .ok (s, start, offered) =>
    if offered < data.length then .error .overrun
    else
      match (s.put start data).endReceive parseFromArray data.length with
      | .error fault => .error fault
      | .ok (going, s) => .ok (going, s.popFrames)

/-- The receives of a stream, up to the first whose `EndReceive` returns false. -/
def receiveAll : BufferedFrameDeserializer Frame → List (List UInt8) →
    Except Fault (Bool × List Frame × BufferedFrameDeserializer Frame)
  | s, [] => .ok (true, [], s)
  | s, data :: stream =>
    match receive parseFromArray s data with
    | .error fault => .error fault
    | .ok (false, frames, s) => .ok (false, frames, s)
    | .ok (true, frames, s) => (receiveAll s stream).map fun r => (r.1, frames ++ r.2.1, r.2.2)

end BufferedFrameDeserializer

end LynxTrace.Ipc
