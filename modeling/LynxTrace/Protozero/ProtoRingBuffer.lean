import LynxTrace.Base.Framing
import LynxTrace.Base.Overwrite
import LynxTrace.Protozero.Decoder

/-!
# Protozero.ProtoRingBuffer — `ProtoRingBuffer` (src/protozero/proto_ring_buffer.cc)

A `Message` points into the data appended or into the buffer; here it holds the bytes it points to.
-/

namespace LynxTrace.Protozero

open LynxTrace.Wire

def kGrowBytes : ℕ := 128 * 1024

/-- 64 MiB. -/
def kMaxMsgSize : ℕ := 64 * 1024 * 1024

structure RingMessage where
  fieldId : ℕ
  data : List UInt8
  deriving DecidableEq, Repr

/-- What an attempt to read a message returns: a message that is not valid is a framing error or no message yet. -/
inductive ReadResult
  | none
  | framingError
  | message (msg : RingMessage)
  deriving DecidableEq, Repr

/-- `TryReadProtoMessage`, with the data after the message. -/
def tryReadProtoMessage (data : List UInt8) : ReadResult × List UInt8 :=
  match parseVarInt data with
  | none => (.none, data)
  | some (fieldTag, startOfLen) =>
    if fieldTag % 8 ≠ ProtoWireType.kLengthDelimited.toNat then (.framingError, data)
    else
      match parseVarInt startOfLen with
      | none => (.none, data)
      | some (msgLen, startOfMsg) =>
        if msgLen > kMaxMsgSize then (.framingError, data)
        else if msgLen > startOfMsg.length then (.none, data)
        else (.message ⟨fieldTag / 8 % 2 ^ 32, startOfMsg.take msgLen⟩, startOfMsg.drop msgLen)

/-- `RingBufferMessageReader`. -/
structure RingBufferMessageReader where
  buf : List UInt8 := List.replicate kGrowBytes 0
  fastpath : Option RingMessage := none
  failed : Bool := false
  rd : ℕ := 0
  wr : ℕ := 0

namespace RingBufferMessageReader

/-- The size the buffer is expanded to. -/
def newSize (dataLen wr size : ℕ) : ℕ :=
  if dataLen > size - wr then newSize dataLen wr (size + kGrowBytes) else size
termination_by dataLen + wr - size
decreasing_by
  have : 0 < kGrowBytes := by decide
  omega

/-- The buffer with everything in it moved to the left. -/
def recompact (s : RingBufferMessageReader) : RingBufferMessageReader :=
  { s with buf := overwrite s.buf 0 (slice s.buf s.rd (s.wr - s.rd)), wr := s.wr - s.rd, rd := 0 }

/-- A larger buffer, with the contents of the old one. -/
def expand (s : RingBufferMessageReader) (size : ℕ) : RingBufferMessageReader :=
  { s with buf := s.buf ++ List.replicate (size - s.buf.length) 0 }

/-- `memcpy` of the data to the write cursor. -/
def write (s : RingBufferMessageReader) (data : List UInt8) : RingBufferMessageReader :=
  { s with buf := overwrite s.buf s.wr data, wr := s.wr + data.length }

/-- The copy of the data into the buffer, with space made for it. -/
def appendToBuffer (s : RingBufferMessageReader) (data : List UInt8) : RingBufferMessageReader :=
  if data.length ≤ s.buf.length - s.wr then s.write data
  else
    let s := s.recompact
    if data.length ≤ s.buf.length - s.wr then s.write data
    else
      let size := newSize data.length s.wr s.buf.length
      if size > kMaxMsgSize * 2 then { s with failed := true } else (s.expand size).write data

/-- `Append`; `none` is its failing CHECK. -/
def append (s : RingBufferMessageReader) (data : List UInt8) : Option RingBufferMessageReader :=
  if s.failed then some s
  else
    let s := if s.rd = s.wr then { s with rd := 0, wr := 0 } else s
    if s.fastpath.isSome then none
    else
      match if s.rd = s.wr then tryReadProtoMessage data else (.none, data) with
      | (.message msg, []) => some { s with fastpath := some msg }
      | _ => some (s.appendToBuffer data)

/-- `ReadMessage`; `none` is its failing CHECK. -/
def readMessage (s : RingBufferMessageReader) : Option (ReadResult × RingBufferMessageReader) :=
  if s.failed then some (.framingError, s)
  else
    match s.fastpath with
    | some msg => if s.rd = s.wr then some (.message msg, { s with fastpath := none }) else none
    | none =>
      if s.rd ≥ s.wr then some (.none, s)
      else
        match tryReadProtoMessage (slice s.buf s.rd (s.wr - s.rd)) with
        | (.message msg, rest) => some (.message msg, { s with rd := s.wr - rest.length })
        | (.framingError, _) => some (.framingError, { s with failed := true })
        | (.none, _) => some (.none, s)

/-! ### Sessions -/

/-- `ReadMessage` until it returns no message, at most `n` times: the messages, the last result and the reader. -/
def readAll : ℕ → RingBufferMessageReader → Option (List RingMessage × ReadResult × RingBufferMessageReader)
  | 0, _ => none
  | n + 1, s =>
    match s.readMessage with
    | none => none
    | some (.message msg, s) => (readAll n s).map fun r => (msg :: r.1, r.2)
    | some (res, s) => some ([], res, s)

/-- A piece is appended and its messages are read. -/
def appendAndRead (n : ℕ) (s : RingBufferMessageReader) (chunk : List UInt8) :
    Option (List RingMessage × ReadResult × RingBufferMessageReader) :=
  (s.append chunk).bind (readAll n)

/-- The messages read at each piece of a session. -/
def session (n : ℕ) : List (List UInt8) → RingBufferMessageReader → Option (List (List RingMessage))
  | [], _ => some []
  | chunk :: chunks, s => (s.appendAndRead n chunk).bind fun r => (session n chunks r.2.2).map (r.1 :: ·)

/-- The bytes in the buffer that have not been read. -/
def backlog (s : RingBufferMessageReader) : ℕ := s.wr - s.rd

/-- The largest size the buffer is expanded to. -/
def growthLimit : ℕ := kMaxMsgSize * 2

/-- At every piece of a session, what has not been read and the piece fit the largest buffer. -/
def backlogFits (n : ℕ) : List (List UInt8) → RingBufferMessageReader → Bool
  | [], _ => true
  | chunk :: chunks, s =>
    s.backlog + chunk.length ≤ growthLimit && (s.appendAndRead n chunk).all fun r => backlogFits n chunks r.2.2

end RingBufferMessageReader

end LynxTrace.Protozero
