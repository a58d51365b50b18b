import LynxTrace.Base.Framing
import LynxTrace.Base.Overwrite
import Mathlib.Data.Int.Order.Basic

/-!
# Ui.ProtoRingBuffer — `ProtoRingBuffer` (ui/src/trace_processor/proto_ring_buffer.ts)

An `Except.error` is the exception thrown.  A message is a view of the data appended or of the buffer; here it is the
offset of the view and the bytes in it.
-/

namespace LynxTrace.Ui

/-- `ProtoTokenizationMode` -/
inductive ProtoTokenizationMode
  | protoPreamble
  | fixedSize
  deriving DecidableEq, Repr

structure ProtoRingBuffer where
  mode : ProtoTokenizationMode
  buf : List UInt8
  fastpath : Option (List UInt8)
  rd : ℕ
  wr : ℕ

namespace ProtoRingBuffer

def kGrowBytes : ℕ := 128 * 1024

def kMaxMsgSize : ℕ := 1024 * 1024 * 1024

/-- What a failing `assertTrue` throws. -/
def failedAssertion : String := "Failed assertion"

def new (mode : ProtoTokenizationMode) : ProtoRingBuffer where
  mode := mode
  buf := List.replicate kGrowBytes 0
  fastpath := none
  rd := 0
  wr := 0

/-! ### `tryReadMessage` -/

/-- `len |= (val << shift) >>> 0`: the operators take the count modulo 32 and leave a signed 32-bit number. -/
def orShifted (len : BitVec 32) (val shift : ℕ) : BitVec 32 := len ||| (BitVec.ofNat 32 val <<< (shift % 32))

/-- The loop over the bytes of a varint, from `pos` on: the length and the position after it, if they are all there. -/
def varintLen (shift : ℕ) (len : BitVec 32) (pos : ℕ) : List UInt8 → Option (BitVec 32 × ℕ)
  | [] => none
  | val :: data =>
    let len := orShifted len (val.toNat % 128) shift
    if val.toNat < 0x80 then some (len, pos + 1) else varintLen (shift + 7) len (pos + 1) data

/-- The loop over the bytes `4 - left` and on of a 32-bit size. -/
def fixedLen : (left : ℕ) → BitVec 32 → ℕ → List UInt8 → Option (BitVec 32 × ℕ)
  | 0, len, pos, _ => some (len, pos)
  | _ + 1, _, _, [] => none
  | left + 1, len, pos, val :: data => fixedLen left (orShifted len val.toNat ((3 - left) * 8)) (pos + 1) data

/-- The header at `pos`, where `data` starts: the length of the message and where it starts. -/
def readHeader (mode : ProtoTokenizationMode) (pos : ℕ) (data : List UInt8) : Except String (Option (BitVec 32 × ℕ)) :=
  match mode with
  | .protoPreamble =>
    match data with
    | [] => .ok none
    | tag :: data =>
      if 0x80 ≤ tag.toNat ∨ tag.toNat % 8 ≠ 2 then
        .error ("RPC framing error, unexpected tag " ++ toString tag.toNat ++ " @ offset " ++ toString pos)
      else .ok (varintLen 0 0 (pos + 1) data)
  | .fixedSize => .ok (fixedLen 4 0 pos data)

/-- `subarray(begin, end)` for a `begin` inside the data; a negative `end` counts from the end of the data. -/
def subarray (data : List UInt8) (start : ℕ) (stop : ℤ) : ℕ × List UInt8 :=
  let relativeEnd : ℕ := if stop < 0 then (data.length + stop).toNat else min stop.toNat data.length
  (start, slice data start (relativeEnd - start))

def tryReadMessage (mode : ProtoTokenizationMode) (data : List UInt8) (dataStart dataEnd : ℕ) :
    Except String (Option (ℕ × List UInt8)) :=
  if data.length < dataEnd then .error failedAssertion
  else if dataEnd ≤ dataStart then .ok none
  else
    match readHeader mode dataStart (slice data dataStart (dataEnd - dataStart)) with
    | .error e => .error e
    | .ok none => .ok none
    | .ok (some (len, pos)) =>
      if (kMaxMsgSize : ℤ) ≤ len.toInt then
        .error ("RPC framing error, message too large (" ++ toString len.toInt ++ " > " ++ toString kMaxMsgSize)
      else if (dataEnd : ℤ) < pos + len.toInt then .ok none
      else .ok (some (subarray data pos (pos + len.toInt)))

/-! ### `append` -/

/-- The size the buffer is expanded to. -/
def newSize (dataLen wr size : ℕ) : ℕ :=
  if dataLen > size - wr then newSize dataLen wr (size + kGrowBytes) else size
termination_by dataLen + wr - size
decreasing_by
  have : 0 < kGrowBytes := by decide
  omega

/-- `copyWithin`: everything in the buffer is moved to the left. -/
def recompact (s : ProtoRingBuffer) : ProtoRingBuffer :=
  { s with
    buf := overwrite s.buf 0 (slice s.buf s.rd (s.wr - s.rd))
    wr := s.wr - s.rd
    rd := 0 }

/-- A larger buffer, with the contents of the old one. -/
def expand (s : ProtoRingBuffer) (size : ℕ) : ProtoRingBuffer :=
  { s with buf := s.buf ++ List.replicate (size - s.buf.length) 0 }

/-- The data is put at the write cursor. -/
def write (s : ProtoRingBuffer) (data : List UInt8) : ProtoRingBuffer :=
  { s with
    buf := overwrite s.buf s.wr data
    wr := s.wr + data.length }

/-- The part of `append` after the fast path. -/
def appendToBuffer (s : ProtoRingBuffer) (data : List UInt8) : Except String ProtoRingBuffer :=
  if data.length ≤ s.buf.length - s.wr then .ok (s.write data)
  else
    let s := s.recompact
    if data.length ≤ s.buf.length - s.wr then .ok (s.write data)
    else
      let size := newSize data.length s.wr s.buf.length
      if size > kMaxMsgSize * 2 then .error failedAssertion else .ok ((s.expand size).write data)

def append (s : ProtoRingBuffer) (data : List UInt8) : Except String ProtoRingBuffer :=
  if s.buf.length < s.wr ∨ s.wr < s.rd then .error failedAssertion
  else
    let s :=
      if s.rd = s.wr then
        { s with
          rd := 0
          wr := 0 }
      else s
    if data.length = 0 then .ok s
    else if s.fastpath.isSome then .error failedAssertion
    else if s.rd = s.wr then
      match tryReadMessage s.mode data 0 data.length with
      | .error e => .error e
      | .ok (some (offset, msg)) =>
        if offset + msg.length = data.length then .ok { s with fastpath := some msg } else s.appendToBuffer data
      | .ok none => s.appendToBuffer data
    else s.appendToBuffer data

/-! ### `readMessage` -/

def readMessage (s : ProtoRingBuffer) : Except String (Option (List UInt8) × ProtoRingBuffer) :=
  match s.fastpath with
  | some msg => if s.rd = s.wr then .ok (some msg, { s with fastpath := none }) else .error failedAssertion
  | none =>
    if s.wr < s.rd then .error failedAssertion
    else if s.wr ≤ s.rd then .ok (none, s)
    else
      match tryReadMessage s.mode s.buf s.rd s.wr with
      | .error e => .error e
      | .ok none => .ok (none, s)
      | .ok (some (offset, msg)) => .ok (some msg, { s with rd := offset + msg.length })

/-! ### Runs -/

/-- `readMessage` until it returns undefined or throws, at most `n` times: the messages, and the buffer after them. -/
def readAll : ℕ → ProtoRingBuffer → Option (List (List UInt8) × Except String ProtoRingBuffer)
  | 0, _ => none
  | n + 1, s =>
    match s.readMessage with
    | .error e => some ([], .error e)
    | .ok (none, s) => some ([], .ok s)
    | .ok (some msg, s) => (readAll n s).map fun r => (msg :: r.1, r.2)

/-- A piece of the stream is appended and the messages are read. -/
def appendAndRead (n : ℕ) (s : ProtoRingBuffer) (chunk : List UInt8) :
    Option (List (List UInt8) × Except String ProtoRingBuffer) :=
  match s.append chunk with
  | .error e => some ([], .error e)
  | .ok s => readAll n s

/-- The pieces of a stream, up to the first that makes the buffer throw. -/
def run (n : ℕ) : ProtoRingBuffer → List (List UInt8) → Option (List (List UInt8) × Except String ProtoRingBuffer)
  | s, [] => some ([], .ok s)
  | s, chunk :: chunks =>
    (s.appendAndRead n chunk).bind fun r =>
      match r.2 with
      | .error e => some (r.1, .error e)
      | .ok s => (run n s chunks).map fun q => (r.1 ++ q.1, q.2)

end ProtoRingBuffer

end LynxTrace.Ui
