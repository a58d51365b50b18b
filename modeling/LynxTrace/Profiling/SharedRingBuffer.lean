import LynxTrace.Base.CyclicMemory

/-!
# Profiling.SharedRingBuffer — `SharedRingBuffer` (src/profiling/memory/shared_ring_buffer.{h,cc})

The ring is mapped twice in a row, so an offset past the end of the first mapping reads and writes at the offset modulo
`size`.  Positions are 64-bit counters.  A write takes three stores, which are steps of their own: the header is zeroed
and the write position is moved on under the lock, the size goes into the header at the end.  The reader loads the
positions and the header in two steps.  The statistics are left out.
-/

namespace LynxTrace.Profiling

open CyclicMemory

def kAlignment : ℕ := 8

def kHeaderSize : ℕ := kAlignment

/-- `base::AlignUp<kAlignment>`. -/
def alignUp (n : ℕ) : ℕ := (n + kAlignment - 1) % 2 ^ 64 / kAlignment * kAlignment

/-- `size_with_header` of a record. -/
def sizeWithHeader (n : ℕ) : ℕ := alignUp (n + kHeaderSize)

/-- `SharedRingBuffer::Buffer`; `data` is an offset from `mem_`. -/
structure Buffer where
  data : ℕ
  size : ℕ
  bytesFree : ℕ
  deriving DecidableEq, Repr

/-- Why a call returns no buffer. -/
inductive Errno
  | EBADF
  | EINVAL
  | EAGAIN
  deriving DecidableEq, Repr

structure PointerPositions where
  readPos : ℕ
  writePos : ℕ
  deriving DecidableEq, Repr

/-- A write between `BeginWrite` and `EndWrite`: the bytes that the client means to write and which of them it has. -/
structure PendingWrite where
  buf : Buffer
  payload : List UInt8
  stored : List ℕ

/-- The shared memory and what its users hold.  `accepted` and `received` are no state of the program: the payloads of
the writes that got a buffer, and those that the reader has read, in order. -/
structure RingState where
  mem : Memory
  readPos : ℕ
  writePos : ℕ
  /-- The write that holds the lock, after the store to its header. -/
  locked : Option (Buffer × List UInt8)
  /-- The writes under way, by their number. -/
  pending : ℕ → Option PendingWrite
  /-- The reader's copy of the positions, in `BeginRead`. -/
  positions : Option PointerPositions
  /-- The buffer of the reader, between `BeginRead` and `EndRead`. -/
  reading : Option Buffer
  accepted : List (List UInt8)
  received : List (List UInt8)

def RingState.init (mem : Memory) : RingState where
  mem := mem
  readPos := 0
  writePos := 0
  locked := none
  pending := fun _ => none
  positions := none
  reading := none
  accepted := []
  received := []

variable (size : ℕ)

/-! ### Positions -/

/-- `SharedRingBuffer::IsCorrupt`. -/
def isCorrupt (pos : PointerPositions) : Bool :=
  pos.writePos < pos.readPos || size < pos.writePos - pos.readPos || pos.writePos % kAlignment != 0 ||
    pos.readPos % kAlignment != 0

/-- `SharedRingBuffer::GetPointerPositions`. -/
def getPointerPositions (pos : PointerPositions) : Option PointerPositions :=
  if isCorrupt size pos then none else some pos

def readAvail (pos : PointerPositions) : ℕ := pos.writePos - pos.readPos

def writeAvail (pos : PointerPositions) : ℕ := size - readAvail pos

/-- `SharedRingBuffer::at`, with `size_mask_ = size - 1`. -/
def atPos (pos : ℕ) : ℕ := pos &&& (size - 1)

/-! ### Writing -/

/-- The positions in the metadata page. -/
def RingState.pos (s : RingState) : PointerPositions := ⟨s.readPos, s.writePos⟩

/-- The buffer that `SharedRingBuffer::BeginWrite` returns. -/
def beginWrite (pos : PointerPositions) (n : ℕ) : Except Errno Buffer :=
  match getPointerPositions size pos with
  | none => .error .EBADF
  | some pos =>
    if sizeWithHeader n < n then .error .EINVAL
    else if writeAvail size pos < sizeWithHeader n then .error .EAGAIN
    else .ok ⟨atPos size pos.writePos + kHeaderSize, n, writeAvail size pos⟩

/-- `BeginWrite` up to the store to the header. -/
def RingState.beginWrite (s : RingState) (payload : List UInt8) : RingState :=
  match Profiling.beginWrite size s.pos payload.length with
  | .error _ => s
  | .ok buf =>
    { s with
      mem := storeU32 size s.mem (buf.data - kHeaderSize) 0
      locked := some (buf, payload) }

/-- The rest of `BeginWrite`. -/
def RingState.advanceWritePos (s : RingState) (buf : Buffer) (payload : List UInt8) : RingState :=
  { s with
    writePos := (s.writePos + sizeWithHeader buf.size) % 2 ^ 64
    locked := none
    pending := Function.update s.pending s.accepted.length (some ⟨buf, payload, []⟩)
    accepted := s.accepted ++ [payload] }

/-- The client stores one byte of its payload. -/
def RingState.storePayload (s : RingState) (n : ℕ) (w : PendingWrite) (i : ℕ) (b : UInt8) : RingState :=
  { s with
    mem := store size s.mem (w.buf.data + i) [b]
    pending := Function.update s.pending n (some { w with stored := i :: w.stored }) }

/-- `SharedRingBuffer::EndWrite`. -/
def RingState.endWrite (s : RingState) (n : ℕ) (w : PendingWrite) : RingState :=
  { s with
    mem := storeU32 size s.mem (w.buf.data - kHeaderSize) (w.buf.size % 2 ^ 32)
    pending := Function.update s.pending n none }

/-! ### Reading -/

/-- `SharedRingBuffer::BeginRead`, from the positions it has loaded. -/
def beginRead (mem : Memory) (pos : PointerPositions) : Except Errno Buffer :=
  match getPointerPositions size pos with
  | none => .error .EBADF
  | some pos =>
    let availRead := readAvail pos
    if availRead < kHeaderSize then .error .EAGAIN
    else
      let n := loadU32 size mem (atPos size pos.readPos)
      if n = 0 then .error .EAGAIN
      else if availRead < sizeWithHeader n then .error .EBADF
      else .ok ⟨atPos size pos.readPos + kHeaderSize, n, writeAvail size pos⟩

/-- `SharedRingBuffer::EndRead`, after the reader has read the payload. -/
def RingState.endRead (s : RingState) (buf : Buffer) : RingState :=
  { s with
    readPos := (s.readPos + sizeWithHeader buf.size) % 2 ^ 64
    reading := none
    received := s.received ++ [load size s.mem buf.data buf.size] }

/-! ### Runs -/

inductive RingStep
  | beginWrite (payload : List UInt8)
  | advanceWritePos
  | storePayload (n i : ℕ)
  | endWrite (n : ℕ)
  | loadPositions
  | beginRead
  | endRead

/-- A step that the lock and the use of the buffers let happen: one write at a time holds the lock, payloads have
between 1 and `2 ^ 32 - 1` bytes, a write ends when its bytes are stored, and the reader has one buffer at a time. -/
def RingState.step (s : RingState) : RingStep → Option RingState
  | .beginWrite payload =>
    if s.locked.isNone ∧ 0 < payload.length ∧ payload.length < 2 ^ 32 then some (s.beginWrite size payload) else none
  | .advanceWritePos =>
    match s.locked with
    | none => none
    | some (buf, payload) => some (s.advanceWritePos buf payload)
  | .storePayload n i =>
    match s.pending n with
    | none => none
    | some w => (w.payload[i]?).map fun b => s.storePayload size n w i b
  | .endWrite n =>
    match s.pending n with
    | none => none
    | some w => if ∀ i < w.payload.length, i ∈ w.stored then some (s.endWrite size n w) else none
  | .loadPositions => if s.reading.isNone then some { s with positions := some s.pos } else none
  | .beginRead =>
    match s.positions with
    | none => none
    | some pos => some { s with reading := (Profiling.beginRead size s.mem pos).toOption, positions := none }
  | .endRead =>
    match s.reading with
    | none => none
    | some buf => some (s.endRead size buf)

/-- The states that runs reach, whatever the memory holds at first. -/
inductive RingReachable : RingState → Prop
  | init (mem : Memory) : RingReachable (.init mem)
  | step {s s' : RingState} (st : RingStep) : RingReachable s → s.step size st = some s' → RingReachable s'

end LynxTrace.Profiling
