import LynxTrace.TraceProcessor.BumpAllocator
import LynxTrace.TraceProcessor.Double
import Mathlib.Data.List.Count
import Mathlib.Logic.Function.Basic

/-!
# TraceProcessor.TraceTokenBuffer — `TraceTokenBuffer` (src/trace_processor/sorter/trace_token_buffer.{h,cc})

Pointers to a `TraceBlob` or a `PacketSequenceStateGeneration` are numbers.  The reference counts are kept as what
they exceed the `RefPtr`s by: `ReleaseUnsafe` adds one, `FromReleasedUnsafe` takes one back.  `none` is a
`PERFETTO_CHECK` that fails.
-/

namespace LynxTrace.TraceProcessor

/-! ### Tokens -/

structure TraceBlobView where
  blob : ℕ
  offset : UInt64
  length : UInt64
  deriving DecidableEq, Repr

def kMaxNumExtraCounters : ℕ := 8

structure TrackEventData where
  packet : TraceBlobView
  sequenceState : Option ℕ
  threadTimestamp : Option Int64 := none
  threadInstructionCount : Option Int64 := none
  counterValue : Double := .zero
  extraCounterValues : Vector Double kMaxNumExtraCounters := Vector.replicate _ .zero
  deriving DecidableEq

namespace TrackEventData

/-- `CountExtraCounterValues`: the index of the first value that is 0. -/
def countExtraCounterValues (ted : TrackEventData) : ℕ :=
  ted.extraCounterValues.toList.findIdx (·.isZero)

/-- Equal in every field. -/
structure Same (a b : TrackEventData) : Prop where
  packet : a.packet = b.packet
  sequenceState : a.sequenceState = b.sequenceState
  threadTimestamp : a.threadTimestamp = b.threadTimestamp
  threadInstructionCount : a.threadInstructionCount = b.threadInstructionCount
  counterValue : a.counterValue.Same b.counterValue
  extraCounterValues : ∀ i (h : i < kMaxNumExtraCounters), a.extraCounterValues[i].Same b.extraCounterValues[i]

end TrackEventData

/-! ### The descriptor -/

structure TrackEventDataDescriptor where
  internBlobIndex : BitVec 16 := 0
  internSeqIndex : BitVec 16 := 0
  internBlobOffset : BitVec 25 := 0
  hasThreadTimestamp : Bool
  hasThreadInstructionCount : Bool
  hasCounterValue : Bool
  extraCounterCount : BitVec 4

namespace TrackEventDataDescriptor

def kMaxOffsetFromInternedBlob : ℕ := 2 ^ 25 - 1

/-- The members in one word, the first in the lowest bits. -/
def toWord (d : TrackEventDataDescriptor) : UInt64 :=
  .ofBitVec (d.extraCounterCount ++ BitVec.ofBool d.hasCounterValue ++ BitVec.ofBool d.hasThreadInstructionCount ++
    BitVec.ofBool d.hasThreadTimestamp ++ d.internBlobOffset ++ d.internSeqIndex ++ d.internBlobIndex)

def ofWord (w : UInt64) : TrackEventDataDescriptor where
  internBlobIndex := w.toBitVec.extractLsb' 0 16
  internSeqIndex := w.toBitVec.extractLsb' 16 16
  internBlobOffset := w.toBitVec.extractLsb' 32 25
  hasThreadTimestamp := w.toBitVec.getLsbD 57
  hasThreadInstructionCount := w.toBitVec.getLsbD 58
  hasCounterValue := w.toBitVec.getLsbD 59
  extraCounterCount := w.toBitVec.extractLsb' 60 4

theorem toWord_getLsbD (d : TrackEventDataDescriptor) (i : ℕ) : d.toWord.toBitVec.getLsbD i =
    if i < 16 then d.internBlobIndex.getLsbD i
    else if i < 32 then d.internSeqIndex.getLsbD (i - 16)
    else if i < 57 then d.internBlobOffset.getLsbD (i - 32)
    else if i < 58 then d.hasThreadTimestamp
    else if i < 59 then d.hasThreadInstructionCount
    else if i < 60 then d.hasCounterValue
    else d.extraCounterCount.getLsbD (i - 60) := by
  rw [toWord, UInt64.toBitVec_ofBitVec]
  change (d.extraCounterCount ++ BitVec.ofBool d.hasCounterValue ++ BitVec.ofBool d.hasThreadInstructionCount ++
    BitVec.ofBool d.hasThreadTimestamp ++ d.internBlobOffset ++ d.internSeqIndex ++ d.internBlobIndex).getLsbD i = _
  simp only [BitVec.getLsbD_append, BitVec.getLsbD_ofBool]
  grind

theorem extractLsb'_toWord (d : TrackEventDataDescriptor) {start len : ℕ} {v : BitVec len}
    (h : ∀ i < len, d.toWord.toBitVec.getLsbD (start + i) = v.getLsbD i) :
    d.toWord.toBitVec.extractLsb' start len = v := by
  apply BitVec.eq_of_getLsbD_eq
  intro i hi
  rw [BitVec.getLsbD_extractLsb', h i hi, decide_eq_true hi, Bool.true_and]

@[simp] theorem ofWord_toWord (d : TrackEventDataDescriptor) : ofWord d.toWord = d := by
  obtain ⟨blob, seq, off, ts, instr, counter, extra⟩ := d
  simp only [ofWord, mk.injEq]
  refine ⟨?_, ?_, ?_, ?_, ?_, ?_, ?_⟩
  · exact extractLsb'_toWord _ fun i hi => by rw [toWord_getLsbD]; grind
  · exact extractLsb'_toWord _ fun i hi => by rw [toWord_getLsbD]; grind
  · exact extractLsb'_toWord _ fun i hi => by rw [toWord_getLsbD]; grind
  · rw [toWord_getLsbD]
    rfl
  · rw [toWord_getLsbD]
    rfl
  · rw [toWord_getLsbD]
    rfl
  · exact extractLsb'_toWord _ fun i hi => by rw [toWord_getLsbD]; grind

/-- `GetAllocSize`. -/
def getAllocSize (d : TrackEventDataDescriptor) : ℕ :=
  8 + 8 + d.hasThreadInstructionCount.toNat * 8 + d.hasThreadTimestamp.toNat * 8 + d.hasCounterValue.toNat * 8 +
    d.extraCounterCount.toNat * 8

/-- The flags and the count of values that `Append` finds in a token. -/
def ofData (ted : TrackEventData) : TrackEventDataDescriptor where
  hasThreadInstructionCount := ted.threadInstructionCount.isSome
  hasThreadTimestamp := ted.threadTimestamp.isSome
  hasCounterValue := !ted.counterValue.isZero
  extraCounterCount := .ofNat 4 ted.countExtraCounterValues

end TrackEventDataDescriptor

/-! ### The buffer -/

structure BlobWithOffset where
  blob : ℕ
  offsetInBlob : UInt64

/-- The `RefPtr`s that a count exceeds, one more for a pointer that is not null. -/
def releaseUnsafe (leaks : ℕ → ℕ) : Option ℕ → ℕ → ℕ
  | none => leaks
  | some p => Function.update leaks p (leaks p + 1)

def fromReleasedUnsafe (leaks : ℕ → ℕ) : Option ℕ → ℕ → ℕ
  | none => leaks
  | some p => Function.update leaks p (leaks p - 1)

structure TraceTokenBuffer where
  allocator : BumpAllocator := { }
  internedBlobs : List (List BlobWithOffset) := []
  internedSeqs : List (List (Option ℕ)) := []
  blobLeaks : ℕ → ℕ := fun _ => 0
  seqLeaks : ℕ → ℕ := fun _ => 0

namespace TraceTokenBuffer

/-- `AllocAndResizeInternedVectors`. -/
def allocAndResizeInternedVectors (b : TraceTokenBuffer) (size : ℕ) : Option (AllocId × TraceTokenBuffer) := do
  let erased := b.allocator.erasedFrontChunksCount
  let (id, allocator) ← b.allocator.alloc size
  let allocatorChunksSize := id.chunkIndex - erased + 1
  let chunksAdded := allocatorChunksSize - b.internedBlobs.length
  some (id, { b with
    allocator
    internedBlobs := b.internedBlobs ++ List.replicate chunksAdded []
    internedSeqs := b.internedSeqs ++ List.replicate chunksAdded [] })

/-- `GetInternedIndex`. -/
def getInternedIndex (b : TraceTokenBuffer) (id : AllocId) : ℕ :=
  id.chunkIndex - b.allocator.erasedFrontChunksCount

/-- `AddTraceBlob`. -/
def addTraceBlob (b : TraceTokenBuffer) (index : ℕ) (tbv : TraceBlobView) : Option (ℕ × TraceTokenBuffer) := do
  let blobs ← b.internedBlobs[index]?
  let blobs := blobs ++ [⟨tbv.blob, tbv.offset⟩]
  if blobs.length ≤ 65535 then
    some (0, { b with
      internedBlobs := b.internedBlobs.set index blobs
      blobLeaks := releaseUnsafe b.blobLeaks tbv.blob })
  else none

/-- `InternTraceBlob`. -/
def internTraceBlob (b : TraceTokenBuffer) (index : ℕ) (tbv : TraceBlobView) : Option (ℕ × TraceTokenBuffer) := do
  let blobs ← b.internedBlobs[index]?
  match blobs.getLast? with
  | none => b.addTraceBlob index tbv
  | some lastBlob =>
    if lastBlob.blob ≠ tbv.blob then b.addTraceBlob index tbv
    else if lastBlob.offsetInBlob > tbv.offset then b.addTraceBlob index tbv
    else
      let relOffset := (tbv.offset - lastBlob.offsetInBlob).toNat
      if relOffset > TrackEventDataDescriptor.kMaxOffsetFromInternedBlob then b.addTraceBlob index tbv
      else some (relOffset, { b with blobLeaks := releaseUnsafe b.blobLeaks tbv.blob })

/-- `InternSeqState`: the last 32 states are looked at, the latest first. -/
def internSeqState (b : TraceTokenBuffer) (index : ℕ) (ptr : Option ℕ) : Option (ℕ × TraceTokenBuffer) := do
  let states ← b.internedSeqs[index]?
  let lookback := min 32 states.length
  match (List.range lookback).find? fun i => states[states.length - 1 - i]? = some ptr with
  | some i => some (states.length - 1 - i, { b with seqLeaks := releaseUnsafe b.seqLeaks ptr })
  | none =>
    let states := states ++ [ptr]
    if states.length ≤ 65535 then
      some (states.length - 1, { b with
        internedSeqs := b.internedSeqs.set index states
        seqLeaks := releaseUnsafe b.seqLeaks ptr })
    else none

/-- The words that follow the descriptor and the packet size, as far as the descriptor has them. -/
def optionalWords (ted : TrackEventData) : List UInt64 :=
  (ted.threadInstructionCount.map (·.toUInt64)).toList ++ ((ted.threadTimestamp.map (·.toUInt64)).toList ++
    ((if ted.counterValue.isZero then none else some ted.counterValue.bits).toList ++
      (ted.extraCounterValues.toList.take ted.countExtraCounterValues).map (·.bits)))

/-- `Append(TrackEventData)`. -/
def append (b : TraceTokenBuffer) (ted : TrackEventData) : Option (AllocId × TraceTokenBuffer) := do
  let desc := TrackEventDataDescriptor.ofData ted
  let (id, b) ← b.allocAndResizeInternedVectors desc.getAllocSize
  let index := b.getInternedIndex id
  let (internBlobOffset, b) ← b.internTraceBlob index ted.packet
  let blobs ← b.internedBlobs[index]?
  let (internSeqIndex, b) ← b.internSeqState index ted.sequenceState
  let desc := { desc with
    internBlobOffset := .ofNat 25 internBlobOffset
    internBlobIndex := .ofNat 16 (blobs.length - 1)
    internSeqIndex := .ofNat 16 internSeqIndex }
  some (id, { b with allocator := b.allocator.store id (desc.toWord :: ted.packet.length :: optionalWords ted) })

/-- `Append` of an object of another type, given by its words. -/
def appendObject (b : TraceTokenBuffer) (words : List UInt64) : Option (AllocId × TraceTokenBuffer) := do
  let (id, b) ← b.allocAndResizeInternedVectors (words.length * 8)
  some (id, { b with allocator := b.allocator.store id words })

/-- `ExtractFromPtr` where the descriptor has the flag: the value there, and the place behind it. -/
def extractIf (flag : Bool) (words : ℕ → UInt64) (ptr : ℕ) : Option UInt64 × ℕ :=
  if flag then (some (words ptr), ptr + 1) else (none, ptr)

/-- `Extract<TrackEventData>`. -/
def extract (b : TraceTokenBuffer) (id : AllocId) : Option (TrackEventData × TraceTokenBuffer) := do
  let chunk ← b.allocator.chunkOf id
  let words := fun i => chunk.allocation (id.chunkOffset / 8 + i)
  let desc := TrackEventDataDescriptor.ofWord (words 0)
  let packetSize := words 1
  let index := b.getInternedIndex id
  let blobs ← b.internedBlobs[index]?
  let bwo ← blobs[desc.internBlobIndex.toNat]?
  let tbv : TraceBlobView := {
    blob := bwo.blob
    offset := bwo.offsetInBlob + .ofNat desc.internBlobOffset.toNat
    length := packetSize.toUInt32.toUInt64 }
  let seqs ← b.internedSeqs[index]?
  let seq ← seqs[desc.internSeqIndex.toNat]?
  let (threadInstructionCount, ptr) := extractIf desc.hasThreadInstructionCount words 2
  let (threadTimestamp, ptr) := extractIf desc.hasThreadTimestamp words ptr
  let (counterValue, ptr) := extractIf desc.hasCounterValue words ptr
  let ted : TrackEventData := {
    packet := tbv
    sequenceState := seq
    threadInstructionCount := threadInstructionCount.map (·.toInt64)
    threadTimestamp := threadTimestamp.map (·.toInt64)
    counterValue := (counterValue.map Double.mk).getD .zero
    extraCounterValues := .ofFn fun i => if i < desc.extraCounterCount.toNat then ⟨words (ptr + i)⟩ else .zero }
  some (ted, { b with
    allocator := b.allocator.free id
    blobLeaks := fromReleasedUnsafe b.blobLeaks bwo.blob
    seqLeaks := fromReleasedUnsafe b.seqLeaks seq })

/-- `Extract` of an object of another type, of `size` words. -/
def extractObject (b : TraceTokenBuffer) (id : AllocId) (size : ℕ) : Option (List UInt64 × TraceTokenBuffer) := do
  let chunk ← b.allocator.chunkOf id
  some ((List.range size).map fun i => chunk.allocation (id.chunkOffset / 8 + i),
    { b with allocator := b.allocator.free id })

/-- `FreeMemory`. -/
def freeMemory (b : TraceTokenBuffer) : TraceTokenBuffer :=
  let (erased, allocator) := b.allocator.eraseFrontFreeChunks
  { b with
    allocator
    internedBlobs := b.internedBlobs.drop erased
    internedSeqs := b.internedSeqs.drop erased }

end TraceTokenBuffer

end LynxTrace.TraceProcessor
