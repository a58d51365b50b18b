import Mathlib.Algebra.Order.Ring.Int
import Mathlib.Data.List.Basic
import Mathlib.Logic.Function.Basic

/-!
# Profiling.HeapTracker — `HeapTracker` (src/profiling/memory/bookkeeping.{h,cc})

A callstack is interned frame by frame; a node of the trie is the list of the interned frames on the way to it.
Counters are 64-bit.  The counter `allocs` of references and the dumps that it serves are left out.
-/

namespace LynxTrace.Profiling

variable {Loc BuildId Frame : Type*}

/-- `unwindstack::FrameData`: the absolute pc, and the rest of it. -/
structure FrameData (Loc : Type*) where
  pc : ℕ
  loc : Loc

/-- `GlobalCallstackTrie::Node`. -/
abbrev Node (Frame : Type*) := List Frame

/-- `CallstackTotalAllocations`. -/
structure CallstackTotalAllocations where
  allocated : ℕ
  freed : ℕ
  allocationCount : ℕ
  freeCount : ℕ
  deriving DecidableEq, Repr

/-- `CallstackMaxAllocations`. -/
structure CallstackMaxAllocations where
  max : ℕ
  cur : ℕ
  maxCount : ℕ
  curCount : ℕ
  deriving DecidableEq, Repr

/-- `CallstackAllocations`; `dump_at_max_mode_` says which half of the union is in use. -/
structure CallstackAllocations where
  totals : CallstackTotalAllocations
  retainMax : CallstackMaxAllocations
  deriving DecidableEq, Repr

def CallstackAllocations.zero : CallstackAllocations := ⟨⟨0, 0, 0, 0⟩, ⟨0, 0, 0, 0⟩⟩

/-- `HeapTracker::Allocation`. -/
structure Allocation (Frame : Type*) where
  sampleSize : ℕ
  allocSize : ℕ
  sequenceNumber : ℕ
  node : Node Frame

structure PendingOperation where
  allocationAddress : ℕ
  timestamp : ℕ
  deriving DecidableEq, Repr

structure HeapTracker (Frame : Type*) where
  dumpAtMaxMode : Bool
  callstackAllocations : Node Frame → Option CallstackAllocations
  allocations : ℕ → Option (Allocation Frame)
  /-- In the order of the sequence numbers. -/
  pendingOperations : List (ℕ × PendingOperation)
  committedTimestamp : ℕ
  committedSequenceNumber : ℕ
  maxSequenceNumber : ℕ
  currentUnfreed : ℕ
  maxUnfreed : ℕ
  maxTimestamp : ℕ
  frameCache : ℕ → Option Frame

namespace HeapTracker

def init (dumpAtMaxMode : Bool) : HeapTracker Frame where
  dumpAtMaxMode := dumpAtMaxMode
  callstackAllocations := fun _ => none
  allocations := fun _ => none
  pendingOperations := []
  committedTimestamp := 0
  committedSequenceNumber := 0
  maxSequenceNumber := 0
  currentUnfreed := 0
  maxUnfreed := 0
  maxTimestamp := 0
  frameCache := fun _ => none

/-- `uint64_t` addition. -/
def add64 (a b : ℕ) : ℕ := (a + b) % 2 ^ 64

/-- `uint64_t` subtraction. -/
def sub64 (a b : ℕ) : ℕ := (a + 2 ^ 64 - b % 2 ^ 64) % 2 ^ 64

/-! ### Counters of a callstack -/

variable [DecidableEq Frame]

/-- An update through `Allocation::callstack_allocations()`. -/
def modifyCallstack (s : HeapTracker Frame) (node : Node Frame) (f : CallstackAllocations → CallstackAllocations) :
    HeapTracker Frame :=
  { s with callstackAllocations := Function.update s.callstackAllocations node ((s.callstackAllocations node).map f) }

/-- `AddToCallstackAllocations`. -/
def addToCallstackAllocations (s : HeapTracker Frame) (ts : ℕ) (alloc : Allocation Frame) : HeapTracker Frame :=
  if s.dumpAtMaxMode then
    let s := { s with currentUnfreed := add64 s.currentUnfreed alloc.sampleSize }
    let s := s.modifyCallstack alloc.node fun c => { c with retainMax := { c.retainMax with
      cur := add64 c.retainMax.cur alloc.sampleSize
      curCount := add64 c.retainMax.curCount 1 } }
    if s.currentUnfreed ≤ s.maxUnfreed then s
    else
      let toMax (c : CallstackAllocations) : CallstackAllocations := { c with retainMax := { c.retainMax with
        max := c.retainMax.cur
        maxCount := c.retainMax.curCount } }
      let s :=
        if s.maxSequenceNumber = sub64 alloc.sequenceNumber 1 then s.modifyCallstack alloc.node toMax
        else { s with callstackAllocations := fun node => (s.callstackAllocations node).map toMax }
      { s with
        maxSequenceNumber := alloc.sequenceNumber
        maxUnfreed := s.currentUnfreed
        maxTimestamp := ts }
  else
    s.modifyCallstack alloc.node fun c => { c with totals := { c.totals with
      allocated := add64 c.totals.allocated alloc.sampleSize
      allocationCount := add64 c.totals.allocationCount 1 } }

/-- `SubtractFromCallstackAllocations`. -/
def subtractFromCallstackAllocations (s : HeapTracker Frame) (alloc : Allocation Frame) : HeapTracker Frame :=
  if s.dumpAtMaxMode then
    let s := { s with currentUnfreed := sub64 s.currentUnfreed alloc.sampleSize }
    s.modifyCallstack alloc.node fun c => { c with retainMax := { c.retainMax with
      cur := sub64 c.retainMax.cur alloc.sampleSize
      curCount := sub64 c.retainMax.curCount 1 } }
  else
    s.modifyCallstack alloc.node fun c => { c with totals := { c.totals with
      freed := add64 c.totals.freed alloc.sampleSize
      freeCount := add64 c.totals.freeCount 1 } }

/-- `MaybeCreateCallstackAllocations`. -/
def maybeCreateCallstackAllocations (s : HeapTracker Frame) (node : Node Frame) : HeapTracker Frame :=
  { s with callstackAllocations :=
      Function.update s.callstackAllocations node (some ((s.callstackAllocations node).getD .zero)) }

/-! ### Operations -/

/-- An entry of `allocations_` written or erased. -/
def setAllocation (s : HeapTracker Frame) (address : ℕ) (alloc : Option (Allocation Frame)) : HeapTracker Frame :=
  { s with allocations := Function.update s.allocations address alloc }

/-- The start of `CommitOperation`. -/
def advanceCommitted (s : HeapTracker Frame) (timestamp : ℕ) : HeapTracker Frame :=
  { s with
    committedSequenceNumber := add64 s.committedSequenceNumber 1
    committedTimestamp := if timestamp ≠ 0 then timestamp else s.committedTimestamp }

/-- `HeapTracker::CommitOperation`. -/
def commitOperation (s : HeapTracker Frame) (sequenceNumber : ℕ) (operation : PendingOperation) :
    HeapTracker Frame :=
  let s := s.advanceCommitted operation.timestamp
  match s.allocations operation.allocationAddress with
  | none => s
  | some value =>
    if value.sequenceNumber = sequenceNumber then s.addToCallstackAllocations operation.timestamp value
    else if value.sequenceNumber < sequenceNumber then
      (s.subtractFromCallstackAllocations value).setAllocation operation.allocationAddress none
    else s

/-- The loop of `RecordOperation` over the pending operations. -/
def commitPending (s : HeapTracker Frame) : List (ℕ × PendingOperation) → HeapTracker Frame
  | [] => { s with pendingOperations := [] }
  | (sequenceNumber, operation) :: pending =>
    if sequenceNumber = add64 s.committedSequenceNumber 1 then
      commitPending (s.commitOperation sequenceNumber operation) pending
    else { s with pendingOperations := (sequenceNumber, operation) :: pending }

/-- `std::map::emplace`: an operation that is there stays. -/
def emplacePending (sequenceNumber : ℕ) (operation : PendingOperation) :
    List (ℕ × PendingOperation) → List (ℕ × PendingOperation)
  | [] => [(sequenceNumber, operation)]
  | p :: pending =>
    if sequenceNumber < p.1 then (sequenceNumber, operation) :: p :: pending
    else if sequenceNumber = p.1 then p :: pending
    else p :: emplacePending sequenceNumber operation pending

/-- `HeapTracker::RecordOperation`. -/
def recordOperation (s : HeapTracker Frame) (sequenceNumber : ℕ) (operation : PendingOperation) :
    HeapTracker Frame :=
  if sequenceNumber ≠ add64 s.committedSequenceNumber 1 then
    { s with pendingOperations := emplacePending sequenceNumber operation s.pendingOperations }
  else (s.commitOperation sequenceNumber operation).commitPending s.pendingOperations

/-- The loop of `RecordMalloc` over the callstack, with the frames so far. -/
def internFrames (internCodeLocation : FrameData Loc → BuildId → Frame) (frameCache : ℕ → Option Frame) :
    List (FrameData Loc × BuildId) → (ℕ → Option Frame) × List Frame
  | [] => (frameCache, [])
  | (loc, buildId) :: callstack =>
    match frameCache loc.pc with
    | some frame =>
      let r := internFrames internCodeLocation frameCache callstack
      (r.1, frame :: r.2)
    | none =>
      let frame := internCodeLocation loc buildId
      let r := internFrames internCodeLocation (Function.update frameCache loc.pc (some frame)) callstack
      (r.1, frame :: r.2)

/-- The part of `RecordMalloc` on `allocations_`. -/
def recordAllocation (s : HeapTracker Frame) (node : Node Frame) (address sampleSize allocSize sequenceNumber
    timestamp : ℕ) : HeapTracker Frame :=
  match s.allocations address with
  | some alloc =>
    if alloc.sequenceNumber < sequenceNumber then
      let s :=
        if s.committedSequenceNumber < alloc.sequenceNumber then s.addToCallstackAllocations timestamp alloc else s
      ((s.subtractFromCallstackAllocations alloc).maybeCreateCallstackAllocations node).setAllocation address
        (some ⟨sampleSize, allocSize, sequenceNumber, node⟩)
    else s
  | none =>
    (s.maybeCreateCallstackAllocations node).setAllocation address
      (some ⟨sampleSize, allocSize, sequenceNumber, node⟩)

/-- `HeapTracker::RecordMalloc`; `none` is the `PERFETTO_CHECK` on the two lengths. -/
def recordMalloc (internCodeLocation : FrameData Loc → BuildId → Frame) (s : HeapTracker Frame)
    (callstack : List (FrameData Loc)) (buildIds : List BuildId) (address sampleSize allocSize sequenceNumber
    timestamp : ℕ) : Option (HeapTracker Frame) :=
  if callstack.length ≠ buildIds.length then none
  else
    let r := internFrames internCodeLocation s.frameCache (callstack.zip buildIds)
    let s := { s with frameCache := r.1 }
    let s := s.recordAllocation r.2 address sampleSize allocSize sequenceNumber timestamp
    some (s.recordOperation sequenceNumber ⟨address, timestamp⟩)

/-- `HeapTracker::RecordFree`. -/
def recordFree (s : HeapTracker Frame) (address sequenceNumber timestamp : ℕ) : HeapTracker Frame :=
  s.recordOperation sequenceNumber ⟨address, timestamp⟩

end HeapTracker

end LynxTrace.Profiling
