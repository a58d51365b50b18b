import Mathlib.Algebra.Order.Ring.Int

/-!
# TraceProcessor.SliceTracker — the slices of one track
(src/trace_processor/importers/common/slice_tracker.cc)

`Begin`, `Scoped` and `End` on one track, with the rows of the slice table that they insert and change; rows of other
tracks, arguments and instance ids are not read by them.  A row number is an index.  The stack has `back()` last.
Strings are interned, so that ids are equal if the strings are; `none` is the null id.  `int64_t` arithmetic wraps.

What `MaybeCloseStack` decides to close is recorded beside what it pops.
-/

namespace LynxTrace.TraceProcessor

/-- A number as an `int64_t`. -/
def int64 (x : ℤ) : ℤ := Int.bmod x (2 ^ 64)

/-- The columns of the slice table that the tracker reads and writes. -/
structure Slice where
  ts : ℤ
  dur : ℤ
  category : Option String
  name : Option String
  depth : ℕ := 0
  parentId : Option ℕ := none
  deriving DecidableEq, Repr

def kPendingDuration : ℤ := -1

def kMaxDepth : ℕ := 512

namespace Slice

def endTs (x : Slice) : ℤ := int64 (x.ts + x.dur)

def pending (x : Slice) : Bool := x.dur = kPendingDuration

def jsprofile (x : Slice) : Bool := x.category = some "jsprofile"

/-- `ends_before || ends_same_and_should_drop`. -/
def closes (x : Slice) (newTs newDur : ℤ) : Bool :=
  x.endTs < newTs || (x.endTs = newTs && !(x.dur = 0 && newDur = 0))

/-- The check for invalid nesting. -/
def overlapsEnd (x : Slice) (newTs newDur : ℤ) : Bool :=
  newDur ≠ kPendingDuration && newTs < x.endTs && x.endTs < int64 (newTs + newDur)

end Slice

structure SliceTracker where
  slices : List Slice := []
  stack : List ℕ := []
  deriving DecidableEq, Repr

namespace SliceTracker

/-- `set_dur`. -/
def setDur (s : SliceTracker) (row : ℕ) (dur : ℤ) : SliceTracker :=
  { s with slices := s.slices.modify row fun x => { x with dur := dur } }

/-- `StackPop`: the back of the stack. -/
def stackPop (s : SliceTracker) : SliceTracker := { s with stack := s.stack.dropLast }

/-- The loop that truncates and pops the slices above a slice of index `i`, `n` of them. -/
def truncate (endTs : ℤ) (i : ℕ) : ℕ → SliceTracker → SliceTracker
  | 0, s => s
  | n + 1, s =>
    match s.stack[i + n + 1]? with
    | none => s
    | some row =>
      let childTs := (s.slices[row]?.map Slice.ts).getD 0
      truncate endTs i n (s.setDur row (int64 (endTs - childTs))).stackPop

/-- What `MaybeCloseStack` leaves: the tracker, the rows that it has decided are closed, and its result. -/
structure Closed where
  tracker : SliceTracker
  decided : List ℕ
  ok : Bool

/-- The loop of `MaybeCloseStack`, over the lowest `i` slices of the stack. -/
def closeLoop (newTs newDur : ℤ) : ℕ → Bool → SliceTracker → List ℕ → Closed
  | 0, _, s, decided => ⟨s, decided, true⟩
  | i + 1, incompleteDescendent, s, decided =>
    match s.stack[i]?.bind fun row => s.slices[row]?.map fun x => (row, x) with
    | none => ⟨s, decided, true⟩
    | some (row, x) =>
      if x.pending then closeLoop newTs newDur i true s decided
      else if x.jsprofile && incompleteDescendent then
        closeLoop newTs newDur i incompleteDescendent (s.setDur row (int64 (newTs - x.ts))) decided
      else if incompleteDescendent then
        -- only process slices if the ts is past the end of the slice
        if newTs ≤ x.endTs then closeLoop newTs newDur i incompleteDescendent s decided
        else
          let truncated := truncate x.endTs i (s.stack.length - 1 - i) s
          closeLoop newTs newDur i false truncated.stackPop (decided ++ s.stack.drop i)
      else if x.closes newTs newDur then
        closeLoop newTs newDur i incompleteDescendent s.stackPop (decided ++ [row])
      else if x.overlapsEnd newTs newDur then ⟨s, decided, false⟩
      else closeLoop newTs newDur i incompleteDescendent s decided

/-- `MaybeCloseStack`. -/
def maybeCloseStack (s : SliceTracker) (newTs newDur : ℤ) : Closed := closeLoop newTs newDur s.stack.length false s []

/-- `tracing_started_ns` and `tracing_disabled_ns` of the metadata. -/
structure TraceBounds where
  startTs : ℤ := 0
  endTs : ℤ := 2 ^ 63 - 1

/-- `StartSlice`. -/
def startSlice (bounds : TraceBounds) (s : SliceTracker) (timestamp duration : ℤ) (category name : Option String) :
    Option ℕ × SliceTracker :=
  if timestamp < bounds.startTs ∨ bounds.endTs < timestamp then (none, s)
  else
    let closed := s.maybeCloseStack timestamp duration
    let s := closed.tracker
    if !closed.ok then (none, s)
    else
      let depth := s.stack.length
      let parentId := s.stack.getLast?
      let id := s.slices.length
      let s := { s with slices := s.slices ++ [{ ts := timestamp, dur := duration, category, name }] }
      if kMaxDepth ≤ depth then (none, s)
      else (some id, {
        slices := s.slices.modify id fun x => { x with depth := depth, parentId := parentId }
        stack := s.stack ++ [id] })

/-- The test of `MatchingIncompleteSliceIndex`. -/
def isMatching (category name : Option String) (x : Slice) : Bool :=
  x.pending && (category = none || x.category = category) && (name = none || x.name = none || x.name = name)

/-- `MatchingIncompleteSliceIndex`, the loop over the lowest `i` slices. -/
def matchingIncompleteSliceIndex (s : SliceTracker) (category name : Option String) : ℕ → Option ℕ
  | 0 => none
  | i + 1 =>
    if (s.stack[i]?.bind (s.slices[·]?)).any (isMatching category name) then some i
    else matchingIncompleteSliceIndex s category name i

/-- `CompleteSlice`, with the finder of `End`. -/
def completeSlice (s : SliceTracker) (timestamp : ℤ) (category name : Option String) : Option ℕ × SliceTracker :=
  let closed := s.maybeCloseStack timestamp kPendingDuration
  let s := closed.tracker
  if !closed.ok then (none, s)
  else
    match s.matchingIncompleteSliceIndex category name s.stack.length with
    | none => (none, s)
    | some idx =>
      match s.stack[idx]?.bind fun row => s.slices[row]?.map fun x => (row, x) with
      | none => (none, s)
      | some (row, x) =>
        let s := s.setDur row (int64 (timestamp - x.ts))
        (some row, if idx + 1 = s.stack.length then s.stackPop else s)

inductive Call
  | beginSlice (timestamp : ℤ) (category rawName : Option String)
  | scopedSlice (timestamp : ℤ) (category rawName : Option String) (duration : ℤ)
  | endSlice (timestamp : ℤ) (category rawName : Option String)
  deriving DecidableEq, Repr

def Call.timestamp : Call → ℤ
  | beginSlice timestamp _ _ | scopedSlice timestamp _ _ _ | endSlice timestamp _ _ => timestamp

/-- `Begin`, `Scoped` and `End`; `translate` is `TranslateName`. -/
def step (bounds : TraceBounds) (translate : Option String → Option String) (s : SliceTracker) :
    Call → Option ℕ × SliceTracker
  | .beginSlice timestamp category rawName =>
    s.startSlice bounds timestamp kPendingDuration category (translate rawName)
  | .scopedSlice timestamp category rawName duration =>
    if duration < 0 then (none, s) else s.startSlice bounds timestamp duration category (translate rawName)
  | .endSlice timestamp category rawName => s.completeSlice timestamp category (translate rawName)

end SliceTracker

end LynxTrace.TraceProcessor
