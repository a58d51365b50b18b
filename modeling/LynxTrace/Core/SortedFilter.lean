import LynxTrace.Base.SortedSearch
import LynxTrace.Core.Column
import LynxTrace.Core.FilterValue

/-!
# Core.SortedFilter — constraints on sorted columns
(src/trace_processor/core/dataframe/query_plan.cc, src/trace_processor/core/interpreter/bytecode_interpreter_impl.h)

A constraint narrows a range of rows.  The bounds are `uint32_t`.  The value has been cast to the type of the column.
`none` is a path that the planner does not take, or undefined behaviour.
-/

namespace LynxTrace.TraceProcessor.Core

structure Range where
  b : ℕ
  e : ℕ
  deriving DecidableEq, Repr

inductive BoundModifier
  | bothBounds | beginBound | endBound
  deriving DecidableEq, Repr

/-- `EqualRangeLowerBoundUpperBound`. -/
inductive RangeOp
  | equalRange | lowerBound | upperBound
  deriving DecidableEq, Repr

/-- `GetSortedFilterArgs`; `!=` is not a `RangeOp`. -/
def getSortedFilterArgs : CmpOp → Option (BoundModifier × RangeOp)
  | .eq => some (.bothBounds, .equalRange)
  | .lt => some (.endBound, .lowerBound)
  | .le => some (.endBound, .upperBound)
  | .gt => some (.beginBound, .upperBound)
  | .ge => some (.beginBound, .lowerBound)
  | .ne => none

/-- A stored element against a cast value. -/
def CmpOp.stored (pool : StringPool) (op : CmpOp) : Value → FilterVal → Bool
  | .int x, .int y => op.int x y
  | .double x, .double y => op.double x y
  | .string id, .string s => op.bytes (pool.get id) s
  | _, _ => false

/-- `SortedFilter<Id, RangeOp>`. -/
def idSortedFilter (rangeOp : RangeOp) (boundToModify : BoundModifier) (innerVal : ℕ) (update : Range) : Range :=
  match rangeOp with
  | .equalRange =>
    let inBounds := update.b ≤ innerVal ∧ innerVal < update.e
    ⟨innerVal, (innerVal + if inBounds then 1 else 0) % 2 ^ 32⟩
  | rangeOp =>
    let effectiveVal := (innerVal + if rangeOp = .upperBound then 1 else 0) % 2 ^ 32
    let newB := if boundToModify = .beginBound then max update.b effectiveVal else update.b
    let newE := if boundToModify = .beginBound then update.e else min update.e effectiveVal
    ⟨newB, max newB newE⟩

/-- The loop from the first equal row on; it gives up after 16 rows, and a binary search takes over. -/
def scanEqual (isEqual : Value → Bool) (upper : ℕ) : List Value → ℕ → ℕ
  | [], n => n
  | x :: xs, n => if n = 16 then upper else if isEqual x then scanEqual isEqual upper xs (n + 1) else n

/-- `cmp_value`; a string that is not interned has none. -/
def cmpValue (pool : StringPool) : FilterVal → Option Value
  | .int z => some (.int z)
  | .double d => some (.double d)
  | .string s => (pool.getId s).map .string

/-- The equality of two elements: of numbers, or of string ids. -/
def Value.equals : Value → Value → Bool
  | .double x, .double y => x.eq y
  | x, y => x = y

/-- `NonIdSortedFilter<RangeOp>`. -/
def nonIdSortedFilter (pool : StringPool) (rangeOp : RangeOp) (data : List Value) (val : FilterVal)
    (boundModifier : BoundModifier) (update : Range) : Range :=
  let rows := (data.drop update.b).take (update.e - update.b)
  let lower := partitionPoint (fun x => CmpOp.lt.stored pool x val) rows
  let upper := partitionPoint (fun x => !CmpOp.gt.stored pool x val) rows
  match rangeOp with
  | .equalRange =>
    match cmpValue pool val with
    | none => { update with e := update.b }
    | some cmp =>
      let eqStart := rows.drop lower
      let fromStart := partitionPoint (fun x => !CmpOp.gt.stored pool x val) eqStart
      ⟨update.b + lower, update.b + lower + scanEqual (·.equals cmp) fromStart eqStart 0⟩
  | rangeOp =>
    let res := update.b + if rangeOp = .lowerBound then lower else upper
    if boundModifier = .beginBound then { update with b := res } else { update with e := res }

/-- `Uint32SetIdSortedEq`; the loop stops at the first row with another value. -/
def uint32SetIdSortedEq (data : List Value) (val : ℕ) (update : Range) : Range :=
  let start := max update.b (min val update.e)
  ⟨start, start + partitionPoint (· = .int val) ((data.drop start).take (update.e - start))⟩

/-- `SpecializedStorageSmallValueEq`; the second assignment reads the new begin of the range. -/
def specializedStorageSmallValueEq (storage : SmallValueEq) (val : ℕ) (update : Range) : Range :=
  let bv := storage.bitVector
  let k := if val < bv.size ∧ bv.isSet val then storage.prefixPopcount.getD (val / 64) 0 + bv.countSetBitsUntilInWord val
    else update.e
  let inBounds := update.b ≤ k ∧ k < update.e
  let b := if inBounds then k else update.e
  ⟨b, if inBounds then k + 1 else b⟩

/-- `SortedFilter<T, RangeOp>`. -/
def sortedFilter (pool : StringPool) (storage : Storage) (rangeOp : RangeOp) (bound : BoundModifier) (val : FilterVal)
    (update : Range) : Option Range :=
  match storage, val with
  | .id _, .int z => some (idSortedFilter rangeOp bound z.toNat update)
  | .id _, _ => none
  | .flex _ data, val => some (nonIdSortedFilter pool rangeOp data val bound update)

/-- The bytecode that `TrySortedConstraint` chooses, run on a range. -/
def trySortedConstraint (pool : StringPool) (col : Column) (op : CmpOp) (val : FilterVal) (update : Range) : Option Range :=
  if col.nullStorage ≠ .nonNull ∨ col.sortState = .unsorted then none
  else do
    let (bound, rangeOp) ← getSortedFilterArgs op
    if col.storage.type = .uint32 ∧ col.sortState = .setIdSorted ∧ op = .eq then
      match col.storage, val with
      | .flex _ data, .int z => some (uint32SetIdSortedEq data z.toNat update)
      | _, _ => none
    else
      match col.specializedStorage, op, val with
      | some smallValueEq, .eq, .int z => some (specializedStorageSmallValueEq smallValueEq z.toNat update)
      | some _, .eq, _ => none
      | _, _, val => sortedFilter pool col.storage rangeOp bound val update

end LynxTrace.TraceProcessor.Core
