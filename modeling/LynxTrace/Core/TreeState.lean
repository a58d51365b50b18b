import LynxTrace.Base.Forest
import LynxTrace.Core.StorageTypes

/-!
# Core.TreeState — the tree operations of the interpreter
(src/trace_processor/core/interpreter/bytecode_interpreter_impl.cc, interpreter_types.h)

Scratch slabs are functions of the index: they are written before they are read.  `none` is undefined behaviour or a
`PERFETTO_FATAL`.
-/

namespace LynxTrace.TraceProcessor.Core

/-- Parent of a root. -/
def kNullParent : ℕ := 2 ^ 32 - 1

inductive PropagateAggOp
  | sum | min | max | first | last
  deriving DecidableEq, Repr

/-! ### State -/

/-- `TreeState::ColumnStorage`, with the type of its elements. -/
structure ColumnStorage where
  type : StorageType
  data : List type.Elem

structure PropagateDownSpec where
  aggOp : PropagateAggOp
  sourceTsCol : ℕ
  destTsCol : ℕ
  deriving DecidableEq, Repr

/-- `p2c_offsets`, `p2c_children` and `p2c_roots`: the children of each node side by side, in index order. -/
structure P2C where
  offsets : ℕ → ℕ
  children : ℕ → ℕ
  roots : List ℕ

namespace P2C

/-- The children of a node: `p2c_children` between the offsets of the node and of the next one. -/
def childrenOf (p2c : P2C) (node : ℕ) : List ℕ :=
  (List.range' (p2c.offsets node) (p2c.offsets (node + 1) - p2c.offsets node)).map p2c.children

end P2C

structure TreeState where
  parent : List ℕ
  originalRows : List ℕ
  rowCount : ℕ
  columns : List ColumnStorage
  nullBitvectors : List (List Bool)
  propagateDownSpecs : List PropagateDownSpec
  /-- The parent-to-children arrays; `none` when `p2c_valid` is false. -/
  p2c : Option P2C

/-! ### `BuildP2CFromTreeState` -/

section Build

variable (n : ℕ) (parent : ℕ → ℕ)

def childCounts : ℕ → ℕ :=
  (List.range n).foldl (fun counts i =>
    if parent i = kNullParent then counts else Function.update counts (parent i) (counts (parent i) + 1)) fun _ => 0

/-- `p2c_offsets`, the prefix sums of the counts. -/
def prefixSums (counts : ℕ → ℕ) : ℕ → ℕ
  | 0 => 0
  | i + 1 => prefixSums counts i + counts i

/-- The arrays while they are filled; `counts` are the children still to come. -/
structure FillState where
  children : ℕ → ℕ
  counts : ℕ → ℕ
  roots : List ℕ

def fillStep (offsets : ℕ → ℕ) (s : FillState) (i : ℕ) : FillState :=
  if parent i = kNullParent then { s with roots := s.roots ++ [i] } else
    let pos := offsets (parent i + 1) - s.counts (parent i)
    { s with
      children := Function.update s.children pos i
      counts := Function.update s.counts (parent i) (s.counts (parent i) - 1) }

def buildP2C : P2C :=
  let counts := childCounts n parent
  let offsets := prefixSums counts
  let s := (List.range n).foldl (fillStep parent offsets) ⟨fun _ => 0, counts, []⟩
  ⟨offsets, s.children, s.roots⟩

end Build

namespace TreeState

variable (ts : TreeState)

def parentAt (i : ℕ) : ℕ := ts.parent.getD i kNullParent

def buildP2CFromTreeState : P2C := ts.p2c.getD (buildP2C ts.rowCount ts.parentAt)

end TreeState

/-! ### `FilterTreeState` -/

/-- `keep_bv` after the indices have been set. -/
def keepBits (indices : List ℕ) : ℕ → Bool :=
  indices.foldl (fun bv i => Function.update bv i true) fun _ => false

/-- `surviving_ancestor`: for each node itself if kept, else what its parent has. -/
def survivingAncestor (n : ℕ) (p2c : P2C) (keep : ℕ → Bool) : ℕ → ℕ :=
  let atRoots := p2c.roots.foldl (fun a root => if keep root then Function.update a root root else a)
    fun _ => kNullParent
  let visit (a : ℕ → ℕ) (node : ℕ) : ℕ → ℕ :=
    let nodeAncestor := a node
    (p2c.childrenOf node).foldl (fun a child => Function.update a child (if keep child then child else nodeAncestor)) a
  (breadthFirst p2c.childrenOf visit n 0 p2c.roots atRoots).2

/-- `new_count` and `old_to_new`. -/
def numberKept (keep : ℕ → Bool) (n : ℕ) : ℕ × (ℕ → ℕ) :=
  (List.range n).foldl (fun s i => if keep i then (s.1 + 1, Function.update s.2 i s.1) else s) (0, fun _ => kNullParent)

/-- Moves what `f` makes of the kept elements to their new indices, in place. -/
def compactInPlace {α : Type} (keep : ℕ → Bool) (oldToNew : ℕ → ℕ) (f : α → α) (n : ℕ) (data : List α) : List α :=
  (List.range n).foldl (fun d i =>
    if keep i then
      match d[i]? with
      | some x => d.set (oldToNew i) (f x)
      | none => d
    else d) data

/-- `BitVector::Compact`: the bits selected by the mask, in order. -/
def compactBits (keep : ℕ → Bool) (bits : List Bool) : List Bool :=
  (bits.zipIdx.filter fun e => keep e.2).map Prod.fst

/-- The parent of a kept node after the nodes have been renumbered. -/
def reparent (ancestor oldToNew : ℕ → ℕ) (oldParent : ℕ) : ℕ :=
  let a := if oldParent = kNullParent then kNullParent else ancestor oldParent
  if a = kNullParent then kNullParent else oldToNew a

/-- `FilterTreeState`; the indices kept are replaced by those of the smaller tree. -/
def filterTreeState (ts : TreeState) (indices : List ℕ) : TreeState × List ℕ :=
  let n := ts.rowCount
  if n = 0 || indices.length = n then (ts, indices) else
    let p2c := ts.buildP2CFromTreeState
    let keep := keepBits indices
    let ancestor := survivingAncestor n p2c keep
    let newCount := (numberKept keep n).1
    let oldToNew := (numberKept keep n).2
    let originalRows := compactInPlace keep oldToNew id n ts.originalRows
    if newCount = 0 then ({ ts with originalRows := originalRows, rowCount := 0, p2c := none }, []) else
      ({ ts with
          parent := compactInPlace keep oldToNew (reparent ancestor oldToNew) n ts.parent
          originalRows := originalRows
          columns := ts.columns.map fun col => { col with data := compactInPlace keep oldToNew id n col.data }
          nullBitvectors := ts.nullBitvectors.map fun bv => if bv.length = 0 then bv else compactBits keep bv
          rowCount := newCount
          p2c := none },
        List.range newCount)

/-! ### `PropagateTreeDown` -/

/-- Two's complement: the integer of the type that is congruent. -/
def StorageType.wrap (t : StorageType) (z : ℤ) : t.IntOf :=
  ⟨(z - t.minValue) % (t.maxValue - t.minValue + 1) + t.minValue, by
    have hpos : 0 < t.maxValue - t.minValue + 1 := by cases t <;> decide
    have hlow := Int.emod_nonneg (z - t.minValue) hpos.ne'
    have hhigh := Int.emod_lt_of_pos (z - t.minValue) hpos
    omega⟩

namespace PropagateAggOp

/-- The lambda of the operation on integers: of the parent's and the child's value. -/
def combineInt {t : StorageType} : PropagateAggOp → t.IntOf → t.IntOf → t.IntOf
  | sum, p, c => t.wrap (p.val + c.val)
  | min, p, c => if c.val < p.val then c else p
  | max, p, c => if p.val < c.val then c else p
  | first, p, _ => p
  | last, _, c => c

def combineDouble : PropagateAggOp → Double → Double → Double
  | sum, p, c => p.add c
  | min, p, c => p.stdMin c
  | max, p, c => p.stdMax c
  | first, p, _ => p
  | last, _, c => c

/-- `none` for the types `PropagateDownColumn` does not support. -/
def combine (op : PropagateAggOp) : (t : StorageType) → Option (t.Elem → t.Elem → t.Elem)
  | .uint32 => some op.combineInt
  | .int32 => some op.combineInt
  | .int64 => some op.combineInt
  | .double => some op.combineDouble
  | .id | .string => none

end PropagateAggOp

/-- `PropagateDownBfs`. -/
def propagateDownBfs {α : Type} (combine : α → α → α) (parent : ℕ → ℕ) (queue : List ℕ) (d : List α) :
    Option (List α) :=
  queue.foldlM (fun d node =>
    if parent node = kNullParent then some d else do
      let p ← d[parent node]?
      let c ← d[node]?
      pure (d.set node (combine p c))) d

/-- `PropagateDownColumn`; the last value needs no pass. -/
def propagateDownColumn (op : PropagateAggOp) (parent : ℕ → ℕ) (queue : List ℕ) (col : ColumnStorage) :
    Option ColumnStorage := do
  let combine ← op.combine col.type
  if op = .last then pure col else
    let data ← propagateDownBfs combine parent queue col.data
    pure { col with data := data }

/-- `memcpy` of the first `n` elements; both columns have one type. -/
def ColumnStorage.copyFrom (dest source : ColumnStorage) (n : ℕ) : Option ColumnStorage :=
  if h : source.type = dest.type then
    some { dest with data := (source.data.take n).map (cast (congrArg StorageType.Elem h)) ++ dest.data.drop n }
  else none

def propagateSpec (queue : List ℕ) (ts : TreeState) (spec : PropagateDownSpec) : Option TreeState := do
  let source ← ts.columns[spec.sourceTsCol]?
  let dest ← ts.columns[spec.destTsCol]?
  let dest ← dest.copyFrom source ts.rowCount
  let dest ← propagateDownColumn spec.aggOp ts.parentAt queue dest
  pure { ts with columns := ts.columns.set spec.destTsCol dest }

/-- `PropagateTreeDown`: the specs from `specStart` on, over the nodes in breadth-first order. -/
def propagateTreeDown (ts : TreeState) (specStart specCount : ℕ) : Option TreeState :=
  if ts.rowCount = 0 || specCount = 0 then some ts else
    let p2c := ts.buildP2CFromTreeState
    let queue := (breadthFirst p2c.childrenOf (fun (u : Unit) _ => u) ts.rowCount 0 p2c.roots ()).1
    ((ts.propagateDownSpecs.drop specStart).take specCount).foldlM (propagateSpec queue)
      { ts with p2c := some p2c }

end LynxTrace.TraceProcessor.Core
