import LynxTrace.Core.FilterSemantics
import LynxTrace.Core.TreeTransformer
import Mathlib.Data.Fintype.EquivFin

/-!
# Core.TreeSemantics — what the calls of a `TreeTransformer` mean

A tree is a set of rows of the forest it was made from: the rows that are left, in their order, and for each column the
cell of each row.  The parent of a row is its nearest ancestor that is left.
-/

namespace LynxTrace.TraceProcessor.Core

/-! ### Forests given by `TreeColumns` -/

namespace TreeColumns

variable (c : TreeColumns)

def parentOf (i : ℕ) : Option ℕ := (c.parent[i]?).bind toParentId

/-- The columns of a forest: as many cells as rows, null bits for all rows or for none, interned strings, and parent
links without a cycle. -/
structure Valid (pool : StringPool) : Prop where
  rowCount_lt : c.rowCount < 2 ^ 32
  parent_length : c.parent.length = c.rowCount
  parent_lt : ∀ p ∈ c.parent, p = kNullParent ∨ p < c.rowCount
  acyclic : ∀ i, ¬ Relation.TransGen (IsParent c.parentOf) i i
  names_length : c.names.length = c.columns.length
  data_length : ∀ col ∈ c.columns, col.data.length = c.rowCount
  nullBv_length : ∀ col ∈ c.columns, col.nullBv.length = 0 ∨ col.nullBv.length = c.rowCount
  not_id : ∀ col ∈ c.columns, col.type ≠ .id
  strings : ∀ col ∈ c.columns, ∀ (i : ℕ) (id : StringId), (col.data[i]?).map StorageType.Elem.toValue = some (.string id) →
    col.nullBv.length = 0 ∨ col.nullBv[i]? = some true → pool.Contains id

variable {c} {pool : StringPool}

theorem Valid.parentOf_lt (h : c.Valid pool) {i p : ℕ} (hp : c.parentOf i = some p) :
    i < c.rowCount ∧ p < c.rowCount := by
  obtain ⟨x, hx, hxp⟩ := Option.bind_eq_some_iff.mp hp
  have hi := (List.getElem?_eq_some_iff.mp hx).1
  rw [h.parent_length] at hi
  rw [toParentId] at hxp
  split at hxp
  · cases hxp
  · rename_i hne
    rw [Option.some_inj] at hxp
    subst hxp
    exact ⟨hi, (h.parent_lt x (List.mem_of_getElem? hx)).resolve_left hne⟩

/-- A finite set of links without a cycle is well founded. -/
theorem Valid.wf (h : c.Valid pool) : WellFounded (IsParent c.parentOf) := by
  let r : Fin c.rowCount → Fin c.rowCount → Prop := fun p i => Relation.TransGen (IsParent c.parentOf) p i
  have : IsTrans (Fin c.rowCount) r := ⟨fun _ _ _ hab hbc => hab.trans hbc⟩
  have : Std.Irrefl r := ⟨fun i => h.acyclic i⟩
  have hwf : WellFounded r := Finite.wellFounded_of_trans_of_irrefl r
  have hfin : ∀ i : Fin c.rowCount, Acc (IsParent c.parentOf) i := fun i => by
    induction i using hwf.induction with
    | _ i ih =>
      refine ⟨_, fun p hp => ?_⟩
      exact ih ⟨p, (h.parentOf_lt hp).2⟩ (.single hp)
  refine ⟨fun i => ⟨_, fun p hp => ?_⟩⟩
  exact hfin ⟨p, (h.parentOf_lt hp).2⟩

def Valid.forest (h : c.Valid pool) : Forest ℕ := ⟨c.parentOf, h.wf⟩

end TreeColumns

/-! ### Trees -/

/-- A column: its cell at each row of the forest.  `nullable` is whether the column has null bits. -/
structure CellColumn where
  name : String
  type : StorageType
  nullable : Bool
  cell : ℕ → Option type.Elem

/-- The value in a row; `none` is a null. -/
def CellColumn.value (col : CellColumn) (row : ℕ) : Option Value := (col.cell row).map StorageType.Elem.toValue

structure RowTree where
  rows : List ℕ
  columns : List CellColumn

def TreeColumn.toCells (name : String) (col : TreeColumn) : CellColumn where
  name := name
  type := col.type
  nullable := col.nullBv.length ≠ 0
  cell row := if col.nullBv.length = 0 ∨ col.nullBv[row]? = some true then col.data[row]? else none

/-- The tree before the calls. -/
def TreeColumns.toRowTree (c : TreeColumns) : RowTree where
  rows := List.range c.rowCount
  columns := List.zipWith TreeColumn.toCells c.names c.columns

inductive Call
  | filterTree (specs : List (FilterSpec × SqlValue))
  | propagateDown (specs : List PropagateSpec)

/-- The forest on some of the rows. -/
noncomputable def rowForest (F : Forest ℕ) (rows : List ℕ) : Forest ℕ := F.restrict fun row => decide (row ∈ rows)

/-- The fold of a list from its first element on. -/
def foldValues {α : Type} (combine : α → α → α) : List α → Option α
  | [] => none
  | x :: xs => some (xs.foldl combine x)

namespace RowTree

variable (pool : StringPool) (m : Matchers) (F : Forest ℕ) (v : RowTree)

/-- A row satisfies a constraint. -/
def satisfies (s : FilterSpec × SqlValue) (row : ℕ) : Bool :=
  match v.columns[s.1.col]? with
  | some col => s.1.op.holds pool m (col.value row) s.2
  | none => false

def filter (specs : List (FilterSpec × SqlValue)) : RowTree :=
  { v with rows := v.rows.filter fun row => specs.all fun s => v.satisfies pool m s row }

/-- The tree on the rows that are left. -/
noncomputable def forest : Forest ℕ := rowForest F v.rows

/-- The column that a propagation adds: the fold of the cells from the root down to the row, nulls left out. -/
noncomputable def propagatedColumn (spec : PropagateSpec) (source : CellColumn)
    (combine : source.type.Elem → source.type.Elem → source.type.Elem) : CellColumn where
  name := spec.outputColName
  type := source.type
  nullable := false
  cell row := foldValues combine (((v.forest F).path row).filterMap source.cell)

/-- A propagation of a number column that exists. -/
noncomputable def propagate (spec : PropagateSpec) : Option RowTree := do
  let source ← v.columns.find? (·.name = spec.sourceColName)
  let combine ← spec.aggOp.combine source.type
  pure { v with columns := v.columns ++ [v.propagatedColumn F spec source combine] }

end RowTree

/-- The tree after a call. -/
noncomputable def Call.apply (pool : StringPool) (m : Matchers) (F : Forest ℕ) (v : RowTree) : Call → Option RowTree
  | filterTree specs => some (v.filter pool m specs)
  | propagateDown specs => specs.foldlM (RowTree.propagate F) v

/-- The tree after all calls. -/
noncomputable def meaning (pool : StringPool) (m : Matchers) (F : Forest ℕ) (v : RowTree) (calls : List Call) :
    Option RowTree :=
  calls.foldlM (Call.apply pool m F) v

/-! ### The calls considered -/

/-- A condition at each call, on the tree it is made on. -/
def AtEachCall (pool : StringPool) (m : Matchers) (F : Forest ℕ) (P : RowTree → Call → Prop) :
    RowTree → List Call → Prop
  | _, [] => True
  | v, call :: calls => P v call ∧ ∀ v', call.apply pool m F v = some v' → AtEachCall pool m F P v' calls

/-- The constraint is on a column, is a comparison, `GLOB`, `REGEX`, `IS NULL` or `IS NOT NULL`, and fits the type of
the column. -/
def RowTree.Fits (v : RowTree) (s : FilterSpec × SqlValue) : Prop :=
  ∃ col, v.columns[s.1.col]? = some col ∧
    match s.1.op with
    | .isNull | .isNotNull => True
    | .cmp _ => s.2.Fits col.type
    | .glob | .regex => col.type = .string ∧ s.2.Fits .string
    | .isIn => False

def Call.Fits (v : RowTree) : Call → Prop
  | filterTree specs => ∀ s ∈ specs, v.Fits s
  | propagateDown _ => True

/-- `IS NULL` on a column without null bits. -/
def RowTree.AsksNullWithoutBits (v : RowTree) (s : FilterSpec × SqlValue) : Prop :=
  s.1.op = .isNull ∧ ∀ col, v.columns[s.1.col]? = some col → col.nullable = false

/-- The columns propagated in turn have no null in the rows that are left. -/
def RowTree.SourcesFilled (F : Forest ℕ) : RowTree → List PropagateSpec → Prop
  | _, [] => True
  | v, spec :: specs =>
    (∀ source, v.columns.find? (·.name = spec.sourceColName) = some source →
      ∀ row ∈ v.rows, (source.cell row).isSome) ∧
    ∀ v', v.propagate F spec = some v' → SourcesFilled F v' specs

/-- The call does what it means: no `IS NULL` on a column without null bits, unless the other constraints leave no
row anyway, and no propagation from a column with nulls. -/
def Call.Exact (pool : StringPool) (m : Matchers) (F : Forest ℕ) (v : RowTree) : Call → Prop
  | filterTree specs =>
    ∀ s ∈ specs, v.AsksNullWithoutBits s → ∀ row ∈ v.rows, ∃ s' ∈ specs,
      ¬ v.AsksNullWithoutBits s' ∧ v.satisfies pool m s' row = false
  | propagateDown specs => v.SourcesFilled F specs

/-! ### Runs and their result -/

/-- A call on the transformer; `none` if it crashes or returns an error. -/
def Call.run (t : TreeTransformer) : Call → Option TreeTransformer
  | filterTree specs => t.filterTree specs
  | propagateDown specs => (t.propagateDown specs).toOption

/-- The calls in turn, then `ToDataframe`. -/
def runCalls (pool : StringPool) (m : Matchers) (c : TreeColumns) (calls : List Call) : Option (Except String Dataframe) := do
  let t ← calls.foldlM Call.run (TreeTransformer.create c)
  t.toDataframe pool m

/-- The tree that is made a dataframe: an empty forest is returned as it is. -/
def TreeColumns.result (c : TreeColumns) (v : RowTree) : RowTree := if c.rowCount = 0 then c.toRowTree else v

/-- The integers of a column for the builder; a null has 0. -/
def CellColumn.integers (col : CellColumn) (rows : List ℕ) : List ℤ :=
  rows.map fun row => match col.value row with
    | some (.int z) => z
    | _ => 0

/-- A count of the builder wraps around for a column of integers. -/
def CellColumn.Wraps (col : CellColumn) (rows : List ℕ) : Prop :=
  col.type.IsInteger ∧ (CountWraps (col.integers rows) ∨ (∀ row ∈ rows, (col.cell row).isSome) ∧ BackWraps (col.integers rows))

/-- The tree can be made a dataframe. -/
structure RowTree.Builds (v : RowTree) : Prop where
  /-- No name stands twice, or is that of a column that is added. -/
  names : ("_auto_id" :: "_tree_id" :: "_tree_parent_id" :: v.columns.map (·.name)).Nodup
  /-- A dataframe of no columns has no rows. -/
  columns : v.columns = [] → v.rows = []
  fits : ∀ col ∈ v.columns, ¬ col.Wraps v.rows

/-- What a dataframe has in a row of a column. -/
def Dataframe.cellAt (df : Dataframe) (row col : ℕ) : Option (Option Value) := df.columns[col]?.bind (·.getCell row)

/-- The dataframe of a tree: its rows in order, each with the place of its parent, and the cells of each column. -/
structure Dataframe.Shows (df : Dataframe) (F : Forest ℕ) (v : RowTree) : Prop where
  rowCount : df.rowCount = v.rows.length
  columnNames : df.columnNames = ["_tree_id", "_tree_parent_id"] ++ v.columns.map (·.name) ++ ["_auto_id"]
  treeId : ∀ k < v.rows.length, df.cellAt k 0 = some (some (.int k))
  treeParentId : ∀ (k : ℕ) row, v.rows[k]? = some row →
    df.cellAt k 1 = some (((v.forest F).parent row).map fun p => .int (v.rows.idxOf p))
  columns : ∀ (c : ℕ) col, v.columns[c]? = some col → ∀ (k : ℕ) row, v.rows[k]? = some row →
    df.cellAt k (c + 2) = some (col.value row)

end LynxTrace.TraceProcessor.Core
