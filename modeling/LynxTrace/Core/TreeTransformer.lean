import LynxTrace.Core.DataframeOfCells
import LynxTrace.Core.FilterValue
import LynxTrace.Core.TreeState

/-!
# Core.TreeTransformer — `TreeTransformer` (src/trace_processor/core/tree/tree_transformer.{h,cc})

The calls append bytecode; `toDataframe` runs it over one tree state.  A storage or null-bitvector register holds the
column it points into, so reading through it sees what the steps before have made of the column.  `none` is undefined
behaviour or a failed `PERFETTO_CHECK`.
-/

namespace LynxTrace.TraceProcessor.Core

/-! ### Bytecode -/

inductive Bytecode
  | initRange (size dest : ℕ)
  | allocateIndices (size destSlab destSpan : ℕ)
  | iota (source update : ℕ)
  /-- `NullFilter<IsNull>` or `NullFilter<IsNotNull>`. -/
  | nullFilter (invert : Bool) (nullBv update : ℕ)
  | castFilterValue (type : StorageType) (fvalHandle write : ℕ) (op : Op)
  | stringFilter (op : Op) (storage val source update : ℕ)
  | nonStringFilter (type : StorageType) (op : CmpOp) (storage val source update : ℕ)
  | filterTreeState (treeState indices : ℕ)
  | propagateTreeDown (treeState specStart specCount : ℕ)
  deriving DecidableEq, Repr

inductive Register
  | unset
  | range (b e : ℕ)
  | slab (size : ℕ)
  | span (indices : List ℕ)
  | cast (result : CastFilterValueResult)
  | storage (col : ℕ)
  | nullBv (col : ℕ)
  | treeState

structure InterpreterState where
  regs : ℕ → Register
  tree : TreeState

namespace InterpreterState

def write (s : InterpreterState) (reg : ℕ) (r : Register) : InterpreterState :=
  { s with regs := Function.update s.regs reg r }

@[simp] theorem write_regs_self (s : InterpreterState) (reg : ℕ) (r : Register) : (s.write reg r).regs reg = r :=
  Function.update_self _ _ _

theorem write_regs_of_ne (s : InterpreterState) {reg reg' : ℕ} (h : reg' ≠ reg) (r : Register) :
    (s.write reg r).regs reg' = s.regs reg' :=
  Function.update_of_ne h _ _

@[simp] theorem write_tree (s : InterpreterState) (reg : ℕ) (r : Register) : (s.write reg r).tree = s.tree := rfl

end InterpreterState

/-- The element at an index of a column, through its storage pointer. -/
def TreeState.read (ts : TreeState) (col i : ℕ) : Option Value := do
  let c ← ts.columns[col]?
  let e ← c.data[i]?
  pure e.toValue

/-- The element a filter for a type compares: for `Id` it is the index itself. -/
def TreeState.readAs (ts : TreeState) (type : StorageType) (col i : ℕ) : Option Value :=
  if type = .id then some (.int i) else ts.read col i

/-- `BitVector::PackLeft`. -/
def packLeft (invert : Bool) (bits : List Bool) : List ℕ → Option (List ℕ)
  | [] => some []
  | i :: source => do
    let bit ← bits[i]?
    let kept ← packLeft invert bits source
    pure (if bit != invert then i :: kept else kept)

namespace Register

/-- What a register holds, when it holds a value of the kind. -/
def asRange : Register → Option (ℕ × ℕ)
  | range b e => some (b, e)
  | _ => none

def asSpan : Register → Option (List ℕ)
  | span l => some l
  | _ => none

def asCast : Register → Option CastFilterValueResult
  | cast r => some r
  | _ => none

def asStorage : Register → Option ℕ
  | storage col => some col
  | _ => none

def asNullBv : Register → Option ℕ
  | nullBv col => some col
  | _ => none

def asTreeState : Register → Option Unit
  | treeState => some ()
  | _ => none

end Register

/-- One bytecode of the interpreter. -/
def Bytecode.exec (pool : StringPool) (m : Matchers) (values : List SqlValue) (bc : Bytecode)
    (s : InterpreterState) : Option InterpreterState :=
  match bc with
  | initRange size dest => some (s.write dest (.range 0 size))
  | allocateIndices size destSlab destSpan =>
    match s.regs destSlab with
    | .slab _ => some (s.write destSpan (.span (List.replicate size 0)))
    | _ => some ((s.write destSlab (.slab size)).write destSpan (.span (List.replicate size 0)))
  | iota source update => do
    let (b, e) ← (s.regs source).asRange
    let l ← (s.regs update).asSpan
    if e - b ≤ l.length then some (s.write update (.span (List.range' b (e - b)))) else none
  | nullFilter invert nullBv update => do
    let col ← (s.regs nullBv).asNullBv
    let l ← (s.regs update).asSpan
    let bits ← s.tree.nullBitvectors[col]?
    let kept ← packLeft invert bits l
    pure (s.write update (.span kept))
  | castFilterValue type fvalHandle write op => do
    let v ← values[fvalHandle]?
    let r ← Core.castFilterValue type op v
    pure (s.write write (.cast r))
  | stringFilter op storage val source update => do
    let col ← (s.regs storage).asStorage
    let value ← (s.regs val).asCast
    let src ← (s.regs source).asSpan
    let upd ← (s.regs update).asSpan
    let kept ← pool.stringFilter m (s.tree.read col) op value src upd
    pure (s.write update (.span kept))
  | nonStringFilter type op storage val source update => do
    let col ← (s.regs storage).asStorage
    let value ← (s.regs val).asCast
    let src ← (s.regs source).asSpan
    let upd ← (s.regs update).asSpan
    let kept ← Core.nonStringFilter (s.tree.readAs type col) op value src upd
    pure (s.write update (.span kept))
  | filterTreeState treeState indices => do
    let () ← (s.regs treeState).asTreeState
    let l ← (s.regs indices).asSpan
    let r := Core.filterTreeState s.tree l
    pure ({ s with tree := r.1 }.write indices (.span r.2))
  | propagateTreeDown treeState specStart specCount => do
    let () ← (s.regs treeState).asTreeState
    let tree ← Core.propagateTreeDown s.tree specStart specCount
    pure { s with tree := tree }

/-- `Interpreter::Execute`. -/
def execute (pool : StringPool) (m : Matchers) (values : List SqlValue) (code : List Bytecode)
    (s : InterpreterState) : Option InterpreterState :=
  code.foldlM (fun s bc => bc.exec pool m values s) s

/-! ### The transformer -/

/-- What a slab holds before it is written: any element. -/
def StorageType.uninitialized : (t : StorageType) → t.Elem
  | .id => ⟨0, by decide⟩
  | .uint32 => ⟨0, by decide⟩
  | .int32 => ⟨0, by decide⟩
  | .int64 => ⟨0, by decide⟩
  | .double => Double.zero
  | .string => (0 : ℕ)

/-- `TreeColumns::Column`; `nullBv` is not empty only if the column has nulls. -/
structure TreeColumn extends ColumnStorage where
  nullBv : List Bool

structure TreeColumns where
  rowCount : ℕ
  parent : List ℕ
  names : List String
  columns : List TreeColumn

structure FilterSpec where
  col : ℕ
  op : Op

structure PropagateSpec where
  aggOp : PropagateAggOp
  sourceColName : String
  outputColName : String

/-- `RegInit`: the register and the column it is to point into. -/
inductive RegInit
  | storage (reg col : ℕ)
  | nullBv (reg col : ℕ)
  deriving DecidableEq, Repr

def RegInit.reg : RegInit → ℕ
  | storage reg _ => reg
  | nullBv reg _ => reg

structure TreeTransformer where
  cols : TreeColumns
  bytecode : List Bytecode := []
  registerCount : ℕ := 0
  spanReg : ℕ := 0
  treeStateReg : ℕ := 0
  regInits : List RegInit := []
  filterValues : List SqlValue := []
  filterValueCount : ℕ := 0
  propagateSpecs : List PropagateDownSpec := []
  hasOperations : Bool := false

namespace TreeTransformer

/-- The constructor: the indices of all rows. -/
def create (cols : TreeColumns) : TreeTransformer :=
  if cols.rowCount = 0 then { cols := cols } else
    { cols := cols
      bytecode := [.initRange cols.rowCount 0, .allocateIndices cols.rowCount 1 2, .iota 0 2]
      registerCount := 4
      spanReg := 2
      treeStateReg := 3 }

variable (t : TreeTransformer)

def resolveColumn (name : String) : Option ℕ := t.cols.names.findIdx? (· = name)

def addOpcode (bc : Bytecode) : TreeTransformer := { t with bytecode := t.bytecode ++ [bc] }

/-- `AllocateRegister`: the register is the old `registerCount`. -/
def allocateRegister : TreeTransformer := { t with registerCount := t.registerCount + 1 }

def addFilterValue (v : SqlValue) : TreeTransformer :=
  { t with filterValues := t.filterValues ++ [v], filterValueCount := t.filterValueCount + 1 }

def addRegInit (ri : RegInit) : TreeTransformer := { t with regInits := t.regInits ++ [ri] }

/-- A null filter on the span, with a fresh register for the null bits of the column. -/
def emitNullFilter (invert : Bool) (col : ℕ) : TreeTransformer :=
  (t.allocateRegister.addOpcode (.nullFilter invert t.registerCount t.spanReg)).addRegInit
    (.nullBv t.registerCount col)

/-- Casts the next filter value into a fresh register. -/
def emitCast (type : StorageType) (op : Op) (value : SqlValue) : TreeTransformer :=
  (t.allocateRegister.addOpcode (.castFilterValue type t.filterValueCount t.registerCount op)).addFilterValue value

/-- Prunes the indices of nulls if the column has nulls. -/
def emitPruneNulls (nullBv : List Bool) (col : ℕ) : TreeTransformer :=
  if nullBv.length = 0 then t else t.emitNullFilter false col

/-- A fresh register that points to the data of the column. -/
def emitStorage (col : ℕ) : TreeTransformer := t.allocateRegister.addRegInit (.storage t.registerCount col)

/-- The body of the loop of `FilterTree`. -/
def emitConstraint (spec : FilterSpec) (value : SqlValue) : Option TreeTransformer := do
  let col ← t.cols.columns[spec.col]?
  match spec.op with
  | .isNull | .isNotNull =>
    let t := t.addFilterValue value
    pure (if col.nullBv.length = 0 then t else t.emitNullFilter (spec.op = .isNull) spec.col)
  | .isIn => none
  | op =>
    let valueReg := t.registerCount
    let t := (t.emitCast col.type op value).emitPruneNulls col.nullBv spec.col
    let storageReg := t.registerCount
    let t := t.emitStorage spec.col
    match col.type, op with
    | .string, op => pure (t.addOpcode (.stringFilter op storageReg valueReg t.spanReg t.spanReg))
    | type, .cmp op => pure (t.addOpcode (.nonStringFilter type op storageReg valueReg t.spanReg t.spanReg))
    | _, _ => none

/-- `FilterTree`; the values go with the specs one by one. -/
def filterTree (specs : List (FilterSpec × SqlValue)) : Option TreeTransformer :=
  if t.cols.rowCount = 0 || specs.isEmpty then some t else do
    let t ← specs.foldlM (fun t s => t.emitConstraint s.1 s.2) { t with hasOperations := true }
    pure (t.addOpcode (.filterTreeState t.treeStateReg t.spanReg))

/-- The loop body of `PropagateDown`: adds the column and the spec. -/
def addPropagateSpec (spec : PropagateSpec) : Except String TreeTransformer :=
  match (t.resolveColumn spec.sourceColName).bind fun src => (t.cols.columns[src]?).map (src, ·) with
  | none => .error ("propagate_down: source column '" ++ spec.sourceColName ++ "' not found")
  | some (src, col) =>
    if col.type = .string then
      .error ("propagate_down: string columns are not supported (column '" ++ spec.sourceColName ++ "')")
    else if col.type = .id then
      .error ("propagate_down: Id columns are not supported (column '" ++ spec.sourceColName ++ "')")
    else
      .ok { t with
        cols := { t.cols with
          names := t.cols.names ++ [spec.outputColName]
          columns := t.cols.columns ++ [⟨⟨col.type, List.replicate t.cols.rowCount col.type.uninitialized⟩, []⟩] }
        propagateSpecs := t.propagateSpecs ++ [⟨spec.aggOp, src, t.cols.names.length⟩] }

/-- `PropagateDown`; after an error the callers drop the transformer. -/
def propagateDown (specs : List PropagateSpec) : Except String TreeTransformer :=
  if t.cols.rowCount = 0 || specs.isEmpty then .ok t else do
    let specStart := t.propagateSpecs.length
    let t ← specs.foldlM addPropagateSpec t
    pure ({ t with hasOperations := true }.addOpcode
      (.propagateTreeDown t.treeStateReg specStart (t.propagateSpecs.length - specStart)))

end TreeTransformer

/-! ### `ToDataframe` -/

/-- The argument of `PushNonNull`; an `Id` is a `PERFETTO_FATAL`. -/
def StorageType.Elem.toAdhoc : {t : StorageType} → t.Elem → Option AdhocValue
  | .id, _ => none
  | .uint32, e => some (.int64 (.ofInt e.val))
  | .int32, e => some (.int64 (.ofInt e.val))
  | .int64, e => some (.int64 (.ofInt e.val))
  | .double, e => some (.double e)
  | .string, e => some (.string e)

/-- One push of `BuildDataColumns`, with `PushColumnValue`. -/
def pushCell (ci : ℕ) (col : ColumnStorage) (nullBv : List Bool) (row : ℕ) : Option PushCall := do
  let isSet ← if nullBv.length = 0 then some true else nullBv[row]?
  if isSet then
    let e ← col.data[row]?
    let v ← e.toAdhoc
    pure (.pushNonNull ci v 1)
  else pure (.pushNull ci 1)

/-- The pushes of `BuildDataColumns` for as many columns as there are names. -/
def dataCalls (names : ℕ) (columns : List ColumnStorage) (nullBvs : List (List Bool)) (rowCount : ℕ) :
    Option (List PushCall) := do
  let calls ← (List.range names).mapM fun ci => do
    let col ← columns[ci]?
    let nullBv ← nullBvs[ci]?
    (List.range rowCount).mapM (pushCell ci col nullBv)
  pure calls.flatten

def toParentId (p : ℕ) : Option ℕ := if p = kNullParent then none else some p

namespace TreeTransformer

variable (t : TreeTransformer)

/-- The tree state that the columns are moved into. -/
def initialTree : TreeState where
  parent := t.cols.parent
  originalRows := List.range t.cols.rowCount
  rowCount := t.cols.rowCount
  columns := t.cols.columns.map (·.toColumnStorage)
  nullBitvectors := t.cols.columns.map (·.nullBv)
  propagateDownSpecs := t.propagateSpecs
  p2c := none

def initRegister (regs : ℕ → Register) : RegInit → ℕ → Register
  | .storage reg col => Function.update regs reg (.storage col)
  | .nullBv reg col => Function.update regs reg (.nullBv col)

/-- The registers set before the bytecode runs. -/
def initialRegs : ℕ → Register :=
  t.regInits.foldl initRegister (Function.update (fun _ => .unset) t.treeStateReg .treeState)

/-- The pushes to `tree_builder`. -/
def treeCalls (parent : List ℕ) (rowCount : ℕ) : Option (List PushCall) := do
  let calls ← (List.range rowCount).mapM fun i => do
    let p ← parent[i]?
    pure [.pushNonNull 0 (.int64 (.ofInt i)) 1,
      if p = kNullParent then .pushNull 1 1 else .pushNonNull 1 (.int64 (.ofInt p)) 1]
  pure calls.flatten

/-- A dense null dataframe of pushes. -/
def buildPushed (pool : StringPool) (names : List String) (calls : List PushCall) : Option (Except String Dataframe) := do
  let b ← (AdhocDataframeBuilder.ofNames names { nullabilityType := .kDenseNull }).pushEach calls
  b.build pool

def buildOutput (pool : StringPool) (names : List String) (parent : List ℕ) (rowCount : ℕ) (columns : List ColumnStorage)
    (nullBvs : List (List Bool)) : Option (Except String Dataframe) := do
  let treeCols ← buildPushed pool ["_tree_id", "_tree_parent_id"] (← treeCalls parent rowCount)
  match treeCols with
  | .error e => pure (.error e)
  | .ok treeCols =>
    let dataCols ← buildPushed pool names (← dataCalls names.length columns nullBvs rowCount)
    match dataCols with
    | .error e => pure (.error e)
    | .ok dataCols => treeCols.horizontalConcat dataCols

def toDataframe (pool : StringPool) (m : Matchers) : Option (Except String Dataframe) :=
  if t.cols.rowCount = 0 || !t.hasOperations then
    buildOutput pool t.cols.names t.cols.parent t.cols.rowCount (t.cols.columns.map (·.toColumnStorage))
      (t.cols.columns.map (·.nullBv))
  else do
    let s ← execute pool m t.filterValues t.bytecode ⟨t.initialRegs, t.initialTree⟩
    buildOutput pool t.cols.names s.tree.parent s.tree.rowCount s.tree.columns s.tree.nullBitvectors

end TreeTransformer

end LynxTrace.TraceProcessor.Core
