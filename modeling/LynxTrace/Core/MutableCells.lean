import LynxTrace.Core.Column

/-!
# Core.MutableCells — cells of an unfinalized dataframe
(src/trace_processor/core/dataframe/dataframe.h, `InsertUnchecked`, `SetCell`, `GetCell`; dataframe.cc, `Clear`)

A cell is given as an optional value: nothing for a `NonNull` column is ill-typed, and an `Id` column is given no
value, only that there is one.  `none` stands for what the C++ types or the contract of a function exclude: a wrong
number of values, a row or a column that is not there, `SetCell` of an `Id` column, `SetCell` and `GetCell` of a
sparse column without popcounts.  Rows, elements of an `Id` column, popcounts and mutations are counted in `uint32_t`s,
which wrap.
-/

namespace LynxTrace.TraceProcessor.Core

/-- `++` of a `uint32_t`. -/
def increment (n : ℕ) : ℕ := (n + 1) % 2 ^ 32

theorem increment_eq {n : ℕ} (h : n + 1 < 2 ^ 32) : increment n = n + 1 := Nat.mod_eq_of_lt h

/-- `--` of a `uint32_t`. -/
def decrement (n : ℕ) : ℕ := (n + (2 ^ 32 - 1)) % 2 ^ 32

namespace Storage

/-- Appends an element; an `Id` column only counts it. -/
def pushBack : Storage → Value → Storage
  | id size, _ => id (increment size)
  | flex type data, v => flex type (data ++ [v])

/-- `push_back({})`. -/
def pushBackDefault : Storage → Storage
  | id size => id (increment size)
  | flex .double data => flex .double (data ++ [.double Double.zero])
  | flex .string data => flex .string (data ++ [.string 0])
  | flex type data => flex type (data ++ [.int 0])

/-- `clear`. -/
def clear : Storage → Storage
  | id _ => id 0
  | flex type _ => flex type []

/-- `GetCellUncheckedFromStorage`: the element of an `Id` column is its index. -/
def getUnchecked : Storage → ℕ → Option Value
  | id _, row => some (.int row)
  | flex _ data, row => data[row]?

end Storage

/-- The nulls of a sparse column. -/
def NullStorage.sparse? : NullStorage → Option SparseNull
  | sparseNull nulls | sparseNullWithPopcountAlways nulls | sparseNullWithPopcountUntilFinalization nulls => some nulls
  | nonNull | denseNull _ => none

/-- Whether there is a value to store: the null string is none for a nullable string column. -/
def hasValue (type : StorageType) (t : Option Value) : Bool :=
  match t with
  | none => false
  | some v => !(type = .string && v = .string 0)

/-- The end of `InsertUncheckedColumn` for a column with popcounts. -/
def SparseNull.pushPrefixPopcount (nulls : SparseNull) : SparseNull :=
  if nulls.bitVector.size % 64 = 0 then
    let prefixPopcount :=
      if nulls.bitVector.size = 0 then 0
      else (nulls.prefixPopcountForCellGet.getLastD 0 +
        nulls.bitVector.countSetBitsInWord (nulls.bitVector.size - 1)) % 2 ^ 32
    { nulls with prefixPopcountForCellGet := nulls.prefixPopcountForCellGet ++ [prefixPopcount] }
  else nulls

def SparseNull.pushBack (nulls : SparseNull) (bit : Bool) : SparseNull :=
  { nulls with bitVector := nulls.bitVector.pushBack bit }

/-- What a cell adds to the storage of a nullable column: a value, a slot where nulls have one, or nothing. -/
def Storage.insertNullable (storage : Storage) (nullsHaveSlots : Bool) (t : Option Value) : Storage :=
  match t with
  | some v => if hasValue storage.type t then storage.pushBack v
    else if nullsHaveSlots then storage.pushBackDefault else storage
  | none => if nullsHaveSlots then storage.pushBackDefault else storage

namespace Column

/-- `InsertUncheckedColumn`, both of them. -/
def insertUnchecked (c : Column) (t : Option Value) : Option Column :=
  let has := hasValue c.storage.type t
  match c.nullStorage with
  | .nonNull => t.map fun v => { c with storage := c.storage.pushBack v }
  | .denseNull bv => some { c with
      storage := c.storage.insertNullable true t
      nullStorage := .denseNull (bv.pushBack has) }
  | .sparseNull nulls => some { c with
      storage := c.storage.insertNullable false t
      nullStorage := .sparseNull (nulls.pushBack has) }
  | .sparseNullWithPopcountAlways nulls => some { c with
      storage := c.storage.insertNullable false t
      nullStorage := .sparseNullWithPopcountAlways (nulls.pushPrefixPopcount.pushBack has) }
  | .sparseNullWithPopcountUntilFinalization nulls => some { c with
      storage := c.storage.insertNullable false t
      nullStorage := .sparseNullWithPopcountUntilFinalization (nulls.pushPrefixPopcount.pushBack has) }

/-- Where a sparse column stores a row. -/
def storageIdx (nulls : SparseNull) (row : ℕ) : ℕ :=
  (nulls.prefixPopcountForCellGet.getD (row / 64) 0 + nulls.bitVector.countSetBitsUntilInWord row) % 2 ^ 32

/-- A cell of a sparse column. -/
def getSparse (storage : Storage) (nulls : SparseNull) (row : ℕ) : Option (Option Value) :=
  if nulls.bitVector.isSet row then (storage.getUnchecked (storageIdx nulls row)).map some else some none

/-- `GetCellUncheckedInternal`, which `GetCell` repeats. -/
def getCell (c : Column) (row : ℕ) : Option (Option Value) :=
  match c.nullStorage with
  | .nonNull => (c.storage.getUnchecked row).map some
  | .denseNull bv => if bv.isSet row then (c.storage.getUnchecked row).map some else some none
  | .sparseNullWithPopcountAlways nulls => getSparse c.storage nulls row
  | .sparseNullWithPopcountUntilFinalization nulls => getSparse c.storage nulls row
  | .sparseNull _ => none

/-- The loops over the prefix counts of the later words. -/
def changePrefixPopcounts (nulls : SparseNull) (row : ℕ) (f : ℕ → ℕ) : List ℕ :=
  nulls.prefixPopcountForCellGet.mapIdx fun i p => if row / 64 + 1 ≤ i then f p else p

/-- `SetCellUncheckedInternal` of a sparse column with popcounts: its data and its nulls. -/
def setSparse (type : StorageType) (data : List Value) (nulls : SparseNull) (row : ℕ) (value : Option Value) :
    List Value × SparseNull :=
  let idx := storageIdx nulls row
  match value with
  | some v =>
    if hasValue type value then
      if !nulls.bitVector.isSet row then
        -- the elements from there on move up by one
        (data.take idx ++ v :: data.drop idx,
          ⟨nulls.bitVector.change row true, changePrefixPopcounts nulls row increment⟩)
      else (data.set idx v, { nulls with bitVector := nulls.bitVector.change row true })
    else clearSparse data nulls row idx
  | none => clearSparse data nulls row idx
where
  /-- The branch for a null; the elements after it move down by one. -/
  clearSparse (data : List Value) (nulls : SparseNull) (row idx : ℕ) : List Value × SparseNull :=
    if nulls.bitVector.isSet row then
      (data.take idx ++ data.drop (idx + 1),
        ⟨nulls.bitVector.change row false, changePrefixPopcounts nulls row decrement⟩)
    else (data, { nulls with bitVector := nulls.bitVector.change row false })

/-- `SetCellUncheckedInternal` of a dense column. -/
def setDense (type : StorageType) (data : List Value) (bv : BitVector) (row : ℕ) (value : Option Value) :
    List Value × BitVector :=
  match value with
  | some v => if hasValue type value then (data.set row v, bv.change row true) else (data, bv.change row false)
  | none => (data, bv.change row false)

/-- `SetCellUncheckedInternal`. -/
def setCell (c : Column) (row : ℕ) (value : Option Value) : Option Column :=
  match c.storage with
  | .id _ => none
  | .flex type data =>
    match c.nullStorage with
    | .nonNull => value.map fun v => { c with storage := .flex type (data.set row v), mutations := increment c.mutations }
    | .denseNull bv =>
      let (data, bv) := setDense type data bv row value
      some { c with storage := .flex type data, nullStorage := .denseNull bv, mutations := increment c.mutations }
    | .sparseNullWithPopcountAlways nulls =>
      let (data, nulls) := setSparse type data nulls row value
      some { c with
        storage := .flex type data
        nullStorage := .sparseNullWithPopcountAlways nulls
        mutations := increment c.mutations }
    | .sparseNullWithPopcountUntilFinalization nulls =>
      let (data, nulls) := setSparse type data nulls row value
      some { c with
        storage := .flex type data
        nullStorage := .sparseNullWithPopcountUntilFinalization nulls
        mutations := increment c.mutations }
    | .sparseNull _ => none

/-- The loop body of `Clear`. -/
def clear (c : Column) : Column :=
  { c with
    storage := c.storage.clear
    nullStorage := match c.nullStorage with
      | .nonNull => .nonNull
      | .sparseNull _ => .sparseNull {}
      | .sparseNullWithPopcountAlways _ => .sparseNullWithPopcountAlways {}
      | .sparseNullWithPopcountUntilFinalization _ => .sparseNullWithPopcountUntilFinalization {}
      | .denseNull _ => .denseNull {} }

end Column

inductive Nullability
  | nonNull | sparseNull | sparseNullWithPopcountAlways | sparseNullWithPopcountUntilFinalization | denseNull
  deriving DecidableEq, Repr

/-- `ColumnSpec`. -/
structure ColumnSpec where
  type : StorageType
  nullability : Nullability
  sortState : SortState
  duplicateState : DuplicateState
  deriving DecidableEq, Repr

/-- A column of `CreateColumnVector`. -/
def Column.ofSpec (spec : ColumnSpec) : Column where
  storage := match spec.type with
    | .id => .id 0
    | type => .flex type []
  nullStorage := match spec.nullability with
    | .nonNull => .nonNull
    | .sparseNull => .sparseNull {}
    | .sparseNullWithPopcountAlways => .sparseNullWithPopcountAlways {}
    | .sparseNullWithPopcountUntilFinalization => .sparseNullWithPopcountUntilFinalization {}
    | .denseNull => .denseNull {}
  sortState := spec.sortState
  duplicateState := spec.duplicateState

/-- A `Dataframe` before `Finalize`. -/
structure MutableDataframe where
  columns : List Column
  rowCount : ℕ := 0
  nonColumnMutations : ℕ := 0
  deriving DecidableEq, Repr

namespace MutableDataframe

/-- The constructor. -/
def ofSpecs (specs : List ColumnSpec) : MutableDataframe where
  columns := specs.map Column.ofSpec

/-- `InsertUnchecked`. -/
def insertUnchecked (df : MutableDataframe) (ts : List (Option Value)) : Option MutableDataframe :=
  if df.columns.length = ts.length then do
    let columns ← (df.columns.zip ts).mapM fun p => p.1.insertUnchecked p.2
    some { columns, rowCount := increment df.rowCount, nonColumnMutations := increment df.nonColumnMutations }
  else none

/-- `SetCellUnchecked`. -/
def setCell (df : MutableDataframe) (row col : ℕ) (value : Option Value) : Option MutableDataframe :=
  if row < df.rowCount then do
    let c ← df.columns[col]?
    let c ← c.setCell row value
    some { df with columns := df.columns.set col c }
  else none

/-- `GetCell`. -/
def getCell (df : MutableDataframe) (row col : ℕ) : Option (Option Value) :=
  if row < df.rowCount then df.columns[col]?.bind (·.getCell row) else none

/-- `Clear`. -/
def clear (df : MutableDataframe) : MutableDataframe where
  columns := df.columns.map Column.clear
  rowCount := 0
  nonColumnMutations := increment df.nonColumnMutations

/-- A call that changes a dataframe. -/
inductive Call
  | insertUnchecked (ts : List (Option Value))
  | setCell (row col : ℕ) (value : Option Value)
  | clear

def step (df : MutableDataframe) : Call → Option MutableDataframe
  | .insertUnchecked ts => df.insertUnchecked ts
  | .setCell row col value => df.setCell row col value
  | .clear => some df.clear

/-- The rows after a call. -/
def rowsAfter (rows : ℕ) : Call → ℕ
  | .insertUnchecked _ => rows + 1
  | .setCell .. => rows
  | .clear => 0

/-- There are never more rows than a `uint32_t` counts. -/
def RowsFit : ℕ → List Call → Prop
  | _, [] => True
  | rows, call :: calls => rowsAfter rows call < 2 ^ 32 ∧ RowsFit (rowsAfter rows call) calls

end MutableDataframe

end LynxTrace.TraceProcessor.Core
