import LynxTrace.Core.CellTable

/-!
# Core.AdhocBuilder — `AdhocDataframeBuilder` (src/trace_processor/core/dataframe/adhoc_dataframe_builder.{h,cc})

Values are pushed to columns, and `build` makes a dataframe of them.  `none` is a call that is not allowed (a
`PERFETTO_DCHECK`, an index out of bounds) or one that does not end.
-/

namespace LynxTrace.TraceProcessor.Core

/-- `push_back_multiple`. -/
def BitVector.pushBackMultiple (bv : BitVector) (bit : Bool) (count : ℕ) : BitVector :=
  ⟨bv.bits ++ List.replicate count bit⟩

/-- `CreateWithSize`. -/
def BitVector.createWithSize (size : ℕ) (value : Bool) : BitVector := ⟨List.replicate size value⟩

/-- `Dataframe`; the string pool is a parameter of what reads it. -/
structure Dataframe where
  finalized : Bool
  columnNames : List String
  columns : List Column
  rowCount : ℕ
  deriving DecidableEq, Repr

inductive NullabilityType
  | kSparseNull | kSparseNullWithPopcount | kDenseNull
  deriving DecidableEq, Repr

inductive AdhocColumnType
  | kInt64 | kDouble | kString
  deriving DecidableEq, Repr

/-- `AdhocDataframeBuilderOptions`; without types they are inferred. -/
structure AdhocDataframeBuilderOptions where
  types : List AdhocColumnType := []
  nullabilityType : NullabilityType := .kSparseNull

/-- An argument of `PushNonNull`; a `uint32_t` is converted to an `int64_t`. -/
inductive AdhocValue
  | int64 (v : Int64)
  | double (v : Double)
  | string (v : StringId)
  deriving DecidableEq

def AdhocValue.type : AdhocValue → AdhocColumnType
  | int64 _ => .kInt64
  | double _ => .kDouble
  | string _ => .kString

/-! ### Storage under construction -/

/-- `Storage`, as far as the builder uses it. -/
inductive AdhocStorage
  | int64 (data : List ℤ)
  | double (data : List Double)
  | string (data : List StringId)
  deriving DecidableEq, Repr

/-- `ToString`. -/
def AdhocColumnType.toString : AdhocColumnType → String
  | kInt64 => "LONG"
  | kDouble => "DOUBLE"
  | kString => "STRING"

/-- `IsPerfectlyRepresentableAsDouble`. -/
def isPerfectlyRepresentableAsDouble (res : ℤ) : Bool := -2 ^ 53 ≤ res ∧ res ≤ 2 ^ 53

/-- The loop that makes doubles of the elements, from row `i` on. -/
def toDoubles (name : String) (i : ℕ) : List ℤ → Except String (List Double)
  | [] => .ok []
  | v :: data =>
    if isPerfectlyRepresentableAsDouble v then (toDoubles name (i + 1) data).map (Double.ofInt v :: ·)
    else .error ("Unable to represent " ++ toString v ++ " in column '" ++ name ++ "' at row " ++ toString i ++
      " as a double.")

namespace AdhocStorage

def type : AdhocStorage → AdhocColumnType
  | int64 _ => .kInt64
  | double _ => .kDouble
  | string _ => .kString

def size : AdhocStorage → ℕ
  | int64 data => data.length
  | double data => data.length
  | string data => data.length

def empty : AdhocColumnType → AdhocStorage
  | .kInt64 => int64 []
  | .kDouble => double []
  | .kString => string []

/-- Placeholders stand where a dense null column has nulls. -/
def addPlaceholders (count : ℕ) : AdhocStorage → AdhocStorage
  | int64 data => int64 (data ++ List.replicate count 0)
  | double data => double (data ++ List.replicate count .zero)
  | string data => string (data ++ List.replicate count 0)

/-- `ReportTypeMismatch`. -/
def reportTypeMismatch (didDeclareTypes : Bool) (name : String) (s : AdhocStorage) (value : AdhocValue) : String :=
  if didDeclareTypes then
    "column '" ++ name ++ "' declared as " ++ s.type.toString ++ " in the schema, but " ++ value.type.toString ++ " found"
  else
    "column '" ++ name ++ "' was inferred to be " ++ s.type.toString ++ ", but later received a value of type " ++
      value.type.toString

/-- The pushes of `PushNonNullInternal` to storage that exists, or the error. -/
def push (didDeclareTypes : Bool) (name : String) (s : AdhocStorage) (value : AdhocValue) (count : ℕ) :
    Option (Except String AdhocStorage) :=
  match s, value with
  | int64 data, .int64 v => some (.ok (int64 (data ++ List.replicate count v.toInt)))
  | double data, .double v => some (.ok (double (data ++ List.replicate count v)))
  | string data, .string v => some (.ok (string (data ++ List.replicate count v)))
  | int64 data, .double v =>
    -- the row is a `uint32_t`: it never gets past the 2^32-th element
    match toDoubles name 0 (data.take (2 ^ 32)) with
    | .error e => some (.error e)
    | .ok res => if data.length < 2 ^ 32 then some (.ok (double (res ++ List.replicate count v))) else none
  | double data, .int64 v =>
    if isPerfectlyRepresentableAsDouble v.toInt then
      some (.ok (double (data ++ List.replicate count (Double.ofInt v.toInt))))
    else
      some (.error ("Inserting a too-large integer (" ++ toString v.toInt ++ ") in column '" ++ name ++ "' at row " ++
        toString data.length ++ ". Column currently holds doubles."))
  | s, value => some (.error (reportTypeMismatch didDeclareTypes name s value))

end AdhocStorage

/-! ### Pushing to a column -/

structure ColumnState where
  storage : Option AdhocStorage := none
  nullOverlay : Option BitVector := none
  nullabilityType : NullabilityType := .kSparseNull
  deriving DecidableEq, Repr

namespace ColumnState

variable (s : ColumnState)

/-- `EnsureNullOverlayExists`: the overlay that is made when there is none. -/
def newNullOverlay : BitVector := .createWithSize (((s.storage.map AdhocStorage.size).getD 0) % 2 ^ 32) true

/-- `AddPlaceholderValue`. -/
def addPlaceholderValue (count : ℕ) : ColumnState := { s with storage := s.storage.map (·.addPlaceholders count) }

def pushNull (count : ℕ) : ColumnState :=
  let overlay := s.nullOverlay.getD s.newNullOverlay
  let s := { s with nullOverlay := some (overlay.pushBackMultiple false count) }
  if s.nullabilityType = .kDenseNull then s.addPlaceholderValue count else s

/-- The storage that the first value makes: a dense null column gets placeholders for the nulls before it. -/
def newStorage (type : AdhocColumnType) : AdhocStorage :=
  match s.nullOverlay with
  | none => .empty type
  | some overlay =>
    if s.nullabilityType = .kDenseNull then (AdhocStorage.empty type).addPlaceholders (overlay.size % 2 ^ 32) else .empty type

def pushNonNullInternal (didDeclareTypes : Bool) (name : String) (value : AdhocValue) (count : ℕ) :
    Option (Except String ColumnState) := do
  let result ← (s.storage.getD (s.newStorage value.type)).push didDeclareTypes name value count
  some (result.map fun storage =>
    { s with storage := some storage, nullOverlay := s.nullOverlay.map (·.pushBackMultiple true count) })

/-- The number of rows, as `Build` finds it. -/
def rowCount : ℕ :=
  match s.nullOverlay with
  | some overlay => overlay.size
  | none => (s.storage.map AdhocStorage.size).getD 0

end ColumnState

/-! ### The builder -/

structure AdhocDataframeBuilder where
  columnNames : List String
  columnStates : List ColumnState
  didDeclareTypes : Bool := false
  /-- The message of `current_status_`, unless it is `OkStatus`. -/
  currentStatus : Option String := none

/-- The constructor. -/
def AdhocDataframeBuilder.ofNames (names : List String) (options : AdhocDataframeBuilderOptions) : AdhocDataframeBuilder where
  columnNames := names
  columnStates := (List.range names.length).map fun i =>
    { storage := options.types[i]?.map .empty, nullabilityType := options.nullabilityType }
  didDeclareTypes := !options.types.isEmpty

/-- The calls that push to a column. -/
inductive PushCall
  | pushNull (col : ℕ) (count : UInt32)
  | pushNonNull (col : ℕ) (value : AdhocValue) (count : UInt32)
  | pushNonNullUnchecked (col : ℕ) (value : AdhocValue) (count : UInt32)
  deriving DecidableEq

namespace AdhocDataframeBuilder

variable (b : AdhocDataframeBuilder)

def setState (col : ℕ) (s : ColumnState) : AdhocDataframeBuilder := { b with columnStates := b.columnStates.set col s }

/-- Whether the value was taken, and the builder with it. -/
def pushValue (col : ℕ) (s : ColumnState) (value : AdhocValue) (count : UInt32) : Option (Bool × AdhocDataframeBuilder) := do
  match ← s.pushNonNullInternal b.didDeclareTypes (b.columnNames.getD col "") value count.toNat with
  | .error e => some (false, { b with currentStatus := some e })
  | .ok s => some (true, b.setState col s)

/-- What a call returns, and the builder after it. -/
def step : PushCall → Option (Bool × AdhocDataframeBuilder)
  | .pushNull col count => do
    let s ← b.columnStates[col]?
    some (true, b.setState col (s.pushNull count.toNat))
  | .pushNonNull col value count => do
    let s ← b.columnStates[col]?
    -- the null string is a null
    if value = .string 0 then some (true, b.setState col (s.pushNull count.toNat)) else b.pushValue col s value count
  | .pushNonNullUnchecked col value count => do
    let s ← b.columnStates[col]?
    let storage ← s.storage
    -- the column has to have the type of the value
    if storage.type = value.type ∧ value ≠ .string 0 then b.pushValue col s value count else none

/-- Calls that are all accepted, and the builder after them. -/
def pushAll (calls : List PushCall) : Option AdhocDataframeBuilder :=
  calls.foldlM (fun b call => do
    let (ok, b) ← b.step call
    if ok then some b else none) b

end AdhocDataframeBuilder

/-! ### Columns of integers -/

structure IntegerColumnSummary where
  isIdSorted : Bool := true
  isSetidSorted : Bool := true
  isSorted : Bool := true
  min : ℤ := 0
  max : ℤ := 0
  hasDuplicates : Bool := false
  isNullable : Bool := false
  deriving DecidableEq, Repr

/-- `CheckDuplicate` in a column of `size` elements; `bv` is `duplicate_bit_vector_`. -/
def checkDuplicate (bv : BitVector) (value : ℤ) (size : ℕ) : Option (Bool × BitVector) :=
  if value < 0 then some (true, bv) else
    -- `static_cast<uint32_t>(value)`
    let bit := (value % 2 ^ 32).toNat
    let mark := fun bv : BitVector => if bv.isSet bit then (true, bv) else (false, bv.change bit true)
    if value < bv.size then some (mark bv) else
      if 16 * (size : ℤ) ≤ value then some (true, bv) else
        -- the number of new bits wraps around as a `uint64_t`: there is no memory for so many
        if bit + 1 < bv.size then none else some (mark (bv.pushBackMultiple false (bit + 1 - bv.size)))

/-- The loop of `Build`: `x` is the element at index `j`, after `prev`. -/
def summarizeFrom (size : ℕ) : (j : ℕ) → (prev : ℤ) → List ℤ → IntegerColumnSummary × BitVector →
    Option (IntegerColumnSummary × BitVector)
  | _, _, [], p => some p
  | j, prev, x :: data, (summary, bv) => do
    let (hasDuplicates, bv) ← if summary.hasDuplicates then some (true, bv) else checkDuplicate bv x size
    summarizeFrom size (j + 1) x data
      ({ summary with
          isIdSorted := summary.isIdSorted && x = j
          isSetidSorted := summary.isSetidSorted && (x = prev || x = j)
          isSorted := summary.isSorted && prev ≤ x
          min := min summary.min x
          max := max summary.max x
          hasDuplicates }, bv)

/-- The summary of a column.  The index is a `uint32_t`: it never gets past the 2^32-th element. -/
def summarize (data : List ℤ) (isNullable : Bool) : Option IntegerColumnSummary :=
  if 2 ^ 32 ≤ data.length then none else
    match data with
    | [] => some { isNullable }
    | x :: rest => do
      let (hasDuplicates, bv) ← checkDuplicate {} x data.length
      let first : IntegerColumnSummary :=
        { isIdSorted := x = 0, isSetidSorted := x = 0, min := x, max := x, hasDuplicates, isNullable }
      let (summary, _) ← summarizeFrom data.length 1 x rest (first, bv)
      some summary

/-- `IsRangeFullyRepresentableByType`. -/
def isRangeFullyRepresentableByType (t : StorageType) (min max : ℤ) : Bool := t.minValue ≤ min ∧ max ≤ t.maxValue

/-- `DowncastFromInt64`. -/
def downcastFromInt64 (cast : ℤ → ℤ) (data : List ℤ) : List Value := data.map fun v => .int (cast v)

def createIntegerStorage (data : List ℤ) (summary : IntegerColumnSummary) : Storage :=
  if summary.isIdSorted && !summary.isNullable then .id (data.length % 2 ^ 32)
  else if isRangeFullyRepresentableByType .uint32 summary.min summary.max then
    .flex .uint32 (downcastFromInt64 (· % 2 ^ 32) data)
  else if isRangeFullyRepresentableByType .int32 summary.min summary.max then
    .flex .int32 (downcastFromInt64 (Int.bmod · (2 ^ 32)) data)
  else .flex .int64 (data.map .int)

def getIntegerSortStateFromProperties (summary : IntegerColumnSummary) : SortState :=
  if summary.isNullable then .unsorted
  else if summary.isIdSorted then .idSorted
  else if summary.isSetidSorted then .setIdSorted
  else if summary.isSorted then .sorted
  else .unsorted

/-- `BuildSmallValueEq`. -/
def buildSmallValueEq (data : List ℕ) : Option SmallValueEq := do
  let bv ← data.foldlM (fun bv i => if i < bv.size then some (bv.change i true) else none)
    (BitVector.createWithSize ((data.getLast?.map fun last => (last + 1) % 2 ^ 32).getD 0) false)
  some ⟨bv, bv.prefixPopcount⟩

/-- An element of a `uint32_t` column. -/
def Value.toUint32 : Value → ℕ
  | int z => z.toNat
  | _ => 0

def getSpecializedStorage (storage : Storage) (summary : IntegerColumnSummary) : Option (Option SmallValueEq) :=
  if summary.isIdSorted || summary.isSetidSorted then some none else
    match storage with
    | .flex .uint32 vec =>
      if summary.isSorted && !summary.isNullable && !summary.hasDuplicates && summary.max % 2 ^ 32 < 16 * vec.length then
        (buildSmallValueEq (vec.map Value.toUint32)).map some
      else some none
    | _ => some none

/-! ### Building -/

def createNullStorageFromBitvector (bitVector : Option BitVector) (nullabilityType : NullabilityType) : NullStorage :=
  match bitVector with
  | none => .nonNull
  | some bv =>
    match nullabilityType with
    | .kDenseNull => .denseNull bv
    | .kSparseNullWithPopcount => .sparseNullWithPopcountAlways ⟨bv, bv.prefixPopcount⟩
    | .kSparseNull => .sparseNull ⟨bv, []⟩

/-- The loops that compare each element with the one before it; their index is a `uint32_t`. -/
def isSortedBy {α : Type} (le : α → α → Bool) : List α → Bool
  | x :: y :: data => le x y && isSortedBy le (y :: data)
  | _ => true

/-- A column of doubles or strings. -/
def plainColumn {α : Type} (type : StorageType) (value : α → Value) (le : α → α → Bool) (data : List α)
    (nullStorage : NullStorage) (isNullable : Bool) : Option Column :=
  if 2 ^ 32 ≤ data.length then none else some
    { storage := .flex type (data.map value)
      nullStorage
      sortState := if isSortedBy le data && !isNullable then .sorted else .unsorted
      duplicateState := .hasDuplicates }

/-- `prev <= curr` for the strings of two ids. -/
def StringPool.le (pool : StringPool) (prev curr : StringId) : Bool := CmpOp.le.bytes (pool.get prev) (pool.get curr)

def ColumnState.buildColumn (pool : StringPool) (s : ColumnState) : Option Column :=
  let nullStorage := createNullStorageFromBitvector s.nullOverlay s.nullabilityType
  let isNullable := s.nullOverlay.isSome
  match s.storage with
  | none => some ⟨.flex .uint32 [], nullStorage, .unsorted, .hasDuplicates, none, 0⟩
  | some (.int64 data) => do
    let summary ← summarize data isNullable
    let integer := createIntegerStorage data summary
    let specializedStorage ← getSpecializedStorage integer summary
    some
      { storage := integer
        nullStorage
        sortState := getIntegerSortStateFromProperties summary
        duplicateState := if summary.isNullable || summary.hasDuplicates then .hasDuplicates else .noDuplicates
        specializedStorage }
  | some (.double data) => plainColumn .double .double Double.le data nullStorage isNullable
  | some (.string data) => plainColumn .string .string pool.le data nullStorage isNullable

/-- The loop of `Build` over the columns; `rowCount` is `2 ^ 64 - 1` before the first. -/
def buildColumns (pool : StringPool) (rowCount : ℕ) : List (String × ColumnState) →
    Option (Except String (List Column × ℕ))
  | [] => some (.ok ([], rowCount))
  | (name, s) :: rest => do
    let column ← s.buildColumn pool
    if rowCount ≠ 2 ^ 64 - 1 ∧ s.rowCount ≠ rowCount then
      some (.error ("Row count mismatch in column '" ++ name ++ "'. Expected " ++ toString rowCount ++ ", got " ++
        toString s.rowCount ++ "."))
    else
      let result ← buildColumns pool s.rowCount rest
      some (result.map fun p => (column :: p.1, p.2))

/-- The implicit id column. -/
def autoIdColumn (rowCount : ℕ) : Column where
  storage := .id rowCount
  nullStorage := .nonNull
  sortState := .idSorted
  duplicateState := .noDuplicates

def AdhocDataframeBuilder.build (pool : StringPool) (b : AdhocDataframeBuilder) : Option (Except String Dataframe) :=
  match b.currentStatus with
  | some e => some (.error e)
  | none => do
    let result ← buildColumns pool (2 ^ 64 - 1) (b.columnNames.zip b.columnStates)
    some (result.map fun p =>
      let rowCount := if p.2 = 2 ^ 64 - 1 then 0 else p.2
      { finalized := true
        columnNames := b.columnNames ++ ["_auto_id"]
        columns := p.1 ++ [autoIdColumn (rowCount % 2 ^ 32)]
        rowCount := rowCount % 2 ^ 32 })

end LynxTrace.TraceProcessor.Core
