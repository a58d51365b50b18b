import LynxTrace.Core.StorageTypes

/-!
# Core.FilterValue — casting a filter value and filtering indices by it
(src/trace_processor/core/interpreter/bytecode_interpreter_impl.{h,cc})

`none` is undefined behaviour or a failed `PERFETTO_CHECK`.  Column data is read through a function from indices, so
that the same filters run over the columns of a tree and of a dataframe.
-/

namespace LynxTrace.TraceProcessor.Core

/-! ### `CastFilterValue` -/

/-- `CastFilterValueResult::Value`. -/
inductive FilterVal
  | int (z : ℤ)
  | double (d : Double)
  | string (s : List UInt8)
  deriving DecidableEq, Repr

inductive CastFilterValueResult
  | allMatch
  | noneMatch
  | valid (value : FilterVal)
  deriving DecidableEq, Repr

open CastFilterValueResult

/-- `CastStringOrNullFilterValueToIntegerOrDouble`: a number is less than a string, and null compares false. -/
def castStringOrNullFilterValueToIntegerOrDouble (op : CmpOp) : SqlValue → CastFilterValueResult
  | .string _ =>
    match op with
    | .eq | .ge | .gt => noneMatch
    | .ne | .le | .lt => allMatch
  | _ => noneMatch

/-- `CastDoubleToIntHelper`; `out` is `fn(d)`. -/
def castDoubleToIntHelper (noData allData : Bool) (out : ℤ) : CastFilterValueResult :=
  if noData then noneMatch else if allData then allMatch else valid (.int out)

/-- The first double that is too big; for `int64_t` it is one above the largest value. -/
def kMaxDouble : StorageType → Double
  | .int64 => .ofInt (2 ^ 63)
  | t => .ofInt t.maxValue

def castFilterValueToInteger (t : StorageType) (op : CmpOp) : SqlValue → CastFilterValueResult
  | .long z =>
    let isSmall : Bool := z.val < t.minValue
    let isBig : Bool := t.maxValue < z.val
    if isSmall || isBig then
      match op with
      | .lt | .le => if isSmall then noneMatch else allMatch
      | .gt | .ge => if isBig then noneMatch else allMatch
      | .eq => noneMatch
      | .ne => allMatch
    else valid (.int z.val)
  | .double d =>
    if d.isNaN then noneMatch else
      let isBig := (kMaxDouble t).le d
      let isSmall := d.lt (.ofInt t.minValue)
      if d.isIntegral && !isSmall && !isBig then valid (.int d.floor) else
        match op with
        | .lt => castDoubleToIntHelper isSmall isBig d.ceil
        | .le => castDoubleToIntHelper isSmall isBig d.floor
        | .gt => castDoubleToIntHelper isBig isSmall d.floor
        | .ge => castDoubleToIntHelper isBig isSmall d.ceil
        | .eq => noneMatch
        | .ne => allMatch
  | v => castStringOrNullFilterValueToIntegerOrDouble op v

def castFilterValueToDouble (op : CmpOp) : SqlValue → CastFilterValueResult
  | .double d => valid (.double d)
  | .long i =>
    let iad := Double.ofInt i.val
    let iadInt := iad.toInt64
    if i.val = iadInt then valid (.double iad) else
      -- rounding up past the largest integer makes the conversion back negative
      let overflow : Bool := 0 < i.val && iadInt < 0
      let greater : Bool := i.val < iadInt || overflow
      let less : Bool := iadInt < i.val && !overflow
      match op with
      | .lt => valid (.double (if greater then iad else iad.nextAfter true))
      | .le => valid (.double (if less then iad else iad.nextAfter false))
      | .gt => valid (.double (if less then iad else iad.nextAfter false))
      | .ge => valid (.double (if greater then iad else iad.nextAfter true))
      | .eq => noneMatch
      | .ne => allMatch
  | v => castStringOrNullFilterValueToIntegerOrDouble op v

/-- `op` is a `StringOp`. -/
def castFilterValueToString (op : Op) : SqlValue → Option CastFilterValueResult
  | .string s => some (valid (.string s))
  | .null => some noneMatch
  | .long _ | .double _ =>
    match op with
    | .cmp .ge | .cmp .gt | .cmp .ne => some allMatch
    | .cmp .eq | .cmp .le | .cmp .lt | .glob | .regex => some noneMatch
    | _ => none

/-- `CastFilterValue<T>`. -/
def castFilterValue (t : StorageType) (op : Op) (v : SqlValue) : Option CastFilterValueResult :=
  match t, op with
  | .string, op => castFilterValueToString op v
  | .double, .cmp op => some (castFilterValueToDouble op v)
  | .id, .cmp op | .uint32, .cmp op | .int32, .cmp op | .int64, .cmp op => some (castFilterValueToInteger t op v)
  | _, _ => none

/-! ### Filters over indices -/

/-- `Filter`: the indices of `output` whose source index reads a value with `p`. -/
def filterIndices (data : ℕ → Option Value) (p : Value → Bool) : List ℕ → List ℕ → Option (List ℕ)
  | s :: source, o :: output => do
    let x ← data s
    let kept ← filterIndices data p source output
    pure (if p x then o :: kept else kept)
  | _, _ => some []

/-- `IntegerOrDoubleComparator` of an element and a cast value. -/
def CmpOp.compare (op : CmpOp) : Value → FilterVal → Bool
  | .int x, .int y => op.int x y
  | .double x, .double y => op.double x y
  | _, _ => false

/-- `NonStringFilter`; for an `Id` column `data` is the identity (`IdentityFilter`). -/
def nonStringFilter (data : ℕ → Option Value) (op : CmpOp) (value : CastFilterValueResult) (source update : List ℕ) :
    Option (List ℕ) :=
  match value with
  | allMatch => some update
  | noneMatch => some []
  | valid v => filterIndices data (op.compare · v) source update

namespace StringPool

variable (pool : StringPool) (m : Matchers)

/-- An element, seen as a string. -/
def getValue : Value → List UInt8
  | .string id => pool.get id
  | _ => []

/-- `StringFilterEq`: a string that is not interned matches no element. -/
def stringFilterEq (data : ℕ → Option Value) (val : List UInt8) (source output : List ℕ) : Option (List ℕ) :=
  match pool.getId val with
  | none => some []
  | some id => filterIndices data (· = .string id) source output

/-- `StringFilterNe`. -/
def stringFilterNe (data : ℕ → Option Value) (val : List UInt8) (source output : List ℕ) : Option (List ℕ) :=
  match pool.getId val with
  | none => some (output.take source.length)
  | some id => filterIndices data (· ≠ .string id) source output

/-- `BitVectorComparator`: the bit of the element's id, where the ids with their bit set are given. -/
def bitVectorComparator (ids : List StringId) : Value → Bool
  | .string id => ids.contains id
  | _ => false

/-- `StringFilterGlobImpl`; its loop for a pattern without special characters is that of `StringFilterEq`. -/
def stringFilterGlobImpl (data : ℕ → Option Value) (pattern : List UInt8) (source output : List ℕ) :
    Option (List ℕ) :=
  if m.globIsEquality pattern then pool.stringFilterEq data pattern source output
  else if source.length < pool.size || pool.hasLargeString then
    filterIndices data (fun x => m.globMatches pattern (pool.getValue x)) source output
  else
    -- the matches of all strings of the pool, computed ahead
    let hits := (0 :: pool.entries.map Prod.fst).filter fun id => m.globMatches pattern (pool.get id)
    filterIndices data (bitVectorComparator hits) source output

/-- `FilterStringOp`. -/
def filterStringOp (data : ℕ → Option Value) (op : Op) (val : List UInt8) (source output : List ℕ) :
    Option (List ℕ) :=
  match op with
  | .cmp .eq => pool.stringFilterEq data val source output
  | .cmp .ne => pool.stringFilterNe data val source output
  | .glob => pool.stringFilterGlobImpl m data val source output
  | .regex =>
    match m.regex val with
    | none => some []
    | some r => filterIndices data (fun x => r (pool.getValue x)) source output
  | .cmp op => filterIndices data (fun x => op.bytes (pool.getValue x) val) source output
  | _ => none

/-- `StringFilter`. -/
def stringFilter (data : ℕ → Option Value) (op : Op) (value : CastFilterValueResult) (source update : List ℕ) :
    Option (List ℕ) :=
  match value with
  | allMatch => some update
  | noneMatch => some []
  | valid (.string val) => pool.filterStringOp m data op val source update
  | valid _ => none

end StringPool

/-! ### What a constraint means -/

/-- An integer against a double, as numbers; a NaN compares false. -/
def CmpOp.intDouble (op : CmpOp) (i : ℤ) (d : Double) : Bool :=
  !d.isNaN &&
    match op with
    | eq => d.isIntegral && d.floor = i
    | ne => !(d.isIntegral && d.floor = i)
    | lt => i < d.ceil
    | le => i ≤ d.floor
    | gt => d.floor < i
    | ge => d.ceil ≤ i

/-- The comparison with its sides exchanged. -/
def CmpOp.flip : CmpOp → CmpOp
  | lt => gt
  | le => ge
  | gt => lt
  | ge => le
  | op => op

/-- A cell that is not null compared with a value in the order of the query language: null compares false, numbers
come before strings. -/
def CmpOp.holds (pool : StringPool) (op : CmpOp) : Value → SqlValue → Bool
  | _, .null => false
  | .int x, .long y => op.int x y.val
  | .int x, .double d => op.intDouble x d
  | .double d, .long y => op.flip.intDouble y.val d
  | .double x, .double y => op.double x y
  | .string id, .string s => op.bytes (pool.get id) s
  | .string _, _ => op = .ne || op = .gt || op = .ge
  | _, .string _ => op = .ne || op = .lt || op = .le

/-- Whether a cell satisfies a constraint with one value; `none` is a null cell. -/
def Op.holds (pool : StringPool) (m : Matchers) (op : Op) (cell : Option Value) (v : SqlValue) : Bool :=
  match op, cell with
  | .isNull, cell => cell.isNone
  | .isNotNull, cell => cell.isSome
  | .cmp op, some x => op.holds pool x v
  | .glob, some (.string id) => match v with | .string s => m.globMatches s (pool.get id) | _ => false
  | .regex, some (.string id) =>
    match v with
    | .string s => ((m.regex s).map (· (pool.get id))).getD false
    | _ => false
  | _, _ => false

end LynxTrace.TraceProcessor.Core
