import LynxTrace.Base.ExceptLists
import LynxTrace.Base.OrderedMap
import LynxTrace.Ui.ColumnType
import Mathlib.Data.Char
import Mathlib.Data.List.Lex
import Mathlib.Data.List.Sort

/-!
# Ui.Dataset — `SourceDataset` and `UnionDataset` (ui/src/trace_processor/dataset.ts)

A piece of SQL is the list of its tokens, which tells what `indent` does to the text from what it does to the tokens
in it.  The maps are plain objects: what they have of their own is an `OrderedMap`, and they inherit `objectPrototype`.
Absent `joins` are empty ones: the code treats them alike.
-/

namespace LynxTrace.Ui

abbrev Text := List Char

instance : LawfulBEq Text := inferInstance

/-- A token of SQL text; layout is the blank space between the others. -/
structure Token where
  layout : Bool
  text : Text
  deriving DecidableEq

abbrev Fragment := List Token

def textOf (f : Fragment) : Text := f.flatMap (·.text)

/-- What SQLite reads of a text. -/
def codeOf (f : Fragment) : List Text := (f.filter fun t => !t.layout).map (·.text)

def code (s : String) : Token := ⟨false, s.toList⟩

def layout (s : String) : Token := ⟨true, s.toList⟩

/-! ### `indent(str, 2)` -/

def indentText (s : Text) : Text := s.flatMap fun c => if c = '\n' then ['\n', ' ', ' '] else [c]

/-- What becomes of the tokens of an indented text. -/
def indentTokens (f : Fragment) : Fragment := f.map fun t => { t with text := indentText t.text }

def indent (f : Fragment) : Fragment := layout "  " :: indentTokens f

def joinWith (separator : Fragment) (fs : List Fragment) : Fragment := (fs.intersperse separator).flatten

/-! ### Values and filters -/

/-- A number is known by the text that it prints as, a blob by its identity. -/
inductive SqlValue
  | string (value : Text)
  | number (text : Text)
  | bigint (value : Int)
  | null
  | blob (identity : Nat)
  deriving DecidableEq

def quote : Char := Char.ofNat 39

def sqliteString (str : Text) : Text := quote :: (str.flatMap fun c => if c = quote then [quote, quote] else [c]) ++ [quote]

def sqlValueToSqliteString : SqlValue → Except String Text
  | .blob _ => .error "Can't pass blob back to trace processor as value"
  | .null => .ok "NULL".toList
  | .string str => .ok (sqliteString str)
  | .number text => .ok text
  | .bigint n => .ok (toString n).toList

inductive Filter
  | eq (col : Fragment) (value : SqlValue)
  | isIn (col : Fragment) (values : List SqlValue)

def Filter.col : Filter → Fragment
  | .eq col _ => col
  | .isIn col _ => col

def Filter.values : Filter → List SqlValue
  | .eq _ value => [value]
  | .isIn _ values => values

structure Join where
  fromExpr : Fragment
  unique : Bool

structure SelectColumn where
  expr : Fragment
  join : Option Text

abbrev DatasetSchema := OrderedMap Text ColumnType

/-! ### The statements -/

/-- A column of a SELECT clause, with ` AS name` where that is written. -/
structure SelectedColumn where
  expr : Fragment
  name : Text
  aliased : Bool

inductive Where
  | eq (col value : Fragment)
  | isIn (col : Fragment) (values : List Fragment)

structure SelectStmt where
  columns : List SelectedColumn
  src : Fragment
  joins : List Fragment
  filter : Option Where

def SelectedColumn.fragment (c : SelectedColumn) : Fragment :=
  if c.aliased then c.expr ++ [layout " ", code "AS", layout " ", ⟨false, c.name⟩] else c.expr

def Where.fragment : Where → Fragment
  | .eq col value => col ++ [layout " ", code "=", layout " "] ++ value
  | .isIn col values =>
    col ++ [layout " ", code "IN", layout " ", code "("] ++ joinWith [code ",", layout " "] values ++ [code ")"]

/-- The text of a statement whose lines begin `depth` blanks in. -/
def SelectStmt.fragment (s : SelectStmt) (depth : Nat) : Fragment :=
  let newline : Token := ⟨true, '\n' :: List.replicate depth ' '⟩
  [code "SELECT", newline, layout "  "] ++
    joinWith [code ",", newline, layout "  "] (s.columns.map (·.fragment)) ++
    [newline, code "FROM", layout " ", code "("] ++ s.src ++ [code ")"] ++
    s.joins.flatMap (fun j => [layout " ", code "JOIN", layout " "] ++ j) ++
    (s.filter.toList.flatMap fun w => [newline, code "WHERE", layout " "] ++ w.fragment)

def SelectedColumn.indent (c : SelectedColumn) : SelectedColumn :=
  { c with expr := indentTokens c.expr, name := indentText c.name }

def Where.indent : Where → Where
  | .eq col value => .eq (indentTokens col) (indentTokens value)
  | .isIn col values => .isIn (indentTokens col) (values.map indentTokens)

/-- The statement that an indented text spells. -/
def SelectStmt.indent (s : SelectStmt) : SelectStmt where
  columns := s.columns.map (·.indent)
  src := indentTokens s.src
  joins := s.joins.map indentTokens
  filter := s.filter.map (·.indent)

/-! ### `SourceDataset` -/

structure SourceDataset where
  src : Fragment
  schema : DatasetSchema
  filter : Option Filter
  select : Option (OrderedMap Text SelectColumn)
  joins : OrderedMap Text Join

def literal (v : SqlValue) : Except String Fragment := (sqlValueToSqliteString v).map fun text => [⟨false, text⟩]

def filterQuery : Filter → Except String Where
  | .eq col value => (literal value).map fun lit => .eq col lit
  | .isIn col values => (mapExcept literal values).map fun lits => .isIn col lits

def protoKey : Text := "__proto__".toList

/-- The keys that every object has from its prototype. -/
def objectPrototype : List Text :=
  protoKey :: (["constructor", "hasOwnProperty", "isPrototypeOf", "propertyIsEnumerable", "toLocaleString", "toString",
    "valueOf", "__defineGetter__", "__defineSetter__", "__lookupGetter__", "__lookupSetter__"].map String.toList)

/-- A column that is not mapped is selected by its name. -/
def unmapped (col : Text) : SelectColumn := ⟨[⟨false, col⟩], none⟩

/-- What is inherited is no string, and its `expr` and `join` are undefined. -/
def inheritedSelect : SelectColumn := ⟨[code "undefined"], none⟩

/-- `selectValue` -/
def selectValue (select : Option (OrderedMap Text SelectColumn)) (col : Text) : SelectColumn :=
  match select with
  | none => unmapped col
  | some select => (select.get? col).getD (if col ∈ objectPrototype then inheritedSelect else unmapped col)

/-- Only add an AS clause if the expression differs from the column name. -/
def selectCol (select : Option (OrderedMap Text SelectColumn)) (col : Text) : SelectedColumn :=
  ⟨(selectValue select col).expr, col, textOf (selectValue select col).expr ≠ col⟩

def referencedJoins (select : Option (OrderedMap Text SelectColumn)) (cols : List Text) : List Text :=
  cols.filterMap fun col => (selectValue select col).join.filter (· ≠ [])

/-- The text before its first blank, and from there on. -/
def splitAtSpace : Fragment → Option (Fragment × Fragment)
  | [] => none
  | t :: ts =>
    if ' ' ∈ t.text then
      some ([{ t with text := t.text.takeWhile (· ≠ ' ') }], { t with text := t.text.dropWhile (· ≠ ' ') } :: ts)
    else (splitAtSpace ts).map fun p => (t :: p.1, p.2)

/-- "thread USING (utid)" becomes "thread AS thread USING (utid)". -/
def joinClause (joinId : Text) (join : Join) : Fragment :=
  let as : Fragment := [layout " ", code "AS", layout " ", ⟨false, joinId⟩]
  match splitAtSpace join.fromExpr with
  | none => join.fromExpr ++ as
  | some (tableName, rest) => tableName ++ as ++ rest

namespace SourceDataset

/-- The joins that are not skipped. -/
def keptJoins (d : SourceDataset) (cols : List Text) : List (Text × Join) :=
  d.joins.entries.filter fun e => !(e.2.unique && e.1 ∉ referencedJoins d.select cols)

def query (d : SourceDataset) (cols : List Text) : Except String SelectStmt :=
  let stmt (w : Option Where) : SelectStmt :=
    { columns := cols.map fun col => (selectCol d.select col).indent
      src := d.src
      joins := (d.keptJoins cols).map fun e => joinClause e.1 e.2
      filter := w }
  match d.filter with
  | none => .ok (stmt none)
  | some filter => (filterQuery filter).map fun w => stmt (some w)

end SourceDataset

/-! ### `UnionDataset` -/

inductive Dataset
  | source (d : SourceDataset)
  | union (members : List Dataset)

mutual

/-- The leaves of a dataset. -/
def Dataset.leaves : Dataset → List SourceDataset
  | .source d => [d]
  | .union members => flattenUnion members

def flattenUnion : List Dataset → List SourceDataset
  | [] => []
  | d :: ds => d.leaves ++ flattenUnion ds

end

/-- The columns of `schema` that `dsSchema` has too, with their common types. -/
def commonSchema (schema dsSchema : DatasetSchema) : DatasetSchema :=
  -- An assignment to `__proto__` makes no entry.
  (schema.filterKeys (· ≠ protoKey)).entries.foldl (fun acc e =>
    -- What `dsSchema` only inherits is there too, but it is no type and has none in common with one.
    match (dsSchema.get? e.1).bind (unionTypes e.2) with
    | some commonType => acc.set e.1 commonType
    | none => acc) .empty

mutual

def Dataset.schema : Dataset → DatasetSchema
  | .source d => d.schema
  | .union [] => .empty
  | .union (d :: ds) => restrictSchema d.schema ds

def restrictSchema (acc : DatasetSchema) : List Dataset → DatasetSchema
  | [] => acc
  | d :: ds => restrictSchema (commonSchema acc d.schema) ds

end

def maxSubqueriesPerUnion : Nat := 500

def joinedWith (separator : Char) (ts : List Text) : Text := (ts.intersperse [separator]).flatten

def getJoinSignature (d : SourceDataset) : Text := joinedWith ',' (d.joins.keys.insertionSort (· ≤ ·))

def groupKey (d : SourceDataset) : Text := textOf d.src ++ '|' :: getJoinSignature d

def mergeFilters : List Filter → Option Filter
  | [] => none
  | f :: fs => some (.isIn f.col ((f :: fs).flatMap Filter.values).eraseDups)

/-- `combinedSelect`: `col in combinedSelect` is true from the start of what every object inherits. -/
def combinedSelect (srcGroup : List SourceDataset) : OrderedMap Text SelectColumn :=
  (srcGroup.filterMap (·.select)).foldl (fun acc select => acc.assignNew (select.filterKeys (· ∉ objectPrototype))) .empty

/-- The dataset that stands for the leaves of one source. -/
def mergeGroup : List SourceDataset → SourceDataset
  | [d] => d
  | srcGroup =>
    { src := (srcGroup.head?.map (·.src)).getD []
      -- As in `commonSchema`, `__proto__` is no entry of what is assigned to.
      schema := srcGroup.foldl (fun acc d => acc.assign (d.schema.filterKeys (· ≠ protoKey))) .empty
      filter := mergeFilters (srcGroup.filterMap (·.filter))
      select := if (combinedSelect srcGroup).entries.isEmpty then none else some (combinedSelect srcGroup)
      joins := srcGroup.foldl (fun acc d => acc.assign (d.joins.filterKeys (· ≠ protoKey))) .empty }

/-- The SQL text of a union: one compound, or a CTE for each batch and a compound of these. -/
inductive UnionQuery
  | compound (subQueries : List SelectStmt)
  | withBatches (batches : List (List SelectStmt)) (cols : List Text)

/-- The slices of a list from each multiple of `n`. -/
def slices {A : Type*} (n : Nat) (l : List A) : List (List A) :=
  (List.range ((l.length + (n - 1)) / n)).map fun k => (l.drop (k * n)).take n

def unionOf (subQueries : List SelectStmt) (cols : List Text) : UnionQuery :=
  if subQueries.length ≤ maxSubqueriesPerUnion then .compound subQueries
  else .withBatches (slices maxSubqueriesPerUnion (subQueries.map (·.indent))) (cols.map indentText)

def srcGroups (leaves : List SourceDataset) : List (List SourceDataset) := (OrderedMap.groupBy groupKey leaves).values

namespace UnionDataset

def query (members : List Dataset) (schema : Option DatasetSchema) : Except String UnionQuery :=
  let cols := (schema.getD (Dataset.union members).schema).keys
  (mapExcept (fun g => (mergeGroup g).query cols) (srcGroups (flattenUnion members))).map fun subQueries =>
    unionOf subQueries cols

end UnionDataset

/-! ### The text -/

def unionAll : Fragment := [layout "\n", code "UNION", layout " ", code "ALL", layout "\n"]

def cteName (k : Nat) : Token := ⟨false, "union_batch_".toList ++ (toString k).toList⟩

def UnionQuery.fragment : UnionQuery → Fragment
  | .compound subQueries => joinWith unionAll (subQueries.map (·.fragment 0))
  | .withBatches batches cols =>
    [code "WITH", layout "\n"] ++
      joinWith [code ",", layout "\n"] (batches.mapIdx fun k batch =>
        [cteName k, layout " ", code "AS", layout " ", code "(", layout "\n  "] ++
          joinWith (indentTokens unionAll) (batch.map (·.fragment 2)) ++ [layout "\n", code ")"]) ++
      [layout "\n"] ++
      joinWith unionAll (batches.mapIdx fun k _ =>
        [code "SELECT", layout "\n  "] ++
          joinWith [code ",", layout "\n  "] (cols.map fun col => [⟨false, col⟩]) ++
          [layout "\n", code "FROM", layout " ", cteName k])

/-- Two leaves of one source. -/
example :
    let leaf (filter : Filter) : Dataset :=
      .source ⟨[code "slice"], OrderedMap.empty.set "id".toList .num, some filter, none, .empty⟩
    (UnionDataset.query [leaf (.eq [code "track_id"] (.number "123".toList)),
      leaf (.isIn [code "track_id"] [.number "456".toList, .number "789".toList])] none).map (textOf ·.fragment) =
        .ok "SELECT\n  id\nFROM (slice)\nWHERE track_id IN (123, 456, 789)".toList := by
  decide

end LynxTrace.Ui
