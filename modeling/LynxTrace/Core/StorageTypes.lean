import LynxTrace.TraceProcessor.Double
import Mathlib.Data.List.Nodup

/-!
# Core.StorageTypes — column types, operations and strings (src/trace_processor/core/common/, containers/string_pool.h)

A storage type says which elements a column holds, so an element out of range for its type cannot be built.  Strings
are ids into the pool of interned strings.
-/

namespace LynxTrace.TraceProcessor.Core

/-! ### Types -/

inductive StorageType
  | id | uint32 | int32 | int64 | double | string
  deriving DecidableEq, Repr

/-- `StringPool::Id`. -/
abbrev StringId := ℕ

namespace StorageType

/-- `std::numeric_limits<T>::min()` of an integer type. -/
def minValue : StorageType → ℤ
  | int32 => -2 ^ 31
  | int64 => -2 ^ 63
  | _ => 0

/-- `std::numeric_limits<T>::max()` of an integer type. -/
def maxValue : StorageType → ℤ
  | int32 => 2 ^ 31 - 1
  | int64 => 2 ^ 63 - 1
  | _ => 2 ^ 32 - 1

/-- The integers of a type. -/
abbrev IntOf (t : StorageType) := { z : ℤ // t.minValue ≤ z ∧ z ≤ t.maxValue }

/-- What a column of the type holds. -/
def Elem : StorageType → Type
  | id => IntOf id
  | uint32 => IntOf uint32
  | int32 => IntOf int32
  | int64 => IntOf int64
  | double => Double
  | string => StringId

end StorageType

/-- An element of any type. -/
inductive Value
  | int (z : ℤ)
  | double (d : Double)
  | string (id : StringId)
  deriving DecidableEq, Repr

/-- The element as a value. -/
def StorageType.Elem.toValue : {t : StorageType} → t.Elem → Value
  | .id, e => .int e.val
  | .uint32, e => .int e.val
  | .int32, e => .int e.val
  | .int64, e => .int e.val
  | .double, e => .double e
  | .string, e => .string e

/-- A value that an element of the type can have. -/
def Value.HasType : Value → StorageType → Prop
  | .int z, t => t ≠ .double ∧ t ≠ .string ∧ t.minValue ≤ z ∧ z ≤ t.maxValue
  | .double _, t => t = .double
  | .string _, t => t = .string

theorem StorageType.Elem.toValue_hasType {t : StorageType} (e : t.Elem) : e.toValue.HasType t := by
  cases t with
  | id | uint32 | int32 | int64 => exact ⟨by simp, by simp, e.2⟩
  | double | string => rfl

/-- `SqlValue`, a value given by a query. -/
inductive SqlValue
  | null
  | long (z : StorageType.int64.IntOf)
  | double (d : Double)
  | string (s : List UInt8)
  deriving DecidableEq, Repr

/-! ### Operations -/

/-- `NonStringOp`: the comparisons. -/
inductive CmpOp
  | eq | ne | lt | le | gt | ge
  deriving DecidableEq, Repr

inductive Op
  | cmp (op : CmpOp)
  | glob
  | regex
  | isNotNull
  | isNull
  | isIn
  deriving DecidableEq, Repr

namespace CmpOp

def int : CmpOp → ℤ → ℤ → Bool
  | eq, x, y => x = y
  | ne, x, y => x ≠ y
  | lt, x, y => x < y
  | le, x, y => x ≤ y
  | gt, x, y => y < x
  | ge, x, y => y ≤ x

def double : CmpOp → Double → Double → Bool
  | eq, x, y => x.eq y
  | ne, x, y => !x.eq y
  | lt, x, y => x.lt y
  | le, x, y => x.le y
  | gt, x, y => y.lt x
  | ge, x, y => y.le x

/-- Strings compare by their bytes; a prefix is less. -/
def bytes : CmpOp → List UInt8 → List UInt8 → Bool
  | eq, x, y => x = y
  | ne, x, y => x ≠ y
  | lt, x, y => x < y
  | le, x, y => ¬ y < x
  | gt, x, y => y < x
  | ge, x, y => ¬ x < y

end CmpOp

/-! ### Interned strings -/

/-- `StringPool`: the strings interned so far with their ids.  Strings are found by a 64-bit hash; that no two of them
share one is assumed, as the pool does. -/
structure StringPool where
  entries : List (StringId × List UInt8)
  ids_nodup : (entries.map Prod.fst).Nodup
  strings_nodup : (entries.map Prod.snd).Nodup
  null_notMem : 0 ∉ entries.map Prod.fst

namespace StringPool

def empty : StringPool := ⟨[], List.nodup_nil, List.nodup_nil, List.not_mem_nil⟩

variable (pool : StringPool)

/-- `Get`; the null id has the empty string. -/
def get (id : StringId) : List UInt8 := (pool.entries.lookup id).getD []

/-- `GetId`. -/
def getId (s : List UInt8) : Option StringId := (pool.entries.find? (·.2 = s)).map Prod.fst

def size : ℕ := pool.entries.length

/-- `Id::is_large_string`. -/
def isLargeString (id : StringId) : Bool := id.testBit 31

def hasLargeString : Bool := pool.entries.any fun e => isLargeString e.1

/-- The id of an interned string. -/
def Contains (id : StringId) : Prop := id ∈ pool.entries.map Prod.fst

variable {pool}

theorem mem_entries_iff {id : StringId} {s : List UInt8} (h : pool.Contains id) :
    (id, s) ∈ pool.entries ↔ pool.get id = s := by
  have hlookup : ∀ l : List (StringId × List UInt8), (l.map Prod.fst).Nodup → id ∈ l.map Prod.fst →
      ((id, s) ∈ l ↔ (l.lookup id).getD [] = s) := by
    intro l
    induction l with
    | nil => simp
    | cons e l ih =>
      obtain ⟨i, x⟩ := e
      intro hnodup hmem
      rw [List.map_cons, List.nodup_cons] at hnodup
      by_cases hi : id = i
      · subst hi
        have hnot : (id, s) ∉ l := fun hin => hnodup.1 (List.mem_map.mpr ⟨_, hin, rfl⟩)
        simp [hnot, eq_comm]
      · have hl : id ∈ l.map Prod.fst := by simpa [hi] using hmem
        simpa [hi, List.lookup_cons, beq_false_of_ne hi] using ih hnodup.2 hl
  exact hlookup _ pool.ids_nodup h

/-- **Interning is canonical.**  A string has the id under which it is stored, and no other id. -/
theorem getId_eq_some_iff {id : StringId} {s : List UInt8} (h : pool.Contains id) :
    pool.getId s = some id ↔ pool.get id = s := by
  rw [← mem_entries_iff h, getId, Option.map_eq_some_iff]
  constructor
  · rintro ⟨⟨i, x⟩, hfind, rfl⟩
    have hx : x = s := by simpa using List.find?_some hfind
    exact hx ▸ List.mem_of_find?_eq_some hfind
  · intro hmem
    obtain ⟨⟨i, x⟩, hfind⟩ : ∃ e, pool.entries.find? (·.2 = s) = some e := by
      rw [← Option.isSome_iff_exists, List.find?_isSome]
      exact ⟨_, hmem, by simp⟩
    have hx : x = s := by simpa using List.find?_some hfind
    subst hx
    have heq := List.inj_on_of_nodup_map pool.strings_nodup (List.mem_of_find?_eq_some hfind) hmem rfl
    exact ⟨_, hfind, congrArg Prod.fst heq⟩

theorem getId_eq_none {id : StringId} {s : List UInt8} (h : pool.Contains id) (hs : pool.getId s = none) :
    pool.get id ≠ s := fun hget => by
  rw [(getId_eq_some_iff h).mpr hget] at hs
  exact Option.some_ne_none _ hs

end StringPool

/-- `GlobMatcher` and `Regex`: what the pattern functions answer.  A glob pattern without special characters matches
the one string it is. -/
structure Matchers where
  globIsEquality : List UInt8 → Bool
  globMatches : List UInt8 → List UInt8 → Bool
  globMatches_eq : ∀ pattern s, globIsEquality pattern → globMatches pattern s = decide (s = pattern)
  /-- `Regex::Create` with `PartialMatch` on the string up to its first NUL; `none` if the pattern has an error. -/
  regex : List UInt8 → Option (List UInt8 → Bool)

end LynxTrace.TraceProcessor.Core
