import LynxTrace.Core.MutableCells
import Mathlib.Data.List.ReduceOption

/-!
# Core.CellTable — a mutable dataframe is a table of optional values
-/

namespace LynxTrace.TraceProcessor.Core

/-! ### Tables of optional values -/

/-- What a nullable cell holds once it is written: the null string is a null. -/
def normalize (type : StorageType) (t : Option Value) : Option Value := if hasValue type t then t else none

/-- An `Id` column gets the next number instead of a value. -/
def assigned (type : StorageType) (slots : ℕ) (v : Value) : Value := if type = .id then .int slots else v

structure ValueColumn where
  type : StorageType
  nullability : Nullability
  cells : List (Option Value) := []

namespace ValueColumn

def sparse (a : ValueColumn) : Bool := a.nullability != .nonNull && a.nullability != .denseNull

/-- The elements stored so far; a dense null has one too. -/
def slots (a : ValueColumn) : ℕ := if a.sparse then a.cells.reduceOption.length else a.cells.length

/-- A new row. -/
def insert (a : ValueColumn) (t : Option Value) : Option ValueColumn :=
  if a.nullability = .nonNull then t.map fun v => { a with cells := a.cells ++ [some (assigned a.type a.slots v)] }
  else some { a with cells := a.cells ++ [(normalize a.type t).map (assigned a.type a.slots)] }

/-- One cell changes. -/
def set (a : ValueColumn) (row : ℕ) (value : Option Value) : Option ValueColumn :=
  if a.type = .id ∨ a.nullability = .sparseNull then none
  else if a.nullability = .nonNull then value.map fun v => { a with cells := a.cells.set row (some v) }
  else some { a with cells := a.cells.set row (normalize a.type value) }

def clear (a : ValueColumn) : ValueColumn := { a with cells := [] }

end ValueColumn

/-- A table: its columns have one cell for each row. -/
structure CellTable where
  columns : List ValueColumn
  rowCount : ℕ := 0

namespace CellTable

def ofSpecs (specs : List ColumnSpec) : CellTable where
  columns := specs.map fun spec => { type := spec.type, nullability := spec.nullability }

/-- What a call writes: a row, one cell, or nothing left. -/
def step (t : CellTable) : MutableDataframe.Call → Option CellTable
  | .insertUnchecked ts =>
    if t.columns.length = ts.length then do
      let columns ← (t.columns.zip ts).mapM fun p => p.1.insert p.2
      some { columns, rowCount := t.rowCount + 1 }
    else none
  | .setCell row col value =>
    if row < t.rowCount then do
      let a ← t.columns[col]?
      let a ← a.set row value
      some { t with columns := t.columns.set col a }
    else none
  | .clear => some { columns := t.columns.map ValueColumn.clear }

end CellTable

/-! ### What a column holds -/

namespace Storage

/-- The elements. -/
def values : Storage → List Value
  | id size => (List.range size).map fun i : ℕ => Value.int i
  | flex _ data => data

variable (s : Storage) (v : Value)

theorem length_values : s.values.length = s.size := by
  cases s with
  | id size => exact (List.length_map ..).trans List.length_range
  | flex type data => rfl

theorem get_eq (i : ℕ) : s.get i = s.values[i]? := by
  cases s with
  | id size =>
    rw [get, values, List.getElem?_map]
    split_ifs with h
    · rw [List.getElem?_range h, Option.map_some]
    · rw [List.getElem?_eq_none (by rw [List.length_range]; omega), Option.map_none]
  | flex type data => rfl

theorem getUnchecked_of_values {i : ℕ} {v : Value} (h : s.values[i]? = some v) : s.getUnchecked i = some v := by
  cases s with
  | id size =>
    obtain ⟨j, hj, rfl⟩ := Option.map_eq_some_iff.mp ((List.getElem?_map ..).symm.trans h)
    obtain ⟨hlt, hget⟩ := List.getElem?_eq_some_iff.mp hj
    rw [List.getElem_range] at hget
    rw [← hget]
    rfl
  | flex type data => exact h

theorem pushBack_type : (s.pushBack v).type = s.type := by cases s <;> rfl

theorem pushBackDefault_type : s.pushBackDefault.type = s.type := by
  cases s with
  | id size => rfl
  | flex type data => cases type <;> rfl

theorem clear_type : s.clear.type = s.type := by cases s <;> rfl

theorem clear_values : s.clear.values = [] := by cases s <;> rfl

/-- A storage of ids has the type of ids, and no other has. -/
def WellTyped : Storage → Prop
  | id _ => True
  | flex type _ => type ≠ .id

theorem pushBack_values (h : s.WellTyped) (hsize : s.size + 1 < 2 ^ 32) :
    (s.pushBack v).values = s.values ++ [assigned s.type s.size v] := by
  cases s with
  | id size =>
    show (List.range (increment size)).map _ = _
    rw [increment_eq (n := size) hsize, List.range_succ, List.map_append]
    rfl
  | flex type data =>
    show data ++ [v] = data ++ [if type = .id then _ else v]
    rw [if_neg h]

theorem pushBackDefault_values (hsize : s.size + 1 < 2 ^ 32) : ∃ v, s.pushBackDefault.values = s.values ++ [v] := by
  cases s with
  | id size =>
    refine ⟨.int size, ?_⟩
    show (List.range (increment size)).map _ = _
    rw [increment_eq (n := size) hsize, List.range_succ, List.map_append]
    rfl
  | flex type data => cases type <;> exact ⟨_, rfl⟩

theorem pushBack_wellTyped (h : s.WellTyped) : (s.pushBack v).WellTyped := by
  cases s with
  | id size => trivial
  | flex type data => exact h

theorem pushBackDefault_wellTyped (h : s.WellTyped) : s.pushBackDefault.WellTyped := by
  cases s with
  | id size => trivial
  | flex type data => cases type <;> exact h

end Storage

/-- A sparse column has a bit for each cell and an element for each value. -/
structure SparseHolds (storage : Storage) (nulls : SparseNull) (cells : List (Option Value)) : Prop where
  bits : nulls.bitVector.bits = cells.map Option.isSome
  values : storage.values = cells.reduceOption

/-- The prefix count of each word is the number of set bits before it. -/
def PrefixHolds (nulls : SparseNull) : Prop :=
  nulls.prefixPopcountForCellGet =
    (List.range ((nulls.bitVector.size + 63) / 64)).map fun w => nulls.bitVector.rank (64 * w)

/-- A dense column has a bit and an element for each cell. -/
structure DenseHolds (storage : Storage) (bv : BitVector) (cells : List (Option Value)) : Prop where
  bits : bv.bits = cells.map Option.isSome
  size : storage.size = cells.length
  values : ∀ (r : ℕ) (v : Value), cells[r]? = some (some v) → storage.values[r]? = some v

/-- The column holds the cells. -/
structure Denotes (c : Column) (a : ValueColumn) : Prop where
  type : c.storage.type = a.type
  wellTyped : c.storage.WellTyped
  nulls : match c.nullStorage with
    | .nonNull => a.nullability = .nonNull ∧ c.storage.values.map some = a.cells
    | .denseNull bv => a.nullability = .denseNull ∧ DenseHolds c.storage bv a.cells
    | .sparseNull nulls => a.nullability = .sparseNull ∧ SparseHolds c.storage nulls a.cells
    | .sparseNullWithPopcountAlways nulls =>
      a.nullability = .sparseNullWithPopcountAlways ∧ SparseHolds c.storage nulls a.cells ∧ PrefixHolds nulls
    | .sparseNullWithPopcountUntilFinalization nulls =>
      a.nullability = .sparseNullWithPopcountUntilFinalization ∧ SparseHolds c.storage nulls a.cells ∧
        PrefixHolds nulls

/-! ### Bits and counts -/

namespace BitVector

/-- Changing a bit changes the rank of the positions behind it. -/
theorem rank_change (bv : BitVector) {row : ℕ} (hrow : row < bv.size) (bit : Bool) (n : ℕ) :
    (bv.change row bit).rank n + (if row < n then (bv.isSet row).toNat else 0) =
      bv.rank n + if row < n then bit.toNat else 0 := by
  obtain ⟨bits⟩ := bv
  simp only [rank, change, isSet]
  induction bits generalizing row n with
  | nil => exact absurd hrow (Nat.not_lt_zero _)
  | cons b bits ih =>
    cases n with
    | zero => simp
    | succ n =>
      cases row with
      | zero =>
        rw [List.set_cons_zero, List.take_succ_cons, List.take_succ_cons, List.count_cons, List.count_cons]
        cases b <;> cases bit <;> simp
      | succ row =>
        have hrest := @ih row n (Nat.lt_of_succ_lt_succ hrow)
        rw [List.set_cons_succ, List.take_succ_cons, List.take_succ_cons, List.count_cons, List.count_cons]
        simp only [List.getD_cons_succ, Nat.succ_lt_succ_iff]
        omega

theorem rank_pushBack (bv : BitVector) (bit : Bool) {n : ℕ} (hn : n ≤ bv.size) :
    (bv.pushBack bit).rank n = bv.rank n := by
  rw [rank, rank, pushBack, List.take_append_of_le_length hn]

theorem rank_le (bv : BitVector) (n : ℕ) : bv.rank n ≤ n ∧ bv.rank n ≤ bv.size := by
  have hcount := List.count_le_length (a := true) (l := bv.bits.take n)
  rw [List.length_take] at hcount
  exact ⟨hcount.trans (Nat.min_le_left _ _), hcount.trans (Nat.min_le_right _ _)⟩

theorem size_change (bv : BitVector) (row : ℕ) (bit : Bool) : (bv.change row bit).size = bv.size :=
  List.length_set

theorem size_pushBack (bv : BitVector) (bit : Bool) : (bv.pushBack bit).size = bv.size + 1 := by
  rw [size, size, pushBack, List.length_append, List.length_singleton]

end BitVector

theorem reduceOption_length (cells : List (Option Value)) :
    cells.reduceOption.length = (cells.map Option.isSome).count true := by
  induction cells with
  | nil => rfl
  | cons t cells ih =>
    cases t with
    | none => rw [List.reduceOption_cons_of_none, ih, List.map_cons, Option.isSome_none, List.count_cons_of_ne (by simp)]
    | some v => rw [List.reduceOption_cons_of_some, List.length_cons, ih, List.map_cons, Option.isSome_some,
        List.count_cons_self]

namespace SparseHolds

variable {storage : Storage} {nulls : SparseNull} {cells : List (Option Value)}

theorem size (h : SparseHolds storage nulls cells) : nulls.bitVector.size = cells.length := by
  rw [BitVector.size, h.bits, List.length_map]

theorem isSet (h : SparseHolds storage nulls cells) {row : ℕ} {t : Option Value} (ht : cells[row]? = some t) :
    nulls.bitVector.isSet row = t.isSome := by
  rw [BitVector.isSet, h.bits, List.getD_eq_getElem?_getD, List.getElem?_map, ht]
  rfl

/-- Before a row there are as many elements as values. -/
theorem rank (h : SparseHolds storage nulls cells) (row : ℕ) :
    nulls.bitVector.rank row = (cells.take row).reduceOption.length := by
  rw [BitVector.rank, h.bits, ← List.map_take, reduceOption_length]

end SparseHolds

theorem PrefixHolds.getD {nulls : SparseNull} (h : PrefixHolds nulls) {w : ℕ} (hw : 64 * w < nulls.bitVector.size) :
    nulls.prefixPopcountForCellGet.getD w 0 = nulls.bitVector.rank (64 * w) := by
  rw [h, List.getD_eq_getElem?_getD, List.getElem?_map, List.getElem?_range (by omega)]
  rfl

variable {row : ℕ}

/-- The index of a row is its rank. -/
theorem PrefixHolds.storageIdx {nulls : SparseNull} (h : PrefixHolds nulls) (hrow : row < nulls.bitVector.size)
    (hfits : row < 2 ^ 32) : Column.storageIdx nulls row = nulls.bitVector.rank row := by
  rw [Column.storageIdx, h.getD (by omega), ← BitVector.rank_eq]
  exact Nat.mod_eq_of_lt ((nulls.bitVector.rank_le row).1.trans_lt hfits)

theorem pushPrefixPopcount_bitVector (nulls : SparseNull) (bit : Bool) :
    (nulls.pushPrefixPopcount.pushBack bit).bitVector = nulls.bitVector.pushBack bit := by
  unfold SparseNull.pushPrefixPopcount SparseNull.pushBack
  split_ifs <;> rfl

/-- A new word gets its prefix count before its first bit. -/
theorem PrefixHolds.push {nulls : SparseNull} (h : PrefixHolds nulls) (hfits : nulls.bitVector.size < 2 ^ 32) (bit : Bool) :
    PrefixHolds (nulls.pushPrefixPopcount.pushBack bit) := by
  set size := nulls.bitVector.size with hsize
  have hranks : ∀ words, 64 * words ≤ size + 64 →
      (List.range words).map (fun w => (nulls.bitVector.pushBack bit).rank (64 * w)) =
        (List.range words).map fun w => nulls.bitVector.rank (64 * w) := by
    intro words hwords
    refine List.map_congr_left fun w hw => BitVector.rank_pushBack _ _ ?_
    have := List.mem_range.mp hw
    omega
  unfold PrefixHolds SparseNull.pushPrefixPopcount SparseNull.pushBack at *
  by_cases hword : size % 64 = 0
  · rw [if_pos hword]
    dsimp only
    rw [BitVector.size_pushBack, ← hsize]
    obtain ⟨words, hwords⟩ : ∃ words, size = 64 * words := ⟨size / 64, by omega⟩
    have hnew : (size + 1 + 63) / 64 = words + 1 := by omega
    have hold : (size + 63) / 64 = words := by omega
    rw [hnew, hranks _ (by omega), List.range_succ, List.map_append, h, ← hsize, hold]
    refine congrArg (_ ++ [·]) ?_
    cases words with
    | zero => rw [if_pos hwords]; rfl
    | succ words =>
      rw [if_neg (by omega), List.range_succ, List.map_append, List.map_singleton, List.getLastD_concat]
      have hlast : nulls.bitVector.countSetBitsInWord (size - 1) = nulls.bitVector.countSetBitsInWord (64 * words) := by
        unfold BitVector.countSetBitsInWord BitVector.wordOf
        have hdiv : (size - 1) / 64 = 64 * words / 64 := by omega
        rw [hdiv]
      rw [hlast, ← BitVector.rank_word]
      exact Nat.mod_eq_of_lt ((nulls.bitVector.rank_le _).2.trans_lt hfits)
  · rw [if_neg hword]
    dsimp only
    rw [BitVector.size_pushBack, ← hsize]
    have hsame : (size + 1 + 63) / 64 = (size + 63) / 64 := by omega
    rw [hsame, hranks _ (by omega), h]

/-- The loops over the later words keep the prefix counts, when they do what the bit does. -/
theorem PrefixHolds.change {nulls : SparseNull} (h : PrefixHolds nulls) (hrow : row < nulls.bitVector.size) {bit : Bool}
    {f : ℕ → ℕ} (hf : ∀ n, row < n → f (nulls.bitVector.rank n) = (nulls.bitVector.change row bit).rank n) :
    PrefixHolds ⟨nulls.bitVector.change row bit, Column.changePrefixPopcounts nulls row f⟩ := by
  unfold PrefixHolds Column.changePrefixPopcounts
  dsimp only
  rw [BitVector.size_change, h]
  refine List.ext_getElem? fun w => ?_
  rw [List.getElem?_mapIdx, List.getElem?_map, List.getElem?_map]
  cases hw : (List.range ((nulls.bitVector.size + 63) / 64))[w]? with
  | none => rfl
  | some w' =>
    obtain ⟨hlt, hw'⟩ := List.getElem?_eq_some_iff.mp hw
    rw [List.getElem_range] at hw'
    subst hw'
    have hrank := nulls.bitVector.rank_change hrow bit (64 * w)
    simp only [Option.map_some, Option.some_inj]
    by_cases hlater : row / 64 + 1 ≤ w
    · rw [if_pos hlater, hf _ (by omega)]
    · have hnot : ¬ row < 64 * w := by omega
      rw [if_neg hnot, if_neg hnot] at hrank
      rw [if_neg hlater]
      exact hrank.symm

theorem BitVector.change_same {bv : BitVector} {bit : Bool} (hrow : row < bv.size) (hbit : bv.isSet row = bit) :
    bv.change row bit = bv := by
  have hget : bv.bits[row]? = some bit := by
    have hin : row < bv.bits.length := hrow
    rw [BitVector.isSet, List.getD_eq_getElem?_getD, List.getElem?_eq_getElem hin, Option.getD_some] at hbit
    rw [List.getElem?_eq_getElem hin, hbit]
  obtain ⟨hin, rfl⟩ := List.getElem?_eq_some_iff.mp hget
  rw [BitVector.change, List.set_getElem_self]

/-! ### Inserting -/

theorem normalize_isSome (type : StorageType) (t : Option Value) : (normalize type t).isSome = hasValue type t := by
  unfold normalize
  cases hhas : hasValue type t with
  | false => rfl
  | true =>
    cases t with
    | none => cases hhas
    | some v => rfl

/-- What a cell of a nullable column adds to the storage. -/
theorem Storage.insertNullable_values {storage : Storage} (hw : storage.WellTyped) (hsize : storage.size + 1 < 2 ^ 32)
    (nullsHaveSlots : Bool) (t : Option Value) :
    match (normalize storage.type t).map (assigned storage.type storage.size) with
    | some v => (storage.insertNullable nullsHaveSlots t).values = storage.values ++ [v]
    | none => if nullsHaveSlots then ∃ v, (storage.insertNullable nullsHaveSlots t).values = storage.values ++ [v]
      else storage.insertNullable nullsHaveSlots t = storage := by
  have hnull : if nullsHaveSlots then
      ∃ v, (if nullsHaveSlots then storage.pushBackDefault else storage).values = storage.values ++ [v]
      else (if nullsHaveSlots then storage.pushBackDefault else storage) = storage := by
    cases nullsHaveSlots with
    | true => exact storage.pushBackDefault_values hsize
    | false => rfl
  unfold normalize Storage.insertNullable
  cases t with
  | none => simpa [hasValue] using hnull
  | some v =>
    cases hhas : hasValue storage.type (some v) with
    | true => exact storage.pushBack_values v hw hsize
    | false => simpa using hnull

theorem Storage.insertNullable_keeps {storage : Storage} (hw : storage.WellTyped) (nullsHaveSlots : Bool)
    (t : Option Value) : (storage.insertNullable nullsHaveSlots t).type = storage.type ∧
      (storage.insertNullable nullsHaveSlots t).WellTyped := by
  have hpush := fun v => And.intro (storage.pushBack_type v) (storage.pushBack_wellTyped v hw)
  have hdefault := And.intro storage.pushBackDefault_type (storage.pushBackDefault_wellTyped hw)
  unfold Storage.insertNullable
  cases t with
  | none =>
    dsimp only
    split_ifs
    · exact hdefault
    · exact ⟨rfl, hw⟩
  | some v =>
    dsimp only
    split_ifs
    · exact hpush v
    · exact hdefault
    · exact ⟨rfl, hw⟩

theorem SparseHolds.insert {storage : Storage} {nulls nulls' : SparseNull} {cells : List (Option Value)}
    (h : SparseHolds storage nulls cells) (hw : storage.WellTyped) (hrows : cells.length + 1 < 2 ^ 32) (t : Option Value)
    (hbits : nulls'.bitVector = nulls.bitVector.pushBack (hasValue storage.type t)) :
    SparseHolds (storage.insertNullable false t) nulls'
      (cells ++ [(normalize storage.type t).map (assigned storage.type cells.reduceOption.length)]) := by
  have hsize : cells.reduceOption.length = storage.size := by rw [← h.values, Storage.length_values]
  have hle := List.reduceOption_length_le cells
  have hvalues := Storage.insertNullable_values hw (by omega) false t
  rw [hsize]
  refine ⟨?_, ?_⟩
  · rw [hbits, BitVector.pushBack, h.bits, List.map_append, List.map_singleton, Option.isSome_map, normalize_isSome]
  · rw [List.reduceOption_append, ← h.values]
    cases hcell : (normalize storage.type t).map (assigned storage.type storage.size) with
    | some v =>
      rw [hcell] at hvalues
      rw [hvalues]
      rfl
    | none =>
      rw [hcell] at hvalues
      rw [show storage.insertNullable false t = storage from hvalues]
      exact (List.append_nil _).symm

theorem DenseHolds.insert {storage : Storage} {bv : BitVector} {cells : List (Option Value)}
    (h : DenseHolds storage bv cells) (hw : storage.WellTyped) (hrows : cells.length + 1 < 2 ^ 32) (t : Option Value) :
    DenseHolds (storage.insertNullable true t) (bv.pushBack (hasValue storage.type t))
      (cells ++ [(normalize storage.type t).map (assigned storage.type cells.length)]) := by
  have hvalues := Storage.insertNullable_values hw (h.size ▸ hrows) true t
  rw [← h.size]
  obtain ⟨v, hstored, hcell⟩ : ∃ v, (storage.insertNullable true t).values = storage.values ++ [v] ∧
      ∀ w, (normalize storage.type t).map (assigned storage.type storage.size) = some w → w = v := by
    cases hcell : (normalize storage.type t).map (assigned storage.type storage.size) with
    | some v =>
      rw [hcell] at hvalues
      exact ⟨v, hvalues, fun w hw => (Option.some_inj.mp hw).symm⟩
    | none =>
      rw [hcell] at hvalues
      obtain ⟨v, hv⟩ := (hvalues : ∃ v, (storage.insertNullable true t).values = storage.values ++ [v])
      exact ⟨v, hv, fun w hw => absurd hw (by simp)⟩
  have hlength : storage.values.length = cells.length := (Storage.length_values _).trans h.size
  refine ⟨?_, ?_, fun r w hr => ?_⟩
  · rw [BitVector.pushBack, h.bits, List.map_append, List.map_singleton, Option.isSome_map, normalize_isSome]
  · rw [← Storage.length_values, hstored, List.length_append, List.length_append, hlength]
    rfl
  · rw [hstored]
    rcases Nat.lt_or_ge r cells.length with hlt | hge
    · rw [List.getElem?_append_left hlt] at hr
      rw [List.getElem?_append_left (hlength ▸ hlt)]
      exact h.values r w hr
    · obtain rfl : r = cells.length := by
        have := (List.getElem?_eq_some_iff.mp hr).1
        rw [List.length_append, List.length_singleton] at this
        omega
      rw [List.getElem?_concat_length, Option.some_inj] at hr
      rw [← hlength, List.getElem?_concat_length, hcell w hr]

theorem ValueColumn.slots_eq (a : ValueColumn) : a.slots =
    match a.nullability with
    | .nonNull | .denseNull => a.cells.length
    | _ => a.cells.reduceOption.length := by
  obtain ⟨type, nullability, cells⟩ := a
  cases nullability <;> rfl

variable {c : Column} {a : ValueColumn}

/-- A new cell. -/
theorem Denotes.insert (h : Denotes c a) (hrows : a.cells.length + 1 < 2 ^ 32) (t : Option Value) :
    Option.Rel Denotes (c.insertUnchecked t) (a.insert t) := by
  have hkeeps := fun nullsHaveSlots => Storage.insertNullable_keeps h.wellTyped nullsHaveSlots t
  have htype := h.type
  have hslots := a.slots_eq
  have hnulls := h.nulls
  unfold Column.insertUnchecked ValueColumn.insert
  cases hkind : c.nullStorage with
  | nonNull =>
    rw [hkind] at hnulls
    obtain ⟨hnull, hcells⟩ := hnulls
    rw [hnull] at hslots
    rw [if_pos hnull]
    cases t with
    | none => exact .none
    | some v =>
      refine .some ⟨(Storage.pushBack_type ..).trans htype, Storage.pushBack_wellTyped _ _ h.wellTyped, ?_⟩
      refine ⟨hnull, ?_⟩
      have hsize : c.storage.size = a.slots := by
        rw [hslots, ← hcells, List.length_map, Storage.length_values]
      rw [Storage.pushBack_values _ _ h.wellTyped (by rwa [hsize, hslots]), List.map_append, hcells, ← htype, hsize]
      rfl
  | denseNull bv =>
    rw [hkind] at hnulls
    obtain ⟨hnull, hcells⟩ := hnulls
    rw [hnull] at hslots
    rw [if_neg (by rw [hnull]; decide), hslots, ← htype]
    exact .some ⟨(hkeeps true).1, (hkeeps true).2, hnull, hcells.insert h.wellTyped hrows t⟩
  | sparseNull nulls =>
    rw [hkind] at hnulls
    obtain ⟨hnull, hcells⟩ := hnulls
    rw [hnull] at hslots
    rw [if_neg (by rw [hnull]; decide), hslots, ← htype]
    exact .some ⟨(hkeeps false).1, (hkeeps false).2, hnull, hcells.insert h.wellTyped hrows t rfl⟩
  | sparseNullWithPopcountAlways nulls | sparseNullWithPopcountUntilFinalization nulls =>
    rw [hkind] at hnulls
    obtain ⟨hnull, hcells, hcounts⟩ := hnulls
    rw [hnull] at hslots
    rw [if_neg (by rw [hnull]; decide), hslots, ← htype]
    exact .some ⟨(hkeeps false).1, (hkeeps false).2, hnull,
      hcells.insert h.wellTyped hrows t (pushPrefixPopcount_bitVector ..), hcounts.push (hcells.size ▸ Nat.lt_of_succ_lt hrows) _⟩

/-! ### Setting -/

/-- A list with the element at a position taken out of it. -/
theorem split_at {α : Type} {l : List α} {i : ℕ} {x : α} (h : l[i]? = some x) :
    l = l.take i ++ x :: l.drop (i + 1) := by
  obtain ⟨hi, rfl⟩ := List.getElem?_eq_some_iff.mp h
  rw [List.getElem_cons_drop, List.take_append_drop]

/-- `SetCell` of a sparse column by what it stores. -/
theorem setSparse_eq (type : StorageType) (data : List Value) (nulls : SparseNull) (row : ℕ) (value : Option Value) :
    Column.setSparse type data nulls row value =
      match normalize type value with
      | some v =>
        if nulls.bitVector.isSet row then
          (data.set (Column.storageIdx nulls row) v, { nulls with bitVector := nulls.bitVector.change row true })
        else (data.take (Column.storageIdx nulls row) ++ v :: data.drop (Column.storageIdx nulls row),
          ⟨nulls.bitVector.change row true, Column.changePrefixPopcounts nulls row increment⟩)
      | none => Column.setSparse.clearSparse data nulls row (Column.storageIdx nulls row) := by
  unfold Column.setSparse normalize
  cases value with
  | none => rfl
  | some v =>
    cases hasValue type (some v) with
    | false => rfl
    | true => cases nulls.bitVector.isSet row <;> rfl

/-- Setting a cell of a sparse column. -/
theorem SparseHolds.set {type : StorageType} {data : List Value} {nulls : SparseNull} {cells : List (Option Value)}
    (h : SparseHolds (.flex type data) nulls cells) (hcounts : PrefixHolds nulls) (hrows : cells.length < 2 ^ 32)
    (hrow : row < cells.length) (value : Option Value) :
    SparseHolds (.flex type (Column.setSparse type data nulls row value).1) (Column.setSparse type data nulls row value).2
        (cells.set row (normalize type value)) ∧
      PrefixHolds (Column.setSparse type data nulls row value).2 := by
  have hrow' : row < nulls.bitVector.size := h.size ▸ hrow
  obtain ⟨old, hold⟩ : ∃ old, cells[row]? = some old := ⟨cells[row], List.getElem?_eq_getElem hrow⟩
  have hsplit := split_at hold
  set l := cells.take row with hl
  set r := cells.drop (row + 1) with hr
  have hlength : l.length = row := by rw [hl, List.length_take, Nat.min_eq_left (Nat.le_of_lt hrow)]
  have hset : ∀ t, cells.set row t = l ++ t :: r := by
    intro t
    rw [hsplit, ← hlength, List.set_append_right _ _ (Nat.le_refl _), Nat.sub_self, List.set_cons_zero]
  have hidx : Column.storageIdx nulls row = l.reduceOption.length := by
    rw [hcounts.storageIdx hrow' (hrow.trans hrows), h.rank]
  have hbit : nulls.bitVector.isSet row = old.isSome := h.isSet hold
  have hdata : data = l.reduceOption ++ (old :: r).reduceOption := by
    rw [← List.reduceOption_append, ← hsplit]
    exact h.values
  have hbits : ∀ t : Option Value,
      (nulls.bitVector.change row t.isSome).bits = (cells.set row t).map Option.isSome := by
    intro t
    rw [BitVector.change, h.bits, List.map_set]
  have hvalues : ∀ t, (cells.set row t).reduceOption = l.reduceOption ++ (t :: r).reduceOption := fun t => by
    rw [hset, List.reduceOption_append]
  have hrank := fun bit n => nulls.bitVector.rank_change hrow' bit n
  have hle := fun bit n => ((nulls.bitVector.change row bit).rank_le n).2
  simp only [BitVector.size_change, h.size] at hle
  rw [setSparse_eq, hidx]
  unfold Column.setSparse.clearSparse
  rw [hbit]
  rw [hbit] at hrank
  cases hnew : normalize type value with
  | some v =>
    cases old with
    | none =>
      -- a null becomes a value: the later elements move, and the later counts go up
      rw [List.reduceOption_cons_of_none] at hdata
      refine ⟨⟨hbits (some v), ?_⟩, hcounts.change hrow' fun n hn => ?_⟩
      · show data.take _ ++ v :: data.drop _ = _
        rw [hvalues, List.reduceOption_cons_of_some, hdata, List.take_left, List.drop_left]
      · have h1 := hrank true n
        rw [if_pos hn, if_pos hn] at h1
        have h2 := hle true n
        have h3 : (nulls.bitVector.change row true).rank n = nulls.bitVector.rank n + 1 := h1
        rw [h3]
        exact increment_eq (by omega)
    | some w =>
      rw [List.reduceOption_cons_of_some] at hdata
      refine ⟨⟨hbits (some v), ?_⟩, ?_⟩
      · show data.set _ v = _
        rw [hvalues, List.reduceOption_cons_of_some, hdata, List.set_append_right _ _ (Nat.le_refl _), Nat.sub_self,
          List.set_cons_zero]
      · show PrefixHolds { nulls with bitVector := nulls.bitVector.change row true }
        rw [BitVector.change_same hrow' (show _ = true from hbit)]
        exact hcounts
  | none =>
    cases old with
    | none =>
      rw [List.reduceOption_cons_of_none] at hdata
      refine ⟨⟨hbits none, ?_⟩, ?_⟩
      · show data = _
        rw [hvalues, List.reduceOption_cons_of_none, hdata]
      · show PrefixHolds { nulls with bitVector := nulls.bitVector.change row false }
        rw [BitVector.change_same hrow' (show _ = false from hbit)]
        exact hcounts
    | some w =>
      rw [List.reduceOption_cons_of_some] at hdata
      refine ⟨⟨hbits none, ?_⟩, hcounts.change hrow' fun n hn => ?_⟩
      · show data.take _ ++ data.drop _ = _
        rw [hvalues, List.reduceOption_cons_of_none, hdata, List.take_left, ← List.drop_drop, List.drop_left]
        rfl
      · have h1 := hrank false n
        rw [if_pos hn, if_pos hn] at h1
        have h2 : (Option.isSome (some w)).toNat = 1 := rfl
        have h3 : false.toNat = 0 := rfl
        have h4 := (nulls.bitVector.rank_le n).2
        rw [h.size] at h4
        rw [decrement]
        omega

theorem setDense_eq (type : StorageType) (data : List Value) (bv : BitVector) (row : ℕ) (value : Option Value) :
    Column.setDense type data bv row value =
      match normalize type value with
      | some v => (data.set row v, bv.change row true)
      | none => (data, bv.change row false) := by
  unfold Column.setDense normalize
  cases value with
  | none => rfl
  | some v => cases hasValue type (some v) <;> rfl

theorem DenseHolds.set {type : StorageType} {data : List Value} {bv : BitVector} {cells : List (Option Value)}
    (h : DenseHolds (.flex type data) bv cells) (hrow : row < cells.length) (value : Option Value) :
    DenseHolds (.flex type (Column.setDense type data bv row value).1) (Column.setDense type data bv row value).2
      (cells.set row (normalize type value)) := by
  have hsize : data.length = cells.length := h.size
  have hold : ∀ r v, cells[r]? = some (some v) → data[r]? = some v := h.values
  have hbits : ∀ t : Option Value, (bv.change row t.isSome).bits = (cells.set row t).map Option.isSome := by
    intro t
    rw [BitVector.change, h.bits, List.map_set]
  rw [setDense_eq]
  cases normalize type value with
  | some v =>
    refine ⟨hbits (some v), ?_, fun r w hr => ?_⟩
    · show (data.set row v).length = _
      rw [List.length_set, List.length_set, hsize]
    · show (data.set row v)[r]? = some w
      by_cases hrr : row = r
      · subst hrr
        rw [List.getElem?_set_self hrow, Option.some_inj] at hr
        rw [List.getElem?_set_self (hsize ▸ hrow), hr]
      · rw [List.getElem?_set_ne hrr] at hr ⊢
        exact hold r w hr
  | none =>
    refine ⟨hbits none, ?_, fun r w hr => ?_⟩
    · show data.length = _
      rw [List.length_set, hsize]
    · by_cases hrr : row = r
      · subst hrr
        rw [List.getElem?_set_self hrow] at hr
        cases hr
      · rw [List.getElem?_set_ne hrr] at hr
        exact hold r w hr

/-- A cell that is set. -/
theorem Denotes.set (h : Denotes c a) (hrows : a.cells.length < 2 ^ 32) (hrow : row < a.cells.length)
    (value : Option Value) : Option.Rel Denotes (c.setCell row value) (a.set row value) := by
  have htype := h.type
  have hwell := h.wellTyped
  have hnulls := h.nulls
  unfold Column.setCell ValueColumn.set
  cases hstorage : c.storage with
  | id size =>
    rw [hstorage] at htype
    rw [if_pos (.inl htype.symm)]
    exact .none
  | flex type data =>
    rw [hstorage] at htype hwell hnulls
    have htype' : type = a.type := htype
    have hne : a.type ≠ .id := htype' ▸ hwell
    dsimp only
    cases hkind : c.nullStorage with
    | nonNull =>
      rw [hkind] at hnulls
      obtain ⟨hnull, hcells⟩ := hnulls
      rw [if_neg (by simp [hne, hnull]), if_pos hnull]
      cases value with
      | none => exact .none
      | some v =>
        refine .some ⟨htype, hwell, hnull, ?_⟩
        show (data.set row v).map some = _
        rw [List.map_set]
        exact congrArg (List.set · row (some v)) hcells
    | denseNull bv =>
      rw [hkind] at hnulls
      obtain ⟨hnull, hcells⟩ := hnulls
      rw [if_neg (by simp [hne, hnull]), if_neg (by simp [hnull]), ← htype']
      exact .some ⟨rfl, hwell, hnull, hcells.set hrow value⟩
    | sparseNull nulls =>
      rw [hkind] at hnulls
      rw [if_pos (.inr hnulls.1)]
      exact .none
    | sparseNullWithPopcountAlways nulls | sparseNullWithPopcountUntilFinalization nulls =>
      rw [hkind] at hnulls
      obtain ⟨hnull, hcells, hcounts⟩ := hnulls
      rw [if_neg (by simp [hne, hnull]), if_neg (by simp [hnull]), ← htype']
      exact .some ⟨rfl, hwell, hnull, hcells.set hcounts hrows hrow value⟩

/-! ### Clearing -/

theorem Denotes.clear (h : Denotes c a) : Denotes c.clear a.clear := by
  have hnulls := h.nulls
  have hwell : c.storage.clear.WellTyped := by
    have hw := h.wellTyped
    cases hstorage : c.storage with
    | id size => trivial
    | flex type data =>
      rw [hstorage] at hw
      exact hw
  have hvalues := c.storage.clear_values
  refine ⟨c.storage.clear_type.trans h.type, hwell, ?_⟩
  have hsize : c.storage.clear.size = 0 := by rw [← Storage.length_values, hvalues]; rfl
  unfold Column.clear ValueColumn.clear
  cases hkind : c.nullStorage with
  | nonNull =>
    rw [hkind] at hnulls
    exact ⟨hnulls.1, congrArg (List.map some) hvalues⟩
  | denseNull bv =>
    rw [hkind] at hnulls
    exact ⟨hnulls.1, rfl, hsize, fun r v hr => absurd hr (by simp)⟩
  | sparseNull nulls =>
    rw [hkind] at hnulls
    exact ⟨hnulls.1, rfl, hvalues⟩
  | sparseNullWithPopcountAlways nulls | sparseNullWithPopcountUntilFinalization nulls =>
    rw [hkind] at hnulls
    exact ⟨hnulls.1, ⟨rfl, hvalues⟩, rfl⟩

/-! ### Reading -/

theorem getSparse_eq {storage : Storage} {nulls : SparseNull} {cells : List (Option Value)}
    (h : SparseHolds storage nulls cells) (hcounts : PrefixHolds nulls) (hrows : cells.length < 2 ^ 32)
    {t : Option Value} (ht : cells[row]? = some t) : Column.getSparse storage nulls row = some t := by
  have hrow : row < nulls.bitVector.size := h.size ▸ (List.getElem?_eq_some_iff.mp ht).1
  unfold Column.getSparse
  rw [h.isSet ht]
  cases t with
  | none => rfl
  | some v =>
    have hvalues := h.values
    rw [split_at ht, List.reduceOption_append, List.reduceOption_cons_of_some] at hvalues
    have hstored : storage.values[(cells.take row).reduceOption.length]? = some v := by
      rw [hvalues, List.getElem?_append_right (Nat.le_refl _), Nat.sub_self]
      rfl
    rw [if_pos Option.isSome_some, hcounts.storageIdx hrow ((h.size ▸ hrow).trans hrows), h.rank,
      storage.getUnchecked_of_values hstored]
    rfl

/-- What is read is what the cell holds. -/
theorem Denotes.getCell (h : Denotes c a) (hrows : a.cells.length < 2 ^ 32) (hsupported : a.nullability ≠ .sparseNull)
    {t : Option Value} (ht : a.cells[row]? = some t) : c.getCell row = some t := by
  have hnulls := h.nulls
  unfold Column.getCell
  cases hkind : c.nullStorage with
  | nonNull =>
    rw [hkind] at hnulls
    rw [← hnulls.2, List.getElem?_map] at ht
    obtain ⟨v, hv, rfl⟩ := Option.map_eq_some_iff.mp ht
    exact congrArg (Option.map some) (c.storage.getUnchecked_of_values hv)
  | denseNull bv =>
    rw [hkind] at hnulls
    obtain ⟨-, hcells⟩ := hnulls
    have hbit : bv.isSet row = t.isSome := by
      rw [BitVector.isSet, hcells.bits, List.getD_eq_getElem?_getD, List.getElem?_map, ht]
      rfl
    dsimp only
    rw [hbit]
    cases t with
    | none => rfl
    | some v =>
      rw [if_pos Option.isSome_some, c.storage.getUnchecked_of_values (hcells.values row v ht)]
      rfl
  | sparseNull nulls =>
    rw [hkind] at hnulls
    exact absurd hnulls.1 hsupported
  | sparseNullWithPopcountAlways nulls | sparseNullWithPopcountUntilFinalization nulls =>
    rw [hkind] at hnulls
    exact getSparse_eq hnulls.2.1 hnulls.2.2 hrows ht

/-- The counts of a sparse column. -/
theorem Denotes.sparse (h : Denotes c a) {nulls : SparseNull} (hnulls : c.nullStorage.sparse? = some nulls) :
    c.storage.size = nulls.bitVector.bits.count true ∧ (a.nullability ≠ .sparseNull →
      ∀ w, 64 * w < nulls.bitVector.size → nulls.prefixPopcountForCellGet[w]? = some (nulls.bitVector.rank (64 * w))) := by
  have hsize : ∀ {cells : List (Option Value)}, SparseHolds c.storage nulls cells →
      c.storage.size = nulls.bitVector.bits.count true := fun hcells => by
    rw [← Storage.length_values, hcells.values, hcells.bits, reduceOption_length]
  have hcounts : PrefixHolds nulls → ∀ w, 64 * w < nulls.bitVector.size →
      nulls.prefixPopcountForCellGet[w]? = some (nulls.bitVector.rank (64 * w)) := fun hcounts w hw => by
    rw [hcounts, List.getElem?_map, List.getElem?_range (by omega)]
    rfl
  have hholds := h.nulls
  unfold NullStorage.sparse? at hnulls
  cases hkind : c.nullStorage with
  | nonNull | denseNull bv => rw [hkind] at hnulls; cases hnulls
  | sparseNull nulls =>
    rw [hkind] at hnulls hholds
    cases hnulls
    exact ⟨hsize hholds.2, fun hne => absurd hholds.1 hne⟩
  | sparseNullWithPopcountAlways nulls | sparseNullWithPopcountUntilFinalization nulls =>
    rw [hkind] at hnulls hholds
    cases hnulls
    exact ⟨hsize hholds.2.1, fun _ => hcounts hholds.2.2⟩

/-! ### Runs -/

/-- The column holds cells for so many rows. -/
def DenotesRows (rows : ℕ) (c : Column) (a : ValueColumn) : Prop := Denotes c a ∧ a.cells.length = rows

theorem rel_of_rel {α β : Type} {r s : α → β → Prop} {x : Option α} {y : Option β} (h : Option.Rel r x y)
    (hs : ∀ a b, y = some b → r a b → s a b) : Option.Rel s x y := by
  cases h with
  | none => exact .none
  | some h => exact .some (hs _ _ rfl h)

theorem DenotesRows.insert {rows : ℕ} (h : DenotesRows rows c a) (hrows : rows + 1 < 2 ^ 32) (t : Option Value) :
    Option.Rel (DenotesRows (rows + 1)) (c.insertUnchecked t) (a.insert t) := by
  refine rel_of_rel (h.1.insert (h.2.symm ▸ hrows) t) fun c' a' ha' hdenotes => ⟨hdenotes, ?_⟩
  unfold ValueColumn.insert at ha'
  split_ifs at ha'
  · cases t with
    | none => cases ha'
    | some v =>
      cases ha'
      rw [List.length_append, h.2, List.length_singleton]
  · cases ha'
    rw [List.length_append, h.2, List.length_singleton]

theorem DenotesRows.set {rows : ℕ} (h : DenotesRows rows c a) (hrows : rows < 2 ^ 32) (hrow : row < rows)
    (value : Option Value) : Option.Rel (DenotesRows rows) (c.setCell row value) (a.set row value) := by
  refine rel_of_rel (h.1.set (h.2.symm ▸ hrows) (h.2.symm ▸ hrow) value) fun c' a' ha' hdenotes => ⟨hdenotes, ?_⟩
  unfold ValueColumn.set at ha'
  split_ifs at ha'
  · cases value with
    | none => cases ha'
    | some v =>
      cases ha'
      rw [List.length_set, h.2]
  · cases ha'
    rw [List.length_set, h.2]

/-- A row is inserted into every column, or into none. -/
theorem insertAll {rows : ℕ} {cs : List Column} {as : List ValueColumn} (h : List.Forall₂ (DenotesRows rows) cs as)
    (hrows : rows + 1 < 2 ^ 32) :
    ∀ ts : List (Option Value), Option.Rel (List.Forall₂ (DenotesRows (rows + 1)))
      ((cs.zip ts).mapM fun p => p.1.insertUnchecked p.2) ((as.zip ts).mapM fun p => p.1.insert p.2) := by
  induction h with
  | nil => exact fun ts => by rw [List.zip_nil_left, List.zip_nil_left]; exact .some .nil
  | @cons c a cs as hca _ ih =>
    intro ts
    cases ts with
    | nil => exact .some .nil
    | cons t ts =>
      have hhead := hca.insert hrows t
      have htail := ih ts
      rw [List.zip_cons_cons, List.zip_cons_cons, List.mapM_cons, List.mapM_cons]
      generalize c.insertUnchecked t = x, a.insert t = y at hhead
      generalize ((cs.zip ts).mapM fun p => p.1.insertUnchecked p.2) = xs,
        ((as.zip ts).mapM fun p => p.1.insert p.2) = ys at htail
      cases hhead with
      | none => exact .none
      | some hhead =>
        cases htail with
        | none => exact .none
        | some htail => exact .some (.cons hhead htail)

/-- The dataframe holds the table. -/
structure TableDenotes (df : MutableDataframe) (t : CellTable) : Prop where
  fits : t.rowCount < 2 ^ 32
  rowCount : df.rowCount = t.rowCount
  columns : List.Forall₂ (DenotesRows t.rowCount) df.columns t.columns

theorem tableDenotes_ofSpecs (specs : List ColumnSpec) :
    TableDenotes (MutableDataframe.ofSpecs specs) (CellTable.ofSpecs specs) := by
  refine ⟨Nat.two_pow_pos 32, rfl, ?_⟩
  unfold MutableDataframe.ofSpecs CellTable.ofSpecs
  rw [List.forall₂_map_left_iff, List.forall₂_map_right_iff, List.forall₂_same]
  rintro ⟨type, nullability, sortState, duplicateState⟩ -
  have hvalues : (Column.ofSpec ⟨type, nullability, sortState, duplicateState⟩).storage.values = [] := by
    cases type <;> rfl
  have hsize := (Storage.length_values _).symm.trans (congrArg List.length hvalues)
  refine ⟨⟨?_, ?_, ?_⟩, rfl⟩
  · cases type <;> rfl
  · cases type <;> simp [Column.ofSpec, Storage.WellTyped]
  · cases nullability with
    | nonNull => exact ⟨rfl, congrArg (List.map some) hvalues⟩
    | sparseNull => exact ⟨rfl, rfl, hvalues⟩
    | sparseNullWithPopcountAlways | sparseNullWithPopcountUntilFinalization => exact ⟨rfl, ⟨rfl, hvalues⟩, rfl⟩
    | denseNull => exact ⟨rfl, rfl, hsize, fun r v hr => absurd hr (by simp)⟩

theorem forall₂_getElem? {α β : Type} {r : α → β → Prop} {l : List α} {m : List β} (h : List.Forall₂ r l m) (i : ℕ) :
    Option.Rel r l[i]? m[i]? := by
  induction h generalizing i with
  | nil => exact .none
  | cons h _ ih =>
    cases i with
    | zero => exact .some h
    | succ i => exact ih i

theorem forall₂_set {α β : Type} {r : α → β → Prop} {l : List α} {m : List β} (h : List.Forall₂ r l m) {a : α} {b : β}
    (hab : r a b) (i : ℕ) : List.Forall₂ r (l.set i a) (m.set i b) := by
  induction h generalizing i with
  | nil => exact .nil
  | cons h hrest ih =>
    cases i with
    | zero => exact .cons hab hrest
    | succ i => exact .cons h (ih i)

/-- A call does the same to both, or is refused by both. -/
theorem TableDenotes.step {df : MutableDataframe} {t : CellTable} (h : TableDenotes df t)
    {call : MutableDataframe.Call} (hfits : MutableDataframe.rowsAfter t.rowCount call < 2 ^ 32) :
    Option.Rel (fun df' t' => TableDenotes df' t' ∧ t'.rowCount = MutableDataframe.rowsAfter t.rowCount call)
      (df.step call) (t.step call) := by
  unfold MutableDataframe.step CellTable.step
  cases call with
  | insertUnchecked ts =>
    unfold MutableDataframe.insertUnchecked
    dsimp only
    rw [h.columns.length_eq]
    split_ifs
    · have hall := insertAll h.columns hfits ts
      generalize ((df.columns.zip ts).mapM fun p => p.1.insertUnchecked p.2) = xs,
        ((t.columns.zip ts).mapM fun p => p.1.insert p.2) = ys at hall
      cases hall with
      | none => exact .none
      | some hall =>
        refine .some ⟨⟨hfits, ?_, hall⟩, rfl⟩
        rw [h.rowCount]
        exact increment_eq hfits
    · exact .none
  | setCell row col value =>
    unfold MutableDataframe.setCell
    dsimp only
    rw [h.rowCount]
    by_cases hrow : row < t.rowCount
    · rw [if_pos hrow, if_pos hrow]
      have hcol := forall₂_getElem? h.columns col
      generalize df.columns[col]? = x, t.columns[col]? = y at hcol
      cases hcol with
      | none => exact .none
      | @some c a hcell =>
        have hset := hcell.set h.fits hrow value
        dsimp only [Option.bind_eq_bind, Option.bind_some]
        generalize c.setCell row value = x, a.set row value = y at hset
        cases hset with
        | none => exact .none
        | some hcell' => exact .some ⟨⟨h.fits, rfl, forall₂_set h.columns hcell' col⟩, rfl⟩
    · rw [if_neg hrow, if_neg hrow]
      exact .none
  | clear =>
    refine .some ⟨⟨Nat.two_pow_pos 32, rfl, ?_⟩, rfl⟩
    unfold MutableDataframe.clear
    rw [List.forall₂_map_left_iff, List.forall₂_map_right_iff]
    exact h.columns.imp fun _ _ hca => ⟨hca.1.clear, rfl⟩

theorem TableDenotes.run {calls : List MutableDataframe.Call} : ∀ {df : MutableDataframe} {t : CellTable},
    TableDenotes df t → MutableDataframe.RowsFit t.rowCount calls →
    Option.Rel TableDenotes (calls.foldlM MutableDataframe.step df) (calls.foldlM CellTable.step t) := by
  induction calls with
  | nil => exact fun h _ => .some h
  | cons call calls ih =>
    intro df t h hfits
    have hstep := h.step hfits.1
    rw [List.foldlM_cons, List.foldlM_cons]
    generalize df.step call = x, t.step call = y at hstep
    cases hstep with
    | none => exact .none
    | some hnext => exact ih hnext.1 (hnext.2 ▸ hfits.2)

/-- A dataframe whose cells are the table's, and whose sparse columns have their counts right. -/
structure IsTable (df : MutableDataframe) (t : CellTable) : Prop where
  rowCount : df.rowCount = t.rowCount
  columns : df.columns.length = t.columns.length
  cells : ∀ (col : ℕ) (c : Column) (a : ValueColumn), df.columns[col]? = some c → t.columns[col]? = some a →
    a.cells.length = t.rowCount ∧
    (a.nullability ≠ .sparseNull → ∀ row < df.rowCount, df.getCell row col = a.cells[row]?) ∧
    ∀ nulls, c.nullStorage.sparse? = some nulls →
      c.storage.size = nulls.bitVector.bits.count true ∧ (a.nullability ≠ .sparseNull →
        ∀ w, 64 * w < nulls.bitVector.size →
          nulls.prefixPopcountForCellGet[w]? = some (nulls.bitVector.rank (64 * w)))

/-- **A mutable dataframe is a table of optional values.**  Any sequence of calls with fewer than 2^32 rows at a time is
refused by both or leaves a dataframe that is the table. -/
theorem mutableDataframe_is_table (specs : List ColumnSpec) {calls : List MutableDataframe.Call}
    (hfits : MutableDataframe.RowsFit 0 calls) : Option.Rel IsTable
      (calls.foldlM MutableDataframe.step (.ofSpecs specs)) (calls.foldlM CellTable.step (.ofSpecs specs)) := by
  refine rel_of_rel ((tableDenotes_ofSpecs specs).run hfits) fun df t _ h => ⟨h.rowCount, h.columns.length_eq, ?_⟩
  intro col c a hc ha
  have hrel := forall₂_getElem? h.columns col
  rw [hc, ha] at hrel
  cases hrel with
  | some hca =>
    refine ⟨hca.2, fun hsupported row hrow => ?_, fun nulls hnulls => hca.1.sparse hnulls⟩
    have hin : row < a.cells.length := by rw [hca.2, ← h.rowCount]; exact hrow
    rw [MutableDataframe.getCell, if_pos hrow, hc, Option.bind_some, List.getElem?_eq_getElem hin]
    exact hca.1.getCell (hca.2.symm ▸ h.fits) hsupported (List.getElem?_eq_getElem hin)

/-- A value is set to null, another null to a value, and all is cleared before the last row. -/
theorem mutableDataframe_is_table_cleared : Option.Rel IsTable
    ([.insertUnchecked [some (.int 5)], .insertUnchecked [none], .setCell 0 0 none, .setCell 1 0 (some (.int 7)), .clear,
      .insertUnchecked [some (.int 9)]].foldlM MutableDataframe.step
      (.ofSpecs [⟨.int64, .sparseNullWithPopcountAlways, .unsorted, .hasDuplicates⟩]))
    ([.insertUnchecked [some (.int 5)], .insertUnchecked [none], .setCell 0 0 none, .setCell 1 0 (some (.int 7)), .clear,
      .insertUnchecked [some (.int 9)]].foldlM CellTable.step
      (.ofSpecs [⟨.int64, .sparseNullWithPopcountAlways, .unsorted, .hasDuplicates⟩])) :=
  mutableDataframe_is_table _ ⟨by decide, by decide, by decide, by decide, by decide, by decide, trivial⟩

/-- The size of a sparse `Id` column wraps, its bits do not. -/
theorem insertUnchecked_ids (n : ℕ) : ∃ c mutations,
    (List.replicate n (.insertUnchecked [some (.int 0)])).foldlM MutableDataframe.step
      (.ofSpecs [⟨.id, .sparseNull, .unsorted, .noDuplicates⟩]) = some ⟨[c], n % 2 ^ 32, mutations⟩ ∧
    c.storage = .id (n % 2 ^ 32) ∧ c.nullStorage = .sparseNull ⟨⟨List.replicate n true⟩, []⟩ := by
  induction n with
  | zero => exact ⟨_, _, rfl, rfl, rfl⟩
  | succ n ih =>
    obtain ⟨c, mutations, hrun, hstorage, hnulls⟩ := ih
    have hmod : increment (n % 2 ^ 32) = (n + 1) % 2 ^ 32 := Nat.mod_add_mod n (2 ^ 32) 1
    set c' : Column := { c with
      storage := .id ((n + 1) % 2 ^ 32)
      nullStorage := .sparseNull ⟨⟨List.replicate (n + 1) true⟩, []⟩ }
    have hinsert : c.insertUnchecked (some (.int 0)) = some c' := by
      have hhas : hasValue .id (some (.int 0)) = true := rfl
      rw [Column.insertUnchecked, hnulls, hstorage]
      simp only [Storage.insertNullable, Storage.type, hhas, if_true, Storage.pushBack, hmod, SparseNull.pushBack,
        BitVector.pushBack, ← List.replicate_succ']
      rfl
    have hall : ([c].zip [some (.int 0)]).mapM (fun p => p.1.insertUnchecked p.2) = some [c'] := by
      rw [List.zip_cons_cons, List.zip_nil_left, List.mapM_cons, hinsert]
      rfl
    have hstep : MutableDataframe.step ⟨[c], n % 2 ^ 32, mutations⟩ (.insertUnchecked [some (.int 0)]) =
        some ⟨[c'], (n + 1) % 2 ^ 32, increment mutations⟩ := by
      simp only [MutableDataframe.step, MutableDataframe.insertUnchecked, List.length_singleton, if_true, hall, hmod]
      rfl
    refine ⟨c', increment mutations, ?_, rfl, rfl⟩
    rw [List.replicate_succ', List.foldlM_append, hrun, Option.bind_eq_bind, Option.bind_some, List.foldlM_cons, hstep]
    rfl

/-- With 2^32 rows a column counts no elements. -/
theorem not_table_manyRows : ¬∀ (specs : List ColumnSpec) (calls : List MutableDataframe.Call), Option.Rel IsTable
    (calls.foldlM MutableDataframe.step (.ofSpecs specs)) (calls.foldlM CellTable.step (.ofSpecs specs)) := by
  intro hall
  have hrel := hall [⟨.id, .sparseNull, .unsorted, .noDuplicates⟩]
    (List.replicate (2 ^ 32) (.insertUnchecked [some (.int 0)]))
  obtain ⟨c, mutations, hrun, hstorage, hnulls⟩ := insertUnchecked_ids (2 ^ 32)
  rw [hrun] at hrel
  generalize (List.replicate (2 ^ 32) (MutableDataframe.Call.insertUnchecked [some (.int 0)])).foldlM CellTable.step
    (.ofSpecs [⟨.id, .sparseNull, .unsorted, .noDuplicates⟩]) = y at hrel
  cases hrel with
  | @some _ t h =>
    obtain ⟨a, ha⟩ : ∃ a, t.columns[0]? = some a :=
      ⟨_, List.getElem?_eq_getElem (h.columns ▸ Nat.zero_lt_one)⟩
    have hsize := (h.cells 0 c a rfl ha).2.2 _ (congrArg NullStorage.sparse? hnulls)
    rw [hstorage] at hsize
    have hcount := hsize.1
    rw [List.count_replicate_self] at hcount
    exact absurd hcount (by decide)

end LynxTrace.TraceProcessor.Core
