import LynxTrace.Core.AdhocPushes
import LynxTrace.Core.AdhocSummary
import LynxTrace.Core.SortedRows

/-!
# Core.AdhocCells — the dataframe that the builder makes holds what was pushed
-/

namespace LynxTrace.TraceProcessor.Core

/-! ### Metadata -/

/-- Ascending order. -/
def Value.AtMost (pool : StringPool) : Value → Value → Prop
  | .int x, .int y => x ≤ y
  | .double x, .double y => x.le y = true
  | .string x, .string y => pool.le x y = true
  | _, _ => False

/-- What the column records of its elements is true. -/
structure Column.MetadataTrue (pool : StringPool) (c : Column) : Prop where
  typed : ∀ x ∈ c.storage.values, x.HasType c.storage.type
  sorted : c.sortState ≠ .unsorted → c.nullStorage = .nonNull ∧ c.storage.values.Pairwise (Value.AtMost pool)
  idSorted : c.sortState = .idSorted → ∃ n, c.storage = .id n
  setIdSorted : c.sortState = .setIdSorted → ∃ data, c.storage = .flex .uint32 data ∧ SetIds data
  distinct : c.duplicateState = .noDuplicates → c.nullStorage = .nonNull ∧ c.storage.values.Nodup
  smallValueEq : ∀ s, c.specializedStorage = some s →
    c.sortState = .sorted ∧ ∃ data, c.storage = .flex .uint32 data ∧ s.For data

/-! ### Order -/

theorem isSortedBy_pairwise {α : Type} {le : α → α → Bool} (htrans : ∀ x y z, le x y = true → le y z = true → le x z = true)
    {data : List α} (h : isSortedBy le data = true) : data.Pairwise fun x y => le x y = true := by
  have hchain : data.IsChain fun x y => le x y = true := by
    induction data with
    | nil => exact .nil
    | cons x data ih =>
      cases data with
      | nil => exact .singleton x
      | cons y data =>
        obtain ⟨hle, hrest⟩ := (Bool.and_eq_true ..).mp h
        exact .cons_cons hle (ih hrest)
  have : IsTrans α fun x y => le x y = true := ⟨htrans⟩
  exact hchain.pairwise

theorem double_le_trans {x y z : Double} (hxy : x.le y = true) (hyz : y.le z = true) : x.le z = true := by
  simp only [Double.le, Bool.and_eq_true, Bool.not_eq_true', decide_eq_true_eq] at *
  exact ⟨⟨hxy.1.1, hyz.1.2⟩, Int.le_trans hxy.2 hyz.2⟩

theorem pool_le_trans {pool : StringPool} {x y z : StringId} (hxy : pool.le x y = true) (hyz : pool.le y z = true) :
    pool.le x z = true := by
  simp only [StringPool.le, CmpOp.bytes, decide_eq_true_eq] at *
  exact fun hlt => hxy (List.lt_of_le_of_lt hyz hlt)

/-! ### The index of small values -/

/-- The loop sets the bits of the elements, if all are in bounds. -/
theorem setBits_spec (data : List ℕ) (bv : BitVector) (hin : ∀ i ∈ data, i < bv.size) :
    ∃ bv', data.foldlM (fun bv i => if i < bv.size then some (bv.change i true) else none) bv = some bv' ∧
      ∀ i, bv'.isSet i = true ↔ i ∈ data ∨ bv.isSet i = true := by
  induction data generalizing bv with
  | nil => exact ⟨bv, rfl, fun i => by simp⟩
  | cons x data ih =>
    obtain ⟨hx, hrest⟩ := List.forall_mem_cons.mp hin
    obtain ⟨bv', hrun, hset⟩ := ih (bv.change x true) fun i hi => by
      rw [BitVector.size_change]
      exact hrest i hi
    refine ⟨bv', ?_, fun i => ?_⟩
    · rw [List.foldlM_cons, if_pos hx]
      exact hrun
    · rw [hset, BitVector.isSet_change_true _ hx, List.mem_cons]
      tauto

theorem isSet_createWithSize_false (size i : ℕ) : (BitVector.createWithSize size false).isSet i = false := by
  rw [BitVector.isSet, BitVector.createWithSize, List.getD_eq_getElem?_getD, List.getElem?_replicate]
  split_ifs <;> rfl

/-- The bits of ascending elements, up to the last one; there are none when the size wraps around. -/
theorem buildSmallValueEq_spec {data : List ℕ} {last : ℕ} (hlast : data.getLast? = some last)
    (hle : ∀ i ∈ data, i ≤ last) :
    (last + 1 = 2 ^ 32 → buildSmallValueEq data = none) ∧
      (last + 1 < 2 ^ 32 → ∃ s, buildSmallValueEq data = some s ∧ (∀ i, s.bitVector.isSet i = true ↔ i ∈ data) ∧
        s.prefixPopcount = s.bitVector.prefixPopcount) := by
  unfold buildSmallValueEq
  rw [hlast]
  constructor
  · intro hwrap
    cases data with
    | nil => cases hlast
    | cons x data =>
      have hout : ¬ x < (BitVector.createWithSize ((last + 1) % 2 ^ 32) false).size := by
        rw [hwrap]
        exact Nat.not_lt_zero x
      rw [Option.map_some, Option.getD_some, List.foldlM_cons, if_neg hout]
      rfl
  · intro hsmall
    rw [Option.map_some, Option.getD_some, Nat.mod_eq_of_lt hsmall]
    obtain ⟨bv, hrun, hset⟩ := setBits_spec data (.createWithSize (last + 1) false) fun i hi => by
      rw [BitVector.size, BitVector.createWithSize, List.length_replicate]
      exact Nat.lt_succ_of_le (hle i hi)
    refine ⟨⟨bv, bv.prefixPopcount⟩, by rw [hrun]; rfl, fun i => ?_, rfl⟩
    rw [hset, isSet_createWithSize_false]
    simp

/-! ### Columns of integers -/

/-- The index of small values is built for the elements, and the position behind the last one wraps around to 0. -/
structure BackWraps (data : List ℤ) : Prop where
  ascending : data.Pairwise (· < ·)
  nonneg : ∀ x ∈ data, 0 ≤ x
  last : data.getLast? = some (2 ^ 32 - 1)
  small : 2 ^ 32 - 1 < 16 * data.length

section Integers

variable {data : List ℤ} {isNullable : Bool} {s : IntegerColumnSummary}

/-- A column of ids. -/
theorem Summarizes.ids_eq (h : Summarizes data.length isNullable data s) (hids : s.isIdSorted = true) :
    (List.range data.length).map (fun i : ℕ => Value.int i) = data.map .int := by
  refine List.ext_getElem? fun i => ?_
  rw [List.getElem?_map, List.getElem?_map]
  cases hi : data[i]? with
  | none => rw [List.getElem?_eq_none (by rw [List.length_range]; exact List.getElem?_eq_none_iff.mp hi), Option.map_none,
      Option.map_none]
  | some x =>
    rw [List.getElem?_range (List.getElem?_eq_some_iff.mp hi).1, h.ids.mp hids i x hi]
    rfl

/-- The casts of elements in range. -/
theorem downcastFromInt64_eq {t : StorageType} (cast : ℤ → ℤ) (h : Summarizes data.length isNullable data s)
    (hrange : isRangeFullyRepresentableByType t s.min s.max = true) (hcast : ∀ z, t.minValue ≤ z → z ≤ t.maxValue → cast z = z) :
    downcastFromInt64 cast data = data.map .int ∧ ∀ x ∈ data, t.minValue ≤ x ∧ x ≤ t.maxValue := by
  obtain ⟨hmin, hmax⟩ := of_decide_eq_true hrange
  have hall : ∀ x ∈ data, t.minValue ≤ x ∧ x ≤ t.maxValue := fun x hx =>
    ⟨hmin.trans (h.bounds x hx).1, (h.bounds x hx).2.trans hmax⟩
  exact ⟨List.map_congr_left fun x hx => congrArg Value.int (hcast x (hall x hx).1 (hall x hx).2), hall⟩

/-- The types of integers. -/
def StorageType.IsInteger (t : StorageType) : Prop := t ≠ .double ∧ t ≠ .string

/-- **The narrowed storage** has the elements. -/
theorem createIntegerStorage_spec (h : Summarizes data.length isNullable data s) (hsize : data.length < 2 ^ 32)
    (hrange : ∀ x ∈ data, -2 ^ 63 ≤ x ∧ x ≤ 2 ^ 63 - 1) :
    (createIntegerStorage data s).values = data.map .int ∧ (createIntegerStorage data s).WellTyped ∧
      (createIntegerStorage data s).type.IsInteger ∧
      ∀ x ∈ data, (createIntegerStorage data s).type.minValue ≤ x ∧ x ≤ (createIntegerStorage data s).type.maxValue := by
  unfold createIntegerStorage
  split_ifs with hids huint32 hint32
  · rw [Nat.mod_eq_of_lt hsize]
    have hids' := ((Bool.and_eq_true ..).mp hids).1
    refine ⟨h.ids_eq hids', trivial, ⟨by simp [Storage.type], by simp [Storage.type]⟩, fun x hx => ?_⟩
    obtain ⟨i, hi⟩ := List.getElem?_of_mem hx
    have hlt := (List.getElem?_eq_some_iff.mp hi).1
    rw [h.ids.mp hids' i x hi]
    simp only [Storage.type, StorageType.minValue, StorageType.maxValue]
    omega
  · obtain ⟨hvalues, hall⟩ := downcastFromInt64_eq (· % 2 ^ 32) h huint32 fun z hmin hmax =>
      Int.emod_eq_of_lt hmin (by simp only [StorageType.maxValue] at hmax; omega)
    exact ⟨hvalues, by simp [Storage.WellTyped], ⟨by simp [Storage.type], by simp [Storage.type]⟩, hall⟩
  · obtain ⟨hvalues, hall⟩ := downcastFromInt64_eq (Int.bmod · (2 ^ 32)) h hint32 fun z hmin hmax => by
      simp only [StorageType.minValue, StorageType.maxValue] at hmin hmax
      exact Int.bmod_eq_of_le (by omega) (by omega)
    exact ⟨hvalues, by simp [Storage.WellTyped], ⟨by simp [Storage.type], by simp [Storage.type]⟩, hall⟩
  · exact ⟨rfl, by simp [Storage.WellTyped], ⟨by simp [Storage.type], by simp [Storage.type]⟩, hrange⟩

/-- In ascending order the last one is the largest. -/
theorem Summarizes.last_eq_max (h : Summarizes data.length isNullable data s) (hsorted : s.isSorted = true) (hne : data ≠ []) :
    data.getLast? = some s.max := by
  have hpairwise := h.sorted.mp hsorted
  obtain ⟨init, last, rfl⟩ := List.eq_nil_or_concat' data |>.resolve_left hne
  rw [List.getLast?_concat]
  have hle := (h.bounds last (by simp)).2
  rcases List.mem_append.mp (h.attained hne).2 with hmem | hmem
  · have := (List.pairwise_append.mp hpairwise).2.2 _ hmem _ (List.mem_singleton_self _)
    exact congrArg some (Int.le_antisymm hle this)
  · rw [List.mem_singleton.mp hmem]

/-- Fresh elements in ascending order. -/
theorem Fresh.pairwise_lt (hfresh : Fresh data.length data) (hsorted : data.Pairwise (· ≤ ·)) : data.Pairwise (· < ·) := by
  have hnodup : data.Nodup := hfresh.distinct.of_map _
  exact (hsorted.and hnodup).imp fun hxy => lt_of_le_of_ne hxy.1 hxy.2

theorem BackWraps.le (h : BackWraps data) {x : ℤ} (hx : x ∈ data) : x ≤ 2 ^ 32 - 1 := by
  obtain ⟨init, hinit⟩ := List.getLast?_eq_some_iff.mp h.last
  have hascending := h.ascending
  rw [hinit] at hx hascending
  rcases List.mem_append.mp hx with hx | hx
  · exact ((List.pairwise_append.mp hascending).2.2 x hx _ (List.mem_singleton_self _)).le
  · exact (List.mem_singleton.mp hx).le

theorem BackWraps.fresh (h : BackWraps data) : Fresh data.length data where
  bounds x hx := ⟨h.nonneg x hx, by have := h.le hx; have := h.small; omega⟩
  distinct := by
    have hsame : data.map (· % 2 ^ 32) = data := (List.map_congr_left fun x hx =>
      Int.emod_eq_of_lt (h.nonneg x hx) (by have := h.le hx; omega)).trans (List.map_id data)
    rw [hsame]
    exact h.ascending.imp ne_of_lt

/-- What the summary says of a column whose index of small values would wrap around. -/
theorem BackWraps.summary (hb : BackWraps data) (h : Summarizes data.length isNullable data s)
    (hsize : data.length < 2 ^ 32) :
    (s.isIdSorted || s.isSetidSorted) = false ∧ s.isSorted = true ∧ s.hasDuplicates = false ∧
      isRangeFullyRepresentableByType .uint32 s.min s.max = true ∧ s.max = 2 ^ 32 - 1 := by
  have hne : data ≠ [] := fun hnil => by simp [hnil] at hb; exact absurd hb.last (by simp)
  have hsorted : s.isSorted = true := h.sorted.mpr (hb.ascending.imp le_of_lt)
  have hmax : s.max = 2 ^ 32 - 1 := by
    have hlast := h.last_eq_max hsorted hne
    rw [hb.last] at hlast
    exact (Option.some.inj hlast).symm
  have hlast := hb.last
  rw [List.getLast?_eq_getElem?] at hlast
  have hids : s.isIdSorted = false := Bool.eq_false_iff.mpr fun hids => by
    have := h.ids.mp hids _ _ hlast
    omega
  have hsetids : s.isSetidSorted = false := Bool.eq_false_iff.mpr fun hset => by
    have := (h.setIds hset _ _ hlast).2.1
    omega
  have hdup : s.hasDuplicates = false := Bool.eq_false_iff.mpr fun hdup => h.duplicates.mp hdup hb.fresh
  have hmin := hb.nonneg _ (h.attained hne).1
  refine ⟨by rw [hids, hsetids]; rfl, hsorted, hdup, decide_eq_true ⟨hmin, hmax.le⟩, hmax⟩

/-- **The index of small values.**  It cannot be built when the position behind the last element wraps around; where it
is built, it is one of a column of numbers in ascending order. -/
theorem getSpecializedStorage_spec (h : Summarizes data.length isNullable data s) (hsize : data.length < 2 ^ 32) :
    (getSpecializedStorage (createIntegerStorage data s) s = none ↔ isNullable = false ∧ BackWraps data) ∧
      ∀ small, getSpecializedStorage (createIntegerStorage data s) s = some (some small) →
        getIntegerSortStateFromProperties s = .sorted ∧
          ∃ vec, createIntegerStorage data s = .flex .uint32 vec ∧ small.For vec := by
  unfold getSpecializedStorage
  by_cases hflags : (s.isIdSorted || s.isSetidSorted) = true
  · rw [if_pos hflags]
    refine ⟨⟨(fun hnone => by cases hnone), fun hb => ?_⟩, fun small hsmall => by cases hsmall⟩
    rw [(hb.2.summary h hsize).1] at hflags
    cases hflags
  rw [if_neg hflags]
  obtain ⟨hids, hsetids⟩ := Bool.or_eq_false_iff.mp (Bool.eq_false_iff.mpr hflags)
  by_cases hrange : isRangeFullyRepresentableByType .uint32 s.min s.max = true
  · obtain ⟨hvalues, hall⟩ := downcastFromInt64_eq (· % 2 ^ 32) h hrange fun z hmin hmax =>
      Int.emod_eq_of_lt hmin (by simp only [StorageType.maxValue] at hmax; omega)
    have hstorage : createIntegerStorage data s = .flex .uint32 (data.map .int) := by
      rw [createIntegerStorage, hids, Bool.false_and, if_neg Bool.false_ne_true, if_pos hrange, hvalues]
    rw [hstorage]
    dsimp only
    by_cases hcond : (s.isSorted && !s.isNullable && !s.hasDuplicates &&
        s.max % 2 ^ 32 < 16 * ((data.map Value.int).length : ℤ)) = true
    · rw [if_pos hcond]
      simp only [Bool.and_eq_true, Bool.not_eq_true', decide_eq_true_eq, List.length_map] at hcond
      obtain ⟨⟨⟨hsorted, hnonnull⟩, hdup⟩, hratio⟩ := hcond
      have hne : data ≠ [] := fun hnil => by
        rw [hnil] at hratio
        have := Int.emod_nonneg s.max (show (2 : ℤ) ^ 32 ≠ 0 by decide)
        simp at hratio
        omega
      have hmaxmem := (h.attained hne).2
      obtain ⟨hmaxnonneg, hmaxle⟩ := hall _ hmaxmem
      simp only [StorageType.minValue, StorageType.maxValue] at hall hmaxnonneg hmaxle
      have hfresh := fresh_of_not h hdup
      have hascending := hfresh.pairwise_lt (h.sorted.mp hsorted)
      have hlast := h.last_eq_max hsorted hne
      have hnats : (data.map Value.int).map Value.toUint32 = data.map Int.toNat := by
        rw [List.map_map]
        rfl
      have hlastnat : (data.map Int.toNat).getLast? = some s.max.toNat := by rw [List.getLast?_map, hlast]; rfl
      obtain ⟨hwraps, hbuilt⟩ := buildSmallValueEq_spec hlastnat fun i hi => by
        obtain ⟨x, hx, rfl⟩ := List.mem_map.mp hi
        have := (h.bounds x hx).2
        omega
      rw [hnats]
      rw [Int.emod_eq_of_lt hmaxnonneg (by omega)] at hratio
      have hiff : isNullable = false ∧ BackWraps data ↔ s.max = 2 ^ 32 - 1 := by
        refine ⟨fun hb => (hb.2.summary h hsize).2.2.2.2, fun hmax => ⟨h.isNullable ▸ hnonnull, hascending, fun x hx =>
          (hall x hx).1, hmax ▸ hlast, by omega⟩⟩
      rw [hiff]
      by_cases hmax : s.max = 2 ^ 32 - 1
      · rw [hwraps (by omega)]
        exact ⟨iff_of_true rfl hmax, fun small hsmall => by cases hsmall⟩
      · obtain ⟨small, hsmall, hset, hcounts⟩ := hbuilt (by omega)
        rw [hsmall]
        refine ⟨iff_of_false (Option.some_ne_none _) hmax, fun small' hsmall' => ?_⟩
        cases hsmall'
        refine ⟨?_, _, rfl, ⟨fun n => ?_, hcounts, ?_⟩⟩
        · simp [getIntegerSortStateFromProperties, hnonnull, hids, hsetids, hsorted]
        · rw [hset, List.mem_map, List.mem_map]
          constructor
          · rintro ⟨x, hx, rfl⟩
            exact ⟨x, hx, by rw [Int.toNat_of_nonneg (hall x hx).1]⟩
          · rintro ⟨x, hx, heq⟩
            exact ⟨x, hx, by rw [Value.int.inj heq, Int.toNat_natCast]⟩
        · exact (hascending.imp ne_of_lt).map Value.int fun x y hne heq => hne (Value.int.inj heq)
    · rw [if_neg hcond]
      refine ⟨⟨(fun hnone => by cases hnone), fun hb => ?_⟩, fun small hsmall => by cases hsmall⟩
      obtain ⟨-, hsorted, hdup, -, hmax⟩ := hb.2.summary h hsize
      have hratio := hb.2.small
      refine absurd ?_ hcond
      rw [hsorted, hdup, h.isNullable, hb.1, hmax, List.length_map]
      simp
      omega
  · -- another type: there is no index
    have hb : ¬ (isNullable = false ∧ BackWraps data) := fun hb => hrange (hb.2.summary h hsize).2.2.2.1
    rw [createIntegerStorage, hids, Bool.false_and, if_neg Bool.false_ne_true, if_neg hrange]
    split_ifs
    · exact ⟨iff_of_false not_false hb, fun small hsmall => by cases hsmall⟩
    · exact ⟨iff_of_false not_false hb, fun small hsmall => by cases hsmall⟩

/-- What the sort state says. -/
theorem sortState_spec (h : Summarizes data.length isNullable data s) :
    (getIntegerSortStateFromProperties s ≠ .unsorted → isNullable = false ∧ data.Pairwise (· ≤ ·)) ∧
      (getIntegerSortStateFromProperties s = .idSorted → isNullable = false ∧ s.isIdSorted = true) ∧
      (getIntegerSortStateFromProperties s = .setIdSorted → s.isIdSorted = false ∧ s.isSetidSorted = true) := by
  unfold getIntegerSortStateFromProperties
  have hsorted := h.sorted.mp
  split_ifs with hnull hids hset hsort
  · exact ⟨fun hne => absurd rfl hne, (nomatch ·), (nomatch ·)⟩
  · have hfull := h.isNullable ▸ Bool.eq_false_of_not_eq_true hnull
    exact ⟨fun _ => ⟨hfull, hsorted (h.sorted_of_setIds (h.setIds_of_ids hids))⟩, fun _ => ⟨hfull, hids⟩, (nomatch ·)⟩
  · have hfull := h.isNullable ▸ Bool.eq_false_of_not_eq_true hnull
    exact ⟨fun _ => ⟨hfull, hsorted (h.sorted_of_setIds hset)⟩, (nomatch ·), fun _ => ⟨Bool.eq_false_of_not_eq_true hids, hset⟩⟩
  · have hfull := h.isNullable ▸ Bool.eq_false_of_not_eq_true hnull
    exact ⟨fun _ => ⟨hfull, hsorted hsort⟩, (nomatch ·), (nomatch ·)⟩
  · exact ⟨fun hne => absurd rfl hne, (nomatch ·), (nomatch ·)⟩

/-- Set ids are `uint32_t`. -/
theorem Summarizes.setIds_storage (h : Summarizes data.length isNullable data s) (hsize : data.length < 2 ^ 32)
    (hids : s.isIdSorted = false) (hset : s.isSetidSorted = true) :
    createIntegerStorage data s = .flex .uint32 (data.map .int) ∧ SetIds (data.map .int) := by
  have hne : data ≠ [] := fun hnil => by
    have := h.ids.mpr fun i x hx => by rw [hnil] at hx; cases hx
    rw [hids] at this
    cases this
  have hin : ∀ x ∈ data, 0 ≤ x ∧ x < data.length := fun x hx => by
    obtain ⟨i, hi⟩ := List.getElem?_of_mem hx
    have hlt := (List.getElem?_eq_some_iff.mp hi).1
    have := h.setIds hset i x hi
    omega
  obtain ⟨hmin, hmax⟩ := h.attained hne
  have hrange : isRangeFullyRepresentableByType .uint32 s.min s.max = true := by
    have hlt := (hin _ hmax).2
    refine decide_eq_true ⟨(hin _ hmin).1, ?_⟩
    simp only [StorageType.maxValue]
    omega
  obtain ⟨hvalues, -⟩ := downcastFromInt64_eq (· % 2 ^ 32) h hrange fun z hmin hmax =>
    Int.emod_eq_of_lt hmin (by simp only [StorageType.maxValue] at hmax; omega)
  refine ⟨by rw [createIntegerStorage, hids, Bool.false_and, if_neg Bool.false_ne_true, if_pos hrange, hvalues], ?_⟩
  intro i n hi
  obtain ⟨x, hx, heq⟩ := Option.map_eq_some_iff.mp (List.getElem?_map.symm.trans hi)
  obtain rfl := Value.int.inj heq
  obtain ⟨-, hle, hget⟩ := h.setIds hset i _ hx
  rw [Int.toNat_natCast] at hget
  exact ⟨by omega, by rw [List.getElem?_map, hget]; rfl⟩

/-- What is recorded of a column of integers is true. -/
theorem metadataTrue_integers (pool : StringPool) (h : Summarizes data.length isNullable data s) (hsize : data.length < 2 ^ 32)
    (hrange : ∀ x ∈ data, -2 ^ 63 ≤ x ∧ x ≤ 2 ^ 63 - 1) {specializedStorage : Option SmallValueEq}
    (hspecialized : getSpecializedStorage (createIntegerStorage data s) s = some specializedStorage)
    {nullStorage : NullStorage} (hnull : isNullable = false → nullStorage = .nonNull) :
    Column.MetadataTrue pool
      { storage := createIntegerStorage data s
        nullStorage
        sortState := getIntegerSortStateFromProperties s
        duplicateState := if s.isNullable || s.hasDuplicates then .hasDuplicates else .noDuplicates
        specializedStorage } := by
  obtain ⟨hvalues, -, hinteger, hall⟩ := createIntegerStorage_spec h hsize hrange
  obtain ⟨hsorted, hids, hset⟩ := sortState_spec h
  refine ⟨fun x hx => ?_, fun hstate => ?_, fun hstate => ?_, fun hstate => ?_, fun hstate => ?_, fun small hsmall => ?_⟩
  · obtain ⟨z, hz, rfl⟩ := List.mem_map.mp (hvalues ▸ hx)
    exact ⟨hinteger.1, hinteger.2, hall z hz⟩
  · obtain ⟨hfull, hpairwise⟩ := hsorted hstate
    exact ⟨hnull hfull, hvalues.symm ▸ hpairwise.map Value.int fun _ _ hle => hle⟩
  · obtain ⟨hfull, hids⟩ := hids hstate
    exact ⟨_, by dsimp only; rw [createIntegerStorage, hids, h.isNullable, hfull]; rfl⟩
  · obtain ⟨hids, hset⟩ := hset hstate
    exact ⟨_, h.setIds_storage hsize hids hset⟩
  · dsimp only at hstate
    split_ifs at hstate with hdup
    obtain ⟨hfull, hdup⟩ := Bool.or_eq_false_iff.mp (Bool.eq_false_of_not_eq_true hdup)
    have hnodup : data.Nodup := (fresh_of_not h hdup).distinct.of_map _
    exact ⟨hnull (h.isNullable ▸ hfull), hvalues.symm ▸ hnodup.map fun _ _ heq => Value.int.inj heq⟩
  · dsimp only at hsmall
    rw [hsmall] at hspecialized
    exact (getSpecializedStorage_spec h hsize).2 small hspecialized

end Integers

end LynxTrace.TraceProcessor.Core
