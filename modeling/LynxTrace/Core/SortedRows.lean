import LynxTrace.Core.SortedFilter
import Mathlib.Tactic.FinCases
import Mathlib.Tactic.SplitIfs

/-!
# Core.SortedRows — a constraint on a sorted column keeps exactly the rows that satisfy it

* `Column.Truthful` — what the metadata of a column says holds of its storage.
* `nonIdSortedFilter_has`, `idSortedFilter_has_iff`, `uint32SetIdSortedEq_has`, `specializedStorageSmallValueEq_has` —
  the rows that each path leaves.
* `trySortedConstraint_rows_iff` — when the chosen path leaves the rows of the range whose cell satisfies the comparison.
-/

namespace LynxTrace.TraceProcessor.Core

variable {pool : StringPool} {val : FilterVal} {t : StorageType}

/-- The row is in the range. -/
def Range.Has (r : Range) (i : ℕ) : Prop := r.b ≤ i ∧ i < r.e

/-- An element that may come before another in ascending order. -/
def Value.NotAfter (pool : StringPool) : Value → Value → Prop
  | .int x, .int y => x ≤ y
  | .string x, .string y => ¬ pool.get y < pool.get x
  | _, _ => False

/-- A filter value cast to the type. -/
def FilterVal.HasType : FilterVal → StorageType → Prop
  | .int z, t => t ≠ .double ∧ t ≠ .string ∧ t.minValue ≤ z ∧ z ≤ t.maxValue
  | .double _, t => t = .double
  | .string _, t => t = .string

/-! ### Comparisons -/

variable {x : Value}

/-- An element and a filter value of one type other than `double`: two integers or two strings. -/
theorem compared_cases (ht : t ≠ .double) (hx : x.HasType t) (hv : val.HasType t) :
    (∃ a b, x = .int a ∧ val = .int b) ∨ ∃ id s, x = .string id ∧ val = .string s := by
  cases x with
  | double d => exact absurd hx ht
  | int a =>
    cases val with
    | int b => exact .inl ⟨a, b, rfl, rfl⟩
    | double d => exact absurd hv ht
    | string s => exact absurd hv hx.2.1
  | string id =>
    cases val with
    | int b => exact absurd hx hv.2.1
    | double d => exact absurd hv ht
    | string s => exact .inr ⟨id, s, rfl, rfl⟩

/-- The other comparisons by less and greater. -/
theorem stored_iff (ht : t ≠ .double) (hx : x.HasType t) (hv : val.HasType t) :
    (CmpOp.le.stored pool x val = !CmpOp.gt.stored pool x val) ∧ (CmpOp.ge.stored pool x val = !CmpOp.lt.stored pool x val) ∧
      CmpOp.eq.stored pool x val = (!CmpOp.lt.stored pool x val && !CmpOp.gt.stored pool x val) := by
  rcases compared_cases ht hx hv with ⟨a, b, rfl, rfl⟩ | ⟨id, s, rfl, rfl⟩
  · refine ⟨?_, ?_, ?_⟩ <;> simp only [CmpOp.stored, CmpOp.int, ← decide_not, ← Bool.decide_and, decide_eq_decide] <;> omega
  · refine ⟨?_, ?_, ?_⟩ <;> simp only [CmpOp.stored, CmpOp.bytes, ← decide_not, ← Bool.decide_and, decide_eq_decide]
    constructor
    · rintro rfl
      exact ⟨List.lt_irrefl _, List.lt_irrefl _⟩
    · rintro ⟨h₁, h₂⟩
      exact List.le_antisymm h₂ h₁

/-- In ascending order, what is before a smaller element is smaller and what is after a greater one is greater. -/
theorem stored_mono {y : Value} (ht : t ≠ .double) (hx : x.HasType t) (hv : val.HasType t) (h : x.NotAfter pool y) :
    (CmpOp.lt.stored pool y val = true → CmpOp.lt.stored pool x val = true) ∧
      (CmpOp.gt.stored pool x val = true → CmpOp.gt.stored pool y val = true) := by
  rcases compared_cases ht hx hv with ⟨a, b, rfl, rfl⟩ | ⟨id, s, rfl, rfl⟩
  · cases y with
    | int c =>
      have hle : a ≤ c := h
      simp only [CmpOp.stored, CmpOp.int, decide_eq_true_eq]
      omega
    | double d => exact h.elim
    | string id => exact h.elim
  · cases y with
    | int c => exact h.elim
    | double d => exact h.elim
    | string id' =>
      have hle : ¬ pool.get id' < pool.get id := h
      simp only [CmpOp.stored, CmpOp.bytes, decide_eq_true_eq]
      refine ⟨fun hlt => List.lt_of_le_of_lt hle hlt, fun hlt => ?_⟩
      by_contra hnot
      exact hle (List.lt_of_le_of_lt hnot hlt)

/-! ### The rows of a range -/

variable {data : List Value} {r : Range} {j i n : ℕ}

theorem rows_getElem? {b e : ℕ} (hj : b + j < e) : ((data.drop b).take (e - b))[j]? = data[b + j]? := by
  rw [List.getElem?_take_of_lt (by omega), List.getElem?_drop]

/-- A data column in ascending order whose elements have the type. -/
structure Ascending (pool : StringPool) (t : StorageType) (data : List Value) : Prop where
  typed : ∀ x ∈ data, x.HasType t
  interned : ∀ id, .string id ∈ data → pool.Contains id
  ordered : data.Pairwise (·.NotAfter pool ·)

section

variable (h : Ascending pool t data)

include h

theorem Ascending.sublist {l : List Value} (hl : l.Sublist data) : Ascending pool t l :=
  ⟨fun x hx => h.typed x (hl.subset hx), fun id hid => h.interned id (hl.subset hid), h.ordered.sublist hl⟩

theorem Ascending.rows (b n : ℕ) : Ascending pool t ((data.drop b).take n) :=
  h.sublist ((List.take_sublist _ _).trans (List.drop_sublist _ _))

theorem Ascending.drop (b : ℕ) : Ascending pool t (data.drop b) :=
  h.sublist (List.drop_sublist _ _)

theorem Ascending.notAfter {y : Value} (hij : i < j) (hx : data[i]? = some x) (hy : data[j]? = some y) :
    x.NotAfter pool y := by
  obtain ⟨hi, rfl⟩ := List.getElem?_eq_some_iff.mp hx
  obtain ⟨hj, rfl⟩ := List.getElem?_eq_some_iff.mp hy
  exact List.pairwise_iff_getElem.mp h.ordered i j hi hj hij

/-- The rows below a lower bound are the smaller ones. -/
theorem Ascending.lt_lower_iff (ht : t ≠ .double) (hv : val.HasType t) (hx : data[j]? = some x) :
    j < partitionPoint (fun x => CmpOp.lt.stored pool x val) data ↔ CmpOp.lt.stored pool x val = true :=
  lt_partitionPoint_iff (h.ordered.imp_of_mem fun ha _ hab => (stored_mono ht (h.typed _ ha) hv hab).1) hx

/-- The rows below an upper bound are the ones that are not greater. -/
theorem Ascending.lt_upper_iff (ht : t ≠ .double) (hv : val.HasType t) (hx : data[j]? = some x) :
    j < partitionPoint (fun x => !CmpOp.gt.stored pool x val) data ↔ CmpOp.gt.stored pool x val = false := by
  refine (lt_partitionPoint_iff (h.ordered.imp_of_mem fun {a b} ha _ hab hb => ?_) hx).trans (by simp)
  have hmono := (stored_mono ht (h.typed _ ha) hv hab).2
  cases hga : CmpOp.gt.stored pool a val with
  | false => rfl
  | true => simp [hmono hga] at hb

end

/-- The scan stops where the search would. -/
theorem scanEqual_eq {isEqual notGreater : Value → Bool} {xs : List Value} {upper : ℕ}
    (h : ∀ x ∈ xs, isEqual x = notGreater x) (hupper : upper = n + partitionPoint notGreater xs) :
    scanEqual isEqual upper xs n = n + partitionPoint notGreater xs := by
  induction xs generalizing n with
  | nil => rfl
  | cons x xs ih =>
    rw [scanEqual]
    split_ifs with hn heq
    · exact hupper
    · rw [h x (List.mem_cons_self ..)] at heq
      have hpoint : partitionPoint notGreater (x :: xs) = partitionPoint notGreater xs + 1 := by
        simp [partitionPoint, heq]
      rw [hpoint] at hupper ⊢
      rw [ih (fun y hy => h y (List.mem_cons_of_mem _ hy)) (by omega)]
      omega
    · rw [h x (List.mem_cons_self ..)] at heq
      simp [partitionPoint, heq]

/-! ### `SortedFilter` on a column with storage -/

/-- Id equality, or equality of numbers, among the elements that are not smaller. -/
theorem equals_iff {cmp : Value} (ht : t ≠ .double) (hx : x.HasType t) (hin : ∀ id, x = .string id → pool.Contains id)
    (hv : val.HasType t) (hcmp : cmpValue pool val = some cmp) (hlt : CmpOp.lt.stored pool x val = false) :
    x.equals cmp = !CmpOp.gt.stored pool x val := by
  have heq : x.equals cmp = CmpOp.eq.stored pool x val := by
    rcases compared_cases ht hx hv with ⟨a, b, rfl, rfl⟩ | ⟨id, s, rfl, rfl⟩
    · obtain rfl := Option.some.inj hcmp
      simp [Value.equals, CmpOp.stored, CmpOp.int]
    · obtain ⟨id', hid', rfl⟩ := Option.map_eq_some_iff.mp hcmp
      have hiff := StringPool.getId_eq_some_iff (s := s) (hin id rfl)
      rw [hid', Option.some_inj] at hiff
      simp [Value.equals, CmpOp.stored, CmpOp.bytes, ← hiff, eq_comm]
  rw [heq, (stored_iff ht hx hv).2.2, hlt, Bool.not_false, Bool.true_and]

/-- A string that is not interned equals no element. -/
theorem stored_eq_of_not_interned (ht : t ≠ .double) (hx : x.HasType t) (hin : ∀ id, x = .string id → pool.Contains id)
    (hv : val.HasType t) (hcmp : cmpValue pool val = none) : CmpOp.eq.stored pool x val = false := by
  rcases compared_cases ht hx hv with ⟨a, b, rfl, rfl⟩ | ⟨id, s, rfl, rfl⟩
  · exact absurd hcmp (by simp [cmpValue])
  · have hnone : pool.getId s = none := Option.map_eq_none_iff.mp hcmp
    exact decide_eq_false (StringPool.getId_eq_none (hin id rfl) hnone)

variable {bound : BoundModifier} {rangeOp : RangeOp}

/-- **Sorted storage.**  The row is left exactly if it was there and its element satisfies the comparison. -/
theorem nonIdSortedFilter_has (h : Ascending pool t data) (ht : t ≠ .double) (hv : val.HasType t) {op : CmpOp}
    (hop : getSortedFilterArgs op = some (bound, rangeOp)) (hle : r.b ≤ r.e) (hx : data[i]? = some x) :
    (nonIdSortedFilter pool rangeOp data val bound r).Has i ↔ r.Has i ∧ op.stored pool x val = true := by
  have hmem : x ∈ data := List.mem_of_getElem? hx
  have hxt := h.typed x hmem
  obtain ⟨hle', hge', heq'⟩ := @stored_iff pool val t x ht hxt hv
  have hrows := h.rows r.b (r.e - r.b)
  set rows := (data.drop r.b).take (r.e - r.b) with hrowsdef
  set lower := partitionPoint (fun x => CmpOp.lt.stored pool x val) rows with hlower
  set upper := partitionPoint (fun x => !CmpOp.gt.stored pool x val) rows with hupper
  have hlen : rows.length ≤ r.e - r.b := by
    rw [hrowsdef, List.length_take]
    exact Nat.min_le_left _ _
  have hlowerle : lower ≤ r.e - r.b := (partitionPoint_le_length _ _).trans hlen
  have hupperle : upper ≤ r.e - r.b := (partitionPoint_le_length _ _).trans hlen
  -- The bounds split the rows of the range.
  have hrow : r.Has i → rows[i - r.b]? = some x := by
    rintro ⟨hbi, hie⟩
    rw [hrowsdef, rows_getElem? (by omega), Nat.add_sub_cancel' hbi, hx]
  have hlt : r.Has i → (i < r.b + lower ↔ CmpOp.lt.stored pool x val = true) := by
    intro hi
    have hiff := hrows.lt_lower_iff ht hv (hrow hi)
    obtain ⟨hbi, -⟩ := hi
    rw [← hiff]
    omega
  have hgt : r.Has i → (i < r.b + upper ↔ CmpOp.gt.stored pool x val = false) := by
    intro hi
    have hiff := hrows.lt_upper_iff ht hv (hrow hi)
    obtain ⟨hbi, -⟩ := hi
    rw [← hiff]
    omega
  have hbelow : (⟨r.b, r.b + lower⟩ : Range).Has i ↔ r.Has i ∧ CmpOp.lt.stored pool x val = true := by
    constructor
    · rintro ⟨hbi, hil⟩
      have hi : r.Has i := ⟨hbi, by dsimp only at hil; omega⟩
      exact ⟨hi, (hlt hi).mp hil⟩
    · rintro ⟨hi, hstored⟩
      exact ⟨hi.1, (hlt hi).mpr hstored⟩
  have hupto : (⟨r.b, r.b + upper⟩ : Range).Has i ↔ r.Has i ∧ CmpOp.gt.stored pool x val = false := by
    constructor
    · rintro ⟨hbi, hil⟩
      have hi : r.Has i := ⟨hbi, by dsimp only at hil; omega⟩
      exact ⟨hi, (hgt hi).mp hil⟩
    · rintro ⟨hi, hstored⟩
      exact ⟨hi.1, (hgt hi).mpr hstored⟩
  have hfrom : ∀ n, (⟨r.b + n, r.e⟩ : Range).Has i ↔ r.Has i ∧ ¬ i < r.b + n := by
    intro n
    unfold Range.Has
    dsimp only
    omega
  cases op with
  | ne => exact absurd hop (by simp [getSortedFilterArgs])
  | lt =>
    obtain ⟨rfl, rfl⟩ := Prod.mk.inj (Option.some.inj hop)
    exact hbelow
  | le =>
    obtain ⟨rfl, rfl⟩ := Prod.mk.inj (Option.some.inj hop)
    rw [hle', Bool.not_eq_true']
    exact hupto
  | gt =>
    obtain ⟨rfl, rfl⟩ := Prod.mk.inj (Option.some.inj hop)
    refine (hfrom upper).trans (and_congr_right fun hi => ?_)
    rw [hgt hi, Bool.not_eq_false]
  | ge =>
    obtain ⟨rfl, rfl⟩ := Prod.mk.inj (Option.some.inj hop)
    refine (hfrom lower).trans (and_congr_right fun hi => ?_)
    rw [hlt hi, hge', Bool.not_eq_true']
    simp
  | eq =>
    obtain ⟨rfl, rfl⟩ := Prod.mk.inj (Option.some.inj hop)
    unfold nonIdSortedFilter
    dsimp only
    rw [← hrowsdef, ← hlower]
    cases hcmp : cmpValue pool val with
    | none =>
      rw [stored_eq_of_not_interned ht hxt (fun id hid => h.interned id (hid ▸ hmem)) hv hcmp]
      simp only [Range.Has, Bool.false_eq_true, and_false, iff_false]
      omega
    | some cmp =>
      have hdrop := hrows.drop lower
      set fromStart := partitionPoint (fun x => !CmpOp.gt.stored pool x val) (rows.drop lower) with hfromStart
      have hscan : scanEqual (·.equals cmp) fromStart (rows.drop lower) 0 = 0 + fromStart := by
        refine scanEqual_eq (fun y hy => ?_) (Nat.zero_add _).symm
        obtain ⟨j, hj⟩ := List.mem_iff_getElem?.mp hy
        have hyrow : y ∈ rows := List.mem_of_mem_drop hy
        rw [List.getElem?_drop] at hj
        refine equals_iff ht (hdrop.typed y hy) (fun id hid => hdrop.interned id (hid ▸ hy)) hv hcmp ?_
        rw [← Bool.not_eq_true, ← hrows.lt_lower_iff ht hv hj, ← hlower]
        omega
      dsimp only
      rw [hscan, Nat.zero_add, heq', Bool.and_eq_true, Bool.not_eq_true', Bool.not_eq_true']
      have hfromle : fromStart ≤ r.e - r.b - lower := by
        refine (partitionPoint_le_length _ _).trans ?_
        rw [List.length_drop]
        omega
      constructor
      · rintro ⟨hil, hiu⟩
        dsimp only at hil hiu
        have hi : r.Has i := ⟨by omega, by omega⟩
        have hat : (rows.drop lower)[i - (r.b + lower)]? = some x := by
          rw [List.getElem?_drop, ← hrow hi]
          congr 1
          omega
        refine ⟨hi, ?_, (hdrop.lt_upper_iff ht hv hat).mp (by omega)⟩
        rw [← Bool.not_eq_true, ← hlt hi]
        omega
      · rintro ⟨hi, hnlt, hngt⟩
        rw [← Bool.not_eq_true, ← hlt hi] at hnlt
        have hat : (rows.drop lower)[i - (r.b + lower)]? = some x := by
          rw [List.getElem?_drop, ← hrow hi]
          congr 1
          omega
        have hupto' := (hdrop.lt_upper_iff ht hv hat).mpr hngt
        exact ⟨by dsimp only; omega, by dsimp only; omega⟩

/-! ### `SortedFilter` on an `Id` column -/

/-- The comparison with the largest id, where `inner_val + 1` wraps around. -/
def WrapsAround (op : CmpOp) (val : FilterVal) : Prop := (op = .le ∨ op = .gt) ∧ val = .int (2 ^ 32 - 1)

/-- **Ids.**  The rows are right unless the comparison wraps around on a range with rows. -/
theorem idSortedFilter_has_iff {op : CmpOp} (hop : getSortedFilterArgs op = some (bound, rangeOp)) (hle : r.b ≤ r.e)
    (he : r.e < 2 ^ 32) {z : ℤ} (hz : 0 ≤ z) (hz' : z ≤ 2 ^ 32 - 1) :
    (∀ i : ℕ, (idSortedFilter rangeOp bound z.toNat r).Has i ↔ r.Has i ∧ op.int i z = true) ↔
      ¬ (WrapsAround op (.int z) ∧ r.b < r.e) := by
  obtain ⟨n, rfl⟩ := Int.eq_ofNat_of_zero_le hz
  have hn : n < 2 ^ 32 := by omega
  rw [Int.toNat_natCast]
  unfold Range.Has
  cases op with
  | ne => exact absurd hop (by simp [getSortedFilterArgs])
  | eq =>
    obtain ⟨rfl, rfl⟩ := Prod.mk.inj (Option.some.inj hop)
    refine iff_of_true (fun i => ?_) fun h => h.1.1.elim (by simp) (by simp)
    simp only [idSortedFilter, CmpOp.int, decide_eq_true_eq, Int.natCast_inj]
    split_ifs <;> omega
  | lt | ge =>
    obtain ⟨rfl, rfl⟩ := Prod.mk.inj (Option.some.inj hop)
    refine iff_of_true (fun i => ?_) fun h => h.1.1.elim (by simp) (by simp)
    simp [idSortedFilter, CmpOp.int]
    omega
  | le =>
    obtain ⟨rfl, rfl⟩ := Prod.mk.inj (Option.some.inj hop)
    simp only [idSortedFilter, CmpOp.int, WrapsAround, FilterVal.int.injEq, decide_eq_true_eq, if_true, reduceCtorEq, if_false, true_or, true_and]
    by_cases hwrap : n = 2 ^ 32 - 1 ∧ r.b < r.e
    · refine iff_of_false (fun h => ?_) (fun h => h ⟨by omega, hwrap.2⟩)
      have hb := (h r.b).mpr ⟨⟨le_rfl, hwrap.2⟩, by omega⟩
      omega
    · refine iff_of_true (fun i => ?_) fun h => hwrap ⟨by omega, h.2⟩
      omega
  | gt =>
    obtain ⟨rfl, rfl⟩ := Prod.mk.inj (Option.some.inj hop)
    simp only [idSortedFilter, CmpOp.int, WrapsAround, FilterVal.int.injEq, decide_eq_true_eq, if_true, reduceCtorEq, false_or, true_and]
    by_cases hwrap : n = 2 ^ 32 - 1 ∧ r.b < r.e
    · refine iff_of_false (fun h => ?_) (fun h => h ⟨by omega, hwrap.2⟩)
      have hb := ((h r.b).mp ⟨by omega, by omega⟩).2
      omega
    · refine iff_of_true (fun i => ?_) fun h => hwrap ⟨by omega, h.2⟩
      omega

/-! ### The two equality paths -/

/-- For each value of the column, its first row is at the value. -/
def SetIds (data : List Value) : Prop := ∀ (i : ℕ) (n : ℕ), data[i]? = some (.int n) → n ≤ i ∧ data[n]? = some (.int n)

/-- **Set ids.** -/
theorem uint32SetIdSortedEq_has (h : Ascending pool .uint32 data) (hset : SetIds data) (hle : r.b ≤ r.e) (n : ℕ)
    (hx : data[i]? = some x) :
    (uint32SetIdSortedEq data n r).Has i ↔ r.Has i ∧ CmpOp.eq.stored pool x (.int n) = true := by
  have hstored : CmpOp.eq.stored pool x (.int n) = true ↔ x = .int n := by
    have hxt := h.typed x (List.mem_of_getElem? hx)
    cases x with
    | int a => simp [CmpOp.stored, CmpOp.int]
    | double d | string id => exact absurd hxt (by simp [Value.HasType])
  rw [hstored]
  unfold uint32SetIdSortedEq Range.Has
  dsimp only
  set start := max r.b (min n r.e) with hstart
  set rows := (data.drop start).take (r.e - start) with hrowsdef
  have hlen : rows.length ≤ r.e - start := by
    rw [hrowsdef, List.length_take]
    exact Nat.min_le_left _ _
  have hrow : ∀ {j : ℕ}, start + j < r.e → rows[j]? = data[start + j]? := fun hj => rows_getElem? hj
  -- The rows with the value come first among the rows from the value on.
  have hpart : rows.Pairwise fun a b => decide (b = .int n) = true → decide (a = .int n) = true := by
    refine List.pairwise_iff_getElem.mpr fun j k hj hk hjk heq => decide_eq_true ?_
    have hj' : data[start + j]? = some rows[j] := by rw [← hrow (by omega), List.getElem?_eq_getElem hj]
    have hk' : data[start + k]? = some (.int n) := by
      rw [← hrow (by omega), List.getElem?_eq_getElem hk, of_decide_eq_true heq]
    obtain ⟨-, hn⟩ := hset _ _ hk'
    rcases Nat.lt_or_ge n (start + j) with hlt | hge
    · have hbefore := h.notAfter hlt hn hj'
      have hafter := h.notAfter (by omega) hj' hk'
      cases hrj : rows[j] with
      | int a =>
        rw [hrj] at hbefore hafter
        exact congrArg Value.int (le_antisymm hafter hbefore)
      | double d | string id =>
        rw [hrj] at hbefore
        exact hbefore.elim
    · have hnj : n = start + j := by omega
      rw [← hnj, hn] at hj'
      exact (Option.some.inj hj').symm
  constructor
  · rintro ⟨hsi, hilt⟩
    have hie : i < r.e := by
      have := partitionPoint_le_length (fun x => decide (x = Value.int n)) rows
      omega
    have hxrow : rows[i - start]? = some x := by rw [hrow (by omega), Nat.add_sub_cancel' hsi, hx]
    exact ⟨⟨by omega, hie⟩, of_decide_eq_true ((lt_partitionPoint_iff hpart hxrow).mp (by omega))⟩
  · rintro ⟨⟨hbi, hie⟩, rfl⟩
    obtain ⟨hni, -⟩ := hset _ _ hx
    have hsi : start ≤ i := by omega
    have hxrow : rows[i - start]? = some (.int n) := by rw [hrow (by omega), Nat.add_sub_cancel' hsi, hx]
    have hlt := (lt_partitionPoint_iff hpart hxrow).mpr (decide_eq_true rfl)
    exact ⟨hsi, by omega⟩

/-- The specialized storage is true of the data: its bits are the values, which ascend without duplicates. -/
structure SmallValueEq.For (storage : SmallValueEq) (data : List Value) : Prop where
  isSet_iff : ∀ n : ℕ, storage.bitVector.isSet n = true ↔ .int n ∈ data
  prefixPopcount : storage.prefixPopcount = storage.bitVector.prefixPopcount
  distinct : data.Nodup

theorem uint32_cases (hx : x.HasType .uint32) : ∃ n : ℕ, x = .int n := by
  cases x with
  | int a =>
    obtain ⟨n, rfl⟩ := Int.eq_ofNat_of_zero_le hx.2.2.1
    exact ⟨n, rfl⟩
  | double d | string id => exact absurd hx (by simp [Value.HasType])

/-- The rank of a value is its row. -/
theorem SmallValueEq.For.rank_eq {storage : SmallValueEq} (hs : storage.For data) (h : Ascending pool .uint32 data)
    (hn : data[i]? = some (.int n)) : storage.bitVector.rank n = i := by
  obtain ⟨hi, hget⟩ := List.getElem?_eq_some_iff.mp hn
  have hmem : ∀ x, x ∈ ((List.range n).filter storage.bitVector.isSet).map (fun u : ℕ => Value.int u) ↔ x ∈ data.take i := by
    intro x
    rw [List.mem_map]
    constructor
    · rintro ⟨u, hu, rfl⟩
      obtain ⟨hun, hset⟩ := List.mem_filter.mp hu
      have hlt : u < n := List.mem_range.mp hun
      obtain ⟨j, hj⟩ := List.mem_iff_getElem?.mp ((hs.isSet_iff u).mp hset)
      have hji : j < i := by
        by_contra hge
        rcases Nat.lt_or_eq_of_le (not_lt.mp hge) with hij | rfl
        · have hle : (n : ℤ) ≤ u := h.notAfter hij hn hj
          omega
        · rw [hn] at hj
          have := Value.int.inj (Option.some.inj hj)
          omega
      exact List.mem_iff_getElem?.mpr ⟨j, by rw [List.getElem?_take_of_lt hji, hj]⟩
    · intro hx
      obtain ⟨j, hj⟩ := List.mem_iff_getElem?.mp hx
      have hji : j < i := by
        by_contra hge
        rw [List.getElem?_take, if_neg hge] at hj
        exact absurd hj (by simp)
      rw [List.getElem?_take_of_lt hji] at hj
      obtain ⟨u, rfl⟩ := uint32_cases (h.typed x (List.mem_of_getElem? hj))
      have hle : (u : ℤ) ≤ n := h.notAfter hji hj hn
      have hne : u ≠ n := by
        rintro rfl
        obtain ⟨hj', hget'⟩ := List.getElem?_eq_some_iff.mp hj
        exact absurd ((List.Nodup.getElem_inj_iff hs.distinct).mp (hget'.trans hget.symm)) (by omega)
      have hset := (hs.isSet_iff u).mpr (List.mem_of_getElem? hj)
      exact ⟨u, List.mem_filter.mpr ⟨List.mem_range.mpr (by omega), hset⟩, rfl⟩
  have hnodup : (((List.range n).filter storage.bitVector.isSet).map (fun u : ℕ => Value.int u)).Nodup :=
    (List.nodup_range.filter _).map fun a b hab => by exact_mod_cast Value.int.inj hab
  have hperm := (List.perm_ext_iff_of_nodup hnodup (hs.distinct.sublist (List.take_sublist i data))).mpr hmem
  have hlen := hperm.length_eq
  rw [List.length_map, List.length_take, Nat.min_eq_left hi.le] at hlen
  rw [BitVector.rank_eq_length, hlen]

/-- **Small values.** -/
theorem specializedStorageSmallValueEq_has {storage : SmallValueEq} (hs : storage.For data)
    (h : Ascending pool .uint32 data) (n : ℕ) (hx : data[i]? = some x) :
    (specializedStorageSmallValueEq storage n r).Has i ↔ r.Has i ∧ CmpOp.eq.stored pool x (.int n) = true := by
  have hstored : CmpOp.eq.stored pool x (.int n) = true ↔ x = .int n := by
    obtain ⟨u, rfl⟩ := uint32_cases (h.typed x (List.mem_of_getElem? hx))
    simp [CmpOp.stored, CmpOp.int]
  rw [hstored]
  unfold specializedStorageSmallValueEq Range.Has
  dsimp only
  generalize hk : (if n < storage.bitVector.size ∧ storage.bitVector.isSet n = true then
    storage.prefixPopcount.getD (n / 64) 0 + storage.bitVector.countSetBitsUntilInWord n else r.e) = k
  by_cases hset : storage.bitVector.isSet n = true
  · have hlt := BitVector.isSet_lt hset
    obtain ⟨j, hj⟩ := List.mem_iff_getElem?.mp ((hs.isSet_iff n).mp hset)
    rw [if_pos ⟨hlt, hset⟩, hs.prefixPopcount, BitVector.prefixPopcount_add _ hlt, hs.rank_eq h hj] at hk
    have hij : x = .int n ↔ i = k := by
      rw [← hk]
      constructor
      · rintro rfl
        rw [← hs.rank_eq h hj, hs.rank_eq h hx]
      · rintro rfl
        exact Option.some.inj (hx.symm.trans hj)
    rw [hij]
    split_ifs <;> omega
  · have hne : x ≠ .int n := by
      rintro rfl
      exact hset ((hs.isSet_iff n).mpr (List.mem_of_getElem? hx))
    rw [if_neg fun h => hset h.2] at hk
    simp only [hne, and_false, iff_false]
    split_ifs <;> omega

/-! ### The chosen path -/

/-- A range over the rows of a column. -/
structure Range.Over (n : ℕ) (r : Range) : Prop where
  le : r.b ≤ r.e
  lt : r.e < 2 ^ 32
  rows : ∀ i, r.Has i → i < n

/-- The metadata is true of the storage, which holds elements of its type. -/
structure Column.Truthful (pool : StringPool) (col : Column) : Prop where
  ascending : col.sortState ≠ .unsorted → ∀ t data, col.storage = .flex t data → Ascending pool t data
  setIds : col.sortState = .setIdSorted → ∀ data, col.storage = .flex .uint32 data → SetIds data
  smallValueEq : ∀ s, col.specializedStorage = some s → ∃ data, col.storage = .flex .uint32 data ∧ s.For data

/-- A range within another one. -/
theorem Range.Over.sub (h : r.Over n) {r' : Range} (hb : r.b ≤ r'.b) (hle : r'.b ≤ r'.e) (he : r'.e ≤ r.e) :
    r'.Over n := ⟨hle, he.trans_lt h.lt, fun i hi => h.rows i ⟨hb.trans hi.1, hi.2.trans_le he⟩⟩

theorem scanEqual_le {isEqual : Value → Bool} {xs : List Value} {upper : ℕ} (h : upper ≤ n + xs.length) :
    scanEqual isEqual upper xs n ≤ n + xs.length := by
  induction xs generalizing n with
  | nil => exact le_rfl
  | cons x xs ih =>
    rw [List.length_cons] at h ⊢
    rw [scanEqual]
    split_ifs
    · exact h
    · exact (ih (by omega)).trans (by omega)
    · exact Nat.le_add_right _ _

theorem nonIdSortedFilter_over (h : r.Over n) (rangeOp : RangeOp) (data : List Value) (val : FilterVal)
    (bound : BoundModifier) : (nonIdSortedFilter pool rangeOp data val bound r).Over n := by
  have hle := h.le
  have hlen : ((data.drop r.b).take (r.e - r.b)).length ≤ r.e - r.b := by
    rw [List.length_take]
    exact Nat.min_le_left _ _
  have hpoint : ∀ p : Value → Bool, partitionPoint p ((data.drop r.b).take (r.e - r.b)) ≤ r.e - r.b :=
    fun p => (partitionPoint_le_length _ _).trans hlen
  have hbound : ∀ x, x ≤ r.e - r.b →
      (if bound = .beginBound then { r with b := r.b + x } else { r with e := r.b + x } : Range).Over n := by
    intro x hx
    split_ifs
    · exact h.sub (Nat.le_add_right _ _) (by dsimp only; omega) le_rfl
    · exact h.sub le_rfl (Nat.le_add_right _ _) (by dsimp only; omega)
  cases rangeOp with
  | lowerBound => exact hbound _ (hpoint _)
  | upperBound => exact hbound _ (hpoint _)
  | equalRange =>
    unfold nonIdSortedFilter
    dsimp only
    cases cmpValue pool val with
    | none => exact h.sub le_rfl le_rfl hle
    | some cmp =>
      have hlower := hpoint fun x => CmpOp.lt.stored pool x val
      refine h.sub (Nat.le_add_right _ _) (Nat.le_add_right _ _) ?_
      refine (Nat.add_le_add_left (scanEqual_le ((partitionPoint_le_length _ _).trans (Nat.zero_add _).ge)) _).trans ?_
      rw [Nat.zero_add, List.length_drop]
      omega

theorem idSortedFilter_over {v : ℕ} (h : r.Over n) (rangeOp : RangeOp) (bound : BoundModifier) (hv : v < 2 ^ 32) :
    (idSortedFilter rangeOp bound v r).Over n := by
  have hle := h.le
  have he := h.lt
  have hbound : ∀ x, x < 2 ^ 32 → (let newB := if bound = .beginBound then max r.b x else r.b
      let newE := if bound = .beginBound then r.e else min r.e x
      (⟨newB, max newB newE⟩ : Range)).Over n := by
    intro x hx
    dsimp only
    split_ifs
    · refine ⟨le_max_left _ _, by dsimp only; omega, fun i hi => h.rows i ?_⟩
      unfold Range.Has at hi ⊢
      dsimp only at hi
      omega
    · exact h.sub le_rfl (le_max_left _ _) (by dsimp only; omega)
  cases rangeOp with
  | lowerBound | upperBound => exact hbound _ (Nat.mod_lt _ (by decide))
  | equalRange =>
    unfold idSortedFilter
    dsimp only
    by_cases hin : r.b ≤ v ∧ v < r.e
    · rw [if_pos hin, Nat.mod_eq_of_lt (by omega)]
      exact h.sub hin.1 (Nat.le_succ v) hin.2
    · rw [if_neg hin, Nat.add_zero, Nat.mod_eq_of_lt hv]
      exact ⟨le_rfl, hv, fun i hi => absurd hi.1 (not_le.mpr hi.2)⟩

theorem uint32SetIdSortedEq_over (h : r.Over n) (data : List Value) (v : ℕ) :
    (uint32SetIdSortedEq data v r).Over n := by
  have hle := h.le
  unfold uint32SetIdSortedEq
  dsimp only
  refine h.sub (le_max_left _ _) (Nat.le_add_right _ _) ?_
  refine (Nat.add_le_add_left (partitionPoint_le_length _ _) _).trans ?_
  rw [List.length_take]
  omega

theorem specializedStorageSmallValueEq_over (h : r.Over n) (storage : SmallValueEq) (v : ℕ) :
    (specializedStorageSmallValueEq storage v r).Over n := by
  have hle := h.le
  unfold specializedStorageSmallValueEq
  dsimp only
  generalize (if v < storage.bitVector.size ∧ storage.bitVector.isSet v = true then
    storage.prefixPopcount.getD (v / 64) 0 + storage.bitVector.countSetBitsUntilInWord v else r.e) = k
  by_cases hin : r.b ≤ k ∧ k < r.e
  · rw [if_pos hin, if_pos hin]
    exact h.sub hin.1 (Nat.le_succ k) hin.2
  · rw [if_neg hin, if_neg hin]
    exact h.sub hle le_rfl le_rfl

theorem FilterVal.HasType.uint32_cases (h : val.HasType .uint32) : ∃ n : ℕ, val = .int n := by
  cases val with
  | int z =>
    obtain ⟨n, rfl⟩ := Int.eq_ofNat_of_zero_le h.2.2.1
    exact ⟨n, rfl⟩
  | double d | string s => exact absurd h (by simp [FilterVal.HasType])

/-- The paths that the planner chooses between. -/
inductive SortedPath (pool : StringPool) (col : Column) (op : CmpOp) (bound : BoundModifier) (rangeOp : RangeOp)
    (val : FilterVal) (r : Range) : Range → Prop
  | ids {n : ℕ} {z : ℤ} (hs : col.storage = .id n) (hv : val = .int z) :
    SortedPath pool col op bound rangeOp val r (idSortedFilter rangeOp bound z.toNat r)
  | setIds {data : List Value} {v : ℕ} (hs : col.storage = .flex .uint32 data) (hset : col.sortState = .setIdSorted)
    (hop : op = .eq) (hv : val = .int v) : SortedPath pool col op bound rangeOp val r (uint32SetIdSortedEq data v r)
  | smallValue {data : List Value} {s : SmallValueEq} {v : ℕ} (hs : col.storage = .flex .uint32 data) (hsmall : s.For data)
    (hop : op = .eq) (hv : val = .int v) :
    SortedPath pool col op bound rangeOp val r (specializedStorageSmallValueEq s v r)
  | storage {t : StorageType} {data : List Value} (hs : col.storage = .flex t data) :
    SortedPath pool col op bound rangeOp val r (nonIdSortedFilter pool rangeOp data val bound r)

/-- One of the paths is taken. -/
theorem trySortedConstraint_eq {col : Column} (hcol : col.Truthful pool) (hnull : col.nullStorage = .nonNull)
    (hsort : col.sortState ≠ .unsorted) {op : CmpOp} (hop : getSortedFilterArgs op = some (bound, rangeOp))
    (hval : val.HasType col.storage.type) (r : Range) :
    ∃ r', trySortedConstraint pool col op val r = some r' ∧ SortedPath pool col op bound rangeOp val r r' := by
  unfold trySortedConstraint
  rw [if_neg (by simp [hnull, hsort]), hop]
  simp only [Option.bind_eq_bind, Option.bind_some]
  have hsorted : ∃ r', sortedFilter pool col.storage rangeOp bound val r = some r' ∧
      SortedPath pool col op bound rangeOp val r r' := by
    cases hs : col.storage with
    | flex t data => exact ⟨_, rfl, .storage hs⟩
    | id n =>
      rw [hs] at hval
      cases val with
      | int z => exact ⟨_, rfl, .ids hs rfl⟩
      | double d | string s => exact absurd hval (by simp [FilterVal.HasType, Storage.type])
  by_cases hset : col.storage.type = .uint32 ∧ col.sortState = .setIdSorted ∧ op = .eq
  · rw [if_pos hset]
    obtain ⟨htype, hstate, heq⟩ := hset
    rw [htype] at hval
    obtain ⟨v, rfl⟩ := hval.uint32_cases
    cases hs : col.storage with
    | id n => exact absurd (hs ▸ htype) (by simp [Storage.type])
    | flex t data =>
      obtain rfl : t = .uint32 := by
        rw [hs] at htype
        exact htype
      exact ⟨_, rfl, .setIds hs hstate heq rfl⟩
  · rw [if_neg hset]
    cases hsmall : col.specializedStorage with
    | none => exact hsorted
    | some s =>
      obtain ⟨data, hs, hfor⟩ := hcol.smallValueEq s hsmall
      cases op with
      | eq =>
        rw [hs] at hval
        obtain ⟨v, rfl⟩ := FilterVal.HasType.uint32_cases hval
        exact ⟨_, rfl, .smallValue hs hfor rfl rfl⟩
      | _ => exact hsorted

/-- The range a constraint leaves is one over the rows again. -/
theorem SortedPath.over {col : Column} {op : CmpOp} {r' : Range} (hpath : SortedPath pool col op bound rangeOp val r r')
    (hval : val.HasType col.storage.type) (h : r.Over n) : r'.Over n := by
  cases hpath with
  | @ids _ z hs hv =>
    rw [hs, hv] at hval
    have hmax : z ≤ 2 ^ 32 - 1 := hval.2.2.2
    exact idSortedFilter_over h _ _ (by omega)
  | setIds => exact uint32SetIdSortedEq_over h _ _
  | smallValue => exact specializedStorageSmallValueEq_over h _ _
  | storage => exact nonIdSortedFilter_over h _ _ _ _

/-- **Sorted columns.**  The chosen path leaves exactly the rows of the range whose cell satisfies the comparison, unless
ids are compared with the largest id by `<=` or `>` on a range with rows. -/
theorem trySortedConstraint_rows_iff {col : Column} (hcol : col.Truthful pool) (hnull : col.nullStorage = .nonNull)
    (hsort : col.sortState ≠ .unsorted) (htype : col.storage.type ≠ .double) {op : CmpOp} (hop : op ≠ .ne)
    (hval : val.HasType col.storage.type) (hr : r.Over col.storage.size) :
    (∃ r', trySortedConstraint pool col op val r = some r' ∧ r'.Over col.storage.size ∧
      ∀ i, r'.Has i ↔ r.Has i ∧ ∃ x, col.storage.get i = some x ∧ op.stored pool x val = true) ↔
    ¬ ((∃ n, col.storage = .id n) ∧ WrapsAround op val ∧ r.b < r.e) := by
  obtain ⟨⟨bound, rangeOp⟩, hargs⟩ : ∃ args, getSortedFilterArgs op = some args := by
    cases op <;> first | exact absurd rfl hop | exact ⟨_, rfl⟩
  obtain ⟨r', heq, hpath⟩ := trySortedConstraint_eq hcol hnull hsort hargs hval r
  have hover := hpath.over hval hr
  have hiff : (∃ r', trySortedConstraint pool col op val r = some r' ∧ r'.Over col.storage.size ∧
      ∀ i, r'.Has i ↔ r.Has i ∧ ∃ x, col.storage.get i = some x ∧ op.stored pool x val = true) ↔
      ∀ i, r'.Has i ↔ r.Has i ∧ ∃ x, col.storage.get i = some x ∧ op.stored pool x val = true := by
    constructor
    · rintro ⟨r'', heq', -, hrows⟩
      obtain rfl := Option.some.inj (heq.symm.trans heq')
      exact hrows
    · exact fun hrows => ⟨r', heq, hover, hrows⟩
  rw [hiff]
  -- Storage other than ids: what holds of the elements holds of the rows, and there are no rows beyond.
  have hdata : ∀ {t data}, col.storage = .flex t data → (∀ i x, data[i]? = some x →
      (r'.Has i ↔ r.Has i ∧ op.stored pool x val = true)) →
      ((∀ i, r'.Has i ↔ r.Has i ∧ ∃ x, col.storage.get i = some x ∧ op.stored pool x val = true) ↔
        ¬ ((∃ n, col.storage = .id n) ∧ WrapsAround op val ∧ r.b < r.e)) := by
    intro t data hs hhas
    rw [hs] at hover hr ⊢
    refine iff_of_true (fun i => ?_) fun h => absurd h.1.choose_spec (by simp)
    show _ ↔ r.Has i ∧ ∃ x, data[i]? = some x ∧ _
    cases hi : data[i]? with
    | some x =>
      rw [hhas i x hi]
      simp
    | none =>
      have hbeyond : data.length ≤ i := List.getElem?_eq_none_iff.mp hi
      exact iff_of_false (fun h => (hover.rows i h).not_ge hbeyond) fun h => (hr.rows i h.1).not_ge hbeyond
  cases hpath with
  | @ids n z hs hv =>
    rw [hs] at hr hval ⊢
    subst hv
    have hids := idSortedFilter_has_iff hargs hr.le hr.lt hval.2.2.1 hval.2.2.2
    refine Iff.trans (forall_congr' fun i => iff_congr Iff.rfl (and_congr_right fun hi => ?_)) (hids.trans ?_)
    · have hlt : i < n := hr.rows i hi
      simp [Storage.get, hlt, CmpOp.stored]
    · simp
  | setIds hs hset hop' hv =>
    subst hop' hv
    exact hdata hs fun i x hx => uint32SetIdSortedEq_has (hcol.ascending hsort _ _ hs) (hcol.setIds hset _ hs) hr.le _ hx
  | smallValue hs hfor hop' hv =>
    subst hop' hv
    exact hdata hs fun i x hx => specializedStorageSmallValueEq_has hfor (hcol.ascending hsort _ _ hs) _ hx
  | storage hs =>
    rw [hs] at htype hval
    exact hdata hs fun i x hx => nonIdSortedFilter_has (hcol.ascending hsort _ _ hs) htype hval hargs hr.le hx

/-- The set ids 0, 0, 2. -/
def threeSetIds : Column where
  storage := .flex .uint32 [.int 0, .int 0, .int 2]
  nullStorage := .nonNull
  sortState := .setIdSorted
  duplicateState := .hasDuplicates

theorem threeSetIds_truthful : threeSetIds.Truthful StringPool.empty where
  ascending _ t data hs := by
    obtain ⟨rfl, rfl⟩ := Storage.flex.inj hs
    refine ⟨fun x hx => ?_, fun id hid => by simp at hid, ?_⟩
    · fin_cases hx <;> simp [Value.HasType, StorageType.minValue, StorageType.maxValue]
    · simp [Value.NotAfter]
  setIds _ data hs i n hi := by
    obtain ⟨-, rfl⟩ := Storage.flex.inj hs
    match i, hi with
    | 0, hi => obtain rfl : n = 0 := by simpa using hi.symm
               exact ⟨le_rfl, rfl⟩
    | 1, hi => obtain rfl : n = 0 := by simpa using hi.symm
               exact ⟨Nat.zero_le _, rfl⟩
    | 2, hi => obtain rfl : n = 2 := by
                 have := Value.int.inj (Option.some.inj hi)
                 omega
               exact ⟨le_rfl, rfl⟩
  smallValueEq s hs := absurd hs (by simp [threeSetIds])

theorem trySortedConstraint_threeSetIds : (∃ r', trySortedConstraint StringPool.empty threeSetIds .eq (.int 0) ⟨1, 3⟩ = some r' ∧
      r'.Over 3 ∧ ∀ i, r'.Has i ↔ (⟨1, 3⟩ : Range).Has i ∧
        ∃ x, threeSetIds.storage.get i = some x ∧ CmpOp.eq.stored StringPool.empty x (.int 0) = true) ↔
    ¬ ((∃ n, threeSetIds.storage = .id n) ∧ WrapsAround .eq (.int 0) ∧ 1 < 3) :=
  trySortedConstraint_rows_iff threeSetIds_truthful rfl (by decide) (by decide) (by decide)
    ⟨by decide, by decide, by decide, by decide⟩ ⟨by decide, by decide, fun _ hi => hi.2⟩

/-- Two ids. -/
def twoIds : Column where
  storage := .id 2
  nullStorage := .nonNull
  sortState := .idSorted
  duplicateState := .noDuplicates

/-- `id <= 4294967295` leaves no row. -/
theorem not_rows_twoIds : ¬ ∃ r', trySortedConstraint StringPool.empty twoIds .le (.int 4294967295) ⟨0, 2⟩ = some r' ∧
    ∀ i, r'.Has i ↔ (⟨0, 2⟩ : Range).Has i ∧
      ∃ x, twoIds.storage.get i = some x ∧ CmpOp.le.stored StringPool.empty x (.int 4294967295) = true := by
  rintro ⟨r', heq, hrows⟩
  obtain rfl : (⟨0, 0⟩ : Range) = r' := Option.some.inj ((show _ = some (⟨0, 0⟩ : Range) from rfl).symm.trans heq)
  have hrow := (hrows 0).mpr ⟨⟨le_rfl, by decide⟩, .int 0, rfl, by decide⟩
  exact absurd hrow.2 (by decide)

end LynxTrace.TraceProcessor.Core
