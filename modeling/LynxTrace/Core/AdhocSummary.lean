import LynxTrace.Core.AdhocBuilder

/-!
# Core.AdhocSummary — what the builder finds out about a column of integers
-/

namespace LynxTrace.TraceProcessor.Core

/-! ### Bits -/

namespace BitVector

variable (bv : BitVector)

theorem size_pushBackMultiple (bit : Bool) (count : ℕ) : (bv.pushBackMultiple bit count).size = bv.size + count := by
  rw [size, pushBackMultiple, List.length_append, List.length_replicate, size]

theorem isSet_pushBackMultiple_false (count i : ℕ) : (bv.pushBackMultiple false count).isSet i = bv.isSet i := by
  unfold isSet pushBackMultiple
  rw [List.getD_eq_getElem?_getD, List.getD_eq_getElem?_getD]
  rcases Nat.lt_or_ge i bv.bits.length with hi | hi
  · rw [List.getElem?_append_left hi]
  · rw [List.getElem?_append_right hi, List.getElem?_eq_none hi, List.getElem?_replicate]
    split_ifs <;> rfl

theorem isSet_change_true {bit : ℕ} (hbit : bit < bv.size) (i : ℕ) :
    (bv.change bit true).isSet i = true ↔ i = bit ∨ bv.isSet i = true := by
  unfold isSet change
  rw [List.getD_eq_getElem?_getD, List.getD_eq_getElem?_getD, List.getElem?_set]
  by_cases h : bit = i
  · subst h
    simp [show bit < bv.bits.length from hbit]
  · simp [h, Ne.symm h]

end BitVector

/-! ### Duplicates -/

/-- No element is found to be a duplicate in a column of `n` elements: they are small and differ in the lower 32 bits. -/
structure Fresh (n : ℕ) (data : List ℤ) : Prop where
  bounds : ∀ x ∈ data, 0 ≤ x ∧ x < 16 * n
  distinct : (data.map (· % 2 ^ 32)).Nodup

/-- The bits that are set for the elements. -/
structure Marks (bv : BitVector) (data : List ℤ) : Prop where
  isSet : ∀ i : ℕ, bv.isSet i = true ↔ ∃ x ∈ data, x % 2 ^ 32 = i
  size : ∀ i : ℕ, i < bv.size ↔ ∃ x ∈ data, (i : ℤ) ≤ x % 2 ^ 32

/-- The element is in bounds and has more than 32 bits, and its lower 32 bits are below those of an earlier one. -/
def WrapsAt (n : ℕ) (before : List ℤ) (x : ℤ) : Prop :=
  Fresh n before ∧ 2 ^ 32 ≤ x ∧ x < 16 * n ∧ ∃ y ∈ before, x % 2 ^ 32 < y % 2 ^ 32

/-- For some element the number of new bits wraps around as a `uint64_t`. -/
def CountWraps (data : List ℤ) : Prop := ∃ before x after, data = before ++ x :: after ∧ WrapsAt data.length before x

variable {n : ℕ} {before : List ℤ} {bv : BitVector} {x : ℤ}

theorem Fresh.nil : Fresh n [] := ⟨fun _ hx => absurd hx List.not_mem_nil, List.nodup_nil⟩

theorem Marks.nil : Marks {} [] :=
  ⟨fun i => by simp [BitVector.isSet], fun i => by simp [BitVector.size]⟩

theorem Fresh.left {after : List ℤ} (h : Fresh n (before ++ after)) : Fresh n before :=
  ⟨fun x hx => h.bounds x (List.mem_append_left _ hx), (List.map_append ▸ h.distinct).of_append_left⟩

theorem fresh_concat_iff :
    Fresh n (before ++ [x]) ↔ Fresh n before ∧ 0 ≤ x ∧ x < 16 * n ∧ ∀ y ∈ before, y % 2 ^ 32 ≠ x % 2 ^ 32 := by
  constructor
  · intro h
    obtain ⟨hnonneg, hlt⟩ := h.bounds x (by simp)
    refine ⟨h.left, hnonneg, hlt, fun y hy heq => ?_⟩
    have hdistinct := h.distinct
    rw [List.map_append, List.nodup_append] at hdistinct
    exact hdistinct.2.2 _ (List.mem_map_of_mem hy) _ (List.mem_singleton_self _) heq
  · rintro ⟨h, hnonneg, hlt, hne⟩
    refine ⟨fun y hy => ?_, ?_⟩
    · rcases List.mem_append.mp hy with hy | hy
      · exact h.bounds y hy
      · obtain rfl := List.mem_singleton.mp hy
        exact ⟨hnonneg, hlt⟩
    · rw [List.map_append, List.nodup_append]
      refine ⟨h.distinct, List.nodup_singleton _, ?_⟩
      rintro _ hy _ hx rfl
      obtain ⟨y, hy, heq⟩ := List.mem_map.mp hy
      exact hne y hy (heq.trans (List.mem_singleton.mp hx))

/-- The bit of an element is set among enough bits. -/
theorem Marks.mark (h : Marks bv before) {bit : ℕ} (hbit : (bit : ℤ) = x % 2 ^ 32) {bv' : BitVector}
    (hsame : ∀ i, bv'.isSet i = bv.isSet i) (hsize : ∀ i : ℕ, i < bv'.size ↔ i < bv.size ∨ i ≤ bit) :
    Marks (bv'.change bit true) (before ++ [x]) where
  isSet i := by
    rw [BitVector.isSet_change_true _ ((hsize bit).mpr (.inr (Nat.le_refl _))), hsame, h.isSet]
    simp only [List.mem_append, List.mem_singleton]
    constructor
    · rintro (rfl | ⟨y, hy, heq⟩)
      · exact ⟨x, .inr rfl, hbit.symm⟩
      · exact ⟨y, .inl hy, heq⟩
    · rintro ⟨y, hy | rfl, heq⟩
      · exact .inr ⟨y, hy, heq⟩
      · exact .inl (by omega)
  size i := by
    rw [BitVector.size_change, hsize, h.size]
    simp only [List.mem_append, List.mem_singleton]
    constructor
    · rintro (⟨y, hy, hle⟩ | hle)
      · exact ⟨y, .inl hy, hle⟩
      · exact ⟨x, .inr rfl, by omega⟩
    · rintro ⟨y, hy | rfl, hle⟩
      · exact .inl ⟨y, hy, hle⟩
      · exact .inr (by omega)

/-- **`CheckDuplicate`.**  It does not end where the count wraps around; otherwise it tells whether the elements are still
fresh. -/
theorem checkDuplicate_spec (hfresh : Fresh n before) (hmarks : Marks bv before) (x : ℤ) :
    (WrapsAt n before x ∧ checkDuplicate bv x n = none) ∨
      ¬ WrapsAt n before x ∧ ∃ dup bv', checkDuplicate bv x n = some (dup, bv') ∧
        (dup = true → ¬ Fresh n (before ++ [x])) ∧ (dup = false → Fresh n (before ++ [x]) ∧ Marks bv' (before ++ [x])) := by
  set bit := (x % 2 ^ 32).toNat with hbitdef
  have hbit : (bit : ℤ) = x % 2 ^ 32 := Int.toNat_of_nonneg (Int.emod_nonneg _ (by decide))
  have hmark : ∀ {bv' : BitVector}, (∀ i, bv'.isSet i = bv.isSet i) → (∀ i : ℕ, i < bv'.size ↔ i < bv.size ∨ i ≤ bit) →
      0 ≤ x → x < 16 * n → ∃ dup bv'', (if bv'.isSet bit then (true, bv') else (false, bv'.change bit true)) = (dup, bv'') ∧
        (dup = true → ¬ Fresh n (before ++ [x])) ∧
        (dup = false → Fresh n (before ++ [x]) ∧ Marks bv'' (before ++ [x])) := by
    intro bv' hsame hsize hnonneg hlt
    have hset : bv'.isSet bit = true ↔ ∃ y ∈ before, y % 2 ^ 32 = x % 2 ^ 32 := by rw [hsame, hmarks.isSet, hbit]
    cases hdup : bv'.isSet bit with
    | true =>
      obtain ⟨y, hy, heq⟩ := hset.mp hdup
      exact ⟨true, bv', rfl, fun _ h => (fresh_concat_iff.mp h).2.2.2 y hy heq, (nomatch ·)⟩
    | false =>
      refine ⟨false, _, rfl, (nomatch ·), fun _ => ⟨fresh_concat_iff.mpr ⟨hfresh, hnonneg, hlt, fun y hy heq => ?_⟩,
        hmarks.mark hbit hsame hsize⟩⟩
      rw [hset.mpr ⟨y, hy, heq⟩] at hdup
      cases hdup
  unfold checkDuplicate
  by_cases hneg : x < 0
  · rw [if_pos hneg]
    refine .inr ⟨fun h => ?_, true, bv, rfl, fun _ h => ?_, (nomatch ·)⟩
    · have := h.2.1
      omega
    · have := (fresh_concat_iff.mp h).2.1
      omega
  rw [if_neg hneg]
  dsimp only
  rw [← hbitdef]
  by_cases hin : x < bv.size
  · -- there is a bit for the element already
    obtain ⟨y, hy, hle⟩ := (hmarks.size x.toNat).mp (by omega)
    have hsmall := Int.emod_lt_of_pos y (show (0 : ℤ) < 2 ^ 32 by decide)
    have hbounds := hfresh.bounds y hy
    rw [if_pos hin]
    obtain ⟨dup, bv', heq, hspec⟩ := hmark (fun _ => rfl) (fun i => by omega) (by omega) (by omega)
    exact .inr ⟨fun h => by have := h.2.1; omega, dup, bv', congrArg some heq, hspec⟩
  rw [if_neg hin]
  by_cases hbig : 16 * (n : ℤ) ≤ x
  · rw [if_pos hbig]
    refine .inr ⟨fun h => ?_, true, bv, rfl, fun _ h => ?_, (nomatch ·)⟩
    · have := h.2.2.1
      omega
    · have := (fresh_concat_iff.mp h).2.2.1
      omega
  rw [if_neg hbig]
  by_cases hwrap : bit + 1 < bv.size
  · rw [if_pos hwrap]
    obtain ⟨y, hy, hle⟩ := (hmarks.size _).mp hwrap
    exact .inl ⟨⟨hfresh, by omega, by omega, y, hy, by omega⟩, rfl⟩
  · rw [if_neg hwrap]
    obtain ⟨dup, bv', heq, hspec⟩ := @hmark (bv.pushBackMultiple false (bit + 1 - bv.size)) (bv.isSet_pushBackMultiple_false _)
      (fun i => by rw [BitVector.size_pushBackMultiple]; omega) (by omega) (by omega)
    refine .inr ⟨?_, dup, bv', congrArg some heq, hspec⟩
    rintro ⟨-, -, -, y, hy, hlt⟩
    have := (hmarks.size (y % 2 ^ 32).toNat).mpr ⟨y, hy, by omega⟩
    omega

/-! ### The summary -/

/-- What the summary says of the elements seen so far. -/
structure Summarizes (n : ℕ) (isNullable : Bool) (seen : List ℤ) (s : IntegerColumnSummary) : Prop where
  isNullable : s.isNullable = isNullable
  ids : s.isIdSorted = true ↔ ∀ (i : ℕ) (x : ℤ), seen[i]? = some x → x = i
  setIds : s.isSetidSorted = true → ∀ (i : ℕ) (x : ℤ), seen[i]? = some x → 0 ≤ x ∧ x ≤ i ∧ seen[x.toNat]? = some x
  sorted : s.isSorted = true ↔ seen.Pairwise (· ≤ ·)
  setIds_of_ids : s.isIdSorted = true → s.isSetidSorted = true
  sorted_of_setIds : s.isSetidSorted = true → s.isSorted = true
  bounds : ∀ x ∈ seen, s.min ≤ x ∧ x ≤ s.max
  attained : seen ≠ [] → s.min ∈ seen ∧ s.max ∈ seen
  duplicates : s.hasDuplicates = true ↔ ¬ Fresh n seen

theorem getElem?_concat_iff {α : Type} {l : List α} {a x : α} {i : ℕ} :
    (l ++ [a])[i]? = some x ↔ l[i]? = some x ∨ i = l.length ∧ x = a := by
  rcases Nat.lt_trichotomy i l.length with hi | rfl | hi
  · rw [List.getElem?_append_left hi]
    simp [Nat.ne_of_lt hi]
  · simp [eq_comm]
  · rw [List.getElem?_eq_none (by rw [List.length_append, List.length_singleton]; omega),
      List.getElem?_eq_none (Nat.le_of_lt hi)]
    simp [Nat.ne_of_gt hi]

/-- In ascending order it is enough to compare with the last one. -/
theorem pairwise_concat_iff {seen : List ℤ} {prev x : ℤ} (hlast : seen.getLast? = some prev) :
    (seen ++ [x]).Pairwise (· ≤ ·) ↔ seen.Pairwise (· ≤ ·) ∧ prev ≤ x := by
  obtain ⟨init, rfl⟩ := List.getLast?_eq_some_iff.mp hlast
  rw [List.pairwise_append, List.pairwise_append]
  simp only [List.pairwise_singleton, List.mem_append, List.mem_singleton, true_and]
  constructor
  · rintro ⟨hseen, hx⟩
    exact ⟨hseen, hx prev (.inr rfl) x rfl⟩
  · rintro ⟨⟨hinit, hprev⟩, hle⟩
    refine ⟨⟨hinit, hprev⟩, ?_⟩
    rintro y (hy | rfl) _ rfl
    · exact Int.le_trans (hprev y hy prev rfl) hle
    · exact hle

/-- One round of the loop. -/
theorem Summarizes.step {isNullable : Bool} {seen : List ℤ} {s : IntegerColumnSummary} (h : Summarizes n isNullable seen s)
    {prev : ℤ} (hlast : seen.getLast? = some prev) (x : ℤ) {hasDuplicates : Bool}
    (hduplicates : hasDuplicates = true ↔ ¬ Fresh n (seen ++ [x])) :
    Summarizes n isNullable (seen ++ [x])
      { s with
        isIdSorted := s.isIdSorted && x = seen.length
        isSetidSorted := s.isSetidSorted && (x = prev || x = seen.length)
        isSorted := s.isSorted && prev ≤ x
        min := min s.min x
        max := max s.max x
        hasDuplicates } where
  isNullable := h.isNullable
  ids := by
    rw [Bool.and_eq_true, h.ids, decide_eq_true_eq]
    constructor
    · rintro ⟨hids, hx⟩ i y hy
      rcases getElem?_concat_iff.mp hy with hy | ⟨rfl, rfl⟩
      exacts [hids i y hy, hx]
    · intro hids
      exact ⟨fun i y hy => hids i y (getElem?_concat_iff.mpr (.inl hy)),
        hids _ x (getElem?_concat_iff.mpr (.inr ⟨rfl, rfl⟩))⟩
  setIds hset i y hy := by
    obtain ⟨hset, hx⟩ := (Bool.and_eq_true ..).mp hset
    have hbefore := h.setIds hset
    have hleft : ∀ {j : ℕ} {z : ℤ}, seen[j]? = some z → (seen ++ [x])[j]? = some z := fun hz =>
      getElem?_concat_iff.mpr (.inl hz)
    rcases getElem?_concat_iff.mp hy with hy | ⟨rfl, rfl⟩
    · obtain ⟨hnonneg, hle, hget⟩ := hbefore i y hy
      exact ⟨hnonneg, hle, hleft hget⟩
    · simp only [Bool.or_eq_true, decide_eq_true_eq] at hx
      rcases hx with rfl | hx
      · rw [List.getLast?_eq_getElem?] at hlast
        obtain ⟨hnonneg, hle, hget⟩ := hbefore _ y hlast
        exact ⟨hnonneg, by omega, hleft hget⟩
      · rw [hx]
        refine ⟨by omega, Int.le_refl _, ?_⟩
        rw [Int.toNat_natCast]
        exact getElem?_concat_iff.mpr (.inr ⟨rfl, rfl⟩)
  sorted := by
    rw [pairwise_concat_iff hlast, ← h.sorted]
    simp
  setIds_of_ids hids := by
    obtain ⟨hids, hx⟩ := (Bool.and_eq_true ..).mp hids
    simp [h.setIds_of_ids hids, hx]
  sorted_of_setIds hset := by
    obtain ⟨hset, hx⟩ := (Bool.and_eq_true ..).mp hset
    rw [List.getLast?_eq_getElem?] at hlast
    have hle := (h.setIds hset _ _ hlast).2.1
    simp only [Bool.or_eq_true, decide_eq_true_eq] at hx
    simp only [h.sorted_of_setIds hset, Bool.true_and, decide_eq_true_eq]
    omega
  bounds y hy := by
    rcases List.mem_append.mp hy with hy | hy
    · have := h.bounds y hy
      dsimp only
      omega
    · obtain rfl := List.mem_singleton.mp hy
      dsimp only
      omega
  attained _ := by
    obtain ⟨hmin, hmax⟩ := h.attained (fun hnil => by rw [hnil] at hlast; cases hlast)
    have heither : ∀ {y z : ℤ}, y ∈ seen → z = y ∨ z = x → z ∈ seen ++ [x] := fun hy hz => by
      rcases hz with rfl | rfl
      exacts [List.mem_append_left _ hy, List.mem_append_right _ (List.mem_singleton_self _)]
    exact ⟨heither hmin (by dsimp only; omega), heither hmax (by dsimp only; omega)⟩
  duplicates := hduplicates

theorem fresh_of_not {s : IntegerColumnSummary} {isNullable : Bool} {seen : List ℤ} (h : Summarizes n isNullable seen s)
    (hdup : s.hasDuplicates = false) : Fresh n seen := by
  by_contra hnot
  rw [h.duplicates.mpr hnot] at hdup
  cases hdup

/-- A count wraps around at the first element, or at a later one. -/
theorem exists_wrapsAt_cons {seen rest : List ℤ} {x : ℤ} :
    (∃ before y after, x :: rest = before ++ y :: after ∧ WrapsAt n (seen ++ before) y) ↔
      WrapsAt n seen x ∨ ∃ before y after, rest = before ++ y :: after ∧ WrapsAt n ((seen ++ [x]) ++ before) y := by
  constructor
  · rintro ⟨_ | ⟨z, before⟩, y, after, heq, hwraps⟩
    · obtain ⟨rfl, rfl⟩ := List.cons.inj heq
      exact .inl (List.append_nil seen ▸ hwraps)
    · obtain ⟨rfl, rfl⟩ := List.cons.inj heq
      exact .inr ⟨before, y, after, rfl, by rwa [List.append_assoc, List.singleton_append]⟩
  · rintro (hwraps | ⟨before, y, after, rfl, hwraps⟩)
    · exact ⟨[], x, rest, rfl, (List.append_nil seen).symm ▸ hwraps⟩
    · exact ⟨x :: before, y, after, rfl, by rwa [List.append_assoc, List.singleton_append] at hwraps⟩

/-- **The loop.**  It does not end if a count wraps around; otherwise the summary is one of all elements. -/
theorem summarizeFrom_spec {isNullable : Bool} (rest : List ℤ) : ∀ {seen : List ℤ} {prev : ℤ} {s : IntegerColumnSummary}
    {bv : BitVector}, seen.getLast? = some prev → Summarizes n isNullable seen s →
    (s.hasDuplicates = false → Marks bv seen) →
    (summarizeFrom n seen.length prev rest (s, bv) = none ↔
      ∃ before x after, rest = before ++ x :: after ∧ WrapsAt n (seen ++ before) x) ∧
    ∀ s' bv', summarizeFrom n seen.length prev rest (s, bv) = some (s', bv') → Summarizes n isNullable (seen ++ rest) s' := by
  induction rest with
  | nil =>
    intro seen prev s bv _ hs _
    refine ⟨⟨(nomatch ·), ?_⟩, fun s' bv' h => ?_⟩
    · rintro ⟨before, x, after, heq, -⟩
      exact absurd heq (by simp)
    · cases h
      rwa [List.append_nil]
  | cons x rest ih =>
    intro seen prev s bv hlast hs hmarks
    have hlast' : (seen ++ [x]).getLast? = some x := List.getLast?_concat
    have hlength : (seen ++ [x]).length = seen.length + 1 := by rw [List.length_append, List.length_singleton]
    rw [exists_wrapsAt_cons, ← List.singleton_append, ← List.append_assoc, List.singleton_append]
    unfold summarizeFrom
    cases hdup : s.hasDuplicates with
    | true =>
      -- no element is fresh after a duplicate
      have hfound : ¬ Fresh n seen := hs.duplicates.mp hdup
      have hnot : ¬ WrapsAt n seen x := fun h => hfound h.1
      have hstill : true = true ↔ ¬ Fresh n (seen ++ [x]) := ⟨fun _ h => hfound h.left, fun _ => rfl⟩
      have hnext := @ih _ _ _ bv hlast' (hs.step hlast x hstill) (nomatch ·)
      rw [hlength] at hnext
      simpa [hnot] using hnext
    | false =>
      have hfresh := fresh_of_not hs hdup
      rcases checkDuplicate_spec hfresh (hmarks hdup) x with ⟨hwraps, hcheck⟩ | ⟨hnot, dup, bv', hcheck, hfound, hfree⟩
      · simp [hcheck, hwraps]
      · have hduplicates : dup = true ↔ ¬ Fresh n (seen ++ [x]) :=
          ⟨hfound, fun hnot => by_contra fun h => hnot (hfree (Bool.not_eq_true _ ▸ h)).1⟩
        have hnext := ih hlast' (hs.step hlast x hduplicates) fun h => (hfree h).2
        rw [hlength] at hnext
        simpa [hcheck, hnot] using hnext

theorem Summarizes.nil (isNullable : Bool) : Summarizes n isNullable [] { isNullable } where
  isNullable := rfl
  ids := iff_of_true rfl fun _ _ hx => nomatch hx
  setIds _ i x hx := nomatch hx
  sorted := by simp
  setIds_of_ids _ := rfl
  sorted_of_setIds _ := rfl
  bounds x hx := nomatch hx
  attained h := absurd rfl h
  duplicates := iff_of_false Bool.false_ne_true (not_not_intro Fresh.nil)

theorem Summarizes.first (isNullable : Bool) (x : ℤ) {hasDuplicates : Bool}
    (hduplicates : hasDuplicates = true ↔ ¬ Fresh n [x]) :
    Summarizes n isNullable [x]
      { isIdSorted := x = 0, isSetidSorted := x = 0, min := x, max := x, hasDuplicates, isNullable } where
  isNullable := rfl
  ids := by
    rw [decide_eq_true_eq]
    refine ⟨fun hx i y hy => ?_, fun hids => hids 0 x rfl⟩
    obtain ⟨rfl, rfl⟩ : i = 0 ∧ y = x := by simpa using (getElem?_concat_iff (l := [])).mp hy
    exact hx
  setIds hset i y hy := by
    obtain ⟨rfl, rfl⟩ : i = 0 ∧ y = x := by simpa using (getElem?_concat_iff (l := [])).mp hy
    obtain rfl : y = 0 := of_decide_eq_true hset
    exact ⟨Int.le_refl _, Int.le_refl _, rfl⟩
  sorted := by simp
  setIds_of_ids hids := hids
  sorted_of_setIds _ := rfl
  bounds y hy := by
    obtain rfl := List.mem_singleton.mp hy
    exact ⟨Int.le_refl _, Int.le_refl _⟩
  attained _ := ⟨List.mem_singleton_self x, List.mem_singleton_self x⟩
  duplicates := hduplicates

/-- **The summary.**  It does not end if a count wraps around; otherwise what it says holds of the column. -/
theorem summarize_spec {data : List ℤ} (hsize : data.length < 2 ^ 32) (isNullable : Bool) :
    (summarize data isNullable = none ↔ CountWraps data) ∧
      ∀ s, summarize data isNullable = some s → Summarizes data.length isNullable data s := by
  unfold summarize
  rw [if_neg (Nat.not_le.mpr hsize)]
  cases data with
  | nil =>
    refine ⟨⟨(nomatch ·), ?_⟩, fun s hs => ?_⟩
    · rintro ⟨before, x, after, heq, -⟩
      exact absurd heq (by simp)
    · obtain rfl := Option.some.inj hs
      exact .nil isNullable
  | cons x rest =>
    have hnot : ¬ WrapsAt (x :: rest).length [] x := fun ⟨_, _, _, y, hy, _⟩ => List.not_mem_nil hy
    rcases checkDuplicate_spec (Fresh.nil (n := (x :: rest).length)) Marks.nil x with
      ⟨hwraps, -⟩ | ⟨-, dup, bv, hcheck, hfound, hfree⟩
    · exact absurd hwraps hnot
    have hduplicates : dup = true ↔ ¬ Fresh (x :: rest).length [x] :=
      ⟨hfound, fun hnot => by_contra fun h => hnot (hfree (Bool.not_eq_true _ ▸ h)).1⟩
    have hloop := summarizeFrom_spec rest List.getLast?_singleton (.first isNullable x hduplicates) fun h => (hfree h).2
    have hwraps : CountWraps (x :: rest) ↔ _ := @exists_wrapsAt_cons (x :: rest).length [] rest x
    rw [List.nil_append] at hwraps
    rw [hwraps, or_iff_right hnot, ← hloop.1]
    dsimp only
    rw [hcheck]
    constructor
    · simp only [Option.bind_eq_bind, Option.bind_some, Option.bind_eq_none_iff, reduceCtorEq, imp_false]
      exact Option.eq_none_iff_forall_ne_some.symm
    · intro s hs
      obtain ⟨⟨dup', bv'⟩, hfirst, hs⟩ := Option.bind_eq_some_iff.mp hs
      cases hfirst
      obtain ⟨⟨s', bv'⟩, hrun, hs⟩ := Option.bind_eq_some_iff.mp hs
      cases hs
      exact hloop.2 s' bv' hrun

end LynxTrace.TraceProcessor.Core
