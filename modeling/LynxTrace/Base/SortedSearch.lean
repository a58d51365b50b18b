import Mathlib.Data.List.Sort
import Mathlib.Data.List.TakeWhile

/-!
# Base.SortedSearch — `std::upper_bound` and `std::lower_bound` on sorted lists

The index a binary search returns on a sorted range is the length of the prefix of the elements that are before the
value.  `upperBound_eq` says which index that is from its two neighbours only, `lowerBound_split` what is on each side;
`partitionPoint` is the search by a predicate.
-/

namespace LynxTrace

/-- A list in transitive order stays so when an element is appended that the last one is related to. -/
theorem pairwise_concat {α : Type*} {R : α → α → Prop} (htrans : ∀ a b c, R a b → R b c → R a c) {l : List α}
    (h : l.Pairwise R) {x : α} (hx : ∀ z, l.getLast? = some z → R z x) : (l ++ [x]).Pairwise R := by
  refine List.pairwise_append.mpr ⟨h, List.pairwise_singleton _ _, fun a ha b hb => ?_⟩
  rw [List.mem_singleton.mp hb]
  rcases List.eq_nil_or_concat' l with rfl | ⟨l, z, rfl⟩
  · cases ha
  · have hzx : R z x := hx z (by simp)
    rcases List.mem_append.mp ha with ha | ha
    · exact htrans _ _ _ ((List.pairwise_append.mp h).2.2 a ha z (by simp)) hzx
    · rwa [List.mem_singleton.mp ha]

variable {α : Type*} [LinearOrder α]

/-- The index of the first element after `x`. -/
def upperBound (l : List α) (x : α) : ℕ := (l.takeWhile (· ≤ x)).length

/-- The index of the first element that is not before `x`. -/
def lowerBound (l : List α) (x : α) : ℕ := (l.takeWhile (· < x)).length

theorem upperBound_le_length (l : List α) (x : α) : upperBound l x ≤ l.length :=
  (List.takeWhile_prefix _).length_le

theorem upperBound_cons (a : α) (l : List α) (x : α) :
    upperBound (a :: l) x = if a ≤ x then upperBound l x + 1 else 0 := by
  unfold upperBound
  rw [List.takeWhile_cons]
  by_cases h : a ≤ x <;> simp [h]

/-- On a sorted list the index is the one whose element before it is at most `x` and whose element at it is not. -/
theorem upperBound_eq {l : List α} (h : l.Pairwise (· ≤ ·)) {x : α} {i : ℕ} (hi : i ≤ l.length)
    (hbefore : ∀ j (hj : j < l.length), j + 1 = i → l[j] ≤ x) (hat : ∀ hi : i < l.length, x < l[i]) :
    upperBound l x = i := by
  induction l generalizing i with
  | nil =>
    obtain rfl : i = 0 := by simpa using hi
    rfl
  | cons a l ih =>
    obtain ⟨ha, hl⟩ := List.pairwise_cons.mp h
    rw [upperBound_cons]
    cases i with
    | zero =>
      have hlt : x < a := hat (by simp)
      rw [if_neg hlt.not_ge]
    | succ i =>
      have hi' : i ≤ l.length := by simpa using hi
      have hax : a ≤ x := by
        have hprev := hbefore i (by simp; omega) rfl
        cases i with
        | zero => exact hprev
        | succ j => exact (ha _ (List.getElem_mem _)).trans hprev
      rw [if_pos hax, ih hl hi' ?_ ?_]
      · intro j hj hji
        have hprev := hbefore (j + 1) (by simpa using hj) (by omega)
        simpa using hprev
      · intro hlt
        exact hat (Nat.succ_lt_succ hlt)

theorem upperBound_before {l : List α} {x : α} {j : ℕ} (hj : j < upperBound l x) (hlt : j < l.length) : l[j] ≤ x := by
  induction l generalizing j with
  | nil => exact absurd hj (by simp [upperBound])
  | cons a l ih =>
    rw [upperBound_cons] at hj
    split_ifs at hj with ha
    · cases j with
      | zero => exact ha
      | succ j => exact ih (by omega) (Nat.lt_of_succ_lt_succ hlt)
    · omega

theorem upperBound_at {l : List α} {x : α} (h : upperBound l x < l.length) : x < l[upperBound l x] := by
  induction l with
  | nil => exact absurd h (by simp)
  | cons a l ih =>
    by_cases ha : a ≤ x
    · have hcons : upperBound (a :: l) x = upperBound l x + 1 := by rw [upperBound_cons, if_pos ha]
      have hlt : upperBound l x < l.length := by simpa [hcons] using h
      simpa only [hcons, List.getElem_cons_succ] using ih hlt
    · have hcons : upperBound (a :: l) x = 0 := by rw [upperBound_cons, if_neg ha]
      simpa only [hcons, List.getElem_cons_zero] using not_le.mp ha

/-- What a lower bound splits a list into, by the keys it is sorted by. -/
theorem lowerBound_split {β : Type*} {f : β → α} {l : List β} (h : l.Pairwise fun a b => f a ≤ f b) (x : α) :
    lowerBound (l.map f) x ≤ l.length ∧ (∀ e ∈ l.take (lowerBound (l.map f) x), f e < x) ∧
      ∀ e ∈ l.drop (lowerBound (l.map f) x), x ≤ f e := by
  unfold lowerBound
  induction l with
  | nil => simp
  | cons a l ih =>
    obtain ⟨ha, hl⟩ := List.pairwise_cons.mp h
    rw [List.map_cons, List.takeWhile_cons]
    by_cases hlt : f a < x
    · obtain ⟨hle, htake, hdrop⟩ := ih hl
      simp only [hlt, decide_true, if_true, List.length_cons, List.take_succ_cons, List.drop_succ_cons]
      refine ⟨by omega, fun e he => ?_, hdrop⟩
      rcases List.mem_cons.mp he with rfl | he
      · exact hlt
      · exact htake e he
    · have hge : x ≤ f a := not_lt.mp hlt
      simp only [hlt, decide_false, Bool.false_eq_true, if_false, List.length_nil, List.take_zero, List.drop_zero]
      refine ⟨Nat.zero_le _, by simp, fun e he => ?_⟩
      rcases List.mem_cons.mp he with rfl | he
      · exact hge
      · exact hge.trans (ha e he)

/-! ### By a predicate -/

section
variable {β : Type*} (p : β → Bool)

/-- The index of the first element of a partitioned list without the property. -/
def partitionPoint (l : List β) : ℕ := (l.takeWhile p).length

theorem partitionPoint_le_length (l : List β) : partitionPoint p l ≤ l.length := (List.takeWhile_prefix _).length_le

variable {p}

/-- The elements with the property are the ones before the partition point. -/
theorem lt_partitionPoint_iff {l : List β} (h : l.Pairwise fun a b => p b = true → p a = true) {i : ℕ} {x : β}
    (hx : l[i]? = some x) : i < partitionPoint p l ↔ p x = true := by
  unfold partitionPoint
  induction l generalizing i with
  | nil => exact absurd hx (by simp)
  | cons a l ih =>
    obtain ⟨ha, hl⟩ := List.pairwise_cons.mp h
    rw [List.takeWhile_cons]
    cases hpa : p a with
    | true =>
      rw [if_pos rfl, List.length_cons]
      cases i with
      | zero =>
        obtain rfl := Option.some.inj hx
        exact iff_of_true (Nat.succ_pos _) hpa
      | succ i => exact Nat.succ_lt_succ_iff.trans (ih hl hx)
    | false =>
      refine iff_of_false (Nat.not_lt_zero i) fun hpx => ?_
      rcases List.mem_cons.mp (List.mem_of_getElem? hx) with rfl | hmem
      · exact absurd hpx (by simp [hpa])
      · exact absurd (ha x hmem hpx) (by simp [hpa])

end

end LynxTrace
