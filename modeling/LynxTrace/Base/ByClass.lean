import Mathlib.Data.List.Count
import Mathlib.Data.List.Flatten
import Mathlib.Data.List.Range
import Mathlib.Order.Lattice
import Mathlib.Tactic.Common

/-!
# Base.ByClass — elements put in order by a small class, and stable sorting

* `byClass` : the elements class by class, each class in its own order; `classStart` is where a class begins.
* `take_eq_byClass` : a list that has the elements of each class from there on is this one.
* `StablySorts.byClass` : what is stably sorted by the lesser key, put in order by the greater one, is stably sorted
  by both.
-/

namespace LynxTrace

variable {α β γ : Type*}

/-! ### Classes -/

/-- The elements of the classes below `size`, class by class. -/
def byClass (cls : α → ℕ) (size : ℕ) (xs : List α) : List α :=
  (List.range size).flatMap fun c => xs.filter (cls · = c)

/-- How many elements have a smaller class. -/
def classStart (cls : α → ℕ) (xs : List α) (c : ℕ) : ℕ := xs.countP (cls · < c)

variable {cls : α → ℕ} {xs : List α}

theorem byClass_succ (size : ℕ) : byClass cls (size + 1) xs = byClass cls size xs ++ xs.filter (cls · = size) := by
  rw [byClass, List.range_succ, List.flatMap_append, List.flatMap_singleton, byClass]

@[simp]
theorem classStart_zero : classStart cls xs 0 = 0 := List.countP_eq_zero.mpr fun _ _ => by simp

theorem classStart_succ (c : ℕ) : classStart cls xs (c + 1) = classStart cls xs c + (xs.filter (cls · = c)).length := by
  induction xs with
  | nil => rfl
  | cons x xs ih =>
    simp only [classStart, List.countP_cons, List.filter_cons, decide_eq_true_eq] at ih ⊢
    rcases Nat.lt_trichotomy (cls x) c with hlt | heq | hgt
    · rw [ih, if_pos (by omega), if_pos hlt, if_neg (by omega)]
      omega
    · rw [ih, if_pos (by omega), if_neg (by omega), if_pos heq, List.length_cons]
      omega
    · rw [ih, if_neg (by omega), if_neg (by omega), if_neg (by omega)]
      omega

theorem classStart_mono (cls : α → ℕ) (xs : List α) {c d : ℕ} (h : c ≤ d) : classStart cls xs c ≤ classStart cls xs d := by
  induction h with
  | refl => exact Nat.le_refl _
  | step _ ih =>
    rw [classStart_succ]
    omega

variable {size : ℕ}

theorem classStart_eq_length (h : ∀ x ∈ xs, cls x < size) : classStart cls xs size = xs.length :=
  List.countP_eq_length.mpr fun x hx => by simpa using h x hx

theorem length_byClass (size : ℕ) : (byClass cls size xs).length = classStart cls xs size := by
  induction size with
  | zero => exact classStart_zero.symm
  | succ size ih => rw [byClass_succ, List.length_append, ih, classStart_succ]

/-- Below its size, the classes begin as the greater list has them. -/
theorem take_byClass {c : ℕ} (h : c ≤ size) : (byClass cls size xs).take (classStart cls xs c) = byClass cls c xs := by
  induction h with
  | refl => rw [← length_byClass, List.take_length]
  | step h ih =>
    rw [byClass_succ, List.take_append_of_le_length (by rw [length_byClass]; exact classStart_mono _ _ h), ih]

/-- A list that has the elements of each class from the start of the class on. -/
theorem take_eq_byClass {ys : List α}
    (h : ∀ c < size, ∀ k x, (xs.filter (cls · = c))[k]? = some x → ys[classStart cls xs c + k]? = some x) :
    ys.take (classStart cls xs size) = byClass cls size xs := by
  induction size with
  | zero => rw [classStart_zero, List.take_zero, byClass, List.range_zero, List.flatMap_nil]
  | succ size ih =>
    rw [classStart_succ, List.take_add, ih fun c hc => h c (Nat.lt_succ_of_lt hc), byClass_succ]
    congr 1
    refine List.ext_getElem? fun k => ?_
    rw [List.getElem?_take, List.getElem?_drop]
    cases hk : (xs.filter (cls · = size))[k]? with
    | none => rw [if_neg (by simpa using hk)]
    | some x => rw [if_pos (List.getElem?_eq_some_iff.mp hk).1, h size (Nat.lt_succ_self _) k x hk]

theorem mem_byClass {x : α} : x ∈ byClass cls size xs ↔ x ∈ xs ∧ cls x < size := by
  simp only [byClass, List.mem_flatMap, List.mem_range, List.mem_filter, decide_eq_true_eq]
  exact ⟨fun ⟨_, hc, hx, heq⟩ => ⟨hx, heq ▸ hc⟩, fun ⟨hx, hc⟩ => ⟨_, hc, hx, rfl⟩⟩

/-- The class of an element, from its place. -/
theorem classStart_of_getElem? {i : ℕ} {x : α} (h : (byClass cls size xs)[i]? = some x) :
    classStart cls xs (cls x) ≤ i ∧ i < classStart cls xs (cls x + 1) := by
  have hx := mem_byClass.mp (List.mem_of_getElem? h)
  have hbelow : ∀ c ≤ size, i < classStart cls xs c → cls x < c := by
    intro c hc hi
    have hget : (byClass cls c xs)[i]? = some x := by rw [← take_byClass hc, List.getElem?_take, if_pos hi, h]
    exact (mem_byClass.mp (List.mem_of_getElem? hget)).2
  constructor
  · by_contra hlt
    exact absurd (hbelow (cls x) (Nat.le_of_lt hx.2) (Nat.not_le.mp hlt)) (Nat.lt_irrefl _)
  · by_contra hge
    -- from the next class on no element is of this one
    have hsplit : ∀ d, cls x + 1 ≤ d → ∀ j, (byClass cls d xs)[j]? = some x → j < classStart cls xs (cls x + 1) := by
      intro d hd
      induction hd with
      | refl =>
        intro j hj
        rw [← length_byClass]
        exact (List.getElem?_eq_some_iff.mp hj).1
      | @step d hd ih =>
        intro j hj
        rw [byClass_succ] at hj
        by_cases hjd : j < (byClass cls d xs).length
        · rw [List.getElem?_append_left hjd] at hj
          exact ih j hj
        · rw [List.getElem?_append_right (Nat.not_lt.mp hjd)] at hj
          have := (List.mem_filter.mp (List.mem_of_getElem? hj)).2
          simp only [decide_eq_true_eq] at this
          exact absurd (this ▸ hd) (Nat.not_succ_le_self _)
    exact hge (hsplit size hx.2 i h)

theorem byClass_perm (h : ∀ x ∈ xs, cls x < size) : (byClass cls size xs).Perm xs := by
  induction xs with
  | nil => rw [byClass]; simp
  | cons x xs ih =>
    have hx := h x List.mem_cons_self
    have ih := ih fun y hy => h y (List.mem_cons_of_mem _ hy)
    have hcons : ∀ s, (byClass cls s (x :: xs)).Perm ((if cls x < s then [x] else []) ++ byClass cls s xs) := by
      intro s
      induction s with
      | zero => simp [byClass]
      | succ s ihs =>
        rw [byClass_succ, byClass_succ, List.filter_cons]
        rcases Nat.lt_trichotomy (cls x) s with hlt | heq | hgt
        · rw [if_pos hlt] at ihs
          rw [if_neg (by simpa using Nat.ne_of_lt hlt), if_pos (by omega), ← List.append_assoc]
          exact ihs.append_right _
        · rw [if_neg (by omega)] at ihs
          rw [if_pos (by simpa using heq), if_pos (by omega)]
          refine (ihs.append_right _).trans ?_
          exact List.perm_middle
        · rw [if_neg (by omega)] at ihs
          rw [if_neg (by simpa using Nat.ne_of_gt hgt), if_neg (by omega), ← List.append_assoc]
          exact ihs.append_right _
    have := hcons size
    rw [if_pos hx] at this
    exact this.trans (ih.cons x)

/-- Elements of one class stay in order. -/
theorem filter_byClass {p : α → Bool} {c : ℕ} (hp : ∀ x ∈ xs, p x → cls x = c) (hc : c < size) :
    (byClass cls size xs).filter p = xs.filter p := by
  have hother : ∀ {s}, s ≠ c → xs.filter (fun x => p x && decide (cls x = s)) = [] := by
    intro s hs
    rw [List.filter_eq_nil_iff]
    intro x hx hand
    simp only [Bool.and_eq_true, decide_eq_true_eq] at hand
    exact hs (hand.2.symm.trans (hp x hx hand.1))
  have hupto : ∀ s, (byClass cls s xs).filter p = if c < s then xs.filter p else [] := by
    intro s
    induction s with
    | zero => simp [byClass]
    | succ s ih =>
      rw [byClass_succ, List.filter_append, ih, List.filter_filter]
      rcases Nat.lt_trichotomy c s with hlt | rfl | hgt
      · rw [if_pos hlt, if_pos (by omega), hother (Nat.ne_of_gt hlt), List.append_nil]
      · rw [if_neg (Nat.lt_irrefl _), if_pos (Nat.lt_succ_self _), List.nil_append]
        refine List.filter_congr fun x hx => ?_
        cases hpx : p x with
        | false => rfl
        | true => simp [hp x hx hpx]
      · rw [if_neg (by omega), if_neg (by omega), hother (Nat.ne_of_lt hgt), List.append_nil]
  rw [hupto, if_pos hc]

/-! ### Stable sorting -/

/-- The elements in the order of their keys, those of one key in the order they had. -/
structure StablySorts [LinearOrder β] (key : α → β) (xs ys : List α) : Prop where
  perm : ys.Perm xs
  sorted : ys.Pairwise (key · ≤ key ·)
  stable : ∀ b, ys.filter (key · = b) = xs.filter (key · = b)

/-- Only the keys of the elements matter. -/
theorem stable_of_mem [DecidableEq β] {f : α → β} {xs ys : List α} (hperm : ys.Perm xs)
    (h : ∀ a ∈ xs, ys.filter (f · = f a) = xs.filter (f · = f a)) (b : β) :
    ys.filter (f · = b) = xs.filter (f · = b) := by
  by_cases hex : ∃ a ∈ xs, f a = b
  · obtain ⟨a, ha, rfl⟩ := hex
    exact h a ha
  · have hnone : ∀ l : List α, (∀ x ∈ l, x ∈ xs) → l.filter (f · = b) = [] := by
      intro l hl
      rw [List.filter_eq_nil_iff]
      exact fun x hx heq => hex ⟨x, hl x hx, by simpa using heq⟩
    rw [hnone _ fun x => hperm.mem_iff.mp, hnone _ fun _ => id]

/-- **A pass by the greater key**, after the elements are stably sorted by the lesser one. -/
theorem StablySorts.byClass [LinearOrder β] [LinearOrder γ] {f : α → β} {g : α → γ} {cls : α → ℕ} {xs ys : List α}
    (h : StablySorts g xs ys) (hcls : ∀ x ∈ xs, cls x < size)
    (hle : ∀ a ∈ xs, ∀ b ∈ xs, f a ≤ f b ↔ cls a < cls b ∨ cls a = cls b ∧ g a ≤ g b) :
    StablySorts f xs (byClass cls size ys) where
  perm := (byClass_perm fun x hx => hcls x (h.perm.mem_iff.mp hx)).trans h.perm
  sorted := by
    have hmem : ∀ {c x}, x ∈ ys.filter (cls · = c) → x ∈ xs ∧ cls x = c := by
      intro c x hx
      obtain ⟨hx, hc⟩ := List.mem_filter.mp hx
      exact ⟨h.perm.mem_iff.mp hx, by simpa using hc⟩
    rw [LynxTrace.byClass, List.pairwise_flatMap]
    refine ⟨fun c _ => ?_, ?_⟩
    · refine (h.sorted.filter _).imp_of_mem fun {a b} ha hb hab => ?_
      exact (hle a (hmem ha).1 b (hmem hb).1).mpr (Or.inr ⟨(hmem ha).2.trans (hmem hb).2.symm, hab⟩)
    · refine List.pairwise_lt_range.imp fun {c d} hlt a ha b hb => ?_
      exact (hle a (hmem ha).1 b (hmem hb).1).mpr (Or.inl (by rw [(hmem ha).2, (hmem hb).2]; exact hlt))
  stable := by
    have hperm := (byClass_perm fun x hx => hcls x (h.perm.mem_iff.mp hx)).trans h.perm
    refine stable_of_mem hperm fun a ha => ?_
    have heq : ∀ x ∈ xs, f x = f a ↔ cls x = cls a ∧ g x = g a := by
      intro x hx
      rw [@le_antisymm_iff _ _ (f x), @le_antisymm_iff _ _ (g x), hle x hx a ha, hle a ha x hx]
      constructor
      · rintro ⟨hlt | ⟨hc, hg⟩, hgt | ⟨hc', hg'⟩⟩
        · omega
        · omega
        · omega
        · exact ⟨hc, hg, hg'⟩
      · exact fun ⟨hc, hg, hg'⟩ => ⟨Or.inr ⟨hc, hg⟩, Or.inr ⟨hc.symm, hg'⟩⟩
    have hsplit : ∀ l : List α, (∀ x ∈ l, x ∈ xs) →
        l.filter (f · = f a) = (l.filter (g · = g a)).filter (cls · = cls a) := by
      intro l hl
      rw [List.filter_filter]
      refine List.filter_congr fun x hx => ?_
      rw [decide_eq_decide.mpr (heq x (hl x hx)), Bool.decide_and]
    rw [filter_byClass (fun x hx hfx => ((heq x (h.perm.mem_iff.mp hx)).mp (by simpa using hfx)).1) (hcls a ha),
      hsplit _ fun x => h.perm.mem_iff.mp, h.stable, hsplit _ fun _ => id]

end LynxTrace
