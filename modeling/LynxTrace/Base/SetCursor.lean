import Mathlib.Data.List.TakeWhile
import Mathlib.Data.Nat.Notation

/-!
# Base.SetCursor — an iterator into a `std::set` or a `std::map` that changes while it is walked

The elements are a list, sorted by a key.  A cursor splits it: what is before the iterator, and the element it is at
with the ones after, or nothing at the end.

* `emplace`, `emplaceTo` — `emplace_hint`, with the iterator left where it is or moved to the new element.
* `Between` — the hint is right; then both insert at the cursor.
-/

namespace LynxTrace

structure SetCursor (α : Type*) where
  before : List α
  rest : List α

namespace SetCursor

variable {α : Type*} (key : α → ℕ)

/-- Inserts an element by its key, unless one with that key is there. -/
def insertSorted (x : α) : List α → List α
  | [] => [x]
  | y :: ys => if key x < key y then x :: y :: ys else if key y < key x then y :: insertSorted x ys else y :: ys

def all (c : SetCursor α) : List α := c.before ++ c.rest

/-- `lower_bound`. -/
def lowerBound (l : List α) (k : ℕ) : SetCursor α := ⟨l.takeWhile (key · < k), l.dropWhile (key · < k)⟩

/-- `upper_bound`. -/
def upperBound (l : List α) (k : ℕ) : SetCursor α := ⟨l.takeWhile (key · ≤ k), l.dropWhile (key · ≤ k)⟩

/-- `it = erase(it)`. -/
def erase (c : SetCursor α) : SetCursor α := ⟨c.before, c.rest.tail⟩

/-- `++it`. -/
def next (c : SetCursor α) : SetCursor α := ⟨c.before ++ c.rest.take 1, c.rest.tail⟩

/-- `emplace_hint(it, x)`, whose result is not used. -/
def emplace (x : α) (c : SetCursor α) : SetCursor α :=
  match c.rest with
  | [] => ⟨insertSorted key x c.before, []⟩
  | y :: ys =>
    if key x < key y then ⟨insertSorted key x c.before, y :: ys⟩ else ⟨c.before, insertSorted key x (y :: ys)⟩

/-- `it = emplace_hint(it, x)`. -/
def emplaceTo (x : α) (c : SetCursor α) : SetCursor α := lowerBound key (insertSorted key x c.all) (key x)

/-! ### A right hint -/

/-- The key is between the elements before the cursor and the ones from it on. -/
structure Between (k : ℕ) (c : SetCursor α) : Prop where
  before : ∀ y ∈ c.before, key y < k
  rest : ∀ y ∈ c.rest, k < key y

variable {key}

theorem insertSorted_append {x : α} {l r : List α} (hl : ∀ y ∈ l, key y < key x) (hr : ∀ y ∈ r, key x < key y) :
    insertSorted key x (l ++ r) = l ++ x :: r := by
  induction l with
  | nil =>
    cases r with
    | nil => rfl
    | cons y r => rw [List.nil_append, insertSorted, if_pos (hr y (List.mem_cons_self ..))]; rfl
  | cons y l ih =>
    have hy := hl y (List.mem_cons_self ..)
    rw [List.cons_append, insertSorted, if_neg (Nat.not_lt.mpr (Nat.le_of_lt hy)), if_pos hy,
      ih fun z hz => hl z (List.mem_cons_of_mem _ hz), List.cons_append]

theorem takeWhile_append {p : α → Bool} {l r : List α} (hl : ∀ y ∈ l, p y = true) (hr : ∀ y ∈ r, p y = false) :
    (l ++ r).takeWhile p = l ∧ (l ++ r).dropWhile p = r := by
  induction l with
  | nil =>
    cases r with
    | nil => exact ⟨rfl, rfl⟩
    | cons y r => simp [hr y (List.mem_cons_self ..)]
  | cons y l ih =>
    obtain ⟨htake, hdrop⟩ := ih fun z hz => hl z (List.mem_cons_of_mem _ hz)
    simp [hl y (List.mem_cons_self ..), htake, hdrop]

theorem Between.emplace {x : α} {c : SetCursor α} (h : c.Between key (key x)) :
    c.emplace key x = ⟨c.before ++ [x], c.rest⟩ := by
  have hbefore : insertSorted key x c.before = c.before ++ [x] := by
    have hnil : ∀ y ∈ ([] : List α), key x < key y := by simp
    have happend := insertSorted_append h.before hnil
    rwa [List.append_nil] at happend
  unfold SetCursor.emplace
  cases hrest : c.rest with
  | nil =>
    dsimp only
    rw [hbefore]
  | cons y ys =>
    dsimp only
    rw [if_pos (h.rest y (hrest ▸ List.mem_cons_self ..)), hbefore]

theorem Between.emplaceTo {x : α} {c : SetCursor α} (h : c.Between key (key x)) :
    c.emplaceTo key x = ⟨c.before, x :: c.rest⟩ := by
  have hsplit : (c.before ++ x :: c.rest).takeWhile (key · < key x) = c.before ∧
      (c.before ++ x :: c.rest).dropWhile (key · < key x) = x :: c.rest := by
    refine takeWhile_append (fun y hy => decide_eq_true (h.before y hy)) fun y hy => decide_eq_false ?_
    rcases List.mem_cons.mp hy with rfl | hy
    · exact Nat.lt_irrefl _
    · exact Nat.not_lt.mpr (Nat.le_of_lt (h.rest y hy))
  unfold SetCursor.emplaceTo SetCursor.lowerBound SetCursor.all
  rw [insertSorted_append h.before h.rest, hsplit.1, hsplit.2]

/-! ### Searches -/

/-- What a search by a property splits a list into that has the elements with the property first. -/
theorem split_spec {p : α → Bool} {l : List α} (h : l.Pairwise fun a b => p b = true → p a = true) :
    l = l.takeWhile p ++ l.dropWhile p ∧ (∀ y ∈ l.takeWhile p, p y = true) ∧ ∀ y ∈ l.dropWhile p, p y = false := by
  refine ⟨List.takeWhile_append_dropWhile.symm, fun y hy => List.mem_takeWhile_imp hy, ?_⟩
  induction l with
  | nil => simp
  | cons a l ih =>
    obtain ⟨ha, hl⟩ := List.pairwise_cons.mp h
    cases hpa : p a with
    | true =>
      rw [List.dropWhile_cons_of_pos hpa]
      exact ih hl
    | false =>
      rw [List.dropWhile_cons_of_neg (by simp [hpa])]
      intro y hy
      rcases List.mem_cons.mp hy with rfl | hy
      · exact hpa
      · cases hpy : p y with
        | false => rfl
        | true => exact (ha y hy hpy).symm.trans hpa

theorem lowerBound_spec {l : List α} (h : l.Pairwise fun a b => key a < key b) (k : ℕ) :
    l = (lowerBound key l k).before ++ (lowerBound key l k).rest ∧ (∀ y ∈ (lowerBound key l k).before, key y < k) ∧
      ∀ y ∈ (lowerBound key l k).rest, k ≤ key y := by
  obtain ⟨hsplit, hbefore, hrest⟩ := @split_spec _ (key · < k) l
    (h.imp fun hab hb => decide_eq_true (Nat.lt_trans hab (of_decide_eq_true hb)))
  exact ⟨hsplit, fun y hy => of_decide_eq_true (hbefore y hy), fun y hy => Nat.not_lt.mp (of_decide_eq_false (hrest y hy))⟩

theorem upperBound_spec {l : List α} (h : l.Pairwise fun a b => key a < key b) (k : ℕ) :
    l = (upperBound key l k).before ++ (upperBound key l k).rest ∧ (∀ y ∈ (upperBound key l k).before, key y ≤ k) ∧
      ∀ y ∈ (upperBound key l k).rest, k < key y := by
  obtain ⟨hsplit, hbefore, hrest⟩ := @split_spec _ (key · ≤ k) l
    (h.imp fun hab hb => decide_eq_true (Nat.le_of_lt (Nat.lt_of_lt_of_le hab (of_decide_eq_true hb))))
  exact ⟨hsplit, fun y hy => of_decide_eq_true (hbefore y hy), fun y hy => Nat.not_le.mp (of_decide_eq_false (hrest y hy))⟩

end SetCursor

end LynxTrace
