import Mathlib.Data.List.Basic
import Mathlib.Data.List.Sort
import Mathlib.Tactic

/-!
# Base.IntrusiveTree — ordered maps as key-sorted lists

An `IntrusiveTree` is a search tree without duplicate keys; in-order it is a list of entries sorted by key.
The operations are the ones of the tree (`find`, `insert`, `remove`, `set`), over any type of values, together
with how each acts on lookups, on the order of the keys and on a sum of weights over the entries.
-/

namespace LynxTrace.IntrusiveTree

variable {α β : Type}

/-- `Find`: the value under a key. -/
def find : List (ℕ × α) → ℕ → Option α
  | [], _ => none
  | (k, a) :: m, key => if k = key then some a else find m key

/-- `Insert` of an absent key; a key that exists already is left as it is. -/
def insert : List (ℕ × α) → ℕ → α → List (ℕ × α)
  | [], key, a => [(key, a)]
  | (k, b) :: m, key, a =>
    if key < k then (key, a) :: (k, b) :: m
    else if key = k then (k, b) :: m
    else (k, b) :: insert m key a

/-- `Remove` the entry of a key. -/
def remove : List (ℕ × α) → ℕ → List (ℕ × α)
  | [], _ => []
  | (k, a) :: m, key => if k = key then m else (k, a) :: remove m key

/-- Overwrites the value of an entry in place. -/
def set : List (ℕ × α) → ℕ → α → List (ℕ × α)
  | [], _, _ => []
  | (k, a) :: m, key, b => if k = key then (k, b) :: m else (k, a) :: set m key b

/-- The keys ascend strictly. -/
def Sorted (m : List (ℕ × α)) : Prop := m.Pairwise fun a b => a.1 < b.1

/-! ### Lookups -/

@[simp] theorem find_nil (key : ℕ) : find ([] : List (ℕ × α)) key = none := rfl

theorem find_cons (k : ℕ) (a : α) (m : List (ℕ × α)) (key : ℕ) :
    find ((k, a) :: m) key = if k = key then some a else find m key := rfl

variable {m : List (ℕ × α)} {key : ℕ}

theorem find_mem {a : α} (h : find m key = some a) : (key, a) ∈ m := by
  induction m with
  | nil => simp at h
  | cons e m ih =>
    obtain ⟨k, b⟩ := e
    rw [find_cons] at h
    by_cases hk : k = key
    · rw [if_pos hk] at h
      simp_all
    · rw [if_neg hk] at h
      exact List.mem_cons_of_mem _ (ih h)

theorem find_eq_none_iff : find m key = none ↔ ∀ e ∈ m, e.1 ≠ key := by
  induction m with
  | nil => simp
  | cons e m ih =>
    obtain ⟨k, b⟩ := e
    rw [find_cons]
    by_cases hk : k = key
    · simp [hk]
    · simp [hk, ih]

theorem find_insert_self (h : find m key = none) (a : α) : find (insert m key a) key = some a := by
  induction m with
  | nil => simp [insert, find_cons]
  | cons e m ih =>
    obtain ⟨k, b⟩ := e
    rw [find_cons] at h
    by_cases hk : k = key
    · simp [hk] at h
    rw [if_neg hk] at h
    unfold insert
    split_ifs with h1 h2
    · simp [find_cons]
    · exact absurd h2.symm hk
    · rw [find_cons, if_neg hk, ih h]

theorem find_insert_ne {key' : ℕ} (hne : key ≠ key') (m : List (ℕ × α)) (a : α) :
    find (insert m key a) key' = find m key' := by
  induction m with
  | nil => simp [insert, find_cons, hne]
  | cons e m ih =>
    obtain ⟨k, b⟩ := e
    unfold insert
    split_ifs with h1 h2
    · rw [find_cons, if_neg hne]
    · rfl
    · rw [find_cons, find_cons, ih]

theorem find_set_self {a : α} (h : find m key = some a) (b : α) : find (set m key b) key = some b := by
  induction m with
  | nil => simp at h
  | cons e m ih =>
    obtain ⟨k, c⟩ := e
    rw [find_cons] at h
    unfold set
    by_cases hk : k = key
    · simp [hk, find_cons]
    · rw [if_neg hk] at h ⊢
      rw [find_cons, if_neg hk, ih h]

theorem find_set_ne {key' : ℕ} (hne : key ≠ key') (m : List (ℕ × α)) (b : α) :
    find (set m key b) key' = find m key' := by
  induction m with
  | nil => rfl
  | cons e m ih =>
    obtain ⟨k, c⟩ := e
    unfold set
    by_cases hk : k = key
    · rw [if_pos hk, find_cons, find_cons, if_neg (hk ▸ hne), if_neg (hk ▸ hne)]
    · rw [if_neg hk, find_cons, find_cons, ih]

theorem set_set (m : List (ℕ × α)) (key : ℕ) (a b : α) : set (set m key a) key b = set m key b := by
  induction m with
  | nil => rfl
  | cons e m ih =>
    obtain ⟨k, c⟩ := e
    by_cases hk : k = key
    · simp only [set, hk, if_true]
    · simp only [set, hk, if_false, ih]

theorem find_remove_ne {key' : ℕ} (hne : key ≠ key') (m : List (ℕ × α)) : find (remove m key) key' = find m key' := by
  induction m with
  | nil => rfl
  | cons e m ih =>
    obtain ⟨k, c⟩ := e
    unfold remove
    by_cases hk : k = key
    · rw [if_pos hk, find_cons, if_neg (hk ▸ hne)]
    · rw [if_neg hk, find_cons, find_cons, ih]

/-! ### Sizes and weights -/

/-- The sum of a weight over the values of the entries. -/
def weight (w : α → ℕ) (m : List (ℕ × α)) : ℕ := (m.map fun e => w e.2).sum

@[simp] theorem weight_nil (w : α → ℕ) : weight w [] = 0 := rfl

@[simp] theorem weight_cons (w : α → ℕ) (e : ℕ × α) (m : List (ℕ × α)) :
    weight w (e :: m) = w e.2 + weight w m := by simp [weight]

theorem weight_insert (w : α → ℕ) (h : find m key = none) (a : α) : weight w (insert m key a) = weight w m + w a := by
  induction m with
  | nil => simp [insert]
  | cons e m ih =>
    obtain ⟨k, b⟩ := e
    rw [find_cons] at h
    by_cases hk : k = key
    · simp [hk] at h
    rw [if_neg hk] at h
    unfold insert
    split_ifs with h1 h2
    · simp only [weight_cons]
      omega
    · exact absurd h2.symm hk
    · simp only [weight_cons, ih h]
      omega

theorem weight_insert_le (w : α → ℕ) (m : List (ℕ × α)) (key : ℕ) (a : α) :
    weight w (insert m key a) ≤ weight w m + w a := by
  induction m with
  | nil => simp [insert]
  | cons e m ih =>
    obtain ⟨k, b⟩ := e
    unfold insert
    split_ifs with h1 h2
    · simp only [weight_cons]
      omega
    · omega
    · simp only [weight_cons]
      omega

theorem weight_set (w : α → ℕ) {a : α} (h : find m key = some a) (b : α) :
    weight w (set m key b) + w a = weight w m + w b := by
  induction m with
  | nil => simp at h
  | cons e m ih =>
    obtain ⟨k, c⟩ := e
    rw [find_cons] at h
    unfold set
    by_cases hk : k = key
    · rw [if_pos hk] at h ⊢
      cases h
      simp only [weight_cons]
      omega
    · rw [if_neg hk] at h ⊢
      have hrec := ih h
      simp only [weight_cons]
      omega

theorem weight_remove (w : α → ℕ) {a : α} (h : find m key = some a) : weight w (remove m key) + w a = weight w m := by
  induction m with
  | nil => simp at h
  | cons e m ih =>
    obtain ⟨k, c⟩ := e
    rw [find_cons] at h
    unfold remove
    by_cases hk : k = key
    · rw [if_pos hk] at h ⊢
      cases h
      simp only [weight_cons]
      omega
    · rw [if_neg hk] at h ⊢
      have hrec := ih h
      simp only [weight_cons]
      omega

theorem insert_perm (h : find m key = none) (a : α) : (insert m key a).Perm ((key, a) :: m) := by
  induction m with
  | nil => exact List.Perm.refl _
  | cons e m ih =>
    obtain ⟨k, b⟩ := e
    rw [find_cons] at h
    by_cases hk : k = key
    · simp [hk] at h
    rw [if_neg hk] at h
    unfold insert
    split_ifs with h1 h2
    · exact List.Perm.refl _
    · exact absurd h2.symm hk
    · exact ((ih h).cons (k, b)).trans (List.Perm.swap _ _ _)

theorem length_insert (h : find m key = none) (a : α) : (insert m key a).length = m.length + 1 := by
  have hw := weight_insert (fun _ => 1) h a
  simpa [weight] using hw

/-! ### Order -/

theorem Sorted.nil : Sorted ([] : List (ℕ × α)) := List.Pairwise.nil

theorem mem_insert {a : α} {e : ℕ × α} (h : e ∈ insert m key a) : e = (key, a) ∨ e ∈ m := by
  induction m with
  | nil => simpa [insert] using h
  | cons x m ih =>
    obtain ⟨k, b⟩ := x
    unfold insert at h
    split_ifs at h with h1 h2
    · simpa using h
    · exact Or.inr h
    · rcases List.mem_cons.mp h with rfl | h
      · exact Or.inr (by simp)
      · rcases ih h with rfl | h
        · exact Or.inl rfl
        · exact Or.inr (List.mem_cons_of_mem _ h)

theorem Sorted.insert (hm : Sorted m) (key : ℕ) (a : α) : Sorted (IntrusiveTree.insert m key a) := by
  induction m with
  | nil => simp [IntrusiveTree.insert, Sorted]
  | cons x m ih =>
    obtain ⟨k, b⟩ := x
    obtain ⟨hhead, htail⟩ := List.pairwise_cons.mp hm
    unfold IntrusiveTree.insert
    split_ifs with h1 h2
    · refine List.pairwise_cons.mpr ⟨fun e he => ?_, hm⟩
      rcases List.mem_cons.mp he with rfl | he
      · exact h1
      · exact h1.trans (hhead e he)
    · exact hm
    · refine List.pairwise_cons.mpr ⟨fun e he => ?_, ih htail⟩
      rcases mem_insert he with rfl | he
      · show k < key
        omega
      · exact hhead e he

/-- A key that exists is not inserted again. -/
theorem Sorted.insert_of_find (hm : Sorted m) {a : α} (h : find m key = some a) (b : α) :
    IntrusiveTree.insert m key b = m := by
  induction m with
  | nil => simp at h
  | cons e m ih =>
    obtain ⟨k, c⟩ := e
    obtain ⟨hlt, hm⟩ := List.pairwise_cons.mp hm
    rw [find_cons] at h
    unfold IntrusiveTree.insert
    by_cases hk : k = key
    · rw [if_neg (by omega), if_pos hk.symm]
    · rw [if_neg hk] at h
      have hkey : k < key := hlt _ (find_mem h)
      rw [if_neg (by omega), if_neg (by omega), ih hm h]

theorem keys_set (m : List (ℕ × α)) (key : ℕ) (b : α) :
    (IntrusiveTree.set m key b).map Prod.fst = m.map Prod.fst := by
  induction m with
  | nil => rfl
  | cons x m ih =>
    obtain ⟨k, c⟩ := x
    unfold IntrusiveTree.set
    split_ifs with h
    · rfl
    · simp [ih]

theorem sorted_iff_keys (m : List (ℕ × α)) : Sorted m ↔ (m.map Prod.fst).Pairwise (· < ·) := by
  rw [List.pairwise_map]
  rfl

/-- Inserting above every key appends. -/
theorem insert_last (h : ∀ e ∈ m, e.1 < key) (a : α) : IntrusiveTree.insert m key a = m ++ [(key, a)] := by
  induction m with
  | nil => rfl
  | cons x m ih =>
    obtain ⟨k, b⟩ := x
    have hk : k < key := h (k, b) (by simp)
    unfold IntrusiveTree.insert
    rw [if_neg (by omega), if_neg (by omega), ih fun e he => h e (List.mem_cons_of_mem _ he)]
    rfl

/-- Inserting above every key that contributes to a concatenation appends to the concatenation. -/
theorem flatMap_insert_last (g : α → List β) (hs : Sorted m) (hf : find m key = none)
    (h : ∀ e ∈ m, key < e.1 → g e.2 = []) (a : α) :
    ((insert m key a).flatMap fun e => g e.2) = (m.flatMap fun e => g e.2) ++ g a := by
  induction m with
  | nil => simp [insert]
  | cons x m ih =>
    obtain ⟨k, b⟩ := x
    obtain ⟨hhead, htail⟩ := List.pairwise_cons.mp hs
    rw [find_cons] at hf
    by_cases hk : k = key
    · simp [hk] at hf
    rw [if_neg hk] at hf
    unfold insert
    split_ifs with h1 h2
    · -- the new entry comes first and nothing after it contributes
      have hnil : (((k, b) :: m).flatMap fun e => g e.2) = [] := by
        refine List.flatMap_eq_nil_iff.mpr fun e he => h e he ?_
        rcases List.mem_cons.mp he with rfl | he
        · exact h1
        · exact h1.trans (hhead e he)
      rw [List.flatMap_cons, hnil, List.append_nil, List.nil_append]
    · exact absurd h2.symm hk
    · rw [List.flatMap_cons, ih htail hf fun e he => h e (List.mem_cons_of_mem _ he), List.flatMap_cons,
        List.append_assoc]

end LynxTrace.IntrusiveTree
