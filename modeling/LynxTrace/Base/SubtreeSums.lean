import Mathlib.Algebra.BigOperators.Group.Finset.Piecewise
import Mathlib.Data.Finset.Basic
import Mathlib.Logic.Function.Basic

/-!
# Base.SubtreeSums — sums over subtrees in one pass from the last node to the first

Where parents come before their children, adding the total of each node to its parent, from the last node on, leaves in
each node the sum over itself and everything below it (`pushUp_eq_sum`).
-/

namespace LynxTrace

variable {M : Type*} [AddCommMonoid M]

/-- One node: its own value is added to its total, and that to the total of its parent. -/
def pushNode (parent : ℕ → Option ℕ) (own : ℕ → M) (node : ℕ) (totals : ℕ → M) : ℕ → M :=
  let totals := Function.update totals node (totals node + own node)
  match parent node with
  | none => totals
  | some p => Function.update totals p (totals p + totals node)

/-- The nodes below `n`, the last one first. -/
def pushUp (parent : ℕ → Option ℕ) (own : ℕ → M) : ℕ → (ℕ → M) → ℕ → M
  | 0, totals => totals
  | n + 1, totals => pushUp parent own n (pushNode parent own n totals)

/-- A relation that holds between each node and those from it down. -/
structure Descends (parent : ℕ → Option ℕ) (n : ℕ) (below : ℕ → ℕ → Prop) : Prop where
  parent_lt : ∀ d < n, ∀ p, parent d = some p → p < d
  below_iff : ∀ i < n, ∀ d < n, below i d ↔ i = d ∨ ∃ p, parent d = some p ∧ below i p

section

variable {parent : ℕ → Option ℕ} {n : ℕ} {below : ℕ → ℕ → Prop} {own : ℕ → M}

theorem Descends.pred (h : Descends parent (n + 1) below) : Descends parent n below :=
  ⟨fun d hd => h.parent_lt d (Nat.lt_succ_of_lt hd),
    fun i hi d hd => h.below_iff i (Nat.lt_succ_of_lt hi) d (Nat.lt_succ_of_lt hd)⟩

theorem Descends.le (h : Descends parent n below) {i d : ℕ} (hi : i < n) (hd : d < n) (hbelow : below i d) : i ≤ d := by
  induction d using Nat.strong_induction_on with
  | _ d ih =>
    rcases (h.below_iff i hi d hd).mp hbelow with rfl | ⟨p, hp, hbelow'⟩
    · exact Nat.le_refl _
    · have hlt := h.parent_lt d hd p hp
      exact Nat.le_of_lt (Nat.lt_of_le_of_lt (ih p hlt (Nat.lt_trans hlt hd) hbelow') hlt)

theorem pushNode_self (hparent : ∀ p, parent n = some p → p < n) (totals : ℕ → M) :
    pushNode parent own n totals n = totals n + own n := by
  unfold pushNode
  cases hp : parent n with
  | none => exact Function.update_self _ _ _
  | some p =>
    dsimp only
    rw [Function.update_of_ne (Nat.ne_of_gt (hparent p hp)), Function.update_self]

/-- The other nodes; only the parent gets something. -/
theorem pushNode_of_lt {d : ℕ} (hd : d < n) (totals : ℕ → M) :
    pushNode parent own n totals d = totals d + if parent n = some d then totals n + own n else 0 := by
  unfold pushNode
  have hne : d ≠ n := Nat.ne_of_lt hd
  cases hp : parent n with
  | none =>
    dsimp only
    rw [Function.update_of_ne hne, if_neg nofun, add_zero]
  | some p =>
    dsimp only
    by_cases hpd : p = d
    · subst hpd
      rw [Function.update_self, Function.update_of_ne hne, Function.update_self, if_pos rfl]
    · rw [Function.update_of_ne (Ne.symm hpd), Function.update_of_ne hne,
        if_neg fun h => hpd (Option.some_inj.mp h), add_zero]

theorem pushNode_of_gt (hparent : ∀ p, parent n = some p → p < n) {d : ℕ} (hd : n < d) (totals : ℕ → M) :
    pushNode parent own n totals d = totals d := by
  unfold pushNode
  have hne : d ≠ n := Nat.ne_of_gt hd
  cases hp : parent n with
  | none => exact Function.update_of_ne hne _ _
  | some p =>
    dsimp only
    rw [Function.update_of_ne (Nat.ne_of_gt (Nat.lt_trans (hparent p hp) hd)), Function.update_of_ne hne]

theorem pushUp_of_le (hparent : ∀ d < n, ∀ p, parent d = some p → p < d) {d : ℕ} (hd : n ≤ d) (totals : ℕ → M) :
    pushUp parent own n totals d = totals d := by
  induction n generalizing totals with
  | zero => rfl
  | succ n ih =>
    rw [pushUp, ih (fun d hd => hparent d (Nat.lt_succ_of_lt hd)) (Nat.le_of_succ_le hd),
      pushNode_of_gt (hparent n (Nat.lt_succ_self n)) hd]

/-- The last node adds to the totals of the nodes it is below. -/
theorem Descends.sum_pushNode [∀ i, DecidablePred (below i)] (h : Descends parent (n + 1) below) {i : ℕ} (hi : i < n) (totals : ℕ → M) :
    ∑ d ∈ (Finset.range n).filter (below i), (pushNode parent own n totals d + own d) =
      ∑ d ∈ (Finset.range (n + 1)).filter (below i), (totals d + own d) := by
  have hsplit : ∀ d ∈ (Finset.range n).filter (below i), pushNode parent own n totals d + own d =
      (totals d + own d) + if parent n = some d then totals n + own n else 0 := by
    intro d hd
    rw [pushNode_of_lt (Finset.mem_range.mp (Finset.mem_filter.mp hd).1)]
    exact add_right_comm _ _ _
  have hlast : (∑ d ∈ (Finset.range n).filter (below i), if parent n = some d then totals n + own n else 0) =
      if below i n then totals n + own n else 0 := by
    have hbelow := h.below_iff i (Nat.lt_succ_of_lt hi) n (Nat.lt_succ_self n)
    cases hp : parent n with
    | none =>
      have hnot : ¬ below i n := by
        rw [hbelow, hp]
        rintro (rfl | ⟨p, hp', -⟩)
        · exact Nat.lt_irrefl _ hi
        · cases hp'
      rw [if_neg hnot]
      exact Finset.sum_eq_zero fun d _ => if_neg nofun
    | some p =>
      have hpn := h.parent_lt n (Nat.lt_succ_self n) p hp
      have hiff : below i n ↔ below i p := by
        rw [hbelow, hp]
        constructor
        · rintro (rfl | ⟨q, hq, hbelow'⟩)
          · exact absurd hi (Nat.lt_irrefl _)
          · rwa [Option.some_inj.mp hq]
        · exact fun hbelow' => Or.inr ⟨p, rfl, hbelow'⟩
      simp only [Option.some_inj, hiff]
      rw [Finset.sum_ite_eq]
      refine if_congr ?_ rfl rfl
      rw [Finset.mem_filter, Finset.mem_range]
      exact and_iff_right hpn
  rw [Finset.sum_congr rfl hsplit, Finset.sum_add_distrib, hlast, Finset.range_add_one, Finset.filter_insert]
  split_ifs
  · have hnew : n ∉ (Finset.range n).filter (below i) := fun hmem =>
      Finset.notMem_range_self (Finset.mem_filter.mp hmem).1
    rw [Finset.sum_insert hnew, add_comm]
  · exact add_zero _

theorem pushUp_eq_sum [∀ i, DecidablePred (below i)] (h : Descends parent n below) {i : ℕ} (hi : i < n) (totals : ℕ → M) :
    pushUp parent own n totals i = ∑ d ∈ (Finset.range n).filter (below i), (totals d + own d) := by
  induction n generalizing totals with
  | zero => exact absurd hi (Nat.not_lt_zero _)
  | succ n ih =>
    rw [pushUp]
    by_cases hlast : i = n
    · subst hlast
      have honly : (Finset.range (i + 1)).filter (below i) = {i} := by
        refine Finset.ext fun d => ?_
        rw [Finset.mem_filter, Finset.mem_range, Finset.mem_singleton]
        constructor
        · rintro ⟨hd, hbelow⟩
          exact Nat.le_antisymm (Nat.le_of_lt_succ hd) (h.le hi hd hbelow)
        · rintro rfl
          exact ⟨hi, (h.below_iff d hi d hi).mpr (Or.inl rfl)⟩
      rw [pushUp_of_le h.pred.parent_lt (Nat.le_refl _), pushNode_self (h.parent_lt i hi), honly, Finset.sum_singleton]
    · have hlt : i < n := by omega
      rw [ih h.pred hlt, h.sum_pushNode hlt]

end

end LynxTrace
