import LynxTrace.Core.TreeState
import Mathlib.Data.List.Range

/-!
# Core.TreeLayout — the arrays of the tree operations

The parent-to-children arrays hold the children of each node (`buildP2C_childrenOf`), renumbering counts the nodes
kept before (`numberKept_eq`), compacting in place puts the kept elements side by side (`getElem?_compactInPlace`).
-/

namespace LynxTrace.TraceProcessor.Core

theorem foldl_update {α : Type*} (g : ℕ → α) (c : ℕ) : ∀ (l : List ℕ) (a : ℕ → α),
    l.foldl (fun a i => Function.update a i (g i)) a c = if c ∈ l then g c else a c
  | [], a => by simp
  | i :: l, a => by
    rw [List.foldl_cons, foldl_update g c l]
    by_cases hl : c ∈ l
    · simp [hl]
    · by_cases hi : c = i
      · subst hi
        simp [hl]
      · simp [hl, hi]

theorem keepBits_eq (indices : List ℕ) (i : ℕ) : keepBits indices i = decide (i ∈ indices) := by
  rw [keepBits, foldl_update]
  by_cases h : i ∈ indices <;> simp [h]

/-! ### Children -/

/-- The nodes below `n` with a given parent, in order. -/
def kids (parent : ℕ → ℕ) (n p : ℕ) : List ℕ := (List.range n).filter fun i => parent i = p

section Kids

variable {parent : ℕ → ℕ}

theorem kids_succ (n p : ℕ) : kids parent (n + 1) p = kids parent n p ++ if parent n = p then [n] else [] := by
  rw [kids, List.range_succ, List.filter_append]
  by_cases h : parent n = p <;> simp [kids, h]

theorem mem_kids {n p i : ℕ} : i ∈ kids parent n p ↔ i < n ∧ parent i = p := by
  simp [kids]

theorem kids_length_le (parent : ℕ → ℕ) {i n : ℕ} (h : i ≤ n) (p : ℕ) : (kids parent i p).length ≤ (kids parent n p).length := by
  refine ((List.Sublist.filter _ ?_)).length_le
  exact List.range_sublist.mpr h

theorem childCounts_eq (n : ℕ) {p : ℕ} (hp : p ≠ kNullParent) :
    childCounts n parent p = (kids parent n p).length := by
  induction n with
  | zero => rfl
  | succ n ih =>
    have hstep : childCounts (n + 1) parent =
        if parent n = kNullParent then childCounts n parent
        else Function.update (childCounts n parent) (parent n) (childCounts n parent (parent n) + 1) := by
      rw [childCounts, List.range_succ, List.foldl_append]
      rfl
    rw [hstep, kids_succ]
    by_cases hn : parent n = p
    · subst hn
      simp [hp, ih]
    · by_cases hroot : parent n = kNullParent
      · simp [hroot, hp.symm, ih]
      · simp [hroot, hn, Ne.symm hn, ih]

theorem prefixSums_mono (counts : ℕ → ℕ) {i j : ℕ} (h : i ≤ j) : prefixSums counts i ≤ prefixSums counts j := by
  induction j, h using Nat.le_induction with
  | base => exact le_rfl
  | succ j _ ih => exact ih.trans (Nat.le_add_right _ _)

/-- The arrays when the nodes below `i` have been entered. -/
structure Filled (parent : ℕ → ℕ) (n : ℕ) (offsets : ℕ → ℕ) (i : ℕ) (s : FillState) : Prop where
  roots : s.roots = kids parent i kNullParent
  counts : ∀ p < n, s.counts p + (kids parent i p).length = (kids parent n p).length
  children : ∀ p < n, ∀ k c, (kids parent i p)[k]? = some c → s.children (offsets p + k) = c

theorem Filled.step {n i : ℕ} {counts : ℕ → ℕ} {s : FillState} (hn : n ≤ kNullParent)
    (hparent : ∀ i < n, parent i = kNullParent ∨ parent i < n)
    (hcounts : ∀ p < n, counts p = (kids parent n p).length)
    (I : Filled parent n (prefixSums counts) i s) (hi : i < n) :
    Filled parent n (prefixSums counts) (i + 1) (fillStep parent (prefixSums counts) s i) := by
  by_cases hroot : parent i = kNullParent
  · have hother : ∀ p < n, kids parent (i + 1) p = kids parent i p := fun p hp => by
      rw [kids_succ, if_neg (by omega), List.append_nil]
    rw [fillStep, if_pos hroot]
    refine ⟨?_, ?_, ?_⟩
    · rw [kids_succ, if_pos hroot, ← I.roots]
    · intro p hp
      rw [hother p hp]
      exact I.counts p hp
    · intro p hp
      rw [hother p hp]
      exact I.children p hp
  · have hq : parent i < n := (hparent i hi).resolve_left hroot
    have hlen : (kids parent i (parent i)).length < (kids parent n (parent i)).length := by
      have := kids_length_le parent (Nat.succ_le_of_lt hi) (parent i)
      rw [Nat.succ_eq_add_one, kids_succ, if_pos rfl, List.length_append, List.length_singleton] at this
      omega
    have hcount := I.counts _ hq
    -- the next free place of the parent is behind the children it has so far
    have hpos : prefixSums counts (parent i + 1) - s.counts (parent i) =
        prefixSums counts (parent i) + (kids parent i (parent i)).length := by
      have hsum : prefixSums counts (parent i + 1) = prefixSums counts (parent i) + counts (parent i) := rfl
      rw [hsum, hcounts _ hq]
      omega
    rw [fillStep, if_neg hroot]
    refine ⟨?_, ?_, ?_⟩
    · rw [kids_succ, if_neg hroot, List.append_nil]
      exact I.roots
    · intro p hp
      by_cases hpq : p = parent i
      · subst hpq
        simp only [Function.update_self]
        rw [kids_succ, if_pos rfl, List.length_append, List.length_singleton]
        omega
      · simp only [ne_eq, hpq, not_false_eq_true, Function.update_of_ne]
        rw [kids_succ, if_neg (Ne.symm hpq), List.append_nil]
        exact I.counts p hp
    · intro p hp k c hk
      simp only [hpos]
      by_cases hpq : p = parent i
      · subst hpq
        rw [kids_succ, if_pos rfl] at hk
        rcases Nat.lt_or_ge k (kids parent i (parent i)).length with hlt | hge
        · rw [List.getElem?_append_left hlt] at hk
          rw [Function.update_of_ne (by omega)]
          exact I.children _ hp k c hk
        · rw [List.getElem?_append_right hge, List.getElem?_singleton] at hk
          split at hk
          · rw [Option.some_inj] at hk
            rw [show k = (kids parent i (parent i)).length by omega, Function.update_self, hk]
          · cases hk
      · rw [kids_succ, if_neg (Ne.symm hpq), List.append_nil] at hk
        have hklt := (List.getElem?_eq_some_iff.mp hk).1
        have hkp := kids_length_le parent hi.le p
        have hsum : ∀ q < n, prefixSums counts (q + 1) = prefixSums counts q + (kids parent n q).length :=
          fun q hq => by rw [← hcounts q hq]; rfl
        have hsp := hsum p hp
        have hsq := hsum _ hq
        rw [Function.update_of_ne]
        · exact I.children p hp k c hk
        · rcases Nat.lt_or_gt_of_ne hpq with hlt | hgt
          · have := prefixSums_mono counts (Nat.succ_le_of_lt hlt)
            rw [Nat.succ_eq_add_one] at this
            omega
          · have := prefixSums_mono counts (Nat.succ_le_of_lt hgt)
            rw [Nat.succ_eq_add_one] at this
            omega

/-- **The parent-to-children arrays.**  The roots, and for each node its children. -/
theorem buildP2C_spec {n : ℕ} (hn : n ≤ kNullParent) (hparent : ∀ i < n, parent i = kNullParent ∨ parent i < n) :
    (buildP2C n parent).roots = kids parent n kNullParent ∧
      ∀ p < n, (buildP2C n parent).childrenOf p = kids parent n p := by
  have hcounts : ∀ p < n, childCounts n parent p = (kids parent n p).length := fun p hp =>
    childCounts_eq n (by omega)
  have hfill : ∀ i ≤ n, Filled parent n (prefixSums (childCounts n parent)) i
      ((List.range i).foldl (fillStep parent (prefixSums (childCounts n parent)))
        ⟨fun _ => 0, childCounts n parent, []⟩) := by
    intro i
    induction i with
    | zero =>
      intro _
      refine ⟨rfl, fun p hp => ?_, fun p hp k c hk => ?_⟩
      · simpa [kids] using hcounts p hp
      · simp [kids] at hk
    | succ i ih =>
      intro hi
      rw [List.range_succ, List.foldl_append]
      exact (ih (by omega)).step hn hparent hcounts (by omega)
  have I := hfill n le_rfl
  refine ⟨I.roots, fun p hp => ?_⟩
  have hlen : prefixSums (childCounts n parent) (p + 1) - prefixSums (childCounts n parent) p =
      (kids parent n p).length := by
    have hsum : prefixSums (childCounts n parent) (p + 1) =
        prefixSums (childCounts n parent) p + childCounts n parent p := rfl
    rw [hsum, hcounts p hp]
    omega
  refine List.ext_getElem? fun k => ?_
  rw [P2C.childrenOf, List.getElem?_map]
  rcases hk : (kids parent n p)[k]? with _ | c
  · have hge := List.getElem?_eq_none_iff.mp hk
    rw [List.getElem?_eq_none_iff.mpr (by rw [List.length_range']; exact hlen.trans_le hge)]
    rfl
  · have hlt := (List.getElem?_eq_some_iff.mp hk).1
    have hget : (List.range' ((buildP2C n parent).offsets p)
        ((buildP2C n parent).offsets (p + 1) - (buildP2C n parent).offsets p))[k]? =
        some ((buildP2C n parent).offsets p + k) := by
      rw [List.getElem?_range' (by exact hlen ▸ hlt)]
      simp
    rw [hget, Option.map_some]
    exact congrArg some (I.children p hp k c hk)

end Kids

/-! ### Renumbering and compaction -/

section Compact

variable (keep : ℕ → Bool)

/-- The indices below `n` that are kept. -/
def keptBelow (n : ℕ) : List ℕ := (List.range n).filter keep

theorem keptBelow_succ (n : ℕ) : keptBelow keep (n + 1) = keptBelow keep n ++ if keep n then [n] else [] := by
  rw [keptBelow, List.range_succ, List.filter_append]
  by_cases h : keep n <;> simp [keptBelow, h]

variable {keep}

theorem mem_keptBelow {n i : ℕ} : i ∈ keptBelow keep n ↔ i < n ∧ keep i := by
  simp [keptBelow]

theorem keptBelow_length_le (keep : ℕ → Bool) (n : ℕ) : (keptBelow keep n).length ≤ n :=
  (List.length_filter_le _ _).trans_eq List.length_range

/-- The place of a kept index among the kept ones. -/
theorem getElem?_keptBelow {n i : ℕ} (hi : i < n) (hkeep : keep i) :
    (keptBelow keep n)[(keptBelow keep i).length]? = some i := by
  induction n, hi using Nat.le_induction with
  | base => simp [keptBelow_succ, hkeep]
  | succ n _ ih =>
    rw [keptBelow_succ, List.getElem?_append_left (List.getElem?_eq_some_iff.mp ih).1]
    exact ih

theorem numberKept_eq (n : ℕ) :
    numberKept keep n =
      ((keptBelow keep n).length, fun i => if i < n ∧ keep i then (keptBelow keep i).length else kNullParent) := by
  induction n with
  | zero => simp [numberKept, keptBelow]
  | succ n ih =>
    have hstep : numberKept keep (n + 1) =
        if keep n then ((numberKept keep n).1 + 1, Function.update (numberKept keep n).2 n (numberKept keep n).1)
        else numberKept keep n := by
      rw [numberKept, List.range_succ, List.foldl_append]
      rfl
    rw [hstep, ih, keptBelow_succ]
    by_cases hn : keep n
    · simp only [hn, if_true, List.length_append, List.length_singleton, Prod.mk.injEq, true_and]
      funext i
      by_cases hi : i = n
      · subst hi
        simp [hn]
      · rw [Function.update_of_ne hi]
        simp only [show i < n + 1 ↔ i < n by omega]
    · simp only [hn, Bool.false_eq_true, if_false, List.append_nil, Prod.mk.injEq, true_and]
      funext i
      by_cases hi : i = n
      · subst hi
        simp [hn]
      · simp only [show i < n + 1 ↔ i < n by omega]

/-- **Compaction in place** reads every element before it is overwritten: an index never moves up. -/
theorem compactInPlace_spec {α : Type} (f : α → α) {oldToNew : ℕ → ℕ} (data : List α) :
    ∀ {n : ℕ}, (∀ i < n, keep i → oldToNew i = (keptBelow keep i).length) → n ≤ data.length →
      (compactInPlace keep oldToNew f n data).length = data.length ∧
      (∀ k i : ℕ, (keptBelow keep n)[k]? = some i →
        (compactInPlace keep oldToNew f n data)[k]? = (data[i]?).map f) ∧
      ∀ j, n ≤ j → (compactInPlace keep oldToNew f n data)[j]? = data[j]?
  | 0, _, _ => ⟨rfl, fun k i hk => by simp [keptBelow] at hk, fun _ _ => rfl⟩
  | n + 1, hnew, hlen => by
    obtain ⟨ihlen, ihkept, ihrest⟩ := compactInPlace_spec f data
      (fun i hi => hnew i (by omega)) (by omega : n ≤ data.length)
    obtain ⟨x, hx⟩ : ∃ x, data[n]? = some x := ⟨_, List.getElem?_eq_getElem (by omega)⟩
    have hstep : compactInPlace keep oldToNew f (n + 1) data =
        if keep n then (compactInPlace keep oldToNew f n data).set (oldToNew n) (f x)
        else compactInPlace keep oldToNew f n data := by
      have hn := (ihrest n le_rfl).trans hx
      rw [compactInPlace] at hn ⊢
      rw [List.range_succ, List.foldl_append]
      simp only [List.foldl_cons, List.foldl_nil, hn, compactInPlace]
    rw [hstep, keptBelow_succ]
    by_cases hkeep : keep n
    · have hold := hnew n (by omega) hkeep
      have hle := keptBelow_length_le keep n
      simp only [hkeep, if_true, hold]
      refine ⟨by rw [List.length_set, ihlen], fun k i hk => ?_, fun j hj => ?_⟩
      · rcases Nat.lt_or_ge k (keptBelow keep n).length with hlt | hge
        · rw [List.getElem?_append_left hlt] at hk
          rw [List.getElem?_set_ne (by omega)]
          exact ihkept k i hk
        · rw [List.getElem?_append_right hge, List.getElem?_singleton] at hk
          split at hk
          · rw [Option.some_inj] at hk
            subst hk
            rw [show k = (keptBelow keep n).length by omega, List.getElem?_set_self (by omega), hx]
            rfl
          · cases hk
      · rw [List.getElem?_set_ne (by omega)]
        exact ihrest j (by omega)
    · simp only [hkeep, Bool.false_eq_true, if_false, List.append_nil]
      exact ⟨ihlen, ihkept, fun j hj => ihrest j (by omega)⟩

theorem compactBits_eq (bits : List Bool) :
    compactBits keep bits = (keptBelow keep bits.length).filterMap (bits[·]?) := by
  induction bits using List.reverseRecOn with
  | nil => rfl
  | append_singleton bits b ih =>
    have hsame : (keptBelow keep bits.length).filterMap ((bits ++ [b])[·]?) =
        (keptBelow keep bits.length).filterMap (bits[·]?) := by
      refine List.filterMap_congr fun i hi => ?_
      rw [List.getElem?_append_left (mem_keptBelow.mp hi).1]
    rw [List.length_append, List.length_singleton, keptBelow_succ, List.filterMap_append, hsame, ← ih, compactBits,
      List.zipIdx_append, List.filter_append, List.map_append]
    by_cases hkeep : keep bits.length <;> simp [compactBits, hkeep]

end Compact

end LynxTrace.TraceProcessor.Core
