import Mathlib.Data.List.Basic
import Mathlib.Data.List.Sort
import Mathlib.Tactic

/-!
# Base.WordBits — the set bits of a word

* `positions`, `gather` : the set bits of a mask, lowest first, and the bits of a word at them.
* `positions_cons` : `m &&& (m - 1)` drops the lowest set bit, and `m &&& -m` is that bit.
* `getLsbD_lowMask` : `(1 <<< k) - 1` has the bits below `k`.
-/

namespace LynxTrace

variable {w : ℕ}

/-- The positions of the set bits, lowest first. -/
def positions (m : BitVec w) : List ℕ := (List.range w).filter m.getLsbD

/-- The bits of `x` at the positions of `m`. -/
def gather (x m : BitVec w) : List Bool := (positions m).map x.getLsbD

theorem mem_positions {m : BitVec w} {i : ℕ} : i ∈ positions m ↔ m.getLsbD i = true := by
  simp only [positions, List.mem_filter, List.mem_range, and_iff_right_iff_imp]
  exact BitVec.lt_of_getLsbD

theorem positions_pairwise (m : BitVec w) : (positions m).Pairwise (· < ·) :=
  List.Pairwise.filter _ List.pairwise_lt_range

theorem length_positions_le (m : BitVec w) : (positions m).length ≤ w := by
  simpa [positions] using List.length_filter_le m.getLsbD (List.range w)

theorem length_gather (x m : BitVec w) : (gather x m).length = (positions m).length := List.length_map ..

theorem positions_zero : positions (0 : BitVec w) = [] := by
  simp [positions]

theorem positions_allOnes : positions (BitVec.allOnes w) = List.range w := by
  simp [positions]

/-! ### The lowest set bit -/

theorem getLsbD_and_neg (m : BitVec w) (i : ℕ) :
    (m &&& -m).getLsbD i = (m.getLsbD i && !decide (∃ j < i, m.getLsbD j = true)) := by
  rw [BitVec.getLsbD_and, BitVec.getLsbD_neg]
  by_cases hi : m.getLsbD i = true
  · rw [hi]
    simp [BitVec.lt_of_getLsbD hi]
  · simp [hi]

theorem getLsbD_and_sub_one (m : BitVec w) (i : ℕ) :
    (m &&& (m - 1#w)).getLsbD i = (m.getLsbD i && decide (∃ j < i, m.getLsbD j = true)) := by
  rw [BitVec.getLsbD_and, ← BitVec.not_neg, BitVec.getLsbD_not, BitVec.getLsbD_neg]
  by_cases hi : m.getLsbD i = true
  · rw [hi]
    simp [BitVec.lt_of_getLsbD hi]
  · simp [hi]

theorem exists_position {m : BitVec w} (hm : m ≠ 0) : ∃ low rest, positions m = low :: rest := by
  refine List.exists_cons_of_ne_nil fun hnil => hm ?_
  ext i hi
  have hnone : i ∉ positions m := by simp [hnil]
  simpa [mem_positions, BitVec.getLsbD_eq_getElem hi] using hnone

/-- **The lowest set bit** is the first position, and what is left are the others. -/
theorem positions_cons {m : BitVec w} (hm : m ≠ 0) : ∃ low, positions m = low :: positions (m &&& (m - 1#w)) ∧
    ∀ x : BitVec w, x &&& m &&& -m ≠ 0 ↔ x.getLsbD low = true := by
  obtain ⟨low, rest, hpos⟩ := exists_position hm
  have hlow : m.getLsbD low = true := mem_positions.mp (by simp [hpos])
  have hrest := List.pairwise_cons.mp (hpos ▸ positions_pairwise m)
  -- nothing is set below the first position, and it is set below all others
  have hbelow : ∀ i, m.getLsbD i = true → ((∃ j < i, m.getLsbD j = true) ↔ i ≠ low) := by
    intro i hi
    constructor
    · rintro ⟨j, hj, hset⟩ rfl
      have hmem : j ∈ i :: rest := hpos ▸ mem_positions.mpr hset
      rcases List.mem_cons.mp hmem with rfl | hmem
      · exact lt_irrefl _ hj
      · exact lt_asymm hj (hrest.1 j hmem)
    · intro hne
      have hmem : i ∈ low :: rest := hpos ▸ mem_positions.mpr hi
      exact ⟨low, hrest.1 i ((List.mem_cons.mp hmem).resolve_left hne), hlow⟩
  refine ⟨low, ?_, fun x => ?_⟩
  · have hfilter : positions (m &&& (m - 1#w)) = (positions m).filter (· ≠ low) := by
      rw [positions, positions, List.filter_filter]
      refine List.filter_congr fun i _ => ?_
      rw [getLsbD_and_sub_one]
      by_cases hi : m.getLsbD i = true
      · simp [hi, hbelow i hi]
      · simp [hi]
    rw [hfilter, hpos, List.filter_cons_of_neg (by simp), List.filter_eq_self.mpr]
    intro i hi
    simpa using (hrest.1 i hi).ne'
  · have hbit : m &&& -m = BitVec.twoPow w low := by
      ext i hi
      rw [← BitVec.getLsbD_eq_getElem, ← BitVec.getLsbD_eq_getElem, getLsbD_and_neg, BitVec.getLsbD_twoPow]
      by_cases hset : m.getLsbD i = true
      · rw [hset, Bool.true_and, decide_eq_true (BitVec.lt_of_getLsbD hlow), Bool.true_and, ← decide_not]
        exact decide_eq_decide.mpr (by rw [hbelow i hset, not_not, eq_comm])
      · have hne : low ≠ i := by
          rintro rfl
          exact hset hlow
        simp [hset, hne]
    rw [BitVec.and_assoc, hbit, BitVec.and_twoPow]
    have hlt := BitVec.lt_of_getLsbD hlow
    constructor
    · intro hne
      by_contra hunset
      simp [hunset] at hne
    · intro hset hzero
      have hself := congrArg (fun b => b.getLsbD low) hzero
      simp [hset, hlt] at hself

/-- With the lowest bit dropped a word is smaller. -/
theorem and_sub_one_lt {m : BitVec w} (hm : m ≠ 0) : (m &&& (m - 1#w)).toNat < m.toNat := by
  have hpos : 0 < m.toNat := Nat.pos_of_ne_zero fun h => hm (BitVec.eq_of_toNat_eq h)
  have hlt := m.isLt
  have hw : 1 < 2 ^ w := by omega
  have hsub : (m - 1#w).toNat = m.toNat - 1 := by
    rw [BitVec.toNat_sub, BitVec.toNat_ofNat, Nat.mod_eq_of_lt hw,
      show 2 ^ w - 1 + m.toNat = m.toNat - 1 + 2 ^ w by omega,
      Nat.add_mod_right, Nat.mod_eq_of_lt (by omega)]
  have hle : m.toNat &&& (m - 1#w).toNat ≤ (m - 1#w).toNat := Nat.and_le_right
  rw [BitVec.toNat_and]
  omega

/-! ### Masks -/

theorem getLsbD_lowMask {k : ℕ} (hk : k < w) (i : ℕ) : ((1#w <<< k) - 1#w).getLsbD i = decide (i < k) := by
  have hone : 1 < 2 ^ w := Nat.one_lt_two_pow (by omega)
  have hpow : 2 ^ k < 2 ^ w := Nat.pow_lt_pow_right (by decide) hk
  have hpos : 0 < 2 ^ k := Nat.two_pow_pos k
  have hnat : ((1#w <<< k) - 1#w).toNat = 2 ^ k - 1 := by
    rw [BitVec.toNat_sub, BitVec.toNat_shiftLeft, BitVec.toNat_ofNat, Nat.mod_eq_of_lt hone, Nat.one_shiftLeft,
      Nat.mod_eq_of_lt hpow, show 2 ^ w - 1 + 2 ^ k = 2 ^ k - 1 + 2 ^ w by omega, Nat.add_mod_right,
      Nat.mod_eq_of_lt (by omega)]
  rw [← BitVec.testBit_toNat, hnat, Nat.testBit_two_pow_sub_one]

end LynxTrace
