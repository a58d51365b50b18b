import Mathlib.Algebra.Order.Ring.Nat
import Mathlib.Data.Fintype.EquivFin
import Mathlib.Data.Int.ModEq
import Mathlib.Data.Nat.Prime.Basic
import Mathlib.Tactic.Common
import Mathlib.Tactic.Ring

/-!
# Base.TriangularProbing — probing a table in steps that grow by one group

The triangular numbers are a permutation modulo a power of two (`triangular_inj`), so that probing groups of places at
distances 0, 1, 3, 6, … comes to every place (`exists_probe`).
-/

namespace LynxTrace

def triangular (k : ℕ) : ℕ := k * (k + 1) / 2

theorem two_mul_triangular (k : ℕ) : 2 * triangular k = k * (k + 1) :=
  Nat.mul_div_cancel' (Nat.even_mul_succ_self k).two_dvd

@[simp] theorem triangular_zero : triangular 0 = 0 := rfl

theorem triangular_succ (k : ℕ) : triangular (k + 1) = triangular k + (k + 1) := by
  have h := two_mul_triangular k
  have h' := two_mul_triangular (k + 1)
  have hexpand : (k + 1) * (k + 1 + 1) = k * (k + 1) + 2 * (k + 1) := by ring
  omega

theorem triangular_inj {n i j : ℕ} (hi : i < 2 ^ n) (hj : j < 2 ^ n)
    (h : triangular i % 2 ^ n = triangular j % 2 ^ n) : i = j := by
  -- two different ones would differ by a product whose one factor is odd and the other too small
  have hlt : ∀ {i j : ℕ}, i < j → j < 2 ^ n → triangular i % 2 ^ n ≠ triangular j % 2 ^ n := by
    intro i j hij hj heq
    have hle : triangular i ≤ triangular j := by
      have hmul : i * (i + 1) ≤ j * (j + 1) := Nat.mul_le_mul hij.le (Nat.succ_le_succ hij.le)
      have hti := two_mul_triangular i
      have htj := two_mul_triangular j
      omega
    have hdvd : 2 ^ n ∣ triangular j - triangular i := (Nat.modEq_iff_dvd' hle).mp heq
    obtain ⟨d, rfl⟩ := Nat.exists_eq_add_of_lt hij
    have hprod : 2 * (triangular (i + d + 1) - triangular i) = (d + 1) * (2 * i + d + 2) := by
      have hti := two_mul_triangular i
      have htj := two_mul_triangular (i + d + 1)
      have hexpand : (i + d + 1) * (i + d + 1 + 1) = i * (i + 1) + (d + 1) * (2 * i + d + 2) := by ring
      omega
    have hdvd' : 2 ^ (n + 1) ∣ (d + 1) * (2 * i + d + 2) := by
      rw [← hprod, Nat.pow_succ']
      exact Nat.mul_dvd_mul_left 2 hdvd
    have hpow : 2 ^ (n + 1) = 2 * 2 ^ n := Nat.pow_succ'
    rcases Nat.even_or_odd (d + 1) with heven | hodd
    · have hodd' : Odd (2 * i + d + 2) := by
        obtain ⟨e, he⟩ := heven
        exact ⟨i + e, by omega⟩
      have hcop : Nat.Coprime (2 ^ (n + 1)) (2 * i + d + 2) := (Nat.coprime_two_left.mpr hodd').pow_left _
      have := Nat.le_of_dvd (Nat.succ_pos d) (hcop.dvd_of_dvd_mul_right hdvd')
      omega
    · have hcop : Nat.Coprime (2 ^ (n + 1)) (d + 1) := (Nat.coprime_two_left.mpr hodd).pow_left _
      have := Nat.le_of_dvd (by omega) (hcop.dvd_of_dvd_mul_left hdvd')
      omega
  rcases Nat.lt_trichotomy i j with hij | heq | hji
  · exact absurd h (hlt hij hj)
  · exact heq
  · exact absurd h.symm (hlt hji hi)

theorem exists_triangular {n r : ℕ} (hr : r < 2 ^ n) : ∃ k < 2 ^ n, triangular k % 2 ^ n = r := by
  let f : Fin (2 ^ n) → Fin (2 ^ n) := fun k => ⟨triangular k % 2 ^ n, Nat.mod_lt _ (Nat.two_pow_pos n)⟩
  have hinj : Function.Injective f := fun i j hij =>
    Fin.ext (triangular_inj i.isLt j.isLt (congrArg Fin.val hij))
  obtain ⟨k, hk⟩ := Finite.injective_iff_surjective.mp hinj ⟨r, hr⟩
  exact ⟨k, k.isLt, congrArg Fin.val hk⟩

/-- **Every place is probed**: in a table of `2 ^ a` places it is in one of the first `2 ^ (a - g)` groups. -/
theorem exists_probe {a g : ℕ} (hg : g ≤ a) (start : ℕ) {place : ℕ} (hplace : place < 2 ^ a) :
    ∃ k < 2 ^ (a - g), ∃ j < 2 ^ g, (start + 2 ^ g * triangular k + j) % 2 ^ a = place := by
  have hsplit : 2 ^ a = 2 ^ g * 2 ^ (a - g) := by rw [← Nat.pow_add, Nat.add_sub_cancel' hg]
  have hpos := Nat.two_pow_pos g
  obtain ⟨d, hd, hsum⟩ : ∃ d < 2 ^ a, (start + d) % 2 ^ a = place := by
    have hstart := Nat.mod_lt start (Nat.two_pow_pos a)
    refine ⟨(place + (2 ^ a - start % 2 ^ a)) % 2 ^ a, Nat.mod_lt _ (Nat.two_pow_pos a), ?_⟩
    have hround : start % 2 ^ a + (place + (2 ^ a - start % 2 ^ a)) = place + 2 ^ a := by omega
    rw [Nat.add_mod_mod, ← Nat.mod_add_mod, hround, Nat.add_mod_right, Nat.mod_eq_of_lt hplace]
  have hr : d / 2 ^ g < 2 ^ (a - g) := by
    rw [Nat.div_lt_iff_lt_mul hpos, Nat.mul_comm, ← hsplit]
    exact hd
  obtain ⟨k, hk, htri⟩ := exists_triangular hr
  refine ⟨k, hk, d % 2 ^ g, Nat.mod_lt _ hpos, ?_⟩
  have hgroup : 2 ^ g * triangular k % 2 ^ a = 2 ^ g * (d / 2 ^ g) := by
    rw [hsplit, Nat.mul_mod_mul_left, htri]
  rw [Nat.add_assoc, Nat.add_mod, ← Nat.mod_add_mod (2 ^ g * triangular k), hgroup, Nat.div_add_mod, ← Nat.add_mod,
    hsum]

end LynxTrace
