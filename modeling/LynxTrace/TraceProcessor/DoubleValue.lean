import LynxTrace.TraceProcessor.Double
import Mathlib.Algebra.Order.Round
import Mathlib.Data.Int.ConditionallyCompleteOrder
import Mathlib.Data.Rat.Floor
import Mathlib.Order.Monotone.Basic
import Mathlib.Tactic.Linarith
import Mathlib.Tactic.NormNum
import Mathlib.Tactic.Positivity

/-!
# TraceProcessor.DoubleValue — the rational number that a `double` denotes
-/

namespace LynxTrace.TraceProcessor.Double

/-- The exact value of a finite number. -/
def toRat (x : Double) : ℚ := x.significand * 2 ^ x.exponent

/-- Neither a NaN nor an infinity. -/
def Finite (x : Double) : Prop := x.magnitude < kInfinity

instance (x : Double) : Decidable x.Finite := inferInstanceAs (Decidable (_ < _))

variable {x y : Double}

theorem Finite.isNaN_eq (h : x.Finite) : x.isNaN = false := decide_eq_false h.not_gt

/-! ### Conversions -/

theorem toRat_of_exponent (h : 0 ≤ x.exponent) : x.toRat = ((x.significand * 2 ^ x.exponent.toNat : ℤ) : ℚ) := by
  obtain ⟨n, hn⟩ := Int.eq_ofNat_of_zero_le h
  rw [toRat, hn]
  push_cast
  rfl

theorem toRat_of_neg_exponent (h : ¬ 0 ≤ x.exponent) :
    x.toRat = (x.significand : ℚ) / ((2 ^ (-x.exponent).toNat : ℤ) : ℚ) := by
  obtain ⟨n, hn⟩ := Int.eq_ofNat_of_zero_le (show 0 ≤ -x.exponent by omega)
  have he : x.exponent = -(n : ℤ) := by omega
  have htoNat : (-x.exponent).toNat = n := by omega
  rw [toRat, htoNat, he, zpow_neg, zpow_natCast, div_eq_mul_inv]
  push_cast
  rfl

/-- `std::floor` is the floor of the value. -/
theorem floor_eq (x : Double) : x.floor = ⌊x.toRat⌋ := by
  unfold floor
  by_cases h : 0 ≤ x.exponent
  · rw [if_pos h, toRat_of_exponent h, Int.floor_intCast]
  · rw [if_neg h, toRat_of_neg_exponent h]
    exact (Rat.floor_intCast_div_natCast x.significand (2 ^ (-x.exponent).toNat)).symm.trans (by push_cast; rfl)

/-- `std::ceil` is the ceiling of the value. -/
theorem ceil_eq (x : Double) : x.ceil = ⌈x.toRat⌉ := by
  unfold ceil
  by_cases h : 0 ≤ x.exponent
  · rw [if_pos h, toRat_of_exponent h, Int.ceil_intCast]
  · have hneg : -x.toRat = ((-x.significand : ℤ) : ℚ) / ((2 ^ (-x.exponent).toNat : ℕ) : ℚ) := by
      rw [toRat_of_neg_exponent h, ← neg_div]
      push_cast
      rfl
    have hfloor := Rat.floor_intCast_div_natCast (-x.significand) (2 ^ (-x.exponent).toNat)
    rw [if_neg h, ← neg_neg ⌈x.toRat⌉, ← Int.floor_neg, hneg, hfloor]
    push_cast
    rfl

/-- `x == trunc(x)` says that the value is an integer. -/
theorem isIntegral_iff : x.isIntegral = true ↔ x.toRat = x.floor := by
  unfold isIntegral
  rw [decide_eq_true_eq, floor_eq, ceil_eq]
  constructor
  · intro h
    refine le_antisymm ?_ (Int.floor_le _)
    rw [h]
    exact Int.le_ceil _
  · intro h
    have hceil : ⌈x.toRat⌉ = ⌈((⌊x.toRat⌋ : ℤ) : ℚ)⌉ := congrArg Int.ceil h
    rw [hceil, Int.ceil_intCast]

/-! ### Order -/

/-- The value of a magnitude, in units of the smallest positive number. -/
def units (m : ℕ) : ℕ := (if m < 2 ^ 52 then m else m % 2 ^ 52 + 2 ^ 52) * 2 ^ (max (m / 2 ^ 52) 1 - 1)

theorem div_mod_block {b r : ℕ} (q : ℕ) (hr : r < b) : (q * b + r) / b = q ∧ (q * b + r) % b = r := by
  rw [Nat.mul_comm, Nat.mul_add_div (by omega), Nat.mul_add_mod, Nat.div_eq_of_lt hr, Nat.mod_eq_of_lt hr]
  exact ⟨rfl, rfl⟩

/-- One place on, the value is larger: by one unit in the last place, also where the exponent changes. -/
theorem units_lt_succ (m : ℕ) : units m < units (m + 1) := by
  have hunits : ∀ {q r : ℕ}, r < 2 ^ 52 →
      units (q * 2 ^ 52 + r) = (if q = 0 then r else r + 2 ^ 52) * 2 ^ (max q 1 - 1) := by
    intro q r hr
    obtain ⟨hdiv, hmod⟩ := div_mod_block q hr
    unfold units
    rw [hdiv, hmod]
    cases q with
    | zero => rw [Nat.zero_mul, Nat.zero_add, if_pos hr, if_pos rfl]
    | succ q =>
      have hge : ¬ (q + 1) * 2 ^ 52 + r < 2 ^ 52 := not_lt.mpr (Nat.le_add_right_of_le (Nat.le_mul_of_pos_left _ q.succ_pos))
      rw [if_neg hge, if_neg q.succ_ne_zero]
  have hpos : ∀ q : ℕ, 0 < 2 ^ q := Nat.two_pow_pos
  obtain ⟨q, r, rfl, hr⟩ : ∃ q r, m = q * 2 ^ 52 + r ∧ r < 2 ^ 52 :=
    ⟨m / 2 ^ 52, m % 2 ^ 52, (Nat.div_add_mod' m _).symm, Nat.mod_lt _ (hpos 52)⟩
  rcases Nat.lt_or_ge (r + 1) (2 ^ 52) with hnext | hlast
  · rw [hunits hr, Nat.add_assoc, hunits hnext]
    refine Nat.mul_lt_mul_of_pos_right ?_ (hpos _)
    split_ifs
    · exact Nat.lt_succ_self r
    · exact Nat.add_lt_add_right (Nat.lt_succ_self r) _
  · have hcarry : q * 2 ^ 52 + r + 1 = (q + 1) * 2 ^ 52 + 0 := by
      have heq : r + 1 = 2 ^ 52 := Nat.le_antisymm hr hlast
      rw [Nat.add_assoc, heq, Nat.add_zero, Nat.succ_mul]
    rw [hcarry, hunits hr, hunits (hpos 52), if_neg q.succ_ne_zero]
    cases q with
    | zero => simpa using hr
    | succ q =>
      rw [if_neg q.succ_ne_zero, Nat.max_eq_left (by omega), Nat.max_eq_left (by omega), Nat.add_sub_cancel,
        Nat.add_sub_cancel, Nat.zero_add]
      calc (r + 2 ^ 52) * 2 ^ q < (2 ^ 52 + 2 ^ 52) * 2 ^ q :=
            Nat.mul_lt_mul_of_pos_right (Nat.add_lt_add_right hr _) (hpos q)
        _ = 2 ^ 52 * 2 ^ (q + 1) := by rw [← Nat.mul_two, Nat.mul_assoc, Nat.mul_comm 2, ← pow_succ]

theorem units_strictMono : StrictMono units := strictMono_nat_of_lt_succ units_lt_succ

/-- The value at a place among all numbers, in those units. -/
def unitsAt (k : ℤ) : ℤ := if k < 0 then -units k.natAbs else units k.natAbs

theorem unitsAt_strictMono : StrictMono unitsAt := by
  intro a b hab
  have hzero : units 0 = 0 := rfl
  have hmono : ∀ {m n : ℕ}, m < n → (units m : ℤ) < units n := fun h => Int.ofNat_lt.mpr (units_strictMono h)
  have hpos : ∀ {k : ℤ}, k < 0 → (0 : ℤ) < units k.natAbs := by
    intro k hk
    have hlt := hmono (show 0 < k.natAbs by omega)
    rwa [hzero] at hlt
  unfold unitsAt
  by_cases ha : a < 0
  · by_cases hb : b < 0
    · rw [if_pos ha, if_pos hb]
      exact neg_lt_neg (hmono (by omega))
    · rw [if_pos ha, if_neg hb]
      have := hpos ha
      omega
  · rw [if_neg ha, if_neg (by omega)]
    exact hmono (by omega)

theorem toRat_eq (x : Double) : x.toRat = unitsAt x.key * 2 ^ (-1074 : ℤ) := by
  have hexp : (2 : ℚ) ^ x.exponent = 2 ^ (max (x.magnitude / 2 ^ 52) 1 - 1) * 2 ^ (-1074 : ℤ) := by
    rw [exponent, ← zpow_natCast, ← zpow_add₀ (by norm_num)]
    congr 1
    omega
  have hneg : x.negative = true → x.key = -x.magnitude := fun h => by rw [key, if_pos h]
  have hpos : x.negative = false → x.key = x.magnitude := fun h => by rw [key, if_neg (by simp [h])]
  have habs : x.key.natAbs = x.magnitude := by
    cases hx : x.negative with
    | false => rw [hpos hx, Int.natAbs_natCast]
    | true => rw [hneg hx, Int.natAbs_neg, Int.natAbs_natCast]
  rw [toRat, hexp, ← mul_assoc]
  congr 1
  unfold unitsAt significand units
  rw [habs]
  cases hx : x.negative with
  | false =>
    rw [hpos hx, if_neg (Int.natCast_nonneg _).not_gt]
    push_cast
    simp
  | true =>
    rw [hneg hx]
    by_cases hzero : x.magnitude = 0
    · rw [hzero]
      simp
    · rw [if_pos (show -(x.magnitude : ℤ) < 0 by omega)]
      push_cast
      simp

theorem toRat_lt_iff : x.toRat < y.toRat ↔ x.key < y.key := by
  rw [toRat_eq, toRat_eq, mul_lt_mul_iff_of_pos_right (zpow_pos two_pos _), Int.cast_lt, unitsAt_strictMono.lt_iff_lt]

/-- `x < y` compares the values. -/
theorem lt_iff (hx : x.Finite) (hy : y.Finite) : x.lt y = true ↔ x.toRat < y.toRat := by
  rw [toRat_lt_iff, lt, hx.isNaN_eq, hy.isNaN_eq]
  simp

/-- `x <= y` compares the values. -/
theorem le_iff (hx : x.Finite) (hy : y.Finite) : x.le y = true ↔ x.toRat ≤ y.toRat := by
  rw [← not_lt, toRat_lt_iff, le, hx.isNaN_eq, hy.isNaN_eq]
  simp

/-! ### Integers -/

/-- Blocks of `2 ^ 52` magnitudes have one exponent. -/
theorem units_block {q r : ℕ} (hr : r < 2 ^ 52) : units ((q + 1) * 2 ^ 52 + r) = (r + 2 ^ 52) * 2 ^ q := by
  obtain ⟨hdiv, hmod⟩ := div_mod_block (q + 1) hr
  have hge : ¬ (q + 1) * 2 ^ 52 + r < 2 ^ 52 :=
    not_lt.mpr (Nat.le_add_right_of_le (Nat.le_mul_of_pos_left _ q.succ_pos))
  rw [units, hdiv, hmod, if_neg hge, Nat.max_eq_left (by omega), Nat.add_sub_cancel]

/-- A number of at most 53 bits is not rounded. -/
theorem units_round {m n : ℕ} (hn : n = 1074) (hm : m ≠ 0) (hlt : m < 2 ^ 53) :
    units (round m 0) = m * 2 ^ n ∧ round m 0 < 2 ^ 63 := by
  set log := m.log2 with hlog
  have hlow : 2 ^ log ≤ m := Nat.log2_self_le hm
  have hhigh : m < 2 ^ (log + 1) := Nat.lt_log2_self
  have hle : log ≤ 52 := by
    by_contra hgt
    exact absurd (hlow.trans_lt hlt) (not_lt.mpr (Nat.pow_le_pow_right (by decide) (by omega)))
  have hshift : max ((log : ℤ) - 52) (-1074 - 0) = log - 52 := by omega
  obtain ⟨r, hr, hscaled⟩ : ∃ r, r < 2 ^ 52 ∧ m * 2 ^ (52 - log) = r + 2 ^ 52 := by
    have hsplit : 2 ^ log * 2 ^ (52 - log) = 2 ^ 52 := by rw [← pow_add, Nat.add_sub_cancel' hle]
    have hge := Nat.mul_le_mul_right (2 ^ (52 - log)) hlow
    have hlt := Nat.mul_lt_mul_of_pos_right hhigh (Nat.two_pow_pos (52 - log))
    rw [pow_succ, Nat.mul_right_comm, hsplit] at hlt
    exact ⟨m * 2 ^ (52 - log) - 2 ^ 52, by omega, by omega⟩
  have hround : round m 0 = (log + 1022 + 1) * 2 ^ 52 + r := by
    unfold round
    rw [if_neg hm, ← hlog]
    dsimp only
    rw [hshift, if_pos (by omega)]
    have hneg : (-((log : ℤ) - 52)).toNat = 52 - log := by omega
    have hexp : (0 + ((log : ℤ) - 52) + 1074).toNat = log + 1022 := by omega
    rw [hneg, hexp, hscaled, min_eq_left]
    · rw [Nat.succ_mul]
      omega
    · unfold kInfinity
      omega
  refine ⟨?_, by rw [hround]; omega⟩
  rw [hround, units_block hr, ← hscaled, Nat.mul_assoc, ← pow_add]
  congr 2
  omega

theorem toRat_ofMagnitude {negative : Bool} {m : ℕ} (hm : m < 2 ^ 63) :
    (ofMagnitude negative m).toRat = (if negative then -(units m : ℤ) else units m : ℤ) * 2 ^ (-1074 : ℤ) := by
  have hbits : (ofMagnitude negative m).bits.toNat = if negative then m + 2 ^ 63 else m := by
    unfold ofMagnitude
    dsimp only
    rw [UInt64.toNat_ofNat', Nat.mod_eq_of_lt]
    split_ifs <;> omega
  have hmagnitude : (ofMagnitude negative m).magnitude = m := by
    rw [magnitude, hbits]
    split_ifs <;> omega
  have hnegative : (ofMagnitude negative m).negative = negative := by
    rw [Double.negative, hbits]
    cases negative with
    | false => exact decide_eq_false (by simpa using hm)
    | true => exact decide_eq_true (by simp)
  rw [toRat_eq, key, hnegative, hmagnitude]
  congr 2
  have hzero : units 0 = 0 := rfl
  cases negative with
  | false => simp [unitsAt]
  | true =>
    rcases Nat.eq_zero_or_pos m with rfl | hpos
    · simp [unitsAt, hzero]
    · simp [unitsAt, hpos]

/-- **Integers of up to 53 bits are exact.** -/
theorem toRat_ofInt {z : ℤ} (hmin : -2 ^ 53 ≤ z) (hmax : z ≤ 2 ^ 53) : (ofInt z).toRat = z := by
  obtain ⟨n, hn⟩ : ∃ n, n = 1074 := ⟨_, rfl⟩
  have hvalue : units (round z.natAbs 0) = z.natAbs * 2 ^ n ∧ round z.natAbs 0 < 2 ^ 63 := by
    rcases Nat.eq_zero_or_pos z.natAbs with hzero | hpos
    · rw [hzero, Nat.zero_mul]
      exact ⟨rfl, by decide⟩
    · rcases Nat.lt_or_ge z.natAbs (2 ^ 53) with hlt | hge
      · exact units_round hn (by omega) hlt
      · obtain heq : z.natAbs = 2 ^ 53 := by omega
        have hround : round (2 ^ 53) 0 = (1075 + 1) * 2 ^ 52 + 0 := by decide
        have hexp : 52 + 1075 = 53 + n := by omega
        rw [heq]
        refine ⟨?_, by rw [hround]; decide⟩
        rw [hround, units_block (by decide), Nat.zero_add, ← pow_add, ← pow_add, hexp]
  have hscale : (2 : ℚ) ^ n * 2 ^ (-1074 : ℤ) = 1 := by
    rw [← zpow_natCast, ← zpow_add₀ (by norm_num), hn]
    norm_num
  have hsign : (if (decide (z < 0)) = true then -((z.natAbs * 2 ^ n : ℕ) : ℤ) else ((z.natAbs * 2 ^ n : ℕ) : ℤ)) =
      z * 2 ^ n := by
    by_cases hneg : z < 0
    · simp [hneg, abs_of_neg hneg]
    · simp [hneg, abs_of_nonneg (not_lt.mp hneg)]
  rw [ofInt, toRat_ofMagnitude hvalue.2, hvalue.1, hsign, Int.cast_mul, mul_assoc, Int.cast_pow, Int.cast_ofNat, hscale,
    mul_one]

end LynxTrace.TraceProcessor.Double
