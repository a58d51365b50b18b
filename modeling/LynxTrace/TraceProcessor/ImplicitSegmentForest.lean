import Mathlib.Algebra.Order.Ring.Nat
import Mathlib.Data.List.Induction
import Mathlib.Data.Nat.Bitwise
import Mathlib.Data.Nat.Factorization.Basic
import Mathlib.Tactic.Common
import Mathlib.Tactic.Ring

/-!
# ImplicitSegmentForest — a segment tree without pointers

`lsp`, `msp`, `push` and `query` follow `implicit_segment_forest.h`; the operation is any associative one.
-/

namespace LynxTrace.TraceProcessor.ImplicitSegmentForest

/-! ### The source -/

/-- The lowest set bit of a `uint32_t`, `x & ~(x - 1)`. -/
def lsp (x : ℕ) : ℕ := x &&& ((x - 1) ^^^ (2 ^ 32 - 1))

/-- `base::CountLeadZeros` of a `uint32_t`. -/
def countLeadZeros (x : ℕ) : ℕ := if x = 0 then 32 else 31 - x.log2

/-- The highest set bit of a `uint32_t`. -/
def msp (x : ℕ) : ℕ := 2 ^ 31 >>> countLeadZeros x

def largestPrefixInsideSkip (min max : ℕ) : ℕ := lsp (min ||| msp (max - min))

def aggNode (i offset : ℕ) : ℕ := i + offset / 2 - 1

/-- `base::CountTrailZeros` of a number of so many bits. -/
def countTrailZeros : ℕ → ℕ → ℕ
  | 0, _ => 0
  | bits + 1, x => if x % 2 = 1 then 0 else countTrailZeros bits (x / 2) + 1

variable {T : Type*} [Inhabited T] (op : T → T → T)

/-- The loop of `Push`, from a level on, for so many levels. -/
def carry : ℕ → ℕ → ℕ → List T → List T
  | 0, _, _, values => values
  | levels + 1, level, cur, values =>
    let prevHigherLevel := cur - 2 ^ level
    carry levels (level + 1) prevHigherLevel
      (values.set prevHigherLevel (op (values.getD prevHigherLevel default) (values.getD cur default)))

def push (values : List T) (v : T) : List T :=
  let values := values ++ [v]
  let len := values.length
  let levelsToIndex := countTrailZeros 64 (2 ^ 64 - 1 - len) - 1
  let values := carry op levelsToIndex 0 (len - 1) values
  values ++ [values.getD (len - 2 ^ levelsToIndex) default]

/-- The loop of `Query`, for a number of rounds. -/
def queryLoop (values : List T) (inEnd : ℕ) : ℕ → ℕ → T → T
  | 0, _, aggregated => aggregated
  | rounds + 1, i, aggregated =>
    if i < inEnd then
      let skip := largestPrefixInsideSkip i inEnd
      queryLoop values inEnd rounds (i + skip) (op aggregated (values.getD (aggNode i skip) default))
    else aggregated

/-- `Query`; a round of the loop goes on by at least one, so that there are at most as many as places. -/
def query (values : List T) (start stop : ℕ) : T :=
  let inStart := start * 2
  let inEnd := stop * 2
  let firstSkip := largestPrefixInsideSkip inStart inEnd
  queryLoop op values inEnd (inEnd - inStart) (inStart + firstSkip) (values.getD (aggNode inStart firstSkip) default)

/-! ### Bits -/

theorem lsp_two_pow_mul {k q : ℕ} (h : 2 ^ k * (2 * q + 1) < 2 ^ 32) : lsp (2 ^ k * (2 * q + 1)) = 2 ^ k := by
  have hpos := Nat.two_pow_pos k
  have hpred : 2 ^ k * (2 * q + 1) - 1 = 2 ^ k * (2 * q) + (2 ^ k - 1) := by
    rw [Nat.mul_add]
    omega
  have hk : k < 32 := by
    refine (Nat.pow_lt_pow_iff_right (show 1 < 2 by decide)).mp (Nat.lt_of_le_of_lt ?_ h)
    exact Nat.le_mul_of_pos_right _ (by omega)
  refine Nat.eq_of_testBit_eq fun i => ?_
  rw [lsp, Nat.testBit_and, Nat.testBit_xor, Nat.testBit_two_pow_sub_one, hpred,
    Nat.testBit_two_pow_mul_add (2 * q) (by omega : 2 ^ k - 1 < 2 ^ k), Nat.testBit_two_pow_mul, Nat.testBit_two_pow]
  rcases Nat.lt_trichotomy i k with hik | rfl | hik
  · simp [hik, Nat.not_le.mpr hik, Nat.ne_of_gt hik]
  · simp [hk]
  · -- above the lowest bit both numbers have the same bits
    obtain ⟨j, rfl⟩ := Nat.exists_eq_add_of_lt hik
    have hsub : k + j + 1 - k = j + 1 := by omega
    have hodd : (2 * q + 1).testBit (j + 1) = q.testBit j := by
      rw [Nat.testBit_succ]
      congr 1
      omega
    have heven : (2 * q).testBit (j + 1) = q.testBit j := by
      rw [Nat.testBit_succ]
      congr 1
      omega
    have hle : k ≤ k + j + 1 := by omega
    have hnot : ¬ k + j + 1 < k := by omega
    have hne : ¬ k = k + j + 1 := by omega
    simp only [hsub, hodd, heven, hle, hnot, hne, decide_true, decide_false, if_false, Bool.true_and]
    by_cases hbit : k + j + 1 < 32
    · simp [hbit]
    · -- a bit above the 32nd is not set in either number
      have hzero : q.testBit j = false := by
        rw [← hodd]
        refine Nat.testBit_lt_two_pow (Nat.lt_of_mul_lt_mul_left (a := 2 ^ k) ?_)
        refine Nat.lt_of_lt_of_le h ?_
        rw [← Nat.pow_add]
        exact Nat.pow_le_pow_right (by decide) (by omega)
      simp [hzero]

theorem msp_eq {x : ℕ} (hx : x ≠ 0) (h : x < 2 ^ 32) : msp x = 2 ^ x.log2 := by
  have hlog : x.log2 < 32 := (Nat.log2_lt hx).mpr h
  rw [msp, countLeadZeros, if_neg hx, Nat.shiftRight_eq_div_pow]
  refine Nat.div_eq_of_eq_mul_left (Nat.two_pow_pos _) ?_
  rw [← Nat.pow_add]
  congr 1
  omega

/-- The skip is a power of two that divides the place and does not lead past the end. -/
theorem largestPrefixInsideSkip_spec {a b : ℕ} (hab : a < b) (hb : b * 2 < 2 ^ 32) : ∃ k,
    largestPrefixInsideSkip (a * 2) (b * 2) = 2 ^ k * 2 ∧ 2 ^ k ∣ a ∧ a + 2 ^ k ≤ b := by
  have hd : b * 2 - a * 2 ≠ 0 := by omega
  have hlog : 1 ≤ (b * 2 - a * 2).log2 := (Nat.le_log2 hd).mpr (by omega)
  have hself := Nat.log2_self_le hd
  have hlt : (b * 2 - a * 2).log2 < 32 := (Nat.log2_lt hd).mpr (by omega)
  have hy : a * 2 ||| 2 ^ (b * 2 - a * 2).log2 ≠ 0 := fun h => by
    have := (Nat.or_eq_zero_iff.mp h).2
    exact absurd this (Nat.ne_of_gt (Nat.two_pow_pos _))
  have hylt : a * 2 ||| 2 ^ (b * 2 - a * 2).log2 < 2 ^ 32 :=
    Nat.or_lt_two_pow (by omega) (Nat.pow_lt_pow_right (by decide) hlt)
  obtain ⟨k, m, hodd, hm⟩ := Nat.exists_eq_two_pow_mul_odd hy
  obtain ⟨q, rfl⟩ := hodd
  have hskip : largestPrefixInsideSkip (a * 2) (b * 2) = 2 ^ k := by
    rw [largestPrefixInsideSkip, msp_eq hd (by omega), hm]
    exact lsp_two_pow_mul (hm ▸ hylt)
  -- below the lowest bit of the union neither number has a bit
  have hbits : ∀ i < k, (a * 2).testBit i = false ∧ (2 ^ (b * 2 - a * 2).log2).testBit i = false := by
    intro i hi
    have hzero : (a * 2 ||| 2 ^ (b * 2 - a * 2).log2).testBit i = false := by
      rw [hm, Nat.testBit_two_pow_mul]
      simp [Nat.not_le.mpr hi]
    rw [Nat.testBit_or, Bool.or_eq_false_iff] at hzero
    exact hzero
  have hdvd : 2 ^ k ∣ a * 2 := by
    refine Nat.dvd_of_mod_eq_zero (Nat.eq_of_testBit_eq fun i => ?_)
    rw [Nat.testBit_mod_two_pow, Nat.zero_testBit]
    by_cases hi : i < k
    · rw [(hbits i hi).1, Bool.and_false]
    · simp [hi]
  have hle : k ≤ (b * 2 - a * 2).log2 := by
    by_contra hlt'
    have := (hbits _ (Nat.not_le.mp hlt')).2
    rw [Nat.testBit_two_pow_self] at this
    cases this
  have hkpos : k ≠ 0 := by
    rintro rfl
    have hbit : (a * 2 ||| 2 ^ (b * 2 - a * 2).log2).testBit 0 = true := by
      rw [hm, Nat.testBit_zero]
      simp
    rw [Nat.testBit_or, Nat.testBit_zero, Nat.testBit_two_pow] at hbit
    have hne : ¬ (b * 2 - a * 2).log2 = 0 := by omega
    simp [hne] at hbit
  obtain ⟨k, rfl⟩ := Nat.exists_eq_succ_of_ne_zero hkpos
  refine ⟨k, by rw [hskip, Nat.pow_succ], ?_, ?_⟩
  · rw [Nat.succ_eq_add_one, Nat.pow_succ] at hdvd
    exact Nat.dvd_of_mul_dvd_mul_right (by decide) hdvd
  · have hpow : 2 ^ (k + 1) ≤ 2 ^ (b * 2 - a * 2).log2 := Nat.pow_le_pow_right (by decide) hle
    rw [Nat.pow_succ] at hpow
    omega

theorem countTrailZeros_two_pow_mul {k q bits : ℕ} (hk : k < bits) :
    countTrailZeros bits (2 ^ k * (2 * q + 1)) = k := by
  induction k generalizing bits with
  | zero =>
    obtain ⟨bits, rfl⟩ := Nat.exists_eq_succ_of_ne_zero (Nat.ne_of_gt hk)
    rw [countTrailZeros, if_pos (by omega)]
  | succ k ih =>
    obtain ⟨bits, rfl⟩ := Nat.exists_eq_succ_of_ne_zero (Nat.ne_of_gt (Nat.zero_lt_of_lt hk))
    have htwo : 2 ^ (k + 1) * (2 * q + 1) = 2 ^ k * (2 * q + 1) * 2 := by rw [Nat.pow_succ, Nat.mul_right_comm]
    rw [countTrailZeros, htwo, if_neg (by omega), Nat.mul_div_cancel _ (by decide), ih (by omega)]

/-- The level of the node that a push of the leaf `n` closes. -/
theorem levelsToIndex_eq {n k q : ℕ} (hn : n + 1 = 2 ^ k * (2 * q + 1)) (hlt : n < 2 ^ 62) :
    countTrailZeros 64 (2 ^ 64 - 1 - (2 * n + 1)) - 1 = k := by
  have hk : k < 63 := by
    refine (Nat.pow_lt_pow_iff_right (show 1 < 2 by decide)).mp (Nat.lt_of_le_of_lt (m := n + 1) ?_ (by omega))
    rw [hn]
    exact Nat.le_mul_of_pos_right _ (by omega)
  obtain ⟨j, hj⟩ := Nat.exists_eq_add_of_lt hk
  have hpow : 2 ^ 64 = 2 ^ (k + 1) * (2 * 2 ^ j) := by
    rw [← Nat.pow_succ', ← Nat.pow_add]
    congr 1
    omega
  have hq : q + 1 ≤ 2 ^ j := by
    have h62 : 2 ^ k * (2 * q + 1) < 2 ^ k * (2 * 2 ^ j) := by
      have : 2 ^ k * (2 * 2 ^ j) * 2 = 2 ^ 64 := by rw [hpow, Nat.pow_succ, Nat.mul_right_comm]
      omega
    have := Nat.lt_of_mul_lt_mul_left h62
    omega
  have heq : 2 ^ 64 - 1 - (2 * n + 1) = 2 ^ (k + 1) * (2 * (2 ^ j - (q + 1)) + 1) := by
    have hsplit : 2 ^ (k + 1) * (2 * (2 ^ j - (q + 1)) + 1) + 2 ^ (k + 1) * (2 * q + 1) = 2 ^ 64 := by
      rw [← Nat.mul_add, hpow]
      congr 1
      omega
    have hdouble : 2 ^ (k + 1) * (2 * q + 1) = 2 * (n + 1) := by rw [hn, Nat.pow_succ', Nat.mul_assoc]
    omega
  rw [heq, countTrailZeros_two_pow_mul (by omega), Nat.add_sub_cancel]

/-! ### Aggregates of ranges -/

/-- The aggregate of a list that is not empty. -/
def agg : List T → T
  | [] => default
  | x :: l => l.foldl op x

/-- The aggregate of the elements from `lo` up to `hi`. -/
def aggRange (xs : List T) (lo hi : ℕ) : T := agg op ((xs.take hi).drop lo)

variable {xs values : List T}

theorem aggRange_append_left {hi : ℕ} (ys : List T) (lo : ℕ) (h : hi ≤ xs.length) :
    aggRange op (xs ++ ys) lo hi = aggRange op xs lo hi := by
  rw [aggRange, aggRange, List.take_append_of_le_length h]

theorem aggRange_singleton {i : ℕ} {x : T} (h : xs[i]? = some x) : aggRange op xs i (i + 1) = x := by
  obtain ⟨hi, rfl⟩ := List.getElem?_eq_some_iff.mp h
  rw [aggRange, List.take_add_one, List.getElem?_eq_getElem hi, List.drop_append_of_le_length (by simp; omega)]
  rw [List.drop_eq_nil_of_le (by simp)]
  rfl

section

variable [Std.Associative op]

theorem agg_append {l₁ l₂ : List T} (h₁ : l₁ ≠ []) (h₂ : l₂ ≠ []) :
    agg op (l₁ ++ l₂) = op (agg op l₁) (agg op l₂) := by
  obtain ⟨x, l₁, rfl⟩ := List.exists_cons_of_ne_nil h₁
  obtain ⟨y, l₂, rfl⟩ := List.exists_cons_of_ne_nil h₂
  show (l₁ ++ y :: l₂).foldl op x = op (l₁.foldl op x) (l₂.foldl op y)
  rw [List.foldl_append, List.foldl_cons, List.foldl_assoc]

theorem aggRange_join {lo mid hi : ℕ} (h₁ : lo < mid) (h₂ : mid < hi) (h₃ : hi ≤ xs.length) :
    op (aggRange op xs lo mid) (aggRange op xs mid hi) = aggRange op xs lo hi := by
  have hsplit : (xs.take hi).drop lo = (xs.take mid).drop lo ++ (xs.take hi).drop mid := by
    conv_lhs => rw [← List.take_append_drop mid (xs.take hi), List.take_take, Nat.min_eq_left (Nat.le_of_lt h₂)]
    exact List.drop_append_of_le_length (by simp; omega)
  rw [aggRange, aggRange, aggRange, hsplit, agg_append op]
  · exact List.ne_nil_of_length_pos (by simp; omega)
  · exact List.ne_nil_of_length_pos (by simp; omega)

end

/-! ### The nodes -/

/-- A node, at the place before `2 ^ t * (2 * m + 1)`, holds the leaves from `m * 2 ^ t` up to `(m + 1) * 2 ^ t`, or
the first half of them while the second one is not complete. -/
structure Stores (xs values : List T) : Prop where
  length : values.length = 2 * xs.length
  full : ∀ t m i, i + 1 = 2 ^ t * (2 * m + 1) → (m + 1) * 2 ^ t ≤ xs.length →
    values[i]? = some (aggRange op xs (m * 2 ^ t) ((m + 1) * 2 ^ t))
  half : ∀ t m i, i + 1 = 2 ^ (t + 1) * (2 * m + 1) → m * 2 ^ (t + 1) + 2 ^ t ≤ xs.length →
    xs.length < (m + 1) * 2 ^ (t + 1) →
    values[i]? = some (aggRange op xs (m * 2 ^ (t + 1)) (m * 2 ^ (t + 1) + 2 ^ t))

theorem Stores.nil : Stores op ([] : List T) [] where
  length := rfl
  full t m i _ h := by
    have := Nat.two_pow_pos t
    rw [Nat.add_mul, List.length_nil] at h
    omega
  half t m i _ h _ := by
    have := Nat.two_pow_pos t
    rw [List.length_nil] at h
    omega

/-- The leaves stand at the even places. -/
theorem Stores.getElem_leaf (h : Stores op xs values) {n : ℕ} {x : T} (hx : xs[n]? = some x) :
    values[n * 2]? = some x := by
  have hn := (List.getElem?_eq_some_iff.mp hx).1
  rw [h.full 0 n (n * 2) (by omega) (by omega), Nat.pow_zero, Nat.mul_one, Nat.mul_one, aggRange_singleton op hx]

theorem two_pow_mul_odd_inj {t t' m m' : ℕ} (h : 2 ^ t * (2 * m + 1) = 2 ^ t' * (2 * m' + 1)) : t = t' ∧ m = m' := by
  have hle : ∀ {t t' m m' : ℕ}, t < t' → 2 ^ t * (2 * m + 1) ≠ 2 ^ t' * (2 * m' + 1) := by
    intro t t' m m' hlt heq
    obtain ⟨j, rfl⟩ := Nat.exists_eq_add_of_lt hlt
    have hcancel : 2 * m + 1 = 2 ^ j * (2 * m' + 1) * 2 := by
      refine Nat.eq_of_mul_eq_mul_left (Nat.two_pow_pos t) (heq.trans ?_)
      rw [Nat.add_assoc, Nat.pow_add, Nat.pow_succ]
      ring
    omega
  rcases Nat.lt_trichotomy t t' with hlt | rfl | hlt
  · exact absurd h (hle hlt)
  · have := Nat.eq_of_mul_eq_mul_left (Nat.two_pow_pos t) h
    exact ⟨rfl, by omega⟩
  · exact absurd h.symm (hle hlt)

/-- After the loop of `Push` has closed the nodes up to level `t` that end at the new leaf. -/
structure Carried (xs values : List T) (v : T) (t : ℕ) (values' : List T) : Prop where
  length : values'.length = 2 * xs.length + 1
  closed : ∀ s ≤ t, values'[2 * xs.length + 1 - 2 ^ s]? =
    some (aggRange op (xs ++ [v]) (xs.length + 1 - 2 ^ s) (xs.length + 1))
  old : ∀ i, (∀ s ≤ t, i ≠ 2 * xs.length + 1 - 2 ^ s) → values'[i]? = (values ++ [v])[i]?

variable {op} in
theorem Carried.start (h : Stores op xs values) (v : T) : Carried op xs values v 0 (values ++ [v]) := by
  refine ⟨by rw [List.length_append, h.length, List.length_singleton], fun s hs => ?_, fun i _ => rfl⟩
  obtain rfl := Nat.le_zero.mp hs
  rw [Nat.pow_zero, Nat.add_sub_cancel, Nat.add_sub_cancel, ← h.length, List.getElem?_concat_length,
    aggRange_singleton op List.getElem?_concat_length]

variable {op} in
theorem Carried.step [Std.Associative op] {values' : List T} {v : T} {t c : ℕ} (h : Stores op xs values)
    (hc : Carried op xs values v t values') (hn : xs.length + 1 = 2 ^ (t + 1) * c) :
    Carried op xs values v (t + 1) (values'.set (2 * xs.length + 1 - 2 ^ (t + 1))
      (op (values'.getD (2 * xs.length + 1 - 2 ^ (t + 1)) default)
        (values'.getD (2 * xs.length + 1 - 2 ^ t) default))) := by
  have hpow : 2 ^ (t + 1) = 2 ^ t * 2 := Nat.pow_succ 2 t
  have hpos := Nat.two_pow_pos t
  obtain ⟨m, rfl⟩ := Nat.exists_eq_succ_of_ne_zero (show c ≠ 0 by rintro rfl; omega)
  have hn' : xs.length + 1 = m * 2 ^ (t + 1) + 2 ^ (t + 1) := by rw [hn, Nat.mul_succ, Nat.mul_comm]
  have hother : ∀ s ≤ t, 2 * xs.length + 1 - 2 ^ (t + 1) ≠ 2 * xs.length + 1 - 2 ^ s := by
    intro s hs
    have := Nat.pow_le_pow_right (show 2 > 0 by decide) hs
    omega
  have hleft : values'[2 * xs.length + 1 - 2 ^ (t + 1)]? =
      some (aggRange op (xs ++ [v]) (xs.length + 1 - 2 ^ (t + 1)) (xs.length + 1 - 2 ^ t)) := by
    rw [hc.old _ hother, List.getElem?_append_left (by rw [h.length]; omega),
      h.half t m _ (by rw [Nat.mul_add, ← Nat.mul_assoc, Nat.mul_comm (2 ^ (t + 1)) 2, Nat.mul_assoc,
        Nat.mul_comm (2 ^ (t + 1)) m]; omega) (by omega) (by rw [Nat.add_mul]; omega),
      aggRange_append_left op _ _ (by omega)]
    rw [show m * 2 ^ (t + 1) = xs.length + 1 - 2 ^ (t + 1) by omega,
      show xs.length + 1 - 2 ^ (t + 1) + 2 ^ t = xs.length + 1 - 2 ^ t by omega]
  have hjoin : op (values'.getD (2 * xs.length + 1 - 2 ^ (t + 1)) default)
      (values'.getD (2 * xs.length + 1 - 2 ^ t) default) =
      aggRange op (xs ++ [v]) (xs.length + 1 - 2 ^ (t + 1)) (xs.length + 1) := by
    rw [List.getD_eq_getElem?_getD, List.getD_eq_getElem?_getD, hleft, hc.closed t (Nat.le_refl t), Option.getD_some,
      Option.getD_some]
    exact aggRange_join op (by omega) (by omega) (by simp)
  rw [hjoin]
  refine ⟨by rw [List.length_set, hc.length], fun s hs => ?_, fun i hi => ?_⟩
  · rcases Nat.le_succ_iff.mp hs with hs | rfl
    · rw [List.getElem?_set_ne (hother s hs), hc.closed s hs]
    · rw [List.getElem?_set_self (by rw [hc.length]; omega)]
  · rw [List.getElem?_set_ne (fun heq => hi (t + 1) (Nat.le_refl _) heq.symm)]
    exact hc.old i fun s hs => hi s (Nat.le_succ_of_le hs)

variable {op} in
theorem Carried.carry [Std.Associative op] {v : T} (h : Stores op xs values) {levels : ℕ} :
    ∀ {t c : ℕ} {values' : List T}, Carried op xs values v t values' → xs.length + 1 = 2 ^ (t + levels) * c →
      Carried op xs values v (t + levels)
        (ImplicitSegmentForest.carry op levels t (2 * xs.length + 1 - 2 ^ t) values') := by
  induction levels with
  | zero => exact fun hc _ => hc
  | succ levels ih =>
    intro t c values' hc hn
    have hshift : t + (levels + 1) = t + 1 + levels := by omega
    have hdvd : xs.length + 1 = 2 ^ (t + 1) * (2 ^ levels * c) := by rw [hn, hshift, Nat.pow_add, Nat.mul_assoc]
    have hprev : 2 * xs.length + 1 - 2 ^ t - 2 ^ t = 2 * xs.length + 1 - 2 ^ (t + 1) := by
      have := Nat.pow_succ 2 t
      omega
    rw [ImplicitSegmentForest.carry, hprev, hshift]
    exact ih (hc.step h hdvd) (hshift ▸ hn)

variable {op} in
/-- **A push keeps the nodes right.** -/
theorem Stores.push [Std.Associative op] (h : Stores op xs values) (v : T) (hlength : xs.length < 2 ^ 62) :
    Stores op (xs ++ [v]) (ImplicitSegmentForest.push op values v) := by
  obtain ⟨k, m, hodd, hn⟩ := Nat.exists_eq_two_pow_mul_odd (Nat.succ_ne_zero xs.length)
  obtain ⟨q, rfl⟩ := hodd
  have hk : 2 ^ k ≤ xs.length + 1 := by
    rw [← Nat.succ_eq_add_one, hn]
    exact Nat.le_mul_of_pos_right _ (by omega)
  have hc := @Carried.carry _ _ _ xs values _ v h k 0 (2 * q + 1) _ (.start h v) (by rw [Nat.zero_add]; exact hn)
  rw [Nat.zero_add, Nat.pow_zero, Nat.add_sub_cancel] at hc
  have hpush : ImplicitSegmentForest.push op values v =
      ImplicitSegmentForest.carry op k 0 (2 * xs.length) (values ++ [v]) ++
        [aggRange op (xs ++ [v]) (xs.length + 1 - 2 ^ k) (xs.length + 1)] := by
    have hlen : (values ++ [v]).length = 2 * xs.length + 1 := by rw [List.length_append, h.length]; rfl
    simp only [ImplicitSegmentForest.push, hlen, levelsToIndex_eq hn hlength, Nat.add_sub_cancel]
    rw [List.getD_eq_getElem?_getD, hc.closed k (Nat.le_refl k), Option.getD_some]
  rw [hpush]
  generalize ImplicitSegmentForest.carry op k 0 (2 * xs.length) (values ++ [v]) = closed at hc
  have hlast : ∀ i, i < 2 * xs.length + 1 → (closed ++ [aggRange op (xs ++ [v]) (xs.length + 1 - 2 ^ k)
      (xs.length + 1)])[i]? = closed[i]? := fun i hi => List.getElem?_append_left (by rw [hc.length]; exact hi)
  -- the nodes that the push closed are those that end after the new leaf
  have hclosed : ∀ {t m i}, i + 1 = 2 ^ t * (2 * m + 1) → ∀ s ≤ k, i = 2 * xs.length + 1 - 2 ^ s →
      (m + 1) * 2 ^ t = xs.length + 1 := by
    intro t m i hi s hs heq
    obtain ⟨j, rfl⟩ := Nat.exists_eq_add_of_le hs
    have hs' : 2 ^ s ≤ xs.length + 1 := Nat.le_trans (Nat.pow_le_pow_right (by decide) hs) hk
    obtain ⟨c, hc'⟩ : ∃ c, xs.length + 1 = 2 ^ s * (c + 1) := by
      refine ⟨2 ^ j * (2 * q + 1) - 1, ?_⟩
      have hpos : 0 < 2 ^ j * (2 * q + 1) := Nat.mul_pos (Nat.two_pow_pos j) (by omega)
      rw [Nat.sub_add_cancel hpos, ← Nat.mul_assoc, ← Nat.pow_add]
      exact hn
    have hnode : 2 ^ t * (2 * m + 1) = 2 ^ s * (2 * c + 1) := by
      rw [← hi, heq]
      have : 2 ^ s * (2 * c + 1) = 2 * (2 ^ s * (c + 1)) - 2 ^ s := by
        rw [show 2 * (2 ^ s * (c + 1)) = 2 ^ s * (2 * c + 1) + 2 ^ s by ring, Nat.add_sub_cancel]
      rw [this, ← hc']
      omega
    obtain ⟨rfl, rfl⟩ := two_pow_mul_odd_inj hnode
    rw [hc', Nat.mul_comm]
  refine ⟨?_, fun t m i hi hfull => ?_, fun t m i hi hhalf hopen => ?_⟩
  · rw [List.length_append, hc.length, List.length_append]
    simp only [List.length_singleton]
    omega
  · rw [List.length_append, List.length_singleton] at hfull
    have hpos := Nat.two_pow_pos t
    have hindex : i + 1 + 2 ^ t = 2 * ((m + 1) * 2 ^ t) := by rw [hi]; ring
    rw [hlast i (by omega)]
    rcases Nat.lt_or_eq_of_le hfull with hlt | heq
    · rw [hc.old i fun s hs his => absurd (hclosed hi s hs his) (Nat.ne_of_lt hlt),
        List.getElem?_append_left (by rw [h.length]; omega), h.full t m i hi (by omega),
        aggRange_append_left op _ _ (by omega)]
    · have ht : t ≤ k := by
        by_contra hkt
        obtain ⟨j, rfl⟩ := Nat.exists_eq_add_of_lt (Nat.not_le.mp hkt)
        have hcancel : 2 ^ k * (2 * q + 1) = 2 ^ k * ((m + 1) * 2 ^ j * 2) := by
          rw [← hn, Nat.succ_eq_add_one, ← heq, Nat.add_assoc, Nat.pow_add, Nat.pow_succ]
          ring
        have := Nat.eq_of_mul_eq_mul_left (Nat.two_pow_pos k) hcancel
        omega
      have := hc.closed t ht
      have hi' : i = 2 * xs.length + 1 - 2 ^ t := by omega
      rw [hi', this, heq]
      have hm : m * 2 ^ t = xs.length + 1 - 2 ^ t := by rw [← heq, Nat.add_mul]; omega
      rw [hm]
  · rw [List.length_append, List.length_singleton] at hhalf hopen
    have hpos := Nat.two_pow_pos t
    have hpow : 2 ^ (t + 1) = 2 ^ t * 2 := Nat.pow_succ 2 t
    have hindex : i + 1 = 2 * (m * 2 ^ (t + 1) + 2 ^ t) := by rw [hi, hpow]; ring
    rcases Nat.lt_or_eq_of_le hhalf with hlt | heq
    · rw [hlast i (by omega), hc.old i fun s hs his => absurd (hclosed hi s hs his) (Nat.ne_of_gt hopen),
        List.getElem?_append_left (by rw [h.length]; omega), h.half t m i hi (by omega) (by omega),
        aggRange_append_left op _ _ (by omega)]
    · -- the new node: its first half ends with the new leaf
      have hnode : 2 ^ t * (2 * m + 1) = 2 ^ k * (2 * q + 1) := by
        rw [← hn, Nat.succ_eq_add_one, ← heq, hpow]
        ring
      obtain ⟨rfl, rfl⟩ := two_pow_mul_odd_inj hnode
      have hi' : i = closed.length := by rw [hc.length]; omega
      rw [hi', List.getElem?_concat_length, heq]
      have hm : m * 2 ^ (t + 1) = xs.length + 1 - 2 ^ t := by omega
      rw [hm]

/-! ### Queries -/

variable {op} in
/-- The skip leads over a node that holds what it leads over. -/
theorem Stores.getElem_aggNode (h : Stores op xs values) {a b : ℕ} (hab : a < b) (hb : b ≤ xs.length)
    (hlt : b * 2 < 2 ^ 32) :
    ∃ k, largestPrefixInsideSkip (a * 2) (b * 2) = 2 ^ k * 2 ∧ a + 2 ^ k ≤ b ∧
      values[aggNode (a * 2) (2 ^ k * 2)]? = some (aggRange op xs a (a + 2 ^ k)) := by
  obtain ⟨k, hskip, ⟨m, rfl⟩, hend⟩ := largestPrefixInsideSkip_spec hab hlt
  have hpos := Nat.two_pow_pos k
  have hindex : aggNode (2 ^ k * m * 2) (2 ^ k * 2) + 1 = 2 ^ k * (2 * m + 1) := by
    rw [aggNode, Nat.mul_div_cancel _ (by decide), Nat.sub_add_cancel (by omega)]
    ring
  have hnode := h.full k m _ hindex (by rw [Nat.add_mul, Nat.mul_comm m]; omega)
  refine ⟨k, hskip, hend, ?_⟩
  rw [hnode, Nat.mul_comm m, Nat.add_mul, Nat.mul_comm m, Nat.one_mul]

variable {op} in
theorem Stores.getD_aggNode (h : Stores op xs values) {a b : ℕ} (hab : a < b) (hb : b ≤ xs.length)
    (hlt : b * 2 < 2 ^ 32) :
    ∃ k, largestPrefixInsideSkip (a * 2) (b * 2) = 2 ^ k * 2 ∧ a + 2 ^ k ≤ b ∧
      values.getD (aggNode (a * 2) (2 ^ k * 2)) default = aggRange op xs a (a + 2 ^ k) := by
  obtain ⟨k, hskip, hend, hnode⟩ := h.getElem_aggNode hab hb hlt
  exact ⟨k, hskip, hend, by rw [List.getD_eq_getElem?_getD, hnode, Option.getD_some]⟩

variable {op} in
theorem Stores.queryLoop [Std.Associative op] (h : Stores op xs values) {start stop : ℕ} (hstop : stop ≤ xs.length)
    (hlt : stop * 2 < 2 ^ 32) {rounds a : ℕ} (ha : start < a) (hle : a ≤ stop) (hrounds : stop * 2 - a * 2 ≤ rounds) :
    ImplicitSegmentForest.queryLoop op values (stop * 2) rounds (a * 2) (aggRange op xs start a) =
      aggRange op xs start stop := by
  induction rounds generalizing a with
  | zero =>
    obtain rfl : a = stop := by omega
    rfl
  | succ rounds ih =>
    rw [ImplicitSegmentForest.queryLoop]
    by_cases hlast : a = stop
    · rw [if_neg (by omega), hlast]
    · rw [if_pos (by omega)]
      obtain ⟨k, hskip, hend, hnode⟩ := h.getD_aggNode (Nat.lt_of_le_of_ne hle hlast) hstop hlt
      have hpos := Nat.two_pow_pos k
      simp only [hskip, hnode]
      rw [aggRange_join op ha (by omega) (by omega), ← Nat.add_mul]
      exact ih (by omega) hend (by omega)

variable {op} in
/-- **A query is the aggregate of its range.** -/
theorem Stores.query [Std.Associative op] (h : Stores op xs values) {start stop : ℕ} (hrange : start < stop)
    (hstop : stop ≤ xs.length) (hlt : stop * 2 < 2 ^ 32) :
    ImplicitSegmentForest.query op values start stop = aggRange op xs start stop := by
  obtain ⟨k, hskip, hend, hnode⟩ := h.getD_aggNode hrange hstop hlt
  have hpos := Nat.two_pow_pos k
  simp only [ImplicitSegmentForest.query, hskip, hnode]
  rw [← Nat.add_mul]
  exact h.queryLoop hstop hlt (by omega) hend (by omega)

end LynxTrace.TraceProcessor.ImplicitSegmentForest
