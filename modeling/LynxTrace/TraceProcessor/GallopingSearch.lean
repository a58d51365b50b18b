import Mathlib.Algebra.Order.Ring.Int
import Mathlib.Data.List.Forall2
import Mathlib.Data.List.GetD
import Mathlib.Tactic.Common

/-!
# GallopingSearch — lower bounds of many keys in a sorted array

`lowerBound`, `gallopForward` and `batchedLowerBound` follow `galloping_search.h`.
-/

namespace LynxTrace.TraceProcessor.GallopingSearch

/-! ### The source -/

def kLinearScanThreshold : ℕ := 16

/-- The binary search of `LowerBound`; a round makes the range smaller. -/
def bisect (data : List Int64) (key : Int64) : ℕ → ℕ → ℕ → Option (ℕ × ℕ)
  | 0, lo, hi => some (lo, hi)
  | rounds + 1, lo, hi =>
    if kLinearScanThreshold < hi - lo then
      let mid := lo + (hi - lo) / 2
      data[mid]?.bind fun v => if v < key then bisect data key rounds (mid + 1) hi else bisect data key rounds lo mid
    else some (lo, hi)

/-- The linear scan of `LowerBound`. -/
def scan (data : List Int64) (key : Int64) (hi : ℕ) : ℕ → ℕ → Option ℕ
  | 0, lo => some lo
  | rounds + 1, lo =>
    if lo < hi then data[lo]?.bind fun v => if v < key then scan data key hi rounds (lo + 1) else some lo
    else some lo

/-- `none` is a read outside the array. -/
def lowerBound (data : List Int64) (lo hi : ℕ) (key : Int64) : Option ℕ :=
  (bisect data key (hi - lo) lo hi).bind fun (lo, hi) => scan data key hi (hi - lo) lo

/-- The loop of `GallopForward`: the step and the last element seen before the key.  The step is a `uint32_t` that
doubles; after 32 rounds it is 0 and the loop goes on for ever. -/
def gallop (data : List Int64) (key : Int64) (pos : ℕ) : ℕ → ℕ → ℕ → Option (ℕ × ℕ)
  | 0, _, _ => none
  | rounds + 1, step, prev =>
    let next := (pos + step) % 2 ^ 32
    if next < data.length ∧ data.getD next 0 < key then gallop data key pos rounds (step * 2 % 2 ^ 32) next
    else some (step, prev)

def gallopForward (data : List Int64) (pos : ℕ) (key : Int64) : Option ℕ :=
  if data.length ≤ pos ∨ key ≤ data.getD pos 0 then some pos
  else
    (gallop data key pos 33 kLinearScanThreshold pos).bind fun (step, prev) =>
      lowerBound data (prev + 1)
        (if data.length < (pos + step + 1) % 2 ^ 32 then data.length else (pos + step + 1) % 2 ^ 32) key

/-- The keys after the first one. -/
def gallopAll (data : List Int64) (pos : ℕ) : List Int64 → Option (List ℕ)
  | [] => some []
  | key :: keys =>
    match gallopForward data pos key with
    | none => none
    | some pos => (gallopAll data pos keys).map (pos :: ·)

/-- The results written for the first `numKeys` of the keys; where there is data, the first key is always read. -/
def batchedLowerBound (data : List Int64) (keys : List Int64) (numKeys : ℕ) : Option (List ℕ) :=
  if data.length = 0 then some (List.replicate numKeys 0)
  else
    match keys with
    | [] => none
    | key :: keys =>
      (lowerBound data 0 data.length key).bind fun pos =>
        (gallopAll data pos (keys.take (numKeys - 1))).map (pos :: ·)

/-! ### Lower bounds -/

/-- All elements before `pos` are below the key, the others are not. -/
structure IsLowerBound (data : List Int64) (key : Int64) (pos : ℕ) : Prop where
  le_length : pos ≤ data.length
  before : ∀ i < pos, data.getD i 0 < key
  after : ∀ i, pos ≤ i → i < data.length → key ≤ data.getD i 0

/-- What a search between `lo` and `hi` knows. -/
structure Between (data : List Int64) (key : Int64) (lo hi : ℕ) : Prop where
  le : lo ≤ hi
  le_length : hi ≤ data.length
  before : ∀ i < lo, data.getD i 0 < key
  after : ∀ i, hi ≤ i → i < data.length → key ≤ data.getD i 0

variable {data : List Int64} {key : Int64}

theorem getD_le_getD (hsorted : data.Pairwise (· ≤ ·)) {i j : ℕ} (hij : i ≤ j) (hj : j < data.length) :
    data.getD i 0 ≤ data.getD j 0 := by
  rw [List.getD_eq_getElem _ _ (by omega), List.getD_eq_getElem _ _ hj]
  rcases Nat.lt_or_eq_of_le hij with hlt | rfl
  · exact List.pairwise_iff_getElem.mp hsorted i j (by omega) hj hlt
  · exact Int64.le_refl _

theorem Between.bisect (hsorted : data.Pairwise (· ≤ ·)) {rounds lo hi : ℕ} (h : Between data key lo hi) :
    ∃ lo' hi', bisect data key rounds lo hi = some (lo', hi') ∧ Between data key lo' hi' := by
  induction rounds generalizing lo hi with
  | zero => exact ⟨lo, hi, rfl, h⟩
  | succ rounds ih =>
    have hle := h.le_length
    unfold GallopingSearch.bisect
    by_cases hwide : kLinearScanThreshold < hi - lo
    · rw [if_pos hwide]
      unfold kLinearScanThreshold at hwide
      have hmid : lo + (hi - lo) / 2 < data.length := by omega
      have hgetD := List.getD_eq_getElem data 0 hmid
      dsimp only
      rw [List.getElem?_eq_getElem hmid, Option.bind_some, ← hgetD]
      by_cases hlt : data.getD (lo + (hi - lo) / 2) 0 < key
      · rw [if_pos hlt]
        refine ih ⟨by omega, hle, fun i hi => ?_, h.after⟩
        exact Int64.lt_of_le_of_lt (getD_le_getD hsorted (by omega) (by omega)) hlt
      · rw [if_neg hlt]
        refine ih ⟨by omega, by omega, h.before, fun i hi hlen => ?_⟩
        exact Int64.le_trans (Int64.not_lt.mp hlt) (getD_le_getD hsorted hi hlen)
    · rw [if_neg hwide]
      exact ⟨lo, hi, rfl, h⟩

theorem Between.scan (hsorted : data.Pairwise (· ≤ ·)) {rounds lo hi : ℕ} (h : Between data key lo hi)
    (hrounds : hi - lo ≤ rounds) : ∃ pos, scan data key hi rounds lo = some pos ∧ IsLowerBound data key pos := by
  induction rounds generalizing lo with
  | zero =>
    have hle := h.le
    obtain rfl : lo = hi := by omega
    exact ⟨lo, rfl, h.le_length, h.before, h.after⟩
  | succ rounds ih =>
    have hle := h.le_length
    unfold GallopingSearch.scan
    by_cases hlt : lo < hi
    · rw [if_pos hlt]
      have hlo : lo < data.length := by omega
      have hgetD := List.getD_eq_getElem data 0 hlo
      rw [List.getElem?_eq_getElem hlo, Option.bind_some, ← hgetD]
      by_cases hkey : data.getD lo 0 < key
      · rw [if_pos hkey]
        refine ih ⟨hlt, hle, fun i hi => ?_, h.after⟩ (by omega)
        rcases Nat.lt_succ_iff_lt_or_eq.mp hi with hi | rfl
        · exact h.before i hi
        · exact hkey
      · rw [if_neg hkey]
        refine ⟨lo, rfl, Nat.le_trans h.le hle, h.before, fun i hi hlen => ?_⟩
        exact Int64.le_trans (Int64.not_lt.mp hkey) (getD_le_getD hsorted hi hlen)
    · rw [if_neg hlt]
      exact ⟨lo, rfl, Nat.le_trans h.le hle, h.before, fun i hi hlen => h.after i (by omega) hlen⟩

theorem Between.lowerBound (hsorted : data.Pairwise (· ≤ ·)) {lo hi : ℕ} (h : Between data key lo hi) :
    ∃ pos, lowerBound data lo hi key = some pos ∧ IsLowerBound data key pos := by
  obtain ⟨lo', hi', hbisect, h'⟩ := @Between.bisect _ _ hsorted (hi - lo) _ _ h
  obtain ⟨pos, hscan, hpos⟩ := h'.scan hsorted (Nat.le_refl _)
  exact ⟨pos, by rw [GallopingSearch.lowerBound, hbisect, Option.bind_some]; exact hscan, hpos⟩

/-- The loop ends, and the key lies between the last element seen and the place it stopped at. -/
theorem gallop_spec (hlength : data.length ≤ 2 ^ 31) {pos : ℕ} {rounds step prev e : ℕ} (hstep : step = 2 ^ e)
    (hrounds : 31 < rounds + e) (he : e < 32) (hprev : data.getD prev 0 < key) (hlt : prev < data.length)
    (hbefore : prev < pos + step) (hpos : pos < data.length) (hhalf : step ≤ 16 ∨ pos + step / 2 < data.length) :
    ∃ step' prev',
      gallop data key pos rounds step prev = some (step', prev') ∧ data.getD prev' 0 < key ∧ prev' < data.length ∧
        prev' < pos + step' ∧ pos + step' + 1 < 2 ^ 32 ∧
        (pos + step' < data.length → key ≤ data.getD (pos + step') 0) := by
  induction rounds generalizing step prev e with
  | zero => omega
  | succ rounds ih =>
    have hpow : 2 ^ e ≤ 2 ^ 31 := Nat.pow_le_pow_right (by decide) (by omega)
    have hmod : (pos + step) % 2 ^ 32 = pos + step := Nat.mod_eq_of_lt (by omega)
    unfold gallop
    simp only [hmod]
    by_cases hgo : pos + step < data.length ∧ data.getD (pos + step) 0 < key
    · rw [if_pos hgo]
      have he' : e < 31 := by
        by_contra hge
        have : 2 ^ 31 ≤ 2 ^ e := Nat.pow_le_pow_right (by decide) (Nat.not_lt.mp hge)
        omega
      have hpow' : 2 ^ (e + 1) ≤ 2 ^ 31 := Nat.pow_le_pow_right (by decide) he'
      have hdouble : step * 2 % 2 ^ 32 = 2 ^ (e + 1) := by
        rw [Nat.pow_succ] at hpow'
        rw [hstep, Nat.mod_eq_of_lt (by omega), Nat.pow_succ]
      have hpos' := Nat.two_pow_pos e
      refine ih hdouble (by omega) (by omega) hgo.2 hgo.1 ?_ (Or.inr ?_)
      · rw [hdouble, Nat.pow_succ]
        omega
      · rw [hdouble, Nat.pow_succ, Nat.mul_div_cancel _ (by decide), ← hstep]
        exact hgo.1
    · rw [if_neg hgo]
      refine ⟨step, prev, rfl, hprev, hlt, hbefore, by omega, fun hin => ?_⟩
      exact Int64.not_lt.mp fun hkey => hgo ⟨hin, hkey⟩

theorem gallopForward_spec (hsorted : data.Pairwise (· ≤ ·)) (hlength : data.length ≤ 2 ^ 31) {pos : ℕ}
    (hle : pos ≤ data.length) (hbefore : ∀ i < pos, data.getD i 0 < key) :
    ∃ p, gallopForward data pos key = some p ∧ IsLowerBound data key p := by
  unfold gallopForward
  by_cases hstop : data.length ≤ pos ∨ key ≤ data.getD pos 0
  · rw [if_pos hstop]
    refine ⟨pos, rfl, hle, hbefore, fun i hi hlen => ?_⟩
    rcases hstop with hend | hkey
    · omega
    · exact Int64.le_trans hkey (getD_le_getD hsorted hi hlen)
  · rw [if_neg hstop]
    obtain ⟨hpos, hkey⟩ := not_or.mp hstop
    obtain ⟨step, prev, hgallop, hprev, hlt, hnear, hsmall, hat⟩ :=
      @gallop_spec data key hlength pos 33 kLinearScanThreshold pos 4 rfl (by decide) (by decide)
        (Int64.not_le.mp hkey) (Nat.not_le.mp hpos) (by unfold kLinearScanThreshold; omega) (Nat.not_le.mp hpos)
        (Or.inl (Nat.le_refl 16))
    have hmod : (pos + step + 1) % 2 ^ 32 = pos + step + 1 := Nat.mod_eq_of_lt hsmall
    have hbetween : Between data key (prev + 1)
        (if data.length < (pos + step + 1) % 2 ^ 32 then data.length else (pos + step + 1) % 2 ^ 32) := by
      rw [hmod]
      refine ⟨?_, ?_, fun i hi => ?_, fun i hi hlen => ?_⟩
      · split <;> omega
      · split <;> omega
      · exact Int64.lt_of_le_of_lt (getD_le_getD hsorted (by omega) hlt) hprev
      · split at hi
        · omega
        · exact Int64.le_trans (hat (by omega)) (getD_le_getD hsorted (by omega) hlen)
    rw [hgallop, Option.bind_some]
    exact hbetween.lowerBound hsorted

theorem gallopAll_spec (hsorted : data.Pairwise (· ≤ ·)) (hlength : data.length ≤ 2 ^ 31) {keys : List Int64} :
    ∀ {pos : ℕ} {first : Int64}, (first :: keys).Pairwise (· ≤ ·) → IsLowerBound data first pos →
      ∃ ps, gallopAll data pos keys = some ps ∧ List.Forall₂ (IsLowerBound data) keys ps := by
  induction keys with
  | nil => exact fun _ _ => ⟨[], rfl, .nil⟩
  | cons key keys ih =>
    intro pos first hkeys hpos
    obtain ⟨hfirst, hkeys⟩ := List.pairwise_cons.mp hkeys
    obtain ⟨p, hforward, hp⟩ := gallopForward_spec hsorted hlength hpos.le_length fun i hi =>
      Int64.lt_of_lt_of_le (hpos.before i hi) (hfirst key List.mem_cons_self)
    obtain ⟨ps, hall, hps⟩ := ih hkeys hp
    exact ⟨p :: ps, by simp only [gallopAll, hforward, hall, Option.map_some], .cons hp hps⟩

/-- **Every key gets its lower bound**, and nothing outside the arrays is read. -/
theorem batchedLowerBound_spec (hsorted : data.Pairwise (· ≤ ·)) (hlength : data.length ≤ 2 ^ 31) {keys : List Int64}
    (hkeys : keys.Pairwise (· ≤ ·)) (hne : keys = [] → data = []) :
    ∃ ps, batchedLowerBound data keys keys.length = some ps ∧ List.Forall₂ (IsLowerBound data) keys ps := by
  unfold batchedLowerBound
  by_cases hempty : data.length = 0
  · rw [if_pos hempty]
    refine ⟨_, rfl, ?_⟩
    clear hkeys hne
    induction keys with
    | nil => exact .nil
    | cons key keys ih =>
      refine .cons ⟨Nat.zero_le _, fun i hi => absurd hi (Nat.not_lt_zero i), fun i _ hi => ?_⟩ ih
      omega
  · rw [if_neg hempty]
    cases keys with
    | nil => exact absurd (congrArg List.length (hne rfl)) hempty
    | cons key keys =>
      obtain ⟨pos, hpos, hfirst⟩ : ∃ pos, lowerBound data 0 data.length key = some pos ∧ IsLowerBound data key pos :=
        Between.lowerBound hsorted ⟨Nat.zero_le _, Nat.le_refl _, fun i hi => absurd hi (Nat.not_lt_zero i),
          fun i hi hlen => absurd hlen (Nat.not_lt.mpr hi)⟩
      obtain ⟨ps, hall, hps⟩ := gallopAll_spec hsorted hlength hkeys hfirst
      have htake : keys.take ((key :: keys).length - 1) = keys := by
        rw [List.length_cons, Nat.add_sub_cancel, List.take_length]
      dsimp only
      rw [hpos, Option.bind_some, htake, hall]
      exact ⟨pos :: ps, rfl, .cons hfirst hps⟩

/-- Each element twice -/
def hundred : List Int64 := (List.range 100).map fun i => Int64.ofNat (i / 2)

/-- The bisection finds the first key, the steps double for the second and the third is after the end. -/
theorem batchedLowerBound_hundred :
    ∃ ps, batchedLowerBound hundred [3, 30, 50] 3 = some ps ∧ List.Forall₂ (IsLowerBound hundred) [3, 30, 50] ps :=
  @batchedLowerBound_spec hundred (by decide +kernel) (by decide) [3, 30, 50] (by decide) nofun

example : batchedLowerBound hundred [3, 30, 50] 3 = some [6, 60, 100] := by decide +kernel

/-! ### Beyond the 32-bit steps -/

/-- With more than 2^31 elements below the key, the step doubles to 0 and the loop goes on for ever. -/
theorem gallop_eq_none (hlength : 2 ^ 31 < data.length) (hbelow : ∀ i < data.length, data.getD i 0 < key)
    {rounds step prev : ℕ} (hstep : step = 0 ∨ ∃ e < 32, step = 2 ^ e) : gallop data key 0 rounds step prev = none := by
  induction rounds generalizing step prev with
  | zero => rfl
  | succ rounds ih =>
    have hle : step ≤ 2 ^ 31 := by
      rcases hstep with rfl | ⟨e, he, rfl⟩
      · exact Nat.zero_le _
      · exact Nat.pow_le_pow_right (by decide) (by omega)
    have hmod : (0 + step) % 2 ^ 32 = step := by omega
    unfold gallop
    simp only [hmod]
    rw [if_pos ⟨by omega, hbelow step (by omega)⟩]
    refine ih ?_
    rcases hstep with rfl | ⟨e, he, rfl⟩
    · exact Or.inl rfl
    · by_cases hlast : e = 31
      · left
        subst hlast
        omega
      · right
        have hpow : 2 ^ (e + 1) ≤ 2 ^ 31 := Nat.pow_le_pow_right (by decide) (by omega)
        refine ⟨e + 1, by omega, ?_⟩
        rw [← Nat.pow_succ, Nat.mod_eq_of_lt (by omega)]

/-- A query list without keys reads a key, and a second key after more than 2^31 smaller elements is never found. -/
theorem batchedLowerBound_eq_none :
    batchedLowerBound [0] [] 0 = none ∧
      (List.replicate (2 ^ 31 + 1) 0 : List Int64).Pairwise (· ≤ ·) ∧
      batchedLowerBound (List.replicate (2 ^ 31 + 1) 0) [0, 1] 2 = none := by
  have hsorted : ∀ n, (List.replicate n 0 : List Int64).Pairwise (· ≤ ·) := fun n =>
    List.pairwise_replicate.mpr (Or.inr (Int64.le_refl _))
  refine ⟨rfl, hsorted _, ?_⟩
  generalize hn : (2 ^ 31 + 1 : ℕ) = n
  have hlength : (List.replicate n (0 : Int64)).length = n := List.length_replicate
  have hget : ∀ i < n, (List.replicate n (0 : Int64)).getD i 0 = 0 := by
    intro i hi
    rw [List.getD_eq_getElem _ _ (hlength.symm ▸ hi), List.getElem_replicate]
  have hnone : gallop (List.replicate n 0) 1 0 33 kLinearScanThreshold 0 = none := by
    have hbelow : ∀ i < (List.replicate n (0 : Int64)).length, (List.replicate n (0 : Int64)).getD i 0 < 1 := by
      intro i hi
      rw [hget i (hlength ▸ hi)]
      decide
    exact gallop_eq_none (by rw [hlength]; omega) hbelow (Or.inr ⟨4, by decide, rfl⟩)
  have hgallop : gallopForward (List.replicate n 0) 0 1 = none := by
    unfold gallopForward
    rw [hlength, hget 0 (by omega), if_neg (not_or.mpr ⟨by omega, by decide⟩), hnone]
    rfl
  obtain ⟨pos, hpos, hfirst⟩ : ∃ pos, lowerBound (List.replicate n 0) 0 n 0 = some pos ∧
      IsLowerBound (List.replicate n 0) 0 pos :=
    Between.lowerBound (hsorted n) ⟨Nat.zero_le _, Nat.le_of_eq hlength.symm,
      fun i hi => absurd hi (Nat.not_lt_zero i), fun i hi hlen => absurd hlen (Nat.not_lt.mpr (hlength.symm ▸ hi))⟩
  have hzero : pos = 0 := by
    by_contra hne
    have hlt := hfirst.before 0 (Nat.pos_of_ne_zero hne)
    rw [hget 0 (by omega)] at hlt
    exact absurd hlt (by decide)
  rw [hzero] at hpos
  unfold batchedLowerBound
  rw [hlength, if_neg (by omega)]
  dsimp only
  rw [hpos, Option.bind_some]
  show Option.map _ (gallopAll (List.replicate n 0) 0 [1]) = none
  rw [gallopAll, hgallop]
  rfl

end LynxTrace.TraceProcessor.GallopingSearch
