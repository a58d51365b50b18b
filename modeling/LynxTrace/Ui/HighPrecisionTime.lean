import Mathlib.Algebra.Order.Floor.Ring
import Mathlib.Data.Rat.Floor
import Mathlib.Tactic.Linarith

/-!
# Ui.HighPrecisionTime — `HighPrecisionTime` and `HighPrecisionTimeSpan` (ui/src/base/high_precision_time{,_span}.ts)

A `time` is an integer and a `number` a rational.  `value` is the number a time stands for, and the `…_iff` lemmas say
what the comparisons with an integral time mean for it: `lte` and `gt` have the tolerance `Number.EPSILON`.
-/

namespace LynxTrace.Ui

/-- `Number.EPSILON`. -/
def numberEpsilon : ℚ := 1 / 2 ^ 52

theorem numberEpsilon_pos : 0 < numberEpsilon := by norm_num [numberEpsilon]

theorem numberEpsilon_lt_one : numberEpsilon < 1 := by norm_num [numberEpsilon]

/-- The fraction is kept in the range `0 ≤ x < 1`. -/
structure HighPrecisionTime where
  integral : ℤ
  fractional : ℚ
  nonneg : 0 ≤ fractional
  lt_one : fractional < 1

namespace HighPrecisionTime

/-- The constructor. -/
def new (integral : ℤ) (fractional : ℚ := 0) : HighPrecisionTime :=
  ⟨integral + ⌊fractional⌋, fractional - ⌊fractional⌋, sub_nonneg.mpr (Int.floor_le _),
    sub_lt_iff_lt_add'.mpr (Int.lt_floor_add_one _)⟩

/-- `toNumber`: the number that a time stands for. -/
def value (t : HighPrecisionTime) : ℚ := t.integral + t.fractional

def addNumber (t : HighPrecisionTime) (n : ℚ) : HighPrecisionTime := new t.integral (t.fractional + n)

def subNumber (t : HighPrecisionTime) (n : ℚ) : HighPrecisionTime := new t.integral (t.fractional - n)

def sub (t u : HighPrecisionTime) : HighPrecisionTime := new (t.integral - u.integral) (t.fractional - u.fractional)

def subTime (t : HighPrecisionTime) (u : ℤ) : HighPrecisionTime := new (t.integral - u) t.fractional

def lte (t : HighPrecisionTime) (u : ℤ) : Prop := t.integral < u ∨ t.integral = u ∧ |t.fractional - 0| < numberEpsilon

def gt (t : HighPrecisionTime) (u : ℤ) : Prop := t.integral > u ∨ t.integral = u ∧ |t.fractional - 0| > numberEpsilon

def gte (t : HighPrecisionTime) (u : ℤ) : Prop := t.integral ≥ u

instance (t : HighPrecisionTime) (u : ℤ) : Decidable (t.lte u) := inferInstanceAs (Decidable (_ ∨ _))

instance (t : HighPrecisionTime) (u : ℤ) : Decidable (t.gt u) := inferInstanceAs (Decidable (_ ∨ _))

instance (t : HighPrecisionTime) (u : ℤ) : Decidable (t.gte u) := inferInstanceAs (Decidable (_ ≤ _))

variable (t u : HighPrecisionTime) (i : ℤ) (n : ℚ)

@[simp] theorem value_new : (new i n).value = i + n := by
  unfold new value
  push_cast
  ring

@[simp] theorem value_addNumber : (t.addNumber n).value = t.value + n := by
  unfold addNumber
  rw [value_new, value, add_assoc]

@[simp] theorem value_subNumber : (t.subNumber n).value = t.value - n := by
  unfold subNumber
  rw [value_new, value, add_sub_assoc]

@[simp] theorem value_sub : (t.sub u).value = t.value - u.value := by
  unfold sub
  rw [value_new, value, value]
  push_cast
  ring

theorem integral_lt_iff : t.integral < i ↔ t.value < i := by
  unfold value
  have h0 := t.nonneg
  have h1 := t.lt_one
  constructor
  · intro h
    have hle : (t.integral : ℚ) + 1 ≤ i := by exact_mod_cast h
    linarith
  · intro h
    have hlt : (t.integral : ℚ) < i := by linarith
    exact_mod_cast hlt

theorem gt_iff : t.gt i ↔ i + numberEpsilon < t.value := by
  unfold gt
  rw [sub_zero, abs_of_nonneg t.nonneg]
  have h0 := t.nonneg
  have h1 := t.lt_one
  have heps := numberEpsilon_lt_one
  have hpos := numberEpsilon_pos
  rcases lt_trichotomy t.integral i with h | h | h
  · have hval := (t.integral_lt_iff i).mp h
    exact iff_of_false (by rintro (h' | ⟨h', -⟩) <;> omega) (by linarith)
  · subst h
    unfold value
    constructor
    · rintro (h | ⟨-, h⟩)
      · exact absurd h (lt_irrefl _)
      · linarith
    · intro h
      exact .inr ⟨rfl, by linarith⟩
  · refine iff_of_true (.inl h) ?_
    have hle : (i : ℚ) + 1 ≤ t.integral := by exact_mod_cast h
    unfold value
    linarith

end HighPrecisionTime

structure HighPrecisionTimeSpan where
  start : HighPrecisionTime
  duration : ℚ

namespace HighPrecisionTimeSpan

open HighPrecisionTime

def fromTime (start stop : ℤ) : HighPrecisionTimeSpan := ⟨.new start, ((stop - start : ℤ) : ℚ)⟩

/-- `end` -/
def stop (s : HighPrecisionTimeSpan) : HighPrecisionTime := s.start.addNumber s.duration

def translate (s : HighPrecisionTimeSpan) (time : ℚ) : HighPrecisionTimeSpan := ⟨s.start.addNumber time, s.duration⟩

def pad (s : HighPrecisionTimeSpan) (time : ℚ) : HighPrecisionTimeSpan :=
  ⟨s.start.subNumber time, s.duration + 2 * time⟩

def scale (s : HighPrecisionTimeSpan) (ratio center : ℚ) (minDur : ℚ := 0) : HighPrecisionTimeSpan :=
  let newDuration := max (s.duration * ratio) minDur
  let durationDeltaNanos := s.duration - newDuration
  ⟨s.start.addNumber (durationDeltaNanos * center), newDuration⟩

def fitWithin (s : HighPrecisionTimeSpan) (start stop : ℤ) : HighPrecisionTimeSpan :=
  if s.duration > ((stop - start : ℤ) : ℚ) then fromTime start stop
  else if s.start.integral < start then ⟨.new start, s.duration⟩
  else if s.stop.gt stop then ⟨(HighPrecisionTime.new stop).subNumber s.duration, s.duration⟩
  else s

def clampDuration (s : HighPrecisionTimeSpan) (minDuration : ℚ) : HighPrecisionTimeSpan :=
  if s.duration < minDuration then ⟨s.start, minDuration⟩ else s

def contains (s : HighPrecisionTimeSpan) (t : ℤ) : Prop := s.start.lte t ∧ s.stop.gt t

def containsSpan (s : HighPrecisionTimeSpan) (start stop : ℤ) : Prop := s.start.lte start ∧ s.stop.gte stop

def containedBy (s : HighPrecisionTimeSpan) (start stop : ℤ) : Prop := s.start.gte start ∧ s.stop.lte stop

instance (s : HighPrecisionTimeSpan) (t : ℤ) : Decidable (s.contains t) := inferInstanceAs (Decidable (_ ∧ _))

instance (s : HighPrecisionTimeSpan) (start stop : ℤ) : Decidable (s.containsSpan start stop) :=
  inferInstanceAs (Decidable (_ ∧ _))

instance (s : HighPrecisionTimeSpan) (start stop : ℤ) : Decidable (s.containedBy start stop) :=
  inferInstanceAs (Decidable (_ ∧ _))

@[simp] theorem value_stop (s : HighPrecisionTimeSpan) : s.stop.value = s.start.value + s.duration :=
  value_addNumber _ _

theorem duration_clampDuration (s : HighPrecisionTimeSpan) (minDuration : ℚ) :
    (s.clampDuration minDuration).duration = max s.duration minDuration := by
  unfold clampDuration
  split_ifs with h
  · exact (max_eq_right h.le).symm
  · exact (max_eq_left (not_lt.mp h)).symm

/-- The span lies between two times. -/
def Inside (s : HighPrecisionTimeSpan) (start stop : ℤ) : Prop := start ≤ s.start.value ∧ s.stop.value ≤ stop

/-- The span fits, but for an end that is after the bounds by no more than the tolerance of the comparison. -/
def Grazes (s : HighPrecisionTimeSpan) (start stop : ℤ) : Prop :=
  s.duration ≤ ((stop - start : ℤ) : ℚ) ∧ start ≤ s.start.value ∧ stop < s.stop.value ∧
    s.stop.value ≤ stop + numberEpsilon

instance (s : HighPrecisionTimeSpan) (start stop : ℤ) : Decidable (s.Grazes start stop) :=
  inferInstanceAs (Decidable (_ ∧ _))

theorem duration_fitWithin (s : HighPrecisionTimeSpan) (start stop : ℤ) :
    (s.fitWithin start stop).duration = min s.duration ((stop - start : ℤ) : ℚ) := by
  unfold fitWithin
  split_ifs with hlong
  · exact (min_eq_right hlong.le).symm
  all_goals exact (min_eq_left (not_lt.mp hlong)).symm

/-- A span that is fitted within bounds lies inside them, unless it grazes their end. -/
theorem fitWithin_inside_iff (s : HighPrecisionTimeSpan) (start stop : ℤ) :
    (s.fitWithin start stop).Inside start stop ↔ ¬s.Grazes start stop := by
  unfold fitWithin
  split_ifs with hlong hbefore hafter
  · refine iff_of_true ?_ (fun h => absurd h.1 (not_le.mpr hlong))
    unfold Inside fromTime
    rw [value_stop, value_new]
    push_cast
    constructor <;> linarith
  · have hval := (s.start.integral_lt_iff start).mp hbefore
    refine iff_of_true ?_ (fun h => absurd h.2.1 (not_le.mpr hval))
    unfold Inside
    rw [value_stop, value_new]
    push_cast at hlong ⊢
    constructor <;> linarith
  · have hval := (s.stop.gt_iff stop).mp hafter
    refine iff_of_true ?_ (fun h => absurd h.2.2.2 (not_le.mpr hval))
    unfold Inside
    rw [value_stop, value_subNumber, value_new]
    push_cast at hlong ⊢
    constructor <;> linarith
  · have hstart : (start : ℚ) ≤ s.start.value := not_lt.mp (mt (s.start.integral_lt_iff start).mpr hbefore)
    have hstop := not_lt.mp (mt (s.stop.gt_iff stop).mpr hafter)
    constructor
    · rintro ⟨-, hin⟩ ⟨-, -, hout, -⟩
      exact absurd hin (not_le.mpr hout)
    · intro h
      refine ⟨hstart, not_lt.mp fun hout => h ⟨not_lt.mp hlong, hstart, hout, hstop⟩⟩

end HighPrecisionTimeSpan

end LynxTrace.Ui
