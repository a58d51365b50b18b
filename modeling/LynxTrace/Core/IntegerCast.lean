import LynxTrace.Core.FilterSemantics
import LynxTrace.TraceProcessor.DoubleValue

/-!
# Core.IntegerCast — a constraint on an integer column is the comparison of the exact numbers
-/

namespace LynxTrace.TraceProcessor.Core

open CastFilterValueResult

/-- The exact number of an integer or of a finite double. -/
def SqlValue.number : SqlValue → Option ℚ
  | .long z => some z.val
  | .double d => if d.Finite then some d.toRat else none
  | _ => none

variable {d : Double}

theorem SqlValue.number_double (h : d.Finite) : (SqlValue.double d).number = some d.toRat := by
  rw [SqlValue.number, if_pos h]

/-- The comparison of exact numbers. -/
def CmpOp.exact : CmpOp → ℚ → ℚ → Bool
  | eq, x, y => x = y
  | ne, x, y => x ≠ y
  | lt, x, y => x < y
  | le, x, y => x ≤ y
  | gt, x, y => y < x
  | ge, x, y => y ≤ x

/-- Casts the filter value and applies the constraint to one row of an integer column. -/
def accepts (t : StorageType) (op : CmpOp) (v : SqlValue) (x : ℤ) : Option Bool := do
  let r ← castFilterValue t (.cmp op) v
  let kept ← nonStringFilter (fun _ => some (.int x)) op r [0] [0]
  pure (kept ≠ [])

/-- The operators that tell a number from larger ones. -/
def CmpOp.TellsFromLarger (op : CmpOp) : Prop := op = .eq ∨ op = .ne ∨ op = .lt ∨ op = .ge

/-- The largest number of a 32-bit type, in the column and given as a double, under an operator that tells it from
larger ones. -/
def MaxAsDouble (t : StorageType) (op : CmpOp) (v : SqlValue) (x : ℤ) : Prop :=
  (t ≠ .int64 ∧ ∃ d, v = .double d ∧ d.toRat = t.maxValue) ∧ x = t.maxValue ∧ op.TellsFromLarger

variable {t : StorageType}

theorem castFilterValue_integer (ht : t ≠ .double ∧ t ≠ .string) (op : CmpOp) (v : SqlValue) :
    castFilterValue t (.cmp op) v = some (castFilterValueToInteger t op v) := by
  cases t <;> first | rfl | exact absurd rfl ht.1 | exact absurd rfl ht.2

theorem accepts_eq (ht : t ≠ .double ∧ t ≠ .string) (op : CmpOp) (v : SqlValue) (x : ℤ) :
    accepts t op v x = some ((castFilterValueToInteger t op v).admits op (.int x)) := by
  have hreads : Reads (fun _ => some (.int x)) (fun _ => Value.int x) [(0, 0)] := fun _ _ => rfl
  have hfilter := nonStringFilter_eq op (castFilterValueToInteger t op v) hreads
  simp only [List.map_cons, List.map_nil] at hfilter
  unfold accepts
  simp only [castFilterValue_integer ht, Option.bind_eq_bind, Option.bind_some, hfilter, Option.pure_def, List.filter_cons,
    List.filter_nil]
  cases (castFilterValueToInteger t op v).admits op (.int x) <;> rfl

theorem CmpOp.exact_intCast (op : CmpOp) (x y : ℤ) : op.exact x y = op.int x y := by
  cases op <;> simp [exact, int]

/-! ### The limits of the types, as doubles -/

/-- The first number that counts as too big when it is given as a double. -/
def bigFrom : StorageType → ℤ
  | .int64 => 2 ^ 63
  | t => t.maxValue

theorem toRat_of_parts {s e z : ℤ} (hs : d.significand = s) (he : d.exponent = e) (hz : (s : ℚ) * 2 ^ e = z) :
    d.toRat = z := by rw [Double.toRat, hs, he, hz]

theorem kMaxDouble_value (ht : t ≠ .double ∧ t ≠ .string) :
    (kMaxDouble t).Finite ∧ (kMaxDouble t).toRat = bigFrom t := by
  cases t with
  | id | uint32 => exact ⟨by decide, @toRat_of_parts _ 9007199252643840 (-21) _ (by decide) (by decide) (by norm_num [bigFrom, StorageType.maxValue])⟩
  | int32 => exact ⟨by decide, @toRat_of_parts _ 9007199250546688 (-22) _ (by decide) (by decide) (by norm_num [bigFrom, StorageType.maxValue])⟩
  | int64 => exact ⟨by decide, @toRat_of_parts _ 4503599627370496 11 _ (by decide) (by decide) (by norm_num [bigFrom])⟩
  | double => exact absurd rfl ht.1
  | string => exact absurd rfl ht.2

theorem minDouble_value (ht : t ≠ .double ∧ t ≠ .string) :
    (Double.ofInt t.minValue).Finite ∧ (Double.ofInt t.minValue).toRat = t.minValue := by
  cases t with
  | id | uint32 => exact ⟨by decide, @toRat_of_parts _ 0 (-1074) _ (by decide) (by decide) (by norm_num [StorageType.minValue])⟩
  | int32 => exact ⟨by decide, @toRat_of_parts _ (-4503599627370496) (-21) _ (by decide) (by decide) (by norm_num [StorageType.minValue])⟩
  | int64 => exact ⟨by decide, @toRat_of_parts _ (-4503599627370496) 11 _ (by decide) (by decide) (by norm_num [StorageType.minValue])⟩
  | double => exact absurd rfl ht.1
  | string => exact absurd rfl ht.2

theorem isBig_iff (ht : t ≠ .double ∧ t ≠ .string) (hd : d.Finite) :
    (kMaxDouble t).le d = true ↔ (bigFrom t : ℚ) ≤ d.toRat := by
  obtain ⟨hfinite, hvalue⟩ := kMaxDouble_value ht
  rw [Double.le_iff hfinite hd, hvalue]

theorem isSmall_iff (ht : t ≠ .double ∧ t ≠ .string) (hd : d.Finite) :
    d.lt (.ofInt t.minValue) = true ↔ d.toRat < t.minValue := by
  obtain ⟨hfinite, hvalue⟩ := minDouble_value ht
  rw [Double.lt_iff hd hfinite, hvalue]

/-- Below the column's smallest number every cell is larger. -/
theorem admits_small {x : ℤ} (op : CmpOp) (hx : t.minValue ≤ x) (hd : d.toRat < t.minValue) (out : ℤ) : (match op with
      | .lt => castDoubleToIntHelper true false out
      | .le => castDoubleToIntHelper true false out
      | .gt => castDoubleToIntHelper false true out
      | .ge => castDoubleToIntHelper false true out
      | .eq => noneMatch
      | .ne => allMatch).admits op (.int x) = op.exact x d.toRat := by
  have hlt : d.toRat < x := hd.trans_le (Int.cast_le.mpr hx)
  cases op <;> simp [castDoubleToIntHelper, admits, CmpOp.exact, hlt, hlt.le, hlt.not_gt, hlt.not_ge, hlt.ne']

/-- From the column's largest number on every cell counts as smaller, also one that is the number itself. -/
theorem admits_big {q : ℚ} {x : ℤ} (op : CmpOp) (hx : x ≤ q) (out : ℤ) :
    (match op with
      | .lt => castDoubleToIntHelper false true out
      | .le => castDoubleToIntHelper false true out
      | .gt => castDoubleToIntHelper true false out
      | .ge => castDoubleToIntHelper true false out
      | .eq => noneMatch
      | .ne => allMatch).admits op (.int x) = op.exact x q ↔ ¬ (x = q ∧ op.TellsFromLarger) := by
  unfold CmpOp.TellsFromLarger
  rcases hx.lt_or_eq with hlt | heq
  · cases op <;> simp [castDoubleToIntHelper, admits, CmpOp.exact, hlt, hlt.le, hlt.not_gt, hlt.not_ge, hlt.ne]
  · cases op <;> simp [castDoubleToIntHelper, admits, CmpOp.exact, heq]

/-- Between two integers the operator is applied to the one on the right side. -/
theorem admits_between {x : ℤ} (op : CmpOp) (hd : d.toRat ≠ d.floor) :
    (match op with
      | .lt => castDoubleToIntHelper false false d.ceil
      | .le => castDoubleToIntHelper false false d.floor
      | .gt => castDoubleToIntHelper false false d.floor
      | .ge => castDoubleToIntHelper false false d.ceil
      | .eq => noneMatch
      | .ne => allMatch).admits op (.int x) = op.exact x d.toRat := by
  have hne : (x : ℚ) ≠ d.toRat := by
    intro h
    rw [Double.floor_eq, ← h, Int.floor_intCast] at hd
    exact hd rfl
  cases op with
  | eq | ne => simp [admits, CmpOp.exact, hne]
  | lt => simp [castDoubleToIntHelper, admits, CmpOp.compare, CmpOp.int, CmpOp.exact, Double.ceil_eq, Int.lt_ceil]
  | le => simp [castDoubleToIntHelper, admits, CmpOp.compare, CmpOp.int, CmpOp.exact, Double.floor_eq, Int.le_floor]
  | gt => simp [castDoubleToIntHelper, admits, CmpOp.compare, CmpOp.int, CmpOp.exact, Double.floor_eq, Int.floor_lt]
  | ge => simp [castDoubleToIntHelper, admits, CmpOp.compare, CmpOp.int, CmpOp.exact, Double.ceil_eq, Int.ceil_le]

/-- **Exact but for one number.**  The cast and the constraint keep a row as the comparison of the exact numbers says,
unless the row holds the largest number of a 32-bit type and the filter value is that number as a double. -/
theorem accepts_exact_iff {t : StorageType} (ht : t ≠ .double ∧ t ≠ .string) (op : CmpOp) {v : SqlValue} {q : ℚ}
    (hv : v.number = some q) {x : ℤ} (hx : t.minValue ≤ x ∧ x ≤ t.maxValue) :
    accepts t op v x = some (op.exact x q) ↔ ¬ MaxAsDouble t op v x := by
  rw [accepts_eq ht, Option.some_inj]
  cases v with
  | null | string s => exact absurd hv (by simp [SqlValue.number])
  | long z =>
    obtain rfl : (z.val : ℚ) = q := Option.some.inj hv
    rw [castFilterValueToInteger_long hx, CmpOp.exact_intCast]
    refine iff_of_true rfl ?_
    rintro ⟨⟨-, d, hd, -⟩, -⟩
    exact absurd hd (by simp)
  | double d =>
    obtain ⟨hfinite, rfl⟩ : d.Finite ∧ d.toRat = q := by
      rw [SqlValue.number] at hv
      split_ifs at hv with hfinite
      exact ⟨hfinite, Option.some.inj hv⟩
    have hmax : MaxAsDouble t op (.double d) x ↔
        (bigFrom t : ℚ) ≤ d.toRat ∧ (x : ℚ) = d.toRat ∧ op.TellsFromLarger := by
      unfold MaxAsDouble
      constructor
      · rintro ⟨⟨ht64, e, he, hvalue⟩, hxmax, hop⟩
        obtain rfl := SqlValue.double.inj he
        have hfrom : bigFrom t = t.maxValue := by cases t <;> first | rfl | exact absurd rfl ht64
        exact ⟨by rw [hfrom, hvalue], by rw [hxmax, hvalue], hop⟩
      · rintro ⟨hbig, hxq, hop⟩
        rw [← hxq, Int.cast_le] at hbig
        have ht64 : t ≠ .int64 := by
          rintro rfl
          exact absurd (hbig.trans hx.2) (by decide)
        have hfrom : bigFrom t = t.maxValue := by cases t <;> first | rfl | exact absurd rfl ht64
        rw [hfrom] at hbig
        have hxmax := le_antisymm hx.2 hbig
        exact ⟨⟨ht64, d, rfl, by rw [← hxq, hxmax]⟩, hxmax, hop⟩
    have hbigFrom : t.maxValue ≤ bigFrom t := by cases t <;> decide
    unfold castFilterValueToInteger
    dsimp only
    rw [hfinite.isNaN_eq, if_neg (by simp), hmax]
    by_cases hbig : (bigFrom t : ℚ) ≤ d.toRat
    · have hxd : (x : ℚ) ≤ d.toRat := (Int.cast_le.mpr (hx.2.trans hbigFrom)).trans hbig
      have hsmall : ¬ d.toRat < t.minValue := not_lt.mpr ((Int.cast_le.mpr hx.1).trans hxd)
      rw [(isBig_iff ht hfinite).mpr hbig, Bool.eq_false_iff.mpr (mt (isSmall_iff ht hfinite).mp hsmall)]
      simp only [Bool.not_true, Bool.and_false, Bool.false_eq_true, if_false]
      refine (admits_big op hxd _).trans ?_
      simp [hbig]
    · rw [Bool.eq_false_iff.mpr (mt (isBig_iff ht hfinite).mp hbig)]
      simp only [hbig, false_and, not_false_eq_true, iff_true]
      by_cases hsmall : d.toRat < t.minValue
      · rw [(isSmall_iff ht hfinite).mpr hsmall]
        simp only [Bool.not_true, Bool.and_false, Bool.false_and, Bool.false_eq_true, if_false]
        exact admits_small op hx.1 hsmall _
      · rw [Bool.eq_false_iff.mpr (mt (isSmall_iff ht hfinite).mp hsmall)]
        by_cases hint : d.isIntegral = true
        · rw [hint]
          simp only [Bool.not_false, Bool.and_self, if_true]
          show op.int x d.floor = _
          rw [← CmpOp.exact_intCast, ← Double.isIntegral_iff.mp hint]
        · rw [Bool.eq_false_iff.mpr hint]
          simp only [Bool.false_and, Bool.false_eq_true, if_false]
          exact admits_between op (mt Double.isIntegral_iff.mpr hint)

/-- One half, as a double. -/
def oneHalf : Double := ⟨0x3FE0000000000000⟩

theorem accepts_below_half : accepts .uint32 .lt (.double oneHalf) 0 = some (CmpOp.lt.exact (0 : ℤ) oneHalf.toRat) ↔
    ¬ MaxAsDouble .uint32 .lt (.double oneHalf) 0 :=
  accepts_exact_iff ⟨by decide, by decide⟩ .lt (SqlValue.number_double (by decide)) ⟨by decide, by decide⟩

/-- `4294967295.0`. -/
def maxUint32 : Double := ⟨0x41EFFFFFFFE00000⟩

theorem toRat_maxUint32 : maxUint32.toRat = (4294967295 : ℤ) :=
  @toRat_of_parts _ 9007199252643840 (-21) _ (by decide) (by decide) (by norm_num)

/-- The row that holds `4294967295` is not equal to `4294967295.0`. -/
theorem not_accepts_maxUint32 : SqlValue.number (.double maxUint32) = some ((4294967295 : ℤ) : ℚ) ∧
    accepts .uint32 .eq (.double maxUint32) 4294967295 ≠ some (CmpOp.eq.exact (4294967295 : ℤ) (4294967295 : ℤ)) := by
  refine ⟨(SqlValue.number_double (by decide)).trans (congrArg some toRat_maxUint32), ?_⟩
  have haccepts : accepts .uint32 .eq (.double maxUint32) 4294967295 = some false := by decide
  rw [haccepts, CmpOp.exact_intCast]
  decide

end LynxTrace.TraceProcessor.Core
