import LynxTrace.Core.FilterValue
import Mathlib.Tactic.SplitIfs

/-!
# Core.FilterSemantics — the filters keep exactly the indices whose cells satisfy the constraint

The indices of a span and the storage indices that go with them are the two sides of one list of pairs.
-/

namespace LynxTrace.TraceProcessor.Core

open CastFilterValueResult

variable {pool : StringPool} {m : Matchers} {data : ℕ → Option Value} {val : ℕ → Value} {t : StorageType}

/-- The cells that the storage indices of the pairs read. -/
def Reads (data : ℕ → Option Value) (val : ℕ → Value) (pairs : List (ℕ × ℕ)) : Prop :=
  ∀ q ∈ pairs, data q.1 = some (val q.1)

variable {pairs : List (ℕ × ℕ)}

theorem Reads.tail {q : ℕ × ℕ} (h : Reads data val (q :: pairs)) : Reads data val pairs :=
  fun r hr => h r (List.mem_cons_of_mem _ hr)

theorem filterIndices_eq {p : Value → Bool} : ∀ {pairs : List (ℕ × ℕ)}, Reads data val pairs →
    filterIndices data p (pairs.map Prod.fst) (pairs.map Prod.snd) =
      some ((pairs.filter fun q => p (val q.1)).map Prod.snd)
  | [], _ => rfl
  | (s, o) :: pairs, h => by
    have hs : data s = some (val s) := h (s, o) List.mem_cons_self
    simp only [List.map_cons, filterIndices, hs, filterIndices_eq h.tail, Option.bind_eq_bind, Option.bind_some,
      Option.pure_def, List.filter_cons]
    by_cases hp : p (val s) <;> simp [hp]

/-! ### Numbers -/

/-- What the cast leaves to compare with the element. -/
def CastFilterValueResult.admits (op : CmpOp) : CastFilterValueResult → Value → Bool
  | allMatch, _ => true
  | noneMatch, _ => false
  | valid v, x => op.compare x v

theorem nonStringFilter_eq (op : CmpOp) (r : CastFilterValueResult) (h : Reads data val pairs) :
    nonStringFilter data op r (pairs.map Prod.fst) (pairs.map Prod.snd) =
      some ((pairs.filter fun q => r.admits op (val q.1)).map Prod.snd) := by
  cases r with
  | allMatch | noneMatch => simp [nonStringFilter, admits]
  | valid v => exact filterIndices_eq h

/-- The value is of the kind the column holds, or null. -/
def SqlValue.Fits : SqlValue → StorageType → Prop
  | .null, _ => True
  | .long _, t => t ≠ .double ∧ t ≠ .string
  | .double _, t => t = .double
  | .string _, t => t = .string

instance : (v : SqlValue) → (t : StorageType) → Decidable (v.Fits t)
  | .null, _ => inferInstanceAs (Decidable True)
  | .long _, _ => inferInstanceAs (Decidable (_ ∧ _))
  | .double _, _ => inferInstanceAs (Decidable (_ = _))
  | .string _, _ => inferInstanceAs (Decidable (_ = _))

/-- An integer out of range for the type compares with every element of the type in one way. -/
theorem castFilterValueToInteger_long {op : CmpOp} {z : StorageType.int64.IntOf} {x : ℤ}
    (hx : t.minValue ≤ x ∧ x ≤ t.maxValue) :
    (castFilterValueToInteger t op (.long z)).admits op (.int x) = op.int x z.val := by
  obtain ⟨hmin, hmax⟩ := hx
  simp only [castFilterValueToInteger, Bool.or_eq_true, decide_eq_true_eq]
  by_cases hsmall : z.val < t.minValue
  · have h : z.val < x := by omega
    have hbig : ¬ t.maxValue < z.val := by omega
    cases op <;> simp [hsmall, hbig, admits, CmpOp.int] <;> omega
  · by_cases hbig : t.maxValue < z.val
    · have h : x < z.val := by omega
      cases op <;> simp [hsmall, hbig, admits, CmpOp.int] <;> omega
    · simp [hsmall, hbig, admits, CmpOp.compare]

/-- **The cast is exact** for a value of the column's kind. -/
theorem castFilterValue_admits (pool : StringPool) (op : CmpOp) {v : SqlValue} (ht : t ≠ .string) (hv : v.Fits t) :
    ∃ r, castFilterValue t (.cmp op) v = some r ∧
      ∀ x : Value, x.HasType t → r.admits op x = op.holds pool x v := by
  by_cases hd : t = .double
  · subst hd
    refine ⟨castFilterValueToDouble op v, rfl, fun x hx => ?_⟩
    obtain ⟨d, rfl⟩ : ∃ d, x = .double d := by
      cases x with
      | double d => exact ⟨d, rfl⟩
      | int z => exact absurd rfl hx.1
      | string id => cases hx
    cases v with
    | null => rfl
    | double e => rfl
    | long z => exact absurd rfl hv.1
    | string s => cases hv
  · refine ⟨castFilterValueToInteger t op v, by cases t <;> first | rfl | contradiction, fun x hx => ?_⟩
    obtain ⟨z, rfl, hz⟩ : ∃ z, x = .int z ∧ t.minValue ≤ z ∧ z ≤ t.maxValue := by
      cases x with
      | int z => exact ⟨z, rfl, hx.2.2⟩
      | double d => exact absurd hx hd
      | string id => exact absurd hx ht
    cases v with
    | null => rfl
    | long y => exact castFilterValueToInteger_long hz
    | double d => exact absurd hv hd
    | string s => exact absurd hv ht

/-! ### Strings -/

/-- The elements read are ids of the pool. -/
def ReadsStrings (pool : StringPool) (val : ℕ → Value) (pairs : List (ℕ × ℕ)) : Prop :=
  ∀ q ∈ pairs, ∃ id, val q.1 = .string id ∧ pool.Contains id

theorem filter_map_snd_congr (p p' : Value → Bool) (hs : ReadsStrings pool val pairs)
    (h : ∀ id, pool.Contains id → p (.string id) = p' (.string id)) :
    (pairs.filter fun q => p (val q.1)).map Prod.snd = (pairs.filter fun q => p' (val q.1)).map Prod.snd := by
  refine congrArg (List.map Prod.snd) (List.filter_congr fun q hq => ?_)
  obtain ⟨id, hid, hmem⟩ := hs q hq
  rw [hid]
  exact h id hmem

/-- Equality of ids is equality of strings; a string that is not interned is in no column. -/
theorem stringFilterEq_eq {s : List UInt8} (h : Reads data val pairs) (hs : ReadsStrings pool val pairs) :
    pool.stringFilterEq data s (pairs.map Prod.fst) (pairs.map Prod.snd) =
      some ((pairs.filter fun q => decide (pool.getValue (val q.1) = s)).map Prod.snd) := by
  unfold StringPool.stringFilterEq
  rcases hid : pool.getId s with _ | i
  · have hnone := filter_map_snd_congr (fun x => decide (pool.getValue x = s)) (fun _ => false) hs fun id hmem => by
      exact decide_eq_false (StringPool.getId_eq_none hmem hid)
    simp [hnone]
  · refine (filterIndices_eq h).trans (congrArg some ?_)
    refine filter_map_snd_congr (fun x => decide (x = .string i)) (fun x => decide (pool.getValue x = s)) hs ?_
    intro id hmem
    have hiff := StringPool.getId_eq_some_iff (s := s) hmem
    rw [hid, Option.some_inj] at hiff
    simpa [StringPool.getValue, eq_comm] using hiff

theorem stringFilterNe_eq {s : List UInt8} (h : Reads data val pairs) (hs : ReadsStrings pool val pairs) :
    pool.stringFilterNe data s (pairs.map Prod.fst) (pairs.map Prod.snd) =
      some ((pairs.filter fun q => decide (pool.getValue (val q.1) ≠ s)).map Prod.snd) := by
  unfold StringPool.stringFilterNe
  rcases hid : pool.getId s with _ | i
  · have hall := filter_map_snd_congr (fun x => decide (pool.getValue x ≠ s)) (fun _ => true) hs fun id hmem => by
      exact decide_eq_true (StringPool.getId_eq_none hmem hid)
    simp only [hall, List.filter_true]
    rw [List.take_of_length_le (by simp)]
  · refine (filterIndices_eq h).trans (congrArg some ?_)
    refine filter_map_snd_congr (fun x => decide (x ≠ .string i)) (fun x => decide (pool.getValue x ≠ s)) hs ?_
    intro id hmem
    have hiff := StringPool.getId_eq_some_iff (s := s) hmem
    rw [hid, Option.some_inj] at hiff
    simpa [StringPool.getValue, eq_comm] using hiff

theorem stringFilterGlobImpl_eq {pattern : List UInt8} (h : Reads data val pairs) (hs : ReadsStrings pool val pairs) :
    pool.stringFilterGlobImpl m data pattern (pairs.map Prod.fst) (pairs.map Prod.snd) =
      some ((pairs.filter fun q => m.globMatches pattern (pool.getValue (val q.1))).map Prod.snd) := by
  unfold StringPool.stringFilterGlobImpl
  split_ifs with heq hdirect
  · rw [stringFilterEq_eq h hs]
    simp only [m.globMatches_eq pattern _ heq]
  · exact filterIndices_eq h
  · refine (filterIndices_eq h).trans (congrArg some ?_)
    refine filter_map_snd_congr (StringPool.bitVectorComparator _) (fun x => m.globMatches pattern (pool.getValue x))
      hs ?_
    intro id hmem
    have hall : id ∈ 0 :: pool.entries.map Prod.fst := List.mem_cons_of_mem _ hmem
    rw [Bool.eq_iff_iff]
    simp only [StringPool.bitVectorComparator, List.contains_iff_mem, List.mem_filter, hall, true_and,
      StringPool.getValue]

/-- **String filters are exact** on the ids of the pool. -/
theorem stringFilter_eq {op : Op} {v : SqlValue} (h : Reads data val pairs) (hs : ReadsStrings pool val pairs)
    (hv : v.Fits .string) (hop : op ≠ .isNull ∧ op ≠ .isNotNull ∧ op ≠ .isIn) :
    ∃ r, castFilterValue .string op v = some r ∧
      pool.stringFilter m data op r (pairs.map Prod.fst) (pairs.map Prod.snd) =
        some ((pairs.filter fun q => op.holds pool m (some (val q.1)) v).map Prod.snd) := by
  have hholds : ∀ p : Value → Bool,
      (∀ id, pool.Contains id → p (.string id) = op.holds pool m (some (.string id)) v) →
      some ((pairs.filter fun q => p (val q.1)).map Prod.snd) =
        some ((pairs.filter fun q => op.holds pool m (some (val q.1)) v).map Prod.snd) :=
    fun p hp => congrArg some (filter_map_snd_congr p (fun x => op.holds pool m (some x) v) hs hp)
  have hnone : (∀ id, op.holds pool m (some (.string id)) v = false) →
      some [] = some ((pairs.filter fun q => op.holds pool m (some (val q.1)) v).map Prod.snd) := fun hf => by
    simpa using hholds (fun _ => false) fun id _ => (hf id).symm
  cases v with
  | long z => exact absurd rfl hv.2
  | double d => cases hv
  | null =>
    refine ⟨noneMatch, rfl, hnone fun id => ?_⟩
    cases op <;> first | rfl | simp_all
  | string s =>
    refine ⟨valid (.string s), rfl, ?_⟩
    simp only [StringPool.stringFilter]
    cases op with
    | glob => exact (stringFilterGlobImpl_eq h hs).trans (hholds (fun x => m.globMatches s (pool.getValue x)) fun _ _ => rfl)
    | regex =>
      simp only [StringPool.filterStringOp]
      rcases hr : m.regex s with _ | r
      · exact hnone fun id => by simp [Op.holds, hr]
      · refine (filterIndices_eq h).trans (hholds (fun x => r (pool.getValue x)) fun id _ => ?_)
        simp [Op.holds, hr, StringPool.getValue]
    | cmp op =>
      cases op with
      | eq => exact (stringFilterEq_eq h hs).trans (hholds (fun x => decide (pool.getValue x = s)) fun _ _ => rfl)
      | ne => exact (stringFilterNe_eq h hs).trans (hholds (fun x => decide (pool.getValue x ≠ s)) fun _ _ => rfl)
      | lt => exact (filterIndices_eq h).trans (hholds (fun x => CmpOp.lt.bytes (pool.getValue x) s) fun _ _ => rfl)
      | le => exact (filterIndices_eq h).trans (hholds (fun x => CmpOp.le.bytes (pool.getValue x) s) fun _ _ => rfl)
      | gt => exact (filterIndices_eq h).trans (hholds (fun x => CmpOp.gt.bytes (pool.getValue x) s) fun _ _ => rfl)
      | ge => exact (filterIndices_eq h).trans (hholds (fun x => CmpOp.ge.bytes (pool.getValue x) s) fun _ _ => rfl)
    | isNull => exact absurd rfl hop.1
    | isNotNull => exact absurd rfl hop.2.1
    | isIn => exact absurd rfl hop.2.2

end LynxTrace.TraceProcessor.Core
