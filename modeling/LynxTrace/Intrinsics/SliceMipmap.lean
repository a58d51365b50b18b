import LynxTrace.TraceProcessor.GallopingSearch
import LynxTrace.TraceProcessor.ImplicitSegmentForest

/-!
# SliceMipmap — the windows of `slice_mipmap` and what a query of its forest returns

`PerDepth.pushSlice` and `filterImpl` follow `slice_mipmap_operator.cc`.
-/

namespace LynxTrace.TraceProcessor.Intrinsics.SliceMipmap

open ImplicitSegmentForest GallopingSearch

/-! ### The source -/

structure Slice where
  dur : Int64
  count : ℕ
  idx : ℕ
  deriving DecidableEq, Repr, Inhabited

/-- `Agg`: the first of the longest slices, and the number of slices, a `uint32_t`. -/
def aggregate (a b : Slice) : Slice :=
  if a.dur < b.dur then ⟨b.dur, (a.count + b.count) % 2 ^ 32, b.idx⟩
  else ⟨a.dur, (a.count + b.count) % 2 ^ 32, a.idx⟩

/-- A slice of the input. -/
structure SliceRow where
  id : ℕ
  ts : Int64
  dur : Int64
  deriving DecidableEq, Repr

structure PerDepth where
  forest : List Slice := []
  ids : List ℕ := []
  timestamps : List Int64 := []
  deriving DecidableEq, Repr

/-- What `Create` does with a row at its depth. -/
def PerDepth.pushSlice (d : PerDepth) (r : SliceRow) : PerDepth where
  forest := push aggregate d.forest ⟨r.dur, 1, d.forest.length / 2 % 2 ^ 32⟩
  ids := d.ids ++ [r.id]
  timestamps := d.timestamps ++ [r.ts]

def PerDepth.ofSlices (slices : List SliceRow) : PerDepth := slices.foldl PerDepth.pushSlice {}

structure Result where
  timestamp : Int64
  dur : Int64
  count : ℕ
  id : ℕ
  depth : ℕ
  deriving DecidableEq, Repr

/-- The ends of the windows from `s` on.  The loop goes by `s` alone, so that it never ends if it has not ended after
`2 ^ 64` rounds. -/
def windowEnds (windowEnd windowStep : Int64) : ℕ → Int64 → Option (List Int64)
  | 0, _ => none
  | rounds + 1, s =>
    if s < windowEnd then (windowEnds windowEnd windowStep rounds (s + windowStep)).map ((s + windowStep) :: ·)
    else some []

/-- The array of window boundaries; `reserve` aborts beyond the greatest size of a vector. -/
def windowQueries (windowStart windowEnd windowStep : Int64) : Option (List Int64) :=
  let reserved := ((((windowEnd - windowStart) / windowStep).toInt % 2 ^ 64).toNat + 2) % 2 ^ 64
  if 2 ^ 60 ≤ reserved then none
  else (windowEnds windowEnd windowStep (2 ^ 64) windowStart).map (windowStart :: ·)

/-- The look at the slice before the first window. -/
def startIndex (d : PerDepth) (windowStart : Int64) (startIdx : ℕ) : ℕ :=
  let tses := d.timestamps
  if startIdx ≠ 0 ∧ (startIdx = tses.length ∨ (tses.getD startIdx 0 ≠ windowStart ∧
      windowStart < tses.getD startIdx 0 + (d.forest.getD (startIdx * 2 % 2 ^ 32) default).dur)) then
    startIdx - 1
  else startIdx

/-- The result of the slices from `startIdx` up to `endIdx`. -/
def windowResult (d : PerDepth) (depth startIdx endIdx : ℕ) : Result :=
  let res := query aggregate d.forest startIdx endIdx
  ⟨d.timestamps.getD res.idx 0, res.dur, res.count, d.ids.getD res.idx 0, depth⟩

def emitWindows (d : PerDepth) (depth : ℕ) : ℕ → List ℕ → List Result
  | _, [] => []
  | startIdx, endIdx :: ends =>
    if startIdx = endIdx then emitWindows d depth startIdx ends
    else windowResult d depth startIdx endIdx :: emitWindows d depth endIdx ends

/-- The loop over the depths; `positions` is reused from one depth to the next, and the number of keys is a
`uint32_t`. -/
def filterDepths (windowStart : Int64) (queries : List Int64) : ℕ → List ℕ → List PerDepth → Option (List Result)
  | _, _, [] => some []
  | depth, positions, d :: byDepth =>
    match batchedLowerBound d.timestamps queries (queries.length % 2 ^ 32) with
    | none => none
    | some found =>
      let positions := found ++ (positions ++ List.replicate queries.length 0).drop found.length
      let positions := positions.take queries.length
      let startIdx := startIndex d windowStart (positions.headD 0)
      (filterDepths windowStart queries (depth + 1) positions byDepth).map
        (emitWindows d depth startIdx positions.tail ++ ·)

def filterImpl (byDepth : List PerDepth) (windowStart windowEnd windowStep : Int64) (positions : List ℕ) :
    Option (List Result) :=
  match windowQueries windowStart windowEnd windowStep with
  | none => none
  | some queries => filterDepths windowStart queries 0 positions byDepth

/-! ### The aggregation -/

theorem aggregate_count (a b : Slice) : (aggregate a b).count = (a.count + b.count) % 2 ^ 32 := by
  unfold aggregate
  split <;> rfl

theorem aggregate_of_lt {a b : Slice} (h : a.dur < b.dur) :
    aggregate a b = ⟨b.dur, (a.count + b.count) % 2 ^ 32, b.idx⟩ := if_pos h

theorem aggregate_of_not_lt {a b : Slice} (h : ¬ a.dur < b.dur) :
    aggregate a b = ⟨a.dur, (a.count + b.count) % 2 ^ 32, a.idx⟩ := if_neg h

instance : Std.Associative aggregate where
  assoc a b c := by
    have hcount : ∀ x y z : ℕ, ((x + y) % 2 ^ 32 + z) % 2 ^ 32 = (x + (y + z) % 2 ^ 32) % 2 ^ 32 := by omega
    unfold aggregate
    by_cases hab : a.dur < b.dur <;> by_cases hbc : b.dur < c.dur
    · simp only [hab, hbc, if_true, Int64.lt_trans hab hbc, hcount]
    · simp only [hab, hbc, if_true, if_false, hcount]
    · simp only [hab, hbc, if_true, if_false, hcount]
    · have hac : ¬ a.dur < c.dur := fun hac =>
        hbc (Int64.lt_of_le_of_lt (Int64.not_lt.mp hab) hac)
      simp only [hab, hbc, hac, if_false, hcount]

/-- The aggregate of slices has the duration and the index of one of the longest. -/
theorem agg_spec {l : List Slice} (hne : l ≠ []) :
    (∀ x ∈ l, x.count = 1) → l.length < 2 ^ 32 → (agg aggregate l).count = l.length ∧
      ∃ x ∈ l, (agg aggregate l).dur = x.dur ∧ (agg aggregate l).idx = x.idx ∧
        ∀ y ∈ l, y.dur ≤ (agg aggregate l).dur := by
  induction l using List.reverseRecOn with
  | nil => exact absurd rfl hne
  | append_singleton l z ih =>
    intro hcounts hlength
    by_cases hl : l = []
    · subst hl
      refine ⟨hcounts z (List.mem_append_right _ (List.mem_singleton_self z)), z, by simp, rfl, rfl, fun y hy => ?_⟩
      obtain rfl := List.mem_singleton.mp hy
      exact Int64.le_refl _
    · rw [List.length_append, List.length_singleton] at hlength ⊢
      obtain ⟨hcount, x, hx, hdur, hidx, hmax⟩ := ih hl (fun x hx => hcounts x (List.mem_append_left _ hx)) (by omega)
      have hz : z.count = 1 := hcounts z (List.mem_append_right _ (List.mem_singleton_self z))
      have hsplit : agg aggregate (l ++ [z]) = aggregate (agg aggregate l) z :=
        agg_append aggregate hl (List.cons_ne_nil z [])
      rw [hsplit]
      refine ⟨by rw [aggregate_count, hcount, hz, Nat.mod_eq_of_lt hlength], ?_⟩
      by_cases hlt : (agg aggregate l).dur < z.dur
      · rw [aggregate_of_lt hlt]
        refine ⟨z, List.mem_append_right _ (List.mem_singleton_self z), rfl, rfl, fun y hy => ?_⟩
        rcases List.mem_append.mp hy with hy | hy
        · exact Int64.le_of_lt (Int64.lt_of_le_of_lt (hmax y hy) hlt)
        · obtain rfl := List.mem_singleton.mp hy
          exact Int64.le_refl _
      · rw [aggregate_of_not_lt hlt]
        refine ⟨x, List.mem_append_left _ hx, hdur, hidx, fun y hy => ?_⟩
        rcases List.mem_append.mp hy with hy | hy
        · exact hmax y hy
        · obtain rfl := List.mem_singleton.mp hy
          exact Int64.not_lt.mp hlt

/-! ### The state of one depth -/

/-- The leaves of the forest. -/
def leaves (slices : List SliceRow) : List Slice := slices.mapIdx fun i r => ⟨r.dur, 1, i⟩

theorem length_leaves (slices : List SliceRow) : (leaves slices).length = slices.length := List.length_mapIdx

structure PerDepth.Holds (d : PerDepth) (slices : List SliceRow) : Prop where
  forest : Stores aggregate (leaves slices) d.forest
  ids : d.ids = slices.map (·.id)
  timestamps : d.timestamps = slices.map (·.ts)

theorem ofSlices_holds {slices : List SliceRow} (hlength : slices.length < 2 ^ 31) :
    (PerDepth.ofSlices slices).Holds slices := by
  induction slices using List.reverseRecOn with
  | nil => exact ⟨Stores.nil aggregate, rfl, rfl⟩
  | append_singleton slices r ih =>
    rw [List.length_append, List.length_singleton] at hlength
    have h := ih (by omega)
    have hfold : PerDepth.ofSlices (slices ++ [r]) = (PerDepth.ofSlices slices).pushSlice r := by
      rw [PerDepth.ofSlices, List.foldl_append]
      rfl
    have hidx : (PerDepth.ofSlices slices).forest.length / 2 % 2 ^ 32 = slices.length := by
      rw [h.forest.length, length_leaves]
      omega
    rw [hfold]
    refine ⟨?_, by simp [PerDepth.pushSlice, h.ids], by simp [PerDepth.pushSlice, h.timestamps]⟩
    have hleaves : leaves (slices ++ [r]) = leaves slices ++ [⟨r.dur, 1, slices.length⟩] := by
      rw [leaves, List.mapIdx_append]
      simp [leaves]
    rw [hleaves, PerDepth.pushSlice, hidx]
    exact h.forest.push _ (by rw [length_leaves]; omega)

/-- What a result says of the slices it stands for. -/
structure Aggregates (r : Result) (members : List SliceRow) : Prop where
  count : r.count = members.length
  longest : ∃ m ∈ members, r.timestamp = m.ts ∧ r.dur = m.dur ∧ r.id = m.id ∧ ∀ m' ∈ members, m'.dur ≤ r.dur

/-- **The result of a range** counts its slices and names one of the longest. -/
theorem query_spec {d : PerDepth} {slices : List SliceRow} (h : d.Holds slices) (hlength : slices.length < 2 ^ 31)
    (depth : ℕ) {a b : ℕ} (hab : a < b) (hb : b ≤ slices.length) :
    Aggregates (windowResult d depth a b) ((slices.take b).drop a) := by
  have hquery : query aggregate d.forest a b = aggRange aggregate (leaves slices) a b :=
    h.forest.query hab (by rw [length_leaves]; exact hb) (by omega)
  have hrange : ((leaves slices).take b).drop a ≠ [] :=
    List.ne_nil_of_length_pos (by rw [List.length_drop, List.length_take, length_leaves]; omega)
  have hleaf : ∀ i (x : Slice), (leaves slices)[i]? = some x → ∃ r, slices[i]? = some r ∧ x = ⟨r.dur, 1, i⟩ := by
    intro i x hx
    rw [leaves, List.getElem?_mapIdx] at hx
    obtain ⟨r, hr, rfl⟩ := Option.map_eq_some_iff.mp hx
    exact ⟨r, hr, rfl⟩
  have hmem : ∀ x ∈ ((leaves slices).take b).drop a, ∃ i r, a ≤ i ∧ i < b ∧ slices[i]? = some r ∧
      x = ⟨r.dur, 1, i⟩ := by
    intro x hx
    obtain ⟨i, hi⟩ := List.mem_iff_getElem?.mp hx
    rw [List.getElem?_drop, List.getElem?_take] at hi
    split at hi
    · rename_i hlt
      obtain ⟨r, hr, hx⟩ := hleaf _ x hi
      exact ⟨a + i, r, by omega, hlt, hr, hx⟩
    · cases hi
  obtain ⟨hcount, x, hx, hdur, hidx, hmax⟩ := agg_spec hrange
    (fun x hx => by obtain ⟨i, r, -, -, -, rfl⟩ := hmem x hx; rfl)
    (by rw [List.length_drop, List.length_take, length_leaves]; omega)
  obtain ⟨i, r, hai, hib, hr, rfl⟩ := hmem x hx
  have hmember : ∀ j s, a ≤ j → j < b → slices[j]? = some s → s ∈ (slices.take b).drop a := by
    intro j s haj hjb hs
    refine List.mem_iff_getElem?.mpr ⟨j - a, ?_⟩
    rw [List.getElem?_drop, Nat.add_sub_cancel' haj, List.getElem?_take, if_pos hjb, hs]
  simp only [windowResult, hquery, aggRange]
  refine ⟨?_, r, hmember i r hai hib hr, ?_, hdur, ?_, fun s hs => ?_⟩
  · rw [hcount, List.length_drop, List.length_take, length_leaves, List.length_drop, List.length_take]
  · simp only [hidx, h.timestamps, List.getD_eq_getElem?_getD, List.getElem?_map, hr, Option.map_some,
      Option.getD_some]
  · simp only [hidx, h.ids, List.getD_eq_getElem?_getD, List.getElem?_map, hr, Option.map_some,
      Option.getD_some]
  · obtain ⟨j, hj⟩ := List.mem_iff_getElem?.mp hs
    rw [List.getElem?_drop, List.getElem?_take] at hj
    split at hj
    · refine hmax ⟨s.dur, 1, a + j⟩ (List.mem_iff_getElem?.mpr ⟨j, ?_⟩)
      rw [List.getElem?_drop, List.getElem?_take, if_pos ‹_›, leaves, List.getElem?_mapIdx, hj]
      rfl
    · cases hj

/-! ### The windows -/

/-- The results of one depth: one for each window that has slices. -/
theorem emitWindows_range (d : PerDepth) (depth : ℕ) (g : ℕ → ℕ) (k : ℕ) :
    emitWindows d depth (g 0) ((List.range k).map fun i => g (i + 1)) = (List.range k).filterMap fun i =>
      if g i = g (i + 1) then none else some (windowResult d depth (g i) (g (i + 1))) := by
  induction k generalizing g with
  | zero => rfl
  | succ k ih =>
    rw [List.range_succ_eq_map, List.map_cons, emitWindows, List.filterMap_cons, List.map_map, List.filterMap_map]
    by_cases h : g 0 = g 1
    · simp only [Nat.zero_add, h, if_true]
      exact ih fun i => g (i + 1)
    · simp only [Nat.zero_add, h, if_false]
      exact congrArg (List.cons _) (ih fun i => g (i + 1))

/-- The number of windows. -/
def windowCount (windowStart windowEnd windowStep : Int64) : ℕ :=
  ((windowEnd.toInt - windowStart.toInt + windowStep.toInt - 1) / windowStep.toInt).toNat

/-- The start of the window `i`. -/
def boundary (windowStart windowStep : Int64) (i : ℕ) : ℤ := windowStart.toInt + i * windowStep.toInt

theorem boundary_succ (windowStart windowStep : Int64) (i : ℕ) :
    boundary windowStart windowStep (i + 1) = boundary windowStart windowStep i + windowStep.toInt := by
  unfold boundary
  push_cast
  ring

variable {windowStart windowEnd windowStep : Int64}

theorem windowCount_spec (hstep : 0 < windowStep.toInt) (hwindow : windowStart.toInt < windowEnd.toInt) :
    (∀ i, boundary windowStart windowStep i < windowEnd.toInt ↔
      i < windowCount windowStart windowEnd windowStep) ∧ 0 < windowCount windowStart windowEnd windowStep := by
  have hiff : ∀ i : ℕ, boundary windowStart windowStep i < windowEnd.toInt ↔
      i < windowCount windowStart windowEnd windowStep := by
    intro i
    unfold boundary windowCount
    rw [Int.lt_toNat, Int.lt_iff_add_one_le, Int.lt_iff_add_one_le, Int.le_ediv_iff_mul_le hstep, Int.add_mul]
    omega
  refine ⟨hiff, (hiff 0).mp ?_⟩
  simpa [boundary] using hwindow

/-- The window boundaries as the code computes them. -/
def boundaries (windowStart windowStep : Int64) (k : ℕ) : List Int64 :=
  (List.range (k + 1)).map fun i => Int64.ofInt (boundary windowStart windowStep i)

theorem windowEnds_eq {k : ℕ} (hiff : ∀ i, boundary windowStart windowStep i < windowEnd.toInt ↔ i < k)
    (hmono : ∀ i ≤ k, -2 ^ 63 ≤ boundary windowStart windowStep i ∧ boundary windowStart windowStep i < 2 ^ 63) {j : ℕ} :
    ∀ {i rounds : ℕ}, i + j = k → j < rounds →
      windowEnds windowEnd windowStep rounds (Int64.ofInt (boundary windowStart windowStep i)) =
        some ((List.range' (i + 1) j).map fun i => Int64.ofInt (boundary windowStart windowStep i)) := by
  induction j with
  | zero =>
    intro i rounds hi hrounds
    obtain ⟨rounds, rfl⟩ := Nat.exists_eq_succ_of_ne_zero (Nat.ne_of_gt hrounds)
    obtain ⟨hlow, hhigh⟩ := hmono i (by omega)
    have hstop : ¬ Int64.ofInt (boundary windowStart windowStep i) < windowEnd := by
      rw [Int64.lt_iff_toInt_lt, Int64.toInt_ofInt_of_le hlow hhigh, hiff]
      omega
    rw [windowEnds, if_neg hstop]
    rfl
  | succ j ih =>
    intro i rounds hi hrounds
    obtain ⟨rounds, rfl⟩ := Nat.exists_eq_succ_of_ne_zero (Nat.ne_of_gt (Nat.zero_lt_of_lt hrounds))
    obtain ⟨hlow, hhigh⟩ := hmono i (by omega)
    have hgo : Int64.ofInt (boundary windowStart windowStep i) < windowEnd := by
      rw [Int64.lt_iff_toInt_lt, Int64.toInt_ofInt_of_le hlow hhigh, hiff]
      omega
    have hnext : Int64.ofInt (boundary windowStart windowStep i) + windowStep =
        Int64.ofInt (boundary windowStart windowStep (i + 1)) := by
      rw [boundary_succ, Int64.ofInt_add, Int64.ofInt_toInt]
    rw [windowEnds, if_pos hgo, hnext, ih (by omega) (by omega), Option.map_some, List.range'_succ, List.map_cons]

theorem boundary_mono (hstep : 0 < windowStep.toInt) {i j : ℕ} (hij : i ≤ j) :
    boundary windowStart windowStep i ≤ boundary windowStart windowStep j := by
  unfold boundary
  have := Int.mul_le_mul_of_nonneg_right (Int.ofNat_le.mpr hij) (Int.le_of_lt hstep)
  omega

/-- The windows can be numbered by a `uint32_t` and end before `2 ^ 63`. -/
structure WindowsFit (windowStart windowEnd windowStep : Int64) : Prop where
  length : windowEnd.toInt - windowStart.toInt < 2 ^ 63
  count : windowCount windowStart windowEnd windowStep + 1 < 2 ^ 32
  last : boundary windowStart windowStep (windowCount windowStart windowEnd windowStep) < 2 ^ 63

theorem WindowsFit.boundary_range (hfit : WindowsFit windowStart windowEnd windowStep) (hstep : 0 < windowStep.toInt)
    {i : ℕ} (hi : i ≤ windowCount windowStart windowEnd windowStep) :
    -2 ^ 63 ≤ boundary windowStart windowStep i ∧ boundary windowStart windowStep i < 2 ^ 63 := by
  have hstart := windowStart.le_toInt
  have hlast := hfit.last
  have hfirst := @boundary_mono windowStart windowStep hstep 0 i (Nat.zero_le i)
  have hle := @boundary_mono windowStart windowStep hstep i _ hi
  have hzero : boundary windowStart windowStep 0 = windowStart.toInt := by simp [boundary]
  omega

theorem windowQueries_eq (hstep : 0 < windowStep.toInt) (hwindow : windowStart.toInt < windowEnd.toInt)
    (hfit : WindowsFit windowStart windowEnd windowStep) :
    windowQueries windowStart windowEnd windowStep =
      some (boundaries windowStart windowStep (windowCount windowStart windowEnd windowStep)) := by
  obtain ⟨hiff, hpos⟩ := windowCount_spec hstep hwindow
  have hrange := fun i hi => hfit.boundary_range (i := i) hstep hi
  obtain ⟨hlength, hcount, -⟩ := hfit
  generalize hk : windowCount windowStart windowEnd windowStep = k at *
  have hzero : Int64.ofInt (boundary windowStart windowStep 0) = windowStart := by
    simp [boundary, Int64.ofInt_toInt]
  have hends := @windowEnds_eq windowStart windowEnd windowStep k hiff hrange k 0 (2 ^ 64) (by omega) (by omega)
  rw [hzero] at hends
  have hquotient : ((windowEnd - windowStart) / windowStep).toInt < 2 ^ 32 ∧
      0 ≤ ((windowEnd - windowStart) / windowStep).toInt := by
    have hsub : (windowEnd - windowStart).toInt = windowEnd.toInt - windowStart.toInt := by
      rw [Int64.toInt_sub]
      exact Int.bmod_eq_of_le (by omega) (by omega)
    have hdiv : ((windowEnd - windowStart) / windowStep).toInt =
        (windowEnd.toInt - windowStart.toInt) / windowStep.toInt := by
      rw [Int64.toInt_div_of_ne_right _ _ (by rintro rfl; simp at hstep), hsub]
      exact Int.tdiv_eq_ediv_of_nonneg (by omega)
    have hle : (windowEnd.toInt - windowStart.toInt) / windowStep.toInt ≤ k := by
      rw [← hk, windowCount]
      have : (windowEnd.toInt - windowStart.toInt) / windowStep.toInt ≤
          (windowEnd.toInt - windowStart.toInt + windowStep.toInt - 1) / windowStep.toInt :=
        Int.ediv_le_ediv hstep (by omega)
      omega
    rw [hdiv]
    exact ⟨by omega, Int.ediv_nonneg (by omega) (Int.le_of_lt hstep)⟩
  have hreserve : ¬ 2 ^ 60 ≤ ((((windowEnd - windowStart) / windowStep).toInt % 2 ^ 64).toNat + 2) % 2 ^ 64 := by
    omega
  rw [windowQueries, if_neg hreserve, hends, Option.map_some, boundaries, List.range_eq_range', List.range'_succ,
    List.map_cons, hzero]

end LynxTrace.TraceProcessor.Intrinsics.SliceMipmap
