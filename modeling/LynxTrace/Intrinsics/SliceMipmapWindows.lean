import LynxTrace.Intrinsics.SliceMipmap

/-!
# SliceMipmapWindows — which slices the windows of `slice_mipmap` aggregate
-/

namespace LynxTrace.TraceProcessor.Intrinsics.SliceMipmap

open ImplicitSegmentForest GallopingSearch

/-! ### Positions in a sorted list -/

section

variable {α : Type*} {P : α → Bool}

/-- In a list with the elements that satisfy `P` in front, they are those before their count. -/
theorem lt_countP_iff {l : List α} (hdown : l.Pairwise fun a b => P b → P a) {i : ℕ} {x : α} (hx : l[i]? = some x) :
    P x = true ↔ i < l.countP P := by
  induction l generalizing i with
  | nil => cases hx
  | cons a l ih =>
    obtain ⟨ha, hl⟩ := List.pairwise_cons.mp hdown
    rw [List.countP_cons]
    cases i with
    | zero =>
      obtain rfl : a = x := by simpa using hx
      by_cases hP : P a = true
      · simp [hP]
      · have hnone : l.countP P = 0 := List.countP_eq_zero.mpr fun b hb hPb => hP (ha b hb hPb)
        simp [hP, hnone]
    | succ i =>
      rw [List.getElem?_cons_succ] at hx
      by_cases hP : P a = true
      · simp [hP, ih hl hx]
      · have hnone : l.countP P = 0 := List.countP_eq_zero.mpr fun b hb hPb => hP (ha b hb hPb)
        have hxP : ¬ P x = true := fun hPx => hP (ha x (List.mem_of_getElem? hx) hPx)
        simp [hP, hnone, hxP]

/-- A filter that keeps the elements from `a` up to `b`. -/
theorem filter_eq_drop_take {l : List α} {a b : ℕ} (h : ∀ i x, l[i]? = some x → (P x = true ↔ a ≤ i ∧ i < b)) :
    l.filter P = (l.take b).drop a := by
  induction l generalizing a b with
  | nil => simp
  | cons x l ih =>
    have hx := h 0 x rfl
    have hl : ∀ i y, l[i]? = some y → (P y = true ↔ a ≤ i + 1 ∧ i + 1 < b) := fun i y hy => h (i + 1) y hy
    cases b with
    | zero =>
      rw [List.take_zero, List.drop_nil, List.filter_eq_nil_iff]
      intro y hy
      obtain ⟨i, hi⟩ := List.mem_iff_getElem?.mp hy
      rw [h i y hi]
      omega
    | succ b =>
      rw [List.take_succ_cons]
      cases a with
      | zero =>
        rw [List.drop_zero, List.filter_cons_of_pos (hx.mpr (by omega)), ih (a := 0) (b := b) fun i y hy => by
          rw [hl i y hy]
          omega]
        rfl
      | succ a =>
        rw [List.drop_succ_cons, List.filter_cons_of_neg (fun hP => by have := hx.mp hP; omega),
          ih (a := a) (b := b) fun i y hy => by
            rw [hl i y hy]
            omega]

end

/-! ### The slices of one depth -/

/-- Sorted by start, and every slice ends before the next one starts. -/
def NonOverlapping (slices : List SliceRow) : Prop :=
  slices.Pairwise fun a b => a.ts.toInt ≤ b.ts.toInt ∧ a.ts.toInt + a.dur.toInt ≤ b.ts.toInt

instance (slices : List SliceRow) : Decidable (NonOverlapping slices) :=
  inferInstanceAs (Decidable (slices.Pairwise _))

/-- The number of slices that start before `t`. -/
def position (slices : List SliceRow) (t : ℤ) : ℕ := slices.countP fun r => r.ts.toInt < t

variable {slices : List SliceRow}

theorem position_le_length (slices : List SliceRow) (t : ℤ) : position slices t ≤ slices.length :=
  List.countP_le_length

theorem position_mono {t t' : ℤ} (h : t ≤ t') : position slices t ≤ position slices t' := by
  refine List.countP_mono_left fun r _ hr => ?_
  rw [decide_eq_true_iff] at hr ⊢
  exact Int.lt_of_lt_of_le hr h

theorem NonOverlapping.lt_position_iff (h : NonOverlapping slices) {t : ℤ} {i : ℕ} {r : SliceRow}
    (hr : slices[i]? = some r) : r.ts.toInt < t ↔ i < position slices t := by
  refine Iff.trans decide_eq_true_iff.symm (lt_countP_iff (P := fun r => decide (r.ts.toInt < t)) ?_ hr)
  refine h.imp fun hab hb => ?_
  rw [decide_eq_true_iff] at hb ⊢
  omega

/-- A lower bound of the starts is a position. -/
theorem NonOverlapping.eq_position (h : NonOverlapping slices) {key : Int64} {p : ℕ}
    (hp : IsLowerBound (slices.map (·.ts)) key p) : p = position slices key.toInt := by
  have hle := hp.le_length
  rw [List.length_map] at hle
  have hget : ∀ i r, slices[i]? = some r → (slices.map (·.ts)).getD i 0 = r.ts := by
    intro i r hr
    simp [List.getD_eq_getElem?_getD, hr]
  refine Nat.le_antisymm (Nat.le_of_not_lt fun hlt => ?_) (Nat.le_of_not_lt fun hlt => ?_)
  · have hr := List.getElem?_eq_getElem (Nat.lt_of_lt_of_le hlt hle)
    have hbefore := hp.before _ hlt
    rw [hget _ _ hr, Int64.lt_iff_toInt_lt, h.lt_position_iff hr] at hbefore
    omega
  · have hlt' := Nat.lt_of_lt_of_le hlt (position_le_length slices _)
    have hr := List.getElem?_eq_getElem hlt'
    have hafter := hp.after _ (Nat.le_refl p) (by rwa [List.length_map])
    rw [hget _ _ hr, Int64.le_iff_toInt_le] at hafter
    have := (h.lt_position_iff hr).mpr hlt
    omega

/-! ### Results, depth by depth -/

/-- The results that the code emits for the slices of one depth. -/
def depthResults (windowStart : Int64) (queries : List Int64) (depth : ℕ) (slices : List SliceRow) : List Result :=
  let positions := queries.map fun q => position slices q.toInt
  emitWindows (.ofSlices slices) depth (startIndex (.ofSlices slices) windowStart (positions.headD 0)) positions.tail

variable {windowStart windowStep : Int64}

/-- **The results of all depths**, where the boundaries are in order. -/
theorem filterDepths_eq {queries : List Int64} (hsorted : queries.Pairwise (· ≤ ·)) (hcount : queries.length < 2 ^ 32)
    (hne : queries ≠ []) {depths : List (List SliceRow)}
    (hdepths : ∀ slices ∈ depths, NonOverlapping slices ∧ slices.length < 2 ^ 31) {depth : ℕ} {positions : List ℕ} :
    filterDepths windowStart queries depth positions (depths.map .ofSlices) =
      some ((depths.zipIdx depth).flatMap fun (slices, depth) => depthResults windowStart queries depth slices) := by
  induction depths generalizing depth positions with
  | nil => rfl
  | cons slices depths ih =>
    obtain ⟨hslices, hlength⟩ := hdepths slices List.mem_cons_self
    have hholds := ofSlices_holds hlength
    have hmod : queries.length % 2 ^ 32 = queries.length := Nat.mod_eq_of_lt hcount
    have htses : (slices.map (·.ts)).Pairwise (· ≤ ·) := by
      rw [List.pairwise_map]
      exact hslices.imp fun h => Int64.le_iff_toInt_le.mpr h.1
    obtain ⟨found, hfound, hbounds⟩ := batchedLowerBound_spec htses (by rw [List.length_map]; omega) hsorted
      fun hnil => absurd hnil hne
    have hpositions : found = queries.map fun q => position slices q.toInt := by
      clear hfound hsorted hcount hmod hne ih
      induction hbounds with
      | nil => rfl
      | cons h _ ih => rw [List.map_cons, ← ih, hslices.eq_position h]
    have hreuse : (found ++ (positions ++ List.replicate queries.length 0).drop found.length).take queries.length =
        found := by
      have : found.length = queries.length := by rw [hpositions, List.length_map]
      rw [← this, List.take_left']
      rfl
    rw [List.map_cons, filterDepths, hmod, hholds.timestamps, hfound]
    simp only [hreuse]
    rw [ih fun s hs => hdepths s (List.mem_cons_of_mem _ hs), Option.map_some, List.zipIdx_cons, List.flatMap_cons,
      depthResults, hpositions]

/-! ### The look back -/

/-- The place of the first slice that belongs to a window. -/
def firstMember (slices : List SliceRow) (windowStart : Int64) : ℕ :=
  let p := position slices windowStart.toInt
  if p ≠ 0 ∧ ∀ r ∈ slices[p - 1]?, windowStart.toInt < r.ts.toInt + r.dur.toInt then p - 1 else p

/-- The last slice before the windows reaches into them just if the next slice, where there is one, starts after
their start and ends after it. -/
def FirstWindowRight (windowStart : Int64) (slices : List SliceRow) : Prop :=
  ∀ before ∈ (slices.filter (·.ts < windowStart)).getLast?,
    (windowStart.toInt < before.ts.toInt + before.dur.toInt ↔
      ∀ next ∈ slices.find? (windowStart ≤ ·.ts), next.ts ≠ windowStart ∧ windowStart < next.ts + next.dur)

theorem NonOverlapping.filter_lt (h : NonOverlapping slices) (windowStart : Int64) :
    slices.filter (·.ts < windowStart) = slices.take (position slices windowStart.toInt) := by
  rw [← @List.drop_zero _ (List.take _ _)]
  refine filter_eq_drop_take fun i r hr => ?_
  rw [decide_eq_true_iff, Int64.lt_iff_toInt_lt, h.lt_position_iff hr]
  omega

theorem NonOverlapping.find?_le (h : NonOverlapping slices) (windowStart : Int64) :
    slices.find? (windowStart ≤ ·.ts) = slices[position slices windowStart.toInt]? := by
  have hfilter : slices.filter (windowStart ≤ ·.ts) =
      (slices.take slices.length).drop (position slices windowStart.toInt) := by
    refine filter_eq_drop_take fun i r hr => ?_
    have hi := (List.getElem?_eq_some_iff.mp hr).1
    rw [decide_eq_true_iff, Int64.le_iff_toInt_le, ← Int.not_lt, h.lt_position_iff hr]
    omega
  rw [← List.head?_filter, hfilter, List.take_length, List.head?_drop]

/-- The look back, by the slice it looks at. -/
theorem startIndex_eq (hlength : slices.length < 2 ^ 31) (windowStart : Int64) {p : ℕ} (hp : p ≤ slices.length) :
    startIndex (.ofSlices slices) windowStart p =
      if p ≠ 0 ∧ ∀ next ∈ slices[p]?, next.ts ≠ windowStart ∧ windowStart < next.ts + next.dur then p - 1 else p := by
  have hholds := ofSlices_holds hlength
  have hcond : (p = slices.length ∨ ((slices.map (·.ts)).getD p 0 ≠ windowStart ∧ windowStart <
        (slices.map (·.ts)).getD p 0 + ((PerDepth.ofSlices slices).forest.getD (p * 2 % 2 ^ 32) default).dur)) ↔
      ∀ next ∈ slices[p]?, next.ts ≠ windowStart ∧ windowStart < next.ts + next.dur := by
    rcases Nat.lt_or_eq_of_le hp with hlt | rfl
    · have hnext := List.getElem?_eq_getElem hlt
      have hleaf : (leaves slices)[p]? = some ⟨slices[p].dur, 1, p⟩ := by
        rw [leaves, List.getElem?_mapIdx, hnext]
        rfl
      have hforest : (PerDepth.ofSlices slices).forest.getD (p * 2 % 2 ^ 32) default = ⟨slices[p].dur, 1, p⟩ := by
        rw [show p * 2 % 2 ^ 32 = p * 2 by omega, List.getD_eq_getElem?_getD,
          hholds.forest.getElem_leaf aggregate hleaf, Option.getD_some]
      have hts : (slices.map (·.ts)).getD p 0 = slices[p].ts := by
        rw [List.getD_eq_getElem?_getD, List.getElem?_map, hnext, Option.map_some, Option.getD_some]
      rw [hforest, hts, hnext]
      simp [Nat.ne_of_lt hlt]
    · simp
  simp only [startIndex, hholds.timestamps, List.length_map, hcond]

/-- **The look back is right** exactly under the condition. -/
theorem startIndex_eq_iff (h : NonOverlapping slices) (hlength : slices.length < 2 ^ 31) (windowStart : Int64) :
    startIndex (.ofSlices slices) windowStart (position slices windowStart.toInt) = firstMember slices windowStart ↔
      FirstWindowRight windowStart slices := by
  have hle := position_le_length slices windowStart.toInt
  rw [startIndex_eq hlength windowStart hle]
  unfold FirstWindowRight firstMember
  rw [h.filter_lt, h.find?_le]
  generalize position slices windowStart.toInt = p at *
  by_cases hzero : p = 0
  · subst hzero
    simp
  obtain ⟨q, rfl⟩ := Nat.exists_eq_succ_of_ne_zero hzero
  have hbefore := List.getElem?_eq_getElem (Nat.lt_of_lt_of_le (Nat.lt_succ_self q) hle)
  have hlast : (slices.take q.succ).getLast? = some slices[q] := by
    rw [List.getLast?_take, if_neg hzero, Nat.succ_sub_one, hbefore]
    rfl
  simp only [hlast, Nat.succ_sub_one, hbefore, Option.mem_some_iff, forall_eq', ne_eq, hzero, not_false_eq_true,
    true_and]
  by_cases hreach : windowStart.toInt < slices[q].ts.toInt + slices[q].dur.toInt
  · simp only [hreach, if_true, true_iff, ite_eq_left_iff]
    refine ⟨fun hne => ?_, fun hnext hne => absurd hnext hne⟩
    by_contra hnot
    exact absurd (hne hnot) (Nat.succ_ne_self q)
  · simp only [hreach, if_false, false_iff, ite_eq_right_iff]
    exact ⟨fun heq hnext => absurd (heq hnext).symm (Nat.succ_ne_self q), fun hnot hnext => absurd hnext hnot⟩

/-! ### The windows -/

/-- The slices that start in the window `i`, and for the first window also the one that reaches into it. -/
def members (windowStart windowStep : Int64) (slices : List SliceRow) (i : ℕ) : List SliceRow :=
  slices.filter fun r =>
    (boundary windowStart windowStep i ≤ r.ts.toInt ∧ r.ts.toInt < boundary windowStart windowStep (i + 1)) ∨
      (i = 0 ∧ r.ts.toInt < windowStart.toInt ∧ windowStart.toInt < r.ts.toInt + r.dur.toInt)

/-- At most one result for a window, which aggregates the members; none where the window has no member. -/
structure CellRight (cell : Option Result) (members : List SliceRow) : Prop where
  none : cell = .none → members = []
  some : ∀ r ∈ cell, Aggregates r members

/-- What `FilterImpl` is to emit. -/
structure Emits (windowStart windowEnd windowStep : Int64) (depths : List (List SliceRow))
    (results : List Result) : Prop where
  depth : ∀ r ∈ results, r.depth < depths.length
  windows : ∀ d slices, depths[d]? = some slices → ∃ cell : ℕ → Option Result,
    results.filter (·.depth = d) =
      (List.range (windowCount windowStart windowEnd windowStep)).filterMap cell ∧
    ∀ i < windowCount windowStart windowEnd windowStep, CellRight (cell i) (members windowStart windowStep slices i)

/-- The places of the first members of the windows, where those of the first window begin at `start`. -/
def windowPlace (windowStart windowStep : Int64) (slices : List SliceRow) (start i : ℕ) : ℕ :=
  if i = 0 then start else position slices (boundary windowStart windowStep i)

theorem boundary_zero (windowStart windowStep : Int64) : boundary windowStart windowStep 0 = windowStart.toInt := by
  simp [boundary]

theorem firstMember_le (slices : List SliceRow) (windowStart : Int64) :
    firstMember slices windowStart ≤ position slices windowStart.toInt := by
  unfold firstMember
  dsimp only
  split <;> omega

/-- **The members of a window** stand next to each other. -/
theorem NonOverlapping.members_eq (h : NonOverlapping slices) (hstep : 0 < windowStep.toInt) (i : ℕ) :
    members windowStart windowStep slices i =
      (slices.take (windowPlace windowStart windowStep slices (firstMember slices windowStart) (i + 1))).drop
        (windowPlace windowStart windowStep slices (firstMember slices windowStart) i) := by
  refine filter_eq_drop_take fun j r hr => ?_
  have hsucc := h.lt_position_iff hr (t := boundary windowStart windowStep (i + 1))
  rw [decide_eq_true_iff, windowPlace, windowPlace, if_neg (Nat.succ_ne_zero i), hsucc]
  cases i with
  | succ i =>
    rw [← Int.not_lt, h.lt_position_iff hr, if_neg (Nat.succ_ne_zero i)]
    omega
  | zero =>
    have hmono : position slices (boundary windowStart windowStep 0) ≤
        position slices (boundary windowStart windowStep (0 + 1)) :=
      position_mono (boundary_mono hstep (Nat.zero_le _))
    have hstart := h.lt_position_iff hr (t := boundary windowStart windowStep 0)
    have hle := firstMember_le slices windowStart
    rw [boundary_zero] at hmono hstart ⊢
    rw [if_pos rfl]
    by_cases hj : j < position slices windowStart.toInt
    · -- of the slices before the windows only the last can reach into them
      have hreach : windowStart.toInt < r.ts.toInt + r.dur.toInt ↔ firstMember slices windowStart ≤ j := by
        unfold firstMember
        dsimp only
        rcases Nat.lt_or_eq_of_le (Nat.le_sub_one_of_lt hj) with hlt | rfl
        · have hlast := List.getElem?_eq_getElem
            (Nat.lt_of_lt_of_le (Nat.sub_lt (by omega) Nat.one_pos) (position_le_length slices windowStart.toInt))
          have hend := (List.pairwise_iff_getElem.mp h j (position slices windowStart.toInt - 1)
            (List.getElem?_eq_some_iff.mp hr).1 (List.getElem?_eq_some_iff.mp hlast).1 hlt).2
          rw [(List.getElem?_eq_some_iff.mp hr).2] at hend
          have hbefore := (h.lt_position_iff hlast (t := windowStart.toInt)).mpr (by omega)
          split <;> omega
        · rw [hr]
          simp only [Option.mem_some_iff, forall_eq']
          split <;> omega
      omega
    · omega

/-- The sum of the counts of all windows. -/
theorem sum_counts {cell : ℕ → Option Result} {g : ℕ → ℕ} {k : ℕ} (hmono : ∀ i < k, g i ≤ g (i + 1))
    (hnone : ∀ i < k, cell i = none → g i = g (i + 1)) (hsome : ∀ i < k, ∀ r ∈ cell i, r.count = g (i + 1) - g i) :
    (((List.range k).filterMap cell).map (·.count)).sum + g 0 = g k := by
  induction k with
  | zero => simp
  | succ k ih =>
    have ih := ih (fun i hi => hmono i (by omega)) (fun i hi => hnone i (by omega)) fun i hi => hsome i (by omega)
    rw [List.range_succ, List.filterMap_append, List.map_append, List.sum_append]
    have hlast := hmono k (Nat.lt_succ_self k)
    cases hcell : cell k with
    | none =>
      have := hnone k (Nat.lt_succ_self k) hcell
      simp [hcell]
      omega
    | some r =>
      have := hsome k (Nat.lt_succ_self k) r hcell
      simp [hcell]
      omega

theorem windowPlace_mono (hstep : 0 < windowStep.toInt) {start : ℕ} (hstart : start ≤ position slices windowStart.toInt)
    (i : ℕ) :
    windowPlace windowStart windowStep slices start i ≤ windowPlace windowStart windowStep slices start (i + 1) := by
  unfold windowPlace
  rw [if_neg (Nat.succ_ne_zero i)]
  have hmono : position slices (boundary windowStart windowStep i) ≤
      position slices (boundary windowStart windowStep (i + 1)) := position_mono (boundary_mono hstep (Nat.le_succ i))
  split
  · rename_i hi
    subst hi
    rw [boundary_zero] at hmono
    omega
  · exact hmono

theorem windowPlace_le_length {start : ℕ} (hstart : start ≤ slices.length) (i : ℕ) :
    windowPlace windowStart windowStep slices start i ≤ slices.length := by
  unfold windowPlace
  split
  · exact hstart
  · exact position_le_length slices _

/-- The results of one depth, window by window. -/
theorem depthResults_eq {k : ℕ}
    (hrange : ∀ i ≤ k, (Int64.ofInt (boundary windowStart windowStep i)).toInt = boundary windowStart windowStep i)
    (depth : ℕ) (slices : List SliceRow) :
    depthResults windowStart (boundaries windowStart windowStep k) depth slices =
      (List.range k).filterMap fun i =>
        let g := windowPlace windowStart windowStep slices
          (startIndex (.ofSlices slices) windowStart (position slices windowStart.toInt))
        if g i = g (i + 1) then none else some (windowResult (.ofSlices slices) depth (g i) (g (i + 1))) := by
  have hpositions : (boundaries windowStart windowStep k).map (fun q => position slices q.toInt) =
      position slices windowStart.toInt ::
        (List.range k).map fun i => position slices (boundary windowStart windowStep (i + 1)) := by
    rw [boundaries, List.map_map, List.range_succ_eq_map, List.map_cons, List.map_map, ← boundary_zero windowStart
      windowStep]
    congr 1
    · exact congrArg _ (hrange 0 (Nat.zero_le k))
    · exact List.map_congr_left fun i hi => congrArg _ (hrange (i + 1) (List.mem_range.mp hi))
  rw [depthResults, hpositions]
  exact emitWindows_range _ depth (windowPlace windowStart windowStep slices _) k

theorem windowResult_depth_of_mem {d : PerDepth} {depth startIdx : ℕ} {ends : List ℕ} {r : Result}
    (hr : r ∈ emitWindows d depth startIdx ends) : r.depth = depth := by
  induction ends generalizing startIdx with
  | nil => cases hr
  | cons endIdx ends ih =>
    rw [emitWindows] at hr
    split at hr
    · exact ih hr
    · rcases List.mem_cons.mp hr with rfl | hr
      · rfl
      · exact ih hr

/-- The results of one depth among all. -/
theorem filter_depth {α : Type*} {f : α → ℕ → List Result} (hf : ∀ a d, ∀ r ∈ f a d, r.depth = d) {as : List α}
    {n d : ℕ} {a : α} (ha : as[d]? = some a) :
    ((as.zipIdx n).flatMap fun (a, d) => f a d).filter (·.depth = n + d) = f a (n + d) := by
  induction as generalizing n d with
  | nil => cases ha
  | cons b as ih =>
    rw [List.zipIdx_cons, List.flatMap_cons, List.filter_append]
    cases d with
    | zero =>
      obtain rfl : b = a := by simpa using ha
      have hrest : ((as.zipIdx (n + 1)).flatMap fun (a, d) => f a d).filter (·.depth = n + 0) = [] := by
        rw [List.filter_eq_nil_iff]
        intro r hr
        obtain ⟨⟨c, e⟩, he, hr⟩ := List.mem_flatMap.mp hr
        have hle := (List.mem_zipIdx he).1
        have := hf c e r hr
        simp only [decide_eq_true_iff]
        omega
      rw [hrest, List.append_nil]
      refine List.filter_eq_self.mpr ?_
      exact fun r hr => decide_eq_true (hf b n r hr)
    | succ d =>
      have hfirst : (f b n).filter (·.depth = n + (d + 1)) = [] := by
        rw [List.filter_eq_nil_iff]
        intro r hr
        have := hf b n r hr
        simp only [decide_eq_true_iff]
        omega
      have hnext : n + (d + 1) = n + 1 + d := by omega
      rw [hfirst, List.nil_append, hnext]
      exact ih (by simpa using ha)

/-- The windows of one depth are right exactly where the look back is. -/
theorem cells_right_iff (h : NonOverlapping slices) (hlength : slices.length < 2 ^ 31) (hstep : 0 < windowStep.toInt)
    {k : ℕ} (hk : 0 < k)
    (hrange : ∀ i ≤ k, (Int64.ofInt (boundary windowStart windowStep i)).toInt = boundary windowStart windowStep i)
    (depth : ℕ) :
    (∃ cell : ℕ → Option Result,
      depthResults windowStart (boundaries windowStart windowStep k) depth slices = (List.range k).filterMap cell ∧
        ∀ i < k, CellRight (cell i) (members windowStart windowStep slices i)) ↔
      FirstWindowRight windowStart slices := by
  have hle := position_le_length slices windowStart.toInt
  have hfirst := firstMember_le slices windowStart
  have hstart : startIndex (.ofSlices slices) windowStart (position slices windowStart.toInt) ≤
      position slices windowStart.toInt := by
    rw [startIndex_eq hlength windowStart hle]
    split <;> omega
  rw [← startIndex_eq_iff h hlength windowStart, depthResults_eq hrange]
  generalize startIndex (.ofSlices slices) windowStart (position slices windowStart.toInt) = start at *
  have length_range : ∀ {start i}, start ≤ slices.length →
      ((slices.take (windowPlace windowStart windowStep slices start (i + 1))).drop
        (windowPlace windowStart windowStep slices start i)).length =
      windowPlace windowStart windowStep slices start (i + 1) - windowPlace windowStart windowStep slices start i := by
    intro start i hstart
    rw [List.length_drop, List.length_take, Nat.min_eq_left (windowPlace_le_length hstart (i + 1))]
  have hright : ∀ {start i}, start ≤ position slices windowStart.toInt →
      ¬ windowPlace windowStart windowStep slices start i = windowPlace windowStart windowStep slices start (i + 1) →
      Aggregates (windowResult (.ofSlices slices) depth (windowPlace windowStart windowStep slices start i)
        (windowPlace windowStart windowStep slices start (i + 1)))
        ((slices.take (windowPlace windowStart windowStep slices start (i + 1))).drop
          (windowPlace windowStart windowStep slices start i)) := by
    intro start i hstart hne
    exact query_spec (ofSlices_holds hlength) hlength depth
      (Nat.lt_of_le_of_ne (windowPlace_mono hstep hstart i) hne)
      (windowPlace_le_length (Nat.le_trans hstart hle) (i + 1))
  constructor
  · -- the counts of all windows together tell where the first one begins
    rintro ⟨cell, hcells, hcell⟩
    have hcode := @sum_counts (fun i => let g := windowPlace windowStart windowStep slices start
      if g i = g (i + 1) then none else some (windowResult (.ofSlices slices) depth (g i) (g (i + 1))))
      (windowPlace windowStart windowStep slices start) k (fun i _ => windowPlace_mono hstep hstart i)
      (fun i _ hi => by simpa using hi)
      (fun i _ r hr => by
        simp only [Option.mem_def, Option.ite_none_left_eq_some, Option.some.injEq] at hr
        obtain ⟨hne, rfl⟩ := hr
        rw [(hright hstart hne).count, length_range (Nat.le_trans hstart hle)])
    have hmembers := @sum_counts cell (windowPlace windowStart windowStep slices (firstMember slices windowStart)) k
      (fun i _ => windowPlace_mono hstep hfirst i)
      (fun i hi hnone => by
        have hlength := congrArg List.length ((hcell i hi).none hnone)
        rw [h.members_eq hstep, length_range (Nat.le_trans hfirst hle), List.length_nil] at hlength
        exact Nat.le_antisymm (windowPlace_mono hstep hfirst i) (Nat.sub_eq_zero_iff_le.mp hlength))
      (fun i hi r hr => by
        rw [((hcell i hi).some r hr).count, h.members_eq hstep, length_range (Nat.le_trans hfirst hle)])
    rw [hcells] at hcode
    rw [windowPlace, if_pos rfl, windowPlace, if_neg (Nat.ne_of_gt hk)] at hcode hmembers
    omega
  · rintro rfl
    refine ⟨_, rfl, fun i _ => ?_⟩
    rw [h.members_eq hstep]
    constructor
    · intro hnone
      have heq : windowPlace windowStart windowStep slices (firstMember slices windowStart) i =
          windowPlace windowStart windowStep slices (firstMember slices windowStart) (i + 1) := by
        simpa using hnone
      rw [heq]
      exact List.drop_eq_nil_of_le (by rw [List.length_take]; omega)
    · intro r hr
      simp only [Option.mem_def, Option.ite_none_left_eq_some, Option.some.injEq] at hr
      obtain ⟨hne, rfl⟩ := hr
      exact hright hfirst hne

/-- **The windows of `slice_mipmap`** aggregate the slices that belong to them exactly where the look back is right at
every depth. -/
theorem filterImpl_emits_iff {windowStart windowEnd windowStep : Int64} (hwindow : windowStart < windowEnd)
    (hstep : 0 < windowStep) (hfit : WindowsFit windowStart windowEnd windowStep) {depths : List (List SliceRow)}
    (hdepths : ∀ slices ∈ depths, NonOverlapping slices ∧ slices.length < 2 ^ 31) (positions : List ℕ) :
    (∃ results, filterImpl (depths.map .ofSlices) windowStart windowEnd windowStep positions = some results ∧
      Emits windowStart windowEnd windowStep depths results) ↔
      ∀ slices ∈ depths, FirstWindowRight windowStart slices := by
  have hstep : 0 < windowStep.toInt := Int64.lt_iff_toInt_lt.mp hstep
  have hpos := (windowCount_spec hstep (Int64.lt_iff_toInt_lt.mp hwindow)).2
  have hrange : ∀ i ≤ windowCount windowStart windowEnd windowStep,
      (Int64.ofInt (boundary windowStart windowStep i)).toInt = boundary windowStart windowStep i := by
    intro i hi
    obtain ⟨hlow, hhigh⟩ := hfit.boundary_range hstep hi
    exact Int64.toInt_ofInt_of_le hlow hhigh
  have hqueries := windowQueries_eq hstep (Int64.lt_iff_toInt_lt.mp hwindow) hfit
  have hcount := hfit.count
  generalize hk : windowCount windowStart windowEnd windowStep = k at *
  have hsorted : (boundaries windowStart windowStep k).Pairwise (· ≤ ·) := by
    rw [boundaries, List.pairwise_map]
    refine List.pairwise_lt_range.imp_of_mem fun {i j} hi hj hij => ?_
    have hi := List.mem_range.mp hi
    have hj := List.mem_range.mp hj
    rw [Int64.le_iff_toInt_le, hrange i (by omega), hrange j (by omega)]
    exact boundary_mono hstep (Nat.le_of_lt hij)
  have hresults : filterImpl (depths.map .ofSlices) windowStart windowEnd windowStep positions =
      some ((depths.zipIdx 0).flatMap fun (slices, depth) =>
        depthResults windowStart (boundaries windowStart windowStep k) depth slices) := by
    rw [filterImpl, hqueries]
    have hlength : (boundaries windowStart windowStep k).length = k + 1 := by
      rw [boundaries, List.length_map, List.length_range]
    exact filterDepths_eq hsorted (by rwa [hlength]) (List.ne_nil_of_length_pos (by omega)) hdepths
  have hdepth : ∀ slices depth, ∀ r ∈ depthResults windowStart (boundaries windowStart windowStep k) depth slices,
      r.depth = depth := fun _ _ _ hr => windowResult_depth_of_mem hr
  have hfilter : ∀ d slices, depths[d]? = some slices →
      ((depths.zipIdx 0).flatMap fun (slices, depth) =>
        depthResults windowStart (boundaries windowStart windowStep k) depth slices).filter (·.depth = d) =
      depthResults windowStart (boundaries windowStart windowStep k) d slices := by
    intro d slices hd
    have := filter_depth hdepth (n := 0) hd
    rwa [Nat.zero_add] at this
  rw [hresults]
  constructor
  · rintro ⟨_, heq, hemits⟩ slices hslices
    obtain rfl := Option.some.inj heq
    obtain ⟨d, hd⟩ := List.mem_iff_getElem?.mp hslices
    obtain ⟨hsorted, hlength⟩ := hdepths slices hslices
    obtain ⟨cell, hcells, hcell⟩ := hemits.windows d slices hd
    rw [hk, hfilter d slices hd] at hcells
    rw [hk] at hcell
    exact (cells_right_iff hsorted hlength hstep hpos hrange d).mp ⟨cell, hcells, hcell⟩
  · intro hright
    refine ⟨_, rfl, fun r hr => ?_, fun d slices hd => ?_⟩
    · obtain ⟨⟨slices, d⟩, hd, hr⟩ := List.mem_flatMap.mp hr
      rw [hdepth slices d r hr]
      have := (List.mem_zipIdx hd).2.1
      omega
    · have hslices := List.mem_of_getElem? hd
      obtain ⟨hsorted, hlength⟩ := hdepths slices hslices
      obtain ⟨cell, hcells, hcell⟩ := (cells_right_iff hsorted hlength hstep hpos hrange d).mpr (hright slices hslices)
      exact ⟨cell, by rw [hk, hfilter d slices hd, hcells], by rwa [hk]⟩

/-- A slice that starts in the first window, after one that has ended, and the next ends after the start of the
windows: all of it is aggregated as it should be where the slice before reaches into the window. -/
theorem filterImpl_emits_reaching : FirstWindowRight 10 [⟨0, 0, 15⟩, ⟨1, 20, 5⟩] ∧
    ∃ results, filterImpl ([[⟨0, 0, 15⟩, ⟨1, 20, 5⟩]].map .ofSlices) 10 30 10 [] = some results ∧
      Emits 10 30 10 [[⟨0, 0, 15⟩, ⟨1, 20, 5⟩]] results := by
  have hright : FirstWindowRight 10 [⟨0, 0, 15⟩, ⟨1, 20, 5⟩] := by
    intro before hbefore
    obtain rfl : (⟨0, 0, 15⟩ : SliceRow) = before := by simpa using hbefore
    decide
  refine ⟨hright, (filterImpl_emits_iff (by decide) (by decide) ⟨by decide, by decide, by decide⟩ ?_ []).mpr ?_⟩
  · intro slices hslices
    obtain rfl := List.mem_singleton.mp hslices
    exact ⟨by decide, by decide⟩
  · intro slices hslices
    obtain rfl := List.mem_singleton.mp hslices
    exact hright

/-- A slice that has ended before the windows is counted in the first one, as the next slice ends after their start. -/
theorem filterImpl_not_emits : NonOverlapping [⟨0, 0, 5⟩, ⟨1, 20, 5⟩] ∧
    ¬ ∃ results, filterImpl ([[⟨0, 0, 5⟩, ⟨1, 20, 5⟩]].map .ofSlices) 10 30 10 [] = some results ∧
      Emits 10 30 10 [[⟨0, 0, 5⟩, ⟨1, 20, 5⟩]] results := by
  have hrun : filterImpl ([[⟨0, 0, 5⟩, ⟨1, 20, 5⟩]].map .ofSlices) 10 30 10 [] =
      some [⟨0, 5, 1, 0, 0⟩, ⟨20, 5, 1, 1, 0⟩] := by decide +kernel
  have hwindows : windowCount 10 30 10 = 2 := by decide
  refine ⟨by decide, fun ⟨results, heq, hemits⟩ => ?_⟩
  obtain rfl := Option.some.inj (hrun.symm.trans heq)
  obtain ⟨cell, hcells, hcell⟩ := hemits.windows 0 _ rfl
  rw [hwindows] at hcells hcell
  -- no slice belongs to the first window
  have hfirst : cell 0 = none := by
    cases hcase : cell 0 with
    | none => rfl
    | some r =>
      obtain ⟨m, hm, -⟩ := ((hcell 0 (by decide)).some r hcase).longest
      revert hm
      have hnone : members 10 10 [⟨0, 0, 5⟩, ⟨1, 20, 5⟩] 0 = [] := by decide
      rw [hnone]
      exact fun hm => absurd hm List.not_mem_nil
  have hlength := congrArg List.length hcells
  have hone : ((List.range 2).filterMap cell).length ≤ 1 := by
    rw [List.range_succ_eq_map, List.filterMap_cons, hfirst]
    exact List.length_filterMap_le _ _
  rw [← hcells] at hone
  exact absurd hone (by decide)

end LynxTrace.TraceProcessor.Intrinsics.SliceMipmap
