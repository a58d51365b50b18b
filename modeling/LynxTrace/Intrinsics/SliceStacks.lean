import LynxTrace.Intrinsics.ExperimentalSliceLayout
import Mathlib.Algebra.BigOperators.Group.List.Basic
import Mathlib.Data.List.Pairwise
import Mathlib.Data.Set.Basic

/-!
# SliceStacks — what `experimental_slice_layout` outputs for a table of slices
-/

namespace LynxTrace.TraceProcessor.Intrinsics.ExperimentalSliceLayout

/-! ### Tables of slices -/

/-- The span of a slice, without an end where the slice is unfinished. -/
def SliceRow.span (r : SliceRow) : Set ℤ := {t | r.ts.toInt ≤ t ∧ (r.dur = -1 ∨ t < r.ts.toInt + r.dur.toInt)}

/-- `r` starts and ends while `q` is open. -/
def SliceRow.Inside (r q : SliceRow) : Prop :=
  q.ts.toInt ≤ r.ts.toInt ∧ (q.dur = -1 ∨ r.dur ≠ -1 ∧ r.ts.toInt + r.dur.toInt ≤ q.ts.toInt + q.dur.toInt)

/-- A slice table: ids are row numbers, and a slice names the slice it was nested in when it was added. -/
structure SlicesTable where
  rows : List SliceRow
  ids : rows.map (·.id) = List.range rows.length
  length_le : rows.length ≤ 2 ^ 32
  roots : ∀ r ∈ rows, r.parentId = none → r.depth = 0
  parents : ∀ r ∈ rows, ∀ p ∈ r.parentId, ∃ q ∈ rows, q.id = p ∧ q.id < r.id ∧ q.trackId = r.trackId ∧
    r.depth = q.depth + 1 ∧ r.Inside q

/-- `r` is in the stack of slices below `root`. -/
inductive InStack (rows : List SliceRow) : SliceRow → SliceRow → Prop
  | root {r : SliceRow} (hr : r ∈ rows) (hnone : r.parentId = none) : InStack rows r r
  | child {r q root : SliceRow} (hr : r ∈ rows) (hparent : r.parentId = some q.id) (hq : InStack rows q root) :
    InStack rows r root

variable {r root : SliceRow}

theorem InStack.mem {rows : List SliceRow} (h : InStack rows r root) : r ∈ rows := by
  cases h <;> assumption

theorem InStack.root_mem {rows : List SliceRow} (h : InStack rows r root) : root ∈ rows ∧ root.parentId = none := by
  induction h with
  | root hr hnone => exact ⟨hr, hnone⟩
  | child _ _ _ ih => exact ih

namespace SlicesTable

variable {t : SlicesTable}

theorem eq_of_id_eq {q : SliceRow} (hr : r ∈ t.rows) (hq : q ∈ t.rows) (h : r.id = q.id) : r = q :=
  List.inj_on_of_nodup_map (t.ids ▸ List.nodup_range) hr hq h

theorem ascending (t : SlicesTable) : t.rows.Pairwise fun r q => r.id < q.id := by
  have := List.pairwise_lt_range (n := t.rows.length)
  rw [← t.ids] at this
  exact List.pairwise_map.mp this

theorem exists_stack (hr : r ∈ t.rows) : ∃ root, InStack t.rows r root := by
  induction hid : r.id using Nat.strongRecOn generalizing r with
  | _ n ih =>
    cases hp : r.parentId with
    | none => exact ⟨r, .root hr hp⟩
    | some p =>
      obtain ⟨q, hq, rfl, hlt, -⟩ := t.parents r hr p hp
      obtain ⟨root, hroot⟩ := ih q.id (hid ▸ hlt) hq rfl
      exact ⟨root, .child hr hp hroot⟩

theorem stack_unique {root' : SliceRow} (h : InStack t.rows r root) (h' : InStack t.rows r root') : root = root' := by
  induction h with
  | root hr hnone =>
    cases h' with
    | root => rfl
    | child _ hparent _ => rw [hnone] at hparent; cases hparent
  | child hr hparent hq ih =>
    cases h' with
    | root _ hnone => rw [hnone] at hparent; cases hparent
    | child _ hparent' hq' =>
      rw [hparent, Option.some_inj] at hparent'
      rw [← eq_of_id_eq hq.mem hq'.mem hparent'] at hq'
      exact ih hq'

/-- A slice of a stack starts no earlier than the root and is in the same track. -/
theorem stack_root (h : InStack t.rows r root) : root.ts.toInt ≤ r.ts.toInt ∧ root.trackId = r.trackId := by
  induction h with
  | root => exact ⟨Int.le_refl _, rfl⟩
  | child hr hparent hq ih =>
    obtain ⟨q', hq', hid, -, htrack, -, hinside⟩ := t.parents _ hr _ hparent
    rw [eq_of_id_eq hq' hq.mem hid] at htrack hinside
    exact ⟨Int.le_trans ih.1 hinside.1, ih.2.trans htrack⟩

/-- Where a slice of a stack is open, its root is open. -/
theorem stack_inside (h : InStack t.rows r root) : r.span ⊆ root.span := by
  induction h with
  | root => exact fun _ hx => hx
  | child hr hparent hq ih =>
    obtain ⟨q', hq', hid, -, -, -, hinside⟩ := t.parents _ hr _ hparent
    rw [eq_of_id_eq hq' hq.mem hid] at hinside
    rintro x ⟨hstart, hend⟩
    refine ih ⟨Int.le_trans hinside.1 hstart, ?_⟩
    rcases hinside.2 with hopen | ⟨hclosed, hle⟩
    · exact .inl hopen
    · rcases hend with hopen | hend
      · exact absurd hopen hclosed
      · exact .inr (Int.lt_of_lt_of_le hend hle)

end SlicesTable

/-! ### Step 1 -/

variable {t : SlicesTable} {trackIds : List ℕ}

/-- What step 1 has after the selected slices `done`. -/
structure Grouped (t : SlicesTable) (done : List SliceRow) (idMap : ℕ → ℕ) (groups : List GroupInfo) : Prop where
  ids : ∀ r ∈ done, ∀ root, InStack t.rows r root → idMap r.id = root.id
  nodup : (groups.map (·.rootId)).Nodup
  fresh : ∀ g ∈ groups, g.layoutDepth = 0
  roots : ∀ g ∈ groups, ∃ root ∈ done, InStack t.rows root root ∧ g.rootId = root.id ∧ g.start = root.ts
  boxes : ∀ r ∈ done, ∀ root, InStack t.rows r root → ∃ g ∈ groups, g.rootId = root.id ∧ r.depth ≤ g.maxDepth ∧
    r.endTs ≤ g.endTs
  height : totalHeight groups ≤ done.length

theorem Grouped.start (t : SlicesTable) : Grouped t [] (fun _ => 0) [] :=
  ⟨by simp, List.nodup_nil, by simp, by simp, by simp, Nat.le_refl _⟩

theorem GroupInfo.endTs_le_grow (g : GroupInfo) (r : SliceRow) :
    g.endTs ≤ (g.grow r).endTs ∧ r.endTs ≤ (g.grow r).endTs := by
  unfold GroupInfo.grow
  split
  · rename_i hlt
    exact ⟨Int64.le_of_lt hlt, Int64.le_refl _⟩
  · rename_i hge
    exact ⟨Int64.le_refl _, Int64.not_lt.mp hge⟩

theorem totalHeight_grow {groups : List GroupInfo} {root : ℕ} (hnodup : (groups.map (·.rootId)).Nodup)
    (hdepth : ∀ g ∈ groups, g.rootId = root → r.depth ≤ g.maxDepth + 1) :
    totalHeight (groups.map fun g => if g.rootId = root then g.grow r else g) ≤ totalHeight groups + 1 := by
  induction groups with
  | nil => exact Nat.zero_le _
  | cons g groups ih =>
    obtain ⟨hnot, hnodup⟩ := List.nodup_cons.mp hnodup
    obtain ⟨hg, hdepth⟩ := List.forall_mem_cons.mp hdepth
    simp only [totalHeight, List.map_cons, List.sum_cons] at ih ⊢
    by_cases hroot : g.rootId = root
    · have hrest : (groups.map fun g => if g.rootId = root then g.grow r else g) = groups := by
        refine (List.map_congr_left fun h hh => if_neg fun heq => hnot ?_).trans (List.map_id groups)
        exact List.mem_map.mpr ⟨h, hh, heq.trans hroot.symm⟩
      have := hg hroot
      rw [if_pos hroot, hrest]
      simp only [GroupInfo.grow]
      omega
    · rw [if_neg hroot]
      have := ih hnodup hdepth
      omega

/-- One more selected slice, whose parent was there before. -/
theorem Grouped.step {done : List SliceRow} {idMap : ℕ → ℕ} {groups : List GroupInfo} (h : Grouped t done idMap groups)
    (hr : r ∈ t.rows) (hdone : ∀ q ∈ done, q ∈ t.rows ∧ q.id < r.id)
    (hparent : ∀ q ∈ t.rows, r.parentId = some q.id → q ∈ done) :
    Grouped t (done ++ [r]) (insertSlice idMap r.id r.parentId)
      (emplaceGroup groups (insertSlice idMap r.id r.parentId r.id) r) := by
  have hnew : ∀ root, InStack t.rows r root → insertSlice idMap r.id r.parentId r.id = root.id := by
    intro root hroot
    cases hroot with
    | root _ hnone => simp [insertSlice, hnone]
    | child _ hp hq => simp [insertSlice, hp, h.ids _ (hparent _ hq.mem hp) root hq]
  have hold : ∀ q ∈ done, insertSlice idMap r.id r.parentId q.id = idMap q.id := by
    intro q hq
    have hne : q.id ≠ r.id := Nat.ne_of_lt (hdone q hq).2
    cases r.parentId <;> simp [insertSlice, Function.update_of_ne hne]
  have hids : ∀ q ∈ done ++ [r], ∀ root, InStack t.rows q root →
      insertSlice idMap r.id r.parentId q.id = root.id := by
    intro q hq root hroot
    rcases List.mem_append.mp hq with hq | hq
    · rw [hold q hq, h.ids q hq root hroot]
    · rw [List.mem_singleton.mp hq] at hroot ⊢
      exact hnew root hroot
  obtain ⟨root, hroot⟩ := SlicesTable.exists_stack hr
  rw [hnew root hroot]
  unfold emplaceGroup
  by_cases hany : groups.any (·.rootId = root.id) = true
  · rw [if_pos hany]
    have hkeep : ∀ g : GroupInfo, (if g.rootId = root.id then g.grow r else g).rootId = g.rootId ∧
        (if g.rootId = root.id then g.grow r else g).start = g.start ∧
        (if g.rootId = root.id then g.grow r else g).layoutDepth = g.layoutDepth ∧
        g.maxDepth ≤ (if g.rootId = root.id then g.grow r else g).maxDepth ∧
        g.endTs ≤ (if g.rootId = root.id then g.grow r else g).endTs := by
      intro g
      split
      · exact ⟨rfl, rfl, rfl, Nat.le_max_left _ _, (g.endTs_le_grow r).1⟩
      · exact ⟨rfl, rfl, rfl, Nat.le_refl _, Int64.le_refl _⟩
    refine ⟨hids, ?_, fun g hg => ?_, fun g hg => ?_, fun q hq root' hroot' => ?_, ?_⟩
    · rw [List.map_map]
      have hsame : ((·.rootId) ∘ fun g : GroupInfo => if g.rootId = root.id then g.grow r else g) = (·.rootId) :=
        funext fun g => (hkeep g).1
      rw [hsame]
      exact h.nodup
    · obtain ⟨g, hmem, rfl⟩ := List.mem_map.mp hg
      rw [(hkeep g).2.2.1, h.fresh g hmem]
    · obtain ⟨g, hmem, rfl⟩ := List.mem_map.mp hg
      obtain ⟨q, hq, hstack, hid, hstart⟩ := h.roots g hmem
      exact ⟨q, List.mem_append_left _ hq, hstack, by rw [(hkeep g).1, hid], by rw [(hkeep g).2.1, hstart]⟩
    · rcases List.mem_append.mp hq with hq | hq
      · obtain ⟨g, hg, hid, hdepth, hend⟩ := h.boxes q hq root' hroot'
        exact ⟨_, List.mem_map_of_mem hg, by rw [(hkeep g).1, hid], Nat.le_trans hdepth (hkeep g).2.2.2.1,
          Int64.le_trans hend (hkeep g).2.2.2.2⟩
      · rw [List.mem_singleton.mp hq] at hroot' ⊢
        rw [← SlicesTable.stack_unique hroot hroot']
        obtain ⟨g, hg, hid⟩ := List.any_eq_true.mp hany
        simp only [decide_eq_true_eq] at hid
        refine ⟨_, List.mem_map_of_mem hg, by rw [(hkeep g).1, hid], ?_, ?_⟩
        · rw [if_pos hid]
          exact Nat.le_max_right _ _
        · rw [if_pos hid]
          exact (g.endTs_le_grow r).2
    · rw [List.length_append, List.length_singleton]
      refine Nat.le_trans (totalHeight_grow h.nodup fun g hg hid => ?_) (Nat.succ_le_succ h.height)
      cases hroot with
      | root _ hnone => rw [t.roots r hr hnone]; exact Nat.zero_le _
      | child _ hp hq =>
        obtain ⟨q', hq', hqid, -, -, hdepth, -⟩ := t.parents r hr _ hp
        rw [SlicesTable.eq_of_id_eq hq' hq.mem hqid] at hdepth
        obtain ⟨g', hg', hid', hle, -⟩ := h.boxes _ (hparent _ hq.mem hp) root hq
        rw [List.inj_on_of_nodup_map h.nodup hg hg' (hid.trans hid'.symm)]
        omega
  · rw [if_neg hany]
    have hnone : ∀ g ∈ groups, g.rootId ≠ root.id := fun g hg heq =>
      hany (List.any_eq_true.mpr ⟨g, hg, by simpa using heq⟩)
    -- the first slice of a stack is its root
    have hself : r = root := by
      cases hroot with
      | root => rfl
      | child _ hp hq =>
        obtain ⟨g, hg, hid, -⟩ := h.boxes _ (hparent _ hq.mem hp) root hq
        exact absurd hid (hnone g hg)
    subst hself
    have hdepth : r.depth = 0 := t.roots r hr hroot.root_mem.2
    refine ⟨hids, ?_, fun g hg => ?_, fun g hg => ?_, fun q hq root' hroot' => ?_, ?_⟩
    · rw [List.map_append, List.map_singleton]
      refine List.nodup_append.mpr ⟨h.nodup, List.nodup_singleton _, fun x hx y hy => ?_⟩
      obtain ⟨g, hg, rfl⟩ := List.mem_map.mp hx
      rw [List.mem_singleton.mp hy]
      exact hnone g hg
    · rcases List.mem_append.mp hg with hg | hg
      · exact h.fresh g hg
      · rw [List.mem_singleton.mp hg]
    · rcases List.mem_append.mp hg with hg | hg
      · obtain ⟨q, hq, hstack, hid, hstart⟩ := h.roots g hg
        exact ⟨q, List.mem_append_left _ hq, hstack, hid, hstart⟩
      · rw [List.mem_singleton.mp hg]
        exact ⟨r, List.mem_append_right _ (List.mem_singleton_self _), hroot, rfl, rfl⟩
    · rcases List.mem_append.mp hq with hq | hq
      · obtain ⟨g, hg, hbox⟩ := h.boxes q hq root' hroot'
        exact ⟨g, List.mem_append_left _ hg, hbox⟩
      · rw [List.mem_singleton.mp hq] at hroot' ⊢
        rw [← SlicesTable.stack_unique hroot hroot']
        exact ⟨_, List.mem_append_right _ (List.mem_singleton_self _), rfl, Nat.le_refl _, Int64.le_refl _⟩
    · have := h.height
      simp only [totalHeight, List.map_append, List.sum_append, List.map_singleton, List.sum_singleton,
        List.length_append, List.length_singleton] at this ⊢
      omega

theorem Grouped.collect {rest : List SliceRow} : ∀ {done : List SliceRow} {idMap : ℕ → ℕ} {groups : List GroupInfo},
    Grouped t done idMap groups → done ++ rest = selectedRows t.rows trackIds →
      Grouped t (done ++ rest) (collectGroups idMap groups rest).1 (collectGroups idMap groups rest).2 := by
  induction rest with
  | nil => intro done idMap groups h _; rwa [List.append_nil]
  | cons r rest ih =>
    intro done idMap groups h hsel
    have hmem : ∀ q ∈ done ++ r :: rest, q ∈ t.rows ∧ q.trackId ∈ trackIds := fun q hq => by
      simpa [hsel, selectedRows] using hq
    have hascending : (done ++ r :: rest).Pairwise fun q s => q.id < s.id :=
      hsel ▸ t.ascending.sublist List.filter_sublist
    obtain ⟨-, hafter, hbefore⟩ := List.pairwise_append.mp hascending
    have hr := hmem r (List.mem_append_right _ List.mem_cons_self)
    have hstep := h.step hr.1
      (fun q hq => ⟨(hmem q (List.mem_append_left _ hq)).1, hbefore q hq r List.mem_cons_self⟩)
      (fun q hq hp => by
        obtain ⟨q', hq', hid, hlt, htrack, -⟩ := t.parents r hr.1 _ hp
        rw [SlicesTable.eq_of_id_eq hq' hq hid] at hlt htrack
        have hqsel : q ∈ done ++ r :: rest := by
          rw [hsel]
          exact List.mem_filter.mpr ⟨hq, by simpa [htrack] using hr.2⟩
        rcases List.mem_append.mp hqsel with hq | hq
        · exact hq
        · rcases List.mem_cons.mp hq with rfl | hq
          · exact absurd hlt (Nat.lt_irrefl _)
          · exact absurd (Nat.lt_trans hlt ((List.pairwise_cons.mp hafter).1 q hq)) (Nat.lt_irrefl _))
    rw [List.append_cons] at hsel ⊢
    exact ih hstep hsel

/-! ### Step 3 -/

theorem outputRows_eq {idMap : ℕ → ℕ} {groups : List GroupInfo} {f : SliceRow → CachedRow} {rows : List SliceRow}
    (h : ∀ r ∈ rows, outputRow idMap groups r = some (f r)) : outputRows idMap groups rows = some (rows.map f) := by
  induction rows with
  | nil => rfl
  | cons r rows ih =>
    obtain ⟨hr, hrows⟩ := List.forall_mem_cons.mp h
    simp only [outputRows, hr, ih hrows, List.map_cons]

/-- Two groups that are open together lie apart. -/
def GroupInfo.ApartIfOpen (g h : GroupInfo) : Prop := h.start < g.endTs → g.start < h.endTs → g.Apart h

instance : Std.Symm GroupInfo.ApartIfOpen := ⟨fun _ _ h hlt hlt' => (h hlt' hlt).symm⟩

/-! ### The layout -/

namespace SlicesTable

/-- The selected slices are output once each, in their order, all slices of a stack moved by the same amount. -/
def MovesStacks (t : SlicesTable) (trackIds : List ℕ) (out : List CachedRow) : Prop :=
  out.map (·.id) = (selectedRows t.rows trackIds).map (·.id) ∧
    ∃ offset : SliceRow → ℕ, ∀ r ∈ selectedRows t.rows trackIds, ∀ root, InStack t.rows r root →
      ∀ row ∈ out, row.id = r.id → row.layoutDepth = r.depth + offset root

/-- Selected slices that are open together have different layout depths. -/
def NoOverlap (t : SlicesTable) (trackIds : List ℕ) (out : List CachedRow) : Prop :=
  ∀ r ∈ selectedRows t.rows trackIds, ∀ q ∈ selectedRows t.rows trackIds, r ≠ q → (r.span ∩ q.span).Nonempty →
    ∀ row ∈ out, ∀ row' ∈ out, row.id = r.id → row'.id = q.id → row.layoutDepth ≠ row'.layoutDepth

/-- Slices of one stack at one depth are not open together. -/
def Nested (t : SlicesTable) (trackIds : List ℕ) : Prop :=
  ∀ r ∈ selectedRows t.rows trackIds, ∀ q ∈ selectedRows t.rows trackIds, r ≠ q → ∀ root, InStack t.rows r root →
    InStack t.rows q root → r.depth = q.depth → ¬ (r.span ∩ q.span).Nonempty

/-- The ends of the finished slices are `int64_t` numbers, and where an unfinished root starts at the last one, no
other stack has an unfinished slice. -/
def EndsFit (t : SlicesTable) (trackIds : List ℕ) : Prop :=
  (∀ r ∈ selectedRows t.rows trackIds, r.dur ≠ -1 →
    -2 ^ 63 ≤ r.ts.toInt + r.dur.toInt ∧ r.ts.toInt + r.dur.toInt < 2 ^ 63) ∧
  ∀ root ∈ selectedRows t.rows trackIds, root.parentId = none → root.ts = Int64.maxValue → root.dur = -1 →
    ∀ r ∈ selectedRows t.rows trackIds, r.dur = -1 → InStack t.rows r root

/-- Where two slices of different stacks are open together, the group of the one starts before that of the other
ends. -/
theorem EndsFit.start_lt (h : t.EndsFit trackIds) {q a b : SliceRow} (hr : r ∈ selectedRows t.rows trackIds)
    (hq : q ∈ selectedRows t.rows trackIds) (ha : InStack t.rows r a) (hb : InStack t.rows q b) (hne : a ≠ b) {x : ℤ}
    (hxr : x ∈ r.span) (hxq : x ∈ q.span) : b.ts < r.endTs := by
  obtain ⟨hbq, htrack⟩ := stack_root hb
  obtain ⟨hbx, hbend⟩ := stack_inside hb hxq
  obtain ⟨hrx, hrend⟩ := hxr
  have hbsel : b ∈ selectedRows t.rows trackIds :=
    List.mem_filter.mpr ⟨hb.root_mem.1, by simpa [htrack] using (List.mem_filter.mp hq).2⟩
  unfold SliceRow.endTs
  by_cases hopen : r.dur = -1
  · rw [if_pos hopen]
    refine Int64.lt_of_le_of_ne (Int64.le_maxValue _) fun hlast => ?_
    have hlast' : b.ts.toInt = 2 ^ 63 - 1 := by rw [hlast]; rfl
    have hbopen : b.dur = -1 := by
      by_contra hclosed
      have := (h.1 b hbsel hclosed).2
      rcases hbend with hbopen | hlt
      · exact hclosed hbopen
      · omega
    exact hne (stack_unique ha (h.2 b hbsel hb.root_mem.2 hlast hbopen r hr hopen))
  · rw [if_neg hopen, Int64.lt_iff_toInt_lt]
    obtain ⟨hlow, hhigh⟩ := h.1 r hr hopen
    have hsum : (r.ts + r.dur).toInt = r.ts.toInt + r.dur.toInt := by
      rw [Int64.toInt_add]
      exact Int.bmod_eq_of_le (by omega) (by omega)
    rcases hrend with hrend | hrend
    · exact absurd hrend hopen
    · omega

/-- **The layout** of every table and every set of tracks: the search ends, each selected slice is output once and
moved with its stack.  Slices that are open together have different depths only if those of each stack do, and if the
ends fit as well, they have. -/
theorem computeLayoutTable_spec (s : StartSort) (t : SlicesTable) (trackIds : List ℕ) :
    ∃ out, computeLayoutTable s (selectedRows t.rows trackIds) = some out ∧ t.MovesStacks trackIds out ∧
      (t.NoOverlap trackIds out → t.Nested trackIds) ∧
      (t.EndsFit trackIds ∧ t.Nested trackIds → t.NoOverlap trackIds out) := by
  have hgrouped := @Grouped.collect t trackIds (selectedRows t.rows trackIds) [] _ [] (Grouped.start t)
    (List.nil_append _)
  rw [List.nil_append] at hgrouped
  generalize hcollect : collectGroups (fun _ => 0) [] (selectedRows t.rows trackIds) = collected at hgrouped
  obtain ⟨idMap, groups⟩ := collected
  change Grouped t _ idMap groups at hgrouped
  have hperm := s.perm groups
  have hheight : totalHeight (s.sort groups) ≤ 2 ^ 32 := by
    have hsum : totalHeight (s.sort groups) = totalHeight groups := (hperm.map _).sum_eq
    have hsel : (selectedRows t.rows trackIds).length ≤ t.rows.length := List.length_filter_le _ _
    have := hgrouped.height
    have := t.length_le
    omega
  obtain ⟨placed, hplaced, hbox, hbottom, -, hpairs⟩ :=
    @placeGroups_spec (s.sort groups) [] 0 (by simp) (by omega) (s.sorted groups)
  have hbottom' : ∀ g ∈ placed, g.bottom < 2 ^ 32 := fun g hg => by
    have := hbottom g hg
    omega
  have hrootIds : placed.map (·.rootId) = (s.sort groups).map (·.rootId) := by
    have := congrArg (List.map GroupInfo.rootId) hbox
    rwa [List.map_map, List.map_map] at this
  have hnodup : (placed.map (·.rootId)).Nodup := hrootIds ▸ (hperm.map _).nodup_iff.mpr hgrouped.nodup
  -- the group of a selected slice
  have hgroup : ∀ r ∈ selectedRows t.rows trackIds, ∀ root, InStack t.rows r root → ∃ g ∈ placed,
      g.rootId = root.id ∧ r.depth ≤ g.maxDepth ∧ r.endTs ≤ g.endTs ∧ g.start = root.ts := by
    intro r hr root hroot
    obtain ⟨g, hg, hid, hdepth, hend⟩ := hgrouped.boxes r hr root hroot
    obtain ⟨a, -, ha, haid, hstart⟩ := hgrouped.roots g hg
    have hboxmem : g.box ∈ placed.map GroupInfo.box := hbox ▸ List.mem_map_of_mem (hperm.mem_iff.mpr hg)
    obtain ⟨p, hp, heq⟩ := List.mem_map.mp hboxmem
    simp only [GroupInfo.box, GroupInfo.mk.injEq] at heq
    obtain ⟨h₁, h₂, h₃, -, h₄⟩ := heq
    have haroot : a = root := eq_of_id_eq ha.mem hroot.root_mem.1 (haid.symm.trans hid)
    exact ⟨p, hp, h₁.trans hid, h₄ ▸ hdepth, h₃ ▸ hend, by rw [h₂, hstart, haroot]⟩
  have hfind : ∀ g ∈ placed, placed.find? (·.rootId = g.rootId) = some g := by
    intro g hg
    obtain ⟨p, hp⟩ := Option.isSome_iff_exists.mp
      (List.find?_isSome (p := fun h : GroupInfo => decide (h.rootId = g.rootId)).mpr ⟨g, hg, by simp⟩)
    have hid := List.find?_some hp
    simp only [decide_eq_true_eq] at hid
    rw [hp, List.inj_on_of_nodup_map hnodup (List.mem_of_find?_eq_some hp) hg hid]
  let offset : ℕ → ℕ := fun id => ((placed.find? (·.rootId = id)).map (·.layoutDepth)).getD 0
  have hoffset : ∀ g ∈ placed, offset g.rootId = g.layoutDepth := fun g hg => by
    simp only [offset, hfind g hg, Option.map_some, Option.getD_some]
  have houtput : ∀ r ∈ selectedRows t.rows trackIds,
      outputRow idMap placed r = some ⟨r.id, r.depth + offset (idMap r.id)⟩ := by
    intro r hr
    obtain ⟨root, hroot⟩ := exists_stack (List.mem_filter.mp hr).1
    obtain ⟨g, hg, hid, hdepth, -, -⟩ := hgroup r hr root hroot
    have hlt := hbottom' g hg
    unfold GroupInfo.bottom at hlt
    rw [outputRow, hgrouped.ids r hr root hroot, ← hid, hfind g hg, hoffset g hg, Option.map_some,
      Nat.mod_eq_of_lt (by omega)]
  refine ⟨_, by simp only [computeLayoutTable, hcollect, hplaced]; exact outputRows_eq houtput, ⟨?_, ?_⟩, ?_, ?_⟩
  · rw [List.map_map]
    rfl
  · refine ⟨fun root => offset root.id, fun r hr root hroot row hrow hid => ?_⟩
    obtain ⟨q, hq, rfl⟩ := List.mem_map.mp hrow
    obtain rfl := eq_of_id_eq (List.mem_filter.mp hq).1 (List.mem_filter.mp hr).1 hid
    show q.depth + offset (idMap q.id) = _
    rw [hgrouped.ids q hr root hroot]
  · intro hno r hr q hq hne root hroot hroot' hdepth hopen
    refine hno r hr q hq hne hopen _ (List.mem_map_of_mem hr) _ (List.mem_map_of_mem hq) rfl rfl ?_
    show r.depth + offset (idMap r.id) = q.depth + offset (idMap q.id)
    rw [hgrouped.ids r hr root hroot, hgrouped.ids q hq root hroot', hdepth]
  · rintro ⟨hfit, hnested⟩ r hr q hq hne ⟨x, hxr, hxq⟩ row hrow row' hrow' hid hid'
    obtain ⟨r', hr', rfl⟩ := List.mem_map.mp hrow
    obtain ⟨q', hq', rfl⟩ := List.mem_map.mp hrow'
    obtain rfl := eq_of_id_eq (List.mem_filter.mp hr').1 (List.mem_filter.mp hr).1 hid
    obtain rfl := eq_of_id_eq (List.mem_filter.mp hq').1 (List.mem_filter.mp hq).1 hid'
    obtain ⟨a, ha⟩ := exists_stack (List.mem_filter.mp hr).1
    obtain ⟨b, hb⟩ := exists_stack (List.mem_filter.mp hq).1
    show r'.depth + offset (idMap r'.id) ≠ q'.depth + offset (idMap q'.id)
    rw [hgrouped.ids _ hr a ha, hgrouped.ids _ hq b hb]
    by_cases hab : a = b
    · subst hab
      intro heq
      exact hnested _ hr _ hq hne a ha hb (by omega) ⟨x, hxr, hxq⟩
    · obtain ⟨g, hg, hgid, hgdepth, hgend, hgstart⟩ := hgroup _ hr a ha
      obtain ⟨g', hg', hgid', hgdepth', hgend', hgstart'⟩ := hgroup _ hq b hb
      have hdiff : g ≠ g' := fun heq => hab (eq_of_id_eq ha.root_mem.1 hb.root_mem.1 (by rw [← hgid, ← hgid', heq]))
      have hapart : g.Apart g' := by
        have hall : placed.Pairwise GroupInfo.ApartIfOpen := hpairs.imp fun h hlt _ => h hlt
        refine hall.forall hg hg' hdiff ?_ ?_
        · rw [hgstart']
          exact Int64.lt_of_lt_of_le (hfit.start_lt hr hq ha hb hab hxr hxq) hgend
        · rw [hgstart]
          exact Int64.lt_of_lt_of_le (hfit.start_lt hq hr hb ha (Ne.symm hab) hxq hxr) hgend'
      rw [← hgid, ← hgid', hoffset g hg, hoffset g' hg']
      unfold GroupInfo.Apart GroupInfo.bottom at hapart
      omega

/-! ### Two unfinished slices -/

def startOrder : GroupInfo → GroupInfo → Prop := fun g₁ g₂ => g₁.start ≤ g₂.start

instance : DecidableRel startOrder := fun g₁ g₂ => inferInstanceAs (Decidable (g₁.start ≤ g₂.start))

instance : Std.Total startOrder := ⟨fun g₁ g₂ => Int64.le_total g₁.start g₂.start⟩

instance : IsTrans GroupInfo startOrder := ⟨fun _ _ _ => Int64.le_trans⟩

/-- A sort that keeps groups that start together in their order. -/
def insertionStartSort : StartSort where
  sort groups := groups.insertionSort startOrder
  perm groups := List.perm_insertionSort startOrder groups
  sorted groups := List.pairwise_insertionSort startOrder groups

/-- Two unfinished slices of two tracks, the first with a child, the second at the last `int64_t`. -/
def lateTable : SlicesTable where
  rows := [⟨0, 0, -1, 0, 0, none⟩, ⟨1, 10, 5, 0, 1, some 0⟩, ⟨2, Int64.maxValue, -1, 1, 0, none⟩]
  ids := by decide
  length_le := by decide
  roots := by decide
  parents := by
    intro r hr p hp
    simp only [List.mem_cons, List.not_mem_nil, or_false] at hr
    rcases hr with rfl | rfl | rfl
    · cases hp
    · cases hp
      exact ⟨_, List.mem_cons_self, rfl, by decide, rfl, rfl, by decide, .inl rfl⟩
    · cases hp

theorem not_computeLayoutTable_late :
    computeLayoutTable insertionStartSort (selectedRows lateTable.rows [0, 1]) = some [⟨0, 0⟩, ⟨1, 1⟩, ⟨2, 0⟩] ∧
      (SliceRow.span ⟨0, 0, -1, 0, 0, none⟩ ∩ SliceRow.span ⟨2, Int64.maxValue, -1, 1, 0, none⟩).Nonempty :=
  ⟨by decide, 2 ^ 63, ⟨by decide, .inl rfl⟩, ⟨by decide, .inl rfl⟩⟩

end SlicesTable

end LynxTrace.TraceProcessor.Intrinsics.ExperimentalSliceLayout
