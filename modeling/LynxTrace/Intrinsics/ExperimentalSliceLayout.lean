import Mathlib.Algebra.Order.Ring.Int
import Mathlib.Data.List.Induction
import Mathlib.Data.List.Sort
import Mathlib.Logic.Function.Basic
import Mathlib.Tactic.Common

/-!
# ExperimentalSliceLayout — the greedy placement of the groups of `experimental_slice_layout`

`computeLayoutTable` follows `experimental_slice_layout.cc`.  A group keeps the id of its root in place of its address;
the ids come in ascending order, so that new keys of the map stand at its end.
-/

namespace LynxTrace.TraceProcessor.Intrinsics.ExperimentalSliceLayout

/-! ### The source -/

/-- The columns of the slice table that the layout reads. -/
structure SliceRow where
  id : ℕ
  ts : Int64
  dur : Int64
  trackId : ℕ
  depth : ℕ
  parentId : Option ℕ
  deriving DecidableEq, Repr

structure GroupInfo where
  rootId : ℕ
  start : Int64
  endTs : Int64
  layoutDepth : ℕ := 0
  maxDepth : ℕ
  deriving DecidableEq, Repr

structure CachedRow where
  id : ℕ
  layoutDepth : ℕ
  deriving DecidableEq, Repr

/-- `InsertSlice`: the id of the root, which is 0 below a parent that was not inserted. -/
def insertSlice (idMap : ℕ → ℕ) (id : ℕ) (parentId : Option ℕ) : ℕ → ℕ :=
  match parentId with
  | some parentId => Function.update idMap id (idMap parentId)
  | none => Function.update idMap id id

/-- The end time of a slice; the sum wraps around. -/
def SliceRow.endTs (r : SliceRow) : Int64 := if r.dur = -1 then Int64.maxValue else r.ts + r.dur

/-- A slice that is in the group of `root` already grows the group. -/
def GroupInfo.grow (g : GroupInfo) (r : SliceRow) : GroupInfo :=
  { g with
    maxDepth := max g.maxDepth r.depth
    endTs := if g.endTs < r.endTs then r.endTs else g.endTs }

def emplaceGroup (groups : List GroupInfo) (root : ℕ) (r : SliceRow) : List GroupInfo :=
  if groups.any (·.rootId = root) then groups.map fun g => if g.rootId = root then g.grow r else g
  else groups ++ [{ rootId := root, start := r.ts, endTs := r.endTs, maxDepth := r.depth }]

/-- Step 1: the bounding boxes. -/
def collectGroups (idMap : ℕ → ℕ) (groups : List GroupInfo) : List SliceRow → (ℕ → ℕ) × List GroupInfo
  | [] => (idMap, groups)
  | r :: rows =>
    let idMap := insertSlice idMap r.id r.parentId
    collectGroups idMap (emplaceGroup groups (idMap r.id) r) rows

/-- `std::sort` by start time; the order of groups that start together is open. -/
structure StartSort where
  sort : List GroupInfo → List GroupInfo
  perm : ∀ groups, (sort groups).Perm groups
  sorted : ∀ groups, (sort groups).Pairwise fun g₁ g₂ => g₁.start ≤ g₂.start

/-- Neither `fully_above_open` nor `fully_below_open`. -/
def collides (layoutDepth maxDepth : ℕ) (o : GroupInfo) : Bool :=
  let startDepth := layoutDepth
  let endDepth := (layoutDepth + maxDepth) % 2 ^ 32
  let openStartDepth := o.layoutDepth
  let openEndDepth := (o.layoutDepth + o.maxDepth) % 2 ^ 32
  !decide (endDepth < openStartDepth) && !decide (openEndDepth < startDepth)

/-- The search for a depth, for a number of rounds. -/
def findDepth (stillOpen : List GroupInfo) (maxDepth : ℕ) : ℕ → ℕ → Option ℕ
  | 0, _ => none
  | rounds + 1, layoutDepth =>
    if stillOpen.any (collides layoutDepth maxDepth) then
      findDepth stillOpen maxDepth rounds ((layoutDepth + 1) % 2 ^ 32)
    else some layoutDepth

/-- The depth the search starts from. -/
def firstDepth (stillOpen : List GroupInfo) : ℕ :=
  if 500 < stillOpen.length then
    stillOpen.foldl (fun depth o => max depth ((o.layoutDepth + o.maxDepth) % 2 ^ 32)) 0
  else 0

/-- Step 2: the groups with their layout depths.  A round of the search changes a `uint32_t` only, so a search that is
not done after `2 ^ 32` rounds goes on for ever; then there is no result. -/
def placeGroups (stillOpen : List GroupInfo) : List GroupInfo → Option (List GroupInfo)
  | [] => some []
  | g :: groups =>
    let stillOpen := stillOpen.filter fun o => !decide (o.endTs ≤ g.start)
    match findDepth stillOpen g.maxDepth (2 ^ 32) (firstDepth stillOpen) with
    | none => none
    | some layoutDepth =>
      let g := { g with layoutDepth := layoutDepth }
      (placeGroups (stillOpen ++ [g]) groups).map (g :: ·)

/-- Step 3: one output row. -/
def outputRow (idMap : ℕ → ℕ) (groups : List GroupInfo) (r : SliceRow) : Option CachedRow :=
  (groups.find? (·.rootId = idMap r.id)).map fun g => ⟨r.id, (r.depth + g.layoutDepth) % 2 ^ 32⟩

def outputRows (idMap : ℕ → ℕ) (groups : List GroupInfo) : List SliceRow → Option (List CachedRow)
  | [] => some []
  | r :: rows =>
    match outputRow idMap groups r, outputRows idMap groups rows with
    | some row, some cached => some (row :: cached)
    | _, _ => none

/-- The slices of the tracks to filter by, in the order of the table. -/
def selectedRows (table : List SliceRow) (trackIds : List ℕ) : List SliceRow := table.filter (·.trackId ∈ trackIds)

def computeLayoutTable (s : StartSort) (rows : List SliceRow) : Option (List CachedRow) :=
  let (idMap, groups) := collectGroups (fun _ => 0) [] rows
  match placeGroups [] (s.sort groups) with
  | none => none
  | some groups => outputRows idMap groups rows

/-! ### The search for a depth -/

/-- The last depth of a group. -/
def GroupInfo.bottom (g : GroupInfo) : ℕ := g.layoutDepth + g.maxDepth

/-- Two groups with no depth in common. -/
def GroupInfo.Apart (g h : GroupInfo) : Prop := g.bottom < h.layoutDepth ∨ h.bottom < g.layoutDepth

theorem collides_eq_false_iff {layoutDepth maxDepth bound : ℕ} {o : GroupInfo} (ho : o.bottom < bound)
    (hbound : bound + maxDepth < 2 ^ 32) (hlayout : layoutDepth ≤ bound) :
    collides layoutDepth maxDepth o = false ↔ layoutDepth + maxDepth < o.layoutDepth ∨ o.bottom < layoutDepth := by
  have hend : (layoutDepth + maxDepth) % 2 ^ 32 = layoutDepth + maxDepth := Nat.mod_eq_of_lt (by omega)
  have hopen : (o.layoutDepth + o.maxDepth) % 2 ^ 32 = o.bottom := by
    unfold GroupInfo.bottom at *
    exact Nat.mod_eq_of_lt (by omega)
  simp only [collides, hend, hopen]
  simp only [Bool.and_eq_false_iff, Bool.not_eq_false', decide_eq_true_eq]

theorem firstDepth_le {stillOpen : List GroupInfo} {bound : ℕ} (hopen : ∀ o ∈ stillOpen, o.bottom < bound) :
    firstDepth stillOpen ≤ bound := by
  unfold firstDepth
  split
  · have hfold : ∀ (l : List GroupInfo) depth, depth ≤ bound → (∀ o ∈ l, o.bottom < bound) →
        l.foldl (fun depth o => max depth ((o.layoutDepth + o.maxDepth) % 2 ^ 32)) depth ≤ bound := by
      intro l
      induction l with
      | nil => exact fun depth hdepth _ => hdepth
      | cons o l ih =>
        intro depth hdepth hl
        obtain ⟨ho, hl⟩ := List.forall_mem_cons.mp hl
        have hmod := Nat.mod_le (o.layoutDepth + o.maxDepth) (2 ^ 32)
        exact ih _ (Nat.max_le.mpr ⟨hdepth, Nat.le_trans hmod (Nat.le_of_lt ho)⟩) hl
    exact hfold stillOpen 0 (Nat.zero_le bound) hopen
  · exact Nat.zero_le bound

/-- At the bound the search is below every open group. -/
theorem findDepth_spec {stillOpen : List GroupInfo} {maxDepth bound : ℕ} (hopen : ∀ o ∈ stillOpen, o.bottom < bound)
    (hbound : bound + maxDepth < 2 ^ 32) {rounds layoutDepth : ℕ} (hlayout : layoutDepth ≤ bound)
    (hrounds : bound - layoutDepth < rounds) : ∃ d ≤ bound, findDepth stillOpen maxDepth rounds layoutDepth = some d ∧
      ∀ o ∈ stillOpen, d + maxDepth < o.layoutDepth ∨ o.bottom < d := by
  induction rounds generalizing layoutDepth with
  | zero => omega
  | succ rounds ih =>
    rw [findDepth]
    by_cases hany : stillOpen.any (collides layoutDepth maxDepth) = true
    · rw [if_pos hany]
      obtain ⟨o, ho, hcollides⟩ := List.any_eq_true.mp hany
      have hlt : layoutDepth < bound := by
        refine Nat.lt_of_le_of_ne hlayout fun heq => ?_
        have hfalse := (collides_eq_false_iff (hopen o ho) hbound hlayout).mpr (.inr (heq ▸ hopen o ho))
        rw [hfalse] at hcollides
        cases hcollides
      rw [Nat.mod_eq_of_lt (by omega)]
      exact ih hlt (by omega)
    · rw [if_neg hany]
      refine ⟨layoutDepth, hlayout, rfl, fun o ho => ?_⟩
      refine (collides_eq_false_iff (hopen o ho) hbound hlayout).mp (Bool.eq_false_of_not_eq_true fun h => ?_)
      exact hany (List.any_eq_true.mpr ⟨o, ho, h⟩)

/-! ### Placing all groups -/

/-- A group without its place. -/
def GroupInfo.box (g : GroupInfo) : GroupInfo := { g with layoutDepth := 0 }

/-- The number of depths that groups take up one below the other. -/
def totalHeight (groups : List GroupInfo) : ℕ := (groups.map (·.maxDepth + 1)).sum

theorem placeGroups_spec {groups : List GroupInfo} : ∀ {stillOpen : List GroupInfo} {bound : ℕ},
    (∀ o ∈ stillOpen, o.bottom < bound) → bound + totalHeight groups ≤ 2 ^ 32 →
      (groups.Pairwise fun g₁ g₂ => g₁.start ≤ g₂.start) → ∃ placed, placeGroups stillOpen groups = some placed ∧
        placed.map GroupInfo.box = groups.map GroupInfo.box ∧ (∀ g ∈ placed, g.bottom < bound + totalHeight groups) ∧
        (∀ o ∈ stillOpen, ∀ g ∈ placed, g.start < o.endTs → o.Apart g) ∧
        placed.Pairwise fun g₁ g₂ => g₂.start < g₁.endTs → g₁.Apart g₂ := by
  induction groups with
  | nil => exact fun _ _ _ => ⟨[], rfl, rfl, by simp, by simp, List.Pairwise.nil⟩
  | cons g groups ih =>
    intro stillOpen bound hopen hbound hsorted
    obtain ⟨hfirst, hsorted⟩ := List.pairwise_cons.mp hsorted
    have hheight : totalHeight (g :: groups) = g.maxDepth + 1 + totalHeight groups := by
      rw [totalHeight, List.map_cons, List.sum_cons, totalHeight]
    have hkept : ∀ o ∈ stillOpen.filter (fun o => !decide (o.endTs ≤ g.start)), o.bottom < bound :=
      fun o ho => hopen o (List.mem_filter.mp ho).1
    obtain ⟨d, hd, hfind, hapart⟩ := @findDepth_spec _ g.maxDepth bound hkept (by omega) (2 ^ 32) _
      (firstDepth_le hkept) (by omega)
    have hopen' : ∀ o ∈ stillOpen.filter (fun o => !decide (o.endTs ≤ g.start)) ++ [{ g with layoutDepth := d }],
        o.bottom < bound + (g.maxDepth + 1) := by
      intro o ho
      rcases List.mem_append.mp ho with ho | ho
      · have := hkept o ho
        omega
      · rw [List.mem_singleton.mp ho]
        show d + g.maxDepth < _
        omega
    obtain ⟨placed, hplaced, hbox, hbottom, hstill, hpairs⟩ := ih hopen' (by omega) hsorted
    have hstart : ∀ h ∈ placed, g.start ≤ h.start := by
      intro h hh
      obtain ⟨h', hh', heq⟩ := List.mem_map.mp (hbox ▸ List.mem_map_of_mem hh)
      have hsame : h'.start = h.start := by simpa [GroupInfo.box] using congrArg GroupInfo.start heq
      exact hsame ▸ hfirst h' hh'
    refine ⟨{ g with layoutDepth := d } :: placed, ?_, ?_, fun h hh => ?_, fun o ho h hh hlt => ?_, ?_⟩
    · simp only [placeGroups, hfind, hplaced, Option.map_some]
    · rw [List.map_cons, List.map_cons, hbox]
      rfl
    · rcases List.mem_cons.mp hh with rfl | hh
      · show d + g.maxDepth < _
        omega
      · have := hbottom h hh
        omega
    · -- an open group that ends later is open for all groups up to this one
      rcases List.mem_cons.mp hh with rfl | hh
      · have hmem : o ∈ stillOpen.filter fun o => !decide (o.endTs ≤ g.start) :=
          List.mem_filter.mpr ⟨ho, by simpa using Int64.not_le.mpr hlt⟩
        exact (hapart o hmem).symm
      · have hlt' := Int64.lt_of_le_of_lt (hstart h hh) hlt
        have hmem : o ∈ stillOpen.filter fun o => !decide (o.endTs ≤ g.start) :=
          List.mem_filter.mpr ⟨ho, by simpa using Int64.not_le.mpr hlt'⟩
        exact hstill o (List.mem_append_left _ hmem) h hh hlt
    · exact List.pairwise_cons.mpr ⟨fun h hh hlt =>
        hstill _ (List.mem_append_right _ (List.mem_singleton_self _)) h hh hlt, hpairs⟩

end LynxTrace.TraceProcessor.Intrinsics.ExperimentalSliceLayout
