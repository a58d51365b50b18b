import Mathlib.Algebra.Order.Ring.Int
import Mathlib.Data.Finset.Card
import Mathlib.Data.Finset.Range
import Mathlib.Data.List.Induction
import Mathlib.Data.List.Nodup
import Mathlib.Data.List.Sort
import Mathlib.Order.Bounds.Basic
import Mathlib.Tactic.Common

/-!
# SlicePacker — the depths `INTERNAL_LAYOUT` gives to slices

* `SlicePacker.addSlice` and `stepStatus` follow `layout_functions.cc`; the queue of slice ends is kept as a list
  ordered by end time.
* `SlicePacker.layout` is one run of the window function: a step and a value for every slice.
* `layout_isLeast` : each slice gets the least depth that no earlier slice still holds, by the end times of the code.
* `layout_no_overlap` : where the end times do not meet the last `int64_t`, that is the least depth that no earlier
  slice occupies.
* `layout_fewest` : and no other layout has fewer of them.
-/

namespace LynxTrace.TraceProcessor.Intrinsics.InternalLayout

/-! ### The source -/

/-- One row given to the window function. -/
structure Slice where
  ts : Int64
  dur : Int64
  deriving DecidableEq, Repr

/-- The end of a slice that still holds its depth. -/
structure SliceEnd where
  ts : Int64
  depth : ℕ
  deriving DecidableEq, Repr

inductive LastCall
  | kAddSlice | kQuery
  deriving DecidableEq, Repr

structure SlicePacker where
  lastCall : LastCall := .kQuery
  lastSeenTs : Int64 := 0
  isDepthBusy : List Bool := []
  sliceEnds : List SliceEnd := []
  lastDepth : ℕ := 0
  deriving DecidableEq, Repr

def kFunctionName : String := "INTERNAL_LAYOUT"

def twoStepsError : String := "
Incorrect window clause (observed two consecutive calls to \"step\" function).
The window clause should be \"rows between unbounded preceding and current row\".
"

def unsortedError : String := "
Passed slices are in incorrect order: " ++ kFunctionName ++ " requires timestamps to be sorted.
Please specify \"ORDER BY ts\" in the window clause.
"

/-- `slice_ends_.push`: the queue gives the ends in ascending order of time. -/
def pushEnd (e : SliceEnd) : List SliceEnd → List SliceEnd
  | [] => [e]
  | x :: ends => if e.ts ≤ x.ts then e :: x :: ends else x :: pushEnd e ends

/-- `ProcessPrecedingEvents`: depths whose slice ended by `ts` are available again. -/
def processPrecedingEvents (ts : Int64) : List SliceEnd → List Bool → List SliceEnd × List Bool
  | [], busy => ([], busy)
  | top :: ends, busy =>
    if top.ts ≤ ts then processPrecedingEvents ts ends (busy.set top.depth false) else (top :: ends, busy)

def selectAvailableDepth (newState : Bool) : List Bool → ℕ × List Bool
  | [] => (0, [newState])
  | busy :: rest =>
    if !busy then (0, newState :: rest)
    else
      let (depth, rest) := selectAvailableDepth newState rest
      (depth + 1, busy :: rest)

/-- The time at which a slice is put into the queue; `ts + dur` wraps around. -/
def Slice.tsEnd (s : Slice) : Int64 := if s.dur = -1 then Int64.maxValue else s.ts + s.dur

namespace SlicePacker

/-- `AddSlice` past its two checks. -/
def place (p : SlicePacker) (s : Slice) : SlicePacker :=
  let (ends, busy) := processPrecedingEvents s.ts p.sliceEnds p.isDepthBusy
  let isBusy := decide (s.dur ≠ 0)
  let (depth, busy) := selectAvailableDepth isBusy busy
  { lastCall := .kAddSlice
    lastSeenTs := s.ts
    isDepthBusy := busy
    sliceEnds := if s.dur ≠ 0 then pushEnd ⟨s.tsEnd, depth⟩ ends else ends
    lastDepth := depth }

def addSlice (p : SlicePacker) (s : Slice) : Except String SlicePacker :=
  if p.lastCall = .kAddSlice then .error twoStepsError
  else if s.ts < p.lastSeenTs then .error unsortedError
  else .ok (p.place s)

def getLastDepth (p : SlicePacker) : ℕ × SlicePacker := (p.lastDepth, { p with lastCall := .kQuery })

/-- `StepStatus` on arguments that are both of type long. -/
def stepStatus (p : SlicePacker) (s : Slice) : Except String SlicePacker :=
  if s.ts < 0 then .error "ts cannot be negative."
  else if s.dur < -1 then .error "dur cannot be < -1."
  else p.addSlice s

/-- The window function over the rows, with `Value` called after each `Step`: the depth of every row. -/
def layout (p : SlicePacker) : List Slice → Except String (List ℕ)
  | [] => .ok []
  | s :: slices => do
    let p ← p.stepStatus s
    let (depth, p) := p.getLastDepth
    let depths ← p.layout slices
    return depth :: depths

end SlicePacker

/-! ### The queue of ends -/

theorem mem_pushEnd {e x : SliceEnd} {ends : List SliceEnd} : x ∈ pushEnd e ends ↔ x = e ∨ x ∈ ends := by
  induction ends with
  | nil => simp [pushEnd]
  | cons y ends ih =>
    unfold pushEnd
    split
    · simp
    · simp [ih, or_left_comm]

theorem pushEnd_perm (e : SliceEnd) (ends : List SliceEnd) : (pushEnd e ends).Perm (e :: ends) := by
  induction ends with
  | nil => exact List.Perm.refl _
  | cons y ends ih =>
    unfold pushEnd
    split
    · exact List.Perm.refl _
    · exact (ih.cons y).trans (List.Perm.swap e y ends)

/-- The ends stand in the order in which the queue gives them out. -/
def Ordered (ends : List SliceEnd) : Prop := ends.Pairwise fun x y => x.ts ≤ y.ts

theorem Ordered.push {ends : List SliceEnd} (h : Ordered ends) (e : SliceEnd) : Ordered (pushEnd e ends) := by
  induction ends with
  | nil => simp [Ordered, pushEnd]
  | cons y ends ih =>
    obtain ⟨hy, hends⟩ := List.pairwise_cons.mp h
    unfold pushEnd
    split
    · rename_i hle
      refine List.pairwise_cons.mpr ⟨fun z hz => ?_, h⟩
      rcases List.mem_cons.mp hz with rfl | hz
      · exact hle
      · exact Int64.le_trans hle (hy z hz)
    · rename_i hlt
      refine List.pairwise_cons.mpr ⟨fun z hz => ?_, ih hends⟩
      rcases mem_pushEnd.mp hz with rfl | hz
      · exact Int64.le_of_lt (Int64.not_le.mp hlt)
      · exact hy z hz

/-! ### Busy depths -/

/-- The depths marked busy are those of the ends in the queue, each in it once. -/
structure Packed (ends : List SliceEnd) (busy : List Bool) : Prop where
  ordered : Ordered ends
  nodup : (ends.map (·.depth)).Nodup
  busy_iff : ∀ d, busy[d]? = some true ↔ d ∈ ends.map (·.depth)

theorem Packed.nil : Packed [] [] := ⟨List.Pairwise.nil, List.nodup_nil, by simp⟩

/-- What leaves the queue is exactly what ended by `ts`. -/
theorem processPrecedingEvents_spec {ts : Int64} {ends : List SliceEnd} {busy : List Bool} (h : Packed ends busy) :
    Packed (processPrecedingEvents ts ends busy).1 (processPrecedingEvents ts ends busy).2 ∧
      ∀ e, e ∈ (processPrecedingEvents ts ends busy).1 ↔ e ∈ ends ∧ ts < e.ts := by
  induction ends generalizing busy with
  | nil => exact ⟨h, by simp [processPrecedingEvents]⟩
  | cons top ends ih =>
    obtain ⟨htop, hordered⟩ := List.pairwise_cons.mp h.ordered
    obtain ⟨hnot, hnodup⟩ := List.nodup_cons.mp h.nodup
    by_cases hle : top.ts ≤ ts
    · have hfreed : Packed ends (busy.set top.depth false) := by
        refine ⟨hordered, hnodup, fun d => ?_⟩
        have hd := h.busy_iff d
        rw [List.map_cons, List.mem_cons] at hd
        by_cases hdepth : top.depth = d
        · subst hdepth
          simp only [hnot, iff_false]
          simp [List.getElem?_set]
        · rw [List.getElem?_set_ne hdepth, hd]
          simp [Ne.symm hdepth]
      obtain ⟨hpacked, hmem⟩ := ih hfreed
      simp only [processPrecedingEvents, if_pos hle]
      refine ⟨hpacked, fun e => (hmem e).trans ?_⟩
      rw [List.mem_cons]
      constructor
      · rintro ⟨he, hts⟩
        exact ⟨.inr he, hts⟩
      · rintro ⟨rfl | he, hts⟩
        · exact absurd hle (Int64.not_le.mpr hts)
        · exact ⟨he, hts⟩
    · simp only [processPrecedingEvents, if_neg hle]
      refine ⟨h, fun e => ⟨fun he => ⟨he, ?_⟩, And.left⟩⟩
      have hts : ts < top.ts := Int64.not_le.mp hle
      rcases List.mem_cons.mp he with rfl | he
      · exact hts
      · exact Int64.lt_of_lt_of_le hts (htop e he)

/-- The first depth that is not busy is taken, and the other depths keep their state. -/
theorem selectAvailableDepth_spec (newState : Bool) (busy : List Bool) :
    IsLeast {d | busy[d]? ≠ some true} (selectAvailableDepth newState busy).1 ∧
      (selectAvailableDepth newState busy).2[(selectAvailableDepth newState busy).1]? = some newState ∧
      ∀ d ≠ (selectAvailableDepth newState busy).1, (selectAvailableDepth newState busy).2[d]? = busy[d]? := by
  induction busy with
  | nil =>
    refine ⟨⟨by simp, fun d _ => d.zero_le⟩, rfl, fun d hd => ?_⟩
    cases d with
    | zero => exact absurd rfl hd
    | succ d => rfl
  | cons b busy ih =>
    obtain ⟨⟨hfree, hleast⟩, hnew, hrest⟩ := ih
    cases b with
    | false =>
      refine ⟨⟨by simp [selectAvailableDepth], fun d _ => d.zero_le⟩, rfl, fun d hd => ?_⟩
      cases d with
      | zero => exact absurd rfl hd
      | succ d => rfl
    | true =>
      refine ⟨⟨by simpa [selectAvailableDepth] using hfree, fun d hd => ?_⟩, hnew, fun d hd => ?_⟩
      · cases d with
        | zero => exact absurd rfl hd
        | succ d => exact Nat.succ_le_succ (hleast hd)
      · cases d with
        | zero => rfl
        | succ d => exact hrest d fun h => hd (congrArg (· + 1) h)

/-! ### One slice -/

/-- By the end times of the code, `a` has not ended at `ts`. -/
def Holds (a : Slice × ℕ) (ts : Int64) : Prop := a.1.dur ≠ 0 ∧ ts < a.1.tsEnd

/-- The depths no slice of `done` holds at `ts`. -/
def freeDepths (done : List (Slice × ℕ)) (ts : Int64) : Set ℕ := {d | ∀ a ∈ done, Holds a ts → a.2 ≠ d}

/-- `p` is the state after the slices of `done` were given their depths. -/
structure Placed (p : SlicePacker) (done : List (Slice × ℕ)) : Prop where
  packed : Packed p.sliceEnds p.isDepthBusy
  sound : ∀ e ∈ p.sliceEnds, ∃ a ∈ done, a.1.dur ≠ 0 ∧ e = ⟨a.1.tsEnd, a.2⟩
  complete : ∀ a ∈ done, Holds a p.lastSeenTs → ⟨a.1.tsEnd, a.2⟩ ∈ p.sliceEnds

theorem Placed.start : Placed {} [] := ⟨Packed.nil, by simp, by simp⟩

variable {p : SlicePacker}

/-- The queue after `ProcessPrecedingEvents` names the slices that hold a depth. -/
theorem Placed.mem_ends {done : List (Slice × ℕ)} (h : Placed p done) {ts : Int64} (hts : p.lastSeenTs ≤ ts)
    (e : SliceEnd) :
    e ∈ (processPrecedingEvents ts p.sliceEnds p.isDepthBusy).1 ↔
      ∃ a ∈ done, Holds a ts ∧ e = ⟨a.1.tsEnd, a.2⟩ := by
  rw [(processPrecedingEvents_spec h.packed).2]
  constructor
  · rintro ⟨he, hlt⟩
    obtain ⟨a, ha, hdur, rfl⟩ := h.sound e he
    exact ⟨a, ha, ⟨hdur, hlt⟩, rfl⟩
  · rintro ⟨a, ha, hholds, rfl⟩
    exact ⟨h.complete a ha ⟨hholds.1, Int64.lt_of_le_of_lt hts hholds.2⟩, hholds.2⟩

/-- A slice gets the least free depth, and the state goes on to describe what was placed. -/
theorem Placed.place {done : List (Slice × ℕ)} (h : Placed p done) {s : Slice} (hts : p.lastSeenTs ≤ s.ts) :
    IsLeast (freeDepths done s.ts) (p.place s).lastDepth ∧
      Placed (p.place s) (done ++ [(s, (p.place s).lastDepth)]) := by
  have hmem := h.mem_ends hts
  obtain ⟨hpacked, -⟩ := @processPrecedingEvents_spec s.ts _ _ h.packed
  have hplace : p.place s =
      { lastCall := .kAddSlice
        lastSeenTs := s.ts
        isDepthBusy := (selectAvailableDepth (decide (s.dur ≠ 0))
          (processPrecedingEvents s.ts p.sliceEnds p.isDepthBusy).2).2
        sliceEnds := if s.dur ≠ 0 then
            pushEnd ⟨s.tsEnd, (selectAvailableDepth (decide (s.dur ≠ 0))
              (processPrecedingEvents s.ts p.sliceEnds p.isDepthBusy).2).1⟩
              (processPrecedingEvents s.ts p.sliceEnds p.isDepthBusy).1
          else (processPrecedingEvents s.ts p.sliceEnds p.isDepthBusy).1
        lastDepth := (selectAvailableDepth (decide (s.dur ≠ 0))
          (processPrecedingEvents s.ts p.sliceEnds p.isDepthBusy).2).1 } := rfl
  rw [hplace]
  generalize (processPrecedingEvents s.ts p.sliceEnds p.isDepthBusy).1 = ends at hmem hpacked
  generalize (processPrecedingEvents s.ts p.sliceEnds p.isDepthBusy).2 = busy at hpacked
  obtain ⟨hleast, hnew, hrest⟩ := selectAvailableDepth_spec (decide (s.dur ≠ 0)) busy
  generalize (selectAvailableDepth (decide (s.dur ≠ 0)) busy).1 = depth at hleast hnew hrest
  generalize (selectAvailableDepth (decide (s.dur ≠ 0)) busy).2 = busy' at hnew hrest
  have hfree : {d | busy[d]? ≠ some true} = freeDepths done s.ts := by
    ext d
    simp only [Set.mem_ofPred_eq, ne_eq, hpacked.busy_iff, List.mem_map, freeDepths, hmem]
    constructor
    · intro hd a ha hholds heq
      exact hd ⟨_, ⟨a, ha, hholds, rfl⟩, heq⟩
    · rintro hd ⟨_, ⟨a, ha, hholds, rfl⟩, heq⟩
      exact hd a ha hholds heq
  have hnot : depth ∉ ends.map (·.depth) := fun hd => hleast.1 ((hpacked.busy_iff depth).mpr hd)
  refine ⟨hfree ▸ hleast, ?_⟩
  by_cases hdur : s.dur ≠ 0
  · simp only [if_pos hdur]
    refine ⟨⟨hpacked.ordered.push _, ?_, fun d => ?_⟩, fun e he => ?_, fun a ha hholds => ?_⟩
    · exact ((pushEnd_perm _ ends).map _).nodup_iff.mpr (List.nodup_cons.mpr ⟨hnot, hpacked.nodup⟩)
    · rw [((pushEnd_perm _ ends).map _).mem_iff, List.map_cons, List.mem_cons]
      by_cases hd : d = depth
      · simp [hd, hnew, hdur]
      · simp [hrest d hd, hpacked.busy_iff, hd]
    · rcases mem_pushEnd.mp he with rfl | he
      · exact ⟨_, List.mem_append_right _ (List.mem_singleton_self _), hdur, rfl⟩
      · obtain ⟨a, ha, hholds, rfl⟩ := (hmem e).mp he
        exact ⟨a, List.mem_append_left _ ha, hholds.1, rfl⟩
    · rw [mem_pushEnd]
      rcases List.mem_append.mp ha with ha | ha
      · exact .inr ((hmem _).mpr ⟨a, ha, hholds, rfl⟩)
      · obtain rfl := List.mem_singleton.mp ha
        exact .inl rfl
  · simp only [if_neg hdur]
    refine ⟨⟨hpacked.ordered, hpacked.nodup, fun d => ?_⟩, fun e he => ?_, fun a ha hholds => ?_⟩
    · by_cases hd : d = depth
      · subst hd
        simp [hnew, hdur, hnot]
      · rw [hrest d hd, hpacked.busy_iff]
    · obtain ⟨a, ha, hholds, rfl⟩ := (hmem e).mp he
      exact ⟨a, List.mem_append_left _ ha, hholds.1, rfl⟩
    · rcases List.mem_append.mp ha with ha | ha
      · exact (hmem _).mpr ⟨a, ha, hholds, rfl⟩
      · obtain rfl := List.mem_singleton.mp ha
        exact absurd hholds.1 hdur

/-- What an accepted step did. -/
theorem stepStatus_cases {p' : SlicePacker} {s : Slice} (h : p.stepStatus s = .ok p') :
    0 ≤ s.ts ∧ -1 ≤ s.dur ∧ p.lastSeenTs ≤ s.ts ∧ p' = p.place s := by
  unfold SlicePacker.stepStatus SlicePacker.addSlice at h
  split at h
  · cases h
  · rename_i hts
    split at h
    · cases h
    · rename_i hdur
      split at h
      · cases h
      · split at h
        · cases h
        · rename_i hlast
          cases h
          exact ⟨Int64.not_lt.mp hts, Int64.not_lt.mp hdur, Int64.not_lt.mp hlast, rfl⟩

/-! ### Every run -/

variable {slices : List Slice} {depths : List ℕ}

theorem layout_cons {s : Slice} (h : p.layout (s :: slices) = .ok depths) : ∃ p' rest, p.stepStatus s = .ok p' ∧
      ({ p' with lastCall := .kQuery } : SlicePacker).layout slices = .ok rest ∧ depths = p'.lastDepth :: rest := by
  rw [SlicePacker.layout] at h
  cases hstep : p.stepStatus s with
  | error e => rw [hstep] at h; cases h
  | ok p' =>
    rw [hstep] at h
    cases hrest : ({ p' with lastCall := .kQuery } : SlicePacker).layout slices with
    | error e =>
      simp only [SlicePacker.getLastDepth, bind, Except.bind, hrest] at h
      cases h
    | ok rest =>
      simp only [SlicePacker.getLastDepth, bind, Except.bind, hrest, pure, Except.pure] at h
      cases h
      exact ⟨p', rest, rfl, hrest, rfl⟩

theorem layout_length (h : p.layout slices = .ok depths) : depths.length = slices.length := by
  induction slices generalizing p depths with
  | nil => cases h; rfl
  | cons s slices ih =>
    obtain ⟨p', rest, -, hrest, rfl⟩ := layout_cons h
    rw [List.length_cons, List.length_cons, ih hrest]

theorem layout_checked (h : p.layout slices = .ok depths) : ∀ s ∈ slices, 0 ≤ s.ts ∧ -1 ≤ s.dur := by
  induction slices generalizing p depths with
  | nil => simp
  | cons s slices ih =>
    obtain ⟨p', rest, hstep, hrest, rfl⟩ := layout_cons h
    obtain ⟨hts, hdur, -, -⟩ := stepStatus_cases hstep
    intro x hx
    rcases List.mem_cons.mp hx with rfl | hx
    · exact ⟨hts, hdur⟩
    · exact ih hrest x hx

/-- Each slice of a run gets the least depth that is free by the end times of the code. -/
theorem layout_isLeast {done : List (Slice × ℕ)} (hp : Placed p done) (h : p.layout slices = .ok depths) (j : ℕ)
    (s : Slice) (d : ℕ) (hs : slices[j]? = some s) (hd : depths[j]? = some d) :
    IsLeast (freeDepths (done ++ (slices.zip depths).take j) s.ts) d := by
  induction slices generalizing p done depths j with
  | nil => simp at hs
  | cons s' slices ih =>
    obtain ⟨p', rest, hstep, hrest, rfl⟩ := layout_cons h
    obtain ⟨-, -, hts, rfl⟩ := stepStatus_cases hstep
    obtain ⟨hleast, hplaced⟩ := hp.place hts
    cases j with
    | zero =>
      cases hs
      cases hd
      simpa using hleast
    | succ j =>
      have hnext : Placed { p.place s' with lastCall := .kQuery } (done ++ [(s', (p.place s').lastDepth)]) :=
        ⟨hplaced.packed, hplaced.sound, hplaced.complete⟩
      have := ih hnext hrest j hs hd
      simpa using this

/-! ### What the end times stand for -/

/-- `a` is still open when `b` starts. -/
def Occupies (a b : Slice) : Prop :=
  a.dur ≠ 0 ∧ (a.dur = -1 ∨ b.ts.toInt < a.ts.toInt + a.dur.toInt)

/-- No slice comes after one whose end is no `int64_t`, and none starts at the last `int64_t` after an unfinished
one. -/
def EndsFit (slices : List Slice) : Prop :=
  slices.Pairwise fun a b => if a.dur = -1 then b.ts ≠ Int64.maxValue else a.ts.toInt + a.dur.toInt < 2 ^ 63

theorem holds_iff_occupies {a b : Slice} {d : ℕ} (hts : 0 ≤ a.ts) (hdur : -1 ≤ a.dur)
    (hfit : if a.dur = -1 then b.ts ≠ Int64.maxValue else a.ts.toInt + a.dur.toInt < 2 ^ 63) :
    Holds (a, d) b.ts ↔ Occupies a b := by
  unfold Holds Occupies Slice.tsEnd
  refine and_congr_right fun _ => ?_
  split at hfit
  · rename_i hopen
    simp only [hopen, if_true, true_or, iff_true]
    exact Int64.lt_of_le_of_ne (Int64.le_maxValue b.ts) hfit
  · rename_i hclosed
    simp only [hclosed, if_false, false_or]
    have hts' : (0 : Int) ≤ a.ts.toInt := Int64.le_iff_toInt_le.mp hts
    have hdur' : (-1 : Int) ≤ a.dur.toInt := Int64.le_iff_toInt_le.mp hdur
    have hsum : (a.ts + a.dur).toInt = a.ts.toInt + a.dur.toInt := by
      rw [Int64.toInt_add]
      exact Int.bmod_eq_of_le (by omega) (by omega)
    rw [Int64.lt_iff_toInt_lt, hsum]

/-- In every accepted run whose end times fit, each slice gets the least depth that no earlier slice occupies when it
starts. -/
theorem layout_no_overlap {slices : List Slice} {depths : List ℕ} (h : SlicePacker.layout {} slices = .ok depths)
    (hfit : EndsFit slices) : ∃ hlength : depths.length = slices.length, ∀ j (hj : j < slices.length),
      (∀ i (hi : i < j), Occupies slices[i] slices[j] → depths[i] ≠ depths[j]) ∧
      IsLeast {d | ∀ i (hi : i < j), Occupies slices[i] slices[j] → depths[i] ≠ d} depths[j] := by
  refine ⟨layout_length h, fun j hj => ?_⟩
  have hlength := layout_length h
  have hleast := layout_isLeast Placed.start h j slices[j] depths[j] (by simp) (by simp)
  have hset : freeDepths ([] ++ (slices.zip depths).take j) slices[j].ts =
      {d | ∀ i (hi : i < j), Occupies slices[i] slices[j] → depths[i] ≠ d} := by
    ext d
    have hoccupies : ∀ i (hi : i < j), Holds (slices[i], depths[i]) slices[j].ts ↔ Occupies slices[i] slices[j] := by
      intro i hi
      obtain ⟨hts, hdur⟩ := layout_checked h slices[i] (List.getElem_mem _)
      exact holds_iff_occupies hts hdur (List.pairwise_iff_getElem.mp hfit i j (by omega) hj hi)
    simp only [freeDepths, List.nil_append, Set.mem_ofPred_eq, List.forall_mem_iff_getElem, List.length_take,
      List.length_zip, List.getElem_take, List.getElem_zip]
    constructor
    · intro hd i hi hocc
      exact hd i (by omega) ((hoccupies i hi).mpr hocc)
    · intro hd i hi hholds
      exact hd i (by omega) ((hoccupies i (by omega)).mp hholds)
  rw [hset] at hleast
  exact ⟨fun i hi hocc => hleast.1 i hi hocc, hleast⟩

theorem layout_no_overlap_touching : ∃ hlength : [0, 1, 0].length = [(⟨0, 5⟩ : Slice), ⟨3, -1⟩, ⟨5, 0⟩].length,
    ∀ j (hj : j < [(⟨0, 5⟩ : Slice), ⟨3, -1⟩, ⟨5, 0⟩].length),
      (∀ i (hi : i < j), Occupies [(⟨0, 5⟩ : Slice), ⟨3, -1⟩, ⟨5, 0⟩][i] [(⟨0, 5⟩ : Slice), ⟨3, -1⟩, ⟨5, 0⟩][j] →
        [0, 1, 0][i] ≠ [0, 1, 0][j]) ∧
      IsLeast {d | ∀ i (hi : i < j), Occupies [(⟨0, 5⟩ : Slice), ⟨3, -1⟩, ⟨5, 0⟩][i]
        [(⟨0, 5⟩ : Slice), ⟨3, -1⟩, ⟨5, 0⟩][j] → [0, 1, 0][i] ≠ d} [0, 1, 0][j] :=
  layout_no_overlap (by decide) (by unfold EndsFit; decide)

/-- A slice at the last `int64_t` takes the depth of a slice that never ended. -/
theorem not_layout_no_overlap_unfinished :
    SlicePacker.layout {} [⟨0, -1⟩, ⟨Int64.maxValue, 0⟩] = .ok [0, 0] ∧
      Occupies ⟨0, -1⟩ ⟨Int64.maxValue, 0⟩ :=
  ⟨by decide, by unfold Occupies; decide⟩

/-! ### How many depths -/

/-- A slice that has not ended by the end times of the code is open, also where its end wraps around. -/
theorem occupies_of_holds {a b : Slice} {d : ℕ} (hts : 0 ≤ a.ts) (hdur : -1 ≤ a.dur) (h : Holds (a, d) b.ts) :
    Occupies a b := by
  obtain ⟨hne, hlt⟩ := h
  refine ⟨hne, Classical.or_iff_not_imp_left.mpr fun hclosed => ?_⟩
  have hts' : (0 : Int) ≤ a.ts.toInt := Int64.le_iff_toInt_le.mp hts
  have hdur' : (-1 : Int) ≤ a.dur.toInt := Int64.le_iff_toInt_le.mp hdur
  have hopen : a.dur.toInt ≠ -1 := fun heq => hclosed (Int64.toInt_inj.mp heq)
  have hend : (a.ts + a.dur).toInt ≤ a.ts.toInt + a.dur.toInt := by
    rw [Int64.toInt_add, Int.bmod]
    split <;> omega
  rw [Slice.tsEnd, if_neg hclosed, Int64.lt_iff_toInt_lt] at hlt
  exact hlt.trans_le hend

theorem layout_sorted (h : p.layout slices = .ok depths) :
    (∀ s ∈ slices, p.lastSeenTs ≤ s.ts) ∧ slices.Pairwise fun a b => a.ts ≤ b.ts := by
  induction slices generalizing p depths with
  | nil => exact ⟨by simp, List.Pairwise.nil⟩
  | cons s slices ih =>
    obtain ⟨p', rest, hstep, hrest, rfl⟩ := layout_cons h
    obtain ⟨-, -, hts, rfl⟩ := stepStatus_cases hstep
    obtain ⟨hfirst, hsorted⟩ := ih hrest
    exact ⟨List.forall_mem_cons.mpr ⟨hts, fun x hx => Int64.le_trans hts (hfirst x hx)⟩,
      List.pairwise_cons.mpr ⟨hfirst, hsorted⟩⟩

/-- **The packer uses as few depths as possible**: no way of giving lanes to the slices of an accepted run that keeps
every slice out of the lanes of the earlier ones that are still open has fewer of them. -/
theorem layout_fewest {slices : List Slice} {depths : List ℕ} (h : SlicePacker.layout {} slices = .ok depths)
    (lanes : ℕ → ℕ) {count : ℕ} (hcount : ∀ i < slices.length, lanes i < count)
    (hlanes : ∀ j (hj : j < slices.length) i (hi : i < j), Occupies slices[i] slices[j] → lanes i ≠ lanes j) :
    ∀ d ∈ depths, d < count := by
  intro d hd
  obtain ⟨j, hj, rfl⟩ := List.mem_iff_getElem.mp hd
  have hlength := layout_length h
  obtain ⟨-, hleast⟩ := layout_isLeast Placed.start h j slices[j] depths[j] (by simp) (by simp)
  -- every smaller depth has a slice that is still open
  have hheld : ∀ k < depths[j], ∃ i, ∃ hi : i < j, Holds (slices[i], depths[i]) slices[j].ts ∧ depths[i] = k := by
    intro k hk
    have hnot : k ∉ freeDepths ([] ++ (slices.zip depths).take j) slices[j].ts := fun hfree =>
      Nat.not_le.mpr hk (hleast hfree)
    simp only [freeDepths, List.nil_append, Set.mem_ofPred_eq, List.forall_mem_iff_getElem, List.length_take,
      List.length_zip, List.getElem_take, List.getElem_zip] at hnot
    push Not at hnot
    obtain ⟨i, hi, hholds, hik⟩ := hnot
    exact ⟨i, by omega, hholds, hik⟩
  have hopen : ∀ i (hi : i < j) j' (hj' : j' ≤ j), i < j' → Holds (slices[i], depths[i]) slices[j].ts →
      lanes i ≠ lanes j' := by
    intro i hi j' hj' hij' hholds
    obtain ⟨hts, hdur⟩ := layout_checked h slices[i] (List.getElem_mem _)
    have hle : slices[j'].ts ≤ slices[j].ts := by
      rcases hj'.eq_or_lt with rfl | hlt
      · exact Int64.le_refl _
      · exact List.pairwise_iff_getElem.mp (layout_sorted h).2 j' j (by omega) (by omega) hlt
    exact hlanes j' (by omega) i hij' (occupies_of_holds hts hdur ⟨hholds.1, Int64.lt_of_le_of_lt hle hholds.2⟩)
  choose! holder hbefore hholds hdepth using hheld
  have hcard := Finset.card_le_card_of_injOn (s := Finset.range depths[j]) (t := (Finset.range count).erase (lanes j))
    (fun k => lanes (holder k)) ?_ ?_
  · rw [Finset.card_range, Finset.card_erase_of_mem (Finset.mem_range.mpr (hcount j (by omega))), Finset.card_range]
      at hcard
    have := hcount j (by omega)
    omega
  · intro k hk
    have hk := Finset.mem_range.mp hk
    exact Finset.mem_erase.mpr ⟨hopen _ (hbefore k hk) j le_rfl (hbefore k hk) (hholds k hk),
      Finset.mem_range.mpr (hcount _ ((hbefore k hk).trans (by omega)))⟩
  · intro k hk k' hk' hsame
    have hk := Finset.mem_range.mp hk
    have hk' := Finset.mem_range.mp hk'
    rcases Nat.lt_trichotomy (holder k) (holder k') with hlt | heq | hlt
    · exact absurd hsame (hopen _ (hbefore k hk) _ (hbefore k' hk').le hlt (hholds k hk))
    · rw [← hdepth k hk, ← hdepth k' hk']
      simp only [heq]
    · exact absurd hsame.symm (hopen _ (hbefore k' hk') _ (hbefore k hk).le hlt (hholds k' hk'))

theorem layout_fewest_touching :
    SlicePacker.layout {} [⟨0, 5⟩, ⟨3, -1⟩, ⟨5, 0⟩] = .ok [0, 1, 0] ∧ ∀ d ∈ [0, 1, 0], d < 2 :=
  have h : SlicePacker.layout {} [⟨0, 5⟩, ⟨3, -1⟩, ⟨5, 0⟩] = .ok [0, 1, 0] := by decide
  ⟨h, layout_fewest h (· % 2) (by decide) (by unfold Occupies; decide)⟩

end LynxTrace.TraceProcessor.Intrinsics.InternalLayout
