import LynxTrace.TraceProcessor.FlowTracker
import Mathlib.Tactic.SplitIfs

/-!
# TraceProcessor.FlowHistory — what a `FlowTracker` makes of a history of calls

A call starts a flow at a slice, passes one, ends at one, waits for one, or brings the next slice of a track
(`Call.visit`).  A flow is active from a start on until an end that closes it, and is at the slice it started at or
passed last.  `Follows` says that the tracker's maps are these.

* `Follows.call` — one call keeps the maps true to the history.
* `Follows.call_rows` — its rows join the slice their flow was at with the slice of the call.
* `run_linksVisited_iff` — a run does both exactly when its pending ends close no flow and are resolved while their flows
  are active.
-/

namespace LynxTrace.TraceProcessor.FlowTracker

/-! ### Histories -/

/-- What a call does with a flow. -/
inductive Visit
  | start (flowId sliceId : ℕ)
  | pass (flowId sliceId : ℕ)
  | finish (flowId sliceId : ℕ) (closeFlow : Bool)
  | wait (trackId flowId : ℕ) (closeFlow : Bool)
  | arrive (trackId sliceId : ℕ)
  | nothing
  deriving DecidableEq, Repr

def Call.visit : Call → Visit
  | .beginFlow sliceId flowId => .start flowId sliceId
  | .beginOnTrack _ _ none => .nothing
  | .beginOnTrack _ flowId (some sliceId) => .start flowId sliceId
  | .stepFlow sliceId flowId => .pass flowId sliceId
  | .stepOnTrack _ _ none => .nothing
  | .stepOnTrack _ flowId (some sliceId) => .pass flowId sliceId
  | .endFlow sliceId flowId closeFlow => .finish flowId sliceId closeFlow
  | .endFlowAt sliceId flowId closeFlow _ => .finish flowId sliceId closeFlow
  | .endOnTrack trackId flowId false closeFlow _ => .wait trackId flowId closeFlow
  | .endOnTrack _ _ true _ none => .nothing
  | .endOnTrack _ flowId true closeFlow (some sliceId) => .finish flowId sliceId closeFlow
  | .closePendingEventsOnTrack trackId sliceId => .arrive trackId sliceId

/-- The slice is given to the flow by a begin, a step or an end. -/
def Gives (c : Call) (flowId sliceId : ℕ) : Prop :=
  c.visit = .start flowId sliceId ∨ c.visit = .pass flowId sliceId ∨
    ∃ closeFlow, c.visit = .finish flowId sliceId closeFlow

/-- An end of the flow that closes it. -/
def Closes (c : Call) (flowId : ℕ) : Prop :=
  (∃ sliceId, c.visit = .finish flowId sliceId true) ∨ ∃ trackId, c.visit = .wait trackId flowId true

/-- There was a begin of the flow, and no closing end since. -/
def Active (h : List Call) (flowId : ℕ) : Prop :=
  Since (fun _ c => ∃ sliceId, c.visit = .start flowId sliceId) (fun _ c => ¬ Closes c flowId) h

/-- The last slice the flow was at: where it started, or passed last. -/
def LastAt (h : List Call) (flowId sliceId : ℕ) : Prop :=
  Since
    (fun before c => (c.visit = .start flowId sliceId ∧ ¬ Active before flowId) ∨
      (c.visit = .pass flowId sliceId ∧ Active before flowId))
    (fun _ c => (∀ sliceId', c.visit ≠ .pass flowId sliceId') ∧ ¬ Closes c flowId) h

/-- An end of the flow waits for the next slice on the track. -/
def PendingEnd (h : List Call) (trackId flowId : ℕ) : Prop :=
  Since (fun _ c => ∃ closeFlow, c.visit = .wait trackId flowId closeFlow)
    (fun _ c => ∀ sliceId, c.visit ≠ .arrive trackId sliceId) h

/-- The row joins the last slice its flow was at with the slice that the call gives to it, or with the one that closes its
pending end. -/
def Joins (h : List Call) (c : Call) (row : FlowRow) : Prop :=
  ∃ last other, LastAt h row.traceId last ∧ (∃ c' ∈ h, Gives c' row.traceId last) ∧
    (Gives c row.traceId other ∨ ∃ trackId, c.visit = .arrive trackId other ∧ PendingEnd h trackId row.traceId) ∧
    ((row.sliceOut = last ∧ row.sliceIn = other) ∨ (row.sliceOut = other ∧ row.sliceIn = last))

/-- No pending end closes an active flow, and the flows of the pending ends that a slice closes are active. -/
def Resolves (h : List Call) (c : Call) : Prop :=
  (∀ trackId flowId, c.visit = .wait trackId flowId true → ¬ Active h flowId) ∧
    ∀ trackId sliceId flowId, c.visit = .arrive trackId sliceId → PendingEnd h trackId flowId → Active h flowId

section Histories

variable {h : List Call} {c : Call} {flowId sliceId trackId : ℕ}

theorem active_concat :
    Active (h ++ [c]) flowId ↔ (∃ sliceId, c.visit = .start flowId sliceId) ∨ (Active h flowId ∧ ¬ Closes c flowId) :=
  since_concat

theorem lastAt_concat : LastAt (h ++ [c]) flowId sliceId ↔
    ((c.visit = .start flowId sliceId ∧ ¬ Active h flowId) ∨ (c.visit = .pass flowId sliceId ∧ Active h flowId)) ∨
      (LastAt h flowId sliceId ∧ (∀ sliceId', c.visit ≠ .pass flowId sliceId') ∧ ¬ Closes c flowId) :=
  since_concat

theorem pendingEnd_concat : PendingEnd (h ++ [c]) trackId flowId ↔
    (∃ closeFlow, c.visit = .wait trackId flowId closeFlow) ∨
      (PendingEnd h trackId flowId ∧ ∀ sliceId, c.visit ≠ .arrive trackId sliceId) :=
  since_concat

theorem lastAt_given (hlast : LastAt h flowId sliceId) : ∃ c ∈ h, Gives c flowId sliceId := by
  obtain ⟨before, c, after, rfl, hc, -⟩ := hlast
  refine ⟨c, List.mem_append_right _ List.mem_cons_self, ?_⟩
  rcases hc with ⟨hc, -⟩ | ⟨hc, -⟩
  · exact Or.inl hc
  · exact Or.inr (Or.inl hc)

theorem not_closes_of_start (hc : c.visit = .start flowId sliceId) (flowId' : ℕ) : ¬ Closes c flowId' := by
  rintro (⟨_, hc'⟩ | ⟨_, hc'⟩) <;> exact Visit.noConfusion (hc.symm.trans hc')

theorem not_closes_of_pass (hc : c.visit = .pass flowId sliceId) (flowId' : ℕ) : ¬ Closes c flowId' := by
  rintro (⟨_, hc'⟩ | ⟨_, hc'⟩) <;> exact Visit.noConfusion (hc.symm.trans hc')

/-- A flow is somewhere exactly while it is active. -/
theorem exists_lastAt_iff (h : List Call) (flowId : ℕ) : (∃ sliceId, LastAt h flowId sliceId) ↔ Active h flowId := by
  induction h using List.reverseRecOn with
  | nil =>
    constructor
    · rintro ⟨_, hlast⟩
      exact absurd hlast not_since_nil
    · intro hactive
      exact absurd hactive not_since_nil
  | append_singleton h c ih =>
    simp only [active_concat, lastAt_concat]
    constructor
    · rintro ⟨sliceId, (⟨hc, -⟩ | ⟨hc, hactive⟩) | ⟨hlast, -, hcloses⟩⟩
      · exact Or.inl ⟨sliceId, hc⟩
      · exact Or.inr ⟨hactive, not_closes_of_pass hc _⟩
      · exact Or.inr ⟨ih.mp ⟨sliceId, hlast⟩, hcloses⟩
    · rintro (⟨sliceId, hc⟩ | ⟨hactive, hcloses⟩)
      · by_cases hactive : Active h flowId
        · obtain ⟨last, hlast⟩ := ih.mpr hactive
          refine ⟨last, Or.inr ⟨hlast, fun sliceId' hc' => ?_, not_closes_of_start hc _⟩⟩
          rw [hc] at hc'
          cases hc'
        · exact ⟨sliceId, Or.inl (Or.inl ⟨hc, hactive⟩)⟩
      · by_cases hpass : ∃ sliceId, c.visit = .pass flowId sliceId
        · obtain ⟨sliceId, hc⟩ := hpass
          exact ⟨sliceId, Or.inl (Or.inr ⟨hc, hactive⟩)⟩
        · obtain ⟨last, hlast⟩ := ih.mpr hactive
          exact ⟨last, Or.inr ⟨hlast, fun sliceId hc => hpass ⟨sliceId, hc⟩, hcloses⟩⟩

end Histories

/-! ### Calls -/

/-- The maps of the tracker are what the history says. -/
structure Follows (h : List Call) (s : FlowTracker) : Prop where
  position : ∀ flowId sliceId, s.flowToSlice flowId = some sliceId ↔ LastAt h flowId sliceId
  pending : ∀ trackId flowId, flowId ∈ (s.pendingFlowIds trackId).getD [] ↔ PendingEnd h trackId flowId

theorem Follows.isActive_iff {h : List Call} {s : FlowTracker} (hs : Follows h s) (flowId : ℕ) :
    s.isActive flowId = true ↔ Active h flowId := by
  rw [isActive, Option.isSome_iff_exists, ← exists_lastAt_iff]
  exact exists_congr fun sliceId => hs.position flowId sliceId

section Calls

variable {ts : ℕ → ℤ} {s : FlowTracker} {c : Call} {flowId sliceId trackId : ℕ} {closeFlow : Bool}

theorem call_start (hc : c.visit = .start flowId sliceId) : s.call ts c = s.beginFlow sliceId flowId := by
  unfold Call.visit at hc
  split at hc <;> cases hc <;> rfl

theorem call_pass (hc : c.visit = .pass flowId sliceId) : s.call ts c = s.stepFlow ts sliceId flowId := by
  unfold Call.visit at hc
  split at hc <;> cases hc <;> rfl

theorem call_finish (ts : ℕ → ℤ) (s : FlowTracker) (hc : c.visit = .finish flowId sliceId closeFlow) :
    s.call ts c = s.endFlow ts sliceId flowId closeFlow ∨
      s.call ts c = s.endFlowAt ts sliceId flowId closeFlow true := by
  unfold Call.visit at hc
  split at hc <;> cases hc
  · exact Or.inl rfl
  · rename_i ignoreClosingSlice
    cases ignoreClosingSlice
    · exact Or.inl rfl
    · exact Or.inr rfl
  · exact Or.inl rfl

theorem call_wait (hc : c.visit = .wait trackId flowId closeFlow) :
    s.call ts c = s.endOnTrack ts trackId flowId false closeFlow none := by
  unfold Call.visit at hc
  split at hc <;> cases hc
  rfl

theorem call_arrive (hc : c.visit = .arrive trackId sliceId) :
    s.call ts c = s.closePendingEventsOnTrack trackId sliceId := by
  unfold Call.visit at hc
  split at hc <;> cases hc
  rfl

theorem call_nothing (ts : ℕ → ℤ) (s : FlowTracker) (hc : c.visit = .nothing) : ∃ stat, s.call ts c = s.incrementStats stat := by
  unfold Call.visit at hc
  split at hc <;> cases hc
  all_goals exact ⟨_, rfl⟩

@[simp] theorem insertOrdered_flowToSlice (existingId newId : ℕ) :
    (insertOrdered ts s flowId existingId newId).flowToSlice = s.flowToSlice := rfl

@[simp] theorem insertOrdered_pendingFlowIds (existingId newId : ℕ) :
    (insertOrdered ts s flowId existingId newId).pendingFlowIds = s.pendingFlowIds := rfl

/-- The row inserted joins the two slices, whichever comes first. -/
theorem insertOrdered_flows (ts : ℕ → ℤ) (s : FlowTracker) (flowId existingId newId : ℕ) :
    (insertOrdered ts s flowId existingId newId).flows = s.flows ++ [⟨existingId, newId, flowId⟩] ∨
      (insertOrdered ts s flowId existingId newId).flows = s.flows ++ [⟨newId, existingId, flowId⟩] := by
  by_cases hts : ts existingId > ts newId
  · have hle : ¬ ts existingId ≤ ts newId := not_le.mpr hts
    right
    simp only [insertOrdered, insertFlow, if_pos hts, if_neg hle]
  · have hle : ts existingId ≤ ts newId := not_lt.mp hts
    left
    simp only [insertOrdered, insertFlow, if_neg hts, if_pos hle]

theorem beginFlow_flowToSlice : (s.beginFlow sliceId flowId).flowToSlice =
    Function.update s.flowToSlice flowId (some ((s.flowToSlice flowId).getD sliceId)) := by
  unfold beginFlow
  cases hflow : s.flowToSlice flowId with
  | none => rfl
  | some existingId => exact (Function.update_eq_self_iff.mpr hflow.symm).symm

theorem stepFlow_flowToSlice : (s.stepFlow ts sliceId flowId).flowToSlice =
    Function.update s.flowToSlice flowId ((s.flowToSlice flowId).map fun _ => sliceId) := by
  unfold stepFlow
  cases hflow : s.flowToSlice flowId with
  | none => exact (Function.update_eq_self_iff.mpr hflow.symm).symm
  | some existingId => rfl

theorem finish_flowToSlice (hc : c.visit = .finish flowId sliceId closeFlow) : (s.call ts c).flowToSlice =
    if closeFlow then Function.update s.flowToSlice flowId none else s.flowToSlice := by
  have hnone : s.flowToSlice flowId = none →
      s.flowToSlice = if closeFlow then Function.update s.flowToSlice flowId none else s.flowToSlice := by
    intro hflow
    rw [← hflow, Function.update_eq_self, ite_self]
  rcases call_finish ts s hc with hcall | hcall
  · rw [hcall, endFlow]
    cases hflow : s.flowToSlice flowId with
    | none => exact hnone hflow
    | some existingId => cases closeFlow <;> rfl
  · rw [hcall, endFlowAt, if_neg (by decide)]
    cases hflow : s.flowToSlice flowId with
    | none => exact hnone hflow
    | some existingId => cases closeFlow <;> rfl

/-- Where no flow is missing the pending ends leave the flows where they are, and each inserts its row. -/
theorem foldl_resolveEnd (flowIds : List ℕ) (s : FlowTracker) (hflows : ∀ f ∈ flowIds, s.isActive f = true) :
    (flowIds.foldl (resolveEnd sliceId) s).flowToSlice = s.flowToSlice ∧
      (flowIds.foldl (resolveEnd sliceId) s).pendingFlowIds = s.pendingFlowIds ∧
      (flowIds.foldl (resolveEnd sliceId) s).flows =
        s.flows ++ flowIds.map fun f => ⟨(s.flowToSlice f).getD 0, sliceId, f⟩ := by
  induction flowIds generalizing s with
  | nil => exact ⟨rfl, rfl, (List.append_nil _).symm⟩
  | cons f flowIds ih =>
    obtain ⟨existingId, hflow⟩ := Option.isSome_iff_exists.mp (hflows f List.mem_cons_self)
    have hmap : (resolveEnd sliceId s f).flowToSlice = s.flowToSlice := by
      show Function.update s.flowToSlice f (some ((s.flowToSlice f).getD 0)) = s.flowToSlice
      rw [hflow, Option.getD_some, ← hflow, Function.update_eq_self]
    obtain ⟨hslices, hpending, hrows⟩ := ih (resolveEnd sliceId s f) fun f' hf' => by
      rw [isActive, hmap]
      exact hflows f' (List.mem_cons_of_mem _ hf')
    refine ⟨hslices.trans hmap, hpending, hrows.trans ?_⟩
    rw [hmap, List.map_cons]
    exact List.append_assoc _ _ _

theorem closePendingEventsOnTrack_spec (hflows : ∀ f ∈ (s.pendingFlowIds trackId).getD [], s.isActive f = true) :
    (s.closePendingEventsOnTrack trackId sliceId).flowToSlice = s.flowToSlice ∧
      (s.closePendingEventsOnTrack trackId sliceId).pendingFlowIds = Function.update s.pendingFlowIds trackId none ∧
      (s.closePendingEventsOnTrack trackId sliceId).flows = s.flows ++
        ((s.pendingFlowIds trackId).getD []).map fun f => ⟨(s.flowToSlice f).getD 0, sliceId, f⟩ := by
  unfold closePendingEventsOnTrack
  cases htrack : s.pendingFlowIds trackId with
  | none => exact ⟨rfl, (Function.update_eq_self_iff.mpr htrack.symm).symm, (List.append_nil _).symm⟩
  | some flowIds =>
    rw [htrack, Option.getD_some] at hflows
    obtain ⟨hslices, hpending, hrows⟩ := foldl_resolveEnd flowIds s hflows
    refine ⟨hslices, ?_, hrows⟩
    show Function.update (flowIds.foldl (resolveEnd sliceId) s).pendingFlowIds trackId none = _
    rw [hpending]

/-- A pending end leaves its flow active, whether it began or not. -/
theorem isActive_foldl_resolveEnd {flowIds : List ℕ} {s : FlowTracker}
    (hflow : flowId ∈ flowIds ∨ s.isActive flowId = true) :
    (flowIds.foldl (resolveEnd sliceId) s).isActive flowId = true := by
  induction flowIds generalizing s with
  | nil => exact hflow.resolve_left nofun
  | cons f flowIds ih =>
    refine ih ?_
    by_cases hf : flowId = f
    · right
      subst hf
      show (Function.update s.flowToSlice flowId (some ((s.flowToSlice flowId).getD 0)) flowId).isSome = true
      rw [Function.update_self, Option.isSome_some]
    · refine hflow.imp (fun hmem => (List.mem_cons.mp hmem).resolve_left hf) fun hactive => ?_
      show (Function.update s.flowToSlice f (some ((s.flowToSlice f).getD 0)) flowId).isSome = true
      rwa [Function.update_of_ne hf]

theorem isActive_closePendingEventsOnTrack (hmem : flowId ∈ (s.pendingFlowIds trackId).getD []) :
    (s.closePendingEventsOnTrack trackId sliceId).isActive flowId = true := by
  unfold closePendingEventsOnTrack
  cases htrack : s.pendingFlowIds trackId with
  | none =>
    rw [htrack] at hmem
    cases hmem
  | some flowIds =>
    rw [htrack] at hmem
    exact isActive_foldl_resolveEnd (s := s) (Or.inl hmem)

end Calls

/-! ### What a call makes of the maps -/

/-- Where a visit leaves the flow. -/
def Visit.position (flowId : ℕ) : Visit → Option ℕ → Option ℕ
  | .start flowId' sliceId, last => if flowId = flowId' then some (last.getD sliceId) else last
  | .pass flowId' sliceId, last => if flowId = flowId' then last.map fun _ => sliceId else last
  | .finish flowId' _ true, last => if flowId = flowId' then none else last
  | _, last => last

/-- The flows whose ends wait on the track after a visit. -/
def Visit.pending (trackId : ℕ) : Visit → List ℕ → List ℕ
  | .wait trackId' flowId _, flowIds => if trackId = trackId' then flowIds ++ [flowId] else flowIds
  | .arrive trackId' _, flowIds => if trackId = trackId' then [] else flowIds
  | _, flowIds => flowIds

section Steps

variable {ts : ℕ → ℤ} {h : List Call} {s s' : FlowTracker} {c : Call} {flowId sliceId trackId : ℕ} {closeFlow : Bool}

theorem call_flowToSlice (harrive : ∀ trackId sliceId, c.visit = .arrive trackId sliceId →
      ∀ f ∈ (s.pendingFlowIds trackId).getD [], s.isActive f = true) (flowId : ℕ) :
    (s.call ts c).flowToSlice flowId = c.visit.position flowId (s.flowToSlice flowId) := by
  cases hc : c.visit with
  | start flowId' sliceId =>
    rw [call_start hc, beginFlow_flowToSlice, Function.update_apply, Visit.position]
    split_ifs with hflow <;> simp [hflow]
  | pass flowId' sliceId =>
    rw [call_pass hc, stepFlow_flowToSlice, Function.update_apply, Visit.position]
    split_ifs with hflow <;> simp [hflow]
  | finish flowId' sliceId closeFlow =>
    rw [finish_flowToSlice hc]
    cases closeFlow with
    | false => rfl
    | true => exact Function.update_apply s.flowToSlice flowId' none flowId
  | wait trackId flowId' closeFlow =>
    rw [call_wait hc]
    rfl
  | arrive trackId sliceId =>
    rw [call_arrive hc, (closePendingEventsOnTrack_spec (harrive trackId sliceId hc)).1]
    rfl
  | nothing =>
    obtain ⟨stat, hcall⟩ := call_nothing ts s hc
    rw [hcall]
    rfl

theorem call_pendingFlowIds (harrive : ∀ trackId sliceId, c.visit = .arrive trackId sliceId →
      ∀ f ∈ (s.pendingFlowIds trackId).getD [], s.isActive f = true) (trackId : ℕ) :
    ((s.call ts c).pendingFlowIds trackId).getD [] = c.visit.pending trackId ((s.pendingFlowIds trackId).getD []) := by
  cases hc : c.visit with
  | start flowId sliceId =>
    rw [call_start hc, beginFlow]
    split <;> rfl
  | pass flowId sliceId =>
    rw [call_pass hc, stepFlow]
    split <;> rfl
  | finish flowId sliceId closeFlow =>
    rcases call_finish ts s hc with hcall | hcall
    · rw [hcall, endFlow]
      split <;> cases closeFlow <;> rfl
    · rw [hcall, endFlowAt, if_neg (by decide)]
      split <;> cases closeFlow <;> rfl
  | wait trackId' flowId closeFlow =>
    rw [call_wait hc, endOnTrack, Visit.pending]
    show (Function.update s.pendingFlowIds trackId' _ trackId).getD [] = _
    rw [Function.update_apply]
    split_ifs with htrack <;> simp [htrack]
  | arrive trackId' sliceId =>
    rw [call_arrive hc, (closePendingEventsOnTrack_spec (harrive trackId' sliceId hc)).2.1, Function.update_apply,
      Visit.pending]
    split_ifs <;> rfl
  | nothing =>
    obtain ⟨stat, hcall⟩ := call_nothing ts s hc
    rw [hcall]
    rfl

/-- The history goes where the visit does. -/
theorem lastAt_position {last : Option ℕ} (hlast : ∀ sliceId, last = some sliceId ↔ LastAt h flowId sliceId)
    (hwait : ∀ trackId, c.visit = .wait trackId flowId true → ¬ Active h flowId) :
    c.visit.position flowId last = some sliceId ↔ LastAt (h ++ [c]) flowId sliceId := by
  have hactive : Active h flowId ↔ last.isSome = true := by
    rw [← exists_lastAt_iff, Option.isSome_iff_exists]
    exact exists_congr fun sliceId => (hlast sliceId).symm
  rw [lastAt_concat, ← hlast, hactive]
  rw [hactive] at hwait
  cases hc : c.visit with
  | start flowId' sliceId' | pass flowId' sliceId' =>
    rcases eq_or_ne flowId flowId' with rfl | hflow
    · cases last <;> simp [Visit.position, Closes, hc]
    · simp [Visit.position, Closes, hc, hflow, hflow.symm]
  | finish flowId' sliceId' closeFlow =>
    rcases eq_or_ne flowId flowId' with rfl | hflow
    · cases closeFlow <;> simp [Visit.position, Closes, hc]
    · cases closeFlow <;> simp [Visit.position, Closes, hc, hflow, hflow.symm]
  | wait trackId flowId' closeFlow =>
    -- an end that would close the flow finds it closed
    rcases eq_or_ne flowId flowId' with rfl | hflow
    · cases closeFlow <;> cases last <;> simp_all [Visit.position, Closes]
    · simp [Visit.position, Closes, hc, hflow.symm]
  | arrive trackId sliceId' | nothing => simp [Visit.position, Closes, hc]

theorem pendingEnd_pending {flowIds : List ℕ} (hpending : flowId ∈ flowIds ↔ PendingEnd h trackId flowId) :
    flowId ∈ c.visit.pending trackId flowIds ↔ PendingEnd (h ++ [c]) trackId flowId := by
  rw [pendingEnd_concat, ← hpending]
  cases hc : c.visit with
  | wait trackId' flowId' closeFlow =>
    by_cases htrack : trackId = trackId' <;> simp [Visit.pending, htrack, eq_comm, or_comm]
  | arrive trackId' sliceId =>
    by_cases htrack : trackId = trackId' <;> simp [Visit.pending, htrack, eq_comm]
  | _ => simp [Visit.pending]

/-- The flows of the pending ends that a slice closes are there. -/
theorem Follows.isActive_of_arrive (hs : Follows h s) (hr : Resolves h c) (trackId sliceId : ℕ)
    (hc : c.visit = .arrive trackId sliceId) : ∀ f ∈ (s.pendingFlowIds trackId).getD [], s.isActive f = true := by
  intro f hf
  exact (hs.isActive_iff f).mpr (hr.2 trackId sliceId f hc ((hs.pending trackId f).mp hf))

/-- One call, as long as it resolves no pending end wrongly. -/
theorem Follows.call (hs : Follows h s) (hr : Resolves h c) : Follows (h ++ [c]) (s.call ts c) where
  position := by
    intro flowId sliceId
    rw [call_flowToSlice (hs.isActive_of_arrive hr)]
    exact lastAt_position (hs.position flowId) fun trackId hc => hr.1 trackId flowId hc
  pending := by
    intro trackId flowId
    rw [call_pendingFlowIds (hs.isActive_of_arrive hr)]
    exact pendingEnd_pending (hs.pending trackId flowId)

/-! ### The rows a call inserts -/

/-- A row between where its flow is and the slice that the call gives to it. -/
theorem Follows.joins (hs : Follows h s) {last other : ℕ} (hpos : s.flowToSlice flowId = some last)
    (hother : Gives c flowId other ∨ ∃ trackId, c.visit = .arrive trackId other ∧ PendingEnd h trackId flowId) :
    Joins h c ⟨last, other, flowId⟩ ∧ Joins h c ⟨other, last, flowId⟩ := by
  have hlast : LastAt h flowId last := (hs.position flowId last).mp hpos
  exact ⟨⟨last, other, hlast, lastAt_given hlast, hother, Or.inl ⟨rfl, rfl⟩⟩,
    ⟨last, other, hlast, lastAt_given hlast, hother, Or.inr ⟨rfl, rfl⟩⟩⟩

/-- What `insertOrdered` inserts for the flow. -/
theorem Follows.joins_insertOrdered (hs : Follows h s) {last other : ℕ} (hpos : s.flowToSlice flowId = some last)
    (hother : Gives c flowId other) (hflows : s'.flows = s.flows) :
    ∃ rows, (insertOrdered ts s' flowId last other).flows = s.flows ++ rows ∧ ∀ row ∈ rows, Joins h c row := by
  obtain ⟨hfirst, hsecond⟩ := hs.joins hpos (Or.inl hother)
  rcases insertOrdered_flows ts s' flowId last other with hrow | hrow
  · exact ⟨[⟨last, other, flowId⟩], hflows ▸ hrow, fun row hrow' => List.mem_singleton.mp hrow' ▸ hfirst⟩
  · exact ⟨[⟨other, last, flowId⟩], hflows ▸ hrow, fun row hrow' => List.mem_singleton.mp hrow' ▸ hsecond⟩

theorem Follows.call_rows (ts : ℕ → ℤ) (hs : Follows h s) (hr : Resolves h c) :
    ∃ rows, (s.call ts c).flows = s.flows ++ rows ∧ ∀ row ∈ rows, Joins h c row := by
  cases hc : c.visit with
  | start flowId sliceId =>
    refine ⟨[], ?_, nofun⟩
    rw [call_start hc, List.append_nil, beginFlow]
    split <;> rfl
  | pass flowId sliceId =>
    rw [call_pass hc, stepFlow]
    cases hpos : s.flowToSlice flowId with
    | none => exact ⟨[], (List.append_nil _).symm, nofun⟩
    | some last => exact hs.joins_insertOrdered hpos (Or.inr (Or.inl hc)) rfl
  | finish flowId sliceId closeFlow =>
    have hgives : Gives c flowId sliceId := Or.inr (Or.inr ⟨closeFlow, hc⟩)
    rcases call_finish ts s hc with hcall | hcall
    · rw [hcall, endFlow]
      cases hpos : s.flowToSlice flowId with
      | none => exact ⟨[], (List.append_nil _).symm, nofun⟩
      | some last => exact hs.joins_insertOrdered hpos hgives (by cases closeFlow <;> rfl)
    · rw [hcall, endFlowAt, if_neg (by decide)]
      cases hpos : s.flowToSlice flowId with
      | none => exact ⟨[], (List.append_nil _).symm, nofun⟩
      | some last =>
        refine ⟨[⟨last, sliceId, flowId⟩], by cases closeFlow <;> rfl, fun row hrow => ?_⟩
        rw [List.mem_singleton.mp hrow]
        exact (hs.joins hpos (Or.inl hgives)).1
  | wait trackId flowId closeFlow =>
    rw [call_wait hc]
    exact ⟨[], (List.append_nil _).symm, nofun⟩
  | arrive trackId sliceId =>
    have hactive := hs.isActive_of_arrive hr trackId sliceId hc
    rw [call_arrive hc, (closePendingEventsOnTrack_spec hactive).2.2]
    refine ⟨_, rfl, fun row hrow => ?_⟩
    obtain ⟨f, hf, rfl⟩ := List.mem_map.mp hrow
    obtain ⟨last, hpos⟩ := Option.isSome_iff_exists.mp (hactive f hf)
    rw [hpos, Option.getD_some]
    exact (hs.joins hpos (Or.inr ⟨trackId, hc, (hs.pending trackId f).mp hf⟩)).1
  | nothing =>
    obtain ⟨stat, hcall⟩ := call_nothing ts s hc
    rw [hcall]
    exact ⟨[], (List.append_nil _).symm, nofun⟩

end Steps

/-! ### Runs -/

theorem follows_init : Follows [] init where
  position := by
    intro flowId sliceId
    constructor
    · exact nofun
    · exact fun hlast => absurd hlast not_since_nil
  pending := by
    intro trackId flowId
    constructor
    · exact nofun
    · exact fun hend => absurd hend not_since_nil

theorem run_concat (ts : ℕ → ℤ) (h : List Call) (c : Call) : run ts (h ++ [c]) = (run ts h).call ts c := by
  rw [run, List.foldl_append]
  rfl

/-- The condition on every call of a run. -/
def ResolvesAll (calls : List Call) : Prop := ∀ h c, h ++ [c] <+: calls → Resolves h c

theorem run_follows {calls : List Call} (ts : ℕ → ℤ) (hcalls : ResolvesAll calls) : Follows calls (run ts calls) := by
  induction calls using List.reverseRecOn with
  | nil => exact follows_init
  | append_singleton h c ih =>
    rw [run_concat]
    exact (ih fun h' c' hpre => hcalls h' c' (hpre.trans (List.prefix_append _ _))).call (hcalls h c List.prefix_rfl)

/-- Every row that a call inserts joins the slice its active flow was at with the slice given to it, and a flow is active
from its begin to its first closing end. -/
def LinksVisited (ts : ℕ → ℤ) (calls : List Call) : Prop :=
  (∀ h c, h ++ [c] <+: calls → ∃ rows, (run ts (h ++ [c])).flows = (run ts h).flows ++ rows ∧
    ∀ row ∈ rows, Joins h c row ∧ Active h row.traceId) ∧
  ∀ h, h <+: calls → ∀ flowId, (run ts h).isActive flowId = true ↔ Active h flowId

theorem run_linksVisited {calls : List Call} (ts : ℕ → ℤ) (hcalls : ResolvesAll calls) : LinksVisited ts calls := by
  have hpre : ∀ {h}, h <+: calls → ResolvesAll h := fun hh h' c' h'' => hcalls h' c' (h''.trans hh)
  constructor
  · intro h c hhc
    have hs : Follows h (run ts h) := run_follows ts (hpre ((List.prefix_append h [c]).trans hhc))
    obtain ⟨rows, hrows, hjoins⟩ := hs.call_rows ts (hcalls h c hhc)
    refine ⟨rows, by rw [run_concat, hrows], fun row hrow => ⟨hjoins row hrow, ?_⟩⟩
    obtain ⟨last, -, hlast, -⟩ := hjoins row hrow
    exact (exists_lastAt_iff h row.traceId).mp ⟨last, hlast⟩
  · intro h hh flowId
    exact (run_follows ts (hpre hh)).isActive_iff flowId

theorem resolvesAll_nil : ResolvesAll [] := by
  intro h c hpre
  exact absurd (List.prefix_nil.mp hpre) (List.append_ne_nil_of_right_ne_nil _ nofun)

theorem resolvesAll_concat {h : List Call} {c : Call} : ResolvesAll h → Resolves h c → ResolvesAll (h ++ [c]) := by
  intro hh hc h' c' hpre
  rcases List.prefix_concat_iff.mp hpre with heq | hpre
  · obtain ⟨rfl, hcc⟩ := List.append_inj' heq rfl
    rwa [List.singleton_inj.mp hcc]
  · exact hh h' c' hpre

/-- An end that waits leaves its flow active, and a slice makes the flows active whose ends waited for it: where `IsActive`
is right after the call, the call resolves no pending end wrongly. -/
theorem Follows.resolves {ts : ℕ → ℤ} {h : List Call} {s : FlowTracker} {c : Call} (hs : Follows h s)
    (hactive : ∀ flowId, (s.call ts c).isActive flowId = true → Active (h ++ [c]) flowId) : Resolves h c := by
  constructor
  · intro trackId flowId hc hopen
    have hstays : (s.call ts c).isActive flowId = true := by
      rw [call_wait hc]
      exact (hs.isActive_iff flowId).mpr hopen
    rcases active_concat.mp (hactive flowId hstays) with ⟨sliceId, hc'⟩ | ⟨-, hcloses⟩
    · cases hc.symm.trans hc'
    · exact hcloses (Or.inr ⟨trackId, hc⟩)
  · intro trackId sliceId flowId hc hend
    have hmade : (s.call ts c).isActive flowId = true := by
      rw [call_arrive hc]
      exact isActive_closePendingEventsOnTrack ((hs.pending trackId flowId).mpr hend)
    rcases active_concat.mp (hactive flowId hmade) with ⟨sliceId', hc'⟩ | ⟨hopen, -⟩
    · cases hc.symm.trans hc'
    · exact hopen

/-- The condition is exact: the first call that breaks it makes `IsActive` wrong. -/
theorem run_linksVisited_iff (ts : ℕ → ℤ) (calls : List Call) : LinksVisited ts calls ↔ ResolvesAll calls := by
  constructor
  · rintro ⟨-, hactive⟩
    induction calls using List.reverseRecOn with
    | nil => exact resolvesAll_nil
    | append_singleton h c ih =>
      have hh : ResolvesAll h := ih fun h' hpre => hactive h' (hpre.trans (List.prefix_append _ _))
      have hmade : ∀ flowId, ((run ts h).call ts c).isActive flowId = true → Active (h ++ [c]) flowId := by
        rw [← run_concat]
        exact fun flowId => (hactive _ List.prefix_rfl flowId).mp
      exact resolvesAll_concat hh ((run_follows ts hh).resolves hmade)
  · exact run_linksVisited ts

/-- A flow begins at slice 1, and an end of it waits for slice 2 on track 3. -/
theorem linksVisited_pending :
    LinksVisited (fun sliceId => sliceId) (([.beginFlow 1 7] ++ [.endOnTrack 3 7 false false none]) ++
      [.closePendingEventsOnTrack 3 2]) := by
  refine (run_linksVisited_iff _ _).mpr (resolvesAll_concat (resolvesAll_concat
    (resolvesAll_concat (h := []) resolvesAll_nil ⟨nofun, nofun⟩) ⟨nofun, nofun⟩) ⟨nofun, ?_⟩)
  rintro trackId sliceId flowId - hend
  rw [← List.nil_append [Call.beginFlow 1 7]] at hend ⊢
  rcases pendingEnd_concat.mp hend with ⟨_, hc⟩ | ⟨hend, -⟩
  · cases hc
    exact active_concat.mpr (Or.inr ⟨active_concat.mpr (Or.inl ⟨1, rfl⟩), by rintro (⟨_, ⟨⟩⟩ | ⟨_, ⟨⟩⟩)⟩)
  · rcases pendingEnd_concat.mp hend with ⟨_, ⟨⟩⟩ | ⟨hend, -⟩
    exact absurd hend not_since_nil

/-- The end of a flow that never began is closed by slice 3, which gets a row from slice 0. -/
theorem not_linksVisited_unbegun :
    ¬ LinksVisited (fun sliceId => sliceId) [.endOnTrack 1 5 false false none, .closePendingEventsOnTrack 1 3] := by
  rintro ⟨hrows, -⟩
  obtain ⟨rows, heq, hrow⟩ := hrows [.endOnTrack 1 5 false false none] (.closePendingEventsOnTrack 1 3) List.prefix_rfl
  have hmem : (⟨0, 3, 5⟩ : FlowRow) ∈ rows := by
    rw [← show [⟨0, 3, 5⟩] = rows from heq]
    exact List.mem_singleton_self _
  rcases (active_concat (h := [])).mp (hrow _ hmem).2 with ⟨_, ⟨⟩⟩ | ⟨hactive, -⟩
  exact not_since_nil hactive

end LynxTrace.TraceProcessor.FlowTracker
