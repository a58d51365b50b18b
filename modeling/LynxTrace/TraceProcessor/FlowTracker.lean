import LynxTrace.Base.Since
import Mathlib.Data.Int.Order.Basic
import Mathlib.Logic.Function.Basic

/-!
# TraceProcessor.FlowTracker — `FlowTracker` (src/trace_processor/importers/common/flow_tracker.cc)

A flow goes from slice to slice; each hop is a row of the flow table.  An end that is not bound to the enclosing slice
waits for the next slice on its track.  What the slice tracker knows is an argument: `openSlice` is the topmost slice on
the track of a call, `ts` the start of a slice.  The arguments of version 1 events are left out.
-/

namespace LynxTrace.TraceProcessor

/-- The counters of `stats` that the tracker increments. -/
inductive FlowStat
  | noEnclosingSlice
  | duplicateId
  | stepWithoutStart
  | endWithoutStart
  deriving DecidableEq, Repr

/-- `tables::FlowTable::Row` -/
structure FlowRow where
  sliceOut : ℕ
  sliceIn : ℕ
  traceId : ℕ
  deriving DecidableEq, Repr

structure FlowTracker where
  pendingFlowIds : ℕ → Option (List ℕ)
  flowToSlice : ℕ → Option ℕ
  flows : List FlowRow
  stats : FlowStat → ℕ

namespace FlowTracker

def init : FlowTracker := ⟨fun _ => none, fun _ => none, [], fun _ => 0⟩

def incrementStats (s : FlowTracker) (stat : FlowStat) : FlowTracker :=
  { s with stats := Function.update s.stats stat (s.stats stat + 1) }

/-- An entry of `flow_to_slice_map_` written or erased. -/
def setSlice (s : FlowTracker) (flowId : ℕ) (sliceId : Option ℕ) : FlowTracker :=
  { s with flowToSlice := Function.update s.flowToSlice flowId sliceId }

def insertFlow (s : FlowTracker) (flowId sliceOutId sliceInId : ℕ) : FlowTracker :=
  { s with flows := s.flows ++ [⟨sliceOutId, sliceInId, flowId⟩] }

def isActive (s : FlowTracker) (flowId : ℕ) : Bool := (s.flowToSlice flowId).isSome

/-- `FlowTracker::Begin(SliceId, FlowId)`; a flow that is there stays where it is. -/
def beginFlow (s : FlowTracker) (sliceId flowId : ℕ) : FlowTracker :=
  match s.flowToSlice flowId with
  | some _ => s.incrementStats .duplicateId
  | none => s.setSlice flowId (some sliceId)

/-- The row between the slice of a flow and another one, the earlier slice first. -/
def insertOrdered (ts : ℕ → ℤ) (s : FlowTracker) (flowId existingId newId : ℕ) : FlowTracker :=
  let outgoing := if ts existingId > ts newId then newId else existingId
  let incoming := if ts existingId ≤ ts newId then newId else existingId
  s.insertFlow flowId outgoing incoming

/-- `FlowTracker::Step(SliceId, FlowId)` -/
def stepFlow (ts : ℕ → ℤ) (s : FlowTracker) (newId flowId : ℕ) : FlowTracker :=
  match s.flowToSlice flowId with
  | none => s.incrementStats .stepWithoutStart
  | some existingId => (insertOrdered ts s flowId existingId newId).setSlice flowId (some newId)

/-- `FlowTracker::End(SliceId, FlowId, bool)` -/
def endFlow (ts : ℕ → ℤ) (s : FlowTracker) (newId flowId : ℕ) (closeFlow : Bool) : FlowTracker :=
  match s.flowToSlice flowId with
  | none => s.incrementStats .endWithoutStart
  | some existingId =>
    let s := if closeFlow then s.setSlice flowId none else s
    insertOrdered ts s flowId existingId newId

/-- `FlowTracker::End(SliceId, FlowId, bool, bool)` -/
def endFlowAt (ts : ℕ → ℤ) (s : FlowTracker) (sliceId flowId : ℕ) (closeFlow ignoreClosingSlice : Bool) : FlowTracker :=
  if !ignoreClosingSlice then s.endFlow ts sliceId flowId closeFlow
  else
    match s.flowToSlice flowId with
    | none => s
    | some sliceOutId =>
      let s := if closeFlow then s.setSlice flowId none else s
      s.insertFlow flowId sliceOutId sliceId

/-- `FlowTracker::End(TrackId, FlowId, bool, bool)` -/
def endOnTrack (ts : ℕ → ℤ) (s : FlowTracker) (trackId flowId : ℕ) (bindEnclosingSlice closeFlow : Bool)
    (openSlice : Option ℕ) : FlowTracker :=
  if !bindEnclosingSlice then
    { s with pendingFlowIds :=
        Function.update s.pendingFlowIds trackId (some ((s.pendingFlowIds trackId).getD [] ++ [flowId])) }
  else
    match openSlice with
    | none => s.incrementStats .noEnclosingSlice
    | some sliceId => s.endFlow ts sliceId flowId closeFlow

/-- One pending end; `flow_to_slice_map_[flow_id]` inserts slice 0 for a flow that is not there. -/
def resolveEnd (sliceId : ℕ) (s : FlowTracker) (flowId : ℕ) : FlowTracker :=
  let sliceOutId := (s.flowToSlice flowId).getD 0
  (s.setSlice flowId (some sliceOutId)).insertFlow flowId sliceOutId sliceId

def closePendingEventsOnTrack (s : FlowTracker) (trackId sliceId : ℕ) : FlowTracker :=
  match s.pendingFlowIds trackId with
  | none => s
  | some flowIds =>
    let s := flowIds.foldl (resolveEnd sliceId) s
    { s with pendingFlowIds := Function.update s.pendingFlowIds trackId none }

/-! ### Calls -/

inductive Call
  | beginFlow (sliceId flowId : ℕ)
  | beginOnTrack (trackId flowId : ℕ) (openSlice : Option ℕ)
  | stepFlow (sliceId flowId : ℕ)
  | stepOnTrack (trackId flowId : ℕ) (openSlice : Option ℕ)
  | endFlow (sliceId flowId : ℕ) (closeFlow : Bool)
  | endFlowAt (sliceId flowId : ℕ) (closeFlow ignoreClosingSlice : Bool)
  | endOnTrack (trackId flowId : ℕ) (bindEnclosingSlice closeFlow : Bool) (openSlice : Option ℕ)
  | closePendingEventsOnTrack (trackId sliceId : ℕ)
  deriving DecidableEq, Repr

def call (ts : ℕ → ℤ) (s : FlowTracker) : Call → FlowTracker
  | .beginFlow sliceId flowId => s.beginFlow sliceId flowId
  | .beginOnTrack _ _ none => s.incrementStats .noEnclosingSlice
  | .beginOnTrack _ flowId (some sliceId) => s.beginFlow sliceId flowId
  | .stepFlow sliceId flowId => s.stepFlow ts sliceId flowId
  | .stepOnTrack _ _ none => s.incrementStats .noEnclosingSlice
  | .stepOnTrack _ flowId (some sliceId) => s.stepFlow ts sliceId flowId
  | .endFlow sliceId flowId closeFlow => s.endFlow ts sliceId flowId closeFlow
  | .endFlowAt sliceId flowId closeFlow ignoreClosingSlice => s.endFlowAt ts sliceId flowId closeFlow ignoreClosingSlice
  | .endOnTrack trackId flowId bindEnclosingSlice closeFlow openSlice =>
    s.endOnTrack ts trackId flowId bindEnclosingSlice closeFlow openSlice
  | .closePendingEventsOnTrack trackId sliceId => s.closePendingEventsOnTrack trackId sliceId

def run (ts : ℕ → ℤ) (calls : List Call) : FlowTracker := calls.foldl (call ts) init

end FlowTracker

end LynxTrace.TraceProcessor
