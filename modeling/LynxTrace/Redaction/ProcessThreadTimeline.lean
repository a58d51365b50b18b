import Mathlib.Algebra.Order.Ring.Int
import Mathlib.Data.List.Basic

/-!
# Redaction.ProcessThreadTimeline — `ProcessThreadTimeline` (src/trace_redaction/process_thread_timeline.{h,cc})
-/

namespace LynxTrace.Redaction

inductive EventType
  | kInvalid
  | kOpen
  | kClose
  deriving DecidableEq, Repr

/-- `ProcessThreadTimeline::Event`. -/
structure TimelineEvent where
  type : EventType
  ts : ℕ
  pid : ℤ
  ppid : ℤ
  uid : ℕ
  deriving DecidableEq, Repr

namespace TimelineEvent

def kUnknownPid : ℤ := 2 ^ 31 - 1

def kUnknownUid : ℕ := 2 ^ 64 - 1

/-- `Event::Open`. -/
def openEvent (ts : ℕ) (pid ppid : ℤ) (uid : ℕ) : TimelineEvent := ⟨.kOpen, ts, pid, ppid, uid⟩

/-- `Event::Close`. -/
def closeEvent (ts : ℕ) (pid : ℤ) : TimelineEvent := ⟨.kClose, ts, pid, kUnknownPid, kUnknownUid⟩

end TimelineEvent

/-- A timeline in read mode: `Sort` has ordered the events by pid. -/
structure ProcessThreadTimeline where
  events : List TimelineEvent
  sorted : events.Pairwise fun left right => left.pid ≤ right.pid

namespace ProcessThreadTimeline

/-- The events from `lower_bound` to `upper_bound`. -/
def island (timeline : ProcessThreadTimeline) (pid : ℤ) : List TimelineEvent :=
  (timeline.events.dropWhile fun e => e.pid < pid).takeWhile fun e => e.pid ≤ pid

/-- The loop of `QueryLeftMax`. -/
def leftMax (ts : ℕ) (type : EventType) : Option TimelineEvent → List TimelineEvent → Option TimelineEvent
  | best, [] => best
  | best, e :: events =>
    let replace :=
      if e.type = type ∧ e.ts ≤ ts then
        match best with
        | none => true
        | some b => b.ts < e.ts
      else false
    leftMax ts type (if replace then some e else best) events

def queryLeftMax (timeline : ProcessThreadTimeline) (ts : ℕ) (pid : ℤ) (type : EventType) : Option TimelineEvent :=
  leftMax ts type none (timeline.island pid)

def kMaxSearchDepth : ℕ := 10

/-- The loop of `PidConnectsToUid`, with the iterations left. -/
def connectsFrom (timeline : ProcessThreadTimeline) (ts uid : ℕ) : ℕ → ℤ → Bool
  | 0, _ => false
  | depth + 1, pid =>
    match timeline.queryLeftMax ts pid .kOpen with
    | none => false
    | some prevOpen =>
      let close := ((timeline.queryLeftMax ts pid .kClose).map (·.ts)).getD 0
      if prevOpen.ts < close ∧ close < ts then false
      else if prevOpen.uid = uid then true
      else if prevOpen.ppid = TimelineEvent.kUnknownPid then false
      else timeline.connectsFrom ts uid depth prevOpen.ppid

def pidConnectsToUid (timeline : ProcessThreadTimeline) (ts : ℕ) (pid : ℤ) (uid : ℕ) : Bool :=
  timeline.connectsFrom ts uid kMaxSearchDepth pid

end ProcessThreadTimeline

end LynxTrace.Redaction
