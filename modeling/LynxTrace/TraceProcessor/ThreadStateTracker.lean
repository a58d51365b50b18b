import Mathlib.Algebra.Order.Ring.Int
import Mathlib.Logic.Function.Basic

/-!
# TraceProcessor.ThreadStateTracker — `ThreadStateTracker` (src/trace_processor/importers/common/thread_state_tracker.cc)

The events of the scheduler open and close rows of the thread state table.  A state is the string behind its id; the
swapper's `utid` and the id of a cpu are arguments.  Timestamps are 64-bit: a difference that does not fit wraps around.
-/

namespace LynxTrace.TraceProcessor

/-- `tables::ThreadStateTable::Row` -/
structure ThreadStateRow where
  ts : ℤ
  dur : ℤ
  utid : ℕ
  state : String
  ioWait : Option Bool
  blockedFunction : Option String
  wakerUtid : Option ℕ
  wakerId : Option ℕ
  irqContext : Option ℕ
  ucpu : Option ℕ
  deriving DecidableEq, Repr

/-- `tables::SpuriousSchedWakeupTable::Row` -/
structure SpuriousSchedWakeupRow where
  ts : ℤ
  threadStateId : ℕ
  irqContext : Option ℕ
  utid : ℕ
  wakerUtid : ℕ
  deriving DecidableEq, Repr

/-- `RelatedRows`: row numbers. -/
structure RelatedRows where
  lastBlockedRow : Option ℕ
  lastRow : ℕ
  deriving DecidableEq, Repr

structure ThreadStateTracker where
  rows : List ThreadStateRow
  spuriousWakeups : List SpuriousSchedWakeupRow
  prevRowNumbersForThread : ℕ → Option RelatedRows

namespace ThreadStateTracker

def init : ThreadStateTracker := ⟨[], [], fun _ => none⟩

def isRunning (state : String) : Bool := state = "Running"

def isRunnable (state : String) : Bool := state = "R"

def isBlocked (state : String) : Bool := !(isRunnable state || isRunning state)

/-- `CommonFlagsToIrqContext`: `TRACE_FLAG_HARDIRQ` or `TRACE_FLAG_SOFTIRQ` -/
def commonFlagsToIrqContext (commonFlags : ℕ) : ℕ := if commonFlags &&& (0x08 ||| 0x10) ≠ 0 then 1 else 0

/-- The value of an `int64_t`. -/
def wrapTs (x : ℤ) : ℤ := x.bmod (2 ^ 64)

/-- `GetLastRowRef` -/
def lastRow (s : ThreadStateTracker) (utid : ℕ) : Option ThreadStateRow :=
  (s.prevRowNumbersForThread utid).bind fun related => s.rows[related.lastRow]?

/-- The id of the waker's last row, if it is running. -/
def wakerIdOf (s : ThreadStateTracker) (wakerUtid : Option ℕ) : Option ℕ :=
  wakerUtid.bind fun waker => (s.prevRowNumbersForThread waker).bind fun related =>
    (s.rows[related.lastRow]?).bind fun row => if isRunning row.state then some related.lastRow else none

/-- What `AddOpenState` keeps about the rows of the thread. -/
def relate (related : Option RelatedRows) (state : String) (rowNum : ℕ) : RelatedRows :=
  let related := related.getD ⟨none, rowNum⟩
  if isRunning state then ⟨none, rowNum⟩
  else if isBlocked state then ⟨some rowNum, rowNum⟩
  else { related with lastRow := rowNum }

section

variable (swapperUtid : ℕ) (getOrCreateCpu : ℕ → ℕ)

def addOpenState (s : ThreadStateTracker) (ts : ℤ) (utid : ℕ) (state : String) (cpu wakerUtid commonFlags : Option ℕ) :
    ThreadStateTracker :=
  if utid = swapperUtid then s
  else
    { s with
        rows := s.rows ++ [{
          ts, dur := -1, utid, state, ioWait := none, blockedFunction := none, wakerUtid,
          wakerId := s.wakerIdOf wakerUtid
          irqContext := commonFlags.map commonFlagsToIrqContext
          ucpu := cpu.map getOrCreateCpu }]
        prevRowNumbersForThread := Function.update s.prevRowNumbersForThread utid
          (some (relate (s.prevRowNumbersForThread utid) state s.rows.length)) }

def closePendingState (s : ThreadStateTracker) (endTs : ℤ) (utid : ℕ) (dataLoss : Bool) : ThreadStateTracker :=
  match s.prevRowNumbersForThread utid with
  | none => s
  | some related =>
    if dataLoss then s
    else { s with rows := s.rows.modify related.lastRow fun row => { row with dur := wrapTs (endTs - row.ts) } }

def pushSchedSwitchEvent (s : ThreadStateTracker) (eventTs : ℤ) (cpu prevUtid : ℕ) (prevState : String)
    (nextUtid : ℕ) : ThreadStateTracker :=
  -- a thread that was not running before: data is lost
  let dataLossCond := (s.lastRow prevUtid).any fun row => !isRunning row.state
  let s := s.closePendingState eventTs prevUtid dataLossCond
  let s := addOpenState swapperUtid getOrCreateCpu s eventTs prevUtid prevState none none none
  let s := s.closePendingState eventTs nextUtid false
  -- the cpu is converted to a `uint16_t`
  addOpenState swapperUtid getOrCreateCpu s eventTs nextUtid "Running" (some (cpu % 2 ^ 16)) none none

def pushWakingEvent (s : ThreadStateTracker) (eventTs : ℤ) (utid wakerUtid : ℕ) (commonFlags : Option ℕ) :
    ThreadStateTracker :=
  match s.prevRowNumbersForThread utid with
  | none => addOpenState swapperUtid getOrCreateCpu s eventTs utid "R" none (some wakerUtid) commonFlags
  | some related =>
    if (s.lastRow utid).any fun row => !isBlocked row.state then
      { s with spuriousWakeups := s.spuriousWakeups ++
          [⟨eventTs, related.lastRow, commonFlags.map commonFlagsToIrqContext, utid, wakerUtid⟩] }
    else
      addOpenState swapperUtid getOrCreateCpu (s.closePendingState eventTs utid false) eventTs utid "R" none
        (some wakerUtid) commonFlags

def pushNewTaskEvent (s : ThreadStateTracker) (eventTs : ℤ) (utid wakerUtid : ℕ) : ThreadStateTracker :=
  addOpenState swapperUtid getOrCreateCpu s eventTs utid "R" none (some wakerUtid) (some 0)

/-- The reason is set where it is given. -/
def setReason (ioWait : Option Bool) (blockedFunction : Option String) (row : ThreadStateRow) : ThreadStateRow :=
  { row with
      ioWait := ioWait.or row.ioWait
      blockedFunction := blockedFunction.or row.blockedFunction }

def pushBlockedReason (s : ThreadStateTracker) (utid : ℕ) (ioWait : Option Bool) (blockedFunction : Option String) :
    ThreadStateTracker :=
  match (s.prevRowNumbersForThread utid).bind RelatedRows.lastBlockedRow with
  | none => s
  | some rowNumber => { s with rows := s.rows.modify rowNumber (setReason ioWait blockedFunction) }

/-! ### Calls -/

inductive Call
  | schedSwitch (eventTs : ℤ) (cpu prevUtid : ℕ) (prevState : String) (nextUtid : ℕ)
  | waking (eventTs : ℤ) (utid wakerUtid : ℕ) (commonFlags : Option ℕ)
  | newTask (eventTs : ℤ) (utid wakerUtid : ℕ)
  | blockedReason (utid : ℕ) (ioWait : Option Bool) (blockedFunction : Option String)
  deriving DecidableEq, Repr

def call (s : ThreadStateTracker) : Call → ThreadStateTracker
  | .schedSwitch eventTs cpu prevUtid prevState nextUtid =>
    pushSchedSwitchEvent swapperUtid getOrCreateCpu s eventTs cpu prevUtid prevState nextUtid
  | .waking eventTs utid wakerUtid commonFlags =>
    pushWakingEvent swapperUtid getOrCreateCpu s eventTs utid wakerUtid commonFlags
  | .newTask eventTs utid wakerUtid => pushNewTaskEvent swapperUtid getOrCreateCpu s eventTs utid wakerUtid
  | .blockedReason utid ioWait blockedFunction => s.pushBlockedReason utid ioWait blockedFunction

def run (calls : List Call) : ThreadStateTracker := calls.foldl (call swapperUtid getOrCreateCpu) init

end

end ThreadStateTracker

end LynxTrace.TraceProcessor
