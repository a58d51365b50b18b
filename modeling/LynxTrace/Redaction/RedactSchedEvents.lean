import LynxTrace.Base.ExceptLists
import LynxTrace.Redaction.ProcessThreadTimeline

/-!
# Redaction.RedactSchedEvents — `RedactSchedEvents` (src/trace_redaction/redact_sched_events.{h,cc})

Messages are taken as their decoders give them: a message whose fields are copied one by one is the list of its fields,
one that is read through a typed decoder is a record of the fields it may have.
-/

namespace LynxTrace.Redaction

/-- A thread name. -/
abbrev Comm := List UInt8

/-- A packed field: the values up to the end or to the first that does not parse. -/
structure Packed (α : Type*) where
  values : List α
  parseError : Bool
  deriving DecidableEq, Repr

structure SchedSwitch where
  prevComm : Option Comm
  prevPid : Option ℤ
  prevPrio : Option ℤ
  prevState : Option ℤ
  nextComm : Option Comm
  nextPid : Option ℤ
  nextPrio : Option ℤ
  deriving DecidableEq, Repr

structure SchedWaking where
  comm : Option Comm
  pid : Option ℤ
  prio : Option ℤ
  success : Option ℤ
  targetCpu : Option ℤ
  deriving DecidableEq, Repr

/-- A field that no decoder here looks into. -/
structure RawField where
  id : ℕ
  bytes : List UInt8
  deriving DecidableEq, Repr

/-- A field of `FtraceEvent`. -/
inductive FtraceEventField
  | timestamp (ts : ℕ)
  | schedSwitch (m : SchedSwitch)
  | schedWaking (m : SchedWaking)
  | other (field : RawField)
  deriving DecidableEq, Repr

structure CompactSched where
  internTable : List Comm
  switchTimestamp : Option (Packed ℕ)
  switchPrevState : Option (Packed ℤ)
  switchNextPid : Option (Packed ℤ)
  switchNextPrio : Option (Packed ℤ)
  switchNextCommIndex : Option (Packed ℕ)
  wakingTimestamp : Option (Packed ℕ)
  wakingPid : Option (Packed ℤ)
  wakingTargetCpu : Option (Packed ℤ)
  wakingPrio : Option (Packed ℤ)
  wakingCommIndex : Option (Packed ℕ)
  wakingCommonFlags : Option (Packed ℕ)
  deriving DecidableEq, Repr

/-- A field of `FtraceEventBundle`. -/
inductive BundleField
  | cpu (cpu : ℤ)
  | event (fields : List FtraceEventField)
  | compactSched (m : CompactSched)
  | other (field : RawField)
  deriving DecidableEq, Repr

/-- A field of `TracePacket`. -/
inductive PacketField
  | ftraceEvents (bundle : List BundleField)
  | other (field : RawField)
  deriving DecidableEq, Repr

abbrev Packet := List PacketField

/-- `Context`: what these primitives read of it. -/
structure Context where
  timeline : Option ProcessThreadTimeline
  packageUid : Option ℕ

/-! ### Filter and modifier -/

/-- What `ClearComms::Modify` and `ConnectedToPackage::Includes` ask; both require a timeline and a package. -/
def Context.connected (context : Context) (ts : ℕ) (pid : ℤ) : Bool :=
  match context.timeline, context.packageUid with
  | some timeline, some uid => timeline.pidConnectsToUid ts pid uid
  | _, _ => false

/-- A `PidCommModifier` and a `PidFilter`. -/
structure RedactSchedEvents where
  modify : Context → ℕ → ℤ → ℤ → Comm → ℤ × Comm
  wakingFilter : Context → ℕ → ℤ → Bool

/-- `ClearComms::Modify`. -/
def clearComms (context : Context) (ts : ℕ) (_cpu pid : ℤ) (comm : Comm) : ℤ × Comm :=
  (pid, if context.connected ts pid then comm else [])

/-- `DoNothing::Modify`. -/
def doNothing (_context : Context) (_ts : ℕ) (_cpu pid : ℤ) (comm : Comm) : ℤ × Comm := (pid, comm)

/-- `MergeThreadsPids::Modify`: `runningOn` gives the thread of the synthetic process for a cpu. -/
def mergeThreadsPids (runningOn : ℤ → ℤ) (context : Context) (ts : ℕ) (cpu pid : ℤ) (comm : Comm) : ℤ × Comm :=
  -- Pid 0 is the idle thread of every cpu.
  if pid = 0 then (pid, comm)
  else if context.connected ts pid then (pid, comm)
  else (runningOn cpu, [])

/-- `ChangePidTo::Modify`, of the tests. -/
def changePidTo (newPid : ℤ) (context : Context) (ts : ℕ) (_cpu pid : ℤ) (comm : Comm) : ℤ × Comm :=
  (if context.connected ts pid then pid else newPid, comm)

/-- `ConnectedToPackage::Includes`. -/
def connectedToPackage (context : Context) (ts : ℕ) (pid : ℤ) : Bool := context.connected ts pid

/-! ### The intern table -/

/-- `InternTable`. -/
structure InternTable where
  internedComms : List Comm
  commsLength : ℕ
  deriving DecidableEq, Repr

namespace InternTable

/-- `kMaxElements * kExpectedCommLength`. -/
def capacity : ℕ := 4096 * 16

def empty : InternTable := ⟨[], 0⟩

/-- `InternTable::Push`; `none` for -1. -/
def push (table : InternTable) (comm : Comm) : Option (ℕ × InternTable) :=
  match table.internedComms.findIdx? (· = comm) with
  | some i => some (i, table)
  | none =>
    if capacity < table.commsLength + comm.length then none
    else some (table.internedComms.length, ⟨table.internedComms ++ [comm], table.commsLength + comm.length⟩)

/-- `InternTable::Find`. -/
def find (table : InternTable) (index : ℕ) : Comm := table.internedComms[index]?.getD []

/-- The loop of `OnCompSched` that fills the table. -/
def fill (table : InternTable) : List Comm → Except String InternTable
  | [] => .ok table
  | comm :: comms =>
    match table.push comm with
    | none => .error "RedactSchedEvents: failed to insert string into intern table."
    | some (_, table) => table.fill comms

end InternTable

namespace RedactSchedEvents

variable (r : RedactSchedEvents) (context : Context)

/-! ### Plain events -/

def onFtraceEventSwitch (ts : ℕ) (cpu : ℤ) (schedSwitch : SchedSwitch) : Except String SchedSwitch :=
  match schedSwitch with
  | ⟨some prevComm, some prevPid, some prevPrio, some prevState, some nextComm, some nextPid, some nextPrio⟩ =>
    let prev := r.modify context ts cpu prevPid prevComm
    let next := r.modify context ts cpu nextPid nextComm
    .ok ⟨some prev.2, some prev.1, some prevPrio, some prevState, some next.2, some next.1, some nextPrio⟩
  | _ => .error "RedactSchedEvents: missing required SchedSwitchFtraceEvent field."

/-- `none`: the event is dropped. -/
def onFtraceEventWaking (ts : ℕ) (cpu : ℤ) (schedWaking : SchedWaking) : Except String (Option SchedWaking) :=
  match schedWaking with
  | ⟨some comm, some pid, some prio, some success, some targetCpu⟩ =>
    if r.wakingFilter context ts pid then
      let target := r.modify context ts cpu pid comm
      .ok (some ⟨some target.2, some target.1, some prio, some success, some targetCpu⟩)
    else .ok none
  | _ => .error "RedactSchedEvents: missing required SchedWakingFtraceEvent field."

/-- `FindField(kTimestampFieldNumber)`. -/
def findTimestamp : List FtraceEventField → Option ℕ
  | [] => none
  | .timestamp ts :: _ => some ts
  | _ :: fields => findTimestamp fields

/-- The fields written for a field of an event. -/
def onFtraceEventField (ts : ℕ) (cpu : ℤ) : FtraceEventField → Except String (List FtraceEventField)
  | .schedSwitch m => (r.onFtraceEventSwitch context ts cpu m).map fun m => [.schedSwitch m]
  | .schedWaking m => (r.onFtraceEventWaking context ts cpu m).map fun m => m.toList.map .schedWaking
  | field => .ok [field]

def onFtraceEvent (cpu : ℤ) (fields : List FtraceEventField) : Except String (List FtraceEventField) :=
  match findTimestamp fields with
  | none => .error "RedactSchedEvents: missing timestamp in ftrace event."
  | some ts => (mapExcept (r.onFtraceEventField context ts cpu) fields).map List.flatten

/-! ### Compact events -/

/-- `uint64_t` addition. -/
def add64 (a b : ℕ) : ℕ := (a + b) % 2 ^ 64

/-- The loop of `OnCompSchedSwitch`: the table after it, the pids and the indices written. -/
def switchLoop (cpu : ℤ) : ℕ → InternTable → List ℕ → List ℤ → List ℕ →
    Except String (InternTable × List ℤ × List ℕ)
  | ts, table, dts :: tss, pid :: pids, index :: indices =>
    let ts := add64 ts dts
    let next := r.modify context ts cpu pid (table.find index)
    match table.push next.2 with
    | none => .error "RedactSchedEvents: failed to insert string into intern table."
    | some (found, table) =>
      (switchLoop cpu ts table tss pids indices).map fun res => (res.1, next.1 :: res.2.1, found :: res.2.2)
  | _, table, _, _, _ => .ok (table, [], [])

/-- The iterator has come to its end after `n` values, and has found an error there. -/
def flagged {α : Type*} (n : ℕ) (field : Packed α) : Bool := field.values.length = n && field.parseError

def onCompSchedSwitch (cpu : ℤ) (compSched : CompactSched) (table : InternTable) (message : CompactSched) :
    Except String (InternTable × CompactSched) :=
  match compSched.switchTimestamp, compSched.switchPrevState, compSched.switchNextPid, compSched.switchNextPrio,
    compSched.switchNextCommIndex with
  | some ts, some prevState, some pid, some prio, some comm =>
    if compSched.internTable = [] then
      .error "RedactSchedEvents: missing required FtraceEventBundle::CompactSched switch field."
    else
      (r.switchLoop context cpu 0 table ts.values pid.values comm.values).bind fun res =>
        let n := min ts.values.length (min pid.values.length comm.values.length)
        if flagged n ts || flagged n pid || flagged n comm then
          .error "RedactSchedEvents: error reading FtraceEventBundle::CompactSched."
        else if n < ts.values.length ∨ n < pid.values.length ∨ n < comm.values.length then
          .error "RedactSchedEvents: uneven associative arrays in FtraceEventBundle::CompactSched (switch)."
        else
          .ok (res.1, { message with
            switchNextPid := some ⟨res.2.1, false⟩
            switchNextCommIndex := some ⟨res.2.2, false⟩
            switchTimestamp := some ts
            switchPrevState := some prevState
            switchNextPrio := some prio })
  | _, _, _, _, _ => .error "RedactSchedEvents: missing required FtraceEventBundle::CompactSched switch field."

/-- The values of one waking event. -/
structure WakingValues where
  commIndex : ℕ
  commonFlags : ℕ
  pid : ℤ
  prio : ℤ
  targetCpu : ℤ
  timestamp : ℕ
  deriving DecidableEq, Repr

/-- The steps of the six iterators, up to the end of the first. -/
def wakingValues : List ℕ → List ℕ → List ℤ → List ℤ → List ℤ → List ℕ → List WakingValues
  | commIndex :: commIndices, commonFlags :: commonFlagss, pid :: pids, prio :: prios, targetCpu :: targetCpus,
      timestamp :: timestamps =>
    ⟨commIndex, commonFlags, pid, prio, targetCpu, timestamp⟩ ::
      wakingValues commIndices commonFlagss pids prios targetCpus timestamps
  | _, _, _, _, _, _ => []

/-- The loop of `OnCompactSchedWaking`: the table after it, and the values written. -/
def wakingLoop : ℕ → ℕ → InternTable → List WakingValues → InternTable × List WakingValues
  | _, _, table, [] => (table, [])
  | tsBucket, tsAbsolute, table, v :: values =>
    let tsBucket := add64 tsBucket v.timestamp
    let tsAbsolute := add64 tsAbsolute v.timestamp
    if r.wakingFilter context tsAbsolute v.pid then
      let target := r.modify context tsAbsolute v.targetCpu v.pid (table.find v.commIndex)
      -- a -1 is written as it is
      let pushed := (table.push target.2).getD (2 ^ 64 - 1, table)
      let res := wakingLoop 0 tsAbsolute pushed.2 values
      (res.1, { v with commIndex := pushed.1, pid := target.1, timestamp := tsBucket } :: res.2)
    else wakingLoop tsBucket tsAbsolute table values

/-- A field that is not there gives an iterator at its end. -/
def packedOf {α : Type*} (field : Option (Packed α)) : Packed α := field.getD ⟨[], false⟩

def onCompactSchedWaking (compactSched : CompactSched) (table : InternTable) (message : CompactSched) :
    Except String (InternTable × CompactSched) :=
  let commIndex := packedOf compactSched.wakingCommIndex
  let commonFlags := packedOf compactSched.wakingCommonFlags
  let pid := packedOf compactSched.wakingPid
  let prio := packedOf compactSched.wakingPrio
  let targetCpu := packedOf compactSched.wakingTargetCpu
  let timestamp := packedOf compactSched.wakingTimestamp
  let values := wakingValues commIndex.values commonFlags.values pid.values prio.values targetCpu.values
    timestamp.values
  let res := r.wakingLoop context 0 0 table values
  let n := values.length
  if compactSched.internTable = [] ∨ (flagged n commIndex || flagged n commonFlags || flagged n pid ||
      flagged n prio || flagged n targetCpu || flagged n timestamp) then
    .error "RedactSchedEvents: failed to parse FtraceEventBundle::CompactSched."
  else if n < commIndex.values.length ∨ n < commonFlags.values.length ∨ n < pid.values.length ∨
      n < prio.values.length ∨ n < targetCpu.values.length ∨ n < timestamp.values.length then
    .error "RedactSchedEvents: uneven associative arrays in FtraceEventBundle::CompactSched (waking)."
  else
    .ok (res.1, { message with
      wakingCommIndex := some ⟨res.2.map (·.commIndex), false⟩
      wakingCommonFlags := some ⟨res.2.map (·.commonFlags), false⟩
      wakingPid := some ⟨res.2.map (·.pid), false⟩
      wakingPrio := some ⟨res.2.map (·.prio), false⟩
      wakingTargetCpu := some ⟨res.2.map (·.targetCpu), false⟩
      wakingTimestamp := some ⟨res.2.map (·.timestamp), false⟩ })

/-- A message without fields. -/
def emptyCompactSched : CompactSched :=
  ⟨[], none, none, none, none, none, none, none, none, none, none, none⟩

def hasSwitchFields (m : CompactSched) : Bool :=
  m.switchTimestamp.isSome || m.switchPrevState.isSome || m.switchNextPid.isSome || m.switchNextPrio.isSome ||
    m.switchNextCommIndex.isSome

def hasWakingFields (m : CompactSched) : Bool :=
  m.wakingTimestamp.isSome || m.wakingPid.isSome || m.wakingTargetCpu.isSome || m.wakingPrio.isSome ||
    m.wakingCommIndex.isSome || m.wakingCommonFlags.isSome

def onCompSched (cpu : ℤ) (compSched : CompactSched) : Except String CompactSched :=
  (InternTable.empty.fill compSched.internTable).bind fun table =>
  (if hasSwitchFields compSched then r.onCompSchedSwitch context cpu compSched table emptyCompactSched
    else .ok (table, emptyCompactSched)).bind fun switched =>
  (if hasWakingFields compSched then r.onCompactSchedWaking context compSched switched.1 switched.2
    else .ok switched).bind fun woken =>
  -- only now has the table all its entries
  .ok { woken.2 with internTable := woken.1.internedComms }

/-! ### Bundles and packets -/

/-- `FindField(kCpuFieldNumber)`. -/
def findCpu : List BundleField → Option ℤ
  | [] => none
  | .cpu cpu :: _ => some cpu
  | _ :: fields => findCpu fields

def onBundleField (cpu : ℤ) : BundleField → Except String BundleField
  | .event fields => (r.onFtraceEvent context cpu fields).map .event
  | .compactSched m => (r.onCompSched context cpu m).map .compactSched
  | field => .ok field

def onFtraceEvents (bundle : List BundleField) : Except String (List BundleField) :=
  match findCpu bundle with
  | none => .error "RedactSchedEvents: missing cpu in ftrace event bundle."
  | some cpu => mapExcept (r.onBundleField context cpu) bundle

def onPacketField : PacketField → Except String PacketField
  | .ftraceEvents bundle => (r.onFtraceEvents context bundle).map .ftraceEvents
  | field => .ok field

/-- `RedactSchedEvents::Transform`: the packet that takes the place of the old one. -/
def transform (packet : Packet) : Except String Packet :=
  if context.timeline.isNone then .error "RedactSchedEvents: missing timeline."
  else if context.packageUid.isNone then .error "RedactSchedEvents: missing package uid."
  else if packet = [] then .error "RedactSchedEvents: null or empty packet."
  else mapExcept (r.onPacketField context) packet

end RedactSchedEvents

/-- With the primitives that clear thread names. -/
def clearingRedactor : RedactSchedEvents := ⟨clearComms, connectedToPackage⟩

end LynxTrace.Redaction
