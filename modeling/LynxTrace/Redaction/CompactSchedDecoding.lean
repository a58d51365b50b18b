import LynxTrace.Redaction.SchedRedaction

/-!
# Redaction.CompactSchedDecoding — what a compact sched message means, and what redaction makes of it

A message is decoded by adding up its timestamps and looking up its names.  `Redacts` says that the output of
`OnCompSched` decodes to the switch events and the kept waking events of the input, as the modifier changes them.
-/

namespace LynxTrace.Redaction

/-- A switch event of a compact message. -/
structure CompactSwitch where
  timestamp : ℕ
  prevState : ℤ
  nextPid : ℤ
  nextPrio : ℤ
  nextComm : Option Comm
  deriving DecidableEq, Repr

/-- A waking event of a compact message. -/
structure CompactWaking where
  timestamp : ℕ
  pid : ℤ
  targetCpu : ℤ
  prio : ℤ
  comm : Option Comm
  commonFlags : ℕ
  deriving DecidableEq, Repr

/-- A `PidCommModifier`.  None of them makes up a name. -/
structure PidCommModifier where
  modify : Context → ℕ → ℤ → ℤ → Comm → ℤ × Comm
  keeps : ∀ context ts cpu pid comm,
    (modify context ts cpu pid comm).2 = comm ∨ (modify context ts cpu pid comm).2 = []

namespace PidCommModifier

def clearComms : PidCommModifier := ⟨Redaction.clearComms, fun _ _ _ _ _ => ite_eq_or_eq _ _ _⟩

def doNothing : PidCommModifier := ⟨Redaction.doNothing, fun _ _ _ _ _ => Or.inl rfl⟩

def mergeThreadsPids (runningOn : ℤ → ℤ) : PidCommModifier :=
  ⟨Redaction.mergeThreadsPids runningOn, fun _ _ _ _ _ => by
    unfold Redaction.mergeThreadsPids
    split_ifs
    · exact Or.inl rfl
    · exact Or.inl rfl
    · exact Or.inr rfl⟩

def changePidTo (newPid : ℤ) : PidCommModifier := ⟨Redaction.changePidTo newPid, fun _ _ _ _ _ => Or.inl rfl⟩

/-- `RedactSchedEvents` with this modifier and a filter for the waking events. -/
def redactor (modifier : PidCommModifier) (wakingFilter : Context → ℕ → ℤ → Bool) : RedactSchedEvents :=
  ⟨modifier.modify, wakingFilter⟩

@[simp] theorem redactor_modify (modifier : PidCommModifier) (wakingFilter : Context → ℕ → ℤ → Bool) :
    (modifier.redactor wakingFilter).modify = modifier.modify := rfl

end PidCommModifier

namespace RedactSchedEvents

/-- The values of one switch event. -/
structure SwitchValues where
  timestamp : ℕ
  prevState : ℤ
  nextPid : ℤ
  nextPrio : ℤ
  nextCommIndex : ℕ
  deriving DecidableEq, Repr

/-- The values of the switch events, up to the end of the shortest array. -/
def switchValues : List ℕ → List ℤ → List ℤ → List ℤ → List ℕ → List SwitchValues
  | timestamp :: timestamps, prevState :: prevStates, nextPid :: nextPids, nextPrio :: nextPrios, index :: indices =>
    ⟨timestamp, prevState, nextPid, nextPrio, index⟩ :: switchValues timestamps prevStates nextPids nextPrios indices
  | _, _, _, _, _ => []

/-- The switch events from time `ts` on, with their names. -/
def decodeSwitches (names : List Comm) : ℕ → List SwitchValues → List CompactSwitch
  | _, [] => []
  | ts, v :: values =>
    ⟨add64 ts v.timestamp, v.prevState, v.nextPid, v.nextPrio, names[v.nextCommIndex]?⟩ ::
      decodeSwitches names (add64 ts v.timestamp) values

/-- The waking events from time `ts` on, with their names. -/
def decodeWakings (names : List Comm) : ℕ → List WakingValues → List CompactWaking
  | _, [] => []
  | ts, v :: values =>
    ⟨add64 ts v.timestamp, v.pid, v.targetCpu, v.prio, names[v.commIndex]?, v.commonFlags⟩ ::
      decodeWakings names (add64 ts v.timestamp) values

end RedactSchedEvents

open RedactSchedEvents

namespace CompactSched

def switchArrays (m : CompactSched) : List SwitchValues :=
  switchValues (packedOf m.switchTimestamp).values (packedOf m.switchPrevState).values
    (packedOf m.switchNextPid).values (packedOf m.switchNextPrio).values (packedOf m.switchNextCommIndex).values

def wakingArrays (m : CompactSched) : List WakingValues :=
  wakingValues (packedOf m.wakingCommIndex).values (packedOf m.wakingCommonFlags).values
    (packedOf m.wakingPid).values (packedOf m.wakingPrio).values (packedOf m.wakingTargetCpu).values
    (packedOf m.wakingTimestamp).values

/-- The switch events of a message. -/
def switches (m : CompactSched) : List CompactSwitch := decodeSwitches m.internTable 0 m.switchArrays

/-- The waking events of a message. -/
def wakings (m : CompactSched) : List CompactWaking := decodeWakings m.internTable 0 m.wakingArrays

/-- A message with arrays of equal lengths and a table of distinct names that fit, as the redactor asks for it: what it
reads is there, and parses. -/
structure WellFormed (m : CompactSched) : Prop where
  nodup : m.internTable.Nodup
  fits : (m.internTable.map List.length).sum ≤ InternTable.capacity
  switch_present : hasSwitchFields m → m.internTable ≠ [] ∧ m.switchTimestamp.isSome ∧ m.switchPrevState.isSome ∧
    m.switchNextPid.isSome ∧ m.switchNextPrio.isSome ∧ m.switchNextCommIndex.isSome
  switch_parses : (packedOf m.switchTimestamp).parseError = false ∧ (packedOf m.switchNextPid).parseError = false ∧
    (packedOf m.switchNextCommIndex).parseError = false
  switch_length : ∃ n, (packedOf m.switchTimestamp).values.length = n ∧ (packedOf m.switchPrevState).values.length = n ∧
    (packedOf m.switchNextPid).values.length = n ∧ (packedOf m.switchNextPrio).values.length = n ∧
    (packedOf m.switchNextCommIndex).values.length = n
  waking_present : hasWakingFields m → m.internTable ≠ []
  waking_parses : (packedOf m.wakingCommIndex).parseError = false ∧ (packedOf m.wakingCommonFlags).parseError = false ∧
    (packedOf m.wakingPid).parseError = false ∧ (packedOf m.wakingPrio).parseError = false ∧
    (packedOf m.wakingTargetCpu).parseError = false ∧ (packedOf m.wakingTimestamp).parseError = false
  waking_length : ∃ n, (packedOf m.wakingCommIndex).values.length = n ∧
    (packedOf m.wakingCommonFlags).values.length = n ∧ (packedOf m.wakingPid).values.length = n ∧
    (packedOf m.wakingPrio).values.length = n ∧ (packedOf m.wakingTargetCpu).values.length = n ∧
    (packedOf m.wakingTimestamp).values.length = n

end CompactSched

namespace RedactSchedEvents

variable (r : RedactSchedEvents) (context : Context)

/-- A switch event as the modifier changes it. -/
def modifySwitch (cpu : ℤ) (e : CompactSwitch) : CompactSwitch :=
  let next := r.modify context e.timestamp cpu e.nextPid (e.nextComm.getD [])
  { e with
    nextPid := next.1
    nextComm := some next.2 }

/-- A waking event as the modifier changes it. -/
def modifyWaking (e : CompactWaking) : CompactWaking :=
  let target := r.modify context e.timestamp e.targetCpu e.pid (e.comm.getD [])
  { e with
    pid := target.1
    comm := some target.2 }

/-- The output decodes to the switch events and the kept waking events of the message, as the modifier changes them. -/
def Redacts (cpu : ℤ) (m : CompactSched) : Prop :=
  ∃ out, r.onCompSched context cpu m = .ok out ∧
    out.switches = m.switches.map (r.modifySwitch context cpu) ∧
    out.wakings = (m.wakings.filter fun e => r.wakingFilter context e.timestamp e.pid).map (r.modifyWaking context)

/-- The table that the message starts with. -/
def startTable (m : CompactSched) : InternTable := ⟨m.internTable, (m.internTable.map List.length).sum⟩

end RedactSchedEvents

/-! ### The intern table -/

namespace InternTable

variable {table : InternTable}

/-- Distinct names, and their bytes counted. -/
structure Sound (table : InternTable) : Prop where
  nodup : table.internedComms.Nodup
  commsLength_eq : table.commsLength = (table.internedComms.map List.length).sum
  le : table.commsLength ≤ capacity

/-- Distinct names that fit are all taken in. -/
theorem fill_eq {comms : List Comm} (h : (⟨table.internedComms ++ comms,
    table.commsLength + (comms.map List.length).sum⟩ : InternTable).Sound) :
    table.fill comms = .ok ⟨table.internedComms ++ comms, table.commsLength + (comms.map List.length).sum⟩ := by
  induction comms generalizing table with
  | nil =>
    rw [List.append_nil]
    rfl
  | cons comm comms ih =>
    have hle := h.le
    have hnew : comm ∉ table.internedComms :=
      fun h2 => (List.nodup_append.mp h.nodup).2.2 comm h2 comm List.mem_cons_self rfl
    have hnone : table.internedComms.findIdx? (· = comm) = none := by
      rw [List.findIdx?_eq_none_iff]
      intro x hx
      exact decide_eq_false fun h2 => hnew (h2 ▸ hx)
    have hpush : table.push comm = some (table.internedComms.length,
        ⟨table.internedComms ++ [comm], table.commsLength + comm.length⟩) := by
      rw [InternTable.push, hnone]
      dsimp only
      rw [if_neg]
      rw [List.map_cons, List.sum_cons] at hle
      dsimp only at hle
      omega
    rw [fill, hpush]
    have hassoc : table.internedComms ++ comm :: comms = (table.internedComms ++ [comm]) ++ comms := by
      rw [List.append_assoc, List.singleton_append]
    have hsum : table.commsLength + ((comm :: comms).map List.length).sum =
        (table.commsLength + comm.length) + (comms.map List.length).sum := by
      rw [List.map_cons, List.sum_cons, Nat.add_assoc]
    rw [hassoc, hsum] at h ⊢
    exact ih h

end InternTable

end LynxTrace.Redaction
