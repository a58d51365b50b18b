import LynxTrace.Redaction.RedactSchedEvents

/-!
# Redaction.SchedRedaction — the thread names that redaction leaves

A name that an event of the output carries, in itself or through the intern table, is empty or the name of a connected
event of the input (`transform_names`).  The tables keep the entries that no event refers to any more
(`not_names_connected`).
-/

namespace LynxTrace.Redaction

/-! ### Thread names and sched events of a packet -/

/-- A thread at a time, under a name. -/
structure SchedEvent where
  ts : ℕ
  pid : ℤ
  comm : Comm
  deriving DecidableEq, Repr

/-- The event, if both fields are there. -/
def schedEvent (ts : ℕ) : Option ℤ → Option Comm → List SchedEvent
  | some pid, some comm => [⟨ts, pid, comm⟩]
  | _, _ => []

/-- Compact events from time `ts` on. -/
def compactEvents (table : List Comm) : ℕ → List ℕ → List ℤ → List ℕ → List SchedEvent
  | ts, dts :: tss, pid :: pids, index :: indices =>
    schedEvent (RedactSchedEvents.add64 ts dts) (some pid) table[index]? ++
      compactEvents table (RedactSchedEvents.add64 ts dts) tss pids indices
  | _, _, _, _ => []

def packedEvents (table : List Comm) (ts : Option (Packed ℕ)) (pid : Option (Packed ℤ)) (index : Option (Packed ℕ)) :
    List SchedEvent :=
  compactEvents table 0 (RedactSchedEvents.packedOf ts).values (RedactSchedEvents.packedOf pid).values
    (RedactSchedEvents.packedOf index).values

def CompactSched.events (m : CompactSched) : List SchedEvent :=
  packedEvents m.internTable m.switchTimestamp m.switchNextPid m.switchNextCommIndex ++
    packedEvents m.internTable m.wakingTimestamp m.wakingPid m.wakingCommIndex

def FtraceEventField.events (ts : ℕ) : FtraceEventField → List SchedEvent
  | schedSwitch m => schedEvent ts m.prevPid m.prevComm ++ schedEvent ts m.nextPid m.nextComm
  | schedWaking m => schedEvent ts m.pid m.comm
  | _ => []

def BundleField.events : BundleField → List SchedEvent
  | event fields =>
    match RedactSchedEvents.findTimestamp fields with
    | some ts => fields.flatMap (FtraceEventField.events ts)
    | none => []
  | compactSched m => m.events
  | _ => []

/-- The sched events of the packet. -/
def PacketField.events : PacketField → List SchedEvent
  | ftraceEvents bundle => bundle.flatMap BundleField.events
  | other _ => []

/-- The table entries that the indices of the message refer to. -/
def CompactSched.eventNames (m : CompactSched) : List Comm :=
  ((RedactSchedEvents.packedOf m.switchNextCommIndex).values ++
    (RedactSchedEvents.packedOf m.wakingCommIndex).values).filterMap (m.internTable[·]?)

def FtraceEventField.names : FtraceEventField → List Comm
  | schedSwitch m => m.prevComm.toList ++ m.nextComm.toList
  | schedWaking m => m.comm.toList
  | _ => []

def BundleField.eventNames : BundleField → List Comm
  | event fields => fields.flatMap FtraceEventField.names
  | compactSched m => m.eventNames
  | _ => []

/-- The names that the events of the packet carry, in themselves or by an index. -/
def PacketField.eventNames : PacketField → List Comm
  | ftraceEvents bundle => bundle.flatMap BundleField.eventNames
  | other _ => []

/-- The intern tables of the packet. -/
def PacketField.tables : PacketField → List (List Comm)
  | ftraceEvents bundle => bundle.filterMap fun
    | .compactSched m => some m.internTable
    | _ => none
  | other _ => []

/-- The name is empty, or that of an event of a connected thread. -/
def Shown (context : Context) (events : List SchedEvent) (name : Comm) : Prop :=
  name = [] ∨ ∃ e ∈ events, e.comm = name ∧ context.connected e.ts e.pid = true

theorem Shown.mono {context : Context} {events events' : List SchedEvent} {name : Comm}
    (h : Shown context events name) (hsub : ∀ e ∈ events, e ∈ events') : Shown context events' name := by
  rcases h with h | ⟨e, h1, h2⟩
  · exact Or.inl h
  · exact Or.inr ⟨e, hsub e h1, h2⟩

/-! ### The intern table -/

namespace InternTable

variable {table table' : InternTable} {comm : Comm} {i : ℕ} {names : List Comm}

theorem push_some (h : table.push comm = some (i, table')) :
    table.internedComms <+: table'.internedComms ∧ table'.internedComms[i]? = some comm ∧
      (∀ x ∈ table'.internedComms, x ∈ table.internedComms ∨ x = comm) ∧
      (table.commsLength ≤ capacity → table'.commsLength ≤ capacity) := by
  unfold push at h
  split at h
  · rename_i j hj
    obtain ⟨rfl, rfl⟩ := Prod.mk.inj (Option.some.inj h)
    obtain ⟨h1, h2, -⟩ := List.findIdx?_eq_some_iff_getElem.mp hj
    refine ⟨List.prefix_rfl, ?_, fun x hx => Or.inl hx, id⟩
    rw [List.getElem?_eq_getElem h1, of_decide_eq_true h2]
  · split_ifs at h with h1
    obtain ⟨rfl, rfl⟩ := Prod.mk.inj (Option.some.inj h)
    refine ⟨List.prefix_append _ _, List.getElem?_concat_length, ?_, fun _ => Nat.le_of_not_lt h1⟩
    intro x hx
    rcases List.mem_append.mp hx with hx | hx
    · exact Or.inl hx
    · exact Or.inr (List.mem_singleton.mp hx)

theorem push_of_not_mem (hcomm : comm ∉ table.internedComms) (h : table.push comm = some (i, table')) :
    table'.internedComms = table.internedComms ++ [comm] := by
  unfold push at h
  split at h
  · rename_i j hj
    obtain ⟨h1, h2, -⟩ := List.findIdx?_eq_some_iff_getElem.mp hj
    exact absurd (of_decide_eq_true h2 ▸ List.getElem_mem h1) hcomm
  · split_ifs at h
    obtain ⟨-, rfl⟩ := Prod.mk.inj (Option.some.inj h)
    rfl

/-- The table holds these names, and blanks after them. -/
structure Filled (names : List Comm) (table : InternTable) : Prop where
  blank : ∃ blanks, table.internedComms = names ++ blanks ∧ ∀ x ∈ blanks, x = []
  le : table.commsLength ≤ capacity

theorem Filled.self (h : table.commsLength ≤ capacity) : table.Filled table.internedComms :=
  ⟨⟨[], (List.append_nil _).symm, nofun⟩, h⟩

theorem fill_some {comms : List Comm} (h : table.fill comms = .ok table') :
    (∀ x ∈ table'.internedComms, x ∈ table.internedComms ∨ x ∈ comms) ∧
      (table.commsLength ≤ capacity → table'.commsLength ≤ capacity) := by
  induction comms generalizing table with
  | nil =>
    cases h
    exact ⟨fun x hx => Or.inl hx, id⟩
  | cons comm comms ih =>
    unfold fill at h
    split at h
    · cases h
    · rename_i i table1 h1
      obtain ⟨-, -, h2, h3⟩ := push_some h1
      obtain ⟨h4, h5⟩ := ih h
      refine ⟨?_, h5 ∘ h3⟩
      intro x hx
      rcases h4 x hx with hx | hx
      · rcases h2 x hx with hx | rfl
        · exact Or.inl hx
        · exact Or.inr List.mem_cons_self
      · exact Or.inr (List.mem_cons_of_mem _ hx)

/-- Distinct names are numbered as they come. -/
theorem fill_of_nodup {comms : List Comm} (hnodup : (table.internedComms ++ comms).Nodup)
    (h : table.fill comms = .ok table') : table'.internedComms = table.internedComms ++ comms := by
  induction comms generalizing table with
  | nil =>
    cases h
    exact (List.append_nil _).symm
  | cons comm comms ih =>
    unfold fill at h
    split at h
    · cases h
    · rename_i i table1 h1
      have hcomm : comm ∉ table.internedComms :=
        fun h2 => (List.nodup_append.mp hnodup).2.2 comm h2 comm List.mem_cons_self rfl
      have h2 := push_of_not_mem hcomm h1
      have hassoc : table.internedComms ++ comm :: comms = table1.internedComms ++ comms := by
        rw [h2, List.append_assoc, List.singleton_append]
      rw [hassoc] at hnodup ⊢
      exact ih hnodup h

theorem Filled.find (h : Filled names table) (index : ℕ) : table.find index = names[index]?.getD [] := by
  obtain ⟨blanks, h1, h2⟩ := h.blank
  unfold InternTable.find
  rw [h1]
  rcases Nat.lt_or_ge index names.length with hi | hi
  · rw [List.getElem?_append_left hi]
  · rw [List.getElem?_append_right hi, List.getElem?_eq_none hi]
    cases hb : blanks[index - names.length]? with
    | none => rfl
    | some x => exact h2 x (List.mem_of_getElem? hb)

/-- What the table gives, or a blank, always finds room. -/
theorem Filled.push (h : Filled names table) (hcomm : comm = [] ∨ ∃ index, comm = table.find index) :
    ∃ i table', table.push comm = some (i, table') ∧ Filled names table' ∧
      table.internedComms <+: table'.internedComms ∧ table'.internedComms[i]? = some comm := by
  have hmem : comm = [] ∨ comm ∈ table.internedComms := by
    rcases hcomm with h1 | ⟨index, rfl⟩
    · exact Or.inl h1
    · unfold InternTable.find
      cases hi : table.internedComms[index]? with
      | none => exact Or.inl rfl
      | some x => exact Or.inr (List.mem_of_getElem? hi)
  by_cases h1 : comm ∈ table.internedComms
  · obtain ⟨i, hi⟩ : ∃ i, table.internedComms.findIdx? (· = comm) = some i := by
      rw [← Option.isSome_iff_exists, List.findIdx?_isSome, List.any_eq_true]
      exact ⟨comm, h1, decide_eq_true rfl⟩
    have h2 : table.push comm = some (i, table) := by rw [InternTable.push, hi]
    exact ⟨i, table, h2, h, (push_some h2).1, (push_some h2).2.1⟩
  · obtain rfl : comm = [] := hmem.resolve_right h1
    have hi : table.internedComms.findIdx? (· = ([] : Comm)) = none := by
      rw [List.findIdx?_eq_none_iff]
      intro x hx
      exact decide_eq_false fun h2 => h1 (h2 ▸ hx)
    have h2 : table.push [] =
        some (table.internedComms.length, ⟨table.internedComms ++ [[]], table.commsLength⟩) := by
      rw [InternTable.push, hi]
      dsimp only
      rw [if_neg (by rw [List.length_nil]; exact Nat.not_lt.mpr h.le)]
      rfl
    obtain ⟨blanks, h3, h4⟩ := h.blank
    refine ⟨_, _, h2, ⟨⟨blanks ++ [[]], ?_, ?_⟩, h.le⟩, (push_some h2).1, (push_some h2).2.1⟩
    · show table.internedComms ++ [[]] = _
      rw [h3, List.append_assoc]
    · intro x hx
      rcases List.mem_append.mp hx with hx | hx
      · exact h4 x hx
      · exact List.mem_singleton.mp hx

end InternTable

/-! ### The loops over compact events -/

namespace RedactSchedEvents

variable {context : Context} {names : List Comm} {table table' : InternTable}

/-- What `ClearComms` leaves of a name that the table gives. -/
theorem shown_clearComms (context : Context) (htable : table.Filled names) (ts : ℕ) (cpu pid : ℤ) (index : ℕ) :
    (((clearComms context ts cpu pid (table.find index)).2 = [] ∨
      ∃ index', (clearComms context ts cpu pid (table.find index)).2 = table.find index') ∧
    Shown context (schedEvent ts (some pid) names[index]?) (clearComms context ts cpu pid (table.find index)).2) := by
  unfold clearComms
  dsimp only
  split_ifs with hcon
  · refine ⟨Or.inr ⟨index, rfl⟩, ?_⟩
    rw [htable.find]
    cases names[index]? with
    | none => exact Or.inl rfl
    | some comm => exact Or.inr ⟨⟨ts, pid, comm⟩, List.mem_singleton.mpr rfl, rfl, hcon⟩
  · exact ⟨Or.inl rfl, Or.inl rfl⟩

/-- Each of the indices refers to a name that may be shown. -/
def RefersShown (context : Context) (table : InternTable) (events : List SchedEvent) (indices : List ℕ) : Prop :=
  ∀ index ∈ indices, ∃ name, table.internedComms[index]? = some name ∧ Shown context events name

theorem RefersShown.mono {events events' : List SchedEvent} {indices : List ℕ}
    (h : RefersShown context table events indices) (hpre : table.internedComms <+: table'.internedComms)
    (hsub : ∀ e ∈ events, e ∈ events') : RefersShown context table' events' indices := by
  intro index hindex
  obtain ⟨name, h1, h2⟩ := h index hindex
  refine ⟨name, ?_, h2.mono hsub⟩
  obtain ⟨t, ht⟩ := hpre
  rw [← ht, List.getElem?_append_left (List.getElem?_eq_some_iff.mp h1).1, h1]

theorem switchLoop_spec {cpu : ℤ} {ts : ℕ} {tss : List ℕ} {pids pids' : List ℤ} {indices indices' : List ℕ}
    (htable : table.Filled names)
    (h : clearingRedactor.switchLoop context cpu ts table tss pids indices = .ok (table', pids', indices')) :
    table'.Filled names ∧ table.internedComms <+: table'.internedComms ∧
      RefersShown context table' (compactEvents names ts tss pids indices) indices' := by
  induction tss generalizing ts table pids indices pids' indices' with
  | nil =>
    cases h
    exact ⟨htable, List.prefix_rfl, nofun⟩
  | cons dts tss ih =>
    cases pids with
    | nil =>
      cases h
      exact ⟨htable, List.prefix_rfl, nofun⟩
    | cons pid pids =>
      cases indices with
      | nil =>
        cases h
        exact ⟨htable, List.prefix_rfl, nofun⟩
      | cons index indices =>
        obtain ⟨h1, h2⟩ := shown_clearComms context htable (add64 ts dts) cpu pid index
        obtain ⟨i, table1, h3, h4, h5, h6⟩ := htable.push h1
        rw [switchLoop] at h
        dsimp only [clearingRedactor] at h
        rw [h3] at h
        dsimp only at h
        obtain ⟨⟨table2, pids2, indices2⟩, h7, h8⟩ := except_map_ok.mp h
        obtain ⟨rfl, -, rfl⟩ : table2 = table' ∧ _ ∧ i :: indices2 = indices' := by
          simpa only [Prod.mk.injEq] using h8
        obtain ⟨h9, h10, h11⟩ := ih h4 h7
        refine ⟨h9, h5.trans h10, ?_⟩
        intro j hj
        rcases List.mem_cons.mp hj with rfl | hj
        · have h12 : RefersShown context table1 (schedEvent (add64 ts dts) (some pid) names[index]?) [j] := by
            intro j' hj'
            obtain rfl := List.mem_singleton.mp hj'
            exact ⟨_, h6, h2⟩
          exact h12.mono h10 (fun e he => List.mem_append_left _ he) j (List.mem_singleton.mpr rfl)
        · exact h11.mono List.prefix_rfl (fun e he => List.mem_append_right _ he) j hj

/-- The events of waking values, from time `ts` on. -/
def wakingEvents (names : List Comm) (ts : ℕ) (values : List WakingValues) : List SchedEvent :=
  compactEvents names ts (values.map (·.timestamp)) (values.map (·.pid)) (values.map (·.commIndex))

theorem wakingLoop_spec (bucket ts : ℕ) {values : List WakingValues} (htable : table.Filled names) :
    (clearingRedactor.wakingLoop context bucket ts table values).1.Filled names ∧
      table.internedComms <+: (clearingRedactor.wakingLoop context bucket ts table values).1.internedComms ∧
      RefersShown context (clearingRedactor.wakingLoop context bucket ts table values).1
        (wakingEvents names ts values)
        ((clearingRedactor.wakingLoop context bucket ts table values).2.map (·.commIndex)) := by
  induction values generalizing bucket ts table with
  | nil => exact ⟨htable, List.prefix_rfl, nofun⟩
  | cons v values ih =>
    have hsub : ∀ e ∈ wakingEvents names (add64 ts v.timestamp) values, e ∈ wakingEvents names ts (v :: values) :=
      fun e he => List.mem_append_right _ he
    obtain ⟨h1, h2⟩ := shown_clearComms context htable (add64 ts v.timestamp) v.targetCpu v.pid
      v.commIndex
    obtain ⟨i, table1, h3, h4, h5, h6⟩ := htable.push h1
    have heq : clearingRedactor.wakingLoop context bucket ts table (v :: values) =
        if connectedToPackage context (add64 ts v.timestamp) v.pid then
          ((clearingRedactor.wakingLoop context 0 (add64 ts v.timestamp) table1 values).1,
            { v with
              commIndex := i
              pid := v.pid
              timestamp := add64 bucket v.timestamp } ::
              (clearingRedactor.wakingLoop context 0 (add64 ts v.timestamp) table1 values).2)
        else clearingRedactor.wakingLoop context (add64 bucket v.timestamp) (add64 ts v.timestamp) table values := by
      rw [wakingLoop]
      dsimp only [clearingRedactor]
      rw [h3]
      rfl
    rw [heq]
    by_cases hkept : connectedToPackage context (add64 ts v.timestamp) v.pid = true
    · rw [if_pos hkept]
      obtain ⟨h7, h8, h9⟩ := @ih _ 0 (add64 ts v.timestamp) h4
      refine ⟨h7, h5.trans h8, ?_⟩
      intro j hj
      rcases List.mem_cons.mp hj with rfl | hj
      · have h10 : RefersShown context table1
            (schedEvent (add64 ts v.timestamp) (some v.pid) names[v.commIndex]?) [j] := by
          intro j' hj'
          obtain rfl := List.mem_singleton.mp hj'
          exact ⟨_, h6, h2⟩
        exact h10.mono h8 (fun e he => List.mem_append_left _ he) j (List.mem_singleton.mpr rfl)
      · exact h9.mono List.prefix_rfl hsub j hj
    · rw [if_neg hkept]
      obtain ⟨h7, h8, h9⟩ := @ih _ (add64 bucket v.timestamp) (add64 ts v.timestamp) htable
      exact ⟨h7, h8, h9.mono List.prefix_rfl hsub⟩

theorem mem_wakingEvents {ts : ℕ} {commIndices commonFlags timestamps : List ℕ} {pids prios targetCpus : List ℤ}
    {e : SchedEvent}
    (h : e ∈ wakingEvents names ts (wakingValues commIndices commonFlags pids prios targetCpus timestamps)) :
    e ∈ compactEvents names ts timestamps pids commIndices := by
  induction commIndices, commonFlags, pids, prios, targetCpus, timestamps using wakingValues.induct
    generalizing ts with
  | case1 index indices flag flags pid pids prio prios cpu cpus timestamp timestamps ih =>
    rw [wakingValues] at h
    rcases List.mem_append.mp h with h | h
    · exact List.mem_append_left _ h
    · exact List.mem_append_right _ (ih h)
  | case2 =>
    rw [wakingValues] at h
    · cases h
    · assumption

variable {m message : CompactSched} {cpu : ℤ}

theorem onCompSchedSwitch_spec {res : InternTable × CompactSched} (htable : table.Filled names)
    (h : clearingRedactor.onCompSchedSwitch context cpu m table message = .ok res) :
    res.1.Filled names ∧ table.internedComms <+: res.1.internedComms ∧
      RefersShown context res.1 (packedEvents names m.switchTimestamp m.switchNextPid m.switchNextCommIndex)
        (packedOf res.2.switchNextCommIndex).values ∧
      res.2.wakingCommIndex = message.wakingCommIndex := by
  unfold onCompSchedSwitch at h
  split at h
  · rename_i ts prevState pid prio comm h1 h2 h3 h4 h5
    split_ifs at h
    obtain ⟨⟨table1, pids, indices⟩, h6, h7⟩ := except_bind_ok.mp h
    dsimp only at h7
    split_ifs at h7
    cases h7
    obtain ⟨h8, h9, h10⟩ := switchLoop_spec htable h6
    rw [h1, h3, h5]
    exact ⟨h8, h9, h10, rfl⟩
  · cases h

theorem onCompactSchedWaking_spec {res : InternTable × CompactSched} (htable : table.Filled names)
    (h : clearingRedactor.onCompactSchedWaking context m table message = .ok res) :
    res.1.Filled names ∧ table.internedComms <+: res.1.internedComms ∧
      RefersShown context res.1 (packedEvents names m.wakingTimestamp m.wakingPid m.wakingCommIndex)
        (packedOf res.2.wakingCommIndex).values ∧
      res.2.switchNextCommIndex = message.switchNextCommIndex := by
  unfold onCompactSchedWaking at h
  dsimp only at h
  split_ifs at h
  cases h
  obtain ⟨h1, h2, h3⟩ := wakingLoop_spec 0 0 htable
  exact ⟨h1, h2, h3.mono List.prefix_rfl fun e he => mem_wakingEvents he, rfl⟩

theorem onCompSched_spec {out : CompactSched} (h : clearingRedactor.onCompSched context cpu m = .ok out) :
    (∀ x ∈ out.internTable, x = [] ∨ x ∈ m.internTable) ∧
      (m.internTable.Nodup → ∀ name ∈ out.eventNames, Shown context m.events name) := by
  obtain ⟨table, h1, h2⟩ := except_bind_ok.mp h
  obtain ⟨switched, h3, h4⟩ := except_bind_ok.mp h2
  obtain ⟨woken, h5, h6⟩ := except_bind_ok.mp h4
  obtain ⟨hmem, hle⟩ := InternTable.fill_some h1
  set names := table.internedComms with hnames
  have htable : table.Filled names := InternTable.Filled.self (hle (Nat.zero_le _))
  have hswitch : switched.1.Filled names ∧
      RefersShown context switched.1 (packedEvents names m.switchTimestamp m.switchNextPid m.switchNextCommIndex)
        (packedOf switched.2.switchNextCommIndex).values ∧ switched.2.wakingCommIndex = none := by
    split_ifs at h3
    · obtain ⟨h7, -, h8, h9⟩ := onCompSchedSwitch_spec htable h3
      exact ⟨h7, h8, h9⟩
    · cases h3
      exact ⟨htable, nofun, rfl⟩
  obtain ⟨hfilled, hshown, hnone⟩ := hswitch
  have hwaking : woken.1.Filled names ∧ switched.1.internedComms <+: woken.1.internedComms ∧
      RefersShown context woken.1 (packedEvents names m.wakingTimestamp m.wakingPid m.wakingCommIndex)
        (packedOf woken.2.wakingCommIndex).values ∧
      woken.2.switchNextCommIndex = switched.2.switchNextCommIndex := by
    split_ifs at h5
    · exact onCompactSchedWaking_spec hfilled h5
    · cases h5
      refine ⟨hfilled, List.prefix_rfl, ?_, rfl⟩
      rw [hnone]
      exact nofun
  obtain ⟨h7, h8, h9, h10⟩ := hwaking
  cases h6
  refine ⟨?_, ?_⟩
  · intro x hx
    obtain ⟨blanks, h11, h12⟩ := h7.blank
    rw [show _ = woken.1.internedComms from rfl, h11] at hx
    rcases List.mem_append.mp hx with hx | hx
    · rcases hmem x hx with hx | hx
      · cases hx
      · exact Or.inr hx
    · exact Or.inl (h12 x hx)
  · intro hnodup name hname
    have hnodup' : (InternTable.empty.internedComms ++ m.internTable).Nodup := hnodup
    have hnames' : names = m.internTable := InternTable.fill_of_nodup hnodup' h1
    rw [hnames'] at hshown h9
    obtain ⟨index, h11, h12⟩ := List.mem_filterMap.mp hname
    have h13 : RefersShown context woken.1 m.events
        ((packedOf woken.2.switchNextCommIndex).values ++ (packedOf woken.2.wakingCommIndex).values) := by
      intro j hj
      rcases List.mem_append.mp hj with hj | hj
      · rw [h10] at hj
        exact hshown.mono h8 (fun e he => List.mem_append_left _ he) j hj
      · exact h9.mono List.prefix_rfl (fun e he => List.mem_append_right _ he) j hj
    obtain ⟨name', h14, h15⟩ := h13 index h11
    obtain rfl := Option.some.inj (h14.symm.trans h12)
    exact h15

/-! ### Plain events and packets -/

theorem shown_modified (context : Context) (ts : ℕ) (cpu pid : ℤ) (comm : Comm) :
    Shown context (schedEvent ts (some pid) (some comm)) (clearingRedactor.modify context ts cpu pid comm).2 := by
  show Shown context [⟨ts, pid, comm⟩] (if context.connected ts pid then comm else [])
  split_ifs with h
  · exact Or.inr ⟨_, List.mem_singleton.mpr rfl, rfl, h⟩
  · exact Or.inl rfl

theorem onFtraceEventField_spec {ts : ℕ} {field : FtraceEventField} {out : List FtraceEventField}
    (h : clearingRedactor.onFtraceEventField context ts cpu field = .ok out) :
    ∀ f ∈ out, ∀ name ∈ f.names, Shown context (field.events ts) name := by
  intro f hf name hname
  cases field with
  | schedSwitch m =>
    obtain ⟨m', h1, rfl⟩ := except_map_ok.mp h
    obtain rfl := List.mem_singleton.mp hf
    unfold onFtraceEventSwitch at h1
    split at h1
    · cases h1
      rcases List.mem_append.mp hname with hname | hname
      · obtain rfl := List.mem_singleton.mp hname
        exact (shown_modified context ts cpu _ _).mono fun e he => List.mem_append_left _ he
      · obtain rfl := List.mem_singleton.mp hname
        exact (shown_modified context ts cpu _ _).mono fun e he => List.mem_append_right _ he
    · cases h1
  | schedWaking m =>
    obtain ⟨m', h1, rfl⟩ := except_map_ok.mp h
    unfold onFtraceEventWaking at h1
    split at h1
    · split_ifs at h1
      · cases h1
        obtain rfl := List.mem_singleton.mp hf
        obtain rfl := List.mem_singleton.mp hname
        exact shown_modified context ts cpu _ _
      · cases h1
        cases hf
    · cases h1
  | timestamp | other =>
    cases h
    obtain rfl := List.mem_singleton.mp hf
    cases hname

theorem onBundleField_spec {field out : BundleField} (h : clearingRedactor.onBundleField context cpu field = .ok out)
    (hnodup : ∀ m, field = .compactSched m → m.internTable.Nodup) :
    ∀ name ∈ out.eventNames, Shown context field.events name := by
  intro name hname
  cases field with
  | event fields =>
    obtain ⟨fields', h1, rfl⟩ := except_map_ok.mp h
    unfold onFtraceEvent at h1
    split at h1
    · cases h1
    · rename_i ts hts
      obtain ⟨outs, h2, rfl⟩ := except_map_ok.mp h1
      obtain ⟨f, hf, hname⟩ := List.mem_flatMap.mp hname
      obtain ⟨l, hl, hf⟩ := List.mem_flatten.mp hf
      obtain ⟨field, h3, h4⟩ := exists_of_mapExcept h2 hl
      refine (onFtraceEventField_spec h4 f hf name hname).mono ?_
      intro e he
      simp only [BundleField.events, hts]
      exact List.mem_flatMap.mpr ⟨field, h3, he⟩
  | compactSched m =>
    obtain ⟨m', h1, rfl⟩ := except_map_ok.mp h
    exact (onCompSched_spec h1).2 (hnodup m rfl) name hname
  | cpu =>
    cases h
    cases hname
  | other =>
    cases h
    cases hname

theorem onPacketField_spec {field out : PacketField} (h : clearingRedactor.onPacketField context field = .ok out) :
    (∀ table ∈ out.tables, ∀ name ∈ table, name = [] ∨ ∃ table ∈ field.tables, name ∈ table) ∧
      ((∀ table ∈ field.tables, table.Nodup) → ∀ name ∈ out.eventNames, Shown context field.events name) := by
  cases field with
  | ftraceEvents bundle =>
    obtain ⟨bundle', h1, rfl⟩ := except_map_ok.mp h
    unfold onFtraceEvents at h1
    split at h1
    · cases h1
    · rename_i cpu hcpu
      constructor
      · intro table htable name hname
        obtain ⟨b, hb, h2⟩ := List.mem_filterMap.mp htable
        obtain ⟨b0, hb0, h3⟩ := exists_of_mapExcept h1 hb
        split at h2
        · rename_i m
          obtain rfl := Option.some.inj h2
          cases b0 with
          | compactSched m0 =>
            obtain ⟨m', h4, h5⟩ := except_map_ok.mp h3
            cases h5
            refine ((onCompSched_spec h4).1 name hname).imp_right fun h6 => ⟨m0.internTable, ?_, h6⟩
            exact List.mem_filterMap.mpr ⟨_, hb0, rfl⟩
          | event fields =>
            obtain ⟨_, -, h5⟩ := except_map_ok.mp h3
            cases h5
          | cpu => cases h3
          | other => cases h3
        · cases h2
      · intro hnodup name hname
        obtain ⟨b, hb, hname⟩ := List.mem_flatMap.mp hname
        obtain ⟨b0, hb0, h3⟩ := exists_of_mapExcept h1 hb
        refine (onBundleField_spec h3 ?_ name hname).mono fun e he => List.mem_flatMap.mpr ⟨b0, hb0, he⟩
        rintro m rfl
        exact hnodup _ (List.mem_filterMap.mpr ⟨_, hb0, rfl⟩)
  | other =>
    cases h
    exact ⟨nofun, fun _ => nofun⟩

end RedactSchedEvents

/-! ### The whole transform -/

def Packet.events (packet : Packet) : List SchedEvent := packet.flatMap PacketField.events

def Packet.eventNames (packet : Packet) : List Comm := packet.flatMap PacketField.eventNames

def Packet.tables (packet : Packet) : List (List Comm) := packet.flatMap PacketField.tables

/-- Events carry no name of a thread that is not connected, where the tables have each name once; tables have no names
but those they had. -/
theorem transform_names (context : Context) (packet out : Packet)
    (h : clearingRedactor.transform context packet = .ok out) :
    (∀ table ∈ Packet.tables out, ∀ name ∈ table, name = [] ∨ ∃ table ∈ Packet.tables packet, name ∈ table) ∧
      ((∀ table ∈ Packet.tables packet, table.Nodup) →
        ∀ name ∈ Packet.eventNames out, Shown context (Packet.events packet) name) := by
  unfold RedactSchedEvents.transform at h
  split_ifs at h
  constructor
  · intro table htable name hname
    obtain ⟨f, hf, htable⟩ := List.mem_flatMap.mp htable
    obtain ⟨f0, hf0, h1⟩ := exists_of_mapExcept h hf
    rcases (RedactSchedEvents.onPacketField_spec h1).1 table htable name hname with h2 | ⟨table0, h2, h3⟩
    · exact Or.inl h2
    · exact Or.inr ⟨table0, List.mem_flatMap.mpr ⟨f0, hf0, h2⟩, h3⟩
  · intro hnodup name hname
    obtain ⟨f, hf, hname⟩ := List.mem_flatMap.mp hname
    obtain ⟨f0, hf0, h1⟩ := exists_of_mapExcept h hf
    refine ((RedactSchedEvents.onPacketField_spec h1).2 ?_ name hname).mono ?_
    · exact fun table htable => hnodup table (List.mem_flatMap.mpr ⟨f0, hf0, htable⟩)
    · exact fun e he => List.mem_flatMap.mpr ⟨f0, hf0, he⟩

/-- Pid 5 belongs to package 10, pid 6 does not. -/
def twoThreads : ProcessThreadTimeline where
  events := [.openEvent 0 5 1 10, .openEvent 0 6 1 11]
  sorted := by decide

/-- A compact switch to pid 5 at time 100 and to pid 6 at time 120, under two names. -/
def twoSwitches : Packet :=
  [.ftraceEvents [.cpu 0, .compactSched ⟨[[97], [98]], some ⟨[100, 20], false⟩, some ⟨[0, 0], false⟩,
    some ⟨[5, 6], false⟩, some ⟨[120, 120], false⟩, some ⟨[0, 1], false⟩, none, none, none, none, none, none⟩]]

/-- The name of pid 6 has become blank in its event, and is still in the table. -/
def twoSwitchesRedacted : Packet :=
  [.ftraceEvents [.cpu 0, .compactSched ⟨[[97], [98], []], some ⟨[100, 20], false⟩, some ⟨[0, 0], false⟩,
    some ⟨[5, 6], false⟩, some ⟨[120, 120], false⟩, some ⟨[0, 2], false⟩, none, none, none, none, none, none⟩]]

theorem transform_names_twoSwitches :
    (∀ table ∈ Packet.tables twoSwitchesRedacted, ∀ name ∈ table,
        name = [] ∨ ∃ table ∈ Packet.tables twoSwitches, name ∈ table) ∧
      ((∀ table ∈ Packet.tables twoSwitches, table.Nodup) →
        ∀ name ∈ Packet.eventNames twoSwitchesRedacted,
          Shown ⟨some twoThreads, some 10⟩ (Packet.events twoSwitches) name) :=
  transform_names ⟨some twoThreads, some 10⟩ twoSwitches twoSwitchesRedacted (by decide)

theorem not_names_connected :
    ¬ ∀ (context : Context) (packet out : Packet), clearingRedactor.transform context packet = .ok out →
      ∀ name, name ∈ Packet.eventNames out ∨ (∃ table ∈ Packet.tables out, name ∈ table) →
        Shown context (Packet.events packet) name := by
  intro h
  have h1 := h ⟨some twoThreads, some 10⟩ twoSwitches twoSwitchesRedacted (by decide) [98]
    (Or.inr ⟨[[97], [98], []], by decide, by decide⟩)
  rcases h1 with h1 | ⟨e, h1, h2, h3⟩
  · cases h1
  · rcases List.mem_cons.mp (show e ∈ [⟨100, 5, [97]⟩, ⟨120, 6, [98]⟩] from h1) with rfl | h1
    · cases h2
    · obtain rfl := List.mem_singleton.mp h1
      cases h3

end LynxTrace.Redaction
