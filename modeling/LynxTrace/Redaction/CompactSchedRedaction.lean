import LynxTrace.Redaction.CompactSchedDecoding

/-!
# Redaction.CompactSchedRedaction — the loops of `OnCompSched` against what a message means

The table keeps the names of the message and gets at most a blank after them (`InternTable.Filled`), so each index finds
its own name, and what a modifier makes of it always finds room.
-/

namespace LynxTrace.Redaction

open InternTable

namespace RedactSchedEvents

variable {r : RedactSchedEvents} {modifier : PidCommModifier} {wakingFilter : Context → ℕ → ℤ → Bool}
  {context : Context} {names : List Comm} {table : InternTable}

variable (modifier wakingFilter context)

/-- What a modifier makes of an entry is found in the table, or taken in. -/
theorem push_modified (htable : table.Filled names) (ts : ℕ) (cpu pid : ℤ) (index : ℕ) :
    ∃ i table', table.push (modifier.modify context ts cpu pid (names[index]?.getD [])).2 = some (i, table') ∧
      table'.Filled names ∧ table.internedComms <+: table'.internedComms ∧
      table'.internedComms[i]? = some (modifier.modify context ts cpu pid (names[index]?.getD [])).2 := by
  refine htable.push ?_
  rcases modifier.keeps context ts cpu pid (names[index]?.getD []) with h | h
  · exact Or.inr ⟨index, by rw [h, htable.find]⟩
  · exact Or.inl h

theorem getElem?_grown {l l' : List Comm} {i : ℕ} {comm : Comm} (h : l[i]? = some comm) (hle : l <+: l') :
    l'[i]? = some comm := by
  obtain ⟨t, rfl⟩ := hle
  rwa [List.getElem?_append_left (List.getElem?_eq_some_iff.mp h).1]

/-! ### Switch events -/

/-- The values that the loop over switch events has written. -/
def withSwitches (values : List SwitchValues) (pids : List ℤ) (indices : List ℕ) : List SwitchValues :=
  switchValues (values.map (·.timestamp)) (values.map (·.prevState)) pids (values.map (·.nextPrio)) indices

/-- The loop over switch events writes what the modifier makes of them, also for a table that has grown. -/
theorem switchLoop_redacts (cpu : ℤ) (ts : ℕ) (values : List SwitchValues) (htable : table.Filled names) :
    ∃ table' pids indices, (modifier.redactor wakingFilter).switchLoop context cpu ts table (values.map (·.timestamp))
        (values.map (·.nextPid)) (values.map (·.nextCommIndex)) = .ok (table', pids, indices) ∧
      table'.Filled names ∧ table.internedComms <+: table'.internedComms ∧ pids.length = values.length ∧
      indices.length = values.length ∧
      ∀ final, table'.internedComms <+: final → decodeSwitches final ts (withSwitches values pids indices) =
        (decodeSwitches names ts values).map ((modifier.redactor wakingFilter).modifySwitch context cpu) := by
  induction values generalizing ts table with
  | nil => exact ⟨table, [], [], rfl, htable, List.prefix_rfl, rfl, rfl, fun _ _ => rfl⟩
  | cons v values ih =>
    obtain ⟨i, table1, hpush, hfilled, hle, hin⟩ := push_modified modifier context htable
      (add64 ts v.timestamp) cpu v.nextPid v.nextCommIndex
    obtain ⟨table2, pids, indices, h1, h2, h3, h4, h5, h6⟩ := ih (add64 ts v.timestamp) hfilled
    refine ⟨table2, (modifier.modify context (add64 ts v.timestamp) cpu v.nextPid
      (names[v.nextCommIndex]?.getD [])).1 :: pids, i :: indices, ?_, h2, hle.trans h3, congrArg (· + 1) h4, congrArg (· + 1) h5, ?_⟩
    · rw [List.map_cons, List.map_cons, List.map_cons, switchLoop, htable.find, PidCommModifier.redactor_modify, hpush]
      dsimp only
      rw [h1]
      rfl
    · intro final hfinal
      have htail := h6 final hfinal
      unfold withSwitches at htail ⊢
      rw [List.map_cons, List.map_cons, List.map_cons, switchValues, decodeSwitches, htail, decodeSwitches,
        List.map_cons, getElem?_grown hin (h3.trans hfinal)]
      rfl

/-! ### Waking events -/

theorem add64_zero {a b : ℕ} : add64 (add64 a b) 0 = add64 a b := Nat.mod_mod _ _

/-- The bucket holds the time since the last event that was written. -/
theorem add64_bucket {base bucket ts d : ℕ} (h : add64 base bucket = ts) :
    add64 base (add64 bucket d) = add64 ts d := by
  unfold add64 at *
  omega

/-- The events of a message that are kept, as the modifier changes them. -/
def keptWakings (r : RedactSchedEvents) (context : Context) (events : List CompactWaking) : List CompactWaking :=
  (events.filter fun e => r.wakingFilter context e.timestamp e.pid).map (r.modifyWaking context)

/-- The first of the events is kept or not. -/
theorem keptWakings_cons (e : CompactWaking) (events : List CompactWaking) :
    keptWakings r context (e :: events) = if r.wakingFilter context e.timestamp e.pid then
      r.modifyWaking context e :: keptWakings r context events else keptWakings r context events := by
  unfold keptWakings
  rw [List.filter_cons]
  split_ifs <;> rfl

/-- The loop over waking events writes what the modifier makes of those that are kept. -/
theorem wakingLoop_redacts {base bucket ts : ℕ} (values : List WakingValues) (htable : table.Filled names)
    (hbase : add64 base bucket = ts) :
    table.internedComms <+:
        ((modifier.redactor wakingFilter).wakingLoop context bucket ts table values).1.internedComms ∧
      ∀ final, ((modifier.redactor wakingFilter).wakingLoop context bucket ts table values).1.internedComms <+: final →
        decodeWakings final base ((modifier.redactor wakingFilter).wakingLoop context bucket ts table values).2 =
          keptWakings (modifier.redactor wakingFilter) context (decodeWakings names ts values) := by
  induction values generalizing base bucket ts table with
  | nil => exact ⟨List.prefix_rfl, fun _ _ => rfl⟩
  | cons v values ih =>
    have hnow := add64_bucket (d := v.timestamp) hbase
    rw [wakingLoop, decodeWakings, keptWakings_cons, htable.find]
    dsimp only
    by_cases hkept : (modifier.redactor wakingFilter).wakingFilter context (add64 ts v.timestamp) v.pid = true
    · rw [if_pos hkept, if_pos hkept]
      obtain ⟨i, table1, hpush, hfilled, hle, hin⟩ := push_modified modifier context htable
        (add64 ts v.timestamp) v.targetCpu v.pid v.commIndex
      obtain ⟨h1, h2⟩ := ih hfilled (add64_zero (a := ts))
      rw [PidCommModifier.redactor_modify, hpush]
      refine ⟨hle.trans h1, fun final hfinal => ?_⟩
      rw [decodeWakings]
      dsimp only [Option.getD_some]
      rw [hnow, h2 final hfinal, getElem?_grown hin (h1.trans hfinal)]
      rfl
    · rw [if_neg hkept, if_neg hkept]
      exact ih htable hnow

/-! ### The message -/

theorem switchValues_map {n : ℕ} {timestamps indices : List ℕ} {prevStates nextPids nextPrios : List ℤ}
    (h1 : timestamps.length = n) (h2 : prevStates.length = n) (h3 : nextPids.length = n) (h4 : nextPrios.length = n)
    (h5 : indices.length = n) :
    (switchValues timestamps prevStates nextPids nextPrios indices).map (·.timestamp) = timestamps ∧
      (switchValues timestamps prevStates nextPids nextPrios indices).map (·.prevState) = prevStates ∧
      (switchValues timestamps prevStates nextPids nextPrios indices).map (·.nextPid) = nextPids ∧
      (switchValues timestamps prevStates nextPids nextPrios indices).map (·.nextPrio) = nextPrios ∧
      (switchValues timestamps prevStates nextPids nextPrios indices).map (·.nextCommIndex) = indices := by
  induction n generalizing timestamps prevStates nextPids nextPrios indices with
  | zero =>
    rw [List.length_eq_zero_iff] at h1 h2 h3 h4 h5
    subst h1 h2 h3 h4 h5
    exact ⟨rfl, rfl, rfl, rfl, rfl⟩
  | succ n ih =>
    obtain ⟨a, timestamps, rfl⟩ := List.exists_cons_of_length_eq_add_one h1
    obtain ⟨b, prevStates, rfl⟩ := List.exists_cons_of_length_eq_add_one h2
    obtain ⟨c, nextPids, rfl⟩ := List.exists_cons_of_length_eq_add_one h3
    obtain ⟨d, nextPrios, rfl⟩ := List.exists_cons_of_length_eq_add_one h4
    obtain ⟨e, indices, rfl⟩ := List.exists_cons_of_length_eq_add_one h5
    obtain ⟨g1, g2, g3, g4, g5⟩ := ih (Nat.succ.inj h1) (Nat.succ.inj h2) (Nat.succ.inj h3) (Nat.succ.inj h4)
      (Nat.succ.inj h5)
    simp only [switchValues, List.map_cons, g1, g2, g3, g4, g5, and_self]

theorem wakingValues_length {n : ℕ} {commIndices commonFlags timestamps : List ℕ} {pids prios targetCpus : List ℤ}
    (h1 : commIndices.length = n) (h2 : commonFlags.length = n) (h3 : pids.length = n) (h4 : prios.length = n)
    (h5 : targetCpus.length = n) (h6 : timestamps.length = n) :
    (wakingValues commIndices commonFlags pids prios targetCpus timestamps).length = n := by
  induction n generalizing commIndices commonFlags pids prios targetCpus timestamps with
  | zero =>
    rw [List.length_eq_zero_iff] at h1
    subst h1
    rfl
  | succ n ih =>
    obtain ⟨a, commIndices, rfl⟩ := List.exists_cons_of_length_eq_add_one h1
    obtain ⟨b, commonFlags, rfl⟩ := List.exists_cons_of_length_eq_add_one h2
    obtain ⟨c, pids, rfl⟩ := List.exists_cons_of_length_eq_add_one h3
    obtain ⟨d, prios, rfl⟩ := List.exists_cons_of_length_eq_add_one h4
    obtain ⟨e, targetCpus, rfl⟩ := List.exists_cons_of_length_eq_add_one h5
    obtain ⟨f, timestamps, rfl⟩ := List.exists_cons_of_length_eq_add_one h6
    rw [wakingValues, List.length_cons, ih (Nat.succ.inj h1) (Nat.succ.inj h2) (Nat.succ.inj h3) (Nat.succ.inj h4)
      (Nat.succ.inj h5) (Nat.succ.inj h6)]

theorem wakingValues_of_map (values : List WakingValues) :
    wakingValues (values.map (·.commIndex)) (values.map (·.commonFlags)) (values.map (·.pid)) (values.map (·.prio))
      (values.map (·.targetCpu)) (values.map (·.timestamp)) = values := by
  induction values with
  | nil => rfl
  | cons v values ih => rw [List.map_cons, List.map_cons, List.map_cons, List.map_cons, List.map_cons, List.map_cons,
      wakingValues, ih]

variable {modifier wakingFilter context} {m : CompactSched} {cpu : ℤ}

/-- What is written for the switch events. -/
def switchMessage (m : CompactSched) (pids : List ℤ) (indices : List ℕ) : CompactSched :=
  if hasSwitchFields m then { emptyCompactSched with
    switchNextPid := some ⟨pids, false⟩
    switchNextCommIndex := some ⟨indices, false⟩
    switchTimestamp := m.switchTimestamp
    switchPrevState := m.switchPrevState
    switchNextPrio := m.switchNextPrio }
  else emptyCompactSched

theorem not_hasSwitchFields (h : ¬ hasSwitchFields m) : m.switchTimestamp = none ∧ m.switchPrevState = none ∧
    m.switchNextPid = none ∧ m.switchNextPrio = none ∧ m.switchNextCommIndex = none := by
  simpa [hasSwitchFields, and_assoc] using h

theorem not_hasWakingFields (h : ¬ hasWakingFields m) : m.wakingTimestamp = none ∧ m.wakingPid = none ∧
    m.wakingTargetCpu = none ∧ m.wakingPrio = none ∧ m.wakingCommIndex = none ∧ m.wakingCommonFlags = none := by
  simpa [hasWakingFields, and_assoc] using h

/-- The switch events of a well-formed message. -/
theorem switchPart_eq (hm : m.WellFormed) (table : InternTable) :
    (if hasSwitchFields m then r.onCompSchedSwitch context cpu m table emptyCompactSched
      else .ok (table, emptyCompactSched)) =
    (r.switchLoop context cpu 0 table (m.switchArrays.map (·.timestamp)) (m.switchArrays.map (·.nextPid))
      (m.switchArrays.map (·.nextCommIndex))).map fun res => (res.1, switchMessage m res.2.1 res.2.2) := by
  obtain ⟨n, h1, h2, h3, h4, h5⟩ := hm.switch_length
  obtain ⟨g1, g2, g3, g4, g5⟩ := switchValues_map h1 h2 h3 h4 h5
  unfold CompactSched.switchArrays
  rw [g1, g3, g5]
  by_cases hhas : hasSwitchFields m = true
  · obtain ⟨hne, s1, s2, s3, s4, s5⟩ := hm.switch_present hhas
    obtain ⟨ts, hts⟩ := Option.isSome_iff_exists.mp s1
    obtain ⟨prevState, hprev⟩ := Option.isSome_iff_exists.mp s2
    obtain ⟨pid, hpid⟩ := Option.isSome_iff_exists.mp s3
    obtain ⟨prio, hprio⟩ := Option.isSome_iff_exists.mp s4
    obtain ⟨index, hindex⟩ := Option.isSome_iff_exists.mp s5
    obtain ⟨p1, p2, p3⟩ := hm.switch_parses
    rw [if_pos hhas]
    unfold onCompSchedSwitch switchMessage
    rw [hts] at h1 p1
    rw [hpid] at h3 p2
    rw [hindex] at h5 p3
    simp only [hts, hprev, hpid, hprio, hindex, if_neg hne, if_pos hhas]
    dsimp only [packedOf, Option.getD_some] at h1 h3 h5 p1 p2 p3 ⊢
    cases r.switchLoop context cpu 0 table ts.values pid.values index.values with
    | error e => rfl
    | ok res =>
      simp only [Except.bind, Except.map, flagged, p1, p2, p3, Bool.and_false, Bool.or_false, h1, h3, h5]
      simp
  · obtain ⟨n1, n2, n3, n4, n5⟩ := not_hasSwitchFields hhas
    rw [if_neg hhas, n1, n3, n5]
    simp only [switchMessage, if_neg hhas]
    rfl

/-- What is written is decoded as the values that the loop has written. -/
theorem switchArrays_message (hm : m.WellFormed) {pids : List ℤ} {indices : List ℕ}
    (hpids : pids.length = m.switchArrays.length) (hindices : indices.length = m.switchArrays.length) :
    (switchMessage m pids indices).switchArrays = withSwitches m.switchArrays pids indices := by
  obtain ⟨n, h1, h2, h3, h4, h5⟩ := hm.switch_length
  obtain ⟨g1, g2, g3, g4, g5⟩ := switchValues_map h1 h2 h3 h4 h5
  by_cases hhas : hasSwitchFields m = true
  · unfold switchMessage withSwitches
    rw [if_pos hhas]
    unfold CompactSched.switchArrays
    rw [g1, g2, g4]
    rfl
  · obtain ⟨n1, n2, n3, n4, n5⟩ := not_hasSwitchFields hhas
    have hnil : m.switchArrays = [] := by
      unfold CompactSched.switchArrays
      rw [n1]
      rfl
    rw [hnil] at hpids hindices ⊢
    rw [List.length_eq_zero_iff.mp hpids, List.length_eq_zero_iff.mp hindices]
    unfold switchMessage
    rw [if_neg hhas]
    rfl

/-- The values of the waking events are added to a message. -/
def wakingMessage (m message : CompactSched) (values : List WakingValues) : CompactSched :=
  if hasWakingFields m then { message with
    wakingCommIndex := some ⟨values.map (·.commIndex), false⟩
    wakingCommonFlags := some ⟨values.map (·.commonFlags), false⟩
    wakingPid := some ⟨values.map (·.pid), false⟩
    wakingPrio := some ⟨values.map (·.prio), false⟩
    wakingTargetCpu := some ⟨values.map (·.targetCpu), false⟩
    wakingTimestamp := some ⟨values.map (·.timestamp), false⟩ }
  else message

theorem wakingArrays_of_not (h : ¬ hasWakingFields m) : m.wakingArrays = [] := by
  unfold CompactSched.wakingArrays
  rw [(not_hasWakingFields h).2.2.2.2.1]
  rfl

/-- The waking events of a well-formed message. -/
theorem wakingPart_eq (hm : m.WellFormed) (table : InternTable) (message : CompactSched) :
    (if hasWakingFields m then r.onCompactSchedWaking context m table message else .ok (table, message)) =
      .ok ((r.wakingLoop context 0 0 table m.wakingArrays).1,
        wakingMessage m message (r.wakingLoop context 0 0 table m.wakingArrays).2) := by
  by_cases hhas : hasWakingFields m = true
  · obtain ⟨n, h1, h2, h3, h4, h5, h6⟩ := hm.waking_length
    obtain ⟨p1, p2, p3, p4, p5, p6⟩ := hm.waking_parses
    have hlen := wakingValues_length h1 h2 h3 h4 h5 h6
    rw [if_pos hhas]
    unfold onCompactSchedWaking wakingMessage CompactSched.wakingArrays
    dsimp only
    rw [hlen, if_neg, if_neg, if_pos hhas]
    · rw [h1, h2, h3, h4, h5, h6]
      simp
    · simp only [flagged, p1, p2, p3, p4, p5, p6, Bool.and_false, Bool.or_false, Bool.false_eq_true, or_false]
      exact hm.waking_present hhas
  · rw [if_neg hhas, wakingArrays_of_not hhas]
    unfold wakingMessage
    rw [if_neg hhas]
    rfl

theorem wakingArrays_message (values : List WakingValues) (message : CompactSched)
    (hvalues : ¬ hasWakingFields m → values = []) (hmessage : ¬ hasWakingFields message) :
    (wakingMessage m message values).wakingArrays = values := by
  unfold wakingMessage
  by_cases hhas : hasWakingFields m = true
  · rw [if_pos hhas]
    exact wakingValues_of_map values
  · rw [if_neg hhas, hvalues hhas, wakingArrays_of_not hmessage]

theorem switchArrays_wakingMessage (m message : CompactSched) (values : List WakingValues) :
    (wakingMessage m message values).switchArrays = message.switchArrays := by
  unfold wakingMessage
  split_ifs <;> rfl

theorem not_hasWakingFields_switchMessage (m : CompactSched) (pids : List ℤ) (indices : List ℕ) :
    ¬ hasWakingFields (switchMessage m pids indices) := by
  unfold switchMessage
  split_ifs
  · exact Bool.false_ne_true
  · exact Bool.false_ne_true

theorem startTable_sound (hm : m.WellFormed) : (startTable m).Sound := ⟨hm.nodup, rfl, hm.fits⟩

/-- The message that is written, from the table and the values that the loop over switch events leaves. -/
def writtenMessage (r : RedactSchedEvents) (context : Context) (m : CompactSched)
    (res : InternTable × List ℤ × List ℕ) : CompactSched :=
  { wakingMessage m (switchMessage m res.2.1 res.2.2) (r.wakingLoop context 0 0 res.1 m.wakingArrays).2 with
    internTable := (r.wakingLoop context 0 0 res.1 m.wakingArrays).1.internedComms }

/-- The output for a well-formed message. -/
theorem onCompSched_eq (hm : m.WellFormed) : r.onCompSched context cpu m =
    (r.switchLoop context cpu 0 (startTable m) (m.switchArrays.map (·.timestamp)) (m.switchArrays.map (·.nextPid))
      (m.switchArrays.map (·.nextCommIndex))).map (writtenMessage r context m) := by
  have hstart : (⟨InternTable.empty.internedComms ++ m.internTable, InternTable.empty.commsLength +
      (m.internTable.map List.length).sum⟩ : InternTable) = startTable m := by
    unfold startTable InternTable.empty
    rw [List.nil_append, Nat.zero_add]
  have hfill : InternTable.empty.fill m.internTable = .ok (startTable m) := by
    rw [fill_eq (by rw [hstart]; exact startTable_sound hm), hstart]
  unfold onCompSched
  rw [hfill]
  dsimp only [Except.bind]
  rw [switchPart_eq hm]
  cases r.switchLoop context cpu 0 (startTable m) (m.switchArrays.map (·.timestamp)) (m.switchArrays.map (·.nextPid))
      (m.switchArrays.map (·.nextCommIndex)) with
  | error e => rfl
  | ok res =>
    dsimp only [Except.map, Except.bind]
    rw [wakingPart_eq hm]
    rfl

theorem switches_written (hm : m.WellFormed) {table : InternTable} {pids : List ℤ} {indices : List ℕ}
    (hpids : pids.length = m.switchArrays.length) (hindices : indices.length = m.switchArrays.length) :
    (writtenMessage r context m (table, pids, indices)).switches =
      decodeSwitches (r.wakingLoop context 0 0 table m.wakingArrays).1.internedComms 0
        (withSwitches m.switchArrays pids indices) := by
  have h := switchArrays_wakingMessage m (switchMessage m pids indices)
    (r.wakingLoop context 0 0 table m.wakingArrays).2
  rw [switchArrays_message hm hpids hindices] at h
  exact congrArg _ h

theorem wakings_written (res : InternTable × List ℤ × List ℕ) : (writtenMessage r context m res).wakings =
    decodeWakings (r.wakingLoop context 0 0 res.1 m.wakingArrays).1.internedComms 0
      (r.wakingLoop context 0 0 res.1 m.wakingArrays).2 := by
  refine congrArg _ (wakingArrays_message (r.wakingLoop context 0 0 res.1 m.wakingArrays).2
    (switchMessage m res.2.1 res.2.2) ?_ (not_hasWakingFields_switchMessage m _ _))
  intro hhas
  rw [wakingArrays_of_not hhas]
  rfl

/-- The output decodes to the events of the message, as the modifier changes them. -/
theorem onCompSched_redacts (modifier : PidCommModifier) (wakingFilter : Context → ℕ → ℤ → Bool) (context : Context)
    (cpu : ℤ) {m : CompactSched} (hm : m.WellFormed) : (modifier.redactor wakingFilter).Redacts context cpu m := by
  have hstart : (startTable m).Filled (startTable m).internedComms := InternTable.Filled.self hm.fits
  obtain ⟨table, pids, indices, hloop, hfilled, -, hpids, hindices, hswitches⟩ :=
    switchLoop_redacts modifier wakingFilter context cpu 0 m.switchArrays hstart
  have hbase : add64 0 0 = 0 := rfl
  obtain ⟨hle, hwakings⟩ := wakingLoop_redacts modifier wakingFilter context m.wakingArrays hfilled hbase
  refine ⟨_, (onCompSched_eq hm).trans (by rw [hloop]; rfl), ?_, ?_⟩
  · rw [switches_written hm hpids hindices]
    exact hswitches _ hle
  · rw [wakings_written]
    exact hwakings _ List.prefix_rfl

/-- The message of `twoSwitches`: pid 6, which is not connected, loses its name. -/
def twoCompactSwitches : CompactSched :=
  ⟨[[97], [98]], some ⟨[100, 20], false⟩, some ⟨[0, 0], false⟩, some ⟨[5, 6], false⟩, some ⟨[120, 120], false⟩,
    some ⟨[0, 1], false⟩, none, none, none, none, none, none⟩

theorem onCompSched_redacts_twoSwitches : (PidCommModifier.clearComms.redactor connectedToPackage).Redacts
    ⟨some twoThreads, some 10⟩ 0 twoCompactSwitches :=
  onCompSched_redacts PidCommModifier.clearComms connectedToPackage ⟨some twoThreads, some 10⟩ 0
    ⟨by decide, by decide, by decide, by decide, ⟨2, by decide⟩, by decide, by decide, ⟨0, by decide⟩⟩

end RedactSchedEvents

end LynxTrace.Redaction
