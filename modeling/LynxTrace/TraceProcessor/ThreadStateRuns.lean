import LynxTrace.TraceProcessor.ThreadTimeline

/-!
# TraceProcessor.ThreadStateRuns — the thread states over a run of a `ThreadStateTracker`

The timestamps of the events do not go back.  A new task is a thread that has no rows yet: its event closes no state.
-/

namespace LynxTrace.TraceProcessor.ThreadStateTracker

def Call.eventTs : Call → Option ℤ
  | .schedSwitch eventTs _ _ _ _ => some eventTs
  | .waking eventTs _ _ _ => some eventTs
  | .newTask eventTs _ _ => some eventTs
  | .blockedReason _ _ _ => none

section

variable (swapperUtid : ℕ) (getOrCreateCpu : ℕ → ℕ)

/-- A switch found the row `i` the last one of the thread it switched from, not running, and went on with row `j`. -/
def LeftBySwitch (calls : List Call) (i j : ℕ) : Prop :=
  ∃ before eventTs cpu prevUtid prevState nextUtid rest,
    calls = before ++ .schedSwitch eventTs cpu prevUtid prevState nextUtid :: rest ∧
    IsLast (run swapperUtid getOrCreateCpu before).rows prevUtid i ∧
    (∃ row, (run swapperUtid getOrCreateCpu before).rows[i]? = some row ∧ isRunning row.state = false) ∧
    j = (run swapperUtid getOrCreateCpu before).rows.length

/-- Every new task but the swapper is a thread that has no rows. -/
def NewTasksFresh (calls : List Call) : Prop :=
  ∀ before eventTs utid wakerUtid, before ++ [.newTask eventTs utid wakerUtid] <+: calls → utid ≠ swapperUtid →
    ∀ row ∈ (run swapperUtid getOrCreateCpu before).rows, row.utid ≠ utid

/-- The rows of each thread are a timeline. -/
structure FormsTimeline (calls : List Call) : Prop where
  sorted : (run swapperUtid getOrCreateCpu calls).rows.Pairwise fun row row' => row.ts ≤ row'.ts
  /-- The rows with a duration of -1 that no later row of the thread follows. -/
  oneOpen : ∀ utid i j row row', IsLast (run swapperUtid getOrCreateCpu calls).rows utid i →
    IsLast (run swapperUtid getOrCreateCpu calls).rows utid j →
    (run swapperUtid getOrCreateCpu calls).rows[i]? = some row →
    (run swapperUtid getOrCreateCpu calls).rows[j]? = some row' → row.dur = -1 ∧ row'.dur = -1 ∧ i = j
  /-- A difference of timestamps that is a timestamp is the duration. -/
  durations : ∀ utid i j row row', Next (run swapperUtid getOrCreateCpu calls).rows utid i j →
    (run swapperUtid getOrCreateCpu calls).rows[i]? = some row →
    (run swapperUtid getOrCreateCpu calls).rows[j]? = some row' →
    (row'.ts - row.ts < 2 ^ 63 → row.dur = row'.ts - row.ts) ∨
      (row.dur = -1 ∧ LeftBySwitch swapperUtid getOrCreateCpu calls i j)
  /-- What a blocked reason changes. -/
  reasons : ∀ before utid ioWait blockedFunction, before ++ [.blockedReason utid ioWait blockedFunction] <+: calls →
    ∀ i : ℕ, (run swapperUtid getOrCreateCpu (before ++ [.blockedReason utid ioWait blockedFunction])).rows[i]? ≠
      (run swapperUtid getOrCreateCpu before).rows[i]? → LastBlocked (run swapperUtid getOrCreateCpu before).rows utid i

end

section Calls

variable {swapperUtid : ℕ} {Lost : ℕ → ℕ → Prop} {times : List ℤ} {s : ThreadStateTracker} {ts : ℤ} {utid : ℕ}

theorem closePendingState_none (hnone : s.prevRowNumbersForThread utid = none) (endTs : ℤ) (dataLoss : Bool) :
    s.closePendingState endTs utid dataLoss = s := by
  unfold closePendingState
  rw [hnone]

section

variable (ht : Timeline swapperUtid Lost times s)

include ht

/-- A thread goes on to another state; the swapper has none. -/
theorem Timeline.advance (getOrCreateCpu : ℕ → ℕ) (hts : ∀ t ∈ times, t ≤ ts) (utid : ℕ) (dataLoss : Bool)
    (state : String) (cpu wakerUtid commonFlags : Option ℕ)
    (hlost : dataLoss = true → ∀ i, IsLast s.rows utid i → Lost i s.rows.length) :
    Timeline swapperUtid Lost (times ++ [ts]) (addOpenState swapperUtid getOrCreateCpu
      (s.closePendingState ts utid dataLoss) ts utid state cpu wakerUtid commonFlags) := by
  by_cases hutid : utid = swapperUtid
  · rw [closePendingState_none (hutid ▸ ht.swapper), addOpenState, if_pos hutid]
    exact ht.mono (fun _ _ => id) (List.subset_append_left _ _)
  · obtain ⟨new, ho⟩ := addOpenState_spec swapperUtid getOrCreateCpu (s.closePendingState ts utid dataLoss) ts state cpu
      wakerUtid commonFlags hutid
    exact ht.push (closePendingState_spec s ts utid dataLoss) ho hts hutid hlost

theorem Timeline.schedSwitch (getOrCreateCpu : ℕ → ℕ) (hts : ∀ t ∈ times, t ≤ ts) (cpu prevUtid : ℕ)
    (prevState : String) (nextUtid : ℕ)
    (hlost : ∀ i row, IsLast s.rows prevUtid i → s.rows[i]? = some row → isRunning row.state = false →
      Lost i s.rows.length) :
    Timeline swapperUtid Lost (times ++ [ts])
      (pushSchedSwitchEvent swapperUtid getOrCreateCpu s ts cpu prevUtid prevState nextUtid) := by
  have hprev := ht.advance getOrCreateCpu hts prevUtid ((s.lastRow prevUtid).any fun row => !isRunning row.state)
    prevState none none none ?_
  · refine (hprev.advance getOrCreateCpu ?_ nextUtid false "Running" (some (cpu % 2 ^ 16)) none none
      Bool.noConfusion).mono (fun _ _ => id) ?_
    · intro t ht'
      rcases List.mem_append.mp ht' with ht' | ht'
      · exact hts t ht'
      · exact Int.le_of_eq (List.mem_singleton.mp ht')
    · intro t ht'
      rcases List.mem_append.mp ht' with ht' | ht'
      · exact ht'
      · exact List.mem_append_right _ ht'
  · intro hany i hlast
    obtain ⟨related, hrelated, rfl⟩ := ht.related_of_isLast hlast
    rw [lastRow, hrelated, Option.bind_some] at hany
    obtain ⟨⟨row, hrow, -⟩, -⟩ := id hlast
    rw [hrow, Option.any_some, Bool.not_eq_true'] at hany
    exact hlost related.lastRow row hlast hrow hany

theorem Timeline.waking (getOrCreateCpu : ℕ → ℕ) (hts : ∀ t ∈ times, t ≤ ts) (wakerUtid : ℕ) (commonFlags : Option ℕ) :
    Timeline swapperUtid Lost (times ++ [ts])
      (pushWakingEvent swapperUtid getOrCreateCpu s ts utid wakerUtid commonFlags) := by
  have hpush := ht.advance getOrCreateCpu hts utid false "R" none (some wakerUtid) commonFlags Bool.noConfusion
  unfold pushWakingEvent
  split
  · rename_i hnone
    rwa [closePendingState_none hnone] at hpush
  · split
    · -- the event is only counted
      have hsame := ht.mono (fun _ _ => id) (List.subset_append_left times [ts])
      refine hsame.retouch rfl (fun i row row' hi hi' => ?_) rfl
      rw [show s.rows[i]? = some row' from hi', Option.some_inj] at hi
      rw [hi]
    · exact hpush

theorem Timeline.newTask (getOrCreateCpu : ℕ → ℕ) (hts : ∀ t ∈ times, t ≤ ts) (wakerUtid : ℕ)
    (hfresh : utid ≠ swapperUtid → ∀ row ∈ s.rows, row.utid ≠ utid) :
    Timeline swapperUtid Lost (times ++ [ts]) (pushNewTaskEvent swapperUtid getOrCreateCpu s ts utid wakerUtid) := by
  have hnone : s.prevRowNumbersForThread utid = none := by
    by_cases hutid : utid = swapperUtid
    · rw [hutid]
      exact ht.swapper
    · cases hprev : s.prevRowNumbersForThread utid with
      | none => rfl
      | some related =>
        obtain ⟨⟨row, hrow, hrow'⟩, -⟩ := ht.last utid related hprev
        exact absurd hrow' (hfresh hutid row (List.mem_of_getElem? hrow))
  have hpush := ht.advance getOrCreateCpu hts utid false "R" none (some wakerUtid) (some 0) Bool.noConfusion
  rwa [closePendingState_none hnone] at hpush

end

theorem setReason_key (ioWait : Option Bool) (blockedFunction : Option String) (row : ThreadStateRow) :
    key (setReason ioWait blockedFunction row) = key row := rfl

theorem Timeline.blockedReason (ht : Timeline swapperUtid Lost times s) (ioWait : Option Bool)
    (blockedFunction : Option String) :
    Timeline swapperUtid Lost times (s.pushBlockedReason utid ioWait blockedFunction) := by
  unfold pushBlockedReason
  split
  · exact ht
  · rename_i rowNumber hrow
    refine ht.retouch (sameKeys_modify (setReason_key ioWait blockedFunction) rowNumber) (fun i row row' hi hi' => ?_) rfl
    replace hi' : (s.rows.modify rowNumber (setReason ioWait blockedFunction))[i]? = some row' := hi'
    rw [List.getElem?_modify, hi] at hi'
    obtain rfl : (if rowNumber = i then setReason ioWait blockedFunction row else row) = row' := Option.some_inj.mp hi'
    split_ifs <;> rfl

/-- Only the last blocked row of the thread is changed. -/
theorem Timeline.blockedReason_rows (ht : Timeline swapperUtid Lost times s) {ioWait : Option Bool}
    {blockedFunction : Option String} {i : ℕ}
    (hne : (s.pushBlockedReason utid ioWait blockedFunction).rows[i]? ≠ s.rows[i]?) : LastBlocked s.rows utid i := by
  unfold pushBlockedReason at hne
  cases hprev : s.prevRowNumbersForThread utid with
  | none =>
    rw [hprev] at hne
    exact absurd rfl hne
  | some related =>
    rw [hprev, Option.bind_some] at hne
    cases hblocked : related.lastBlockedRow with
    | none =>
      rw [hblocked] at hne
      exact absurd rfl hne
    | some rowNumber =>
      rw [hblocked] at hne
      by_cases hi : rowNumber = i
      · exact hi ▸ ht.blocked utid related rowNumber hprev hblocked
      · exact absurd (List.getElem?_modify_ne _ _ hi) hne

end Calls

/-! ### Runs -/

section Runs

variable {swapperUtid : ℕ} {getOrCreateCpu : ℕ → ℕ} {calls : List Call} {c : Call}

theorem run_concat (swapperUtid : ℕ) (getOrCreateCpu : ℕ → ℕ) (calls : List Call) (c : Call) :
    run swapperUtid getOrCreateCpu (calls ++ [c]) =
      call swapperUtid getOrCreateCpu (run swapperUtid getOrCreateCpu calls) c := by
  rw [run, List.foldl_append]
  rfl

theorem LeftBySwitch.concat {i j : ℕ} (h : LeftBySwitch swapperUtid getOrCreateCpu calls i j) :
    LeftBySwitch swapperUtid getOrCreateCpu (calls ++ [c]) i j := by
  obtain ⟨before, eventTs, cpu, prevUtid, prevState, nextUtid, rest, rfl, h⟩ := h
  exact ⟨before, eventTs, cpu, prevUtid, prevState, nextUtid, rest ++ [c],
    by rw [List.append_assoc, List.cons_append], h⟩

theorem NewTasksFresh.concat (h : NewTasksFresh swapperUtid getOrCreateCpu (calls ++ [c])) :
    NewTasksFresh swapperUtid getOrCreateCpu calls :=
  fun before eventTs utid wakerUtid hpre => h before eventTs utid wakerUtid (hpre.trans (List.prefix_append _ _))

/-- One call after a run. -/
theorem timeline_concat
    (ht : Timeline swapperUtid (LeftBySwitch swapperUtid getOrCreateCpu calls) (calls.filterMap Call.eventTs)
      (run swapperUtid getOrCreateCpu calls))
    (hts : ∀ t ∈ calls.filterMap Call.eventTs, ∀ ts, c.eventTs = some ts → t ≤ ts)
    (hfresh : NewTasksFresh swapperUtid getOrCreateCpu (calls ++ [c])) :
    Timeline swapperUtid (LeftBySwitch swapperUtid getOrCreateCpu (calls ++ [c]))
      ((calls ++ [c]).filterMap Call.eventTs) (run swapperUtid getOrCreateCpu (calls ++ [c])) := by
  rw [run_concat, List.filterMap_append]
  replace ht := ht.mono (fun i j h => LeftBySwitch.concat (c := c) h) (List.Subset.refl _)
  cases c with
  | schedSwitch eventTs cpu prevUtid prevState nextUtid =>
    refine ht.schedSwitch getOrCreateCpu (fun t ht' => hts t ht' eventTs rfl) cpu prevUtid prevState nextUtid ?_
    intro i row hlast hi hstate
    exact ⟨calls, eventTs, cpu, prevUtid, prevState, nextUtid, [], rfl, hlast, ⟨row, hi, hstate⟩, rfl⟩
  | waking eventTs utid wakerUtid commonFlags =>
    exact ht.waking getOrCreateCpu (fun t ht' => hts t ht' eventTs rfl) wakerUtid commonFlags
  | newTask eventTs utid wakerUtid =>
    exact ht.newTask getOrCreateCpu (fun t ht' => hts t ht' eventTs rfl) wakerUtid
      (hfresh calls eventTs utid wakerUtid List.prefix_rfl)
  | blockedReason utid ioWait blockedFunction =>
    rw [show [Call.blockedReason utid ioWait blockedFunction].filterMap Call.eventTs = [] from rfl, List.append_nil]
    exact ht.blockedReason ioWait blockedFunction

theorem run_timeline (hts : (calls.filterMap Call.eventTs).Pairwise (· ≤ ·))
    (hfresh : NewTasksFresh swapperUtid getOrCreateCpu calls) :
    Timeline swapperUtid (LeftBySwitch swapperUtid getOrCreateCpu calls) (calls.filterMap Call.eventTs)
      (run swapperUtid getOrCreateCpu calls) := by
  induction calls using List.reverseRecOn with
  | nil => exact timeline_init
  | append_singleton calls c ih =>
    have hsplit := hts
    rw [List.filterMap_append, List.pairwise_append] at hsplit
    obtain ⟨hbefore, -, hafter⟩ := hsplit
    refine timeline_concat (ih hbefore hfresh.concat) (fun t ht ts hc => hafter t ht ts ?_) hfresh
    rw [List.filterMap_cons_some hc]
    exact List.mem_cons_self

/-- A difference that is a timestamp does not wrap around. -/
theorem wrapTs_of_lt {x : ℤ} (hlow : 0 ≤ x) (hhigh : x < 2 ^ 63) : wrapTs x = x := by
  unfold wrapTs
  rw [Int.bmod_eq_of_le]
  · omega
  · omega

theorem newTasksFresh_nil : NewTasksFresh swapperUtid getOrCreateCpu [] := by
  intro before eventTs utid wakerUtid hpre
  exact absurd (List.prefix_nil.mp hpre) (List.append_ne_nil_of_right_ne_nil _ nofun)

theorem newTasksFresh_concat (hcalls : NewTasksFresh swapperUtid getOrCreateCpu calls)
    (hc : ∀ eventTs utid wakerUtid, c = .newTask eventTs utid wakerUtid → utid ≠ swapperUtid →
      ∀ row ∈ (run swapperUtid getOrCreateCpu calls).rows, row.utid ≠ utid) :
    NewTasksFresh swapperUtid getOrCreateCpu (calls ++ [c]) := by
  intro before eventTs utid wakerUtid hpre
  rcases List.prefix_concat_iff.mp hpre with heq | hpre
  · obtain ⟨rfl, hcc⟩ := List.append_inj' heq rfl
    exact hc eventTs utid wakerUtid (List.singleton_inj.mp hcc).symm
  · exact hcalls before eventTs utid wakerUtid hpre

end Runs

end LynxTrace.TraceProcessor.ThreadStateTracker
