import LynxTrace.Ui.QuerySlotMoves

/-!
# Ui.QuerySlotPending — what `use` says of queries that are queued or running

In the runs in which no superseded query clears the pending key, `use` tells whether its slot has a query in flight, and
schedules no second one for a key; in the runs in which no `asyncDispose` rejects, the calls that are still to come keep
their order, so that the last `use` decides which `queryFn` is called last (`run_pendingRight`).
-/

namespace LynxTrace.Ui

variable {I K F V X : Type*}

/-! ### Runs and what is asked of them -/

/-- No `asyncDispose` rejects. -/
def NoReject (_ : List (I × K × F)) (_ : System I K F V X) : Step I K F V X → Prop
  | .disposeSettles _ (some _) => False
  | _ => True

/-- The step is a call of `use` or `dispose` of the slot. -/
def Step.callsSlot (i : I) : Step I K F V X → Prop
  | .use j .. => j = i
  | .dispose j => j = i
  | _ => False

section Machine

variable [DecidableEq I]

/-- The queue from a state on, with the calls of `queryFn` as its events. -/
def callMachine (ops : KeyOps K) (start : System I K F V X) :
    EventMachine (System I K F V X) (Step I K F V X) (I × K × F) where
  init := start
  step s l := (s.step ops l).map fun r => (r.1, s.calls l)

/-- What holds of a state and of every `use` in it. -/
structure PendingRight (ops : KeyOps K) (s : System I K F V X) : Prop where
  queued : ∀ i, (s.pending.filter fun p => p.2.slot = i).length ≤ 1
  isPending : ∀ i key queryFn enabled retainOn result,
    (s.use ops i key queryFn enabled retainOn).2.2 = .ok result →
    (result.isPending = true ↔ ∃ key', Unsuperseded (s.use ops i key queryFn enabled retainOn).1 i key')
  once : ∀ i key queryFn enabled retainOn,
    (s.use ops i key queryFn enabled retainOn).1.nextSignal ≠ s.nextSignal →
    ∀ key', ops.stringify key' = ops.stringify key → ¬ Unsuperseded s i key'

/-- The key of the last of the calls for a slot. -/
def lastCall (ops : KeyOps K) (i : I) (calls : List (I × K × F)) : Option String :=
  (calls.filter fun c => c.1 = i).getLast?.map fun c => ops.stringify c.2.1

/-- After a last `use` that is enabled, and whose key is not cached, the last `queryFn` that the slot calls is one for
that key, when no query of the slot is left. -/
def LastRight (ops : KeyOps K) (calls : List (I × K × F)) (s : System I K F V X) : Prop :=
  ∀ i key queryFn enabled retainOn result, (s.use ops i key queryFn enabled retainOn).2.2 = .ok result →
    enabled.getD true = true → (s.slots i).cache.map CacheEntry.keyStr ≠ some (ops.stringify key) →
    ∀ later s', (callMachine ops (s.use ops i key queryFn enabled retainOn).1).Run
      (fun calls s l => NoReject calls s l ∧ ¬ l.callsSlot i) later s' →
    (∀ key queryFn signal, ¬ InFlight s' (.query i key queryFn signal)) →
    lastCall ops i (calls ++ later) = some (ops.stringify key)

end Machine

/-! ### What has been called and what will be -/

/-- The call of `queryFn` that a task makes. -/
def Task.call : Task I K F → Option (I × K × F)
  | query i key queryFn _ => some (i, key, queryFn)
  | dispose _ => none

/-- The calls that the tasks that are queued or running still make. -/
def System.uncalled (s : System I K F V X) : List (I × K × F) :=
  (s.active.filter (·.phase.isUncalled)).filterMap (·.task.call) ++ s.pending.filterMap (·.2.call)

theorem Task.call_slot {task : Task I K F} {c : I × K × F} (h : task.call = some c) : c.1 = task.slot := by
  cases task with
  | query => exact Option.some.inj h ▸ rfl
  | dispose => cases h

section Uncalled

variable [DecidableEq I] {ops : KeyOps K} {trace : List (Event I K F V X)} {s s' : System I K F V X} {i : I}

omit [DecidableEq I] in
theorem QuerySlot.isUncalled_disposeCache (slot : QuerySlot K V X) : slot.disposeCache.isUncalled = true := by
  rcases slot.disposeCache_cases with h | ⟨resource, h⟩ <;> rw [h] <;> rfl

omit [DecidableEq I] in
theorem uncalled_runNext (hq : QueueInv ops trace s) : s.runNext.1.uncalled = s.uncalled := by
  rcases s.runNext_cases with ⟨-, heq⟩ | ⟨j, task, pending, hrunning, hp, heq⟩
  · rw [heq]
  · rw [heq, System.uncalled, System.uncalled, System.started, hq.idle hrunning, hp]
    simp only [List.nil_append, List.filter_cons, QuerySlot.isUncalled_disposeCache, if_true, List.filter_nil,
      List.filterMap_cons, List.filterMap_nil]
    cases task.call <;> rfl

omit [DecidableEq I] in
/-- The calls for a slot are those of what waits for it. -/
theorem filter_calls [DecidableEq I] {pending : List (I × Task I K F)} (hslots : ∀ p ∈ pending, p.2.slot = p.1) :
    (pending.filterMap (·.2.call)).filter (fun c => c.1 = i) =
      (pending.filter fun p => p.1 = i).filterMap (·.2.call) := by
  induction pending with
  | nil => rfl
  | cons p pending ih =>
    have ih := ih fun q hq => hslots q (List.mem_cons_of_mem _ hq)
    have hp := hslots p List.mem_cons_self
    rw [List.filterMap_cons, List.filter_cons]
    cases hcall : p.2.call with
    | none =>
      dsimp only
      rw [ih]
      split_ifs
      · rw [List.filterMap_cons, hcall]
      · rfl
    | some c =>
      have hc : c.1 = p.1 := (Task.call_slot hcall).trans hp
      dsimp only
      rw [List.filter_cons, hc, ih]
      split_ifs
      · rw [List.filterMap_cons, hcall]
      · rfl

theorem filter_setPending {j : I} {task : Task I K F} (hj : j ≠ i) (pending : List (I × Task I K F)) :
    (setPending j task pending).filter (fun p => p.1 = i) = pending.filter fun p => p.1 = i := by
  induction pending with
  | nil =>
    rw [setPending, List.filter_cons_of_neg (by simpa using hj)]
  | cons p pending ih =>
    rw [setPending]
    split_ifs with hp
    · rw [List.filter_cons_of_neg (by simpa using hj), List.filter_cons_of_neg (by simpa [hp] using hj)]
    · rw [List.filter_cons, List.filter_cons, ih]

theorem uncalled_schedule (hq : QueueInv ops trace s) {j : I} (task : Task I K F) (htask : task.slot = j)
    (hpassed : Passed trace task) (hj : j ≠ i) :
    (s.schedule j task).1.uncalled.filter (fun c => c.1 = i) = s.uncalled.filter fun c => c.1 = i := by
  have hq' := hq.setPending htask hpassed
  rw [System.schedule, uncalled_runNext hq', System.uncalled, System.uncalled, List.filter_append, List.filter_append,
    filter_calls fun p hp => (hq'.pending p hp).1, filter_calls fun p hp => (hq.pending p hp).1, filter_setPending hj]

omit [DecidableEq I] in
theorem uncalled_eq {a : ActiveTask I K F X} (hactive : s.active = [a]) :
    s.uncalled = (if a.phase.isUncalled then a.task.call.toList else []) ++ s.pending.filterMap (·.2.call) := by
  rw [System.uncalled, hactive, List.filter_cons]
  split_ifs
  · rw [List.filter_nil, List.filterMap_cons]
    cases a.task.call <;> rfl
  · rfl

/-- **What a slot calls is called in its order**, whatever ends and other slots do. -/
theorem uncalled_move (hq : QueueInv ops trace s) {l : Step I K F V X} {calls : List (I × K × F)}
    (hmove : Move ops s l s' calls) (hslot : ¬ l.callsSlot i) (hreject : NoReject calls s l) :
    (calls ++ s'.uncalled).filter (fun c => c.1 = i) = s.uncalled.filter fun c => c.1 = i := by
  have hpending : ∀ p ∈ s.pending, p.2.slot = p.1 := fun p hp => (hq.pending p hp).1
  cases hmove with
  | stays => rfl
  | @schedules j key queryFn enabled retainOn hdisposed hmust =>
    obtain ⟨s1, hcaches, heq, -, -⟩ := System.startQuery_signal s j key queryFn
    have hused : Event.used j key queryFn ∈ trace ++ [.used j key queryFn] :=
      List.mem_append_right _ (List.mem_singleton_self _)
    have hq1 := (hq.mono (List.subset_append_left trace [.used j key queryFn])).sameCaches hcaches
    rw [List.nil_append, heq, uncalled_schedule (j := j) hq1 (.query j key queryFn s.nextSignal) rfl hused hslot,
      System.uncalled, System.uncalled, hcaches.active, hcaches.pending]
  | @disposes j =>
    have hcancel : (s.markDisposed j).pending.filter (fun p => p.1 = i) = s.pending.filter fun p => p.1 = i := by
      show (s.pending.filter fun p => p.1 ≠ j).filter (fun p => p.1 = i) = _
      rw [List.filter_filter]
      refine List.filter_congr fun p _ => ?_
      by_cases hp : p.1 = i
      · simp [hp, Ne.symm hslot]
      · simp [hp]
    rw [List.nil_append, uncalled_schedule (j := j) (hq.markDisposed j) (.dispose j) rfl trivial hslot,
      System.uncalled, System.uncalled, List.filter_append, List.filter_append,
      filter_calls fun p hp => ((hq.markDisposed j).pending p hp).1, hcancel,
      filter_calls hpending]
    rfl
  | disposed hactive hactive' hkeys =>
    rw [List.nil_append, uncalled_eq hactive, uncalled_eq hactive', hkeys.pending]
    rfl
  | rejected => exact hreject.elim
  | lastTask hactive hactive' hkeys =>
    rw [List.nil_append, uncalled_eq hactive, uncalled_eq hactive', hkeys.pending]
    simp only [Task.call, Option.toList_none, ite_self]
  | called hactive hactive' hkeys =>
    rw [uncalled_eq hactive, uncalled_eq hactive', hkeys.pending]
    rfl
  | ends hactive hphase hcalled hends hactive' hqueue hkey hother =>
    rw [List.nil_append, uncalled_eq hactive, uncalled_eq hactive', hqueue.pending, hcalled]
    rfl
  | taskOver hactive =>
    rw [List.nil_append, uncalled_runNext (hq.taskOver hactive), System.uncalled, System.uncalled, hactive]
    rfl

/-- The query that runs is the last that was called, where no `asyncDispose` has rejected. -/
structure CallInv (calls : List (I × K × F)) (s : System I K F V X) : Prop where
  querying : ∀ a ∈ s.active, a.phase = .querying → a.task.call = calls.getLast?
  threw : ∀ a ∈ s.active, ∀ thrown, a.phase ≠ .disposeThrew thrown

variable {before calls : List (I × K × F)}

omit [DecidableEq I] in
theorem CallInv.single {a : ActiveTask I K F X} (hactive : s.active = [a])
    (hquerying : a.phase = .querying → a.task.call = calls.getLast?)
    (hthrew : ∀ thrown, a.phase ≠ .disposeThrew thrown) :
    CallInv calls s := by
  constructor
  · intro a' ha'
    rw [hactive] at ha'
    obtain rfl := List.mem_singleton.mp ha'
    exact hquerying
  · intro a' ha'
    rw [hactive] at ha'
    obtain rfl := List.mem_singleton.mp ha'
    exact hthrew

omit [DecidableEq I] in
theorem CallInv.runNext (h : CallInv calls s) (hq : QueueInv ops trace s) : CallInv calls s.runNext.1 := by
  rcases s.runNext_cases with ⟨-, heq⟩ | ⟨j, task, pending, hrunning, hp, heq⟩
  · rw [heq]
    exact h
  · rw [heq]
    have hactive : (s.started task pending).active = [⟨task, (s.slots task.slot).disposeCache⟩] := by
      rw [System.started, hq.idle hrunning]
      rfl
    have huncalled := (s.slots task.slot).isUncalled_disposeCache
    refine CallInv.single hactive (fun hphase => ?_) fun thrown hphase => ?_
    · rw [show (s.slots task.slot).disposeCache = .querying from hphase] at huncalled
      cases huncalled
    · rw [show (s.slots task.slot).disposeCache = .disposeThrew thrown from hphase] at huncalled
      cases huncalled

theorem CallInv.move (h : CallInv before s) (hq : QueueInv ops trace s) {l : Step I K F V X}
    (hmove : Move ops s l s' calls) (hreject : NoReject before s l) : CallInv (before ++ calls) s' := by
  cases hmove with
  | stays =>
    rw [List.append_nil]
    exact h
  | @schedules j key queryFn enabled retainOn hdisposed hmust =>
    obtain ⟨s1, hcaches, heq, -, -⟩ := System.startQuery_signal s j key queryFn
    have hused : Event.used j key queryFn ∈ trace ++ [.used j key queryFn] :=
      List.mem_append_right _ (List.mem_singleton_self _)
    have hq2 : QueueInv ops (trace ++ [.used j key queryFn])
        { s1 with pending := setPending j (.query j key queryFn s.nextSignal) s1.pending } :=
      ((hq.mono (List.subset_append_left trace _)).sameCaches hcaches).setPending rfl hused
    rw [List.append_nil, heq]
    refine CallInv.runNext ⟨fun a ha => ?_, fun a ha => ?_⟩ hq2
    · exact h.querying a (hcaches.active ▸ ha)
    · exact h.threw a (hcaches.active ▸ ha)
  | @disposes j =>
    have hq2 : QueueInv ops trace
        { s.markDisposed j with pending := setPending j (.dispose j) (s.markDisposed j).pending } :=
      (hq.markDisposed j).setPending rfl trivial
    rw [List.append_nil]
    exact CallInv.runNext ⟨h.querying, h.threw⟩ hq2
  | disposed hactive hactive' hkeys | lastTask hactive hactive' hkeys
  | ends hactive hphase hcalled hends hactive' hqueue hkey hother => exact .single hactive' nofun nofun
  | rejected => exact hreject.elim
  | called hactive hactive' hkeys => exact .single hactive' (fun _ => List.getLast?_concat.symm) nofun
  | taskOver hactive =>
    rw [List.append_nil]
    exact CallInv.runNext ⟨fun a ha => absurd ha List.not_mem_nil, fun a ha => absurd ha List.not_mem_nil⟩
      (hq.taskOver hactive)

end Uncalled

/-! ### Whole runs -/

/-- What holds in every state that is reached. -/
structure Reached (ops : KeyOps K) (s : System I K F V X) : Prop where
  queue : ∃ trace, QueueInv ops trace s ∧ AtEach (FreshReturn ops) trace
  signals : SignalInv s

section Runs

variable [DecidableEq I] {ops : KeyOps K} {s s' start : System I K F V X} {i : I} {key : K} {queryFn : F}
  {before calls : List (I × K × F)}

omit [DecidableEq I] in
theorem Reached.init : Reached ops (System.init : System I K F V X) :=
  ⟨⟨[], QueueInv.init, AtEach.nil⟩, SignalInv.init⟩

theorem Reached.step (h : Reached ops s) {l : Step I K F V X}
    (hstep : (callMachine ops start).step s l = some (s', calls)) : Reached ops s' ∧ Move ops s l s' calls := by
  obtain ⟨⟨s1, events⟩, hs1, heq⟩ := Option.map_eq_some_iff.mp hstep
  obtain ⟨rfl, rfl⟩ := Prod.mk.inj heq
  obtain ⟨trace, hq, hfresh⟩ := h.queue
  have hmove := System.step_moves hq hs1
  exact ⟨⟨⟨_, hq.step hfresh hs1⟩, h.signals.move hq hmove⟩, hmove⟩

/-- A call of `use` that returns. -/
theorem use_returned {enabled : Option Bool} {retainOn : List String} {result : QueryResult V}
    (h : (s.use ops i key queryFn enabled retainOn).2.2 = .ok result) :
    (s.slots i).disposed = false ∧
      ((s.slots i).mustQuery ops key enabled = true ∧
          (s.use ops i key queryFn enabled retainOn).1 = (s.startQuery i key queryFn).1 ∨
        (s.slots i).mustQuery ops key enabled = false ∧ (s.use ops i key queryFn enabled retainOn).1 = s) ∧
      result = ((s.use ops i key queryFn enabled retainOn).1.slots i).queryResult ops key retainOn := by
  rcases System.use_cases ops s i key queryFn enabled retainOn with ⟨err, heq⟩ | ⟨hdisposed, -, heq⟩
  · rw [heq] at h
    cases h
  · rw [heq, System.use.query] at h ⊢
    refine ⟨hdisposed, ?_, (Except.ok.inj h).symm⟩
    cases hmust : (s.slots i).mustQuery ops key enabled with
    | true => exact Or.inl ⟨rfl, rfl⟩
    | false => exact Or.inr ⟨rfl, rfl⟩

omit [DecidableEq I] in
theorem isPending_queryResult (slot : QuerySlot K V X) (key : K) (retainOn : List String) :
    (slot.queryResult ops key retainOn).isPending = slot.pendingKey.isSome := by
  unfold QuerySlot.queryResult
  dsimp only
  split
  · rfl
  · split_ifs <;> rfl

/-- The slot after a query has been scheduled. -/
theorem slots_startQuery (s : System I K F V X) (i : I) (key : K) (queryFn : F) :
    (s.startQuery i key queryFn).1.slots i =
      { s.slots i with currentSignal := some s.nextSignal, pendingKey := some key } := by
  obtain ⟨s1, -, heq, -, hslots⟩ := System.startQuery_signal s i key queryFn
  rw [heq, System.schedule, System.slots_runNext]
  exact (congrFun hslots i).trans (Function.update_self ..)

/-- A call of `use` is a step. -/
theorem Reached.use (h : Reached ops s) (i : I) (key : K) (queryFn : F) (enabled : Option Bool)
    (retainOn : List String) : Reached ops (s.use ops i key queryFn enabled retainOn).1 ∧
      Move ops s (.use i key queryFn enabled retainOn) (s.use ops i key queryFn enabled retainOn).1 [] := by
  have hstep : (callMachine ops s).step s (.use i key queryFn enabled retainOn) =
      some ((s.use ops i key queryFn enabled retainOn).1, []) := rfl
  exact h.step hstep

/-- **What `use` says of the queries of its slot**, where no superseded one has cleared the pending key. -/
theorem Reached.pendingRight (h : Reached ops s) (hkeys : KeyInv s) : PendingRight ops s := by
  obtain ⟨trace, hq, -⟩ := h.queue
  constructor
  case queued =>
    intro i
    have hfilter : (s.pending.filter fun p => p.2.slot = i).map Prod.fst =
        (s.pending.map Prod.fst).filter fun j => j = i := by
      rw [List.filter_map]
      refine congrArg (List.map Prod.fst) (List.filter_congr fun p hp => ?_)
      rw [(hq.pending p hp).1]
      rfl
    have hnodup := hq.nodup
    rw [← List.length_map Prod.fst, hfilter, ← List.countP_eq_length_filter]
    exact Nat.le_trans (Nat.le_of_eq (List.countP_congr fun j _ => by simp)) (List.nodup_iff_count_le_one.mp hnodup i)
  case isPending =>
    intro i key queryFn enabled retainOn result hresult
    obtain ⟨hreached, hmove⟩ := h.use i key queryFn enabled retainOn
    have hright : EndsRight ops [] s (.use i key queryFn enabled retainOn) := nofun
    have hkeys' := hkeys.move h.signals hq hmove hright
    obtain ⟨hdisposed, hnext, rfl⟩ := use_returned hresult
    have hdisposed' : ((s.use ops i key queryFn enabled retainOn).1.slots i).disposed = false := by
      rcases hnext with ⟨-, heq⟩ | ⟨-, heq⟩
      · rw [heq, slots_startQuery]
        exact hdisposed
      · rw [heq]
        exact hdisposed
    rw [isPending_queryResult, Option.isSome_iff_exists]
    constructor
    · rintro ⟨key', hkey'⟩
      exact ⟨key', hreached.signals.pendingKey hkey'⟩
    · rintro ⟨key', queryFn', signal, hcurrent, ⟨j, hp⟩ | ⟨phase, ha, hphase⟩⟩
      · exact ⟨key', hkeys'.queued hp⟩
      · exact ⟨key', hkeys'.running ha hphase hdisposed' hcurrent⟩
  case once =>
    intro i key queryFn enabled retainOn hscheduled key' hsame hflight
    rcases System.use_cases ops s i key queryFn enabled retainOn with ⟨err, heq⟩ | ⟨hdisposed, -, heq⟩
    · rw [heq] at hscheduled
      exact hscheduled rfl
    rw [heq, System.use.query] at hscheduled
    dsimp only at hscheduled
    split_ifs at hscheduled with hmust
    · have hpending : (s.slots i).pendingKey = some key' := by
        obtain ⟨queryFn', signal, hcurrent, ⟨j, hp⟩ | ⟨phase, ha, hphase⟩⟩ := hflight
        · exact hkeys.queued hp
        · exact hkeys.running ha hphase hdisposed hcurrent
      rw [QuerySlot.mustQuery, hpending, Option.map_some, hsame] at hmust
      simp at hmust
    · exact hscheduled rfl

theorem lastCall_concat (calls : List (I × K × F)) {c : I × K × F} (hc : c.1 = i) :
    lastCall ops i (calls ++ [c]) = some (ops.stringify c.2.1) := by
  have hsingle : [c].filter (fun c => c.1 = i) = [c] := by simp [hc]
  rw [lastCall, List.filter_append, hsingle, List.getLast?_concat]
  rfl

theorem lastCall_append (calls : List (I × K × F)) {others : List (I × K × F)}
    (h : others.filter (fun c => c.1 = i) = []) : lastCall ops i (calls ++ others) = lastCall ops i calls := by
  rw [lastCall, List.filter_append, h, List.append_nil, lastCall]

omit [DecidableEq I] in
theorem Task.eq_of_call {task : Task I K F} {c : I × K × F} (h : task.call = some c) :
    ∃ signal, task = .query c.1 c.2.1 c.2.2 signal := by
  cases task with
  | query i key queryFn signal => exact Option.some.inj h ▸ ⟨signal, rfl⟩
  | dispose => cases h

/-- What waits for a slot is one task. -/
theorem filter_pending_eq {pending : List (I × Task I K F)} (hnodup : (pending.map Prod.fst).Nodup)
    {task : Task I K F} (hp : (i, task) ∈ pending) : pending.filter (fun p => p.1 = i) = [(i, task)] := by
  induction pending with
  | nil => cases hp
  | cons p pending ih =>
    rw [List.map_cons, List.nodup_cons] at hnodup
    rcases List.mem_cons.mp hp with rfl | hp
    · have hrest : pending.filter (fun p => p.1 = i) = [] := by
        rw [List.filter_eq_nil_iff]
        intro q hq hi
        exact hnodup.1 (List.mem_map.mpr ⟨q, hq, of_decide_eq_true hi⟩)
      rw [List.filter_cons, hrest]
      exact if_pos (decide_eq_true rfl)
    · have hne : ¬ p.1 = i := fun hi => hnodup.1 (hi ▸ List.mem_map.mpr ⟨_, hp, rfl⟩)
      rw [List.filter_cons_of_neg (by simpa using hne), ih hnodup.2 hp]

/-- Where the pending key stands for a key, the last call of the slot is to be one for that key. -/
theorem Reached.lastCall_pendingKey (h : Reached ops s) (hcalls : CallInv calls s) {key' : K}
    (hkey : (s.slots i).pendingKey = some key') :
    lastCall ops i (calls ++ s.uncalled) = some (ops.stringify key') := by
  obtain ⟨trace, hq, -⟩ := h.queue
  have hslots : ∀ p ∈ s.pending, p.2.slot = p.1 := fun p hp => (hq.pending p hp).1
  obtain ⟨queryFn, signal, hcurrent, hflight⟩ := h.signals.pendingKey hkey
  rcases hflight with ⟨j, hp⟩ | ⟨phase, ha, hphase⟩
  · obtain rfl : i = j := hslots _ hp
    have hpending : (s.pending.filterMap (·.2.call)).filter (fun c => c.1 = i) = [(i, key', queryFn)] := by
      rw [filter_calls hslots, filter_pending_eq hq.nodup hp]
      rfl
    rw [lastCall, System.uncalled, ← List.append_assoc, List.filter_append, hpending, List.getLast?_concat]
    rfl
  · have hactive : s.active = [⟨.query i key' queryFn signal, phase⟩] := by
      rcases hq.serial with ⟨hnil, -⟩ | ⟨a, hsingle, -⟩
      · rw [hnil] at ha
        cases ha
      · rw [hsingle] at ha ⊢
        rw [List.mem_singleton.mp ha]
    -- a query that waited for the slot would have a later signal
    have hpending : (s.pending.filterMap (·.2.call)).filter (fun c => c.1 = i) = [] := by
      rw [filter_calls hslots, List.filterMap_eq_nil_iff]
      intro p hp
      obtain ⟨hmem, hi⟩ := List.mem_filter.mp hp
      cases hcall : p.2.call with
      | none => rfl
      | some c =>
        obtain ⟨signal', htask⟩ := Task.eq_of_call hcall
        have hci : c.1 = i := (Task.call_slot hcall).trans ((hslots p hmem).trans (of_decide_eq_true hi))
        have hquery : (p.1, Task.query i c.2.1 c.2.2 signal') ∈ s.pending := by
          rw [← hci, ← htask]
          exact hmem
        have hlt := (h.signals.older ha).2 hquery
        have heq := Option.some.inj (hcurrent.symm.trans (h.signals.queued hquery))
        exact absurd heq (Nat.ne_of_lt hlt)
    rw [uncalled_eq hactive, ← List.append_assoc, lastCall_append _ hpending]
    cases phase with
    | disposing resource | cacheDisposed => exact lastCall_concat (c := (i, key', queryFn)) calls rfl
    | disposeThrew thrown => exact absurd rfl (hcalls.threw _ ha thrown)
    | querying =>
      obtain ⟨m, rfl⟩ := List.getLast?_eq_some_iff.mp (hcalls.querying _ ha rfl).symm
      exact (lastCall_append _ rfl).trans (lastCall_concat (c := (i, key', queryFn)) m rfl)
    | done => exact absurd rfl hphase

/-- **The last call of a slot**, where no `asyncDispose` rejects. -/
theorem Reached.lastRight (h : Reached ops s) (hcalls : CallInv calls s) : LastRight ops calls s := by
  intro i key queryFn enabled retainOn result hresult henabled hcached later s' hrun hnone
  obtain ⟨hreached, hmove⟩ := h.use i key queryFn enabled retainOn
  obtain ⟨trace, hq, -⟩ := h.queue
  have hcalls' := hcalls.move hq hmove trivial
  rw [List.append_nil] at hcalls'
  obtain ⟨-, hnext, -⟩ := use_returned hresult
  have hpending : ∃ key', ((s.use ops i key queryFn enabled retainOn).1.slots i).pendingKey = some key' ∧
      ops.stringify key' = ops.stringify key := by
    rcases hnext with ⟨-, heq⟩ | ⟨hmust, heq⟩
    · refine ⟨key, ?_, rfl⟩
      rw [heq, slots_startQuery]
    · rw [heq]
      have hsame : (s.slots i).pendingKey.map ops.stringify = some (ops.stringify key) := by
        by_contra hne
        rw [QuerySlot.mustQuery, henabled] at hmust
        simp [hne, hcached] at hmust
      exact Option.map_eq_some_iff.mp hsame
  obtain ⟨key', hkey', hsame⟩ := hpending
  have hlast := hreached.lastCall_pendingKey hcalls' hkey'
  have hinv := EventMachine.Run.invariant
    (I := fun later s' => Reached ops s' ∧ (calls ++ later ++ s'.uncalled).filter (fun c => c.1 = i) =
      (calls ++ (s.use ops i key queryFn enabled retainOn).1.uncalled).filter fun c => c.1 = i)
    ⟨hreached, by rw [List.append_nil]; rfl⟩
    (fun {later s1 l s2 new} ⟨h1, h2⟩ hok hstep => by
      obtain ⟨h3, hmove⟩ := h1.step hstep
      obtain ⟨trace, hq, -⟩ := h1.queue
      have hkept := uncalled_move hq hmove hok.2 hok.1
      refine ⟨h3, ?_⟩
      rw [← h2, ← List.append_assoc, List.append_assoc, List.filter_append, hkept, List.filter_append _ s1.uncalled])
    hrun
  have hnil : s'.uncalled.filter (fun c => c.1 = i) = [] := by
    rw [List.filter_eq_nil_iff]
    intro c hc hi
    have hi : c.1 = i := of_decide_eq_true hi
    rcases List.mem_append.mp hc with hc | hc
    · obtain ⟨a, ha, hcall⟩ := List.mem_filterMap.mp hc
      obtain ⟨ha, huncalled⟩ := List.mem_filter.mp ha
      obtain ⟨signal, htask⟩ := Task.eq_of_call hcall
      refine hnone c.2.1 c.2.2 signal (Or.inr ⟨a.phase, ?_, fun hdone => ?_⟩)
      · rw [← hi, ← htask]
        exact ha
      · rw [hdone] at huncalled
        cases huncalled
    · obtain ⟨p, hp, hcall⟩ := List.mem_filterMap.mp hc
      obtain ⟨signal, htask⟩ := Task.eq_of_call hcall
      refine hnone c.2.1 c.2.2 signal (Or.inl ⟨p.1, ?_⟩)
      rw [← hi, ← htask]
      exact hp
  have hfilter := hinv.2
  rw [List.filter_append, hnil, List.append_nil] at hfilter
  rw [lastCall, hfilter, ← hsame]
  exact hlast

end Runs

/-! ### Two pages -/

end LynxTrace.Ui
