import LynxTrace.Ui.QuerySlotRuns

/-!
# Ui.QuerySlotMoves — which query of a slot is the current one

`use` gives every query it schedules a new signal, so that a query is superseded when its signal is not the current one
of its slot.  In every run the pending key is that of the current query, in flight (`SignalInv`).  A superseded query
that ends for the key of the current one clears it, though; where none does, the current query has its key as the
pending one (`KeyInv`).
-/

namespace LynxTrace.Ui

variable {I K F V X : Type*}

/-! ### Queries in flight -/

/-- The task is queued or running. -/
def InFlight (s : System I K F V X) (task : Task I K F) : Prop :=
  (∃ i, (i, task) ∈ s.pending) ∨ ∃ phase, ⟨task, phase⟩ ∈ s.active ∧ phase ≠ .done

/-- A query of the slot for the key is queued or running, and `use` has scheduled none for the slot since. -/
def Unsuperseded (s : System I K F V X) (i : I) (key : K) : Prop :=
  ∃ queryFn signal, (s.slots i).currentSignal = some signal ∧ InFlight s (.query i key queryFn signal)

/-- The query that a step ends: its slot, key and signal. -/
def System.endsQuery (s : System I K F V X) : Step I K F V X → Option (I × K × ℕ)
  | .goesOn n =>
    match s.active[n]? with
    | some ⟨.query i key _ signal, .disposeThrew _⟩ => some (i, key, signal)
    | _ => none
  | .querySettles n _ =>
    match s.active[n]? with
    | some ⟨.query i key _ signal, .querying⟩ => some (i, key, signal)
    | _ => none
  | _ => none

/-- No superseded query ends while the pending key of its slot is, as a string, its own. -/
def EndsRight (ops : KeyOps K) (_ : List (I × K × F)) (s : System I K F V X) (l : Step I K F V X) : Prop :=
  ∀ i key signal, s.endsQuery l = some (i, key, signal) → (s.slots i).currentSignal = some signal ∨
    (s.slots i).pendingKey.map ops.stringify ≠ some (ops.stringify key)

/-- The `queryFn` that a step calls, with its slot and key. -/
def System.calls (s : System I K F V X) : Step I K F V X → List (I × K × F)
  | .goesOn n =>
    match s.active[n]? with
    | some ⟨.query i key queryFn _, .cacheDisposed⟩ => [(i, key, queryFn)]
    | _ => []
  | _ => []

/-! ### What a step can do -/

/-- Nothing differs that the invariants speak of but the active task and pending keys. -/
structure System.SameQueue (s s' : System I K F V X) : Prop where
  pending : s'.pending = s.pending
  nextSignal : s'.nextSignal = s.nextSignal
  currentSignal : ∀ i, (s'.slots i).currentSignal = (s.slots i).currentSignal
  disposed : ∀ i, (s'.slots i).disposed = (s.slots i).disposed

/-- Nothing differs that the invariants speak of but the active task. -/
structure System.SameKeys (s s' : System I K F V X) : Prop extends s.SameQueue s' where
  pendingKey : ∀ i, (s'.slots i).pendingKey = (s.slots i).pendingKey

/-- `disposeCache` has not yet settled, so that `queryFn` has not been called. -/
def Phase.isUncalled : Phase X → Bool
  | disposing _ => true
  | cacheDisposed => true
  | _ => false

section Moves

variable [DecidableEq I]

/-- The steps by what they do to the queue, with the calls of `queryFn`. -/
inductive Move (ops : KeyOps K) (s : System I K F V X) :
    Step I K F V X → System I K F V X → List (I × K × F) → Prop
  | stays {l} : Move ops s l s []
  | schedules {i key queryFn enabled retainOn} : (s.slots i).disposed = false →
      (s.slots i).mustQuery ops key enabled = true →
      Move ops s (.use i key queryFn enabled retainOn) (s.startQuery i key queryFn).1 []
  | disposes {i} : Move ops s (.dispose i) ((s.markDisposed i).schedule i (.dispose i)).1 []
  | disposed {n task resource s'} : s.active = [⟨task, .disposing resource⟩] → s'.active = [⟨task, .cacheDisposed⟩] →
      s.SameKeys s' → Move ops s (.disposeSettles n none) s' []
  | rejected {n task resource thrown s'} : s.active = [⟨task, .disposing resource⟩] →
      s'.active = [⟨task, .disposeThrew thrown⟩] → s.SameKeys s' → Move ops s (.disposeSettles n (some thrown)) s' []
  | lastTask {n i phase s'} : s.active = [⟨.dispose i, phase⟩] → s'.active = [⟨.dispose i, .done⟩] →
      s.SameKeys s' → Move ops s (.goesOn n) s' []
  | called {n i key queryFn signal s'} : s.active = [⟨.query i key queryFn signal, .cacheDisposed⟩] →
      s'.active = [⟨.query i key queryFn signal, .querying⟩] → s.SameKeys s' →
      Move ops s (.goesOn n) s' [(i, key, queryFn)]
  | ends {l i key queryFn signal phase s'} : s.active = [⟨.query i key queryFn signal, phase⟩] → phase ≠ .done →
      phase.isUncalled = false → s.endsQuery l = some (i, key, signal) →
      s'.active = [⟨.query i key queryFn signal, .done⟩] → s.SameQueue s' →
      (s'.slots i).pendingKey = ((s.slots i).clearPending ops key).pendingKey →
      (∀ j, j ≠ i → (s'.slots j).pendingKey = (s.slots j).pendingKey) → Move ops s l s' []
  | taskOver {n task} : s.active = [⟨task, .done⟩] →
      Move ops s (.ends n) { s with active := [], running := false }.runNext.1 []

variable {ops : KeyOps K} {trace : List (Event I K F V X)} {s s' : System I K F V X} {events : List (Event I K F V X)}

omit [DecidableEq I] in
theorem active_setPhase {a : ActiveTask I K F X} (h : s.active = [a]) (task : Task I K F) (phase : Phase X) :
    (s.setPhase 0 task phase).active = [⟨task, phase⟩] := by
  rw [System.setPhase, h]
  rfl

omit [DecidableEq I] in
theorem System.sameKeys_setPhase (n : ℕ) (task : Task I K F) (phase : Phase X) :
    s.SameKeys (s.setPhase n task phase) :=
  ⟨⟨rfl, rfl, fun _ => rfl, fun _ => rfl⟩, fun _ => rfl⟩

/-- A slot is written whose signal stays, and which is not disposed of by it. -/
theorem System.sameQueue_setSlot {i : I} {slot : QuerySlot K V X}
    (hcurrent : slot.currentSignal = (s.slots i).currentSignal) (hdisposed : slot.disposed = (s.slots i).disposed)
    (n : ℕ) (task : Task I K F) (phase : Phase X) : s.SameQueue ((s.setSlot i slot).setPhase n task phase) := by
  refine ⟨rfl, rfl, fun j => ?_, fun j => ?_⟩
  · by_cases hj : j = i
    · subst hj
      exact (congrArg QuerySlot.currentSignal (slots_setSlot_self s j slot)).trans hcurrent
    · exact congrArg QuerySlot.currentSignal (slots_setSlot_of_ne s hj slot)
  · by_cases hj : j = i
    · subst hj
      exact (congrArg QuerySlot.disposed (slots_setSlot_self s j slot)).trans hdisposed
    · exact congrArg QuerySlot.disposed (slots_setSlot_of_ne s hj slot)

/-- A query ends. -/
theorem Move.ofEnds {l : Step I K F V X} {i : I} {key : K} {queryFn : F} {signal : ℕ} {phase : Phase X}
    {slot : QuerySlot K V X} (hactive : s.active = [⟨.query i key queryFn signal, phase⟩]) (hphase : phase ≠ .done)
    (hcalled : phase.isUncalled = false) (hends : s.endsQuery l = some (i, key, signal))
    (hcurrent : slot.currentSignal = (s.slots i).currentSignal) (hdisposed : slot.disposed = (s.slots i).disposed)
    (hpending : slot.pendingKey = ((s.slots i).clearPending ops key).pendingKey) :
    Move ops s l ((s.setSlot i slot).setPhase 0 (.query i key queryFn signal) .done) [] := by
  refine Move.ends hactive hphase hcalled hends (active_setPhase (s := s.setSlot i slot) hactive _ _)
    (System.sameQueue_setSlot hcurrent hdisposed _ _ _) ?_ fun j hj => ?_
  · exact (congrArg QuerySlot.pendingKey (System.slots_setSlot_self s i slot)).trans hpending
  · exact congrArg QuerySlot.pendingKey (System.slots_setSlot_of_ne s hj slot)

/-- What `finaliseQuery` and `finaliseError` leave alone. -/
theorem finaliseThrown_keys (slot : QuerySlot K V X) (key : K) (thrown : Thrown X) :
    (slot.finaliseThrown ops key thrown).currentSignal = slot.currentSignal ∧
      (slot.finaliseThrown ops key thrown).pendingKey = (slot.clearPending ops key).pendingKey := by
  cases thrown <;> exact ⟨rfl, rfl⟩

/-- **Every step** does one of these. -/
theorem System.step_moves (hq : QueueInv ops trace s) {l : Step I K F V X}
    (hstep : s.step ops l = some (s', events)) : Move ops s l s' (s.calls l) := by
  cases l with
  | use i key queryFn enabled retainOn =>
    obtain ⟨rfl, rfl⟩ := Prod.mk.inj (Option.some.inj hstep)
    rcases System.use_cases ops s i key queryFn enabled retainOn with ⟨err, heq⟩ | ⟨hdisposed, -, heq⟩
    · rw [heq]
      exact .stays
    · rw [heq, System.use.query]
      by_cases hmust : (s.slots i).mustQuery ops key enabled = true
      · rw [if_pos hmust]
        exact .schedules hdisposed hmust
      · rw [if_neg hmust]
        exact .stays
  | dispose i =>
    obtain rfl : _ = s' := congrArg Prod.fst (Option.some.inj hstep)
    rw [System.dispose]
    split_ifs
    · exact .stays
    · exact .disposes
  | disposeSettles n thrown =>
    obtain ⟨task, resource, ha, rfl, rfl⟩ := System.step_disposeSettles hstep
    obtain ⟨rfl, hactive, -⟩ := hq.active_eq ha
    cases thrown with
    | none =>
      have hsame : s.SameQueue (s.disposeSettled 0 task none) :=
        @System.sameQueue_setSlot I K F V X _ s task.slot { s.slots task.slot with cache := none } rfl rfl 0 task
          .cacheDisposed
      refine .disposed hactive (active_setPhase (s := s.setSlot _ _) hactive _ _) ⟨hsame, fun j => ?_⟩
      by_cases hj : j = task.slot
      · subst hj
        exact (congrArg QuerySlot.pendingKey
          (System.slots_setSlot_self s task.slot { s.slots task.slot with cache := none })).trans rfl
      · exact congrArg QuerySlot.pendingKey (System.slots_setSlot_of_ne s hj _)
    | some thrown => exact .rejected hactive (active_setPhase hactive _ _) (System.sameKeys_setPhase _ _ _)
  | goesOn n =>
    rcases System.step_goesOn hstep with ⟨task, ha, rfl, rfl⟩ | ⟨task, thrown, ha, rfl, rfl⟩
    · obtain ⟨rfl, hactive, -⟩ := hq.active_eq ha
      cases task with
      | query i key queryFn signal =>
        have hcalls : s.calls (.goesOn 0) = [(i, key, queryFn)] := by rw [System.calls, ha]
        rw [hcalls]
        exact .called hactive (active_setPhase hactive _ _) (System.sameKeys_setPhase _ _ _)
      | dispose i =>
        have hcalls : s.calls (.goesOn 0) = [] := by rw [System.calls, ha]
        rw [hcalls]
        exact .lastTask hactive (active_setPhase hactive _ _) (System.sameKeys_setPhase _ _ _)
    · obtain ⟨rfl, hactive, -⟩ := hq.active_eq ha
      have hcalls : s.calls (.goesOn 0) = [] := by
        rw [System.calls, ha]
        cases task <;> rfl
      rw [hcalls]
      cases task with
      | query i key queryFn signal =>
        obtain ⟨hcurrent, hpending⟩ := @finaliseThrown_keys K V X ops (s.slots i) key thrown
        refine Move.ofEnds hactive (by simp) rfl ?_ hcurrent (disposed_finaliseThrown ..) hpending
        rw [System.endsQuery, ha]
      | dispose i => exact .lastTask hactive (active_setPhase hactive _ _) (System.sameKeys_setPhase _ _ _)
  | querySettles n outcome =>
    obtain ⟨i, key, queryFn, signal, ha, h1⟩ := System.step_querySettles hstep
    obtain ⟨rfl, hactive, -⟩ := hq.active_eq ha
    obtain rfl : _ = s' := congrArg Prod.fst h1
    have hends : s.endsQuery (.querySettles 0 outcome) = some (i, key, signal) := by rw [System.endsQuery, ha]
    cases outcome with
    | resolved data | queryCancelled => exact Move.ofEnds hactive (by simp) rfl hends rfl rfl rfl
    | rejected thrown =>
      obtain ⟨hcurrent, hpending⟩ := @finaliseThrown_keys K V X ops (s.slots i) key thrown
      exact Move.ofEnds hactive (by simp) rfl hends hcurrent (disposed_finaliseThrown ..) hpending
  | ends n =>
    obtain ⟨task, ha, h1⟩ := System.step_ends hstep
    obtain ⟨rfl, hactive, -⟩ := hq.active_eq ha
    obtain rfl : _ = s' := congrArg Prod.fst h1
    have hnil : s.active.eraseIdx 0 = [] := by rw [hactive]; rfl
    rw [hnil]
    exact .taskOver hactive

end Moves

/-! ### The pending key in every run -/

/-- Signals tell how queries follow each other; the pending key is that of the current one, in flight. -/
structure SignalInv (s : System I K F V X) : Prop where
  current : ∀ {i signal}, (s.slots i).currentSignal = some signal → signal < s.nextSignal
  queued : ∀ {j i key queryFn signal}, (j, .query i key queryFn signal) ∈ s.pending →
    (s.slots i).currentSignal = some signal
  older : ∀ {i key queryFn signal phase}, ⟨.query i key queryFn signal, phase⟩ ∈ s.active → signal < s.nextSignal ∧
    ∀ {j key' queryFn' signal'}, (j, .query i key' queryFn' signal') ∈ s.pending → signal < signal'
  pendingKey : ∀ {i key}, (s.slots i).pendingKey = some key → Unsuperseded s i key

/-- In runs in which no superseded query clears the pending key: the current query is that of the pending key. -/
structure KeyInv (s : System I K F V X) : Prop where
  queued : ∀ {j i key queryFn signal}, (j, .query i key queryFn signal) ∈ s.pending →
    (s.slots i).pendingKey = some key
  running : ∀ {i key queryFn signal phase}, ⟨.query i key queryFn signal, phase⟩ ∈ s.active → phase ≠ .done →
    (s.slots i).disposed = false → (s.slots i).currentSignal = some signal → (s.slots i).pendingKey = some key

theorem SignalInv.init : SignalInv (System.init : System I K F V X) where
  current := nofun
  queued h := absurd h List.not_mem_nil
  older h := absurd h List.not_mem_nil
  pendingKey := nofun

theorem KeyInv.init : KeyInv (System.init : System I K F V X) where
  queued h := absurd h List.not_mem_nil
  running h := absurd h List.not_mem_nil

section Invariants

variable {trace : List (Event I K F V X)} {s s' : System I K F V X} {task : Task I K F} {phase phase' : Phase X}

/-- The active task goes on, and is not done if it is a query. -/
theorem SignalInv.goOn (h : SignalInv s) (hactive : s.active = [⟨task, phase⟩])
    (hactive' : s'.active = [⟨task, phase'⟩]) (hkeys : s.SameKeys s')
    (hphase : phase' = .done → ∃ i, task = .dispose i) : SignalInv s' where
  current hc := hkeys.nextSignal ▸ h.current (hkeys.currentSignal _ ▸ hc)
  queued hp := (hkeys.currentSignal _).trans (h.queued (hkeys.pending ▸ hp))
  older ha := by
    rw [hactive'] at ha
    obtain ⟨rfl, -⟩ := ActiveTask.mk.inj (List.mem_singleton.mp ha)
    rw [hkeys.nextSignal, hkeys.pending]
    exact h.older (hactive ▸ List.mem_singleton_self _)
  pendingKey hp := by
    obtain ⟨queryFn, signal, hcurrent, hflight⟩ := h.pendingKey (hkeys.pendingKey _ ▸ hp)
    refine ⟨queryFn, signal, (hkeys.currentSignal _).trans hcurrent, ?_⟩
    rcases hflight with hpending | ⟨phase0, ha, -⟩
    · exact Or.inl (hkeys.pending ▸ hpending)
    · rw [hactive] at ha
      obtain ⟨rfl, -⟩ := ActiveTask.mk.inj (List.mem_singleton.mp ha)
      refine Or.inr ⟨phase', hactive' ▸ List.mem_singleton_self _, fun hdone => ?_⟩
      obtain ⟨i, hi⟩ := hphase hdone
      cases hi

theorem KeyInv.goOn (h : KeyInv s) (hactive : s.active = [⟨task, phase⟩]) (hactive' : s'.active = [⟨task, phase'⟩])
    (hkeys : s.SameKeys s') (hphase : phase ≠ .done ∨ ∃ i, task = .dispose i) : KeyInv s' where
  queued hp := (hkeys.pendingKey _).trans (h.queued (hkeys.pending ▸ hp))
  running ha _ hdisposed hcurrent := by
    rw [hactive'] at ha
    obtain ⟨rfl, -⟩ := ActiveTask.mk.inj (List.mem_singleton.mp ha)
    rw [hkeys.pendingKey]
    refine h.running (hactive ▸ List.mem_singleton_self _) ?_ (hkeys.disposed _ ▸ hdisposed)
      (hkeys.currentSignal _ ▸ hcurrent)
    rcases hphase with hphase | ⟨i, hi⟩
    · exact hphase
    · cases hi

section Ends

variable {i : I} {key : K} {queryFn : F} {signal : ℕ} {ops : KeyOps K}

/-- A query ends, and clears the pending key if it is its own. -/
theorem SignalInv.queryEnds (h : SignalInv s) (hactive : s.active = [⟨.query i key queryFn signal, phase⟩])
    (hactive' : s'.active = [⟨.query i key queryFn signal, .done⟩]) (hqueue : s.SameQueue s')
    (hkey : (s'.slots i).pendingKey = ((s.slots i).clearPending ops key).pendingKey)
    (hother : ∀ j, j ≠ i → (s'.slots j).pendingKey = (s.slots j).pendingKey) : SignalInv s' where
  current hc := hqueue.nextSignal ▸ h.current (hqueue.currentSignal _ ▸ hc)
  queued hp := (hqueue.currentSignal _).trans (h.queued (hqueue.pending ▸ hp))
  older ha := by
    rw [hactive'] at ha
    obtain ⟨hquery, -⟩ := ActiveTask.mk.inj (List.mem_singleton.mp ha)
    cases hquery
    rw [hqueue.nextSignal, hqueue.pending]
    exact h.older (hactive ▸ List.mem_singleton_self _)
  pendingKey {j key'} hp := by
    have hold : (s.slots j).pendingKey = some key' ∧ (j = i → ops.stringify key' ≠ ops.stringify key) := by
      by_cases hj : j = i
      · subst hj
        rw [hkey, QuerySlot.clearPending] at hp
        dsimp only at hp
        split_ifs at hp with hsame
        refine ⟨hp, fun _ heq => hsame ?_⟩
        rw [hp, Option.map_some, heq]
      · exact ⟨(hother j hj).symm.trans hp, fun heq => absurd heq hj⟩
    obtain ⟨queryFn', signal', hcurrent, hflight⟩ := h.pendingKey hold.1
    refine ⟨queryFn', signal', (hqueue.currentSignal j).trans hcurrent, ?_⟩
    rcases hflight with hpending | ⟨phase0, ha, -⟩
    · exact Or.inl (hqueue.pending ▸ hpending)
    · -- the query that ends is not that of the pending key
      rw [hactive] at ha
      obtain ⟨hquery, -⟩ := ActiveTask.mk.inj (List.mem_singleton.mp ha)
      cases hquery
      exact absurd rfl (hold.2 rfl)

/-- The pending key stays, unless the query is the current one. -/
theorem KeyInv.queryEnds (h : KeyInv s) (hs : SignalInv s) (hactive : s.active = [⟨.query i key queryFn signal, phase⟩])
    (hactive' : s'.active = [⟨.query i key queryFn signal, .done⟩]) (hqueue : s.SameQueue s')
    (hkey : (s'.slots i).pendingKey = ((s.slots i).clearPending ops key).pendingKey)
    (hother : ∀ j, j ≠ i → (s'.slots j).pendingKey = (s.slots j).pendingKey)
    (hright : (s.slots i).currentSignal = some signal ∨
      (s.slots i).pendingKey.map ops.stringify ≠ some (ops.stringify key)) : KeyInv s' where
  queued {j i' key' queryFn' signal'} hp := by
    rw [hqueue.pending] at hp
    by_cases hi : i' = i
    · subst hi
      rcases hright with hcurrent | hne
      · have hlt := (hs.older (hactive ▸ List.mem_singleton_self _)).2 hp
        have heq := Option.some.inj (hcurrent.symm.trans (hs.queued hp))
        exact absurd heq (Nat.ne_of_lt hlt)
      · rw [hkey, QuerySlot.clearPending]
        dsimp only
        rw [if_neg hne]
        exact h.queued hp
    · exact (hother i' hi).trans (h.queued hp)
  running ha hphase := by
    rw [hactive'] at ha
    obtain ⟨-, rfl⟩ := ActiveTask.mk.inj (List.mem_singleton.mp ha)
    exact absurd rfl hphase

end Ends

/-! ### The queue moves on -/

variable {ops : KeyOps K}

theorem QueueInv.idle (hq : QueueInv ops trace s) (hrunning : s.running = false) : s.active = [] := by
  rcases hq.serial with ⟨hnil, -⟩ | ⟨a, -, hrun⟩
  · exact hnil
  · cases hrunning.symm.trans hrun

theorem QueueInv.taskOver (hq : QueueInv ops trace s) {a : ActiveTask I K F X} (hactive : s.active = [a]) :
    QueueInv ops trace { s with active := [], running := false } := by
  have ha : s.active[0]? = some a := by rw [hactive]; rfl
  have hnil : s.active.eraseIdx 0 = [] := by rw [hactive]; rfl
  have hend := hq.end ha
  rwa [hnil] at hend

theorem QuerySlot.disposeCache_ne_done (slot : QuerySlot K V X) : slot.disposeCache ≠ .done := by
  rcases slot.disposeCache_cases with h | ⟨resource, h⟩ <;> rw [h] <;> nofun

theorem SignalInv.runNext (h : SignalInv s) (hq : QueueInv ops trace s) : SignalInv s.runNext.1 := by
  rcases s.runNext_cases with ⟨-, heq⟩ | ⟨j, task, pending, hrunning, hp, heq⟩
  · rw [heq]
    exact h
  rw [heq]
  have hactive : (s.started task pending).active = [⟨task, (s.slots task.slot).disposeCache⟩] := by
    rw [System.started, hq.idle hrunning]
    rfl
  have hmem : (j, task) ∈ s.pending := hp ▸ List.mem_cons_self
  have hrest : ∀ p ∈ pending, p ∈ s.pending := fun p hp' => hp ▸ List.mem_cons_of_mem _ hp'
  constructor
  case current => exact h.current
  case queued => exact fun hp' => h.queued (hrest _ hp')
  case older =>
    intro i key queryFn signal phase ha
    rw [hactive] at ha
    obtain ⟨rfl, -⟩ := ActiveTask.mk.inj (List.mem_singleton.mp ha)
    refine ⟨h.current (h.queued hmem), fun {j' key' queryFn' signal'} hp' => ?_⟩
    -- no other task of the slot waits
    have hnodup := hq.nodup
    rw [hp, List.map_cons, List.nodup_cons] at hnodup
    have hj := (hq.pending _ hmem).1
    have hj' := (hq.pending _ (hrest _ hp')).1
    exact absurd (List.mem_map.mpr ⟨_, hp', hj'.symm.trans hj⟩) hnodup.1
  case pendingKey =>
    intro i key hkey
    obtain ⟨queryFn, signal, hcurrent, hflight⟩ := h.pendingKey hkey
    refine ⟨queryFn, signal, hcurrent, ?_⟩
    rcases hflight with ⟨j', hp'⟩ | ⟨phase, ha, -⟩
    · rw [hp] at hp'
      rcases List.mem_cons.mp hp' with heq' | hp'
      · obtain ⟨-, rfl⟩ := Prod.mk.inj heq'
        exact Or.inr ⟨_, hactive ▸ List.mem_singleton_self _, QuerySlot.disposeCache_ne_done _⟩
      · exact Or.inl ⟨j', hp'⟩
    · rw [hq.idle hrunning] at ha
      cases ha

theorem KeyInv.runNext (h : KeyInv s) (hq : QueueInv ops trace s) : KeyInv s.runNext.1 := by
  rcases s.runNext_cases with ⟨-, heq⟩ | ⟨j, task, pending, hrunning, hp, heq⟩
  · rw [heq]
    exact h
  rw [heq]
  constructor
  case queued => exact fun hp' => h.queued (hp ▸ List.mem_cons_of_mem _ hp')
  case running =>
    intro i key queryFn signal phase ha _ _ _
    rw [System.started, hq.idle hrunning] at ha
    obtain ⟨rfl, -⟩ := ActiveTask.mk.inj (List.mem_singleton.mp ha)
    exact h.queued (hp ▸ List.mem_cons_self)

/-- The active task is over. -/
theorem SignalInv.taskOver (h : SignalInv s) (hactive : s.active = [⟨task, .done⟩]) :
    SignalInv { s with active := [], running := false } where
  current := h.current
  queued := h.queued
  older ha := absurd ha List.not_mem_nil
  pendingKey hp := by
    obtain ⟨queryFn, signal, hcurrent, hflight⟩ := h.pendingKey hp
    refine ⟨queryFn, signal, hcurrent, ?_⟩
    rcases hflight with hpending | ⟨phase, ha, hphase⟩
    · exact Or.inl hpending
    · rw [hactive] at ha
      exact absurd (ActiveTask.mk.inj (List.mem_singleton.mp ha)).2 hphase

theorem KeyInv.taskOver (h : KeyInv s) : KeyInv { s with active := [], running := false } where
  queued := h.queued
  running ha := absurd ha List.not_mem_nil

/-- A call of `use` or `dispose` replaces what waits for its slot. -/
structure Rescheduled (s s' : System I K F V X) (i : I) : Prop where
  active : s'.active = s.active
  nextSignal : s.nextSignal ≤ s'.nextSignal
  slots : ∀ j, j ≠ i → s'.slots j = s.slots j
  kept : ∀ p ∈ s.pending, p.1 ≠ i → p ∈ s'.pending
  others : ∀ p ∈ s'.pending, p.1 ≠ i → p ∈ s.pending

theorem SignalInv.reschedule (h : SignalInv s) (hq : QueueInv ops trace s) (hq' : QueueInv ops trace s') {i : I}
    (hs : Rescheduled s s' i)
    (hcurrent : ∀ signal, (s'.slots i).currentSignal = some signal → signal < s'.nextSignal)
    (hqueued : ∀ j key queryFn signal, (j, .query i key queryFn signal) ∈ s'.pending →
      (s'.slots i).currentSignal = some signal ∧ s.nextSignal ≤ signal)
    (hkey : ∀ key, (s'.slots i).pendingKey = some key → Unsuperseded s' i key) : SignalInv s' := by
  constructor
  case current =>
    intro j signal hc
    by_cases hj : j = i
    · subst hj
      exact hcurrent signal hc
    · rw [hs.slots j hj] at hc
      exact Nat.lt_of_lt_of_le (h.current hc) hs.nextSignal
  case queued =>
    intro j i' key queryFn signal hp
    by_cases hi : i' = i
    · subst hi
      exact (hqueued j key queryFn signal hp).1
    · rw [hs.slots i' hi]
      exact h.queued (hs.others _ hp ((hq'.pending _ hp).1 ▸ hi))
  case older =>
    intro i' key queryFn signal phase ha
    obtain ⟨hlt, hold⟩ := h.older (hs.active ▸ ha)
    refine ⟨Nat.lt_of_lt_of_le hlt hs.nextSignal, fun {j key' queryFn' signal'} hp => ?_⟩
    by_cases hi : i' = i
    · subst hi
      exact Nat.lt_of_lt_of_le hlt (hqueued j key' queryFn' signal' hp).2
    · exact hold (hs.others _ hp ((hq'.pending _ hp).1 ▸ hi))
  case pendingKey =>
    intro j key hp
    by_cases hj : j = i
    · subst hj
      exact hkey key hp
    · rw [hs.slots j hj] at hp
      obtain ⟨queryFn, signal, hcur, hflight⟩ := h.pendingKey hp
      refine ⟨queryFn, signal, hs.slots j hj ▸ hcur, ?_⟩
      rcases hflight with ⟨j', hp'⟩ | ⟨phase, ha, hphase⟩
      · exact Or.inl ⟨j', hs.kept _ hp' ((hq.pending _ hp').1 ▸ hj)⟩
      · exact Or.inr ⟨phase, hs.active ▸ ha, hphase⟩

theorem KeyInv.reschedule (h : KeyInv s) (hq' : QueueInv ops trace s') {i : I} (hs : Rescheduled s s' i)
    (hqueued : ∀ j key queryFn signal, (j, .query i key queryFn signal) ∈ s'.pending →
      (s'.slots i).pendingKey = some key)
    (hrunning : ∀ key queryFn signal phase, ⟨.query i key queryFn signal, phase⟩ ∈ s.active →
      (s'.slots i).disposed = false → (s'.slots i).currentSignal ≠ some signal) : KeyInv s' := by
  constructor
  case queued =>
    intro j i' key queryFn signal hp
    by_cases hi : i' = i
    · subst hi
      exact hqueued j key queryFn signal hp
    · rw [hs.slots i' hi]
      exact h.queued (hs.others _ hp ((hq'.pending _ hp).1 ▸ hi))
  case running =>
    intro i' key queryFn signal phase ha hphase hdisposed hcurrent
    rw [hs.active] at ha
    by_cases hi : i' = i
    · subst hi
      exact absurd hcurrent (hrunning key queryFn signal phase ha hdisposed)
    · rw [hs.slots i' hi] at hdisposed hcurrent ⊢
      exact h.running ha hphase hdisposed hcurrent

section Calls

variable [DecidableEq I]

/-- What `use` writes before it schedules a query. -/
theorem System.startQuery_signal (s : System I K F V X) (i : I) (key : K) (queryFn : F) :
    ∃ s1, s.SameCaches s1 ∧ s.startQuery i key queryFn = s1.schedule i (.query i key queryFn s.nextSignal) ∧
      s1.nextSignal = s.nextSignal + 1 ∧
      s1.slots = Function.update s.slots i
        { s.slots i with currentSignal := some s.nextSignal, pendingKey := some key } := by
  have hcancel : (s.cancelSignal i).nextSignal = s.nextSignal ∧ (s.cancelSignal i).slots = s.slots := by
    unfold cancelSignal
    split <;> exact ⟨rfl, rfl⟩
  have h1 := sameCaches_cancelSignal s i
  let s0 : System I K F V X := { s.cancelSignal i with nextSignal := s.nextSignal + 1 }
  have h2 : SameCaches (s.cancelSignal i) s0 := ⟨rfl, rfl, rfl, fun _ => rfl, fun _ => rfl⟩
  refine ⟨s0.setSlot i { s0.slots i with currentSignal := some s.nextSignal, pendingKey := some key },
    (h1.trans h2).trans (SameCaches.setSlot rfl rfl), ?_, ?_, ?_⟩
  · rw [startQuery, hcancel.1]
  · rfl
  · show Function.update (s.cancelSignal i).slots i { (s.cancelSignal i).slots i with
      currentSignal := some s.nextSignal, pendingKey := some key } = _
    rw [hcancel.2]

theorem mem_setPending_iff_of_ne {i : I} {task : Task I K F} {pending : List (I × Task I K F)}
    (hnodup : (pending.map Prod.fst).Nodup) {p : I × Task I K F} (hp : p.1 ≠ i) :
    p ∈ setPending i task pending ↔ p ∈ pending := by
  constructor
  · intro h
    rcases mem_setPending hnodup h with rfl | ⟨h, -⟩
    · exact absurd rfl hp
    · exact h
  · exact fun h => mem_setPending_of_ne h hp

/-- **A query is scheduled.** -/
theorem SignalInv.startQuery (h : SignalInv s) (hq : QueueInv ops trace s) (i : I) (key : K) (queryFn : F) :
    SignalInv (s.startQuery i key queryFn).1 ∧ (KeyInv s → KeyInv (s.startQuery i key queryFn).1) := by
  obtain ⟨s1, hcaches, heq, hnext, hslots⟩ := System.startQuery_signal s i key queryFn
  have hsub := List.subset_append_left trace [.used i key queryFn]
  have hused : Event.used i key queryFn ∈ trace ++ [.used i key queryFn] :=
    List.mem_append_right _ (List.mem_singleton_self _)
  have hq0 := hq.mono hsub
  have hq2 : QueueInv ops (trace ++ [.used i key queryFn])
      { s1 with pending := setPending i (.query i key queryFn s.nextSignal) s1.pending } :=
    (hq0.sameCaches hcaches).setPending rfl hused
  have hself : s1.slots i = { s.slots i with currentSignal := some s.nextSignal, pendingKey := some key } := by
    rw [hslots, Function.update_self]
  have hs : Rescheduled s { s1 with pending := setPending i (.query i key queryFn s.nextSignal) s1.pending } i := by
    refine ⟨hcaches.active, ?_, ?_, ?_, ?_⟩
    · exact hnext ▸ Nat.le_succ _
    · intro j hj
      exact (congrFun hslots j).trans (Function.update_of_ne hj _ _)
    · intro p hp hne
      exact mem_setPending_of_ne (hcaches.pending ▸ hp) hne
    · intro p hp hne
      exact hcaches.pending ▸ (mem_setPending_iff_of_ne (hcaches.pending ▸ hq.nodup) hne).mp hp
  have hnew : ∀ j key' queryFn' signal',
      (j, .query i key' queryFn' signal') ∈ setPending i (.query i key queryFn s.nextSignal) s1.pending →
        key' = key ∧ signal' = s.nextSignal := by
    intro j key' queryFn' signal' hp
    rcases mem_setPending (hcaches.pending ▸ hq.nodup) hp with heq' | ⟨hp', hne⟩
    · obtain ⟨-, hquery⟩ := Prod.mk.inj heq'
      cases hquery
      exact ⟨rfl, rfl⟩
    · exact absurd (hq2.pending _ hp).1.symm hne
  rw [heq]
  constructor
  · refine (h.reschedule hq0 hq2 hs ?_ ?_ ?_).runNext hq2
    · intro signal hc
      obtain rfl : s.nextSignal = signal := Option.some.inj ((congrArg QuerySlot.currentSignal hself).symm.trans hc)
      exact hnext ▸ Nat.lt_succ_self _
    · intro j key' queryFn' signal' hp
      obtain ⟨-, rfl⟩ := hnew j key' queryFn' signal' hp
      exact ⟨congrArg QuerySlot.currentSignal hself, Nat.le_refl _⟩
    · intro key' hkey
      obtain rfl : key = key' := Option.some.inj ((congrArg QuerySlot.pendingKey hself).symm.trans hkey)
      exact ⟨queryFn, s.nextSignal, congrArg QuerySlot.currentSignal hself, Or.inl ⟨i, mem_setPending_self⟩⟩
  · intro hkeys
    refine (hkeys.reschedule hq2 hs ?_ ?_).runNext hq2
    · intro j key' queryFn' signal' hp
      obtain ⟨rfl, -⟩ := hnew j key' queryFn' signal' hp
      exact congrArg QuerySlot.pendingKey hself
    · intro key' queryFn' signal' phase ha _ hc
      have hlt := (h.older ha).1
      obtain rfl : s.nextSignal = signal' := Option.some.inj ((congrArg QuerySlot.currentSignal hself).symm.trans hc)
      exact absurd hlt (Nat.lt_irrefl _)

/-- **A slot is disposed of.** -/
theorem SignalInv.dispose (h : SignalInv s) (hq : QueueInv ops trace s) (i : I) :
    SignalInv ((s.markDisposed i).schedule i (.dispose i)).1 ∧
      (KeyInv s → KeyInv ((s.markDisposed i).schedule i (.dispose i)).1) := by
  have hq1 := hq.markDisposed i
  have hq2 : QueueInv ops trace
      { s.markDisposed i with pending := setPending i (.dispose i) (s.markDisposed i).pending } :=
    hq1.setPending rfl trivial
  have hself : (s.markDisposed i).slots i = { s.slots i with disposed := true, pendingKey := none } := by
    simp [System.markDisposed, System.cancel]
  have hpending : ∀ p : I × Task I K F, p.1 ≠ i → (p ∈ (s.markDisposed i).pending ↔ p ∈ s.pending) := by
    intro p hp
    simp [System.markDisposed, System.cancel, System.setSlot, hp]
  have hs : Rescheduled s
      { s.markDisposed i with pending := setPending i (.dispose i) (s.markDisposed i).pending } i := by
    refine ⟨rfl, Nat.le_refl _, ?_, ?_, ?_⟩
    · intro j hj
      simp [System.markDisposed, System.cancel, System.slots_setSlot_of_ne, hj]
    · intro p hp hne
      exact mem_setPending_of_ne ((hpending p hne).mpr hp) hne
    · intro p hp hne
      exact (hpending p hne).mp ((mem_setPending_iff_of_ne hq1.nodup hne).mp hp)
  have hnew : ∀ j key' queryFn' signal',
      (j, .query i key' queryFn' signal') ∉ setPending i (.dispose i) (s.markDisposed i).pending := by
    intro j key' queryFn' signal' hp
    rcases mem_setPending hq1.nodup hp with heq' | ⟨hp', hne⟩
    · cases (Prod.mk.inj heq').2
    · exact hne (hq2.pending _ hp).1.symm
  constructor
  · refine (h.reschedule hq hq2 hs ?_ ?_ ?_).runNext hq2
    · intro signal hc
      exact h.current ((congrArg QuerySlot.currentSignal hself).symm.trans hc)
    · exact fun j key' queryFn' signal' hp => absurd hp (hnew j key' queryFn' signal')
    · intro key' hkey
      cases (congrArg QuerySlot.pendingKey hself).symm.trans hkey
  · intro hkeys
    refine (hkeys.reschedule hq2 hs ?_ ?_).runNext hq2
    · exact fun j key' queryFn' signal' hp => absurd hp (hnew j key' queryFn' signal')
    · intro key' queryFn' signal' phase ha hdisposed
      cases (congrArg QuerySlot.disposed hself).symm.trans hdisposed

/-- **A step keeps the signals in order.** -/
theorem SignalInv.move (h : SignalInv s) (hq : QueueInv ops trace s) {l : Step I K F V X} {calls : List (I × K × F)}
    (hmove : Move ops s l s' calls) : SignalInv s' := by
  cases hmove with
  | stays => exact h
  | schedules hdisposed hmust => exact (h.startQuery hq _ _ _).1
  | disposes => exact (h.dispose hq _).1
  | disposed hactive hactive' hkeys | rejected hactive hactive' hkeys | called hactive hactive' hkeys =>
    exact h.goOn hactive hactive' hkeys nofun
  | lastTask hactive hactive' hkeys => exact h.goOn hactive hactive' hkeys fun _ => ⟨_, rfl⟩
  | ends hactive hphase hcalled hends hactive' hqueue hkey hother =>
    exact h.queryEnds hactive hactive' hqueue hkey hother
  | taskOver hactive => exact (h.taskOver hactive).runNext (hq.taskOver hactive)

/-- **A step keeps the pending key that of the current query**, unless a superseded one ends. -/
theorem KeyInv.move (h : KeyInv s) (hs : SignalInv s) (hq : QueueInv ops trace s) {l : Step I K F V X}
    {calls before : List (I × K × F)} (hmove : Move ops s l s' calls) (hright : EndsRight ops before s l) :
    KeyInv s' := by
  cases hmove with
  | stays => exact h
  | schedules hdisposed hmust => exact (hs.startQuery hq _ _ _).2 h
  | disposes => exact (hs.dispose hq _).2 h
  | disposed hactive hactive' hkeys | rejected hactive hactive' hkeys | called hactive hactive' hkeys =>
    exact h.goOn hactive hactive' hkeys (Or.inl nofun)
  | lastTask hactive hactive' hkeys => exact h.goOn hactive hactive' hkeys (Or.inr ⟨_, rfl⟩)
  | ends hactive hphase hcalled hends hactive' hqueue hkey hother =>
    exact h.queryEnds hs hactive hactive' hqueue hkey hother (hright _ _ _ hends)
  | taskOver hactive => exact h.taskOver.runNext (hq.taskOver hactive)

end Calls

end Invariants

end LynxTrace.Ui
