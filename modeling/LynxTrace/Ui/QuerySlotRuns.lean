import LynxTrace.Ui.QuerySlotSafety

/-!
# Ui.QuerySlotRuns — the slots of a queue over whole runs

`disposeCache` clears the cache only when `asyncDispose` has resolved.  Until then `use` may return the resource, and
if it rejects the resource stays, to be disposed of again.  In the runs in which neither happens every resource is
disposed of exactly once and not returned afterwards (`run_querySlotSafe`).
-/

namespace LynxTrace.Ui

variable {I K F V X : Type*} [DecidableEq I]

/-! ### Steps that schedule -/

namespace ResourceInv

variable {ops : KeyOps K} {trace : List (Event I K F V X)} {s s' : System I K F V X}

omit [DecidableEq I] in
/-- Another task waits for a slot that has not been disposed of; if it is now, its last task waits. -/
theorem reschedule (h : ResourceInv trace s) {i : I} (hi : (s.slots i).disposed = false)
    (hactive : s'.active = s.active) (hholds : ∀ j r, (s'.slots j).Holds r ↔ (s.slots j).Holds r)
    (hdisposed : ∀ j, j ≠ i → (s'.slots j).disposed = (s.slots j).disposed)
    (hpending : ∀ p, p.1 ≠ i → (p ∈ s'.pending ↔ p ∈ s.pending))
    (hlast : ∀ j, (i, .dispose j) ∈ s'.pending → (s'.slots i).disposed = true)
    (hnew : (s'.slots i).disposed = true → (i, .dispose i) ∈ s'.pending) : ResourceInv trace s' := by
  have hnot : ∀ {P : Prop}, (s.slots i).disposed = true → P := by
    intro P h1
    rw [hi] at h1
    cases h1
  have hspent : ∀ j, Spent s' j ↔ Spent s j := by
    intro j
    by_cases hj : j = i
    · subst hj
      exact ⟨fun h1 => absurd rfl (h1.2.1 _ (hnew h1.1)), fun h1 => hnot h1.1⟩
    · rw [Spent, Spent, hdisposed j hj, hactive]
      refine and_congr_right fun _ => and_congr_left fun _ => ?_
      constructor
      · intro h1 p h2 h3
        exact h1 p ((hpending p (h3 ▸ hj)).mpr h2) h3
      · intro h1 p h2 h3
        exact h1 p ((hpending p (h3 ▸ hj)).mp h2) h3
  have hbegun : ∀ j, Begun s' j ↔ Begun s j := by
    intro j
    rw [Begun, Begun, hspent, hactive]
  constructor
  case owner => exact h.owner
  case unresolved => exact h.unresolved
  case begun => exact fun h1 h2 => h.begun ((hholds _ _).mp h1) ((hbegun _).mp h2)
  case held => exact fun h1 h2 => h.held ((hholds _ _).mp h1) (mt (hbegun _).mpr h2)
  case gone => exact fun h1 h2 => h.gone h1 (mt (hholds _ _).mpr h2)
  case disposing => exact fun h1 h2 => (hholds _ _).mpr (h.disposing (hactive ▸ h1) h2)
  case cleared => exact fun h1 h2 => mt (hholds _ _).mp (h.cleared (hactive ▸ h1) h2)
  case threw => exact fun h1 h2 => h.threw (hactive ▸ h1) h2
  case lastTask =>
    intro a j h1 h2
    obtain ⟨h3, h4⟩ := h.lastTask (hactive ▸ h1) h2
    have hj : j ≠ i := by
      rintro rfl
      exact hnot h3
    refine ⟨(hdisposed j hj).trans h3, ?_⟩
    intro p h5 h6
    exact h4 p ((hpending p (h6 ▸ hj)).mp h5) h6
  case pendingLast =>
    intro k j h1
    by_cases hk : k = i
    · subst hk
      exact hlast j h1
    · rw [hdisposed k hk]
      exact h.pendingLast ((hpending _ hk).mp h1)
  case ending =>
    intro j h1
    by_cases hj : j = i
    · subst hj
      exact Or.inl (hnew h1)
    · rw [hdisposed j hj] at h1
      rw [hspent, hpending _ hj]
      exact h.ending h1

theorem startQuery (h : ResourceInv trace s) (hq : QueueInv ops trace s) {i : I} {key : K} {queryFn : F}
    (hused : .used i key queryFn ∈ trace) (hi : (s.slots i).disposed = false) :
    ResourceInv (trace ++ (s.startQuery i key queryFn).2) (s.startQuery i key queryFn).1 := by
  obtain ⟨s1, signal, hs, heq⟩ := System.startQuery_eq s i key queryFn
  have hq1 := hq.sameCaches hs
  have hi1 : (s1.slots i).disposed = false := (hs.disposed i).trans hi
  rw [heq]
  refine ResourceInv.runNext ?_ (hq1.setPending rfl hused)
  refine (h.sameCaches hs).reschedule hi1 rfl (fun _ _ => Iff.rfl) (fun _ _ => rfl) ?_ ?_ ?_
  · intro p hp
    constructor
    · intro h1
      rcases mem_setPending hq1.nodup h1 with rfl | ⟨h2, -⟩
      · exact absurd rfl hp
      · exact h2
    · exact fun h1 => mem_setPending_of_ne h1 hp
  · intro j h1
    rcases mem_setPending hq1.nodup h1 with h2 | ⟨-, h2⟩
    · cases (Prod.mk.inj h2).2
    · exact absurd rfl h2
  · intro h1
    cases hi1.symm.trans h1

theorem dispose (h : ResourceInv trace s) (hq : QueueInv ops trace s) (i : I) :
    ResourceInv (trace ++ (s.dispose i).2) (s.dispose i).1 := by
  unfold System.dispose
  split_ifs with hi
  · rw [List.append_nil]
    exact h
  · rw [Bool.not_eq_true] at hi
    have hq1 := hq.markDisposed i
    have hslots : ∀ j, ((s.markDisposed i).slots j).cache = (s.slots j).cache ∧
        (j ≠ i → ((s.markDisposed i).slots j).disposed = (s.slots j).disposed) := by
      intro j
      by_cases hj : j = i
      · subst hj
        simp [System.markDisposed, System.cancel]
      · simp [System.markDisposed, System.cancel, System.slots_setSlot_of_ne, hj]
    refine ResourceInv.runNext ?_ (hq1.setPending rfl trivial)
    refine h.reschedule hi rfl ?_ (fun j hj => (hslots j).2 hj) ?_ ?_ ?_
    · intro j r
      rw [QuerySlot.Holds, QuerySlot.Holds]
      exact iff_of_eq (by rw [← (hslots j).1])
    · intro p hp
      have h1 : p ∈ (s.markDisposed i).pending ↔ p ∈ s.pending := by
        simp [System.markDisposed, System.cancel, System.setSlot, hp]
      rw [← h1]
      constructor
      · intro h2
        rcases mem_setPending hq1.nodup h2 with rfl | ⟨h3, -⟩
        · exact absurd rfl hp
        · exact h3
      · exact fun h2 => mem_setPending_of_ne h2 hp
    · intro j _
      simp [System.markDisposed, System.cancel]
    · exact fun _ => mem_setPending_self

end ResourceInv

/-! ### Which steps are harmless -/

/-- `use` returns a resource whose `asyncDispose` has been called: one that the active task is disposing of, or that the
task of the query it schedules, started at once, disposes of. -/
def ServesDisposed (ops : KeyOps K) (s : System I K F V X) (i : I) (key : K) (enabled : Option Bool)
    (retainOn : List String) : Prop :=
  (s.slots i).disposed = false ∧ (s.slots i).error.map Prod.fst ≠ some (ops.stringify key) ∧
    ∃ entry resource, (s.slots i).cache = some entry ∧ entry.data = .disposable resource ∧
      (entry.keyStr = ops.stringify key ∨ QuerySlot.canUseStaleData ops entry.key key retainOn = true) ∧
      ((∃ a ∈ s.active, a.task.slot = i ∧ ∃ r, a.phase = .disposing r) ∨
        s.running = false ∧ (s.slots i).mustQuery ops key enabled = true)

/-- `use` serves nothing that is disposed of, no `asyncDispose` rejects before the last task of its slot, and no two
queries resolve to one resource. -/
def Harmless (ops : KeyOps K) (trace : List (Event I K F V X)) (s : System I K F V X) : Step I K F V X → Prop
  | .use i key _ enabled retainOn => ¬ ServesDisposed ops s i key enabled retainOn
  | .disposeSettles n (some _) => ∃ i phase, s.active[n]? = some ⟨.dispose i, phase⟩
  | .querySettles _ (.resolved (.disposable resource)) => ∀ i, ¬ Resolved trace i resource
  | _ => True

/-- What has been disposed of is not returned. -/
def LiveReturn (before : List (Event I K F V X)) : Event I K F V X → Prop
  | .returned _ _ (.ok result) =>
    ∀ resource, result.data = some (.disposable resource) → disposals resource before = 0
  | _ => True

structure QuerySlotSafe (ops : KeyOps K) (trace : List (Event I K F V X)) (s : System I K F V X) : Prop where
  serial : s.active.length ≤ 1
  fresh : AtEach (FreshReturn ops) trace
  live : AtEach LiveReturn trace
  disposals_le : ∀ resource, disposals resource trace ≤ 1
  disposed_once : ∀ i, (s.slots i).disposed = true → s.pending = [] → s.active = [] →
    ∀ resource, Resolved trace i resource → disposals resource trace = 1

section Runs

variable {ops : KeyOps K} {trace : List (Event I K F V X)} {s s' : System I K F V X} {events : List (Event I K F V X)}

omit [DecidableEq I] in
theorem liveReturn_asyncDispose {e : Event I K F V X} (h : ∃ i resource, e = .asyncDispose i resource)
    (before : List (Event I K F V X)) : LiveReturn before e := by
  obtain ⟨i, resource, rfl⟩ := h
  trivial

omit [DecidableEq I] in
/-- What a slot holds has not been disposed of if its disposal is not awaited and the slot is in use. -/
theorem ResourceInv.disposals_eq_zero (h : ResourceInv trace s) {i : I} {resource : ℕ}
    (hholds : (s.slots i).Holds resource) (hi : (s.slots i).disposed = false)
    (hactive : ¬ ∃ a ∈ s.active, a.task.slot = i ∧ ∃ r, a.phase = .disposing r) : disposals resource trace = 0 := by
  refine h.held hholds ?_
  rintro (h1 | ⟨h1, -⟩)
  · exact hactive h1
  · cases hi.symm.trans h1

theorem ResourceInv.use (h : ResourceInv trace s) (hq : QueueInv ops trace s) {i : I} {key : K} {queryFn : F}
    (hused : .used i key queryFn ∈ trace) {enabled : Option Bool} {retainOn : List String}
    (hok : ¬ ServesDisposed ops s i key enabled retainOn) :
    ResourceInv (trace ++ (s.use ops i key queryFn enabled retainOn).2.1)
        (s.use ops i key queryFn enabled retainOn).1 ∧
      LiveReturn (trace ++ (s.use ops i key queryFn enabled retainOn).2.1)
        (.returned i key (s.use ops i key queryFn enabled retainOn).2.2) := by
  rcases System.use_cases ops s i key queryFn enabled retainOn with ⟨err, heq⟩ | ⟨hi, herr, heq⟩
  · rw [heq, List.append_nil]
    exact ⟨h, trivial⟩
  rw [heq, System.use.query]
  dsimp only
  refine ⟨?_, ?_⟩
  · split_ifs
    · exact h.startQuery hq hused hi
    · rw [List.append_nil]
      exact h
  · intro resource hdata
    obtain ⟨entry, h1, h2, h3⟩ := queryResult_data hdata
    have hcache : (s.slots i).cache = some entry := by
      rw [← h1]
      split_ifs
      · exact (System.cache_startQuery s i key queryFn i).symm
      · rfl
    have hholds : (s.slots i).Holds resource := by
      rw [QuerySlot.Holds, hcache, Option.map_some, h2]
    have hnot := fun h4 => hok ⟨hi, herr, entry, resource, hcache, h2, h3, h4⟩
    have hzero := h.disposals_eq_zero hholds hi (hnot ∘ Or.inl)
    split_ifs with hmust
    · -- the queue is running, so nothing starts
      have hrun : s.running = true := by
        by_contra h4
        exact hnot (Or.inr ⟨Bool.not_eq_true _ ▸ h4, hmust⟩)
      obtain ⟨s1, signal, hs, heq1⟩ := System.startQuery_eq s i key queryFn
      have hnil : (s.startQuery i key queryFn).2 = [] := by
        rw [heq1]
        exact System.schedule_running (hs.running.trans hrun) i _
      rw [hnil, List.append_nil]
      exact hzero
    · rw [List.append_nil]
      exact hzero

omit [DecidableEq I] in
/-- An event that is neither of a resource nor of a disposal. -/
theorem ResourceInv.concat (h : ResourceInv trace s) {e : Event I K F V X}
    (hres : ∀ i key queryFn r, e ≠ .resolved i key queryFn (.disposable r)) (hdisp : ∀ r, isDisposalOf r e = false) :
    ResourceInv (trace ++ [e]) s := by
  refine h.of_trace ?_ ?_
  · intro i r
    apply resolved_append_events
    intro e' he'
    obtain rfl := List.mem_singleton.mp he'
    exact hres
  · intro r
    rw [disposals_append, disposals, disposals, List.countP_singleton, hdisp]
    rfl

/-- What a harmless step keeps. -/
theorem ResourceInv.step (h : ResourceInv trace s) (hq : QueueInv ops trace s) (hlive : AtEach LiveReturn trace)
    {l : Step I K F V X} (hok : Harmless ops trace s l) (hstep : s.step ops l = some (s', events)) :
    ResourceInv (trace ++ events) s' ∧ AtEach LiveReturn (trace ++ events) := by
  cases l with
  | use i key queryFn enabled retainOn =>
    obtain ⟨rfl, rfl⟩ := Prod.mk.inj (Option.some.inj hstep)
    have h1 : ResourceInv (trace ++ [.used i key queryFn]) s := h.concat nofun fun _ => rfl
    have hused : Event.used i key queryFn ∈ trace ++ [.used i key queryFn] :=
      List.mem_append_right _ List.mem_cons_self
    obtain ⟨h2, h3⟩ := h1.use (hq.mono (List.subset_append_left trace _)) hused hok
    have hassoc : trace ++ (.used i key queryFn :: (s.use ops i key queryFn enabled retainOn).2.1 ++
        [.returned i key (s.use ops i key queryFn enabled retainOn).2.2]) =
        (trace ++ [.used i key queryFn] ++ (s.use ops i key queryFn enabled retainOn).2.1) ++
          [.returned i key (s.use ops i key queryFn enabled retainOn).2.2] := by
      simp only [List.append_assoc, List.cons_append, List.nil_append]
    rw [hassoc]
    refine ⟨h2.concat nofun fun _ => rfl, AtEach.concat ?_ h3⟩
    rw [List.append_assoc]
    refine hlive.append ?_
    intro e he before
    rcases List.mem_cons.mp he with rfl | he
    · trivial
    · exact liveReturn_asyncDispose (mem_use he) before
  | dispose i =>
    obtain ⟨rfl, rfl⟩ := Prod.mk.inj (Option.some.inj hstep)
    exact ⟨h.dispose hq i, hlive.append fun e he => liveReturn_asyncDispose (System.mem_dispose he)⟩
  | disposeSettles n thrown =>
    obtain ⟨task, resource, ha, rfl, rfl⟩ := System.step_disposeSettles hstep
    rw [List.append_nil]
    refine ⟨?_, hlive⟩
    cases thrown with
    | none => exact h.clearCache hq ha
    | some thrown =>
      obtain ⟨i, phase, h1⟩ := hok
      obtain ⟨rfl, -⟩ := ActiveTask.mk.inj (Option.some.inj (ha.symm.trans h1))
      refine h.setPhase hq ha (fun _ _ => rfl) nofun ?_ (fun _ _ => rfl)
      rintro (h2 | h2)
      · cases h2
      · cases h2
  | goesOn n =>
    rcases System.step_goesOn hstep with ⟨task, ha, rfl, rfl⟩ | ⟨task, thrown, ha, rfl, rfl⟩
    · rw [List.append_nil]
      refine ⟨?_, hlive⟩
      have hcleared : ∀ r, ¬ (s.slots task.slot).Holds r :=
        fun r => h.cleared (List.mem_of_getElem? ha) (Or.inl rfl)
      cases task with
      | query | dispose => exact h.setPhase hq ha nofun nofun (fun _ => hcleared) nofun
    · rw [List.append_nil]
      refine ⟨?_, hlive⟩
      have htask := h.threw (List.mem_of_getElem? ha) rfl
      cases task with
      | query => cases htask
      | dispose i =>
        refine h.setPhase hq ha nofun nofun ?_ nofun
        rintro (h2 | h2)
        · cases h2
        · cases h2
  | querySettles n outcome =>
    obtain ⟨i, key, queryFn, signal, ha, h1⟩ := System.step_querySettles hstep
    obtain rfl : _ = s' := congrArg Prod.fst h1
    obtain rfl : _ = events := congrArg Prod.snd h1
    have hdone : (Phase.done : Phase X) = .cacheDisposed ∨ (Phase.done : Phase X) = .querying → False := by
      rintro (h2 | h2)
      · cases h2
      · cases h2
    cases outcome with
    | resolved data =>
      refine ⟨h.resolve hq ha ?_, hlive.concat trivial⟩
      rintro resource rfl
      exact hok
    | queryCancelled =>
      rw [show (s.querySettled ops n i key queryFn signal .queryCancelled).2 = [] from rfl, List.append_nil]
      have hs : System.SameCaches s (s.setSlot i ((s.slots i).finaliseQuery ops key none)) :=
        System.SameCaches.setSlot rfl rfl
      exact ⟨(h.sameCaches hs).setPhase (hq.sameCaches hs) ha nofun nofun (fun h2 => (hdone h2).elim) nofun, hlive⟩
    | rejected thrown =>
      rw [show (s.querySettled ops n i key queryFn signal (.rejected thrown)).2 = [] from rfl, List.append_nil]
      have hs : System.SameCaches s (s.setSlot i ((s.slots i).finaliseThrown ops key thrown)) :=
        System.SameCaches.setSlot (cache_finaliseThrown ..) (disposed_finaliseThrown ..)
      exact ⟨(h.sameCaches hs).setPhase (hq.sameCaches hs) ha nofun nofun (fun h2 => (hdone h2).elim) nofun, hlive⟩
  | ends n =>
    obtain ⟨task, ha, h1⟩ := System.step_ends hstep
    obtain rfl : _ = s' := congrArg Prod.fst h1
    obtain rfl : _ = events := congrArg Prod.snd h1
    exact ⟨(h.taskEnd hq ha).runNext (hq.end ha),
      hlive.append fun e he => liveReturn_asyncDispose (System.mem_runNext he)⟩

/-- In every run of harmless steps the resources are safe. -/
theorem run_querySlotSafe (ops : KeyOps K) {trace : List (Event I K F V X)} {s : System I K F V X}
    (h : (System.machine ops).Run (Harmless ops) trace s) : QuerySlotSafe ops trace s := by
  obtain ⟨⟨hq, hfresh⟩, hr, hlive⟩ :=
    EventMachine.Run.invariant (I := fun trace s => (QueueInv ops trace s ∧ AtEach (FreshReturn ops) trace) ∧
      ResourceInv trace s ∧ AtEach LiveReturn trace)
      ⟨⟨QueueInv.init, AtEach.nil⟩, ResourceInv.init, AtEach.nil⟩
      (fun ⟨⟨h1, h2⟩, h3, h4⟩ hok hstep => ⟨h1.step h2 hstep, h3.step h1 h4 hok hstep⟩) h
  refine ⟨?_, hfresh, hlive, ?_, ?_⟩
  · rcases hq.serial with ⟨h1, -⟩ | ⟨a, h1, -⟩
    · rw [h1]
      exact Nat.zero_le 1
    · rw [h1]
      exact Nat.le_refl 1
  · intro resource
    by_cases h1 : ∃ i, Resolved trace i resource
    · obtain ⟨i, h1⟩ := h1
      by_cases h2 : (s.slots i).Holds resource
      · by_cases h3 : Begun s i
        · exact Nat.le_of_eq (hr.begun h2 h3)
        · rw [hr.held h2 h3]
          exact Nat.zero_le 1
      · exact Nat.le_of_eq (hr.gone h1 h2)
    · rw [hr.unresolved fun i h2 => h1 ⟨i, h2⟩]
      exact Nat.zero_le 1
  · intro i hd hpending hactive resource hres
    by_cases h2 : (s.slots i).Holds resource
    · refine hr.begun h2 (Or.inr ?_)
      rcases hr.ending hd with h3 | h3
      · rw [hpending] at h3
        cases h3
      · exact h3
    · exact hr.gone hres h2

end Runs

/-! ### A slot whose keys have a filter and a page -/

def pageOps : KeyOps (ℕ × ℕ) where
  stringify key := "\x7b\"filter\":" ++ toString key.1 ++ ",\"page\":" ++ toString key.2 ++ "\x7d"
  fields _ := ["filter", "page"]
  hasField _ field := field = "filter" || field = "page"
  fieldStr key field :=
    if field = "filter" then some (toString key.1) else if field = "page" then some (toString key.2) else none

/-- One query, then another page while the first page may be shown. -/
def pageSteps : List (Step Unit (ℕ × ℕ) ℕ Unit Unit) :=
  [.use () (1, 1) 0 none ["page"], .goesOn 0, .querySettles 0 (.resolved (.disposable 7)), .ends 0,
    .use () (1, 2) 0 none ["page"]]

/-- The resource of the first page is being disposed of when it is returned for the second. -/
theorem not_querySlotSafe_stale :
    ¬ ∀ (trace : List (Event Unit (ℕ × ℕ) ℕ Unit Unit)) (s : System Unit (ℕ × ℕ) ℕ Unit Unit),
      (System.machine pageOps).Run (fun _ _ _ => True) trace s → QuerySlotSafe pageOps trace s := by
  intro h
  have htrace : ((System.machine pageOps).steps [] System.init pageSteps).map Prod.fst =
      some ([.used () (1, 1) 0, .returned () (1, 1) (.ok ⟨none, true, false⟩), .resolved () (1, 1) 0 (.disposable 7),
        .used () (1, 2) 0, .asyncDispose () 7] ++ [.returned () (1, 2) (.ok ⟨some (.disposable 7), true, false⟩)]) := rfl
  obtain ⟨⟨trace, s⟩, h1, rfl⟩ := Option.map_eq_some_iff.mp htrace
  have hsafe := h _ s (EventMachine.Run.init.steps (fun _ _ _ => trivial) h1)
  exact absurd (hsafe.live _ _ [] rfl 7 rfl) (by decide)

/-- A slot is used, and disposed of when its query has resolved to a resource. -/
theorem run_querySlotSafe_disposed :
    ∃ (trace : List (Event Unit (ℕ × ℕ) ℕ Unit Unit)) (s : System Unit (ℕ × ℕ) ℕ Unit Unit),
      Resolved trace () 7 ∧ (s.slots ()).disposed = true ∧ s.pending = [] ∧ s.active = [] ∧
        QuerySlotSafe pageOps trace s := by
  have h0 : (System.machine pageOps).Run (Harmless pageOps) []
    (System.init : System Unit (ℕ × ℕ) ℕ Unit Unit) := EventMachine.Run.init
  have h1 := h0.step (l := .use () (1, 1) 0 none ["page"]) (by
    rintro ⟨-, -, entry, r, h, -⟩
    cases h) rfl
  have h2 := h1.step (l := .goesOn 0) (by trivial) rfl
  have h3 := h2.step (l := .querySettles 0 (.resolved (.disposable 7))) (by
    rintro i ⟨key, queryFn, h⟩
    rcases List.mem_cons.mp h with h | h
    · cases h
    · cases List.mem_singleton.mp h) rfl
  have h4 := h3.step (l := .ends 0) (by trivial) rfl
  have h5 := h4.step (l := .dispose ()) (by trivial) rfl
  have h6 := h5.step (l := .disposeSettles 0 none) (by trivial) rfl
  have h7 := h6.step (l := .goesOn 0) (by trivial) rfl
  have h8 := h7.step (l := .ends 0) (by trivial) rfl
  exact ⟨_, _, ⟨(1, 1), 0, by simp⟩, rfl, rfl, rfl, run_querySlotSafe pageOps h8⟩

end LynxTrace.Ui
