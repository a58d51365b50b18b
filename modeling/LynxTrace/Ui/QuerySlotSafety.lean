import LynxTrace.Ui.QueueOrder

/-!
# Ui.QuerySlotSafety — the resources that queries resolve to

A resource is held by the cache of one slot from when its query resolves until its `asyncDispose` has settled.  It has
been disposed of, once, if the slot does not hold it any more, if the active task awaits its `asyncDispose`, or if the
last task of the slot has been started (`ResourceInv`).
-/

namespace LynxTrace.Ui

variable {I K F V X : Type*}

def isDisposalOf (resource : ℕ) : Event I K F V X → Bool
  | .asyncDispose _ r => r = resource
  | _ => false

/-- How often `asyncDispose` of the resource has been called. -/
def disposals (resource : ℕ) (trace : List (Event I K F V X)) : ℕ := trace.countP (isDisposalOf resource)

/-- A query of the slot has resolved to the resource. -/
def Resolved (trace : List (Event I K F V X)) (i : I) (resource : ℕ) : Prop :=
  ∃ key queryFn, .resolved i key queryFn (.disposable resource) ∈ trace

def QuerySlot.Holds (slot : QuerySlot K V X) (resource : ℕ) : Prop :=
  slot.cache.map CacheEntry.data = some (.disposable resource)

/-- The task of `dispose` has been started, or is over. -/
def Spent (s : System I K F V X) (i : I) : Prop :=
  (s.slots i).disposed = true ∧ (∀ p ∈ s.pending, p.1 ≠ i) ∧ ∀ a ∈ s.active, a.task.slot = i → a.task = .dispose i

/-- What the slot holds has been disposed of, or its `asyncDispose` is awaited. -/
def Begun (s : System I K F V X) (i : I) : Prop :=
  (∃ a ∈ s.active, a.task.slot = i ∧ ∃ resource, a.phase = .disposing resource) ∨ Spent s i

structure ResourceInv (trace : List (Event I K F V X)) (s : System I K F V X) : Prop where
  owner : ∀ {i j resource}, Resolved trace i resource → Resolved trace j resource → i = j
  unresolved : ∀ {resource}, (∀ i, ¬ Resolved trace i resource) → disposals resource trace = 0
  begun : ∀ {i resource}, (s.slots i).Holds resource → Begun s i → disposals resource trace = 1
  held : ∀ {i resource}, (s.slots i).Holds resource → ¬ Begun s i → disposals resource trace = 0
  gone : ∀ {i resource}, Resolved trace i resource → ¬ (s.slots i).Holds resource → disposals resource trace = 1
  disposing : ∀ {a resource}, a ∈ s.active → a.phase = .disposing resource → (s.slots a.task.slot).Holds resource
  cleared : ∀ {a resource}, a ∈ s.active → a.phase = .cacheDisposed ∨ a.phase = .querying →
    ¬ (s.slots a.task.slot).Holds resource
  threw : ∀ {a thrown}, a ∈ s.active → a.phase = .disposeThrew thrown → a.task = .dispose a.task.slot
  lastTask : ∀ {a i}, a ∈ s.active → a.task = .dispose i → (s.slots i).disposed = true ∧ ∀ p ∈ s.pending, p.1 ≠ i
  pendingLast : ∀ {i j}, (i, .dispose j) ∈ s.pending → (s.slots i).disposed = true
  ending : ∀ {i}, (s.slots i).disposed = true → (i, .dispose i) ∈ s.pending ∨ Spent s i

/-! ### Traces and caches -/

section Traces

variable {trace : List (Event I K F V X)} {resource : ℕ}

theorem disposals_append (trace events : List (Event I K F V X)) :
    disposals resource (trace ++ events) = disposals resource trace + disposals resource events :=
  List.countP_append

variable {slot : QuerySlot K V X}

theorem QuerySlot.Holds.disposeCache_eq (h : slot.Holds resource) : slot.disposeCache = .disposing resource := by
  obtain ⟨entry, h1, h2⟩ := Option.map_eq_some_iff.mp h
  unfold QuerySlot.disposeCache
  rw [h1]
  obtain ⟨key, keyStr, data⟩ := entry
  obtain rfl : data = .disposable resource := h2
  rfl

theorem QuerySlot.holds_of_disposing (h : slot.disposeCache = .disposing resource) : slot.Holds resource := by
  unfold QuerySlot.disposeCache at h
  split at h
  · rename_i key keyStr r he
    obtain rfl : r = resource := by injection h
    rw [QuerySlot.Holds, he]
    rfl
  · cases h

theorem QuerySlot.disposeCache_cases (slot : QuerySlot K V X) :
    slot.disposeCache = .cacheDisposed ∨ ∃ resource, slot.disposeCache = .disposing resource := by
  unfold QuerySlot.disposeCache
  split
  · exact Or.inr ⟨_, rfl⟩
  · exact Or.inl rfl

theorem disposals_events_of_holds (i : I) (h : slot.Holds resource) :
    disposals resource (slot.disposeCache.events i : List (Event I K F V X)) = 1 := by
  rw [h.disposeCache_eq]
  exact List.countP_eq_length.mpr fun e he => by
    obtain rfl := List.mem_singleton.mp he
    exact decide_eq_true rfl

theorem disposals_events_of_not_holds (i : I) (h : ¬ slot.Holds resource) :
    disposals resource (slot.disposeCache.events i : List (Event I K F V X)) = 0 := by
  refine List.countP_eq_zero.mpr fun e he => ?_
  obtain ⟨r, h1, rfl⟩ := Phase.mem_events he
  intro h2
  obtain rfl : r = resource := of_decide_eq_true h2
  exact h (QuerySlot.holds_of_disposing h1)

theorem resolved_append_events (trace : List (Event I K F V X)) {events : List (Event I K F V X)}
    (hev : ∀ e ∈ events, ∀ i key queryFn r, e ≠ .resolved i key queryFn (.disposable r)) {i : I} :
    Resolved (trace ++ events) i resource ↔ Resolved trace i resource := by
  constructor
  · rintro ⟨key, queryFn, h⟩
    rcases List.mem_append.mp h with h | h
    · exact ⟨key, queryFn, h⟩
    · exact absurd rfl (hev _ h i key queryFn resource)
  · rintro ⟨key, queryFn, h⟩
    exact ⟨key, queryFn, List.mem_append_left _ h⟩

variable {ops : KeyOps K} {s s' : System I K F V X}

theorem QueueInv.resolved (hq : QueueInv ops trace s) {i : I} (h : (s.slots i).Holds resource) :
    Resolved trace i resource := by
  obtain ⟨entry, h1, h2⟩ := Option.map_eq_some_iff.mp h
  obtain ⟨-, queryFn, -, h3⟩ := hq.cached i entry h1
  exact ⟨entry.key, queryFn, h2 ▸ h3⟩

theorem System.SameCaches.holds (hs : System.SameCaches s s') (i : I) :
    (s'.slots i).Holds resource ↔ (s.slots i).Holds resource := by
  rw [QuerySlot.Holds, QuerySlot.Holds, hs.cache i]

theorem System.SameCaches.spent (hs : System.SameCaches s s') (i : I) : Spent s' i ↔ Spent s i := by
  rw [Spent, Spent, hs.disposed i, hs.pending, hs.active]

theorem System.SameCaches.begun (hs : System.SameCaches s s') (i : I) : Begun s' i ↔ Begun s i := by
  rw [Begun, Begun, hs.spent i, hs.active]

theorem eq_of_mem_active {a b : ActiveTask I K F X} (h : s.active = [b]) (ha : a ∈ s.active) : a = b :=
  List.mem_singleton.mp (h ▸ ha)

end Traces

namespace ResourceInv

variable {ops : KeyOps K} {trace trace' : List (Event I K F V X)} {s s' : System I K F V X}

theorem init : ResourceInv [] (System.init : System I K F V X) := by
  constructor
  case unresolved => exact fun _ => rfl
  case pendingLast =>
    intro _ _ h
    exact absurd h List.not_mem_nil
  case owner =>
    rintro _ _ _ ⟨_, _, h⟩
    exact absurd h List.not_mem_nil
  case gone =>
    rintro _ _ ⟨_, _, h⟩
    exact absurd h List.not_mem_nil
  all_goals exact nofun

/-- Events that are neither of a resource nor of a disposal. -/
theorem of_trace (h : ResourceInv trace s) (hres : ∀ i resource, Resolved trace' i resource ↔ Resolved trace i resource)
    (hdisp : ∀ resource, disposals resource trace' = disposals resource trace) : ResourceInv trace' s where
  owner h1 h2 := h.owner ((hres _ _).mp h1) ((hres _ _).mp h2)
  unresolved h1 := (hdisp _).trans (h.unresolved fun i h2 => h1 i ((hres _ _).mpr h2))
  begun h1 h2 := (hdisp _).trans (h.begun h1 h2)
  held h1 h2 := (hdisp _).trans (h.held h1 h2)
  gone h1 h2 := (hdisp _).trans (h.gone ((hres _ _).mp h1) h2)
  disposing := h.disposing
  cleared := h.cleared
  threw := h.threw
  lastTask := h.lastTask
  pendingLast := h.pendingLast
  ending := h.ending

theorem sameCaches (h : ResourceInv trace s) (hs : System.SameCaches s s') : ResourceInv trace s' where
  owner := h.owner
  unresolved := h.unresolved
  begun h1 h2 := h.begun ((hs.holds _).mp h1) ((hs.begun _).mp h2)
  held h1 h2 := h.held ((hs.holds _).mp h1) (mt (hs.begun _).mpr h2)
  gone h1 h2 := h.gone h1 (mt (hs.holds _).mpr h2)
  disposing h1 h2 := (hs.holds _).mpr (h.disposing (hs.active ▸ h1) h2)
  cleared h1 h2 := mt (hs.holds _).mp (h.cleared (hs.active ▸ h1) h2)
  threw h1 h2 := h.threw (hs.active ▸ h1) h2
  lastTask h1 h2 := by
    rw [hs.disposed, hs.pending]
    exact h.lastTask (hs.active ▸ h1) h2
  pendingLast h1 := by
    rw [hs.disposed]
    exact h.pendingLast (hs.pending ▸ h1)
  ending h1 := by
    rw [hs.spent, hs.pending]
    exact h.ending (hs.disposed _ ▸ h1)

/-! ### The queue -/

section Started

variable {task : Task I K F} {pending : List (I × Task I K F)} {i : I}

theorem spent_started (hidle : s.active = []) (hp : s.pending = (task.slot, task) :: pending) (hi : i ≠ task.slot) :
    Spent (s.started task pending) i ↔ Spent s i := by
  rw [Spent, Spent, System.started, hidle, hp]
  constructor
  · rintro ⟨h1, h2, -⟩
    refine ⟨h1, ?_, fun a h3 => absurd h3 List.not_mem_nil⟩
    intro p h3
    rcases List.mem_cons.mp h3 with rfl | h3
    · exact hi.symm
    · exact h2 p h3
  · rintro ⟨h1, h2, -⟩
    refine ⟨h1, fun p h3 => h2 p (List.mem_cons_of_mem _ h3), ?_⟩
    intro a h3 h4
    obtain rfl := List.mem_singleton.mp h3
    exact absurd h4.symm hi

theorem begun_started (hidle : s.active = []) (hp : s.pending = (task.slot, task) :: pending) (hi : i ≠ task.slot) :
    Begun (s.started task pending) i ↔ Spent s i := by
  rw [← spent_started hidle hp hi]
  constructor
  · rintro (⟨a, h1, h2, -⟩ | h1)
    · rw [System.started, hidle] at h1
      obtain rfl := List.mem_singleton.mp h1
      exact absurd h2.symm hi
    · exact h1
  · exact Or.inr

end Started

/-- The first pending task is started. -/
theorem runNext (h : ResourceInv trace s) (hq : QueueInv ops trace s) :
    ResourceInv (trace ++ s.runNext.2) s.runNext.1 := by
  rcases s.runNext_cases with ⟨-, heq⟩ | ⟨j, task, pending, hrun, hp, heq⟩
  · rw [heq, List.append_nil]
    exact h
  rw [heq]
  dsimp only
  have hidle : s.active = [] := by
    rcases hq.serial with ⟨h1, -⟩ | ⟨a, -, h1⟩
    · exact h1
    · cases hrun.symm.trans h1
  have hnodup := hq.nodup
  rw [hp, List.map_cons, List.nodup_cons] at hnodup
  have hrest : ∀ p ∈ pending, p.1 ≠ j := by
    rintro p h1 rfl
    exact hnodup.1 (List.mem_map.mpr ⟨p, h1, rfl⟩)
  have hmem : (j, task) ∈ s.pending := hp ▸ List.mem_cons_self
  obtain rfl : task.slot = j := (hq.pending _ hmem).1
  have hactive : (s.started task pending).active = [⟨task, (s.slots task.slot).disposeCache⟩] := by
    rw [System.started, hidle]
    rfl
  have hnot : ¬ Begun s task.slot := by
    rintro (⟨a, h1, -⟩ | ⟨-, h1, -⟩)
    · rw [hidle] at h1
      cases h1
    · exact h1 _ hmem rfl
  have hresolved : ∀ i resource, Resolved (trace ++ (s.slots task.slot).disposeCache.events task.slot) i resource ↔
      Resolved trace i resource := by
    intro i resource
    apply resolved_append_events
    rintro e he i' key queryFn r rfl
    obtain ⟨r, -, h1⟩ := Phase.mem_events he
    cases h1
  -- the counts change for what the slot of the task holds
  have hother : ∀ i resource, i ≠ task.slot → Resolved trace i resource →
      disposals resource (trace ++ (s.slots task.slot).disposeCache.events task.slot) = disposals resource trace := by
    intro i resource hi hres
    rw [disposals_append, disposals_events_of_not_holds, Nat.add_zero]
    intro h1
    exact hi (h.owner hres (hq.resolved h1))
  constructor
  case owner => exact fun h1 h2 => h.owner ((hresolved _ _).mp h1) ((hresolved _ _).mp h2)
  case unresolved =>
    intro resource h1
    have h2 : ∀ i, ¬ Resolved trace i resource := fun i h2 => h1 i ((hresolved _ _).mpr h2)
    rw [disposals_append, h.unresolved h2, disposals_events_of_not_holds]
    exact fun h3 => h2 _ (hq.resolved h3)
  case begun =>
    intro i resource h1 h2
    by_cases hi : i = task.slot
    · subst hi
      have h3 : (s.slots task.slot).Holds resource := h1
      rw [disposals_append, h.held h3 hnot, disposals_events_of_holds _ h3]
    · rw [hother i resource hi (hq.resolved h1)]
      exact h.begun h1 (Or.inr ((begun_started hidle hp hi).mp h2))
  case held =>
    intro i resource h1 h2
    by_cases hi : i = task.slot
    · subst hi
      refine absurd (Or.inl ⟨⟨task, (s.slots task.slot).disposeCache⟩, ?_, rfl, resource, ?_⟩) h2
      · rw [hactive]
        exact List.mem_cons_self
      · exact QuerySlot.Holds.disposeCache_eq h1
    · rw [hother i resource hi (hq.resolved h1)]
      refine h.held h1 ?_
      rintro (⟨a, h3, -⟩ | h3)
      · rw [hidle] at h3
        cases h3
      · exact h2 ((begun_started hidle hp hi).mpr h3)
  case gone =>
    intro i resource h1 h2
    rw [hresolved] at h1
    rw [disposals_append, h.gone h1 h2, disposals_events_of_not_holds]
    intro h3
    exact h2 (h.owner h1 (hq.resolved h3) ▸ h3)
  case disposing =>
    intro a resource h1 h2
    obtain rfl := eq_of_mem_active hactive h1
    exact QuerySlot.holds_of_disposing h2
  case cleared =>
    intro a resource h1 h2 h3
    obtain rfl := eq_of_mem_active hactive h1
    have h4 := QuerySlot.Holds.disposeCache_eq h3
    rcases h2 with h2 | h2
    · cases h4.symm.trans h2
    · cases h4.symm.trans h2
  case threw =>
    intro a thrown h1 h2
    obtain rfl := eq_of_mem_active hactive h1
    rcases (s.slots task.slot).disposeCache_cases with h3 | ⟨r, h3⟩
    · cases h3.symm.trans h2
    · cases h3.symm.trans h2
  case lastTask =>
    intro a i h1 h2
    obtain rfl := eq_of_mem_active hactive h1
    obtain rfl : task = .dispose i := h2
    exact ⟨h.pendingLast hmem, hrest⟩
  case pendingLast => exact fun h1 => h.pendingLast (hp ▸ List.mem_cons_of_mem _ h1)
  case ending =>
    intro i h1
    by_cases hi : i = task.slot
    · subst hi
      refine Or.inr ⟨h1, hrest, ?_⟩
      intro a h2 _
      obtain rfl := eq_of_mem_active hactive h2
      rcases h.ending h1 with h3 | h3
      · rw [hp] at h3
        rcases List.mem_cons.mp h3 with h3 | h3
        · exact (Prod.mk.inj h3).2.symm
        · exact absurd rfl (hrest _ h3)
      · exact absurd (Or.inr h3) hnot
    · rcases h.ending h1 with h3 | h3
      · rw [hp] at h3
        rcases List.mem_cons.mp h3 with h3 | h3
        · exact absurd (Prod.mk.inj h3).1 hi
        · exact Or.inl h3
      · exact Or.inr ((spent_started hidle hp hi).mpr h3)

/-- `runNext` has been told that the active task is over. -/
theorem taskEnd (h : ResourceInv trace s) (hq : QueueInv ops trace s) {n : ℕ} {task : Task I K F}
    (ha : s.active[n]? = some ⟨task, .done⟩) :
    ResourceInv trace { s with active := s.active.eraseIdx n, running := false } := by
  obtain ⟨rfl, h1, -⟩ := hq.active_eq ha
  have hnil : s.active.eraseIdx 0 = [] := by rw [h1]; rfl
  have hspent : ∀ i, Spent { s with active := s.active.eraseIdx 0, running := false } i ↔ Spent s i := by
    intro i
    constructor
    · rintro ⟨h2, h3, -⟩
      rcases h.ending h2 with h4 | h4
      · exact absurd rfl (h3 _ h4)
      · exact h4
    · rintro ⟨h2, h3, -⟩
      refine ⟨h2, h3, ?_⟩
      intro a h4
      rw [hnil] at h4
      cases h4
  have hbegun : ∀ i, Begun { s with active := s.active.eraseIdx 0, running := false } i ↔ Begun s i := by
    intro i
    rw [Begun, Begun, hspent, hnil, h1]
    constructor
    · rintro (⟨a, h2, -⟩ | h2)
      · cases h2
      · exact Or.inr h2
    · rintro (⟨a, h2, -, r, h3⟩ | h2)
      · obtain rfl := List.mem_singleton.mp h2
        cases h3
      · exact Or.inr h2
  have hno : ∀ {a : ActiveTask I K F X} {P : Prop}, a ∈ s.active.eraseIdx 0 → P := by
    intro a P h2
    rw [hnil] at h2
    cases h2
  exact
    { owner := h.owner
      unresolved := h.unresolved
      begun := fun h2 h3 => h.begun h2 ((hbegun _).mp h3)
      held := fun h2 h3 => h.held h2 (mt (hbegun _).mpr h3)
      gone := h.gone
      disposing := fun h2 => hno h2
      cleared := fun h2 => hno h2
      threw := fun h2 => hno h2
      lastTask := fun h2 => hno h2
      pendingLast := h.pendingLast
      ending := fun h2 => (h.ending h2).imp_right (hspent _).mpr }

/-! ### A task goes on -/

section Replaced

variable {task : Task I K F} {phase0 phase : Phase X} (h0 : s.active = [⟨task, phase0⟩])
  (h1 : s'.active = [⟨task, phase⟩]) (hp : s'.pending = s.pending)
  (hd : ∀ i, (s'.slots i).disposed = (s.slots i).disposed)

include h0 h1 hp hd

/-- The active task is in another phase, and caches may differ. -/
theorem spent_replaced (i : I) : Spent s' i ↔ Spent s i := by
  rw [Spent, Spent, h0, h1, hp, hd]
  simp only [List.mem_singleton, forall_eq]

theorem begun_replaced_of_ne {i : I} (hi : i ≠ task.slot) : Begun s' i ↔ Begun s i := by
  rw [Begun, Begun, spent_replaced h0 h1 hp hd, h0, h1]
  constructor
  · rintro (⟨a, h2, h3, -⟩ | h2)
    · obtain rfl := List.mem_singleton.mp h2
      exact absurd h3.symm hi
    · exact Or.inr h2
  · rintro (⟨a, h2, h3, -⟩ | h2)
    · obtain rfl := List.mem_singleton.mp h2
      exact absurd h3.symm hi
    · exact Or.inr h2

end Replaced

/-- The active task goes on, not to await an `asyncDispose`; if it awaited one, it is the last task of its slot. -/
theorem setPhase (h : ResourceInv trace s) (hq : QueueInv ops trace s) {n : ℕ} {task : Task I K F}
    {phase0 phase : Phase X} (ha : s.active[n]? = some ⟨task, phase0⟩)
    (hlast : ∀ resource, phase0 = .disposing resource → task = .dispose task.slot)
    (hphase : ∀ resource, phase ≠ .disposing resource)
    (hcleared : phase = .cacheDisposed ∨ phase = .querying → ∀ resource, ¬ (s.slots task.slot).Holds resource)
    (hthrew : ∀ thrown, phase = .disposeThrew thrown → task = .dispose task.slot) :
    ResourceInv trace (s.setPhase n task phase) := by
  obtain ⟨rfl, h1, -⟩ := hq.active_eq ha
  have hmem : ⟨task, phase0⟩ ∈ s.active := List.mem_of_getElem? ha
  have hactive : (s.setPhase 0 task phase).active = [⟨task, phase⟩] := by
    rw [System.setPhase, h1]
    rfl
  have hspent := spent_replaced h1 hactive rfl fun _ => rfl
  have hbegun : ∀ i, Begun (s.setPhase 0 task phase) i ↔ Begun s i := by
    intro i
    rw [Begun, Begun, hspent, hactive]
    constructor
    · rintro (⟨a, h2, -, r, h3⟩ | h2)
      · obtain rfl := List.mem_singleton.mp h2
        exact absurd h3 (hphase r)
      · exact Or.inr h2
    · rintro (⟨a, h2, h3, r, h4⟩ | h2)
      · obtain rfl := eq_of_mem_active h1 h2
        obtain rfl : task.slot = i := h3
        obtain ⟨h5, h6⟩ := h.lastTask hmem (hlast r h4)
        refine Or.inr ⟨h5, h6, ?_⟩
        intro a h7 _
        obtain rfl := eq_of_mem_active h1 h7
        exact hlast r h4
      · exact Or.inr h2
  constructor
  case owner => exact h.owner
  case unresolved => exact h.unresolved
  case begun => exact fun h2 h3 => h.begun h2 ((hbegun _).mp h3)
  case held => exact fun h2 h3 => h.held h2 (mt (hbegun _).mpr h3)
  case gone => exact h.gone
  case disposing =>
    intro a r h2 h3
    obtain rfl := eq_of_mem_active hactive h2
    exact absurd h3 (hphase r)
  case cleared =>
    intro a r h2 h3
    obtain rfl := eq_of_mem_active hactive h2
    exact hcleared h3 r
  case threw =>
    intro a thrown h2 h3
    obtain rfl := eq_of_mem_active hactive h2
    exact hthrew thrown h3
  case lastTask =>
    intro a i h2 h3
    obtain rfl := eq_of_mem_active hactive h2
    exact h.lastTask hmem h3
  case pendingLast => exact h.pendingLast
  case ending => exact fun h2 => (h.ending h2).imp_right (hspent _).mpr

theorem disposed_setSlot [DecidableEq I] {i : I} {slot : QuerySlot K V X}
    (h : slot.disposed = (s.slots i).disposed) (j : I) : ((s.setSlot i slot).slots j).disposed = (s.slots j).disposed := by
  by_cases hj : j = i
  · subst hj
    rw [System.slots_setSlot_self, h]
  · rw [System.slots_setSlot_of_ne s hj]

/-- An `asyncDispose` has settled, and the cache is cleared. -/
theorem clearCache [DecidableEq I] (h : ResourceInv trace s) (hq : QueueInv ops trace s) {n : ℕ} {task : Task I K F}
    {resource : ℕ} (ha : s.active[n]? = some ⟨task, .disposing resource⟩) :
    ResourceInv trace (s.disposeSettled n task none) := by
  obtain ⟨rfl, h1, -⟩ := hq.active_eq ha
  have hmem : ⟨task, .disposing resource⟩ ∈ s.active := List.mem_of_getElem? ha
  have hactive : (s.disposeSettled 0 task none).active = [⟨task, .cacheDisposed⟩] := by
    show s.active.set 0 _ = _
    rw [h1]
    rfl
  have hself : ∀ r, ¬ ((s.disposeSettled 0 task none).slots task.slot).Holds r := by
    intro r h2
    have h3 : ((s.disposeSettled 0 task none).slots task.slot).cache = none :=
      congrArg QuerySlot.cache (System.slots_setSlot_self s task.slot _)
    rw [QuerySlot.Holds, h3] at h2
    cases h2
  have hother : ∀ {i : I} (r : ℕ), i ≠ task.slot →
      (((s.disposeSettled 0 task none).slots i).Holds r ↔ (s.slots i).Holds r) := by
    intro i r hi
    have h2 : (s.disposeSettled 0 task none).slots i = s.slots i := System.slots_setSlot_of_ne s hi _
    rw [h2]
  have hd : ∀ i, ((s.disposeSettled 0 task none).slots i).disposed = (s.slots i).disposed := disposed_setSlot rfl
  have hspent := spent_replaced h1 hactive rfl hd
  constructor
  case owner => exact h.owner
  case unresolved => exact h.unresolved
  case begun =>
    intro i r h2 h3
    by_cases hi : i = task.slot
    · exact absurd (hi ▸ h2) (hself r)
    · exact h.begun ((hother r hi).mp h2) ((begun_replaced_of_ne h1 hactive rfl hd hi).mp h3)
  case held =>
    intro i r h2 h3
    by_cases hi : i = task.slot
    · exact absurd (hi ▸ h2) (hself r)
    · exact h.held ((hother r hi).mp h2) (mt (begun_replaced_of_ne h1 hactive rfl hd hi).mpr h3)
  case gone =>
    intro i r h2 h3
    by_cases hi : i = task.slot
    · subst hi
      by_cases h4 : (s.slots task.slot).Holds r
      · exact h.begun h4 (Or.inl ⟨_, hmem, rfl, resource, rfl⟩)
      · exact h.gone h2 h4
    · exact h.gone h2 (mt (hother r hi).mpr h3)
  case disposing =>
    intro a r h2 h3
    obtain rfl := eq_of_mem_active hactive h2
    cases h3
  case cleared =>
    intro a r h2 h3
    obtain rfl := eq_of_mem_active hactive h2
    exact hself r
  case threw =>
    intro a thrown h2 h3
    obtain rfl := eq_of_mem_active hactive h2
    cases h3
  case lastTask =>
    intro a i h2 h3
    obtain rfl := eq_of_mem_active hactive h2
    rw [hd]
    exact h.lastTask hmem h3
  case pendingLast =>
    intro i j h2
    rw [hd]
    exact h.pendingLast h2
  case ending =>
    intro i h2
    rw [hd] at h2
    exact (h.ending h2).imp_right (hspent i).mpr

/-- A query has resolved, to a resource that no query has resolved to before if to a resource. -/
theorem resolve [DecidableEq I] (h : ResourceInv trace s) (hq : QueueInv ops trace s) {n : ℕ} {i : I} {key : K}
    {queryFn : F} {signal : ℕ} (ha : s.active[n]? = some ⟨.query i key queryFn signal, .querying⟩) {data : Data V}
    (hnew : ∀ resource, data = .disposable resource → ∀ j, ¬ Resolved trace j resource) :
    ResourceInv (trace ++ [.resolved i key queryFn data])
      (s.querySettled ops n i key queryFn signal (.resolved data)).1 := by
  obtain ⟨rfl, h1, -⟩ := hq.active_eq ha
  set s' := (s.querySettled ops 0 i key queryFn signal (.resolved data)).1 with hs'
  have hmem : ⟨.query i key queryFn signal, .querying⟩ ∈ s.active := List.mem_of_getElem? ha
  have hactive : s'.active = [⟨.query i key queryFn signal, .done⟩] := by
    show s.active.set 0 _ = _
    rw [h1]
    rfl
  have hself : ∀ r, (s'.slots i).Holds r ↔ data = .disposable r := by
    intro r
    have h2 : (s'.slots i).cache = some ⟨key, ops.stringify key, data⟩ :=
      congrArg QuerySlot.cache (System.slots_setSlot_self s i _)
    rw [QuerySlot.Holds, h2, Option.map_some, Option.some.injEq]
  have hother : ∀ {j : I} (r : ℕ), j ≠ i → ((s'.slots j).Holds r ↔ (s.slots j).Holds r) := by
    intro j r hj
    have h2 : s'.slots j = s.slots j := System.slots_setSlot_of_ne s hj _
    rw [h2]
  have hold : ∀ r, ¬ (s.slots i).Holds r := fun r => h.cleared hmem (Or.inr rfl)
  have hd : ∀ j, (s'.slots j).disposed = (s.slots j).disposed := disposed_setSlot rfl
  have hspent := spent_replaced h1 hactive rfl hd
  have hnotSpent : ¬ Spent s i := by
    rintro ⟨-, -, h2⟩
    cases h2 _ hmem rfl
  have hdisp : ∀ r, disposals r (trace ++ [.resolved i key queryFn data]) = disposals r trace := by
    intro r
    rw [disposals_append]
    rfl
  have hres : ∀ {j : I} {r : ℕ}, Resolved (trace ++ [.resolved i key queryFn data]) j r ↔
      Resolved trace j r ∨ j = i ∧ data = .disposable r := by
    intro j r
    constructor
    · rintro ⟨key', queryFn', h2⟩
      rcases List.mem_append.mp h2 with h2 | h2
      · exact Or.inl ⟨key', queryFn', h2⟩
      · have h3 := List.mem_singleton.mp h2
        injection h3 with h4 h5 h6 h7
        exact Or.inr ⟨h4, h7.symm⟩
    · rintro (⟨key', queryFn', h2⟩ | ⟨rfl, h2⟩)
      · exact ⟨key', queryFn', List.mem_append_left _ h2⟩
      · exact ⟨key, queryFn, List.mem_append_right _ (List.mem_singleton.mpr (by rw [h2]))⟩
  constructor
  case owner =>
    intro j k r h2 h3
    rcases hres.mp h2 with h4 | ⟨rfl, h4⟩
    · rcases hres.mp h3 with h5 | ⟨rfl, h5⟩
      · exact h.owner h4 h5
      · exact absurd h4 (hnew r h5 j)
    · rcases hres.mp h3 with h5 | ⟨rfl, -⟩
      · exact absurd h5 (hnew r h4 k)
      · rfl
  case unresolved =>
    intro r h2
    rw [hdisp]
    exact h.unresolved fun j h3 => h2 j (hres.mpr (Or.inl h3))
  case begun =>
    intro j r h2 h3
    rw [hdisp]
    by_cases hj : j = i
    · subst hj
      rcases h3 with ⟨a, h4, -, r', h5⟩ | h3
      · obtain rfl := eq_of_mem_active hactive h4
        cases h5
      · exact absurd ((hspent j).mp h3) hnotSpent
    · exact h.begun ((hother r hj).mp h2) ((begun_replaced_of_ne h1 hactive rfl hd hj).mp h3)
  case held =>
    intro j r h2 h3
    rw [hdisp]
    by_cases hj : j = i
    · subst hj
      exact h.unresolved (hnew r ((hself r).mp h2))
    · exact h.held ((hother r hj).mp h2) (mt (begun_replaced_of_ne h1 hactive rfl hd hj).mpr h3)
  case gone =>
    intro j r h2 h3
    rw [hdisp]
    by_cases hj : j = i
    · subst hj
      rcases hres.mp h2 with h4 | ⟨-, h4⟩
      · exact h.gone h4 (hold r)
      · exact absurd ((hself r).mpr h4) h3
    · rcases hres.mp h2 with h4 | ⟨h4, -⟩
      · exact h.gone h4 (mt (hother r hj).mpr h3)
      · exact absurd h4 hj
  case disposing =>
    intro a r h2 h3
    obtain rfl := eq_of_mem_active hactive h2
    cases h3
  case cleared =>
    intro a r h2 h3
    obtain rfl := eq_of_mem_active hactive h2
    rcases h3 with h3 | h3
    · cases h3
    · cases h3
  case threw =>
    intro a thrown h2 h3
    obtain rfl := eq_of_mem_active hactive h2
    cases h3
  case lastTask =>
    intro a j h2 h3
    obtain rfl := eq_of_mem_active hactive h2
    cases h3
  case pendingLast =>
    intro j k h2
    rw [hd]
    exact h.pendingLast h2
  case ending =>
    intro j h2
    rw [hd] at h2
    exact (h.ending h2).imp_right (hspent j).mpr

end ResourceInv

end LynxTrace.Ui
