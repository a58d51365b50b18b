import LynxTrace.Ui.QuerySlot
import Mathlib.Data.List.Nodup

/-!
# Ui.QueueOrder — what the queue runs, and where cached data come from

For every run: one task is active at most, and what is cached has been resolved by a `queryFn` that `use` was given
for the key of the entry (`QueueInv`).
-/

namespace LynxTrace.Ui

variable {I K F V X : Type*}

/-! ### Pending tasks -/

section Pending

variable [DecidableEq I] {i : I} {task : Task I K F} {pending : List (I × Task I K F)}

theorem mem_setPending_self : (i, task) ∈ setPending i task pending := by
  induction pending with
  | nil => exact List.mem_cons_self
  | cons p pending ih =>
    rw [setPending]
    split_ifs
    · exact List.mem_cons_self
    · exact List.mem_cons_of_mem _ ih

theorem mem_setPending_of_ne {p : I × Task I K F} (hp : p ∈ pending) (hne : p.1 ≠ i) :
    p ∈ setPending i task pending := by
  induction pending with
  | nil => cases hp
  | cons q pending ih =>
    rw [setPending]
    rcases List.mem_cons.mp hp with rfl | hp
    · rw [if_neg hne]
      exact List.mem_cons_self
    · split_ifs
      · exact List.mem_cons_of_mem _ hp
      · exact List.mem_cons_of_mem _ (ih hp)

theorem map_fst_setPending : (setPending i task pending).map Prod.fst =
    if i ∈ pending.map Prod.fst then pending.map Prod.fst else pending.map Prod.fst ++ [i] := by
  induction pending with
  | nil => rfl
  | cons p pending ih =>
    rw [setPending]
    by_cases h : p.1 = i
    · rw [if_pos h, List.map_cons, List.map_cons, h, if_pos List.mem_cons_self]
    · rw [if_neg h, List.map_cons, ih, List.map_cons]
      by_cases h' : i ∈ pending.map Prod.fst
      · rw [if_pos h', if_pos (List.mem_cons_of_mem _ h')]
      · rw [if_neg h', if_neg (List.not_mem_cons_of_ne_of_not_mem (Ne.symm h) h'), List.cons_append]

theorem nodup_setPending (h : (pending.map Prod.fst).Nodup) :
    ((setPending i task pending).map Prod.fst).Nodup := by
  rw [map_fst_setPending]
  split_ifs with hi
  · exact h
  · refine List.nodup_append.mpr ⟨h, List.pairwise_singleton _ i, ?_⟩
    rintro a ha b hb rfl
    exact hi (List.mem_singleton.mp hb ▸ ha)

/-- The other tasks are those of other slots. -/
theorem mem_setPending {p : I × Task I K F} (h : (pending.map Prod.fst).Nodup)
    (hp : p ∈ setPending i task pending) : p = (i, task) ∨ p ∈ pending ∧ p.1 ≠ i := by
  induction pending with
  | nil => exact Or.inl (List.mem_singleton.mp hp)
  | cons q pending ih =>
    rw [List.map_cons, List.nodup_cons] at h
    rw [setPending] at hp
    split_ifs at hp with hq
    · rcases List.mem_cons.mp hp with h1 | h1
      · exact Or.inl h1
      · refine Or.inr ⟨List.mem_cons_of_mem _ h1, ?_⟩
        intro h2
        exact h.1 (hq.trans h2.symm ▸ List.mem_map_of_mem h1)
    · rcases List.mem_cons.mp hp with rfl | hp
      · exact Or.inr ⟨List.mem_cons_self, hq⟩
      · rcases ih h.2 hp with h1 | ⟨h1, h2⟩
        · exact Or.inl h1
        · exact Or.inr ⟨List.mem_cons_of_mem _ h1, h2⟩

end Pending

/-! ### What the queue does next -/

namespace System

variable {s : System I K F V X}

theorem runNext_running (h : s.running = true) : s.runNext = (s, []) := by
  rw [runNext, if_pos h]

theorem runNext_nil (h : s.pending = []) : s.runNext = (s, []) := by
  rw [runNext, h]
  split_ifs <;> rfl

/-- The state in which the first pending task has been started. -/
def started (s : System I K F V X) (task : Task I K F) (pending : List (I × Task I K F)) : System I K F V X :=
  { s with
    pending := pending
    running := true
    active := s.active ++ [⟨task, (s.slots task.slot).disposeCache⟩] }

theorem runNext_cons {i : I} {task : Task I K F} {pending : List (I × Task I K F)} (h : s.running = false)
    (hp : s.pending = (i, task) :: pending) :
    s.runNext = (s.started task pending, (s.slots task.slot).disposeCache.events task.slot) := by
  rw [runNext, hp, if_neg (by rw [h]; exact Bool.false_ne_true)]
  rfl

/-- The first pending task is started, or nothing happens. -/
theorem runNext_cases (s : System I K F V X) :
    ((s.running = true ∨ s.pending = []) ∧ s.runNext = (s, [])) ∨
      ∃ i task pending, s.running = false ∧ s.pending = (i, task) :: pending ∧
        s.runNext = (s.started task pending, (s.slots task.slot).disposeCache.events task.slot) := by
  cases hr : s.running with
  | true => exact Or.inl ⟨Or.inl rfl, runNext_running hr⟩
  | false =>
    cases hp : s.pending with
    | nil => exact Or.inl ⟨Or.inr rfl, runNext_nil hp⟩
    | cons p pending => exact Or.inr ⟨p.1, p.2, pending, rfl, rfl, runNext_cons hr hp⟩

@[simp] theorem slots_runNext (s : System I K F V X) : s.runNext.1.slots = s.slots := by
  rcases s.runNext_cases with ⟨-, h⟩ | ⟨i, task, pending, -, -, h⟩ <;> rw [h]
  rfl

/-! ### What leaves the caches alone -/

/-- Nothing of the queue differs, nor a cache, nor which slots are disposed of. -/
structure SameCaches (s s' : System I K F V X) : Prop where
  active : s'.active = s.active
  running : s'.running = s.running
  pending : s'.pending = s.pending
  cache : ∀ i, (s'.slots i).cache = (s.slots i).cache
  disposed : ∀ i, (s'.slots i).disposed = (s.slots i).disposed

section Slots

variable [DecidableEq I]

@[simp] theorem slots_setSlot_self (s : System I K F V X) (i : I) (slot : QuerySlot K V X) :
    (s.setSlot i slot).slots i = slot := Function.update_self ..

theorem slots_setSlot_of_ne (s : System I K F V X) {i j : I} (h : j ≠ i) (slot : QuerySlot K V X) :
    (s.setSlot i slot).slots j = s.slots j := Function.update_of_ne h ..

theorem SameCaches.setSlot {i : I} {slot : QuerySlot K V X} (hcache : slot.cache = (s.slots i).cache)
    (hdisposed : slot.disposed = (s.slots i).disposed) : SameCaches s (s.setSlot i slot) := by
  refine ⟨rfl, rfl, rfl, ?_, ?_⟩
  · intro j
    by_cases h : j = i
    · subst h
      rw [slots_setSlot_self, hcache]
    · rw [slots_setSlot_of_ne s h]
  · intro j
    by_cases h : j = i
    · subst h
      rw [slots_setSlot_self, hdisposed]
    · rw [slots_setSlot_of_ne s h]

omit [DecidableEq I] in
theorem SameCaches.trans {s' s'' : System I K F V X} (h : SameCaches s s') (h' : SameCaches s' s'') :
    SameCaches s s'' :=
  ⟨h'.active.trans h.active, h'.running.trans h.running, h'.pending.trans h.pending,
    fun i => (h'.cache i).trans (h.cache i), fun i => (h'.disposed i).trans (h.disposed i)⟩

omit [DecidableEq I] in
theorem sameCaches_cancelSignal (s : System I K F V X) (i : I) : SameCaches s (s.cancelSignal i) := by
  unfold cancelSignal
  split <;> exact ⟨rfl, rfl, rfl, fun _ => rfl, fun _ => rfl⟩

/-- Up to the schedule, `use` only writes the pending key and the signals. -/
theorem startQuery_eq (s : System I K F V X) (i : I) (key : K) (queryFn : F) :
    ∃ s1 signal, SameCaches s s1 ∧ s.startQuery i key queryFn = s1.schedule i (.query i key queryFn signal) := by
  have h1 := sameCaches_cancelSignal s i
  let s0 : System I K F V X := { s.cancelSignal i with nextSignal := (s.cancelSignal i).nextSignal + 1 }
  have h2 : SameCaches (s.cancelSignal i) s0 := ⟨rfl, rfl, rfl, fun _ => rfl, fun _ => rfl⟩
  refine ⟨_, _, ?_, rfl⟩
  exact (h1.trans h2).trans (SameCaches.setSlot rfl rfl)

end Slots

end System

section Finalise

variable (ops : KeyOps K) (slot : QuerySlot K V X) (key : K)

@[simp] theorem cache_finaliseThrown (thrown : Thrown X) : (slot.finaliseThrown ops key thrown).cache = slot.cache := by
  cases thrown <;> rfl

@[simp] theorem disposed_finaliseThrown (thrown : Thrown X) :
    (slot.finaliseThrown ops key thrown).disposed = slot.disposed := by
  cases thrown <;> rfl

end Finalise

/-! ### The invariant of every run -/

/-- The `queryFn` of the task was given to `use` for its key. -/
def Passed (trace : List (Event I K F V X)) : Task I K F → Prop
  | .query slot key queryFn _ => .used slot key queryFn ∈ trace
  | .dispose _ => True

structure QueueInv (ops : KeyOps K) (trace : List (Event I K F V X)) (s : System I K F V X) : Prop where
  serial : s.active = [] ∧ s.running = false ∨ ∃ a, s.active = [a] ∧ s.running = true
  pending : ∀ p ∈ s.pending, p.2.slot = p.1 ∧ Passed trace p.2
  nodup : (s.pending.map Prod.fst).Nodup
  active : ∀ a ∈ s.active, Passed trace a.task
  cached : ∀ i entry, (s.slots i).cache = some entry → entry.keyStr = ops.stringify entry.key ∧
    ∃ queryFn, .used i entry.key queryFn ∈ trace ∧ .resolved i entry.key queryFn entry.data ∈ trace

namespace QueueInv

variable {ops : KeyOps K} {trace trace' : List (Event I K F V X)} {s s' : System I K F V X}

theorem init : QueueInv ops [] (System.init : System I K F V X) where
  serial := Or.inl ⟨rfl, rfl⟩
  pending _ hp := absurd hp List.not_mem_nil
  nodup := List.nodup_nil
  active _ ha := absurd ha List.not_mem_nil
  cached _ _ := nofun

theorem passed_mono (h : trace ⊆ trace') {task : Task I K F} (hp : Passed trace task) : Passed trace' task := by
  cases task with
  | query => exact h hp
  | dispose => trivial

theorem mono (h : QueueInv ops trace s) (hsub : trace ⊆ trace') : QueueInv ops trace' s where
  serial := h.serial
  pending p hp := ⟨(h.pending p hp).1, passed_mono hsub (h.pending p hp).2⟩
  nodup := h.nodup
  active a ha := passed_mono hsub (h.active a ha)
  cached i entry he := by
    obtain ⟨h1, queryFn, h2, h3⟩ := h.cached i entry he
    exact ⟨h1, queryFn, hsub h2, hsub h3⟩

theorem active_eq (h : QueueInv ops trace s) {n : ℕ} {a : ActiveTask I K F X} (ha : s.active[n]? = some a) :
    n = 0 ∧ s.active = [a] ∧ s.running = true := by
  rcases h.serial with ⟨h1, -⟩ | ⟨a', h1, h2⟩
  · rw [h1] at ha
    cases ha
  · rw [h1] at ha
    cases n with
    | zero => exact ⟨rfl, Option.some.inj ha ▸ h1, h2⟩
    | succ n => cases ha

theorem runNext (h : QueueInv ops trace s) : QueueInv ops trace s.runNext.1 := by
  rcases s.runNext_cases with ⟨-, heq⟩ | ⟨i, task, pending, h1, h2, heq⟩
  · rw [heq]
    exact h
  · rw [heq]
    have hp := h.pending
    have hn := h.nodup
    rw [h2] at hp hn
    have hidle : s.active = [] := by
      rcases h.serial with ⟨h3, -⟩ | ⟨a, -, h3⟩
      · exact h3
      · cases h1.symm.trans h3
    refine ⟨Or.inr ⟨_, by rw [System.started, hidle]; rfl, rfl⟩, ?_, (List.nodup_cons.mp hn).2, ?_, h.cached⟩
    · intro p hp'
      exact hp p (List.mem_cons_of_mem _ hp')
    · intro a ha
      rw [System.started, hidle] at ha
      obtain rfl := List.mem_singleton.mp ha
      exact (hp _ List.mem_cons_self).2

theorem sameCaches (h : QueueInv ops trace s) (hs : System.SameCaches s s') : QueueInv ops trace s' where
  serial := by rw [hs.active, hs.running]; exact h.serial
  pending := by rw [hs.pending]; exact h.pending
  nodup := by rw [hs.pending]; exact h.nodup
  active := by rw [hs.active]; exact h.active
  cached i entry he := h.cached i entry (hs.cache i ▸ he)

section Steps

variable [DecidableEq I]

theorem setPending (h : QueueInv ops trace s) {i : I} {task : Task I K F} (hi : task.slot = i)
    (ht : Passed trace task) : QueueInv ops trace { s with pending := Ui.setPending i task s.pending } := by
  refine ⟨h.serial, ?_, nodup_setPending h.nodup, h.active, h.cached⟩
  intro p hp
  rcases mem_setPending h.nodup hp with rfl | ⟨h1, -⟩
  · exact ⟨hi, ht⟩
  · exact h.pending p h1

theorem schedule (h : QueueInv ops trace s) {i : I} {task : Task I K F} (hi : task.slot = i)
    (ht : Passed trace task) : QueueInv ops trace (s.schedule i task).1 :=
  (h.setPending hi ht).runNext

omit [DecidableEq I] in
/-- The active task goes on. -/
theorem setPhase (h : QueueInv ops trace s) {n : ℕ} {task : Task I K F} {phase0 : Phase X}
    (ha : s.active[n]? = some ⟨task, phase0⟩) (phase : Phase X) : QueueInv ops trace (s.setPhase n task phase) := by
  obtain ⟨rfl, h1, h2⟩ := h.active_eq ha
  have h3 : s.active.set 0 ⟨task, phase⟩ = [⟨task, phase⟩] := by rw [h1]; rfl
  refine ⟨Or.inr ⟨_, h3, h2⟩, h.pending, h.nodup, ?_, h.cached⟩
  intro a ha'
  rw [System.setPhase, h3] at ha'
  obtain rfl := List.mem_singleton.mp ha'
  exact h.active ⟨task, phase0⟩ (List.mem_of_getElem? ha)

omit [DecidableEq I] in
/-- The active task goes on, and caches stay. -/
theorem goOn (h : QueueInv ops trace s) {s1 : System I K F V X} (hs : System.SameCaches s s1) {n : ℕ}
    {task : Task I K F} {phase0 : Phase X} (ha : s.active[n]? = some ⟨task, phase0⟩) (phase : Phase X) :
    QueueInv ops trace (s1.setPhase n task phase) :=
  (h.sameCaches hs).setPhase (by rw [hs.active]; exact ha) phase

/-- The cache of a slot is cleared, or holds what a query has resolved to. -/
theorem setCache (h : QueueInv ops trace s) (i : I) {slot : QuerySlot K V X}
    (hslot : ∀ entry, slot.cache = some entry → entry.keyStr = ops.stringify entry.key ∧
      ∃ queryFn, .used i entry.key queryFn ∈ trace ∧ .resolved i entry.key queryFn entry.data ∈ trace) :
    QueueInv ops trace (s.setSlot i slot) := by
  refine ⟨h.serial, h.pending, h.nodup, h.active, ?_⟩
  intro j entry he
  by_cases hj : j = i
  · subst hj
    rw [System.slots_setSlot_self] at he
    exact hslot entry he
  · rw [System.slots_setSlot_of_ne s hj] at he
    exact h.cached j entry he

omit [DecidableEq I] in
theorem filter (h : QueueInv ops trace s) (p : I × Task I K F → Bool) :
    QueueInv ops trace { s with pending := s.pending.filter p } :=
  ⟨h.serial, fun q hq => h.pending q (List.mem_of_mem_filter hq),
    h.nodup.sublist (List.filter_sublist.map Prod.fst), h.active, h.cached⟩

/-- The state in which `dispose` schedules the last task. -/
theorem markDisposed (h : QueueInv ops trace s) (i : I) : QueueInv ops trace (s.markDisposed i) := by
  have h1 : QueueInv ops trace (s.setSlot i { s.slots i with disposed := true }) :=
    h.setCache i fun entry he => h.cached i entry he
  exact (h1.filter _).sameCaches (System.SameCaches.setSlot rfl rfl)

theorem dispose (h : QueueInv ops trace s) (i : I) : QueueInv ops trace (s.dispose i).1 := by
  unfold System.dispose
  split_ifs
  · exact h
  · exact (h.markDisposed i).schedule rfl trivial

end Steps

end QueueInv

/-! ### Calls of `use` -/

section Use

variable {ops : KeyOps K} {key : K} {retainOn : List String}

theorem queryResult_fresh {slot : QuerySlot K V X} (h : (slot.queryResult ops key retainOn).isFresh = true) :
    ∃ entry, slot.cache = some entry ∧ entry.keyStr = ops.stringify key ∧
      (slot.queryResult ops key retainOn).data = some entry.data := by
  unfold QuerySlot.queryResult at h ⊢
  dsimp only at h ⊢
  split at h
  · cases h
  · rename_i entry he
    split_ifs at h with h1 h2
    exact ⟨entry, he, h1, by rw [if_pos h1]⟩

/-- What is returned is in the cache, and may be used for the key. -/
theorem queryResult_data {slot : QuerySlot K V X} {data : Data V}
    (h : (slot.queryResult ops key retainOn).data = some data) :
    ∃ entry, slot.cache = some entry ∧ entry.data = data ∧
      (entry.keyStr = ops.stringify key ∨ QuerySlot.canUseStaleData ops entry.key key retainOn = true) := by
  unfold QuerySlot.queryResult at h
  dsimp only at h
  split at h
  · cases h
  · rename_i entry he
    split_ifs at h with h1 h2
    · exact ⟨entry, he, Option.some.inj h, Or.inl h1⟩
    · exact ⟨entry, he, Option.some.inj h, Or.inr h2⟩

variable {e : Event I K F V X}

theorem Phase.mem_events {phase : Phase X} {i : I} (h : e ∈ phase.events i) :
    ∃ resource, phase = .disposing resource ∧ e = .asyncDispose i resource := by
  cases phase with
  | disposing resource => exact ⟨resource, rfl, List.mem_singleton.mp h⟩
  | _ => cases h

namespace System

variable {s : System I K F V X}

theorem mem_runNext (h : e ∈ s.runNext.2) : ∃ i resource, e = .asyncDispose i resource := by
  rcases s.runNext_cases with ⟨-, heq⟩ | ⟨i, task, pending, -, -, heq⟩
  · rw [heq] at h
    cases h
  · rw [heq] at h
    obtain ⟨resource, -, h1⟩ := Phase.mem_events h
    exact ⟨_, resource, h1⟩

variable [DecidableEq I]

theorem mem_startQuery {i : I} {queryFn : F} (h : e ∈ (s.startQuery i key queryFn).2) :
    ∃ i resource, e = .asyncDispose i resource := by
  obtain ⟨s1, signal, -, heq⟩ := startQuery_eq s i key queryFn
  rw [heq] at h
  exact mem_runNext h

theorem mem_dispose {i : I} (h : e ∈ (s.dispose i).2) : ∃ i resource, e = .asyncDispose i resource := by
  unfold System.dispose at h
  split_ifs at h
  · cases h
  · exact mem_runNext h

theorem schedule_running (h : s.running = true) (i : I) (task : Task I K F) : (s.schedule i task).2 = [] := by
  rw [schedule, runNext_running]
  exact h

theorem cache_startQuery (s : System I K F V X) (i : I) (key : K) (queryFn : F) (j : I) :
    ((s.startQuery i key queryFn).1.slots j).cache = (s.slots j).cache := by
  obtain ⟨s1, signal, hs, heq⟩ := startQuery_eq s i key queryFn
  rw [heq, schedule, slots_runNext]
  exact hs.cache j

/-- `use` throws, or does what it does otherwise. -/
theorem use_cases (ops : KeyOps K) (s : System I K F V X) (i : I) (key : K) (queryFn : F) (enabled : Option Bool)
    (retainOn : List String) :
    (∃ err, s.use ops i key queryFn enabled retainOn = (s, [], .error err)) ∨
      (s.slots i).disposed = false ∧ (s.slots i).error.map Prod.fst ≠ some (ops.stringify key) ∧
        s.use ops i key queryFn enabled retainOn = use.query ops s i key queryFn enabled retainOn := by
  unfold use
  split_ifs with h1
  · exact Or.inl ⟨_, rfl⟩
  · rw [Bool.not_eq_true] at h1
    split
    · rename_i keyStr e he
      split_ifs with h2
      · exact Or.inl ⟨_, rfl⟩
      · refine Or.inr ⟨h1, ?_, rfl⟩
        rw [he, Option.map_some, Ne, Option.some.injEq]
        exact h2
    · rename_i he
      refine Or.inr ⟨h1, ?_, rfl⟩
      rw [he]
      exact (Option.some_ne_none _).symm

end System

end Use

/-! ### Every step -/

/-- Data returned as fresh are what a `queryFn` given for the key has resolved to. -/
def FreshReturn (ops : KeyOps K) (before : List (Event I K F V X)) : Event I K F V X → Prop
  | .returned i key (.ok result) => result.isFresh = true → ∀ data, result.data = some data →
    ∃ key' queryFn, ops.stringify key' = ops.stringify key ∧ .used i key' queryFn ∈ before ∧
      .resolved i key' queryFn data ∈ before
  | _ => True

section Steps

variable [DecidableEq I] {ops : KeyOps K} {trace : List (Event I K F V X)} {s s' : System I K F V X}
  {events : List (Event I K F V X)}

theorem QueueInv.startQuery (h : QueueInv ops trace s) {i : I} {key : K} {queryFn : F}
    (hused : .used i key queryFn ∈ trace) : QueueInv ops trace (s.startQuery i key queryFn).1 := by
  obtain ⟨s1, signal, hs, heq⟩ := System.startQuery_eq s i key queryFn
  rw [heq]
  exact (h.sameCaches hs).schedule rfl hused

/-- `use` without its last event. -/
theorem QueueInv.use (h : QueueInv ops trace s) {i : I} {key : K} {queryFn : F}
    (hused : .used i key queryFn ∈ trace) (enabled : Option Bool) (retainOn : List String) :
    QueueInv ops trace (s.use ops i key queryFn enabled retainOn).1 ∧
      FreshReturn ops trace (.returned i key (s.use ops i key queryFn enabled retainOn).2.2) := by
  rcases System.use_cases ops s i key queryFn enabled retainOn with ⟨err, heq⟩ | ⟨-, -, heq⟩
  · rw [heq]
    exact ⟨h, trivial⟩
  · have h1 : QueueInv ops trace (s.use ops i key queryFn enabled retainOn).1 := by
      rw [heq, System.use.query]
      dsimp only
      split_ifs
      · exact h.startQuery hused
      · exact h
    refine ⟨h1, ?_⟩
    rw [heq] at h1 ⊢
    intro hfresh data hdata
    obtain ⟨entry, h2, h3, h4⟩ := queryResult_fresh hfresh
    obtain ⟨h5, queryFn', h6, h7⟩ := h1.cached i entry h2
    obtain rfl := Option.some.inj (h4.symm.trans hdata)
    exact ⟨entry.key, queryFn', h5.symm.trans h3, h6, h7⟩

theorem mem_use {i : I} {key : K} {queryFn : F} {enabled : Option Bool} {retainOn : List String}
    {e : Event I K F V X} (h : e ∈ (s.use ops i key queryFn enabled retainOn).2.1) :
    ∃ i resource, e = .asyncDispose i resource := by
  rcases System.use_cases ops s i key queryFn enabled retainOn with ⟨err, heq⟩ | ⟨-, -, heq⟩
  · rw [heq] at h
    cases h
  · rw [heq, System.use.query] at h
    dsimp only at h
    split_ifs at h
    · exact System.mem_startQuery h
    · cases h

omit [DecidableEq I] in
theorem freshReturn_asyncDispose {e : Event I K F V X} (h : ∃ i resource, e = .asyncDispose i resource)
    (before : List (Event I K F V X)) : FreshReturn ops before e := by
  obtain ⟨i, resource, rfl⟩ := h
  trivial

variable {n : ℕ}

theorem QueueInv.querySettled (h : QueueInv ops trace s) {i : I} {key : K} {queryFn : F} {signal : ℕ}
    (ha : s.active[n]? = some ⟨.query i key queryFn signal, .querying⟩) (outcome : Outcome V X) :
    QueueInv ops (trace ++ (s.querySettled ops n i key queryFn signal outcome).2)
      (s.querySettled ops n i key queryFn signal outcome).1 := by
  cases outcome with
  | resolved data =>
    have h1 := h.mono (List.subset_append_left trace [.resolved i key queryFn data])
    refine (h1.setCache i ?_).setPhase ha _
    intro entry he
    obtain rfl := Option.some.inj he
    exact ⟨rfl, queryFn, List.mem_append_left _ (h.active _ (List.mem_of_getElem? ha)),
      List.mem_append_right _ List.mem_cons_self⟩
  | queryCancelled =>
    rw [show (s.querySettled ops n i key queryFn signal .queryCancelled).2 = [] from rfl, List.append_nil]
    have hs : System.SameCaches s (s.setSlot i ((s.slots i).finaliseQuery ops key none)) :=
      System.SameCaches.setSlot rfl rfl
    exact h.goOn hs ha _
  | rejected thrown =>
    rw [show (s.querySettled ops n i key queryFn signal (.rejected thrown)).2 = [] from rfl, List.append_nil]
    exact h.goOn (System.SameCaches.setSlot (cache_finaliseThrown ..) (disposed_finaliseThrown ..)) ha _

omit [DecidableEq I] in
/-- The active task is over, and `runNext` has not yet looked for another. -/
theorem QueueInv.end (h : QueueInv ops trace s) {a : ActiveTask I K F X} (ha : s.active[n]? = some a) :
    QueueInv ops trace { s with active := s.active.eraseIdx n, running := false } := by
  obtain ⟨rfl, h1, -⟩ := h.active_eq ha
  refine ⟨Or.inl ⟨?_, rfl⟩, h.pending, h.nodup, ?_, h.cached⟩
  · show s.active.eraseIdx 0 = []
    rw [h1]
    rfl
  · intro a' ha'
    exact h.active a' (List.mem_of_mem_eraseIdx ha')

namespace System

theorem step_disposeSettles {thrown : Option (Thrown X)} (h : s.step ops (.disposeSettles n thrown) = some (s', events))
    :
    ∃ task resource, s.active[n]? = some ⟨task, .disposing resource⟩ ∧ s.disposeSettled n task thrown = s' ∧
      [] = events := by
  simp only [System.step] at h
  split at h
  · rename_i task resource ha
    obtain ⟨h1, h2⟩ := Prod.mk.inj (Option.some.inj h)
    exact ⟨task, resource, ha, h1, h2⟩
  · cases h

theorem step_goesOn (h : s.step ops (.goesOn n) = some (s', events)) :
    (∃ task, s.active[n]? = some ⟨task, .cacheDisposed⟩ ∧ s.cacheDisposed n task = s' ∧ [] = events) ∨
      ∃ task thrown, s.active[n]? = some ⟨task, .disposeThrew thrown⟩ ∧ s.disposeThrew ops n task thrown = s' ∧
        [] = events := by
  simp only [System.step] at h
  split at h
  · rename_i task ha
    obtain ⟨h1, h2⟩ := Prod.mk.inj (Option.some.inj h)
    exact Or.inl ⟨task, ha, h1, h2⟩
  · rename_i task thrown ha
    obtain ⟨h1, h2⟩ := Prod.mk.inj (Option.some.inj h)
    exact Or.inr ⟨task, thrown, ha, h1, h2⟩
  · cases h

theorem step_querySettles {outcome : Outcome V X} (h : s.step ops (.querySettles n outcome) = some (s', events)) :
    ∃ i key queryFn signal, s.active[n]? = some ⟨.query i key queryFn signal, .querying⟩ ∧
      s.querySettled ops n i key queryFn signal outcome = (s', events) := by
  simp only [System.step] at h
  split at h
  · rename_i i key queryFn signal ha
    exact ⟨i, key, queryFn, signal, ha, Option.some.inj h⟩
  · cases h

theorem step_ends (h : s.step ops (.ends n) = some (s', events)) :
    ∃ task, s.active[n]? = some ⟨task, .done⟩ ∧
      { s with active := s.active.eraseIdx n, running := false }.runNext = (s', events) := by
  simp only [System.step] at h
  split at h
  · rename_i task ha
    exact ⟨task, ha, Option.some.inj h⟩
  · cases h

end System

/-- What one step keeps, whatever it is. -/
theorem QueueInv.step (h : QueueInv ops trace s) (hfresh : AtEach (FreshReturn ops) trace) {l : Step I K F V X}
    (hstep : s.step ops l = some (s', events)) :
    QueueInv ops (trace ++ events) s' ∧ AtEach (FreshReturn ops) (trace ++ events) := by
  cases l with
  | use i key queryFn enabled retainOn =>
    obtain ⟨rfl, rfl⟩ := Prod.mk.inj (Option.some.inj hstep)
    have hused : Event.used i key queryFn ∈
        trace ++ .used i key queryFn :: (s.use ops i key queryFn enabled retainOn).2.1 :=
      List.mem_append_right _ List.mem_cons_self
    obtain ⟨h1, h2⟩ := (h.mono (List.subset_append_left trace _)).use hused enabled retainOn
    rw [← List.append_assoc]
    refine ⟨h1.mono (List.subset_append_left _ _), AtEach.concat (hfresh.append ?_) h2⟩
    intro e he before
    rcases List.mem_cons.mp he with rfl | he
    · trivial
    · exact freshReturn_asyncDispose (mem_use he) before
  | dispose i =>
    obtain ⟨rfl, rfl⟩ := Prod.mk.inj (Option.some.inj hstep)
    exact ⟨(h.dispose i).mono (List.subset_append_left _ _),
      hfresh.append fun e he => freshReturn_asyncDispose (System.mem_dispose he)⟩
  | disposeSettles n thrown =>
    obtain ⟨task, resource, ha, rfl, rfl⟩ := System.step_disposeSettles hstep
    rw [List.append_nil]
    refine ⟨?_, hfresh⟩
    cases thrown with
    | none =>
      refine (h.setCache task.slot ?_).setPhase ha _
      rintro entry ⟨⟩
    | some thrown => exact h.setPhase ha _
  | goesOn n =>
    rcases System.step_goesOn hstep with ⟨task, ha, rfl, rfl⟩ | ⟨task, thrown, ha, rfl, rfl⟩
    · rw [List.append_nil]
      refine ⟨?_, hfresh⟩
      cases task with
      | query => exact h.setPhase ha _
      | dispose => exact h.setPhase ha _
    · rw [List.append_nil]
      refine ⟨?_, hfresh⟩
      cases task with
      | query =>
        exact h.goOn (System.SameCaches.setSlot (cache_finaliseThrown ..) (disposed_finaliseThrown ..)) ha _
      | dispose => exact h.setPhase ha _
  | querySettles n outcome =>
    obtain ⟨i, key, queryFn, signal, ha, h1⟩ := System.step_querySettles hstep
    obtain ⟨rfl, rfl⟩ := Prod.mk.inj h1
    refine ⟨h.querySettled ha outcome, hfresh.append ?_⟩
    intro e he before
    cases outcome with
    | resolved data =>
      obtain rfl := List.mem_singleton.mp he
      trivial
    | queryCancelled => cases he
    | rejected => cases he
  | ends n =>
    obtain ⟨task, ha, h1⟩ := System.step_ends hstep
    obtain rfl : _ = s' := congrArg Prod.fst h1
    obtain rfl : _ = events := congrArg Prod.snd h1
    exact ⟨(h.end ha).runNext.mono (List.subset_append_left _ _),
      hfresh.append fun e he => freshReturn_asyncDispose (System.mem_runNext he)⟩

end Steps

end LynxTrace.Ui
