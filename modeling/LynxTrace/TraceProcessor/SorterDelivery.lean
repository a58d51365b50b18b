import LynxTrace.TraceProcessor.SortedQueues

/-!
# TraceProcessor.SorterDelivery — what reaches the sinks of the sorter

The events in the queues and the calls of the sinks together are always what was pushed (`Ledger`).  A token reaches its
sink as the token buffer gives it back (`restoredToken`).
-/

namespace LynxTrace.TraceProcessor

/-! ### Events in the queues -/

/-- The events of the queues, with their streams. -/
def pendingFrom (stream : ℕ) : List Queue → List (ℕ × TimestampedEvent)
  | [] => []
  | q :: queues => q.events.map (stream, ·) ++ pendingFrom (stream + 1) queues

theorem pendingFrom_append (stream : ℕ) (queues : List Queue) (q : Queue) :
    pendingFrom stream (queues ++ [q]) = pendingFrom stream queues ++ q.events.map (stream + queues.length, ·) := by
  induction queues generalizing stream with
  | nil => simp [pendingFrom]
  | cons q' queues ih =>
    rw [List.cons_append, pendingFrom, ih, pendingFrom, List.append_assoc, List.length_cons]
    rw [show stream + 1 + queues.length = stream + (queues.length + 1) by omega]

theorem length_pendingFrom (stream : ℕ) (queues : List Queue) :
    (pendingFrom stream queues).length = (queues.map (·.events.length)).sum := by
  induction queues generalizing stream with
  | nil => rfl
  | cons q queues ih => simp [pendingFrom, ih]

variable {queues : List Queue}

theorem mem_pendingFrom {stream : ℕ} {p : ℕ × TimestampedEvent} (h : p ∈ pendingFrom stream queues) :
    ∃ i q, queues[i]? = some q ∧ p.1 = stream + i ∧ p.2 ∈ q.events := by
  induction queues generalizing stream with
  | nil => simp [pendingFrom] at h
  | cons q queues ih =>
    rcases List.mem_append.mp h with h | h
    · obtain ⟨e, he, rfl⟩ := List.mem_map.mp h
      exact ⟨0, q, rfl, rfl, he⟩
    · obtain ⟨i, q', hi, hp, he⟩ := ih h
      exact ⟨i + 1, q', hi, by omega, he⟩

variable {i : ℕ} {q q' : Queue}

theorem mem_pendingFrom_of (stream : ℕ) (hq : queues[i]? = some q) {e : TimestampedEvent} (he : e ∈ q.events) :
    (stream + i, e) ∈ pendingFrom stream queues := by
  induction queues generalizing stream i with
  | nil => simp at hq
  | cons q' queues ih =>
    cases i with
    | zero =>
      rw [List.getElem?_cons_zero, Option.some.injEq] at hq
      subst hq
      exact List.mem_append_left _ (List.mem_map_of_mem he)
    | succ i =>
      rw [List.getElem?_cons_succ] at hq
      have hmem := ih (stream + 1) hq
      rw [show stream + 1 + i = stream + (i + 1) by omega] at hmem
      exact List.mem_append_right _ hmem

/-- Events of one queue may be taken out of all. -/
theorem pendingFrom_set (stream : ℕ) (hq : queues[i]? = some q) (q' : Queue) (taken : List TimestampedEvent)
    (hperm : q.events.Perm (taken ++ q'.events)) :
    (pendingFrom stream queues).Perm (taken.map (stream + i, ·) ++ pendingFrom stream (queues.set i q')) := by
  induction queues generalizing stream i with
  | nil => simp at hq
  | cons q₀ queues ih =>
    cases i with
    | zero =>
      rw [List.getElem?_cons_zero, Option.some.injEq] at hq
      subst hq
      simp only [pendingFrom, List.set_cons_zero, Nat.add_zero]
      have hmap := hperm.map (stream, ·)
      rw [List.map_append] at hmap
      rw [← List.append_assoc]
      exact hmap.append_right _
    | succ i =>
      rw [List.getElem?_cons_succ] at hq
      have hrest := ih (stream + 1) hq
      simp only [pendingFrom, List.set_cons_succ]
      rw [show stream + (i + 1) = stream + 1 + i by omega]
      refine (hrest.append_left _).trans ?_
      rw [← List.append_assoc, ← List.append_assoc]
      exact List.perm_append_comm.append_right _

/-! ### The ledger -/

/-- The call that an event in a queue stands for. -/
def callOf (tok : AllocId → Token) (p : ℕ × TimestampedEvent) : SinkCall :=
  ⟨p.1, p.2.ts, restoredToken (tok p.2.allocId)⟩

/-- What is pushed, called and still pending. -/
structure Ledger (tok : AllocId → Token) (accepted : List SinkCall) (s : TraceSorter)
    (pending : List (ℕ × TimestampedEvent)) : Prop where
  tokens : Consistent ⟨s.tokenBuffer, pending.map fun p => (p.2.allocId, tok p.2.allocId)⟩
  accounted : (s.sorted ++ s.discarded ++ pending.map (callOf tok)).Perm accepted
  ordered : s.sorted.Pairwise fun a b => a.ts ≤ b.ts
  latest : ∀ c ∈ s.sorted, c.ts ≤ s.latestPushedEventTs
  pushMode : s.eventHandling = .kSortAndPush → s.pushEventOutOfOrder = s.discarded.length
  dropMode : s.eventHandling = .kSortAndDrop → s.sorted = []

variable {tok : AllocId → Token} {s s' : TraceSorter}

theorem Ledger.perm {accepted : List SinkCall} {pending pending' : List (ℕ × TimestampedEvent)}
    (h : Ledger tok accepted s pending) (hperm : pending.Perm pending') : Ledger tok accepted s pending' :=
  { h with
    tokens := h.tokens.perm (hperm.map _)
    accounted := ((hperm.symm.map _).append_left _).trans h.accounted }

/-- What extraction leaves alone. -/
structure Frame (s s' : TraceSorter) : Prop where
  queues : s'.queues = s.queues
  eventHandling : s'.eventHandling = s.eventHandling
  useSlowSorting : s'.useSlowSorting = s.useSlowSorting
  negativeTimestampDropped : s'.negativeTimestampDropped = s.negativeTimestampDropped

theorem Frame.refl (s : TraceSorter) : Frame s s := ⟨rfl, rfl, rfl, rfl⟩

theorem Frame.trans {s'' : TraceSorter} (h : Frame s s') (h' : Frame s' s'') : Frame s s'' :=
  ⟨h'.queues.trans h.queues, h'.eventHandling.trans h.eventHandling, h'.useSlowSorting.trans h.useSlowSorting,
    h'.negativeTimestampDropped.trans h.negativeTimestampDropped⟩

/-- A token is extracted as its sink's type. -/
theorem Consistent.extractAs {b : TraceTokenBuffer} {id : AllocId} {t : Token} {live : List (AllocId × Token)}
    (hs : Consistent ⟨b, (id, t) :: live⟩) {sink : SinkType} (hfits : sink.fits t) :
    ∃ b', b.extractAs id sink = some (restoredToken t, b') ∧ Consistent ⟨b', live⟩ := by
  have hfree : Consistent ⟨_, [] ++ live⟩ := hs.free rfl
  have hmem : (id, t) ∈ (TokenSystem.mk b ((id, t) :: live)).live := List.mem_cons_self
  rcases t with ted | ⟨words, nonempty⟩
  · cases sink with
    | trackEvent =>
      refine ⟨_, ?_, hfree⟩
      rw [TraceTokenBuffer.extractAs, hs.extract hmem]
      rfl
    | jsonEvent | object n => simp [SinkType.fits] at hfits
  · have hobject := hs.extractObject hmem
    cases sink with
    | trackEvent => simp [SinkType.fits] at hfits
    | jsonEvent =>
      refine ⟨_, ?_, hfree⟩
      have hlen : words.length = SinkType.jsonEvent.words := by simpa [SinkType.fits] using hfits
      rw [hlen] at hobject
      simp only [TraceTokenBuffer.extractAs, hobject, Option.bind_eq_bind, Option.bind_some, dif_pos nonempty]
      rfl
    | object n =>
      refine ⟨_, ?_, hfree⟩
      have hlen : words.length = (SinkType.object n).words := by simpa [SinkType.fits] using hfits
      rw [hlen] at hobject
      simp only [TraceTokenBuffer.extractAs, hobject, Option.bind_eq_bind, Option.bind_some, dif_pos nonempty]
      rfl

/-- What holds of the calls when no event comes late. -/
structure InOrder (s s' : TraceSorter) (calls : List SinkCall) (latest : ℤ) : Prop where
  sorted : s'.sorted = s.sorted ++ calls
  discarded : s'.discarded = s.discarded
  latest : s'.latestPushedEventTs = latest

/-- An event goes to its sink, or is discarded. -/
theorem Ledger.extractEvent {accepted : List SinkCall} {e : TimestampedEvent} {pending : List (ℕ × TimestampedEvent)}
    (h : Ledger tok accepted s ((i, e) :: pending)) {sink : SinkType} (hfits : sink.fits (tok e.allocId)) :
    ∃ s', s.extractEvent i sink e = some s' ∧ Ledger tok accepted s' pending ∧ Frame s s' ∧
      (s.eventHandling = .kSortAndPush → s.latestPushedEventTs ≤ e.ts →
        InOrder s s' [callOf tok (i, e)] e.ts) := by
  obtain ⟨b', hextract, htokens⟩ := Consistent.extractAs h.tokens hfits
  have haccounted := h.accounted
  rw [List.map_cons] at haccounted
  have hdiscard : (s.sorted ++ (s.discarded ++ [callOf tok (i, e)]) ++ pending.map (callOf tok)).Perm accepted := by
    simpa only [List.append_assoc, List.singleton_append] using haccounted
  have hsorted : (s.sorted ++ [callOf tok (i, e)] ++ s.discarded ++ pending.map (callOf tok)).Perm accepted := by
    refine List.Perm.trans ?_ hdiscard
    simp only [List.append_assoc]
    refine List.Perm.append_left _ ?_
    rw [← List.append_assoc, ← List.append_assoc]
    exact List.perm_append_comm.append_right _
  simp only [TraceSorter.extractEvent, hextract, Option.bind_eq_bind, Option.bind_some]
  by_cases hlate : e.ts < s.latestPushedEventTs
  · rw [if_pos hlate]
    refine ⟨_, rfl, ⟨htokens, hdiscard, h.ordered, h.latest, fun hmode => ?_, h.dropMode⟩, ⟨rfl, rfl, rfl, rfl⟩,
      fun _ hle => absurd hlate (not_lt.mpr hle)⟩
    simp only [List.length_append, List.length_singleton, h.pushMode hmode]
  · rw [if_neg hlate]
    have hle := not_lt.mp hlate
    by_cases hmode : s.eventHandling = .kSortAndDrop
    · rw [if_pos hmode]
      refine ⟨_, rfl, ⟨htokens, hdiscard, h.ordered, fun c hc => (h.latest c hc).trans hle, fun hpush => ?_,
        h.dropMode⟩, ⟨rfl, rfl, rfl, rfl⟩, fun hpush => ?_⟩
      · exact absurd (hmode.symm.trans hpush) (by decide)
      · exact absurd (hmode.symm.trans hpush) (by decide)
    · rw [if_neg hmode]
      refine ⟨_, rfl, ⟨htokens, hsorted, ?_, fun c hc => ?_, h.pushMode, fun hdrop => absurd hdrop hmode⟩,
        ⟨rfl, rfl, rfl, rfl⟩, fun _ _ => ⟨rfl, rfl, rfl⟩⟩
      · refine List.pairwise_append.mpr ⟨h.ordered, List.pairwise_singleton _ _, fun a ha b hb => ?_⟩
        rw [List.mem_singleton.mp hb]
        exact (h.latest a ha).trans hle
      · rcases List.mem_append.mp hc with hc | hc
        · exact (h.latest c hc).trans hle
        · rw [List.mem_singleton.mp hc]

/-! ### One queue -/

/-- The events of a queue from its front on, as far as the limits go. -/
theorem Ledger.extractEvents {accepted : List SinkCall} (limit : AllocId) (minQueueTs1 : ℤ) (sink : SinkType)
    {rest : List (ℕ × TimestampedEvent)} (events : List TimestampedEvent)
    (h : Ledger tok accepted s (events.map (i, ·) ++ rest)) (hfits : ∀ e ∈ events, sink.fits (tok e.allocId)) :
    ∃ n s', TraceSorter.extractEvents limit minQueueTs1 i sink events s = some (n, s') ∧
      Ledger tok accepted s' ((events.drop n).map (i, ·) ++ rest) ∧ Frame s s' ∧
      (∀ e ∈ events.take n, e.ts ≤ minQueueTs1) ∧
      (∀ e, events.head? = some e → e.allocId.lt limit → e.ts ≤ minQueueTs1 → 0 < n) ∧
      (s.eventHandling = .kSortAndPush → TimestampedEvent.Ordered events →
        (∀ e ∈ events, s.latestPushedEventTs ≤ e.ts) → ∃ latest,
          InOrder s s' ((events.take n).map fun e => callOf tok (i, e)) latest ∧
          (∀ e ∈ events.drop n, latest ≤ e.ts) ∧
          (latest = s.latestPushedEventTs ∨ ∃ e ∈ events.take n, latest = e.ts)) := by
  induction events generalizing s with
  | nil =>
    refine ⟨0, s, rfl, h, Frame.refl s, by simp, by simp, fun _ _ _ => ⟨s.latestPushedEventTs, ⟨?_, rfl, rfl⟩, by simp,
      .inl rfl⟩⟩
    simp
  | cons e events ih =>
    have hstop : ∃ s', some (0, s) = some (0, s') ∧
        Ledger tok accepted s' (((e :: events).drop 0).map (i, ·) ++ rest) ∧ Frame s s' ∧
        (s.eventHandling = .kSortAndPush → TimestampedEvent.Ordered (e :: events) →
          (∀ a ∈ e :: events, s.latestPushedEventTs ≤ a.ts) → ∃ latest,
            InOrder s s' (((e :: events).take 0).map fun e => callOf tok (i, e)) latest ∧
            (∀ a ∈ (e :: events).drop 0, latest ≤ a.ts) ∧
            (latest = s.latestPushedEventTs ∨ ∃ a ∈ (e :: events).take 0, latest = a.ts)) :=
      ⟨s, rfl, h, Frame.refl s, fun _ _ hle => ⟨s.latestPushedEventTs, ⟨by simp, rfl, rfl⟩, hle, .inl rfl⟩⟩
    rw [TraceSorter.extractEvents]
    by_cases hlimit : e.allocId.lt limit
    · by_cases hts : e.ts > minQueueTs1
      · obtain ⟨s', heq, hledger, hframe, horder⟩ := hstop
        rw [if_neg (not_not.mpr hlimit), if_pos hts]
        refine ⟨0, s', heq, hledger, hframe, by simp, fun a ha _ hle => ?_, horder⟩
        rw [List.head?_cons, Option.some.injEq] at ha
        subst ha
        exact absurd hts (not_lt.mpr hle)
      · obtain ⟨s₁, hextract, hledger, hframe, horder⟩ := h.extractEvent (hfits e List.mem_cons_self)
        obtain ⟨n, s', hrest, hledger', hframe', htake, -, horder'⟩ :=
          ih hledger fun a ha => hfits a (List.mem_cons_of_mem _ ha)
        rw [if_neg (not_not.mpr hlimit), if_neg hts, hextract]
        simp only [Option.bind_eq_bind, Option.bind_some, hrest]
        refine ⟨n + 1, s', rfl, hledger', hframe.trans hframe', fun a ha => ?_, fun _ _ _ _ => Nat.succ_pos n,
          fun hpush hsorted hle => ?_⟩
        · rw [List.take_succ_cons] at ha
          rcases List.mem_cons.mp ha with rfl | ha
          · exact not_lt.mp hts
          · exact htake a ha
        · obtain ⟨hfirst, hothers⟩ := List.pairwise_cons.mp hsorted
          have hcall := horder hpush (hle e List.mem_cons_self)
          obtain ⟨latest, hcalls, hdrop, hwhich⟩ := horder' (hframe.eventHandling.trans hpush) hothers fun a ha =>
            hcall.latest ▸ hfirst a ha
          refine ⟨latest, ⟨?_, hcalls.discarded.trans hcall.discarded, hcalls.latest⟩, hdrop, .inr ?_⟩
          · rw [hcalls.sorted, hcall.sorted, List.take_succ_cons, List.map_cons, List.append_assoc,
              List.singleton_append]
          · rcases hwhich with hwhich | ⟨a, ha, hwhich⟩
            · exact ⟨e, List.mem_cons_self, hwhich.trans hcall.latest⟩
            · exact ⟨a, List.mem_cons_of_mem _ ha, hwhich⟩
    · obtain ⟨s', heq, hledger, hframe, horder⟩ := hstop
      rw [if_pos hlimit]
      refine ⟨0, s', heq, hledger, hframe, by simp, fun a ha hlt => ?_, horder⟩
      rw [List.head?_cons, Option.some.injEq] at ha
      exact absurd (ha ▸ hlt) hlimit

/-! ### One round -/

/-- The invariant of the sorter. -/
structure Whole (tok : AllocId → Token) (accepted : List SinkCall) (s : TraceSorter) : Prop where
  queues_ok : ∀ q ∈ s.queues, q.Ok
  types : ∀ (i : ℕ) q, s.queues[i]? = some q → ∀ e ∈ q.events, q.sink.fits (tok e.allocId)
  ledger : Ledger tok accepted s (pendingFrom 0 s.queues)

/-- What extraction never changes. -/
structure Keeps (s s' : TraceSorter) : Prop where
  eventHandling : s'.eventHandling = s.eventHandling
  useSlowSorting : s'.useSlowSorting = s.useSlowSorting
  negativeTimestampDropped : s'.negativeTimestampDropped = s.negativeTimestampDropped

/-- No event in a queue comes late. -/
def Fresh (s : TraceSorter) : Prop := ∀ q ∈ s.queues, ∀ e ∈ q.events, s.latestPushedEventTs ≤ e.ts

/-- The events of a stream, sorted fast. -/
def settledEvents (s : TraceSorter) (i : ℕ) : List TimestampedEvent :=
  ((s.queues[i]?).map fun q => (q.settle fun _ => 0).events).getD []

/-- What the sink of a stream has been called with, and what it still will be. -/
def streamOut (tok : AllocId → Token) (s : TraceSorter) (i : ℕ) : List SinkCall :=
  s.sorted.filter (·.stream = i) ++ (settledEvents s i).map fun e => callOf tok (i, e)

theorem settle_of_start (h : q.sortStartIdx = 0) (key : TimestampedEvent → ℤ) : q.settle key = q := by
  simp [Queue.settle, Queue.needsSorting, h]

theorem eraseFront_start (q : Queue) (n : ℕ) : (q.eraseFront n).sortStartIdx = q.sortStartIdx := by
  unfold Queue.eraseFront
  split <;> rfl

/-- The sorter with a queue settled, after events from its front are extracted. -/
theorem Whole.set {accepted : List SinkCall} {s₁ : TraceSorter} (h : Whole tok accepted s) (hq : s.queues[i]? = some q)
    (hq' : q'.Ok) (hsink : q'.sink = q.sink) {taken : List TimestampedEvent}
    (hperm : q.events.Perm (taken ++ q'.events)) (hledger : Ledger tok accepted s₁ (pendingFrom 0 (s.queues.set i q')))
    (hqueues : s₁.queues = s.queues.set i q') : Whole tok accepted s₁ where
  queues_ok r hr := by
    rw [hqueues] at hr
    rcases List.mem_or_eq_of_mem_set hr with hr | rfl
    · exact h.queues_ok r hr
    · exact hq'
  types j r hr e he := by
    rw [hqueues] at hr
    by_cases hij : i = j
    · subst hij
      rw [List.getElem?_set_self (List.getElem?_eq_some_iff.mp hq).1, Option.some.injEq] at hr
      rw [← hr] at he ⊢
      rw [hsink]
      exact h.types i q hq e (hperm.mem_iff.mpr (List.mem_append_right _ he))
    · rw [List.getElem?_set_ne hij] at hr
      exact h.types j r hr e he
  ledger := hqueues ▸ hledger

theorem settledEvents_set (hq : s.queues[i]? = some q) (hqueues : s'.queues = s.queues.set i q') (j : ℕ) :
    settledEvents s' j = if i = j then (q'.settle fun _ => 0).events else settledEvents s j := by
  unfold settledEvents
  rw [hqueues]
  split_ifs with hij
  · subst hij
    rw [List.getElem?_set_self (List.getElem?_eq_some_iff.mp hq).1]
    rfl
  · rw [List.getElem?_set_ne hij]

/-- What a round does. -/
structure Round (tok : AllocId → Token) (accepted : List SinkCall) (limit : AllocId) (s : TraceSorter) (again : Bool)
    (s' : TraceSorter) : Prop where
  whole : Whole tok accepted s'
  keeps : Keeps s s'
  subset : ∀ p ∈ pendingFrom 0 s'.queues, p ∈ pendingFrom 0 s.queues
  fewer : again → (pendingFrom 0 s'.queues).length < (pendingFrom 0 s.queues).length
  done : ¬again → (∀ p ∈ pendingFrom 0 s.queues, p.2.allocId.lt limit) → ∀ q ∈ s'.queues, q.events = []
  fresh : s.eventHandling = .kSortAndPush → Fresh s → Fresh s' ∧ s'.discarded = s.discarded ∧
    (s.useSlowSorting = false → ∀ i, streamOut tok s' i = streamOut tok s i)

/-- The events that a round takes from the settled queue go out in order. -/
theorem fresh_set {n : ℕ} {minQueueTs1 latest : ℤ} (hok : ∀ q ∈ s.queues, q.Ok) (hq : s.queues[i]? = some q)
    (hqueues : s'.queues = s.queues.set i q') (hevents : q'.events = (q.settle s.sortKey).events.drop n)
    (hstart : q'.sortStartIdx = 0)
    (hothers : ∀ j r, s.queues[j]? = some r → r.events ≠ [] → j ≠ i → minQueueTs1 ≤ r.minTs)
    (htake : ∀ e ∈ (q.settle s.sortKey).events.take n, e.ts ≤ minQueueTs1)
    (horder : InOrder s s' (((q.settle s.sortKey).events.take n).map fun e => callOf tok (i, e)) latest)
    (hdrop : ∀ e ∈ (q.settle s.sortKey).events.drop n, latest ≤ e.ts)
    (hlatest : latest = s.latestPushedEventTs ∨ ∃ e ∈ (q.settle s.sortKey).events.take n, latest = e.ts)
    (hfresh : Fresh s) : Fresh s' ∧ s'.discarded = s.discarded ∧
      (s.useSlowSorting = false → ∀ i, streamOut tok s' i = streamOut tok s i) := by
  refine ⟨fun r hr e he => ?_, horder.discarded, fun hslow j => ?_⟩
  · rw [horder.latest]
    rw [hqueues] at hr
    obtain ⟨j, hj⟩ := List.mem_iff_getElem?.mp hr
    by_cases hij : i = j
    · subst hij
      rw [List.getElem?_set_self (List.getElem?_eq_some_iff.mp hq).1, Option.some.injEq] at hj
      rw [← hj, hevents] at he
      exact hdrop e he
    · rw [List.getElem?_set_ne hij] at hj
      have hmem := List.mem_of_getElem? hj
      rcases hlatest with hlatest | ⟨a, ha, hlatest⟩
      · rw [hlatest]
        exact hfresh r hmem e he
      · have hmin := hothers j r hj (List.ne_nil_of_mem he) (Ne.symm hij)
        calc latest = a.ts := hlatest
          _ ≤ minQueueTs1 := htake a ha
          _ ≤ r.minTs := hmin
          _ ≤ e.ts := (hok r hmem).minTs_le e he
  · have hkey : s.sortKey = fun _ => 0 := by
      unfold TraceSorter.sortKey
      rw [hslow]
      rfl
    rw [hkey] at hevents horder
    have hold : settledEvents s i = (q.settle fun _ => 0).events := by
      unfold settledEvents
      rw [hq]
      rfl
    unfold streamOut
    rw [settledEvents_set hq hqueues j, horder.sorted, List.filter_append, settle_of_start hstart]
    by_cases hij : i = j
    · subst hij
      have hall : (((q.settle fun _ => 0).events.take n).map fun e => callOf tok (i, e)).filter (·.stream = i) =
          ((q.settle fun _ => 0).events.take n).map fun e => callOf tok (i, e) := by
        refine List.filter_eq_self.mpr fun c hc => ?_
        obtain ⟨e, -, rfl⟩ := List.mem_map.mp hc
        simp [callOf]
      rw [hall, if_pos rfl, hevents, hold, List.append_assoc, ← List.map_append, List.take_append_drop]
    · have hnone : (((q.settle fun _ => 0).events.take n).map fun e => callOf tok (i, e)).filter (·.stream = j) =
          [] := by
        refine List.filter_eq_nil_iff.mpr fun c hc => ?_
        obtain ⟨e, -, rfl⟩ := List.mem_map.mp hc
        simp [callOf, hij]
      rw [hnone, if_neg hij, List.append_nil]

theorem Whole.extractRound {accepted : List SinkCall} (h : Whole tok accepted s) (limit : AllocId) :
    ∃ again s', s.extractRound limit = some (again, s') ∧ Round tok accepted limit s again s' := by
  have hscan := TraceSorter.scanQueues_spec h.queues_ok
  unfold TraceSorter.Scan.Finds at hscan
  unfold TraceSorter.extractRound
  dsimp only
  split_ifs at hscan ⊢ with hempty
  · refine ⟨false, s, rfl, h, ⟨rfl, rfl, rfl⟩, fun p hp => hp, fun hagain => absurd hagain (by decide), fun _ _ => hscan.1,
      fun _ hfresh => ⟨hfresh, rfl, fun _ _ => rfl⟩⟩
  · obtain ⟨q, hq, hne, hmin, hle, hothers⟩ := hscan
    set scan := TraceSorter.scanQueues 0 { } s.queues with hscandef
    have hqok := h.queues_ok q (List.mem_of_getElem? hq)
    have hperm := q.settle_perm s.sortKey
    have hsplit := pendingFrom_set 0 hq { q with events := [] } (q.settle s.sortKey).events (by simpa using hperm.symm)
    rw [Nat.zero_add] at hsplit
    obtain ⟨n, s₁, hextract, hledger, hframe, htake, hpos, horder⟩ :=
      (h.ledger.perm hsplit).extractEvents limit scan.minQueueTs1 q.sink (q.settle s.sortKey).events
        fun e he => h.types _ q hq e (hperm.mem_iff.mp he)
    have hsettle : (if q.needsSorting = true then q.sort s.sortKey else q) = q.settle s.sortKey := rfl
    simp only [hq, Option.bind_eq_bind, Option.bind_some, hsettle, Queue.settle_sink, hextract]
    -- the sorter with the queue in place, in either case
    have hround (q' : Queue) (b : TraceTokenBuffer) (hevents : q'.events = (q.settle s.sortKey).events.drop n)
        (hok' : q'.Ok) (hsink : q'.sink = q.sink) (hstart : q'.sortStartIdx = 0)
        (hb : ∀ live, Consistent ⟨s₁.tokenBuffer, live⟩ → Consistent ⟨b, live⟩) (s' : TraceSorter)
        (hs' : s' = { s₁ with queues := s.queues.set scan.minQueueIdx q', tokenBuffer := b }) :
        Whole tok accepted s' ∧ Keeps s s' ∧
          (pendingFrom 0 s.queues).Perm (((q.settle s.sortKey).events.take n).map (scan.minQueueIdx, ·) ++
            pendingFrom 0 s'.queues) ∧
          (s.eventHandling = .kSortAndPush → Fresh s → Fresh s' ∧ s'.discarded = s.discarded ∧
            (s.useSlowSorting = false → ∀ i, streamOut tok s' i = streamOut tok s i)) := by
      have hqueues : s'.queues = s.queues.set scan.minQueueIdx q' := by rw [hs']
      have htaken : q.events.Perm ((q.settle s.sortKey).events.take n ++ q'.events) := by
        rw [hevents, List.take_append_drop]
        exact hperm.symm
      have hall := pendingFrom_set 0 hq q' _ htaken
      rw [Nat.zero_add] at hall
      have hset : (s.queues.set scan.minQueueIdx q')[scan.minQueueIdx]? = some q' :=
        List.getElem?_set_self (List.getElem?_eq_some_iff.mp hq).1
      have hrest := pendingFrom_set 0 hset { q with events := [] } q'.events (by simp)
      rw [Nat.zero_add, List.set_set, hevents] at hrest
      have hledger' : Ledger tok accepted s' (pendingFrom 0 (s.queues.set scan.minQueueIdx q')) := by
        rw [hs']
        have hpending := hledger.perm hrest.symm
        exact ⟨hb _ hpending.tokens, hpending.accounted, hpending.ordered, hpending.latest, hpending.pushMode,
          hpending.dropMode⟩
      refine ⟨h.set hq hok' hsink htaken hledger' hqueues, ?_, by rw [hqueues]; exact hall, fun hpush hfresh => ?_⟩
      · rw [hs']
        exact ⟨hframe.eventHandling, hframe.useSlowSorting, hframe.negativeTimestampDropped⟩
      · have hqmem := List.mem_of_getElem? hq
        obtain ⟨latest, hinorder, hdrop, hlatest⟩ := horder hpush (hqok.settle_ordered s.sortKey) fun e he =>
          hfresh q hqmem e (hperm.mem_iff.mp he)
        refine fresh_set h.queues_ok hq hqueues hevents hstart hothers htake ?_ hdrop hlatest hfresh
        rw [hs']
        exact ⟨hinorder.sorted, hinorder.discarded, hinorder.latest⟩
    have hlen : (q.settle s.sortKey).events ≠ [] := fun hnil => hne (List.nil_perm.mp (hnil ▸ hperm))
    by_cases hn : n = 0
    · obtain ⟨hwhole, hkeeps, hpending, hfresh⟩ := hround (q.settle s.sortKey) s₁.tokenBuffer (by rw [hn]; rfl)
        (hqok.settle s.sortKey) (Queue.settle_sink q _) (Queue.settle_sortStartIdx q _) (fun _ hlive => hlive) _ rfl
      rw [if_pos hn, hframe.queues]
      refine ⟨false, _, rfl, hwhole, hkeeps, fun p hp => ?_, fun hagain => absurd hagain (by decide), fun _ hlimit => ?_,
        hfresh⟩
      · exact hpending.mem_iff.mpr (List.mem_append_right _ hp)
      · -- the earliest event is within both limits, so one event at least is extracted
        exfalso
        obtain ⟨e, events, hcons⟩ := List.exists_cons_of_ne_nil hlen
        have hmem : e ∈ q.events := hperm.mem_iff.mp (hcons ▸ List.mem_cons_self)
        have hfirst : e.ts = q.minTs := by
          have hordered := hqok.settle_ordered s.sortKey
          rw [hcons] at hordered
          obtain ⟨a, ha, hamin⟩ := hqok.minTs_mem hne
          have hge := hqok.minTs_le e hmem
          have hle' : e.ts ≤ a.ts := by
            rcases List.mem_cons.mp (hcons ▸ hperm.mem_iff.mpr ha) with rfl | ha
            · exact le_rfl
            · exact (List.pairwise_cons.mp hordered).1 a ha
          omega
        have hpend := mem_pendingFrom_of 0 hq hmem
        have hlt := hpos e (by rw [hcons]; rfl) (hlimit _ hpend) (by omega)
        omega
    · obtain ⟨hwhole, hkeeps, hpending, hfresh⟩ := hround ((q.settle s.sortKey).eraseFront n) s₁.tokenBuffer.freeMemory
        (Queue.eraseFront_events _ n) ((hqok.settle s.sortKey).eraseFront (Queue.settle_sortStartIdx q _) n)
        (by rw [Queue.eraseFront_sink, Queue.settle_sink]) (by rw [eraseFront_start, Queue.settle_sortStartIdx])
        (fun _ hlive => hlive.freeMemory) _ rfl
      rw [if_neg hn, hframe.queues]
      refine ⟨true, _, rfl, hwhole, hkeeps, fun p hp => ?_, fun _ => ?_, fun hagain => absurd rfl hagain, hfresh⟩
      · exact hpending.mem_iff.mpr (List.mem_append_right _ hp)
      · have hcount := hpending.length_eq
        have hone := List.length_pos_iff.mpr hlen
        rw [List.length_append, List.length_map, List.length_take] at hcount
        omega

/-! ### The whole extraction -/

/-- What the rounds of an extraction do together. -/
structure Extraction (tok : AllocId → Token) (accepted : List SinkCall) (limit : AllocId) (s s' : TraceSorter) :
    Prop where
  whole : Whole tok accepted s'
  keeps : Keeps s s'
  done : (∀ p ∈ pendingFrom 0 s.queues, p.2.allocId.lt limit) → ∀ q ∈ s'.queues, q.events = []
  fresh : s.eventHandling = .kSortAndPush → Fresh s → s'.discarded = s.discarded ∧
    (s.useSlowSorting = false → ∀ i, streamOut tok s' i = streamOut tok s i)

theorem Whole.extract {accepted : List SinkCall} (limit : AllocId) (fuel : ℕ) (h : Whole tok accepted s)
    (hfuel : (pendingFrom 0 s.queues).length < fuel) :
    ∃ s', s.sortAndExtractEventsUntilAllocId limit fuel = some s' ∧ Extraction tok accepted limit s s' := by
  induction fuel generalizing s with
  | zero => omega
  | succ fuel ih =>
    obtain ⟨again, s₁, heq, hround⟩ := h.extractRound limit
    simp only [TraceSorter.sortAndExtractEventsUntilAllocId, heq, Option.bind_eq_bind, Option.bind_some]
    cases again with
    | false =>
      refine ⟨s₁, rfl, hround.whole, hround.keeps, hround.done (by decide), fun hpush hfresh => ?_⟩
      exact (hround.fresh hpush hfresh).2
    | true =>
      have hfewer := hround.fewer rfl
      obtain ⟨s', hloop, hrest⟩ := ih hround.whole (by omega)
      rw [if_pos rfl]
      refine ⟨s', hloop, hrest.whole, ?_, fun hlimit => hrest.done fun p hp => hlimit p (hround.subset p hp),
        fun hpush hfresh => ?_⟩
      · exact ⟨hrest.keeps.eventHandling.trans hround.keeps.eventHandling,
          hrest.keeps.useSlowSorting.trans hround.keeps.useSlowSorting,
          hrest.keeps.negativeTimestampDropped.trans hround.keeps.negativeTimestampDropped⟩
      · obtain ⟨hfresh₁, hdiscarded₁, hout₁⟩ := hround.fresh hpush hfresh
        obtain ⟨hdiscarded, hout⟩ := hrest.fresh (hround.keeps.eventHandling.trans hpush) hfresh₁
        exact ⟨hdiscarded.trans hdiscarded₁, fun hslow i =>
          (hout (hround.keeps.useSlowSorting.trans hslow) i).trans (hout₁ hslow i)⟩

theorem rounds_eq (s : TraceSorter) : s.rounds = (pendingFrom 0 s.queues).length + 1 := by
  rw [TraceSorter.rounds, length_pendingFrom]

/-! ### Runs -/

inductive SorterCall
  | createStream (sink : SinkType)
  | setSortingMode (sortingMode : SortingMode)
  | push (stream : ℕ) (ts : Int64) (data : Token)
  | notifyFlushEvent
  | notifyReadBufferEvent
  | extractEventsForced
  deriving DecidableEq

namespace TraceSorter

def step (s : TraceSorter) : SorterCall → Option TraceSorter
  | .createStream sink => some (s.createStream sink)
  | .setSortingMode sortingMode => some (s.setSortingMode sortingMode).2
  | .push stream ts data => s.push stream ts data
  | .notifyFlushEvent => some s.notifyFlushEvent
  | .notifyReadBufferEvent => s.notifyReadBufferEvent
  | .extractEventsForced => s.extractEventsForced

def run (calls : List SorterCall) (s : TraceSorter) : Option TraceSorter := calls.foldlM step s

/-- A push has a stream for objects of its type, and memory where the event is kept. -/
def takes (s : TraceSorter) : SorterCall → Bool
  | .push stream ts data => (s.queues[stream]?).any (·.sink.fits data) &&
    (s.eventHandling = .kDrop || ts < 0 || (s.tokenBuffer.allocator.alloc data.size).isSome)
  | _ => true

/-- Each push of the run does. -/
def alwaysTakes : List SorterCall → TraceSorter → Bool
  | [], _ => true
  | call :: calls, s => s.takes call && match s.step call with
    | some s' => alwaysTakes calls s'
    | none => true

/-- The call extracts events. -/
def extracts (s : TraceSorter) : SorterCall → Bool
  | .notifyReadBufferEvent => !(s.sortingMode = .kFullSort ∨ s.flushesSinceExtraction < 2)
  | .extractEventsForced => true
  | _ => false

/-- No call of the run extracts events. -/
def neverExtracts : List SorterCall → TraceSorter → Bool
  | [], _ => true
  | call :: calls, s => !s.extracts call && match s.step call with
    | some s' => neverExtracts calls s'
    | none => true

end TraceSorter

/-- What a push is to call its sink with, once the token buffer has given the token back. -/
def SorterCall.pushed : SorterCall → Option SinkCall
  | .push stream ts data => some ⟨stream, ts.toInt, restoredToken data⟩
  | _ => none

/-- The pushes that enter a queue. -/
def accepted (eventHandling : EventHandling) (calls : List SorterCall) : List SinkCall :=
  if eventHandling = .kDrop then [] else (calls.filterMap SorterCall.pushed).filter (0 ≤ ·.ts)

/-- The pushes dropped for their timestamps. -/
def negative (eventHandling : EventHandling) (calls : List SorterCall) : List SinkCall :=
  if eventHandling = .kDrop then [] else (calls.filterMap SorterCall.pushed).filter (·.ts < 0)

/-- The events pushed to a stream and still in its queue, in the order they were pushed. -/
def queueEvents (s : TraceSorter) (i : ℕ) : List TimestampedEvent := ((s.queues[i]?).map (·.events)).getD []

/-- Nothing has been extracted: the queues hold what was pushed, in that order. -/
structure Untouched (tok : AllocId → Token) (accepted : List SinkCall) (s : TraceSorter) : Prop where
  sorted : s.sorted = []
  discarded : s.discarded = []
  latest : s.latestPushedEventTs = kTsMin
  queues : ∀ i, (queueEvents s i).map (fun e => callOf tok (i, e)) = accepted.filter (·.stream = i)
  alloc : ∀ i, (queueEvents s i).Pairwise fun a b => a.allocId.lt b.allocId

theorem whole_init (mode : SortingMode) (handling : EventHandling) (tok : AllocId → Token) :
    Whole tok [] { sortingMode := mode, eventHandling := handling } where
  queues_ok q hq := by simp at hq
  types i q hq := by simp at hq
  ledger := ⟨consistent_init, List.Perm.nil, List.Pairwise.nil, by simp, fun _ => rfl, fun _ => rfl⟩

theorem untouched_init (mode : SortingMode) (handling : EventHandling) (tok : AllocId → Token) :
    Untouched tok [] { sortingMode := mode, eventHandling := handling } :=
  ⟨rfl, rfl, rfl, fun i => by simp [queueEvents], fun i => by simp [queueEvents]⟩

theorem accepted_cons (handling : EventHandling) (call : SorterCall) (calls : List SorterCall) :
    accepted handling (call :: calls) = accepted handling [call] ++ accepted handling calls := by
  unfold accepted
  split_ifs
  · rfl
  · rw [← List.filter_append, ← List.filterMap_append, List.singleton_append]

theorem negative_cons (handling : EventHandling) (call : SorterCall) (calls : List SorterCall) :
    negative handling (call :: calls) = negative handling [call] ++ negative handling calls := by
  unfold negative
  split_ifs
  · rfl
  · rw [← List.filter_append, ← List.filterMap_append, List.singleton_append]

/-- What a call does to the invariants, with the pushes it adds. -/
structure Step (tok tok' : AllocId → Token) (done : List SinkCall) (s : TraceSorter) (call : SorterCall)
    (s' : TraceSorter) : Prop where
  whole : Whole tok' (done ++ accepted s.eventHandling [call]) s'
  eventHandling : s'.eventHandling = s.eventHandling
  negativeTimestampDropped :
    s'.negativeTimestampDropped = s.negativeTimestampDropped + (negative s.eventHandling [call]).length
  untouched : ¬s.extracts call → Untouched tok done s → Untouched tok' (done ++ accepted s.eventHandling [call]) s'

variable {done : List SinkCall}

/-- An event more in a queue. -/
theorem Whole.append (h : Whole tok done s) {stream : ℕ} (hq : s.queues[stream]? = some q) {ts : ℤ} (hts : 0 ≤ ts)
    (hmax : ts ≤ kTsMax) {data : Token} (hfits : q.sink.fits data) {id : AllocId} {b : TraceTokenBuffer}
    (happend : s.tokenBuffer.appendToken data = some (id, b)) {json slow : Bool}
    (hqueues : s'.queues = s.queues.set stream (q.append ts id json slow)) (hbuffer : s'.tokenBuffer = b)
    (hsorted : s'.sorted = s.sorted) (hdiscarded : s'.discarded = s.discarded)
    (hlatest : s'.latestPushedEventTs = s.latestPushedEventTs) (hhandling : s'.eventHandling = s.eventHandling)
    (hcount : s'.pushEventOutOfOrder = s.pushEventOutOfOrder) :
    ∃ tok', Whole tok' (done ++ [⟨stream, ts, restoredToken data⟩]) s' ∧
      (Untouched tok done s → Untouched tok' (done ++ [⟨stream, ts, restoredToken data⟩]) s') := by
  obtain ⟨htokens, hafter⟩ := h.ledger.tokens.append happend
  -- the new id is not that of a pending event
  have hold : ∀ p ∈ pendingFrom 0 s.queues, Function.update tok id data p.2.allocId = tok p.2.allocId := by
    intro p hp
    have hlt := hafter _ (List.mem_map_of_mem hp)
    refine Function.update_of_ne (fun heq => ?_) _ _
    rw [heq, AllocId.lt] at hlt
    dsimp only at hlt
    omega
  have hset : (s.queues.set stream (q.append ts id json slow))[stream]? = some (q.append ts id json slow) :=
    List.getElem?_set_self (List.getElem?_eq_some_iff.mp hq).1
  have hpending := pendingFrom_set 0 hset q [⟨ts, id, json⟩] (by
    rw [Queue.append_events]
    exact List.perm_append_comm)
  rw [List.set_set, set_of_getElem? hq, Nat.zero_add, List.map_singleton, List.singleton_append] at hpending
  have hcalls : (pendingFrom 0 s.queues).map (callOf (Function.update tok id data)) =
      (pendingFrom 0 s.queues).map (callOf tok) := by
    refine List.map_congr_left fun p hp => ?_
    rw [callOf, callOf, hold p hp]
  refine ⟨Function.update tok id data, ⟨fun r hr => ?_, fun j r hr e he => ?_, ?_⟩, fun hun => ?_⟩
  · rw [hqueues] at hr
    rcases List.mem_or_eq_of_mem_set hr with hr | rfl
    · exact h.queues_ok r hr
    · exact (h.queues_ok q (List.mem_of_getElem? hq)).append hts hmax
  · rw [hqueues] at hr
    by_cases hij : stream = j
    · subst hij
      rw [hset, Option.some.injEq] at hr
      rw [← hr, Queue.append_events] at he
      rw [← hr, Queue.append_sink]
      rcases List.mem_append.mp he with he | he
      · rw [hold (0 + stream, e) (mem_pendingFrom_of 0 hq he)]
        exact h.types stream q hq e he
      · rw [List.mem_singleton.mp he, Function.update_self]
        exact hfits
    · rw [List.getElem?_set_ne hij] at hr
      rw [hold (0 + j, e) (mem_pendingFrom_of 0 hr he)]
      exact h.types j r hr e he
  · rw [hqueues]
    refine Ledger.perm ?_ hpending.symm
    refine ⟨?_, ?_, hsorted ▸ h.ledger.ordered, ?_, ?_, ?_⟩
    · rw [hbuffer, List.map_cons, Function.update_self]
      have hmap : ((pendingFrom 0 s.queues).map fun p => (p.2.allocId, Function.update tok id data p.2.allocId)) =
          (pendingFrom 0 s.queues).map fun p => (p.2.allocId, tok p.2.allocId) :=
        List.map_congr_left fun p hp => by rw [hold p hp]
      rw [hmap]
      exact htokens
    · rw [List.map_cons, hcalls, hsorted, hdiscarded, callOf, Function.update_self]
      refine List.perm_middle.trans ?_
      refine (List.Perm.cons _ h.ledger.accounted).trans ?_
      exact (List.perm_append_singleton _ _).symm
    · rw [hsorted, hlatest]
      exact h.ledger.latest
    · rw [hhandling, hcount, hdiscarded]
      exact h.ledger.pushMode
    · rw [hhandling, hsorted]
      exact h.ledger.dropMode
  · have hevents (i : ℕ) : queueEvents s' i = if stream = i then queueEvents s i ++ [⟨ts, id, json⟩] else queueEvents s i := by
      unfold queueEvents
      rw [hqueues]
      split_ifs with hij
      · subst hij
        rw [hset, hq]
        simp
      · rw [List.getElem?_set_ne hij]
    have hmem (i : ℕ) : ∀ e ∈ queueEvents s i, (0 + i, e) ∈ pendingFrom 0 s.queues := by
      intro e he
      unfold queueEvents at he
      rcases hi : s.queues[i]? with _ | r
      · simp [hi] at he
      · rw [hi] at he
        exact mem_pendingFrom_of 0 hi he
    have hkeep (i : ℕ) : (queueEvents s i).map (fun e => callOf (Function.update tok id data) (i, e)) =
        done.filter (·.stream = i) := by
      rw [← hun.queues i]
      refine List.map_congr_left fun e he => ?_
      rw [callOf, callOf, hold _ (hmem i e he)]
    refine ⟨hsorted.trans hun.sorted, hdiscarded.trans hun.discarded, hlatest.trans hun.latest, fun i => ?_, fun i => ?_⟩
    · rw [hevents, List.filter_append]
      split_ifs with hij
      · subst hij
        rw [List.map_append, hkeep]
        simp [callOf]
      · rw [hkeep]
        simp [hij]
    · rw [hevents]
      split_ifs with hij
      · refine List.pairwise_append.mpr ⟨hun.alloc i, List.pairwise_singleton _ _, fun a ha c hc => ?_⟩
        rw [List.mem_singleton.mp hc]
        exact hafter _ (List.mem_map_of_mem (hmem i a ha))
      · exact hun.alloc i

theorem Whole.push (h : Whole tok done s) {stream : ℕ} {ts : Int64} {data : Token}
    (hpush : s.push stream ts data = some s') : ∃ tok', Step tok tok' done s (.push stream ts data) s' := by
  unfold TraceSorter.push at hpush
  obtain ⟨q, hfilter, hpush⟩ := Option.bind_eq_some_iff.mp hpush
  obtain ⟨hq, hfits⟩ := Option.filter_eq_some_iff.mp hfilter
  have hzero : (0 : Int64).toInt = 0 := rfl
  by_cases hdrop : s.eventHandling = .kDrop
  · rw [if_pos hdrop, Option.some.injEq] at hpush
    subst hpush
    have hnone : accepted s.eventHandling [.push stream ts data] = [] := if_pos hdrop
    have hnone' : negative s.eventHandling [.push stream ts data] = [] := if_pos hdrop
    refine ⟨tok, ?_, rfl, by rw [hnone']; rfl, fun _ hun => ?_⟩
    · rwa [hnone, List.append_nil]
    · rwa [hnone, List.append_nil]
  · rw [if_neg hdrop] at hpush
    by_cases hneg : ts < 0
    · rw [if_pos hneg, Option.some.injEq] at hpush
      subst hpush
      have hlt : ts.toInt < 0 := by
        rw [← hzero]
        exact Int64.lt_iff_toInt_lt.mp hneg
      have hnone : accepted s.eventHandling [.push stream ts data] = [] := by
        rw [accepted, if_neg hdrop]
        simpa [SorterCall.pushed] using hlt
      have hone : negative s.eventHandling [.push stream ts data] = [⟨stream, ts.toInt, restoredToken data⟩] := by
        rw [negative, if_neg hdrop]
        simpa [SorterCall.pushed] using hlt
      refine ⟨tok, ?_, rfl, by rw [hone]; rfl, fun _ hun => ?_⟩
      · rw [hnone, List.append_nil]
        exact ⟨h.queues_ok, h.types, ⟨h.ledger.tokens, h.ledger.accounted, h.ledger.ordered, h.ledger.latest,
          h.ledger.pushMode, h.ledger.dropMode⟩⟩
      · rw [hnone, List.append_nil]
        exact ⟨hun.sorted, hun.discarded, hun.latest, hun.queues, hun.alloc⟩
    · rw [if_neg hneg] at hpush
      have hge : 0 ≤ ts.toInt := by
        rw [← hzero]
        exact not_lt.mp fun hlt => hneg (Int64.lt_iff_toInt_lt.mpr hlt)
      have hone : accepted s.eventHandling [.push stream ts data] = [⟨stream, ts.toInt, restoredToken data⟩] := by
        rw [accepted, if_neg hdrop]
        simpa [SorterCall.pushed] using hge
      have hnone : negative s.eventHandling [.push stream ts data] = [] := by
        rw [negative, if_neg hdrop]
        simpa [SorterCall.pushed] using hge
      obtain ⟨⟨id, b⟩, happend, hpush⟩ := Option.bind_eq_some_iff.mp hpush
      rw [Option.some.injEq] at hpush
      subst hpush
      have hmax : ts.toInt ≤ kTsMax := by
        have hlt := Int64.toInt_le ts
        rw [kTsMax]
        exact hlt
      suffices happended : ∃ tok', Whole tok' (done ++ [⟨stream, ts.toInt, restoredToken data⟩]) _ ∧
          (Untouched tok done s → Untouched tok' (done ++ [⟨stream, ts.toInt, restoredToken data⟩]) _) by
        obtain ⟨tok', hwhole, hun⟩ := happended
        rw [← hone] at hwhole hun
        exact ⟨tok', hwhole, rfl, by rw [hnone]; rfl, fun _ => hun⟩
      exact h.append hq hge hmax hfits happend rfl rfl rfl rfl rfl rfl rfl

theorem Untouched.fresh (h : Untouched tok done s) (hwhole : Whole tok done s) : Fresh s := by
  intro q hq e he
  have hge := (hwhole.queues_ok q hq).nonneg e he
  rw [h.latest, kTsMin]
  omega

/-- `ExtractEventsForced` never fails, and empties the queues. -/
theorem Whole.extractEventsForced (h : Whole tok done s) :
    ∃ s', s.extractEventsForced = some s' ∧ Whole tok done s' ∧ Keeps s s' ∧
      (∀ q ∈ s'.queues, q.events = []) ∧ (s.eventHandling = .kSortAndPush → Fresh s → s'.discarded = s.discarded ∧
        (s.useSlowSorting = false → ∀ i, streamOut tok s' i = streamOut tok s i)) := by
  obtain ⟨s₁, hloop, hextraction⟩ := h.extract s.tokenBuffer.allocator.pastTheEndId s.rounds
    (by rw [rounds_eq]; exact Nat.lt_succ_self _)
  have hempty := hextraction.done fun p hp => h.ledger.tokens.lt_pastTheEndId (List.mem_map_of_mem hp)
  have hall : s₁.queues.all (·.events.isEmpty) := by
    rw [List.all_eq_true]
    intro q hq
    simpa using hempty q hq
  refine ⟨{ s₁ with allocIdForExtraction := s.tokenBuffer.allocator.pastTheEndId, flushesSinceExtraction := 0 }, ?_, ?_,
    ?_, hempty, fun hpush hfresh => ?_⟩
  · simp only [TraceSorter.extractEventsForced, hloop, Option.bind_eq_bind, Option.bind_some, hall, if_true]
  · have hwhole := hextraction.whole
    exact ⟨hwhole.queues_ok, hwhole.types, ⟨hwhole.ledger.tokens, hwhole.ledger.accounted, hwhole.ledger.ordered,
      hwhole.ledger.latest, hwhole.ledger.pushMode, hwhole.ledger.dropMode⟩⟩
  · exact ⟨hextraction.keeps.eventHandling, hextraction.keeps.useSlowSorting,
      hextraction.keeps.negativeTimestampDropped⟩
  · exact hextraction.fresh hpush hfresh

variable {call : SorterCall}

/-- A call that pushes nothing. -/
theorem Step.of_eq (hpushed : call.pushed = none) (hwhole : Whole tok done s')
    (hhandling : s'.eventHandling = s.eventHandling)
    (hnegative : s'.negativeTimestampDropped = s.negativeTimestampDropped)
    (hun : ¬s.extracts call → Untouched tok done s → Untouched tok done s') : Step tok tok done s call s' := by
  have hnone : accepted s.eventHandling [call] = [] := by simp [accepted, hpushed]
  have hnone' : negative s.eventHandling [call] = [] := by simp [negative, hpushed]
  refine ⟨?_, hhandling, by rw [hnone', hnegative]; rfl, ?_⟩
  · rwa [hnone, List.append_nil]
  · rwa [hnone, List.append_nil]

theorem Whole.step (h : Whole tok done s) (hstep : s.step call = some s') : ∃ tok', Step tok tok' done s call s' := by
  rcases call with sink | mode | ⟨stream, ts, data⟩ | _ | _ | _
  · obtain rfl := Option.some.inj hstep
    refine ⟨tok, Step.of_eq rfl ⟨fun q hq => ?_, fun i q hq e he => ?_, ?_⟩ rfl rfl fun _ hun => ?_⟩
    · rcases List.mem_append.mp hq with hq | hq
      · exact h.queues_ok q hq
      · rw [List.mem_singleton.mp hq]
        exact Queue.ok_new sink
    · rcases TraceSorter.getElem?_concat_cases hq with hq | ⟨-, rfl⟩
      · exact h.types i q hq e he
      · simp at he
    · have hledger := h.ledger
      have hpending : pendingFrom 0 (s.createStream sink).queues = pendingFrom 0 s.queues := by
        simp [TraceSorter.createStream, pendingFrom_append]
      rw [hpending]
      exact ⟨hledger.tokens, hledger.accounted, hledger.ordered, hledger.latest, hledger.pushMode, hledger.dropMode⟩
    · have hevents (i : ℕ) : queueEvents (s.createStream sink) i = queueEvents s i := by
        unfold queueEvents TraceSorter.createStream
        rcases lt_or_ge i s.queues.length with hlt | hge
        · rw [List.getElem?_append_left hlt]
        · rw [List.getElem?_append_right hge, List.getElem?_singleton, List.getElem?_eq_none hge]
          split_ifs <;> rfl
      exact ⟨hun.sorted, hun.discarded, hun.latest, fun i => by rw [hevents]; exact hun.queues i,
        fun i => by rw [hevents]; exact hun.alloc i⟩
  · obtain rfl := Option.some.inj hstep
    have hsame : (s.setSortingMode mode).2 = s ∨ (s.setSortingMode mode).2 = { s with sortingMode := mode } := by
      unfold TraceSorter.setSortingMode
      split_ifs <;> simp
    refine ⟨tok, ?_⟩
    rcases hsame with hsame | hsame
    · rw [hsame]
      exact Step.of_eq rfl h rfl rfl fun _ hun => hun
    · rw [hsame]
      refine Step.of_eq rfl ⟨h.queues_ok, h.types, ⟨h.ledger.tokens, h.ledger.accounted, h.ledger.ordered,
        h.ledger.latest, h.ledger.pushMode, h.ledger.dropMode⟩⟩ rfl rfl fun _ hun => ?_
      exact ⟨hun.sorted, hun.discarded, hun.latest, hun.queues, hun.alloc⟩
  · exact h.push hstep
  · obtain rfl := Option.some.inj hstep
    refine ⟨tok, Step.of_eq rfl ⟨h.queues_ok, h.types, ⟨h.ledger.tokens, h.ledger.accounted, h.ledger.ordered,
      h.ledger.latest, h.ledger.pushMode, h.ledger.dropMode⟩⟩ rfl rfl fun _ hun => ?_⟩
    exact ⟨hun.sorted, hun.discarded, hun.latest, hun.queues, hun.alloc⟩
  · simp only [TraceSorter.step, TraceSorter.notifyReadBufferEvent] at hstep
    by_cases hskip : s.sortingMode = .kFullSort ∨ s.flushesSinceExtraction < 2
    · rw [if_pos hskip, Option.some.injEq] at hstep
      subst hstep
      exact ⟨tok, Step.of_eq rfl h rfl rfl fun _ hun => hun⟩
    · rw [if_neg hskip] at hstep
      obtain ⟨s₁, hloop, hextraction⟩ := h.extract s.allocIdForExtraction s.rounds
        (by rw [rounds_eq]; exact Nat.lt_succ_self _)
      simp only [hloop, Option.bind_eq_bind, Option.bind_some, Option.some.injEq] at hstep
      subst hstep
      have hwhole := hextraction.whole
      refine ⟨tok, Step.of_eq rfl ⟨hwhole.queues_ok, hwhole.types, ⟨hwhole.ledger.tokens, hwhole.ledger.accounted,
        hwhole.ledger.ordered, hwhole.ledger.latest, hwhole.ledger.pushMode, hwhole.ledger.dropMode⟩⟩
        hextraction.keeps.eventHandling hextraction.keeps.negativeTimestampDropped fun hquiet => ?_⟩
      simp [TraceSorter.extracts, hskip] at hquiet
  · obtain ⟨s₁, hforced, hwhole, hkeeps, -, -⟩ := h.extractEventsForced
    rw [TraceSorter.step, hforced, Option.some.injEq] at hstep
    subst hstep
    exact ⟨tok, Step.of_eq rfl hwhole hkeeps.eventHandling hkeeps.negativeTimestampDropped
      fun hquiet => absurd rfl hquiet⟩

/-- A push fails only for want of a stream or memory, and an extraction never. -/
theorem Whole.exists_step (h : Whole tok done s) (htakes : s.takes call) : ∃ s', s.step call = some s' := by
  rcases call with sink | mode | ⟨stream, ts, data⟩ | _ | _ | _
  · exact ⟨_, rfl⟩
  · exact ⟨_, rfl⟩
  · rw [TraceSorter.takes, Bool.and_eq_true, Option.any_eq_true] at htakes
    obtain ⟨⟨q, hq, hfits⟩, hmemory⟩ := htakes
    have hfilter : (s.queues[stream]?).filter (·.sink.fits data) = some q :=
      Option.filter_eq_some_iff.mpr ⟨hq, hfits⟩
    simp only [TraceSorter.step, TraceSorter.push, hfilter, Option.bind_eq_bind, Option.bind_some]
    split_ifs with hdrop hneg
    · exact ⟨_, rfl⟩
    · exact ⟨_, rfl⟩
    · have halloc : (s.tokenBuffer.allocator.alloc data.size).isSome := by simpa [hdrop, hneg] using hmemory
      obtain ⟨r, hr⟩ := h.ledger.tokens.appendToken_isSome halloc
      simp only [hr, Option.bind_some]
      exact ⟨_, rfl⟩
  · exact ⟨_, rfl⟩
  · simp only [TraceSorter.step, TraceSorter.notifyReadBufferEvent]
    split_ifs
    · exact ⟨_, rfl⟩
    · obtain ⟨s₁, hloop, -⟩ := h.extract s.allocIdForExtraction s.rounds (by rw [rounds_eq]; exact Nat.lt_succ_self _)
      simp only [hloop, Option.bind_eq_bind, Option.bind_some]
      exact ⟨_, rfl⟩
  · obtain ⟨s₁, hforced, -⟩ := h.extractEventsForced
    exact ⟨s₁, hforced⟩

theorem Whole.exists_run {calls : List SorterCall} (h : Whole tok done s) (htakes : s.alwaysTakes calls) :
    ∃ s', s.run calls = some s' := by
  induction calls generalizing s tok done with
  | nil => exact ⟨s, rfl⟩
  | cons call calls ih =>
    rw [TraceSorter.alwaysTakes, Bool.and_eq_true] at htakes
    obtain ⟨htake, hrest⟩ := htakes
    obtain ⟨s₁, hstep⟩ := h.exists_step htake
    rw [hstep] at hrest
    obtain ⟨tok₁, hone⟩ := h.step hstep
    obtain ⟨s', hrun⟩ := ih hone.whole hrest
    exact ⟨s', by rw [TraceSorter.run, List.foldlM_cons, hstep]; exact hrun⟩

/-- What a run does to the invariants. -/
theorem Whole.run {calls : List SorterCall} (h : Whole tok done s) (hrun : s.run calls = some s') :
    ∃ tok', Whole tok' (done ++ accepted s.eventHandling calls) s' ∧ s'.eventHandling = s.eventHandling ∧
      s'.negativeTimestampDropped = s.negativeTimestampDropped + (negative s.eventHandling calls).length ∧
      (s.neverExtracts calls → Untouched tok done s →
        Untouched tok' (done ++ accepted s.eventHandling calls) s') := by
  induction calls generalizing s tok done with
  | nil =>
    obtain rfl := Option.some.inj hrun
    have hnone : accepted s.eventHandling [] = [] := by simp [accepted]
    have hnone' : negative s.eventHandling [] = [] := by simp [negative]
    refine ⟨tok, ?_, rfl, by rw [hnone']; rfl, fun _ hun => ?_⟩
    · rwa [hnone, List.append_nil]
    · rwa [hnone, List.append_nil]
  | cons call calls ih =>
    rw [TraceSorter.run, List.foldlM_cons] at hrun
    obtain ⟨s₁, hstep, hrest⟩ := Option.bind_eq_some_iff.mp hrun
    obtain ⟨tok₁, hone⟩ := h.step hstep
    obtain ⟨tok', hwhole, hhandling, hnegative, hun⟩ := ih hone.whole hrest
    rw [hone.eventHandling] at hwhole hnegative hun hhandling
    refine ⟨tok', ?_, hhandling, ?_, fun hquiet hun₀ => ?_⟩
    · rwa [accepted_cons s.eventHandling call calls, ← List.append_assoc]
    · rw [hnegative, hone.negativeTimestampDropped, negative_cons s.eventHandling call calls, List.length_append,
        Nat.add_assoc]
    · simp only [TraceSorter.neverExtracts, hstep, Bool.and_eq_true, Bool.not_eq_true'] at hquiet
      rw [accepted_cons s.eventHandling call calls, ← List.append_assoc]
      exact hun hquiet.2 (hone.untouched (by simp [hquiet.1]) hun₀)

/-! ### Delivery -/

/-- Without an extraction before, the events of a stream go out as its queue sorts them. -/
theorem Untouched.sorted_filter (h : Untouched tok done s) (hempty : ∀ q ∈ s'.queues, q.events = [])
    (hout : ∀ i, streamOut tok s' i = streamOut tok s i) (i : ℕ) (t : ℤ) :
    s'.sorted.filter (fun c => c.stream = i ∧ c.ts = t) = done.filter fun c => c.stream = i ∧ c.ts = t := by
  have hrest : settledEvents s' i = [] := by
    unfold settledEvents
    rcases hq : s'.queues[i]? with _ | q
    · rfl
    · have hperm := q.settle_perm fun _ => 0
      rw [hempty q (List.mem_of_getElem? hq)] at hperm
      exact List.perm_nil.mp hperm
  have hall := hout i
  rw [streamOut, streamOut, hrest, h.sorted, List.map_nil, List.append_nil, List.filter_nil, List.nil_append] at hall
  have hsettled : (settledEvents s i).filter (·.ts = t) = (queueEvents s i).filter (·.ts = t) := by
    have halloc := h.alloc i
    unfold settledEvents queueEvents at *
    rcases hq : s.queues[i]? with _ | q
    · rfl
    · rw [hq] at halloc
      exact Queue.settle_filter halloc t
  have hmap (events : List TimestampedEvent) : (events.map fun e => callOf tok (i, e)).filter (·.ts = t) =
      (events.filter (·.ts = t)).map fun e => callOf tok (i, e) := by
    rw [List.filter_map]
    rfl
  calc s'.sorted.filter (fun c => c.stream = i ∧ c.ts = t)
      = (s'.sorted.filter (·.stream = i)).filter (·.ts = t) := by
        rw [List.filter_filter]
        refine List.filter_congr fun c _ => ?_
        simp [and_comm]
    _ = ((queueEvents s i).map fun e => callOf tok (i, e)).filter (·.ts = t) := by
        rw [hall, hmap, hmap, hsettled]
    _ = done.filter fun c => c.stream = i ∧ c.ts = t := by
        rw [h.queues i, List.filter_filter]
        refine List.filter_congr fun c _ => ?_
        simp [and_comm]

namespace TraceSorter

/-- A run whose pushes find a stream and memory comes to its end, and the final extraction empties the queues.  The
sinks have been called in the order of the timestamps; every event pushed with a timestamp that is not negative has been
sorted or discarded, once, with its own stream's sink; the discarded ones are those counted as out of order when events
are pushed on, and all when they are dropped.  If nothing was extracted before and events are pushed on, none is
discarded, and those of a stream with equal timestamps come in the order they were pushed, when sorted fast. -/
theorem delivers {mode : SortingMode} {handling : EventHandling} {calls : List SorterCall}
    (htakes : alwaysTakes calls { sortingMode := mode, eventHandling := handling }) :
    ∃ s s', run calls { sortingMode := mode, eventHandling := handling } = some s ∧
      s.extractEventsForced = some s' ∧ (∀ q ∈ s'.queues, q.events = []) ∧
      (s'.sorted.Pairwise fun a b => a.ts ≤ b.ts) ∧
      (s'.sorted ++ s'.discarded).Perm (accepted handling calls) ∧
      (handling = .kSortAndPush → s'.pushEventOutOfOrder = s'.discarded.length) ∧
      (handling = .kSortAndDrop → s'.sorted = []) ∧
      s'.negativeTimestampDropped = (negative handling calls).length ∧
      (handling = .kSortAndPush → neverExtracts calls { sortingMode := mode, eventHandling := handling } →
        s'.discarded = [] ∧ s'.sorted.Perm (accepted handling calls) ∧
        (s.useSlowSorting = false → ∀ i t, s'.sorted.filter (fun c => c.stream = i ∧ c.ts = t) =
          (accepted handling calls).filter fun c => c.stream = i ∧ c.ts = t)) := by
  have hinit := whole_init mode handling fun _ => .object [0] (List.cons_ne_nil _ _)
  obtain ⟨s, hrun⟩ := hinit.exists_run htakes
  obtain ⟨tok, hwhole, hhandling, hnegative, hun⟩ := hinit.run hrun
  dsimp only at hwhole hhandling hnegative hun
  rw [List.nil_append] at hwhole hun
  obtain ⟨s', hforced, hwhole', hkeeps, hempty, hfresh⟩ := hwhole.extractEventsForced
  have hpending : pendingFrom 0 s'.queues = [] := by
    refine List.eq_nil_iff_forall_not_mem.mpr fun p hp => ?_
    obtain ⟨i, q, hq, -, he⟩ := mem_pendingFrom hp
    rw [hempty q (List.mem_of_getElem? hq)] at he
    exact absurd he List.not_mem_nil
  have haccounted : (s'.sorted ++ s'.discarded).Perm (accepted handling calls) := by
    have hperm := hwhole'.ledger.accounted
    rwa [hpending, List.map_nil, List.append_nil] at hperm
  refine ⟨s, s', hrun, hforced, hempty, hwhole'.ledger.ordered, haccounted, fun hpush => ?_, fun hdrop => ?_, ?_,
    fun hpush hquiet => ?_⟩
  · exact hwhole'.ledger.pushMode (hkeeps.eventHandling.trans (hhandling.trans hpush))
  · exact hwhole'.ledger.dropMode (hkeeps.eventHandling.trans (hhandling.trans hdrop))
  · rw [hkeeps.negativeTimestampDropped, hnegative, Nat.zero_add]
  · have huntouched := hun hquiet (untouched_init mode handling _)
    obtain ⟨hdiscarded, hout⟩ := hfresh (hhandling.trans hpush) (huntouched.fresh hwhole)
    have hnone : s'.discarded = [] := hdiscarded.trans huntouched.discarded
    refine ⟨hnone, ?_, fun hslow i t => huntouched.sorted_filter hempty (hout hslow) i t⟩
    rwa [hnone, List.append_nil] at haccounted

theorem delivers_twoStreams : ∃ s s', run
    [.createStream .trackEvent, .createStream (.object 1), .push 0 20 (.trackEvent ⟨⟨1, 0, 8⟩, some 1, none, none, .zero,
      .replicate _ .zero⟩), .push 1 10 (.object [1] (List.cons_ne_nil _ _)), .notifyFlushEvent, .notifyFlushEvent,
      .notifyReadBufferEvent, .push 1 5 (.object [2] (List.cons_ne_nil _ _))] { sortingMode := .kDefault } = some s ∧
    s.extractEventsForced = some s' ∧ s'.sorted.Pairwise fun a b => a.ts ≤ b.ts := by
  obtain ⟨s, s', hrun, hforced, -, hordered, -⟩ := delivers (by decide +kernel : alwaysTakes
    [.createStream .trackEvent, .createStream (.object 1), .push 0 20 (.trackEvent ⟨⟨1, 0, 8⟩, some 1, none, none, .zero,
      .replicate _ .zero⟩), .push 1 10 (.object [1] (List.cons_ne_nil _ _)), .notifyFlushEvent, .notifyFlushEvent,
      .notifyReadBufferEvent, .push 1 5 (.object [2] (List.cons_ne_nil _ _))] { sortingMode := .kDefault })
  exact ⟨s, s', hrun, hforced, hordered⟩

/-- A sorter that drops what it has sorted delivers nothing. -/
theorem not_delivers_drop : ¬∀ mode handling calls s s',
    run calls { sortingMode := mode, eventHandling := handling } = some s → s.extractEventsForced = some s' →
    neverExtracts calls { sortingMode := mode, eventHandling := handling } →
    ∀ c ∈ calls.filterMap SorterCall.pushed, 0 ≤ c.ts → c ∈ s'.sorted := by
  intro hall
  have hsorted : ((run [.createStream (.object 1), .push 0 5 (.object [1] (List.cons_ne_nil _ _))]
      { sortingMode := .kDefault, eventHandling := .kSortAndDrop }).bind extractEventsForced).map (·.sorted) =
      some [] := by decide +kernel
  obtain ⟨s', hbind, hnil⟩ := Option.map_eq_some_iff.mp hsorted
  obtain ⟨s, hrun, hforced⟩ := Option.bind_eq_some_iff.mp hbind
  have hmem := hall _ _ _ s s' hrun hforced (by decide +kernel) ⟨0, 5, .object [1] (List.cons_ne_nil _ _)⟩
    (by decide +kernel) (by decide)
  rw [hnil] at hmem
  exact absurd hmem List.not_mem_nil

end TraceSorter

end LynxTrace.TraceProcessor
