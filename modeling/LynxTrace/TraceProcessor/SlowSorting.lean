import LynxTrace.TraceProcessor.SorterDelivery

/-!
# TraceProcessor.SlowSorting — streams with complete JSON events

From the first `X` event on, the sorter orders events of one timestamp by `KeyForType` (`SlowOperatorLess`).  A queue
sorts only from the earliest timestamp that broke its order, and before the switch it takes equal timestamps to be in
order.  So what was pushed before the switch is in the slow order exactly if each tie that needs it is sorted again for
another event (`TiesResorted`).
-/

namespace LynxTrace.TraceProcessor

/-! ### The order of the pushes -/

namespace Token

/-- The phase of the JSON event is `X`. -/
def isComplete : Token → Bool
  | .object words _ => JsonEvent.phase (fun i => words.getD i 0) = 'X'.toUInt8
  | .trackEvent _ => false

/-- `KeyForType`. -/
def slowKey : Token → ℤ
  | .object words _ => keyForType fun i => words.getD i 0
  | .trackEvent _ => kTsMax

end Token

/-- The order of `SlowOperatorLess`, up to the order of the pushes. -/
def SinkCall.slowLe (a b : SinkCall) : Prop := a.ts < b.ts ∨ a.ts = b.ts ∧ a.token.slowKey ≤ b.token.slowKey

instance : DecidableRel SinkCall.slowLe := fun _ _ => inferInstanceAs (Decidable (_ ∨ _))

instance : IsTrans SinkCall SinkCall.slowLe where
  trans a b c := by
    simp only [SinkCall.slowLe]
    omega

instance : Std.Total SinkCall.slowLe where
  total a b := by
    simp only [SinkCall.slowLe]
    omega

/-- The sorter sorts slowly at a push: it is of a complete event, or one before it is. -/
def slowAt (pushes : List SinkCall) (k : ℕ) : Bool := (pushes.take (k + 1)).any (·.token.isComplete)

/-- A push breaks the order: an event pushed before is later, or as late when sorting slowly. -/
def Breaks (pushes : List SinkCall) (k : ℕ) (b : SinkCall) : Prop :=
  pushes[k]? = some b ∧ ∃ j a, j < k ∧ pushes[j]? = some a ∧ (b.ts < a.ts ∨ b.ts = a.ts ∧ slowAt pushes k)

/-- Two events of one timestamp that were pushed against the slow order, both before the switch, are sorted again: some
push broke the order at their timestamp or before it. -/
def TiesResorted (pushes : List SinkCall) : Prop :=
  ∀ i j a b, i < j → pushes[i]? = some a → pushes[j]? = some b → a.ts = b.ts → b.token.slowKey < a.token.slowKey →
    slowAt pushes j = false → ∃ k c, Breaks pushes k c ∧ c.ts ≤ b.ts

/-! ### Stable sorting -/

section Stable

variable {α : Type} {r s : α → α → Prop} [DecidableRel r] [DecidableRel s]

theorem orderedInsert_congr {x : α} {l : List α} (h : ∀ b ∈ l, (r x b ↔ s x b)) :
    l.orderedInsert r x = l.orderedInsert s x := by
  induction l with
  | nil => rfl
  | cons b l ih =>
    rw [List.orderedInsert_cons, List.orderedInsert_cons, ih fun c hc => h c (List.mem_cons_of_mem _ hc)]
    exact if_congr (h b List.mem_cons_self) rfl rfl

/-- Insertion sort compares an element only with later ones. -/
theorem insertionSort_congr {l : List α} (h : l.Pairwise fun a b => (r a b ↔ s a b)) :
    l.insertionSort r = l.insertionSort s := by
  induction l with
  | nil => rfl
  | cons a l ih =>
    obtain ⟨ha, hl⟩ := List.pairwise_cons.mp h
    rw [List.insertionSort_cons, List.insertionSort_cons, ih hl]
    exact orderedInsert_congr fun b hb => ha b ((List.mem_insertionSort s).mp hb)

end Stable

/-- Sorting events slowly is sorting their calls, which is stable. -/
theorem TimestampedEvent.map_sort {key : TimestampedEvent → ℤ} {events : List TimestampedEvent}
    (halloc : events.Pairwise fun a b => a.allocId.lt b.allocId) (call : TimestampedEvent → SinkCall)
    (hts : ∀ e ∈ events, (call e).ts = e.ts) (hkey : ∀ e ∈ events, (call e).token.slowKey = key e) :
    (TimestampedEvent.sort key events).map call = (events.map call).insertionSort SinkCall.slowLe := by
  have hstable : TimestampedEvent.sort key events =
      events.insertionSort fun a b => a.ts < b.ts ∨ a.ts = b.ts ∧ key a ≤ key b := by
    refine insertionSort_congr (halloc.imp fun {a b} hab => ?_)
    simp only [TimestampedEvent.less, AllocId.lt] at hab ⊢
    omega
  rw [hstable]
  refine List.map_insertionSort _ _ _ _ fun a ha b hb => ?_
  rw [SinkCall.slowLe, hts a ha, hts b hb, hkey a ha, hkey b hb]

/-! ### A queue and the log of its appends -/

namespace Queue

/-- The queue after appends, each with whether the sorter sorts slowly. -/
def ofLog (sink : SinkType) (log : List (TimestampedEvent × Bool)) : Queue :=
  log.foldl (fun q e => q.append e.1.ts e.1.allocId e.1.isJsonEvent e.2) { sink }

theorem ofLog_concat (sink : SinkType) (log : List (TimestampedEvent × Bool)) (e : TimestampedEvent × Bool) :
    ofLog sink (log ++ [e]) = (ofLog sink log).append e.1.ts e.1.allocId e.1.isJsonEvent e.2 :=
  List.foldl_concat ..

@[simp] theorem ofLog_events (sink : SinkType) (log : List (TimestampedEvent × Bool)) :
    (ofLog sink log).events = log.map Prod.fst := by
  induction log using List.reverseRecOn with
  | nil => rfl
  | append_singleton log e ih => rw [ofLog_concat, append_events, ih, List.map_append]; rfl

/-- The event does not go behind the others. -/
def OutOfOrder (q : Queue) (ts : ℤ) (slow : Bool) : Prop := ts < q.maxTs ∨ ts = q.maxTs ∧ slow

instance (q : Queue) (ts : ℤ) (slow : Bool) : Decidable (q.OutOfOrder ts slow) := inferInstanceAs (Decidable (_ ∨ _))

theorem append_start (q : Queue) (ts : ℤ) (id : AllocId) (json slow : Bool) :
    ((q.append ts id json slow).sortStartIdx, (q.append ts id json slow).sortMinTs) =
      if q.OutOfOrder ts slow then
        if q.sortStartIdx = 0 then (q.events.length, ts) else (q.sortStartIdx, min q.sortMinTs ts)
      else (q.sortStartIdx, q.sortMinTs) := by
  have hout : (ts > q.maxTs ∨ (!slow) = true ∧ ts = q.maxTs) ↔ ¬ q.OutOfOrder ts slow := by
    unfold OutOfOrder
    cases slow <;> simp <;> omega
  simp only [append]
  by_cases h : q.OutOfOrder ts slow
  · rw [if_neg (not_not.mpr h ∘ hout.mp), if_pos h]
    split <;> simp
  · rw [if_pos (hout.mpr h), if_neg h]

variable {sink : SinkType} {log : List (TimestampedEvent × Bool)}

theorem ofLog_ok (hlog : ∀ e ∈ log, 0 ≤ e.1.ts ∧ e.1.ts ≤ kTsMax) : (ofLog sink log).Ok := by
  induction log using List.reverseRecOn with
  | nil => exact ok_new sink
  | append_singleton log e ih =>
    obtain ⟨hts, hmax⟩ := hlog e (by simp)
    rw [ofLog_concat]
    exact (ih fun a ha => hlog a (List.mem_append_left _ ha)).append hts hmax

/-- The cached maximum is that of an event. -/
theorem ofLog_maxTs (hlog : ∀ e ∈ log, 0 ≤ e.1.ts) (hne : log ≠ []) : ∃ e ∈ log, e.1.ts = (ofLog sink log).maxTs := by
  induction log using List.reverseRecOn with
  | nil => exact absurd rfl hne
  | append_singleton log e ih =>
    have hts := hlog e (by simp)
    rw [ofLog_concat, append_maxTs]
    rcases le_or_gt (ofLog sink log).maxTs e.1.ts with hle | hlt
    · exact ⟨e, by simp, (max_eq_right hle).symm⟩
    · have hlogne : log ≠ [] := by
        rintro rfl
        exact absurd hlt (not_lt.mpr hts)
      obtain ⟨a, ha, hmax⟩ := ih (fun a ha => hlog a (List.mem_append_left _ ha)) hlogne
      exact ⟨a, List.mem_append_left _ ha, hmax.trans (max_eq_left hlt.le).symm⟩

/-- Some append of the log broke the order, at a timestamp or before it. -/
def BrokenBy (log : List (TimestampedEvent × Bool)) (t : ℤ) : Prop :=
  ∃ (k : ℕ) (e : TimestampedEvent × Bool), log[k]? = some e ∧ e.1.ts ≤ t ∧
    ∃ (j : ℕ) (a : TimestampedEvent × Bool), j < k ∧ log[j]? = some a ∧ (e.1.ts < a.1.ts ∨ e.1.ts = a.1.ts ∧ e.2)

theorem brokenBy_concat (log : List (TimestampedEvent × Bool)) (e : TimestampedEvent × Bool) (t : ℤ) :
    BrokenBy (log ++ [e]) t ↔
      BrokenBy log t ∨ (e.1.ts ≤ t ∧ ∃ a ∈ log, e.1.ts < a.1.ts ∨ e.1.ts = a.1.ts ∧ e.2) := by
  constructor
  · rintro ⟨k, x, hk, hle, j, a, hj, ha, hbreaks⟩
    have hjlt : j < log.length := by
      have := (List.getElem?_eq_some_iff.mp hk).1
      simp only [List.length_append, List.length_singleton] at this
      omega
    rw [List.getElem?_append_left hjlt] at ha
    rcases TraceSorter.getElem?_concat_cases hk with hk | ⟨-, rfl⟩
    · exact .inl ⟨k, x, hk, hle, j, a, hj, ha, hbreaks⟩
    · exact .inr ⟨hle, a, List.mem_of_getElem? ha, hbreaks⟩
  · have hleft {k : ℕ} {x : TimestampedEvent × Bool} (hk : log[k]? = some x) : (log ++ [e])[k]? = some x := by
      rw [List.getElem?_append_left (List.getElem?_eq_some_iff.mp hk).1, hk]
    rintro (⟨k, x, hk, hle, j, a, hj, ha, hbreaks⟩ | ⟨hle, a, ha, hbreaks⟩)
    · exact ⟨k, x, hleft hk, hle, j, a, hj, hleft ha, hbreaks⟩
    · obtain ⟨j, hj, rfl⟩ := List.mem_iff_getElem.mp ha
      exact ⟨log.length, e, by simp, hle, j, log[j], hj, hleft (List.getElem?_eq_getElem hj), hbreaks⟩

/-- The queue is to be sorted, and from which timestamp. -/
theorem ofLog_start (hlog : ∀ e ∈ log, 0 ≤ e.1.ts ∧ e.1.ts ≤ kTsMax) (t : ℤ) :
    ((ofLog sink log).sortStartIdx ≠ 0 ∧ (ofLog sink log).sortMinTs ≤ t) ↔ BrokenBy log t := by
  induction log using List.reverseRecOn with
  | nil => simp [ofLog, BrokenBy]
  | append_singleton log e ih =>
    have hold : ∀ a ∈ log, 0 ≤ a.1.ts ∧ a.1.ts ≤ kTsMax := fun a ha => hlog a (List.mem_append_left _ ha)
    have hok : (ofLog sink log).Ok := ofLog_ok hold
    have hout : (ofLog sink log).OutOfOrder e.1.ts e.2 ∧ log ≠ [] ↔
        ∃ a ∈ log, e.1.ts < a.1.ts ∨ e.1.ts = a.1.ts ∧ e.2 := by
      unfold OutOfOrder
      constructor
      · rintro ⟨hbreaks, hne⟩
        obtain ⟨a, ha, hmax⟩ := @ofLog_maxTs sink log (fun a ha => (hold a ha).1) hne
        exact ⟨a, ha, by rwa [hmax]⟩
      · rintro ⟨a, ha, hbreaks⟩
        have hle := hok.le_maxTs a.1 (by rw [ofLog_events]; exact List.mem_map_of_mem ha)
        refine ⟨?_, List.ne_nil_of_mem ha⟩
        rcases hbreaks with hlt | ⟨heq, hslow⟩
        · exact .inl (by omega)
        · rcases hle.lt_or_eq with hlt | hmax
          · exact .inl (by omega)
          · exact .inr ⟨by omega, hslow⟩
    have hlength : (ofLog sink log).sortStartIdx ≠ 0 → log ≠ [] := by
      rintro hstart rfl
      exact hstart rfl
    have happend := append_start (ofLog sink log) e.1.ts e.1.allocId e.1.isJsonEvent e.2
    rw [brokenBy_concat, ← ih hold, ← hout, ofLog_concat]
    rw [Prod.ext_iff] at happend
    obtain ⟨hstart, hmin⟩ := happend
    dsimp only at hstart hmin
    rw [hstart, hmin]
    by_cases h : (ofLog sink log).OutOfOrder e.1.ts e.2
    · simp only [if_pos h]
      by_cases hzero : (ofLog sink log).sortStartIdx = 0
      · simp only [if_pos hzero, ofLog_events, List.length_map]
        simp [hzero, h]
        tauto
      · simp only [if_neg hzero]
        simp [hzero, h, hlength hzero]
    · simp [h]

/-! ### What sorting from the cached place on leaves -/

variable {q : Queue} {key : TimestampedEvent → ℤ}

/-- The queue is to be sorted from a timestamp on, which is not after this one. -/
def Resorts (q : Queue) (t : ℤ) : Prop := q.sortStartIdx ≠ 0 ∧ q.sortMinTs ≤ t

/-- Pairs pushed against the order of the keys are sorted again, so that the whole queue is sorted. -/
theorem settle_eq_sort (h : q.Ok) (halloc : q.events.Pairwise fun a b => a.allocId.lt b.allocId)
    (hties : q.events.Pairwise fun a b => a.ts = b.ts → key b < key a → q.Resorts b.ts) :
    (q.settle key).events = TimestampedEvent.sort key q.events := by
  -- a part that is not sorted again is in order
  have hfront {events : List TimestampedEvent} (hsub : events.Sublist q.events)
      (hordered : TimestampedEvent.Ordered events) (hnot : ∀ e ∈ events, ¬ q.Resorts e.ts) : events.Pairwise fun a b => ¬ TimestampedEvent.less key b a := by
    refine List.Pairwise.imp_of_mem ?_ ((hordered.and (halloc.sublist hsub)).and (hties.sublist hsub))
    rintro a b - hb ⟨⟨hts, hlt⟩, htie⟩ hless
    have hkey : a.ts = b.ts → ¬ key b < key a := fun heq hkey => hnot b hb (htie heq hkey)
    simp only [TimestampedEvent.less, AllocId.lt] at hlt hless
    omega
  have hpairwise : (q.settle key).events.Pairwise fun a b => ¬ TimestampedEvent.less key b a := by
    unfold settle
    split
    · rename_i hneeds
      have hstart : q.sortStartIdx ≠ 0 := by simpa [needsSorting] using hneeds
      obtain ⟨hbelow, habove, hle⟩ := h.sortBegin hstart
      refine List.pairwise_append.mpr ⟨hfront (List.take_sublist _ _) ?_ fun e he hresorts => ?_,
        List.pairwise_insertionSort _ _, fun a ha b hb => ?_⟩
      · have hordered := h.front_ordered
        rw [front, if_neg hstart] at hordered
        have hsub := hordered.sublist (List.take_sublist q.sortBegin _)
        rwa [List.take_take, min_eq_left hle] at hsub
      · exact absurd hresorts.2 (not_le.mpr (hbelow e he))
      · have hlt := (hbelow a ha).trans_le (habove b ((TimestampedEvent.sort_perm key _).mem_iff.mp hb))
        simp only [TimestampedEvent.less]
        omega
    · rename_i hneeds
      have hstart : q.sortStartIdx = 0 := by simpa [needsSorting] using hneeds
      have hordered := h.front_ordered
      rw [front, if_pos hstart] at hordered
      exact hfront (List.Sublist.refl _) hordered fun e _ hresorts => hresorts.1 hstart
  refine ((settle_perm q key).trans (TimestampedEvent.sort_perm key q.events).symm).eq_of_pairwise ?_ hpairwise
    (List.pairwise_insertionSort _ _)
  -- events of one place in the order have one id
  have hnodup : (q.events.map (·.allocId)).Nodup := by
    refine List.pairwise_map.mpr (halloc.imp fun {a b} hab heq => ?_)
    simp only [AllocId.lt, heq] at hab
    omega
  intro a b ha hb hab hba
  refine List.inj_on_of_nodup_map hnodup ((settle_perm q key).mem_iff.mp ha)
    ((TimestampedEvent.sort_perm key _).mem_iff.mp hb) ?_
  simp only [TimestampedEvent.less, AllocId.lt] at hab hba
  have hparts : a.allocId.chunkIndex = b.allocId.chunkIndex ∧ a.allocId.chunkOffset = b.allocId.chunkOffset := by omega
  cases hida : a.allocId
  cases hidb : b.allocId
  simpa [hida, hidb] using hparts

/-- A queue that settles in the order of the keys had its ties sorted again. -/
theorem resorts_of_settle (h : q.Ok)
    (hsorted : (q.settle key).events.Pairwise fun a b => a.ts = b.ts → key a ≤ key b) :
    q.events.Pairwise fun a b => a.ts = b.ts → key b < key a → q.Resorts b.ts := by
  unfold settle at hsorted
  split at hsorted
  · rename_i hneeds
    have hstart : q.sortStartIdx ≠ 0 := by simpa [needsSorting] using hneeds
    obtain ⟨-, habove, -⟩ := h.sortBegin hstart
    rw [← List.take_append_drop q.sortBegin q.events]
    refine List.pairwise_append.mpr ⟨?_, ?_, fun a _ b hb _ _ => ⟨hstart, habove b hb⟩⟩
    · refine (List.pairwise_append.mp hsorted).1.imp fun {a b} hab heq hlt => ?_
      exact absurd (hab heq) (not_le.mpr hlt)
    · exact List.pairwise_of_forall_mem_list fun a _ b hb _ _ => ⟨hstart, habove b hb⟩
  · exact hsorted.imp fun {a b} hab heq hlt => absurd (hab heq) (not_le.mpr hlt)

end Queue

/-! ### Extraction from one stream -/

namespace TraceSorter

theorem scanQueues_append (i : ℕ) (scan : Scan) (l₁ l₂ : List Queue) :
    scanQueues i scan (l₁ ++ l₂) = scanQueues (i + l₁.length) (scanQueues i scan l₁) l₂ := by
  induction l₁ generalizing i scan with
  | nil => rfl
  | cons q l₁ ih => rw [List.cons_append, scanQueues, ih, List.length_cons, scanQueues, Nat.add_right_comm]; rfl

theorem scanQueues_empty {queues : List Queue} (h : ∀ q ∈ queues, q.events = []) (i : ℕ) (scan : Scan) :
    scanQueues i scan queues = scan := by
  induction queues generalizing i with
  | nil => rfl
  | cons q queues ih =>
    have hnext : scan.next i q = scan := if_pos (h q List.mem_cons_self)
    rw [scanQueues, hnext, ih fun r hr => h r (List.mem_cons_of_mem _ hr)]

/-- The scan of the queues when only one has events. -/
theorem scanQueues_one {queues : List Queue} {stream : ℕ} {q : Queue} (hq : queues[stream]? = some q)
    (hne : q.events ≠ []) (hothers : ∀ j r, queues[j]? = some r → j ≠ stream → r.events = []) :
    scanQueues 0 { } queues = ⟨stream, q.minTs, kTsMax, false⟩ := by
  obtain ⟨hlt, hget⟩ := List.getElem?_eq_some_iff.mp hq
  have hsplit : queues = queues.take stream ++ q :: queues.drop (stream + 1) := by
    rw [← hget, List.getElem_cons_drop, List.take_append_drop]
  have hbefore : ∀ r ∈ queues.take stream, r.events = [] := fun r hr => by
    obtain ⟨j, hj, rfl⟩ := List.mem_take_iff_getElem.mp hr
    exact hothers j _ (List.getElem?_eq_getElem _) (by omega)
  have hafter : ∀ r ∈ queues.drop (stream + 1), r.events = [] := fun r hr => by
    obtain ⟨j, hj, rfl⟩ := List.mem_drop_iff_getElem.mp hr
    exact hothers _ _ (List.getElem?_eq_getElem _) (by omega)
  have hnext : Scan.next { } stream q = ⟨stream, q.minTs, kTsMax, false⟩ := by
    unfold Scan.next
    rw [if_neg hne]
    rfl
  rw [hsplit, scanQueues_append, scanQueues_empty hbefore, scanQueues, List.length_take, Nat.zero_add,
    Nat.min_eq_left hlt.le, hnext, scanQueues_empty hafter]

theorem extractEvents_all {limit : AllocId} {minQueueTs1 : ℤ} {stream : ℕ} {sink : SinkType}
    {events : List TimestampedEvent} (h : ∀ e ∈ events, e.allocId.lt limit ∧ e.ts ≤ minQueueTs1) {s s' : TraceSorter}
    {n : ℕ} (heq : extractEvents limit minQueueTs1 stream sink events s = some (n, s')) : n = events.length := by
  induction events generalizing s s' n with
  | nil =>
    rw [extractEvents, Option.some_inj, Prod.mk.injEq] at heq
    exact heq.1.symm
  | cons e events ih =>
    obtain ⟨hlt, hle⟩ := h e List.mem_cons_self
    rw [extractEvents, if_neg (not_not.mpr hlt), if_neg (not_lt.mpr hle)] at heq
    obtain ⟨s₁, -, hrest⟩ := Option.bind_eq_some_iff.mp heq
    obtain ⟨⟨m, s₂⟩, hmore, hsome⟩ := Option.bind_eq_some_iff.mp hrest
    rw [Option.some_inj, Prod.mk.injEq] at hsome
    rw [← hsome.1, List.length_cons, ih (fun a ha => h a (List.mem_cons_of_mem _ ha)) hmore]

theorem extractRound_empty {s : TraceSorter} (h : ∀ q ∈ s.queues, q.events = []) (limit : AllocId) :
    s.extractRound limit = some (false, s) := by
  unfold extractRound
  rw [scanQueues_empty h]
  rfl

end TraceSorter

variable {stream : ℕ} {done : List SinkCall}

/-- When one stream has events, a round delivers all of them as its queue sorts them. -/
theorem Whole.extractRound_one {tok : AllocId → Token} {s : TraceSorter} (h : Whole tok done s) (hfresh : Fresh s)
    (hpush : s.eventHandling = .kSortAndPush) {q : Queue} (hq : s.queues[stream]? = some q) (hne : q.events ≠ [])
    (hothers : ∀ j r, s.queues[j]? = some r → j ≠ stream → r.events = []) :
    ∃ s₁, s.extractRound s.tokenBuffer.allocator.pastTheEndId = some (true, s₁) ∧ (∀ r ∈ s₁.queues, r.events = []) ∧
      s₁.sorted = s.sorted ++ (q.settle s.sortKey).events.map fun e => callOf tok (stream, e) := by
  have hperm := q.settle_perm s.sortKey
  have hok := h.queues_ok q (List.mem_of_getElem? hq)
  have hsplit := pendingFrom_set 0 hq { q with events := [] } (q.settle s.sortKey).events (by simpa using hperm.symm)
  rw [Nat.zero_add] at hsplit
  obtain ⟨n, s₁, hextract, -, hframe, -, -, horder⟩ :=
    (h.ledger.perm hsplit).extractEvents s.tokenBuffer.allocator.pastTheEndId kTsMax q.sink (q.settle s.sortKey).events
      fun e he => h.types _ q hq e (hperm.mem_iff.mp he)
  have hn : n = (q.settle s.sortKey).events.length := by
    refine TraceSorter.extractEvents_all (fun e he => ?_) hextract
    have hmem := hperm.mem_iff.mp he
    refine ⟨?_, (hok.le_maxTs e hmem).trans hok.maxTs_le.2⟩
    exact h.ledger.tokens.lt_pastTheEndId (List.mem_map_of_mem (mem_pendingFrom_of 0 hq hmem))
  obtain ⟨latest, hinorder, -, -⟩ := horder hpush (hok.settle_ordered s.sortKey) fun e he =>
    hfresh q (List.mem_of_getElem? hq) e (hperm.mem_iff.mp he)
  have hpos : n ≠ 0 := by
    rw [hn, hperm.length_eq]
    exact fun hzero => hne (List.length_eq_zero_iff.mp hzero)
  have hsettle : (if q.needsSorting = true then q.sort s.sortKey else q) = q.settle s.sortKey := rfl
  unfold TraceSorter.extractRound
  simp only [TraceSorter.scanQueues_one hq hne hothers, Bool.false_eq_true, if_false, hq, Option.bind_eq_bind,
    Option.bind_some, hsettle, Queue.settle_sink, hextract, if_neg hpos, hframe.queues]
  refine ⟨_, rfl, fun r hr => ?_, ?_⟩
  · obtain ⟨j, hj⟩ := List.mem_iff_getElem?.mp hr
    by_cases hij : j = stream
    · rw [hij, List.getElem?_set_self (List.getElem?_eq_some_iff.mp hq).1, Option.some_inj] at hj
      rw [← hj, Queue.eraseFront_events, hn, List.drop_length]
    · rw [List.getElem?_set_ne (Ne.symm hij)] at hj
      exact hothers j r hj hij
  · rw [hinorder.sorted, hn, List.take_length]

/-- When one stream has events, the final extraction delivers them as its queue sorts them. -/
theorem Whole.extractEventsForced_one {tok : AllocId → Token} {s : TraceSorter} (h : Whole tok done s)
    (hfresh : Fresh s) (hpush : s.eventHandling = .kSortAndPush) {q : Queue} (hq : s.queues[stream]? = some q)
    (hothers : ∀ j r, s.queues[j]? = some r → j ≠ stream → r.events = []) :
    ∃ s', s.extractEventsForced = some s' ∧
      s'.sorted = s.sorted ++ (q.settle s.sortKey).events.map fun e => callOf tok (stream, e) := by
  have hloop : ∃ s₁, s.sortAndExtractEventsUntilAllocId s.tokenBuffer.allocator.pastTheEndId s.rounds = some s₁ ∧
      (∀ r ∈ s₁.queues, r.events = []) ∧
      s₁.sorted = s.sorted ++ (q.settle s.sortKey).events.map fun e => callOf tok (stream, e) := by
    by_cases hne : q.events = []
    · have hall : ∀ r ∈ s.queues, r.events = [] := fun r hr => by
        obtain ⟨j, hj⟩ := List.mem_iff_getElem?.mp hr
        by_cases hij : j = stream
        · rw [hij, hq, Option.some_inj] at hj
          exact hj ▸ hne
        · exact hothers j r hj hij
      have hnone : (q.settle s.sortKey).events = [] := List.perm_nil.mp (hne ▸ q.settle_perm s.sortKey)
      refine ⟨s, ?_, hall, by simp [hnone]⟩
      rw [TraceSorter.rounds, TraceSorter.sortAndExtractEventsUntilAllocId, TraceSorter.extractRound_empty hall]
      rfl
    · obtain ⟨s₁, hround, hempty, hsorted⟩ := h.extractRound_one hfresh hpush hq hne hothers
      refine ⟨s₁, ?_, hempty, hsorted⟩
      obtain ⟨n, hn⟩ : ∃ n, s.rounds = n + 2 := by
        have hlength : 0 < (pendingFrom 0 s.queues).length := by
          obtain ⟨e, he⟩ := List.exists_mem_of_ne_nil _ hne
          exact List.length_pos_of_mem (mem_pendingFrom_of 0 hq he)
        exact ⟨(pendingFrom 0 s.queues).length - 1, by rw [rounds_eq]; omega⟩
      rw [hn, TraceSorter.sortAndExtractEventsUntilAllocId, hround]
      simp only [Option.bind_eq_bind, Option.bind_some, if_true]
      rw [TraceSorter.sortAndExtractEventsUntilAllocId, TraceSorter.extractRound_empty hempty]
      rfl
  obtain ⟨s₁, hs₁, hempty, hsorted⟩ := hloop
  have hall : s₁.queues.all (·.events.isEmpty) := by simpa using hempty
  refine ⟨{ s₁ with allocIdForExtraction := s.tokenBuffer.allocator.pastTheEndId, flushesSinceExtraction := 0 }, ?_,
    hsorted⟩
  simp only [TraceSorter.extractEventsForced, hs₁, Option.bind_eq_bind, Option.bind_some, hall, if_true]

/-! ### The log of a run -/

theorem isComplete_restoredToken (t : Token) : (restoredToken t).isComplete = t.isComplete := by
  cases t <;> rfl

/-- What a push does to the queues. -/
theorem TraceSorter.push_cases {s s' : TraceSorter} {ts : Int64} {data : Token}
    (hpush : s.push stream ts data = some s') :
    (accepted s.eventHandling [.push stream ts data] = [] ∧ s'.queues = s.queues ∧
      s'.useSlowSorting = s.useSlowSorting) ∨
    (accepted s.eventHandling [.push stream ts data] = [⟨stream, ts.toInt, restoredToken data⟩] ∧
      ∃ q id, s.queues[stream]? = some q ∧
        s'.useSlowSorting = (s.useSlowSorting || (decide (q.sink = .jsonEvent) && data.isComplete)) ∧
        s'.queues = s.queues.set stream (q.append ts.toInt id (q.sink = .jsonEvent) s'.useSlowSorting)) := by
  unfold TraceSorter.push at hpush
  obtain ⟨q, hfilter, hpush⟩ := Option.bind_eq_some_iff.mp hpush
  obtain ⟨hq, -⟩ := Option.filter_eq_some_iff.mp hfilter
  have hzero : (0 : Int64).toInt = 0 := rfl
  by_cases hdrop : s.eventHandling = .kDrop
  · rw [if_pos hdrop, Option.some_inj] at hpush
    subst hpush
    exact .inl ⟨if_pos hdrop, rfl, rfl⟩
  rw [if_neg hdrop] at hpush
  by_cases hneg : ts < 0
  · rw [if_pos hneg, Option.some_inj] at hpush
    subst hpush
    have hlt : ts.toInt < 0 := hzero ▸ Int64.lt_iff_toInt_lt.mp hneg
    refine .inl ⟨?_, rfl, rfl⟩
    rw [accepted, if_neg hdrop]
    simpa [SorterCall.pushed] using hlt
  · rw [if_neg hneg] at hpush
    have hge : 0 ≤ ts.toInt := hzero ▸ not_lt.mp fun hlt => hneg (Int64.lt_iff_toInt_lt.mpr hlt)
    obtain ⟨⟨id, b⟩, -, hsome⟩ := Option.bind_eq_some_iff.mp hpush
    rw [Option.some_inj] at hsome
    subst hsome
    refine .inr ⟨?_, q, id, hq, ?_, rfl⟩
    · rw [accepted, if_neg hdrop]
      simpa [SorterCall.pushed] using hge
    · cases data <;> simp [Token.isComplete]

theorem slowAt_concat (done : List SinkCall) (c : SinkCall) (k : ℕ) :
    slowAt (done ++ [c]) k = if k < done.length then slowAt done k
      else done.any (·.token.isComplete) || c.token.isComplete := by
  unfold slowAt
  split_ifs with hk
  · rw [List.take_append_of_le_length hk]
  · rw [List.take_of_length_le (by simp; omega), List.any_append]
    simp

/-- The run has pushed to one stream only, whose queue is the log of the pushes. -/
structure Logged (stream : ℕ) (done : List SinkCall) (s : TraceSorter) : Prop where
  log : ∀ q, s.queues[stream]? = some q → q.sink = .jsonEvent →
    s.useSlowSorting = done.any (·.token.isComplete) ∧ ∃ log, q = Queue.ofLog .jsonEvent log ∧
      log.length = done.length ∧ ∀ k e, log[k]? = some e → e.2 = slowAt done k ∧ e.1.isJsonEvent = true
  others : ∀ j r, s.queues[j]? = some r → j ≠ stream → r.events = []
  absent : s.queues[stream]? = none → done = [] ∧ s.useSlowSorting = false

/-- A call that leaves the queues. -/
theorem Logged.of_eq {s s' : TraceSorter} (h : Logged stream done s) (hqueues : s'.queues = s.queues)
    (hslow : s'.useSlowSorting = s.useSlowSorting) : Logged stream done s' where
  log q hq := hslow ▸ h.log q (hqueues ▸ hq)
  others j r hj := h.others j r (hqueues ▸ hj)
  absent hnone := hslow ▸ h.absent (hqueues ▸ hnone)

theorem Logged.createStream {s : TraceSorter} (h : Logged stream done s) (sink : SinkType) :
    Logged stream done (s.createStream sink) where
  log q hq hsink := by
    rcases TraceSorter.getElem?_concat_cases hq with hold | ⟨hnew, rfl⟩
    · exact h.log q hold hsink
    · obtain ⟨rfl, hslow⟩ := h.absent (by rw [hnew]; simp)
      refine ⟨hslow, [], ?_, rfl, by simp⟩
      rw [show sink = .jsonEvent from hsink]
      rfl
  others j r hj hne := by
    rcases TraceSorter.getElem?_concat_cases hj with hold | ⟨-, rfl⟩
    · exact h.others j r hold hne
    · rfl
  absent hnone := h.absent (by
    simp only [TraceSorter.createStream, List.getElem?_eq_none_iff, List.length_append] at hnone ⊢
    omega)

theorem Logged.push {s s' : TraceSorter} (h : Logged stream done s) {i : ℕ} {ts : Int64} {data : Token}
    (hpush : s.push i ts data = some s') (hone : ∀ c ∈ accepted s.eventHandling [.push i ts data], c.stream = stream) :
    Logged stream (done ++ accepted s.eventHandling [.push i ts data]) s' := by
  rcases TraceSorter.push_cases hpush with ⟨hnone, hqueues, hslow⟩ | ⟨hsome, q, id, hq, hslow, hqueues⟩
  · rw [hnone, List.append_nil]
    exact h.of_eq hqueues hslow
  rw [hsome] at hone ⊢
  obtain rfl : i = stream := hone _ (List.mem_singleton.mpr rfl)
  have hset : s'.queues[i]? = some (q.append ts.toInt id (q.sink = .jsonEvent) s'.useSlowSorting) := by
    rw [hqueues, List.getElem?_set_self (List.getElem?_eq_some_iff.mp hq).1]
  refine ⟨fun q' hq' hsink => ?_, fun j r hj hne => ?_, fun hnone => ?_⟩
  · obtain rfl := Option.some_inj.mp (hset.symm.trans hq')
    rw [Queue.append_sink] at hsink
    obtain ⟨hslow₀, log, hlog, hlength, hentries⟩ := h.log q hq hsink
    have hslow' : s'.useSlowSorting = (done.any (·.token.isComplete) || data.isComplete) := by
      rw [hslow, hslow₀]
      simp [hsink]
    refine ⟨?_, log ++ [(⟨ts.toInt, id, true⟩, s'.useSlowSorting)], ?_, by simp [hlength], fun k e hk => ?_⟩
    · rw [hslow', List.any_append]
      simp [isComplete_restoredToken]
    · rw [Queue.ofLog_concat, ← hlog]
      simp [hsink]
    · rw [slowAt_concat]
      rcases TraceSorter.getElem?_concat_cases hk with hk | ⟨rfl, rfl⟩
      · rw [if_pos (hlength ▸ (List.getElem?_eq_some_iff.mp hk).1)]
        exact hentries k e hk
      · rw [if_neg (by omega), isComplete_restoredToken]
        exact ⟨hslow', rfl⟩
  · rw [hqueues, List.getElem?_set_ne (Ne.symm hne)] at hj
    exact h.others j r hj hne
  · rw [hset] at hnone
    cases hnone

theorem Logged.step {s s' : TraceSorter} (h : Logged stream done s) {call : SorterCall} (hstep : s.step call = some s')
    (hquiet : s.extracts call = false) (hone : ∀ c ∈ accepted s.eventHandling [call], c.stream = stream) :
    Logged stream (done ++ accepted s.eventHandling [call]) s' := by
  have hnone (hpushed : call.pushed = none) : accepted s.eventHandling [call] = [] := by simp [accepted, hpushed]
  cases call with
  | createStream sink =>
    rw [hnone rfl, List.append_nil]
    exact Option.some_inj.mp hstep ▸ h.createStream sink
  | setSortingMode mode =>
    rw [hnone rfl, List.append_nil]
    obtain rfl := Option.some_inj.mp hstep
    unfold TraceSorter.setSortingMode
    split_ifs <;> exact h.of_eq rfl rfl
  | push i ts data => exact h.push hstep hone
  | notifyFlushEvent =>
    rw [hnone rfl, List.append_nil]
    exact Option.some_inj.mp hstep ▸ h.of_eq rfl rfl
  | notifyReadBufferEvent =>
    rw [hnone rfl, List.append_nil]
    have hskip : s.sortingMode = .kFullSort ∨ s.flushesSinceExtraction < 2 := by
      simpa [TraceSorter.extracts, or_iff_not_imp_left] using hquiet
    rw [TraceSorter.step, TraceSorter.notifyReadBufferEvent, if_pos hskip] at hstep
    exact Option.some_inj.mp hstep ▸ h
  | extractEventsForced => simp [TraceSorter.extracts] at hquiet

theorem Logged.run {calls : List SorterCall} {tok : AllocId → Token} {s s' : TraceSorter} (h : Logged stream done s)
    (hwhole : Whole tok done s) (hrun : s.run calls = some s') (hquiet : s.neverExtracts calls)
    (hone : ∀ c ∈ accepted s.eventHandling calls, c.stream = stream) :
    Logged stream (done ++ accepted s.eventHandling calls) s' := by
  induction calls generalizing s done tok with
  | nil =>
    obtain rfl := Option.some_inj.mp hrun
    have hnil : accepted s.eventHandling [] = [] := by simp [accepted]
    rwa [hnil, List.append_nil]
  | cons call calls ih =>
    rw [TraceSorter.run, List.foldlM_cons] at hrun
    obtain ⟨s₁, hstep, hrest⟩ := Option.bind_eq_some_iff.mp hrun
    obtain ⟨tok₁, hfirst⟩ := hwhole.step hstep
    simp only [TraceSorter.neverExtracts, hstep, Bool.and_eq_true, Bool.not_eq_true'] at hquiet
    rw [accepted_cons] at hone ⊢
    have hnext := ih (h.step hstep hquiet.1 fun c hc => hone c (List.mem_append_left _ hc)) hfirst.whole hrest hquiet.2
    rw [hfirst.eventHandling, List.append_assoc] at hnext
    exact hnext fun c hc => hone c (List.mem_append_right _ hc)

/-! ### Delivery -/

theorem keyForType_congr {word word' : ℕ → UInt64} (hphase : word 9 = word' 9) (hdur : word 0 = word' 0) :
    keyForType word = keyForType word' := by
  have hphase' : JsonEvent.phase word = JsonEvent.phase word' := congrArg UInt64.toUInt8 hphase
  have hdur' : JsonEvent.dur word = JsonEvent.dur word' := congrArg UInt64.toInt64 hdur
  simp only [keyForType, hphase', hdur']

/-- The key that is read in the buffer is that of the token. -/
theorem Consistent.slowKey {b : TraceTokenBuffer} {live : List (AllocId × Token)} (hs : Consistent ⟨b, live⟩)
    {e : TimestampedEvent} {t : Token} (he : (e.allocId, t) ∈ live) (hjson : e.isJsonEvent = true)
    (hfits : SinkType.jsonEvent.fits t) : slowKey b e = (restoredToken t).slowKey := by
  obtain ⟨q, chunk, blobs, seqs, hlies⟩ := hs.lies _ he
  rcases t with ted | ⟨words, hne⟩
  · simp [SinkType.fits] at hfits
  · have hlength : words.length = 10 := of_decide_eq_true hfits
    have hword {i : ℕ} (hi : i < 10) : chunk.allocation (e.allocId.chunkOffset / 8 + i) = words.getD i 0 := by
      rw [List.getD_eq_getElem?_getD, List.getElem?_eq_getElem (by omega)]
      exact hlies.stored i (by omega)
    rw [LynxTrace.TraceProcessor.slowKey, hlies.chunkOf.2]
    simp only [hjson, if_true]
    exact keyForType_congr (hword (by omega)) (hword (by omega))

/-- The ties of the pushes are sorted again exactly if those of the queue are. -/
theorem Logged.tiesResorted_iff {log : List (TimestampedEvent × Bool)} {pushes : List SinkCall}
    {call : TimestampedEvent → SinkCall} {key : TimestampedEvent → ℤ} {q : Queue} (hq : q = .ofLog .jsonEvent log)
    (hlog : ∀ e ∈ log, 0 ≤ e.1.ts ∧ e.1.ts ≤ kTsMax) (hpushes : q.events.map call = pushes)
    (hslow : ∀ k e, log[k]? = some e → e.2 = slowAt pushes k) (hts : ∀ e ∈ q.events, (call e).ts = e.ts)
    (hkey : ∀ e ∈ q.events, (call e).token.slowKey = key e) :
    TiesResorted pushes ↔ q.events.Pairwise fun a b => a.ts = b.ts → key b < key a → q.Resorts b.ts := by
  have hevents : q.events = log.map Prod.fst := by rw [hq, Queue.ofLog_events]
  have hget (k : ℕ) : pushes[k]? = q.events[k]?.map call := by rw [← hpushes, List.getElem?_map]
  have hgetlog (k : ℕ) : q.events[k]? = log[k]?.map Prod.fst := by rw [hevents, List.getElem?_map]
  -- the push that breaks the order, in the log
  have hresorts (t : ℤ) : q.Resorts t ↔ ∃ k c, Breaks pushes k c ∧ c.ts ≤ t := by
    rw [hq, Queue.Resorts, Queue.ofLog_start hlog]
    constructor
    · rintro ⟨k, e, hk, hle, j, a, hj, ha, hbreaks⟩
      have hek : q.events[k]? = some e.1 := by rw [hgetlog, hk]; rfl
      have haj : q.events[j]? = some a.1 := by rw [hgetlog, ha]; rfl
      have hets := hts _ (List.mem_of_getElem? hek)
      have hats := hts _ (List.mem_of_getElem? haj)
      refine ⟨k, call e.1, ⟨by rw [hget, hek]; rfl, j, call a.1, hj, by rw [hget, haj]; rfl, ?_⟩, hets ▸ hle⟩
      rw [hets, hats, ← hslow k e hk]
      exact hbreaks
    · rintro ⟨k, c, ⟨hk, j, a, hj, ha, hbreaks⟩, hle⟩
      rw [hget, hgetlog, Option.map_map] at hk ha
      obtain ⟨e, hek, rfl⟩ := Option.map_eq_some_iff.mp hk
      obtain ⟨d, hdj, rfl⟩ := Option.map_eq_some_iff.mp ha
      have hets := hts e.1 (List.mem_of_getElem? (by rw [hgetlog, hek]; rfl))
      have hdts := hts d.1 (List.mem_of_getElem? (by rw [hgetlog, hdj]; rfl))
      simp only [Function.comp_apply, hets, hdts] at hle hbreaks
      exact ⟨k, e, hek, hle, j, d, hj, hdj, hslow k e hek ▸ hbreaks⟩
  rw [List.pairwise_iff_getElem]
  constructor
  · intro h i j hi hj hij hequal hlt
    have hi' : pushes[i]? = some (call q.events[i]) := by rw [hget, List.getElem?_eq_getElem hi]; rfl
    have hj' : pushes[j]? = some (call q.events[j]) := by rw [hget, List.getElem?_eq_getElem hj]; rfl
    have hits := hts _ (List.getElem_mem hi)
    have hjts := hts _ (List.getElem_mem hj)
    rw [hresorts]
    cases hsw : slowAt pushes j with
    | false =>
      rw [← hjts]
      refine h i j _ _ hij hi' hj' (by rw [hits, hjts, hequal]) ?_ hsw
      rwa [hkey _ (List.getElem_mem hi), hkey _ (List.getElem_mem hj)]
    | true =>
      -- the later one came when sorting slowly, and so broke the order itself
      exact ⟨j, _, ⟨hj', i, _, hij, hi', .inr ⟨by rw [hits, hjts, hequal], hsw⟩⟩, hjts.le⟩
  · intro h i j a b hij hi hj hequal hlt _
    rw [hget] at hi hj
    obtain ⟨x, hx, rfl⟩ := Option.map_eq_some_iff.mp hi
    obtain ⟨y, hy, rfl⟩ := Option.map_eq_some_iff.mp hj
    obtain ⟨hilt, rfl⟩ := List.getElem?_eq_some_iff.mp hx
    obtain ⟨hjlt, rfl⟩ := List.getElem?_eq_some_iff.mp hy
    have hits := hts _ (List.getElem_mem hilt)
    have hjts := hts _ (List.getElem_mem hjlt)
    rw [hkey _ (List.getElem_mem hilt), hkey _ (List.getElem_mem hjlt)] at hlt
    rw [hits, hjts] at hequal
    rw [hjts]
    exact (hresorts _).mp (h i j hilt hjlt hij hequal hlt)

namespace TraceSorter

/-- After pushes to one stream of JSON events, with a complete event among them and nothing extracted before, the final
extraction delivers them by timestamp, then by `KeyForType`, then as they were pushed, exactly if the ties that were
pushed against that order before the first complete event are sorted again. -/
theorem delivers_slowly_iff {mode : SortingMode} {calls : List SorterCall} {s : TraceSorter} {stream : ℕ} {q : Queue}
    (hrun : run calls { sortingMode := mode } = some s) (hquiet : neverExtracts calls { sortingMode := mode })
    (hone : ∀ c ∈ accepted .kSortAndPush calls, c.stream = stream) (hq : s.queues[stream]? = some q)
    (hsink : q.sink = .jsonEvent) (hcomplete : ∃ c ∈ accepted .kSortAndPush calls, c.token.isComplete = true) :
    ∃ s', s.extractEventsForced = some s' ∧
      (s'.sorted = (accepted .kSortAndPush calls).insertionSort SinkCall.slowLe ↔
        TiesResorted (accepted .kSortAndPush calls)) := by
  have hinit := whole_init mode .kSortAndPush fun _ => .object [0] (List.cons_ne_nil _ _)
  obtain ⟨tok, hwhole, hhandling, -, hun⟩ := hinit.run hrun
  have huntouched := hun hquiet (untouched_init mode .kSortAndPush _)
  have hlogged := Logged.run (s := { sortingMode := mode }) ⟨nofun, nofun, fun _ => ⟨rfl, rfl⟩⟩ hinit hrun hquiet hone
  dsimp only at hwhole hhandling huntouched hlogged
  rw [List.nil_append] at hwhole huntouched hlogged
  generalize accepted .kSortAndPush calls = pushes at hone hcomplete hwhole huntouched hlogged
  obtain ⟨hslow, log, hlog, -, hentries⟩ := hlogged.log q hq hsink
  obtain ⟨s', hforced, hsorted⟩ :=
    hwhole.extractEventsForced_one (huntouched.fresh hwhole) hhandling hq hlogged.others
  rw [huntouched.sorted, List.nil_append] at hsorted
  have hok := hwhole.queues_ok q (List.mem_of_getElem? hq)
  have hevents : q.events = log.map Prod.fst := by rw [hlog, Queue.ofLog_events]
  have hqueue : queueEvents s stream = q.events := by rw [queueEvents, hq]; rfl
  have hpushes : (q.events.map fun e => callOf tok (stream, e)) = pushes := by
    rw [← hqueue, huntouched.queues stream]
    exact List.filter_eq_self.mpr fun c hc => by simpa using hone c hc
  have halloc : q.events.Pairwise fun a b => a.allocId.lt b.allocId := hqueue ▸ huntouched.alloc stream
  have hsortKey : s.sortKey = slowKey s.tokenBuffer := by
    have htrue : s.useSlowSorting = true := by simpa [hslow] using hcomplete
    rw [sortKey, if_pos htrue]
  have hkey : ∀ e ∈ q.events, (callOf tok (stream, e)).token.slowKey = s.sortKey e := by
    intro e he
    obtain ⟨x, hx, rfl⟩ := List.mem_map.mp (hevents ▸ he)
    obtain ⟨k, hk⟩ := List.mem_iff_getElem?.mp hx
    rw [hsortKey, hwhole.ledger.tokens.slowKey (List.mem_map_of_mem (mem_pendingFrom_of 0 hq he)) (hentries k x hk).2
      (hsink ▸ hwhole.types stream q hq _ he)]
    rfl
  have hbounds : ∀ e ∈ log, 0 ≤ e.1.ts ∧ e.1.ts ≤ kTsMax := fun e he => by
    have hmem : e.1 ∈ q.events := hevents ▸ List.mem_map_of_mem he
    exact ⟨hok.nonneg _ hmem, (hok.le_maxTs _ hmem).trans hok.maxTs_le.2⟩
  have hties := Logged.tiesResorted_iff hlog hbounds hpushes (fun k e hk => (hentries k e hk).1) (fun _ _ => rfl) hkey
  have hsort := TimestampedEvent.map_sort halloc (fun e => callOf tok (stream, e)) (fun _ _ => rfl) hkey
  refine ⟨s', hforced, ?_⟩
  rw [hties, hsorted, ← hpushes]
  constructor
  · intro heq
    have hperm := q.settle_perm s.sortKey
    have hpairwise := List.pairwise_insertionSort SinkCall.slowLe (q.events.map fun e => callOf tok (stream, e))
    rw [← heq, List.pairwise_map] at hpairwise
    refine Queue.resorts_of_settle hok (hpairwise.imp_of_mem fun {a b} ha hb hle hequal => ?_)
    rw [SinkCall.slowLe, hkey a (hperm.mem_iff.mp ha), hkey b (hperm.mem_iff.mp hb)] at hle
    simp only [callOf] at hle
    omega
  · intro h
    rw [Queue.settle_eq_sort hok halloc h, hsort]

/-- A JSON event with a phase and a duration. -/
def jsonEvent (phase : Char) (dur : UInt64) : Token :=
  .object [dur, 0, 0, 0, 0, 0, 0, 0, 0, phase.toUInt8.toUInt64] (List.cons_ne_nil _ _)

theorem delivers_slowly_iff_complete : ∃ s s', run [.createStream .jsonEvent, .push 0 10 (jsonEvent 'B' 0),
      .push 0 20 (jsonEvent 'X' 5), .push 0 20 (jsonEvent 'E' 0)] { sortingMode := .kFullSort } = some s ∧
    s.extractEventsForced = some s' ∧
    (s'.sorted = [⟨0, 10, jsonEvent 'B' 0⟩, ⟨0, 20, jsonEvent 'X' 5⟩, ⟨0, 20, jsonEvent 'E' 0⟩].insertionSort
        SinkCall.slowLe ↔
      TiesResorted [⟨0, 10, jsonEvent 'B' 0⟩, ⟨0, 20, jsonEvent 'X' 5⟩, ⟨0, 20, jsonEvent 'E' 0⟩]) := by
  have hsink : ((run [.createStream .jsonEvent, .push 0 10 (jsonEvent 'B' 0), .push 0 20 (jsonEvent 'X' 5),
      .push 0 20 (jsonEvent 'E' 0)] { sortingMode := .kFullSort }).bind fun s => s.queues[0]?).map (·.sink) =
      some .jsonEvent := by decide +kernel
  obtain ⟨q, hbind, hsink⟩ := Option.map_eq_some_iff.mp hsink
  obtain ⟨s, hrun, hq⟩ := Option.bind_eq_some_iff.mp hbind
  obtain ⟨s', hforced, hiff⟩ := delivers_slowly_iff hrun (by decide +kernel) (by decide +kernel) hq hsink
    ⟨⟨0, 20, jsonEvent 'X' 5⟩, by decide +kernel, by decide +kernel⟩
  exact ⟨s, s', hrun, hforced, hiff⟩

/-- An `E` after a `B` of the same timestamp, both before the first `X`, is delivered after it. -/
theorem not_delivers_slowly : ¬∀ calls s s' stream, run calls { sortingMode := .kFullSort } = some s →
    neverExtracts calls { sortingMode := .kFullSort } → (∀ c ∈ accepted .kSortAndPush calls, c.stream = stream) →
    (s.queues[stream]?).map (·.sink) = some .jsonEvent →
    (∃ c ∈ accepted .kSortAndPush calls, c.token.isComplete = true) → s.extractEventsForced = some s' →
    s'.sorted = (accepted .kSortAndPush calls).insertionSort SinkCall.slowLe := by
  intro hall
  have hsorted : ((run [.createStream .jsonEvent, .push 0 10 (jsonEvent 'B' 0), .push 0 10 (jsonEvent 'E' 0),
      .push 0 20 (jsonEvent 'X' 5), .push 0 20 (jsonEvent 'I' 0)] { sortingMode := .kFullSort }).bind fun s =>
        if (s.queues[0]?).map (·.sink) = some .jsonEvent then s.extractEventsForced.map (s, ·.sorted) else none).map
      (·.2) = some [⟨0, 10, jsonEvent 'B' 0⟩, ⟨0, 10, jsonEvent 'E' 0⟩, ⟨0, 20, jsonEvent 'X' 5⟩,
        ⟨0, 20, jsonEvent 'I' 0⟩] := by decide +kernel
  obtain ⟨⟨s, sorted⟩, hbind, rfl⟩ := Option.map_eq_some_iff.mp hsorted
  obtain ⟨s₁, hrun, hif⟩ := Option.bind_eq_some_iff.mp hbind
  split at hif
  · rename_i hsink
    obtain ⟨s', hforced, hpair⟩ := Option.map_eq_some_iff.mp hif
    obtain ⟨-, hlist⟩ := Prod.mk.injEq .. ▸ hpair
    have hclaim := hall _ _ _ 0 hrun (by decide +kernel) (by decide +kernel) hsink
      ⟨⟨0, 20, jsonEvent 'X' 5⟩, by decide +kernel, by decide +kernel⟩ hforced
    rw [hlist] at hclaim
    revert hclaim
    decide +kernel
  · cases hif

end TraceSorter

end LynxTrace.TraceProcessor
