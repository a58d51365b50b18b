import LynxTrace.TraceProcessor.TraceSorter
import Mathlib.Order.Lattice

/-!
# TraceProcessor.SortedQueues — the queues of the sorter and the scan for the earliest event

The bounds a queue caches and the place where its order breaks stay right through `append`, `sort` and partial
extraction (`Queue.Ok`).
-/

namespace LynxTrace.TraceProcessor

/-! ### The order of events -/

namespace TimestampedEvent

variable (key : TimestampedEvent → ℤ)

instance : IsTrans TimestampedEvent fun a b => ¬less key b a where
  trans a b c := by
    simp only [less, AllocId.lt]
    omega

instance : Std.Total fun a b => ¬less key b a where
  total a b := by
    simp only [less, AllocId.lt]
    omega

theorem sort_perm (events : List TimestampedEvent) : (sort key events).Perm events :=
  List.perm_insertionSort _ _

/-- The events are sorted by timestamp. -/
def Ordered (events : List TimestampedEvent) : Prop := events.Pairwise fun a b => a.ts ≤ b.ts

theorem sort_ordered (events : List TimestampedEvent) : Ordered (sort key events) := by
  refine (List.pairwise_insertionSort _ events).imp fun {a b} hab => ?_
  simp only [less] at hab
  omega

/-- Sorting without a second key keeps the events of one timestamp in the order of their allocation. -/
theorem sort_filter {events : List TimestampedEvent} (halloc : events.Pairwise fun a b => a.allocId.lt b.allocId)
    (t : ℤ) : (sort (fun _ => 0) events).filter (·.ts = t) = events.filter (·.ts = t) := by
  have hpairwise : (events.filter (·.ts = t)).Pairwise fun a b => ¬less (fun _ => 0) b a := by
    refine (halloc.filter _).imp_of_mem fun {a b} ha hb hab => ?_
    have hat : a.ts = t := by simpa using (List.mem_filter.mp ha).2
    have hbt : b.ts = t := by simpa using (List.mem_filter.mp hb).2
    simp only [less, AllocId.lt] at hab ⊢
    omega
  have hsub := (List.sublist_insertionSort hpairwise List.filter_sublist).filter (·.ts = t)
  rw [List.filter_filter] at hsub
  simp only [Bool.and_self] at hsub
  refine (hsub.eq_of_length ?_).symm
  exact ((sort_perm (fun _ => 0) events).filter _).length_eq.symm

end TimestampedEvent

/-! ### Queues -/

namespace Queue

open TimestampedEvent (Ordered)

/-- The events before the place where the order breaks. -/
def front (q : Queue) : List TimestampedEvent := if q.sortStartIdx = 0 then q.events else q.events.take q.sortStartIdx

/-- The invariant of a queue. -/
structure Ok (q : Queue) : Prop where
  nonneg : ∀ e ∈ q.events, 0 ≤ e.ts
  le_maxTs : ∀ e ∈ q.events, e.ts ≤ q.maxTs
  minTs_le : ∀ e ∈ q.events, q.minTs ≤ e.ts
  minTs_mem : q.events ≠ [] → ∃ e ∈ q.events, e.ts = q.minTs
  empty : q.events = [] → q.minTs = kTsMax ∧ q.maxTs = 0
  maxTs_le : 0 ≤ q.maxTs ∧ q.maxTs ≤ kTsMax
  front_ordered : Ordered q.front
  start_lt : q.sortStartIdx ≠ 0 → q.sortStartIdx < q.events.length
  tail : q.sortStartIdx ≠ 0 → ∀ e ∈ q.events.drop q.sortStartIdx, q.sortMinTs ≤ e.ts

theorem ok_new (sink : SinkType) : Ok { sink } where
  nonneg e he := by simp at he
  le_maxTs e he := by simp at he
  minTs_le e he := by simp at he
  minTs_mem h := absurd rfl h
  empty _ := ⟨rfl, rfl⟩
  maxTs_le := ⟨le_rfl, by simp [kTsMax]⟩
  front_ordered := List.Pairwise.nil
  start_lt h := absurd rfl h
  tail h := absurd rfl h

/-- Sorting when the order is broken. -/
def settle (q : Queue) (key : TimestampedEvent → ℤ) : Queue := if q.needsSorting then q.sort key else q

theorem settle_perm (q : Queue) (key : TimestampedEvent → ℤ) : (q.settle key).events.Perm q.events := by
  unfold settle
  split
  · conv_rhs => rw [← List.take_append_drop q.sortBegin
      q.events]
    exact (TimestampedEvent.sort_perm key _).append_left _
  · exact List.Perm.refl _

@[simp] theorem settle_sink (q : Queue) (key : TimestampedEvent → ℤ) : (q.settle key).sink = q.sink := by
  unfold settle
  split <;> rfl

@[simp] theorem settle_minTs (q : Queue) (key : TimestampedEvent → ℤ) : (q.settle key).minTs = q.minTs := by
  unfold settle
  split <;> rfl

@[simp] theorem settle_maxTs (q : Queue) (key : TimestampedEvent → ℤ) : (q.settle key).maxTs = q.maxTs := by
  unfold settle
  split <;> rfl

@[simp] theorem settle_sortStartIdx (q : Queue) (key : TimestampedEvent → ℤ) : (q.settle key).sortStartIdx = 0 := by
  unfold settle needsSorting
  split
  · rfl
  · rename_i h
    simpa using h

/-- The events below the place where sorting begins are before the timestamp that broke the order, the others are
not. -/
theorem Ok.sortBegin {q : Queue} (h : q.Ok) (hstart : q.sortStartIdx ≠ 0) :
    (∀ e ∈ q.events.take q.sortBegin, e.ts < q.sortMinTs) ∧ (∀ e ∈ q.events.drop q.sortBegin, q.sortMinTs ≤ e.ts) ∧
      q.sortBegin ≤ q.sortStartIdx := by
  have hfront := h.front_ordered
  rw [front, if_neg hstart] at hfront
  obtain ⟨hle, hbelow, habove⟩ := lowerBound_split hfront q.sortMinTs
  change q.sortBegin ≤ _ at hle
  change ∀ e ∈ (q.events.take q.sortStartIdx).take q.sortBegin, e.ts < q.sortMinTs at hbelow
  change ∀ e ∈ (q.events.take q.sortStartIdx).drop q.sortBegin, q.sortMinTs ≤ e.ts at habove
  have hle' : q.sortBegin ≤ q.sortStartIdx := hle.trans (List.length_take_le _ _)
  refine ⟨?_, fun e he => ?_, hle'⟩
  · rwa [List.take_take, min_eq_left hle'] at hbelow
  · have hsplit : q.events.drop q.sortBegin =
        (q.events.take q.sortStartIdx).drop q.sortBegin ++ q.events.drop q.sortStartIdx := by
      rw [← List.drop_append_of_le_length hle, List.take_append_drop]
    rw [hsplit] at he
    rcases List.mem_append.mp he with he | he
    · exact habove e he
    · exact h.tail hstart e he

/-- A settled queue is sorted. -/
theorem Ok.settle_ordered {q : Queue} (h : q.Ok) (key : TimestampedEvent → ℤ) : Ordered (q.settle key).events := by
  unfold settle
  split
  · rename_i hneeds
    have hstart : q.sortStartIdx ≠ 0 := by simpa [needsSorting] using hneeds
    obtain ⟨hbelow, habove, hle⟩ := h.sortBegin hstart
    refine List.pairwise_append.mpr ⟨?_, TimestampedEvent.sort_ordered key _, fun a ha b hb => ?_⟩
    · have hfront := h.front_ordered
      rw [front, if_neg hstart] at hfront
      have hsub := hfront.sublist (List.take_sublist q.sortBegin _)
      rwa [List.take_take, min_eq_left hle] at hsub
    · have hb := habove b ((TimestampedEvent.sort_perm key _).mem_iff.mp hb)
      exact ((hbelow a ha).trans_le hb).le
  · rename_i hneeds
    have hstart : q.sortStartIdx = 0 := by simpa [needsSorting] using hneeds
    have hfront := h.front_ordered
    rwa [front, if_pos hstart] at hfront

/-- Sorting fast keeps the events of one timestamp in the order of their allocation. -/
theorem settle_filter {q : Queue} (halloc : q.events.Pairwise fun a b => a.allocId.lt b.allocId) (t : ℤ) :
    (q.settle fun _ => 0).events.filter (·.ts = t) = q.events.filter (·.ts = t) := by
  unfold settle
  split
  · conv_rhs => rw [← List.take_append_drop q.sortBegin
      q.events]
    rw [List.filter_append, ← TimestampedEvent.sort_filter (halloc.sublist (List.drop_sublist _ _)), ← List.filter_append]
    rfl
  · rfl

/-! ### Appending -/

variable {q : Queue} {ts : ℤ} {id : AllocId} {json slow : Bool}

@[simp] theorem append_events : (q.append ts id json slow).events = q.events ++ [⟨ts, id, json⟩] := by
  simp only [append]
  split
  · rfl
  · split <;> rfl

@[simp] theorem append_sink : (q.append ts id json slow).sink = q.sink := by
  simp only [append]
  split
  · rfl
  · split <;> rfl

theorem append_minTs : (q.append ts id json slow).minTs = min q.minTs ts := by
  simp only [append]
  split
  · rfl
  · split <;> rfl

theorem append_maxTs : (q.append ts id json slow).maxTs = max q.maxTs ts := by
  simp only [append]
  split
  · rename_i h
    have hle : q.maxTs ≤ ts := by
      rcases h with h | ⟨-, h⟩ <;> omega
    exact (max_eq_right hle).symm
  · rename_i h
    have hle : ts ≤ q.maxTs := by
      simp only [not_or, not_lt] at h
      exact h.1
    split <;> exact (max_eq_left hle).symm

/-- Where the order breaks after an event more. -/
theorem append_start_cases (q : Queue) (ts : ℤ) (id : AllocId) (json slow : Bool) : (q.maxTs ≤ ts ∧ (q.append ts id json slow).sortStartIdx = q.sortStartIdx ∧
      (q.append ts id json slow).sortMinTs = q.sortMinTs) ∨
    (q.sortStartIdx = 0 ∧ (q.append ts id json slow).sortStartIdx = q.events.length ∧
      (q.append ts id json slow).sortMinTs = ts) ∨
    (q.sortStartIdx ≠ 0 ∧ (q.append ts id json slow).sortStartIdx = q.sortStartIdx ∧
      (q.append ts id json slow).sortMinTs = min q.sortMinTs ts) := by
  simp only [append]
  split
  · rename_i h
    refine .inl ⟨?_, rfl, rfl⟩
    rcases h with h | ⟨-, h⟩ <;> omega
  · split
    · rename_i hstart
      exact .inr (.inl ⟨hstart, by simp, rfl⟩)
    · rename_i hstart
      exact .inr (.inr ⟨hstart, rfl, rfl⟩)

theorem ordered_concat {events : List TimestampedEvent} (h : Ordered events) {e : TimestampedEvent}
    (hle : ∀ a ∈ events, a.ts ≤ e.ts) : Ordered (events ++ [e]) := by
  refine List.pairwise_append.mpr ⟨h, List.pairwise_singleton _ _, fun a ha b hb => ?_⟩
  rw [List.mem_singleton.mp hb]
  exact hle a ha

theorem Ok.append (h : q.Ok) (hts : 0 ≤ ts) (hmax : ts ≤ kTsMax) : (q.append ts id json slow).Ok where
  nonneg e he := by
    rw [append_events] at he
    rcases List.mem_append.mp he with he | he
    · exact h.nonneg e he
    · rw [List.mem_singleton.mp he]
      exact hts
  le_maxTs e he := by
    rw [append_events] at he
    rw [append_maxTs]
    rcases List.mem_append.mp he with he | he
    · exact (h.le_maxTs e he).trans (le_max_left _ _)
    · rw [List.mem_singleton.mp he]
      exact le_max_right _ _
  minTs_le e he := by
    rw [append_events] at he
    rw [append_minTs]
    rcases List.mem_append.mp he with he | he
    · exact (min_le_left _ _).trans (h.minTs_le e he)
    · rw [List.mem_singleton.mp he]
      exact min_le_right _ _
  minTs_mem _ := by
    rw [append_events, append_minTs]
    rcases le_total q.minTs ts with hle | hle
    · by_cases hnil : q.events = []
      · have hmin := (h.empty hnil).1
        exact ⟨⟨ts, id, json⟩, by simp, by dsimp only; omega⟩
      · obtain ⟨e, he, hmin⟩ := h.minTs_mem hnil
        exact ⟨e, List.mem_append_left _ he, by rw [hmin, min_eq_left hle]⟩
    · exact ⟨⟨ts, id, json⟩, by simp, (min_eq_right hle).symm⟩
  empty hnil := by simp at hnil
  maxTs_le := by
    rw [append_maxTs]
    exact ⟨h.maxTs_le.1.trans (le_max_left _ _), max_le h.maxTs_le.2 hmax⟩
  front_ordered := by
    have hfront := h.front_ordered
    rw [front, append_events]
    rcases append_start_cases q ts id json slow with
      ⟨hge, hstart, -⟩ | ⟨hzero, hstart, -⟩ | ⟨hne, hstart, -⟩
    · rw [hstart]
      rw [front] at hfront
      split_ifs at hfront ⊢ with hzero
      · exact ordered_concat hfront fun a ha => (h.le_maxTs a ha).trans hge
      · rwa [List.take_append_of_le_length (h.start_lt hzero).le]
    · rw [hstart]
      rw [front, if_pos hzero] at hfront
      split_ifs with hlen
      · rw [List.length_eq_zero_iff.mp hlen]
        exact List.pairwise_singleton _ _
      · rwa [List.take_left']
        rfl
    · rw [hstart, if_neg hne, List.take_append_of_le_length (h.start_lt hne).le]
      rwa [front, if_neg hne] at hfront
  start_lt hne := by
    rw [append_events, List.length_append, List.length_singleton]
    rcases append_start_cases q ts id json slow with
      ⟨-, hstart, -⟩ | ⟨-, hstart, -⟩ | ⟨-, hstart, -⟩
    · rw [hstart] at hne ⊢
      have hlt := h.start_lt hne
      omega
    · omega
    · rw [hstart] at hne ⊢
      have hlt := h.start_lt hne
      omega
  tail hne e he := by
    rw [append_events] at he
    rcases append_start_cases q ts id json slow with
      ⟨hge, hstart, hmin⟩ | ⟨-, hstart, hmin⟩ | ⟨-, hstart, hmin⟩
    · rw [hstart] at hne he
      rw [hmin]
      have hlt := h.start_lt hne
      rw [List.drop_append_of_le_length hlt.le] at he
      rcases List.mem_append.mp he with he | he
      · exact h.tail hne e he
      · -- some event of the tail is not before `sortMinTs`, and `ts` is not before it
        rw [List.mem_singleton.mp he]
        have hmem : q.events[q.sortStartIdx] ∈ q.events.drop q.sortStartIdx := by
          rw [List.drop_eq_getElem_cons hlt]
          exact List.mem_cons_self
        exact (h.tail hne _ hmem).trans ((h.le_maxTs _ (List.getElem_mem hlt)).trans hge)
    · rw [hmin]
      rw [hstart, List.drop_left] at he
      rw [List.mem_singleton.mp he]
    · rw [hstart] at hne he
      rw [hmin]
      have hlt := h.start_lt hne
      rw [List.drop_append_of_le_length hlt.le] at he
      rcases List.mem_append.mp he with he | he
      · exact (min_le_left _ _).trans (h.tail hne e he)
      · rw [List.mem_singleton.mp he]
        exact min_le_right _ _

/-! ### Extracting -/

theorem Ok.settle (h : q.Ok) (key : TimestampedEvent → ℤ) : (q.settle key).Ok where
  nonneg e he := h.nonneg e ((settle_perm q key).mem_iff.mp he)
  le_maxTs e he := by
    rw [settle_maxTs]
    exact h.le_maxTs e ((settle_perm q key).mem_iff.mp he)
  minTs_le e he := by
    rw [settle_minTs]
    exact h.minTs_le e ((settle_perm q key).mem_iff.mp he)
  minTs_mem hne := by
    obtain ⟨e, he, hmin⟩ := h.minTs_mem fun hnil => hne (List.perm_nil.mp (hnil ▸ settle_perm q key))
    exact ⟨e, (settle_perm q key).mem_iff.mpr he, by rw [hmin, settle_minTs]⟩
  empty hnil := by
    rw [settle_minTs, settle_maxTs]
    exact h.empty (List.nil_perm.mp (hnil ▸ settle_perm q key))
  maxTs_le := by
    rw [settle_maxTs]
    exact h.maxTs_le
  front_ordered := by
    rw [front, if_pos (settle_sortStartIdx q key)]
    exact h.settle_ordered key
  start_lt hne := absurd (settle_sortStartIdx q key) hne
  tail hne := absurd (settle_sortStartIdx q key) hne

@[simp] theorem eraseFront_events (q : Queue) (n : ℕ) : (q.eraseFront n).events = q.events.drop n := by
  unfold eraseFront
  split
  · rename_i hdrop
    exact hdrop.symm
  · rename_i hdrop
    exact hdrop.symm

@[simp] theorem eraseFront_sink (q : Queue) (n : ℕ) : (q.eraseFront n).sink = q.sink := by
  unfold eraseFront
  split <;> rfl

theorem Ok.eraseFront (h : q.Ok) (hstart : q.sortStartIdx = 0) (n : ℕ) : (q.eraseFront n).Ok := by
  have hordered := h.front_ordered
  rw [front, if_pos hstart] at hordered
  have hdrop := hordered.sublist (List.drop_sublist n q.events)
  have hmem : ∀ e ∈ q.events.drop n, e ∈ q.events := fun e he => List.mem_of_mem_drop he
  unfold Queue.eraseFront
  split
  · have hnew := ok_new q.sink
    refine ⟨hnew.nonneg, hnew.le_maxTs, hnew.minTs_le, hnew.minTs_mem, hnew.empty, hnew.maxTs_le, ?_,
      fun hne => absurd hstart hne, fun hne => absurd hstart hne⟩
    rw [front, if_pos hstart]
    exact List.Pairwise.nil
  · rename_i event events heq
    rw [heq] at hdrop hmem
    refine ⟨fun e he => h.nonneg e (hmem e he), fun e he => h.le_maxTs e (hmem e he), fun e he => ?_,
      fun _ => ⟨event, List.mem_cons_self, rfl⟩, fun hnil => by simp at hnil, h.maxTs_le, ?_,
      fun hne => absurd hstart hne, fun hne => absurd hstart hne⟩
    · rcases List.mem_cons.mp he with rfl | he
      · exact le_rfl
      · exact (List.pairwise_cons.mp hdrop).1 e he
    · rwa [front, if_pos hstart]

theorem Ok.minTs_le_kTsMax (h : q.Ok) : q.minTs ≤ kTsMax := by
  by_cases hnil : q.events = []
  · rw [(h.empty hnil).1]
  · obtain ⟨e, he, hmin⟩ := h.minTs_mem hnil
    exact hmin ▸ (h.le_maxTs e he).trans h.maxTs_le.2

end Queue

/-! ### The scan -/

namespace TraceSorter

/-- What the scan has found after some queues. -/
def Scan.Finds (queues : List Queue) (scan : Scan) : Prop :=
  if scan.allQueuesEmpty then (∀ q ∈ queues, q.events = []) ∧ scan.minQueueTs0 = kTsMax ∧ scan.minQueueTs1 = kTsMax
  else ∃ q, queues[scan.minQueueIdx]? = some q ∧ q.events ≠ [] ∧ q.minTs = scan.minQueueTs0 ∧
    scan.minQueueTs0 ≤ scan.minQueueTs1 ∧
    ∀ j q', queues[j]? = some q' → q'.events ≠ [] → j ≠ scan.minQueueIdx → scan.minQueueTs1 ≤ q'.minTs

theorem getElem?_concat_cases {α : Type} {l : List α} {x y : α} {j : ℕ} (h : (l ++ [x])[j]? = some y) :
    l[j]? = some y ∨ (j = l.length ∧ y = x) := by
  rcases lt_or_ge j l.length with hlt | hge
  · rw [List.getElem?_append_left hlt] at h
    exact .inl h
  · rw [List.getElem?_append_right hge, List.getElem?_singleton] at h
    split_ifs at h with hj
    exact .inr ⟨by omega, (Option.some.inj h).symm⟩

theorem Scan.Finds.next {queues : List Queue} {scan : Scan} (h : scan.Finds queues) {q : Queue} (hq : q.Ok) :
    (scan.next queues.length q).Finds (queues ++ [q]) := by
  unfold Scan.next
  split
  · rename_i hnil
    unfold Scan.Finds at h ⊢
    split_ifs at h ⊢
    · refine ⟨fun q' hq' => ?_, h.2⟩
      rcases List.mem_append.mp hq' with hq' | hq'
      · exact h.1 q' hq'
      · rw [List.mem_singleton.mp hq', hnil]
    · obtain ⟨q₀, hidx, hne, hmin, hle, hothers⟩ := h
      refine ⟨q₀, getElem?_append_of_eq hidx, hne, hmin, hle, fun j q' hj hne' hji => ?_⟩
      rcases getElem?_concat_cases hj with hj | ⟨-, rfl⟩
      · exact hothers j q' hj hne' hji
      · exact absurd hnil hne'
  · rename_i hne
    unfold Scan.Finds at h ⊢
    simp only [Bool.false_eq_true, if_false]
    split
    · rename_i hfirst
      -- the queue becomes the earliest
      refine ⟨q, by simp, hne, rfl, ?_, fun j q' hj hne' hji => ?_⟩
      · split_ifs at h with hempty
        · exact h.2.1 ▸ hq.minTs_le_kTsMax
        · rcases hfirst with hfirst | hfirst
          · exact absurd hfirst hempty
          · exact hfirst.le
      · rcases getElem?_concat_cases hj with hj | ⟨hjl, -⟩
        · split_ifs at h with hempty
          · exact absurd (h.1 q' (List.mem_of_getElem? hj)) hne'
          · obtain ⟨q₀, hidx, -, hmin, hle, hothers⟩ := h
            by_cases hj₀ : j = scan.minQueueIdx
            · rw [hj₀, hidx] at hj
              rw [← Option.some.inj hj]
              exact hmin.ge
            · exact hle.trans (hothers j q' hj hne' hj₀)
        · exact absurd hjl hji
    · rename_i hfirst
      obtain ⟨hempty, hge⟩ := not_or.mp hfirst
      rw [if_neg hempty] at h
      obtain ⟨q₀, hidx, hne₀, hmin, hle, hothers⟩ := h
      split
      · rename_i hsecond
        refine ⟨q₀, getElem?_append_of_eq hidx, hne₀, hmin, not_lt.mp hge, fun j q' hj hne' hji => ?_⟩
        rcases getElem?_concat_cases hj with hj | ⟨-, rfl⟩
        · exact hsecond.le.trans (hothers j q' hj hne' hji)
        · exact le_rfl
      · rename_i hsecond
        refine ⟨q₀, getElem?_append_of_eq hidx, hne₀, hmin, hle, fun j q' hj hne' hji => ?_⟩
        rcases getElem?_concat_cases hj with hj | ⟨-, rfl⟩
        · exact hothers j q' hj hne' hji
        · exact not_lt.mp hsecond

theorem scanQueues_finds (seen : List Queue) {queues : List Queue} {scan : Scan} (h : scan.Finds seen) (hok : ∀ q ∈ queues, q.Ok) :
    (scanQueues seen.length scan queues).Finds (seen ++ queues) := by
  induction queues generalizing seen scan with
  | nil =>
    rw [List.append_nil]
    exact h
  | cons q queues ih =>
    have hnext := ih (seen ++ [q]) (h.next (hok q List.mem_cons_self)) fun q' hq' => hok q' (List.mem_cons_of_mem _ hq')
    rw [List.length_append, List.length_singleton, List.append_assoc] at hnext
    exact hnext

/-- The scan finds the queue with the earliest event, and no other queue has an event before the second timestamp. -/
theorem scanQueues_spec {queues : List Queue} (hok : ∀ q ∈ queues, q.Ok) : (scanQueues 0 { } queues).Finds queues :=
  scanQueues_finds [] ⟨by simp, rfl, rfl⟩ hok

end TraceSorter

end LynxTrace.TraceProcessor
