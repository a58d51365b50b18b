import LynxTrace.Profiling.DumpAtMax
import LynxTrace.Profiling.HeapDelivery

/-!
# Profiling.DumpAtMaxRuns — a history delivered to a tracker that dumps at the maximum

A tracker without `dump_at_max_mode_` that takes in the same operations has the same table (`Twin`), so what is known of
its table holds here.  `Tracks` adds that the bytes of a callstack are those of its live blocks, and that the maximum is
kept; each operation preserves it.
-/

namespace LynxTrace.Profiling

variable {Loc BuildId Frame : Type*} [DecidableEq Frame]

namespace HeapTracker

variable {maps : Maps Loc BuildId Frame} {history : List Operation} {delivered : List ℕ} {s t : HeapTracker Frame}
  {nodes : Finset (Node Frame)} {moments : List (Moment Frame)}

/-! ### The same tracker without the mode -/

/-- `t` is `s` without the mode, but for the counters. -/
structure Twin (s t : HeapTracker Frame) : Prop where
  mode : s.dumpAtMaxMode = true
  mode' : t.dumpAtMaxMode = false
  frameCache : t.frameCache = s.frameCache
  committed : t.committedSequenceNumber = s.committedSequenceNumber
  allocations : t.allocations = s.allocations
  pending : t.pendingOperations = s.pendingOperations

namespace Twin

omit [DecidableEq Frame] in
theorem of_sameTable {s' t' : HeapTracker Frame} (h : Twin s t) (hs : SameTable s s') (ht : SameTable t t') :
    Twin s' t' :=
  ⟨hs.mode.trans h.mode, ht.mode.trans h.mode', by rw [ht.frameCache, h.frameCache, hs.frameCache],
    by rw [ht.committed, h.committed, hs.committed], by rw [ht.allocations, h.allocations, hs.allocations],
    by rw [ht.pending, h.pending, hs.pending]⟩

theorem add (h : Twin s t) (ts : ℕ) (e : Allocation Frame) :
    Twin (s.addToCallstackAllocations ts e) (t.addToCallstackAllocations ts e) :=
  h.of_sameTable (sameTable_add_max h.mode ts e) (sameTable_add h.mode' ts e)

theorem subtract (h : Twin s t) (e : Allocation Frame) :
    Twin (s.subtractFromCallstackAllocations e) (t.subtractFromCallstackAllocations e) :=
  h.of_sameTable (sameTable_subtract_max h.mode e) (sameTable_subtract h.mode' e)

omit [DecidableEq Frame] in
theorem setAllocation (h : Twin s t) (a : ℕ) (e : Option (Allocation Frame)) :
    Twin (s.setAllocation a e) (t.setAllocation a e) :=
  ⟨h.mode, h.mode', h.frameCache, h.committed, by rw [HeapTracker.setAllocation, h.allocations]; rfl, h.pending⟩

omit [DecidableEq Frame] in
theorem advanceCommitted (h : Twin s t) (ts : ℕ) : Twin (s.advanceCommitted ts) (t.advanceCommitted ts) :=
  ⟨h.mode, h.mode', h.frameCache, congrArg (add64 · 1) h.committed, h.allocations, h.pending⟩

theorem commitOperation (h : Twin s t) (i : ℕ) (o : PendingOperation) :
    Twin (s.commitOperation i o) (t.commitOperation i o) := by
  have h1 := h.advanceCommitted o.timestamp
  unfold HeapTracker.commitOperation
  dsimp only
  rw [h1.allocations]
  cases (s.advanceCommitted o.timestamp).allocations o.allocationAddress with
  | none => exact h1
  | some e =>
    dsimp only
    split_ifs
    · exact h1.add _ e
    · exact (h1.subtract e).setAllocation _ _
    · exact h1

theorem recordAllocation (h : Twin s t) (node : Node Frame) (address sampleSize allocSize i timestamp : ℕ) :
    Twin (s.recordAllocation node address sampleSize allocSize i timestamp)
      (t.recordAllocation node address sampleSize allocSize i timestamp) := by
  have hcreate : ∀ {s t : HeapTracker Frame}, Twin s t →
      Twin (s.maybeCreateCallstackAllocations node) (t.maybeCreateCallstackAllocations node) :=
    fun h => h.of_sameTable (sameTable_maybeCreate _ _) (sameTable_maybeCreate _ _)
  unfold HeapTracker.recordAllocation
  rw [h.allocations, h.committed]
  cases s.allocations address with
  | none => exact (hcreate h).setAllocation _ _
  | some old =>
    dsimp only
    split_ifs
    · exact (hcreate ((h.add _ old).subtract old)).setAllocation _ _
    · exact (hcreate (h.subtract old)).setAllocation _ _
    · exact h

end Twin

/-! ### What a run keeps -/

theorem isSome_modifyCallstack (s : HeapTracker Frame) (node : Node Frame)
    (f : CallstackAllocations → CallstackAllocations) (n : Node Frame) :
    ((s.modifyCallstack node f).callstackAllocations n).isSome = (s.callstackAllocations n).isSome := by
  simp only [modifyCallstack, Function.update_apply]
  split_ifs with h
  · rw [Option.isSome_map, ← h]
  · rfl

theorem isSome_subtract_max (hmode : s.dumpAtMaxMode = true) (e : Allocation Frame) (n : Node Frame) :
    ((s.subtractFromCallstackAllocations e).callstackAllocations n).isSome = (s.callstackAllocations n).isSome := by
  rw [subtract_eq hmode]
  exact isSome_modifyCallstack _ _ _ _

theorem isSome_add_max (hmode : s.dumpAtMaxMode = true) (ts : ℕ) (e : Allocation Frame) (n : Node Frame) :
    ((s.addToCallstackAllocations ts e).callstackAllocations n).isSome = (s.callstackAllocations n).isSome := by
  have hraise : ((s.raise e).callstackAllocations n).isSome = (s.callstackAllocations n).isSome :=
    isSome_modifyCallstack _ _ _ _
  rw [add_eq hmode]
  split_ifs
  · exact hraise
  · exact (isSome_modifyCallstack _ _ _ _).trans hraise
  · exact Option.isSome_map.trans hraise

/-- What a tracker in the mode holds of what was delivered, beside its twin. -/
structure Tracks (maps : Maps Loc BuildId Frame) (history : List Operation) (delivered : List ℕ)
    (moments : List (Moment Frame)) (s t : HeapTracker Frame) : Prop where
  twin : Twin s t
  table : TableInv maps history delivered t
  hasCallstack : ∀ a e, s.allocations a = some e → (s.callstackAllocations e.node).isSome
  known : ∀ node, (s.callstackAllocations node).isSome → node ∈ callstacks maps history
  live : ∀ node, (s.retainMax node).cur =
    tableWeight history (isLiveAt s.committedSequenceNumber node) .size s.allocations
  small : s.currentUnfreed < 2 ^ 64
  max : MaxInv (callstacks maps history) moments s

omit [DecidableEq Frame] in
/-- The maximum depends on the counters only. -/
theorem MaxInv.congr (h : MaxInv nodes moments s) (s' : HeapTracker Frame)
    (hu : s'.currentUnfreed = s.currentUnfreed) (hm : s'.maxUnfreed = s.maxUnfreed)
    (hr : ∀ node, s'.retainMax node = s.retainMax node) : MaxInv nodes moments s' ∧ s'.moment = s.moment := by
  have hmom : s'.moment = s.moment := by
    unfold moment
    simp only [hu, hr]
  refine ⟨⟨?_, ?_, h.sum_eq, ?_, ?_⟩, hmom⟩
  · simp only [hu, hr]
    exact h.unfreed_eq
  · rw [hmom]
    exact h.moment_mem
  · rw [hm]
    exact h.le_max
  · simp only [hm, hr]
    exact h.max_eq

/-- What a commit does: nothing but to advance, to add the block that the operation has made, or to take one away. -/
theorem commit_cases (s : HeapTracker Frame) (i : ℕ) (o : PendingOperation) :
    (s.commitOperation i o = s.advanceCommitted o.timestamp ∧ s.commitUpdates i o = [] ∧
      ∀ e, s.allocations o.allocationAddress = some e → i < e.sequenceNumber) ∨
    (∃ e, s.allocations o.allocationAddress = some e ∧ e.sequenceNumber = i ∧
      s.commitOperation i o = (s.advanceCommitted o.timestamp).addToCallstackAllocations o.timestamp e ∧
      s.commitUpdates i o = [⟨s.advanceCommitted o.timestamp, some e, (s.commitOperation i o).moment⟩]) ∨
    (∃ e, s.allocations o.allocationAddress = some e ∧ e.sequenceNumber < i ∧
      s.commitOperation i o =
        ((s.advanceCommitted o.timestamp).subtractFromCallstackAllocations e).setAllocation o.allocationAddress none ∧
      s.commitUpdates i o = [⟨s.advanceCommitted o.timestamp, none, (s.commitOperation i o).moment⟩]) := by
  have hall : (s.advanceCommitted o.timestamp).allocations = s.allocations := rfl
  cases hsa : s.allocations o.allocationAddress with
  | none =>
    refine Or.inl ⟨?_, ?_, fun e he => by cases he⟩
    · unfold HeapTracker.commitOperation
      dsimp only
      rw [hall, hsa]
    · unfold commitUpdates
      rw [hsa]
  | some e =>
    have hcommit : s.commitOperation i o = if e.sequenceNumber = i then
          (s.advanceCommitted o.timestamp).addToCallstackAllocations o.timestamp e
        else if e.sequenceNumber < i then
          ((s.advanceCommitted o.timestamp).subtractFromCallstackAllocations e).setAllocation o.allocationAddress none
        else s.advanceCommitted o.timestamp := by
      unfold HeapTracker.commitOperation
      dsimp only
      rw [hall, hsa]
    have hupdates : s.commitUpdates i o = if e.sequenceNumber = i then
          [⟨s.advanceCommitted o.timestamp, some e, (s.commitOperation i o).moment⟩]
        else if e.sequenceNumber < i then
          [⟨s.advanceCommitted o.timestamp, none, (s.commitOperation i o).moment⟩]
        else [] := by
      unfold commitUpdates
      rw [hsa]
    rcases Nat.lt_trichotomy e.sequenceNumber i with h | h | h
    · right; right
      rw [if_neg h.ne, if_pos h] at hcommit hupdates
      exact ⟨e, rfl, h, hcommit, hupdates⟩
    · right; left
      rw [if_pos h] at hcommit hupdates
      exact ⟨e, rfl, h, hcommit, hupdates⟩
    · left
      rw [if_neg h.ne', if_neg h.not_gt] at hcommit hupdates
      exact ⟨hcommit, hupdates, fun e' he => Option.some.inj he ▸ h⟩

theorem Tracks.node_mem (hs : Tracks maps history delivered moments s t) {a : ℕ} {e : Allocation Frame}
    (he : s.allocations a = some e) : e.node ∈ callstacks maps history :=
  hs.known _ (hs.hasCallstack a e he)

/-- The live block at an address is counted at its callstack. -/
theorem Tracks.sampleSize_le (hs : Tracks maps history delivered moments s t) {a : ℕ} (ha : a ∈ addresses history)
    {e : Allocation Frame} (he : s.allocations a = some e) (hle : e.sequenceNumber ≤ s.committedSequenceNumber) :
    e.sampleSize ≤ (s.retainMax e.node).cur := by
  have h := weightIf_le_tableWeight ha (isLiveAt s.committedSequenceNumber e.node) .size s.allocations
  have hw : weightIf (isLiveAt s.committedSequenceNumber e.node) .size (s.allocations a) = e.sampleSize := by
    simp [he, weightIf, isLiveAt, hle, Counter.weight]
  rw [hs.live]
  rwa [hw] at h

variable {op : Operation}

/-- The live bytes of a callstack after a commit that changes the table at its address only. -/
theorem Tracks.live_commit (hs : Tracks maps history delivered moments s t)
    (hop : opAt history (s.committedSequenceNumber + 1) = some op) (al' : ℕ → Option (Allocation Frame))
    (hother : ∀ b, b ≠ op.address → al' b = s.allocations b) (node : Node Frame) :
    tableWeight history (isLiveAt (s.committedSequenceNumber + 1) node) .size al' +
        weightIf (isLiveAt s.committedSequenceNumber node) .size (s.allocations op.address) =
      (s.retainMax node).cur + weightIf (isLiveAt (s.committedSequenceNumber + 1) node) .size (al' op.address) := by
  have hc := hs.twin.committed
  have ha := hs.twin.allocations
  have h := (hs.table.tableWeight_commit (hc.symm ▸ hop) al' (ha.symm ▸ hother) node .size).1
  rwa [hc, ha, ← hs.live node] at h

/-- The weight of an entry at a callstack, live or not. -/
theorem weightIf_isLiveAt_size (c : ℕ) (node : Node Frame) (e : Allocation Frame) :
    weightIf (isLiveAt c node) .size (some e) =
      if e.sequenceNumber ≤ c then (if node = e.node then e.sampleSize else 0) else 0 := by
  rw [weightIf_isLiveAt]
  simp only [weightIf, Counter.weight, decide_eq_true_eq, eq_comm (a := e.node)]

theorem Tracks.commitOperation (hs : Tracks maps history delivered moments s t)
    (hop : opAt history (s.committedSequenceNumber + 1) = some op) (hmem : s.committedSequenceNumber + 1 ∈ delivered)
    (hlt : s.committedSequenceNumber + 1 < 2 ^ 64)
    (hsound : ∀ u ∈ s.commitUpdates (s.committedSequenceNumber + 1) op.pending, u.Sound) :
    Tracks maps history delivered
      (moments ++ (s.commitUpdates (s.committedSequenceNumber + 1) op.pending).map (·.after))
      (s.commitOperation (s.committedSequenceNumber + 1) op.pending)
      (t.commitOperation (s.committedSequenceNumber + 1) op.pending) := by
  have htwin := hs.twin.commitOperation (s.committedSequenceNumber + 1) op.pending
  have htable : TableInv maps history delivered (t.commitOperation (s.committedSequenceNumber + 1) op.pending) := by
    have hc := hs.twin.committed
    have h := hs.table.commitOperation (hc.symm ▸ hop) (hc.symm ▸ hmem) (hc.symm ▸ hlt)
    rwa [hc] at h
  have hcomm : (s.advanceCommitted op.pending.timestamp).committedSequenceNumber = s.committedSequenceNumber + 1 :=
    add64_of_lt hlt
  have hmode : (s.advanceCommitted op.pending.timestamp).dumpAtMaxMode = true := hs.twin.mode
  have hmax := (hs.max.congr (s.advanceCommitted op.pending.timestamp) rfl rfl fun _ => rfl).1
  have hlive := hs.live_commit hop
  have haddr : op.pending.allocationAddress = op.address := op.pending_address
  rcases commit_cases s (s.committedSequenceNumber + 1) op.pending with
    ⟨hc, hu, hnew⟩ | ⟨e, he, hseq, hc, hu⟩ | ⟨e, he, hseq, hc, hu⟩
  · -- no block of the process is concerned
    rw [hu, List.map_nil, List.append_nil]
    refine ⟨htwin, htable, ?_, ?_, ?_, ?_, ?_⟩
    all_goals rw [hc]
    · exact hs.hasCallstack
    · exact hs.known
    · intro node
      have h := hlive s.allocations (fun _ _ => rfl) node
      rw [hcomm]
      have hzero : ∀ c, c ≤ s.committedSequenceNumber + 1 →
          weightIf (isLiveAt c node) .size (s.allocations op.address) = 0 := by
        intro c hle
        cases hsa : s.allocations op.address with
        | none => rfl
        | some e =>
          have hlt := hnew e (haddr ▸ hsa)
          rw [weightIf_isLiveAt_size, if_neg (by omega)]
      rw [hzero _ (by omega), hzero _ le_rfl] at h
      exact h.symm
    · exact hs.small
    · exact hmax
  · -- the malloc itself
    rw [haddr] at he
    have hcs : ((s.advanceCommitted op.pending.timestamp).callstackAllocations e.node).isSome :=
      hs.hasCallstack _ e he
    have hadds := hsound _ (hu ▸ List.mem_singleton_self _) e rfl
    have hsame := sameTable_add_max hmode op.pending.timestamp e
    have hnode := hs.node_mem he
    rw [hu, List.map_singleton]
    refine ⟨htwin, htable, ?_, ?_, ?_, ?_, ?_⟩
    all_goals rw [hc]
    · intro a e' he'
      rw [hsame.allocations] at he'
      exact hsame.hasCallstack _ (hs.hasCallstack a e' he')
    · intro node h
      rw [isSome_add_max hmode] at h
      exact hs.known node h
    · intro node
      have h := hlive s.allocations (fun _ _ => rfl) node
      have hcur := hmax.cur_le hnode
      have hsum : s.currentUnfreed + e.sampleSize < 2 ^ 64 := hadds.1
      have hcur : (s.retainMax e.node).cur ≤ s.currentUnfreed := hcur
      rw [he, weightIf_isLiveAt_size, weightIf_isLiveAt_size, if_neg (by omega), if_pos (by omega)] at h
      rw [hsame.committed, hcomm, hsame.allocations, cur_add hmode hcs]
      show _ = tableWeight history _ .size s.allocations
      rw [Nat.add_zero] at h
      rw [h]
      split_ifs with hn
      · subst hn
        exact add64_of_lt (by omega : (s.retainMax e.node).cur + e.sampleSize < 2 ^ 64)
      · rfl
    · rw [currentUnfreed_add hmode hcs]
      exact Nat.mod_lt _ (by decide)
    · exact hmax.add hmode hcs hnode hadds _
  · -- a free
    rw [haddr] at he hc
    have hcs : ((s.advanceCommitted op.pending.timestamp).callstackAllocations e.node).isSome :=
      hs.hasCallstack _ e he
    have hsame := sameTable_subtract_max hmode e
    have hle := hs.sampleSize_le (mem_addresses hop) he (by omega)
    have hnode := hs.node_mem he
    have hsub := hmax.subtract hmode hcs hnode hs.small hle
    have hset := hsub.congr (s.commitOperation (s.committedSequenceNumber + 1) op.pending)
      (by rw [hc]; rfl) (by rw [hc]; rfl) (fun _ => by rw [hc]; rfl)
    rw [hu, List.map_singleton]
    refine ⟨htwin, htable, ?_, ?_, ?_, ?_, ?_⟩
    · intro a e' he'
      rw [hc] at he' ⊢
      by_cases ha : a = op.address
      · subst ha
        cases (setAllocation_self _ _ _).symm.trans he'
      · rw [setAllocation_of_ne _ ha, hsame.allocations] at he'
        exact hsame.hasCallstack _ (hs.hasCallstack a e' he')
    · intro node h
      rw [hc] at h
      exact hs.known node ((isSome_subtract_max hmode e node).symm.trans h)
    · intro node
      rw [hc]
      have h := hlive (Function.update s.allocations op.address none) (fun _ hb => Function.update_of_ne hb _ _) node
      rw [Function.update_self, he, weightIf_isLiveAt_size, if_pos (by omega)] at h
      show ((subtractFromCallstackAllocations _ e).retainMax node).cur = tableWeight history (isLiveAt
        (subtractFromCallstackAllocations _ e).committedSequenceNumber node) .size
          (Function.update (subtractFromCallstackAllocations _ e).allocations op.address none)
      rw [hsame.committed, hcomm, hsame.allocations, cur_subtract hmode hcs]
      show _ = tableWeight history _ .size (Function.update s.allocations op.address none)
      change _ = _ + 0 at h
      split_ifs at h ⊢ with hn
      · subst hn
        have hcur : (s.retainMax e.node).cur ≤ s.currentUnfreed := hmax.cur_le hnode
        refine (sub64_of_le (hcur.trans_lt hs.small) hle).trans ?_
        omega
      · exact h.symm
    · rw [hc]
      show (subtractFromCallstackAllocations _ e).currentUnfreed < 2 ^ 64
      rw [(subtract_max hmode hcs).1]
      exact Nat.mod_lt _ (by decide)
    · rw [hset.2]
      exact hset.1

/-- What waits does not matter. -/
theorem Tracks.withPending (hs : Tracks maps history delivered moments s t) (pending : List (ℕ × PendingOperation)) :
    Tracks maps history delivered moments { s with pendingOperations := pending }
      { t with pendingOperations := pending } :=
  ⟨⟨hs.twin.mode, hs.twin.mode', hs.twin.frameCache, hs.twin.committed, hs.twin.allocations, rfl⟩,
    ⟨hs.table.mode, hs.table.frameCache, hs.table.committed, hs.table.entry, hs.table.hasCallstack, hs.table.noEntry,
      hs.table.balanced⟩, hs.hasCallstack, hs.known, hs.live, hs.small,
    (hs.max.congr ({ s with pendingOperations := pending }) rfl rfl fun _ => rfl).1⟩

theorem Tracks.committed_commitOperation (hs : Tracks maps history delivered moments s t) (i : ℕ)
    (o : PendingOperation) :
    (s.commitOperation i o).committedSequenceNumber = add64 s.committedSequenceNumber 1 := by
  rw [← (hs.twin.commitOperation i o).committed, HeapTracker.committed_commitOperation hs.twin.mode', hs.twin.committed]

/-- The loop over the pending operations. -/
theorem Tracks.commitPending (hlen : history.length < 2 ^ 64) {pending : List (ℕ × PendingOperation)}
    (hs : Tracks maps history delivered moments s t)
    (hp : PendingInv history delivered s.committedSequenceNumber pending)
    (hsound : ∀ u ∈ s.pendingUpdates pending, u.Sound) :
    Tracks maps history delivered (moments ++ (s.pendingUpdates pending).map (·.after)) (s.commitPending pending)
      (t.commitPending pending) := by
  induction pending generalizing s t moments with
  | nil =>
    rw [pendingUpdates, List.map_nil, List.append_nil]
    exact hs.withPending []
  | cons p pending ih =>
    obtain ⟨i, o⟩ := p
    obtain ⟨hi, hci, ho⟩ := (hp.mem i o).mp List.mem_cons_self
    obtain ⟨op, hop, rfl⟩ := Option.map_eq_some_iff.mp ho
    have hin := (opAt_lt hop).2
    have hadd : add64 s.committedSequenceNumber 1 = s.committedSequenceNumber + 1 := Nat.mod_eq_of_lt (by omega)
    rw [pendingUpdates] at hsound ⊢
    rw [HeapTracker.commitPending, HeapTracker.commitPending, hs.twin.committed]
    rw [hadd] at hsound ⊢
    split_ifs at hsound ⊢ with h
    · subst h
      have hcommit := hs.commitOperation hop hi (by omega) fun u hu => hsound u (List.mem_append_left _ hu)
      rw [List.map_append, ← List.append_assoc]
      refine ih hcommit ?_ fun u hu => hsound u (List.mem_append_right _ hu)
      rw [hs.committed_commitOperation, hadd]
      exact hp.tail
    · have hwait := hs.withPending ((i, op.pending) :: pending)
      rw [hs.twin.committed] at hwait
      rw [List.map_nil, List.append_nil]
      exact hwait

variable {i address allocSize sampleSize : ℕ}

/-- `RecordOperation`, for an operation that is in the table. -/
theorem Tracks.recordOperation (hlen : history.length < 2 ^ 64) (hop : opAt history i = some op) (hi : i ∉ delivered)
    (hp : PendingInv history delivered s.committedSequenceNumber s.pendingOperations)
    (hs : Tracks maps history (i :: delivered) moments s t) (hci : s.committedSequenceNumber < i)
    (hsound : ∀ u ∈ s.recordOperationUpdates i op.pending, u.Sound) :
    Tracks maps history (i :: delivered) (moments ++ (s.recordOperationUpdates i op.pending).map (·.after))
      (s.recordOperation i op.pending) (t.recordOperation i op.pending) := by
  have hin := (opAt_lt hop).2
  rw [recordOperationUpdates] at hsound ⊢
  rw [HeapTracker.recordOperation, HeapTracker.recordOperation, hs.twin.committed, hs.twin.pending]
  split_ifs at hsound ⊢ with h
  · have hwait := hs.withPending (emplacePending i op.pending s.pendingOperations)
    rw [hs.twin.committed] at hwait
    rw [List.map_nil, List.append_nil]
    exact hwait
  · rw [not_not] at h
    have hadd : i = s.committedSequenceNumber + 1 := h.trans (Nat.mod_eq_of_lt (by omega))
    subst hadd
    have hcommit := hs.commitOperation hop List.mem_cons_self (by omega) fun u hu =>
      hsound u (List.mem_append_left _ hu)
    rw [List.map_append, ← List.append_assoc]
    refine hcommit.commitPending hlen ?_ fun u hu => hsound u (List.mem_append_right _ hu)
    rw [hs.committed_commitOperation, ← h]
    exact hp.commit hi

variable {callstack : List ℕ}

/-- The callstack of a malloc of the history. -/
theorem mem_callstacks {timestamp : ℕ}
    (hop : opAt history i = some (.malloc callstack address sampleSize allocSize timestamp)) :
    maps.node callstack ∈ callstacks maps history := by
  cases i with
  | zero => cases hop
  | succ i => exact List.mem_toFinset.mpr (List.mem_filterMap.mpr ⟨_, List.mem_of_getElem? hop, rfl⟩)

theorem isSome_maybeCreate_of_ne (s : HeapTracker Frame) {node n : Node Frame} (hn : n ≠ node) :
    ((s.maybeCreateCallstackAllocations node).callstackAllocations n).isSome = (s.callstackAllocations n).isSome := by
  simp only [maybeCreateCallstackAllocations, Function.update_of_ne hn]

/-- The end of `RecordMalloc` on the table: the entry of the malloc. -/
def putEntry (s : HeapTracker Frame) (node : Node Frame) (address sampleSize allocSize i : ℕ) : HeapTracker Frame :=
  (s.maybeCreateCallstackAllocations node).setAllocation address (some ⟨sampleSize, allocSize, i, node⟩)

/-- What the part of `RecordMalloc` on the table does. -/
theorem record_cases (s : HeapTracker Frame) (node : Node Frame) (address sampleSize allocSize i ts : ℕ) :
    (s.allocations address = none ∧
      s.recordAllocation node address sampleSize allocSize i ts = s.putEntry node address sampleSize allocSize i ∧
      s.recordAllocationUpdates node address sampleSize allocSize i ts = []) ∨
    (∃ old, s.allocations address = some old ∧ s.committedSequenceNumber < old.sequenceNumber ∧
      s.recordAllocation node address sampleSize allocSize i ts =
        ((s.addToCallstackAllocations ts old).subtractFromCallstackAllocations old).putEntry node address sampleSize
          allocSize i ∧
      s.recordAllocationUpdates node address sampleSize allocSize i ts =
        [⟨s, some old, (s.addToCallstackAllocations ts old).moment⟩,
          ⟨s, none, (s.recordAllocation node address sampleSize allocSize i ts).moment⟩]) ∨
    (∃ old, s.allocations address = some old ∧ old.sequenceNumber ≤ s.committedSequenceNumber ∧
      s.recordAllocation node address sampleSize allocSize i ts =
        (s.subtractFromCallstackAllocations old).putEntry node address sampleSize allocSize i ∧
      s.recordAllocationUpdates node address sampleSize allocSize i ts =
        [⟨s, none, (s.recordAllocation node address sampleSize allocSize i ts).moment⟩]) ∨
    (s.recordAllocation node address sampleSize allocSize i ts = s ∧
      s.recordAllocationUpdates node address sampleSize allocSize i ts = []) := by
  cases hsa : s.allocations address with
  | none =>
    refine Or.inl ⟨rfl, ?_, ?_⟩
    · rw [HeapTracker.recordAllocation, hsa]
      rfl
    · rw [recordAllocationUpdates, hsa]
  | some old =>
    have hrecord : s.recordAllocation node address sampleSize allocSize i ts =
        if old.sequenceNumber < i then
          ((if s.committedSequenceNumber < old.sequenceNumber then s.addToCallstackAllocations ts old
            else s).subtractFromCallstackAllocations old).putEntry node address sampleSize allocSize i
        else s := by
      rw [HeapTracker.recordAllocation, hsa]
      rfl
    have hupdates : s.recordAllocationUpdates node address sampleSize allocSize i ts =
        if old.sequenceNumber < i then
          (if s.committedSequenceNumber < old.sequenceNumber then
            [⟨s, some old, (s.addToCallstackAllocations ts old).moment⟩] else []) ++
            [⟨s, none, (s.recordAllocation node address sampleSize allocSize i ts).moment⟩]
        else [] := by
      rw [recordAllocationUpdates, hsa]
    by_cases h1 : old.sequenceNumber < i
    · rw [if_pos h1] at hrecord hupdates
      by_cases h2 : s.committedSequenceNumber < old.sequenceNumber
      · rw [if_pos h2] at hrecord hupdates
        exact Or.inr (Or.inl ⟨old, rfl, h2, hrecord, hupdates⟩)
      · rw [if_neg h2] at hrecord hupdates
        exact Or.inr (Or.inr (Or.inl ⟨old, rfl, Nat.not_lt.mp h2, hrecord, hupdates⟩))
    · rw [if_neg h1] at hrecord hupdates
      exact Or.inr (Or.inr (Or.inr ⟨hrecord, hupdates⟩))

/-- The entry is put in after changes to the counters that take away what the old block had. -/
theorem Tracks.putEntry (hs : Tracks maps history delivered moments s t) {timestamp : ℕ} {s' t' : HeapTracker Frame}
    {moments' : List (Moment Frame)}
    (hop : opAt history i = some (.malloc callstack address sampleSize allocSize timestamp))
    (hci : s.committedSequenceNumber < i) (hsame : SameTable s s')
    (htwin : Twin (s'.putEntry (maps.node callstack) address sampleSize allocSize i) t')
    (htable : TableInv maps history (i :: delivered) t')
    (hknown : ∀ node, (s'.callstackAllocations node).isSome = (s.callstackAllocations node).isSome)
    (hlive : ∀ node, (s'.retainMax node).cur +
      weightIf (isLiveAt s.committedSequenceNumber node) .size (s.allocations address) = (s.retainMax node).cur)
    (hsmall : s'.currentUnfreed < 2 ^ 64) (hmax : MaxInv (callstacks maps history) (moments ++ moments') s') :
    Tracks maps history (i :: delivered) (moments ++ moments')
        (s'.putEntry (maps.node callstack) address sampleSize allocSize i) t' ∧
      (s'.putEntry (maps.node callstack) address sampleSize allocSize i).moment = s'.moment := by
  have hcreate := sameTable_maybeCreate s' (maps.node callstack)
  have hret : ∀ node, (s'.putEntry (maps.node callstack) address sampleSize allocSize i).retainMax node =
    s'.retainMax node := retainMax_maybeCreate s' _
  have hkept := hmax.congr (s'.putEntry (maps.node callstack) address sampleSize allocSize i) rfl rfl hret
  refine ⟨⟨htwin, htable, ?_, ?_, ?_, hsmall, hkept.1⟩, hkept.2⟩
  · intro a e he
    by_cases ha : a = address
    · subst ha
      obtain rfl := Option.some.inj ((setAllocation_self _ _ _).symm.trans he)
      exact isSome_maybeCreate s' _
    · rw [HeapTracker.putEntry, setAllocation_of_ne _ ha, hcreate.allocations, hsame.allocations] at he
      exact hcreate.hasCallstack _ (hsame.hasCallstack _ (hs.hasCallstack a e he))
  · intro node h
    by_cases hn : node = maps.node callstack
    · exact hn ▸ mem_callstacks hop
    · have h' := (isSome_maybeCreate_of_ne s' hn).symm.trans h
      exact hs.known node ((hknown node).symm.trans h')
  · intro node
    have hother : ∀ b, b ≠ address → Function.update s.allocations address
        (some ⟨sampleSize, allocSize, i, maps.node callstack⟩) b = s.allocations b :=
      fun _ hb => Function.update_of_ne hb _ _
    have hadd := tableWeight_add (isLiveAt s.committedSequenceNumber node) (isLiveAt s.committedSequenceNumber node)
      (mem_addresses hop) .size hother fun _ _ _ _ => rfl
    have hnew : weightIf (isLiveAt s.committedSequenceNumber node) .size
        (some (⟨sampleSize, allocSize, i, maps.node callstack⟩ : Allocation Frame)) = 0 := by
      rw [weightIf_isLiveAt_size, if_neg (Nat.not_le.mpr hci)]
    have hlive' := hlive node
    have hold := hs.live node
    rw [Operation.address, Function.update_self, hnew] at hadd
    rw [hret]
    show _ = tableWeight history (isLiveAt s'.committedSequenceNumber node) .size (Function.update s'.allocations _ _)
    rw [hsame.committed, hsame.allocations]
    omega

omit [DecidableEq Frame] in
theorem sameTable_refl (s : HeapTracker Frame) : SameTable s s := ⟨rfl, rfl, rfl, rfl, rfl, fun _ h => h⟩

/-- The part of `RecordMalloc` on the table. -/
theorem Tracks.recordAllocation (hs : Tracks maps history delivered moments s t) {ts : ℕ}
    (hop : opAt history i = some (.malloc callstack address sampleSize allocSize ts)) (hi : i ∉ delivered)
    (hsound : ∀ u ∈ s.recordAllocationUpdates (maps.node callstack) address sampleSize allocSize i ts, u.Sound) :
    Tracks maps history (i :: delivered)
      (moments ++ (s.recordAllocationUpdates (maps.node callstack) address sampleSize allocSize i ts).map (·.after))
      (s.recordAllocation (maps.node callstack) address sampleSize allocSize i ts)
      (t.recordAllocation (maps.node callstack) address sampleSize allocSize i ts) := by
  have hmode := hs.twin.mode
  have htwin := hs.twin.recordAllocation (maps.node callstack) address sampleSize allocSize i ts
  have htable := hs.table.recordAllocation hop hi
  have hci : s.committedSequenceNumber < i := hs.twin.committed ▸ hs.table.committed_lt hop hi
  rcases record_cases s (maps.node callstack) address sampleSize allocSize i ts with
    ⟨hsa, hr, hu⟩ | ⟨old, hsa, h2, hr, hu⟩ | ⟨old, hsa, h2, hr, hu⟩ | ⟨hr, hu⟩
  · rw [hu, List.map_nil]
    rw [hr] at htwin ⊢
    refine (hs.putEntry hop hci (sameTable_refl s) htwin htable (fun _ => rfl) ?_ hs.small ?_).1
    · intro node
      rw [hsa, weightIf, Nat.add_zero]
    · rw [List.append_nil]
      exact hs.max
  · -- the old block is counted as allocated and freed
    have hcs := hs.hasCallstack _ old hsa
    have hnode := hs.node_mem hsa
    have hadds := hsound _ (hu ▸ List.mem_cons_self) old rfl
    have hadd := hs.max.add hmode hcs hnode hadds ts
    have hsame1 := sameTable_add_max hmode ts old
    have hmode1 := hsame1.mode.trans hmode
    have hcs1 := hsame1.hasCallstack _ hcs
    have hsmall1 : (s.addToCallstackAllocations ts old).currentUnfreed < 2 ^ 64 := by
      rw [currentUnfreed_add hmode hcs]
      exact Nat.mod_lt _ (by decide)
    have hwrap : (s.retainMax old.node).cur + old.sampleSize < 2 ^ 64 :=
      (Nat.add_le_add_right (hs.max.cur_le hnode) _).trans_lt hadds.1
    have hcur1 : ((s.addToCallstackAllocations ts old).retainMax old.node).cur =
        (s.retainMax old.node).cur + old.sampleSize := by
      rw [cur_add hmode hcs, if_pos rfl, add64_of_lt hwrap]
    have hsub := hadd.subtract hmode1 hcs1 hnode hsmall1 (by omega)
    rw [List.append_assoc] at hsub
    rw [hr] at htwin
    obtain ⟨hput, hmom⟩ := hs.putEntry hop hci (hsame1.trans (sameTable_subtract_max hmode1 old)) htwin htable
      (fun node => (isSome_subtract_max hmode1 old node).trans (isSome_add_max hmode ts old node)) (by
        intro node
        rw [hsa, weightIf_isLiveAt_size, if_neg (Nat.not_le.mpr h2), Nat.add_zero, cur_subtract hmode1 hcs1]
        split_ifs with hn
        · subst hn
          rw [hcur1, sub64_of_le hwrap (Nat.le_add_left _ _), Nat.add_sub_cancel]
        · rw [cur_add hmode hcs, if_neg hn])
      (by
        rw [(subtract_max hmode1 hcs1).1]
        exact Nat.mod_lt _ (by decide)) hsub
    rw [hu, hr, List.map_cons, List.map_singleton]
    dsimp only
    rw [hmom]
    exact hput
  · -- the old block is freed
    have hcs := hs.hasCallstack _ old hsa
    have hnode := hs.node_mem hsa
    have hle := hs.sampleSize_le (mem_addresses hop) hsa h2
    have hsub := hs.max.subtract hmode hcs hnode hs.small hle
    rw [hr] at htwin
    obtain ⟨hput, hmom⟩ := hs.putEntry hop hci (sameTable_subtract_max hmode old) htwin htable
      (isSome_subtract_max hmode old) (by
        intro node
        rw [hsa, weightIf_isLiveAt_size, if_pos h2, cur_subtract hmode hcs]
        split_ifs with hn
        · subst hn
          have hcur := hs.max.cur_le hnode
          rw [sub64_of_le (hcur.trans_lt hs.small) hle, Nat.sub_add_cancel hle]
        · exact Nat.add_zero _)
      (by
        rw [(subtract_max hmode hcs).1]
        exact Nat.mod_lt _ (by decide)) hsub
    rw [hu, hr, List.map_singleton]
    dsimp only
    rw [hmom]
    exact hput
  · -- a newer malloc is there
    rw [hu, List.map_nil, List.append_nil]
    rw [hr] at htwin ⊢
    exact ⟨htwin, htable, hs.hasCallstack, hs.known, hs.live, hs.small, hs.max⟩

/-! ### Delivering -/

theorem Tracks.withFrameCache (hs : Tracks maps history delivered moments s t) {frameCache : ℕ → Option Frame}
    (h : ∀ pc f, frameCache pc = some f → f = maps.frame pc) :
    Tracks maps history delivered moments { s with frameCache := frameCache } { t with frameCache := frameCache } :=
  ⟨⟨hs.twin.mode, hs.twin.mode', rfl, hs.twin.committed, hs.twin.allocations, hs.twin.pending⟩,
    ⟨hs.table.mode, h, hs.table.committed, hs.table.entry, hs.table.hasCallstack, hs.table.noEntry,
      hs.table.balanced⟩, hs.hasCallstack, hs.known, hs.live, hs.small,
    (hs.max.congr { s with frameCache := frameCache } rfl rfl fun _ => rfl).1⟩

theorem Tracks.deliver (hlen : history.length < 2 ^ 64) (hs : Tracks maps history delivered moments s t)
    (hp : PendingInv history delivered t.committedSequenceNumber t.pendingOperations) (hop : opAt history i = some op)
    (hi : i ∉ delivered) (hsound : ∀ u ∈ s.deliverUpdates maps i op, u.Sound) :
    ∃ s' t', s.deliver maps i op = some s' ∧ t.deliver maps i op = some t' ∧
      Tracks maps history (i :: delivered) (moments ++ (s.deliverUpdates maps i op).map (·.after)) s' t' := by
  have hci : s.committedSequenceNumber < i := hs.twin.committed ▸ hs.table.committed_lt hop hi
  rw [hs.twin.committed, hs.twin.pending] at hp
  cases op with
  | free address timestamp =>
    have harrive : Tracks maps history (i :: delivered) moments s t :=
      ⟨hs.twin, hs.table.deliver_free hop hi, hs.hasCallstack, hs.known, hs.live, hs.small, hs.max⟩
    exact ⟨_, _, rfl, rfl, Tracks.recordOperation hlen hop hi hp harrive hci hsound⟩
  | malloc callstack address sampleSize allocSize timestamp =>
    obtain ⟨h1, h2⟩ := internFrames_eq s.frameCache (hs.twin.frameCache ▸ hs.table.frameCache) callstack
    rw [deliverUpdates, h2] at hsound ⊢
    have hcached := hs.withFrameCache h1
    have hrecord := hcached.recordAllocation hop hi fun u hu => hsound u (List.mem_append_left _ hu)
    obtain ⟨h3, h4⟩ := recordAllocation_same hcached.twin.mode' (maps.node callstack) address sampleSize allocSize i
      timestamp
    have hcomm := hrecord.twin.committed.symm.trans (h3.trans hcached.twin.committed)
    have hpend := hrecord.twin.pending.symm.trans (h4.trans hcached.twin.pending)
    have hdone := Tracks.recordOperation hlen hop hi (by rw [hcomm, hpend]; exact hp) hrecord
      (by rw [hcomm]; exact hci) fun u hu => hsound u (List.mem_append_right _ hu)
    have hdeliver : ∀ u : HeapTracker Frame, u.frameCache = s.frameCache →
        u.deliver maps i (.malloc callstack address sampleSize allocSize timestamp) =
          some ((({ u with frameCache := (internFrames maps.internCodeLocation s.frameCache
              ((callstack.map maps.frameData).zip (callstack.map maps.buildId))).1 } : HeapTracker
            Frame).recordAllocation (maps.node callstack) address sampleSize allocSize i timestamp).recordOperation i
              ⟨address, timestamp⟩) := by
      intro u hu
      show u.recordMalloc _ _ _ _ _ _ _ _ = _
      rw [recordMalloc, if_neg (by rw [List.length_map, List.length_map, not_not]), hu]
      dsimp only
      rw [h2]
    refine ⟨_, _, hdeliver s rfl, hdeliver t hs.twin.frameCache, ?_⟩
    rw [List.map_append, ← List.append_assoc]
    exact hdone

/-- Every operation of the order is taken in. -/
theorem Tracks.deliverAll (hlen : history.length < 2 ^ 64) {order : List ℕ}
    (hops : ∀ j ∈ order ++ delivered, ∃ op, opAt history j = some op) (hnodup : (order ++ delivered).Nodup)
    (hs : Tracks maps history delivered moments s t) (ht : HeapInv maps history delivered t)
    (hsound : ∀ u ∈ updates maps history s order, u.Sound) :
    ∃ s' t', s.deliverAll maps history order = some s' ∧ Tracks maps history (order.reverse ++ delivered)
      (moments ++ (updates maps history s order).map (·.after)) s' t' := by
  induction order generalizing s t delivered moments with
  | nil =>
    refine ⟨s, t, rfl, ?_⟩
    rw [updates, List.map_nil, List.append_nil]
    exact hs
  | cons i order ih =>
    obtain ⟨op, hop⟩ := hops i List.mem_cons_self
    obtain ⟨hi, hnodup'⟩ := List.nodup_cons.mp hnodup
    have hi' : i ∉ delivered := fun h => hi (List.mem_append_right _ h)
    rw [updates, hop] at hsound ⊢
    dsimp only at hsound ⊢
    obtain ⟨s1, t1, h1, h2, hs1⟩ := hs.deliver hlen ht.pending hop hi' fun u hu =>
      hsound u (List.mem_append_left _ hu)
    obtain ⟨t1', h3, ht1⟩ := ht.deliver hlen (fun j hj => hops j (List.mem_cons_of_mem _ (List.mem_append_right _ hj)))
      hop hi'
    obtain rfl := Option.some.inj (h2.symm.trans h3)
    rw [h1] at hsound ⊢
    have hperm : (order ++ i :: delivered).Perm (i :: (order ++ delivered)) := List.perm_middle
    obtain ⟨s2, t2, h4, hs2⟩ := ih (fun j hj => hops j (hperm.mem_iff.mp hj)) (hperm.nodup_iff.mpr hnodup) hs1 ht1
      fun u hu => hsound u (List.mem_append_right _ hu)
    refine ⟨s2, t2, ?_, ?_⟩
    · rw [HeapTracker.deliverAll, hop]
      dsimp only
      rw [h1, Option.bind_some, h4]
    · rw [List.reverse_cons, List.append_assoc, List.singleton_append, List.map_append, ← List.append_assoc]
      exact hs2

theorem Tracks.init : Tracks maps history [] [(HeapTracker.init true : HeapTracker Frame).moment]
    (HeapTracker.init true) (HeapTracker.init false) := by
  have hzero : ∑ node ∈ callstacks maps history, ((HeapTracker.init true : HeapTracker Frame).retainMax node).cur = 0 :=
    Finset.sum_const_zero
  refine ⟨⟨rfl, rfl, rfl, rfl, rfl, rfl⟩, HeapInv.init.table, ?_, ?_, ?_, Nat.two_pow_pos 64, ?_⟩
  · rintro _ _ ⟨⟩
  · rintro _ ⟨⟩
  · intro node
    exact (Finset.sum_const_zero (s := addresses history)).symm
  · refine ⟨hzero.symm, List.mem_singleton_self _, ?_, ?_, ⟨_, List.mem_singleton_self _, rfl, fun _ => ⟨rfl, rfl⟩⟩⟩
    · intro m hm
      rw [List.mem_singleton.mp hm]
      exact hzero
    · intro m hm
      rw [List.mem_singleton.mp hm]
      exact le_rfl

/-- The bytes of the callstacks make up the total; the greatest total that there has been is kept, and with it the
callstacks as they were at one moment, when the total was that. -/
structure HoldsMaximum (nodes : Finset (Node Frame)) (moments : List (Moment Frame)) (s : HeapTracker Frame) :
    Prop where
  known : ∀ node, (s.callstackAllocations node).isSome → node ∈ nodes
  unfreed_eq : s.currentUnfreed = ∑ node ∈ nodes, (s.retainMax node).cur
  moment_mem : s.moment ∈ moments
  le_max : ∀ m ∈ moments, m.unfreed ≤ s.maxUnfreed
  max_eq : ∃ m ∈ moments, m.unfreed = s.maxUnfreed ∧
    ∀ node, (s.retainMax node).max = m.cur node ∧ (s.retainMax node).maxCount = m.curCount node
  sum_max : ∑ node ∈ nodes, (s.retainMax node).max = s.maxUnfreed

/-- Whatever the order: unless a new maximum leaves out a callstack that has changed, what is kept is the maximum. -/
theorem deliverAll_dumpAtMax (maps : Maps Loc BuildId Frame) (history : List Operation)
    (hlen : history.length < 2 ^ 64) (order : List ℕ) (hops : ∀ i ∈ order, ∃ op, opAt history i = some op)
    (hnodup : order.Nodup) (hsound : ∀ u ∈ updates maps history (HeapTracker.init true) order, u.Sound) :
    ∃ s, (HeapTracker.init true).deliverAll maps history order = some s ∧
      HoldsMaximum (callstacks maps history) ((HeapTracker.init true).moment ::
        (updates maps history (HeapTracker.init true) order).map (·.after)) s := by
  obtain ⟨s, t, h1, hs⟩ := (Tracks.init : Tracks maps history [] _ _ _).deliverAll hlen (by rwa [List.append_nil])
    (by rwa [List.append_nil]) HeapInv.init hsound
  refine ⟨s, h1, hs.known, hs.max.unfreed_eq, hs.max.moment_mem, hs.max.le_max, hs.max.max_eq, ?_⟩
  obtain ⟨m, hm, hu, hn⟩ := hs.max.max_eq
  rw [← hu, ← hs.max.sum_eq m hm]
  exact Finset.sum_congr rfl fun node _ => (hn node).1

/-- A block whose address is used again. -/
def reusedHistory : List Operation := [.free 48 1, .malloc [7] 16 8 8 2, .free 16 3, .malloc [9] 16 4 4 4]

/-- The second malloc overtakes the free; neither addition takes the shortcut. -/
theorem deliverAll_dumpAtMax_reused :
    ∃ s, (HeapTracker.init true).deliverAll pcMaps reusedHistory [1, 2, 4, 3] = some s ∧
      HoldsMaximum (callstacks pcMaps reusedHistory) ((HeapTracker.init true).moment ::
        (updates pcMaps reusedHistory (HeapTracker.init true) [1, 2, 4, 3]).map (·.after)) s := by
  have hcheck : (updates pcMaps reusedHistory (HeapTracker.init true) [1, 2, 4, 3]).all (fun u =>
      u.added.all fun e => decide (u.before.currentUnfreed + e.sampleSize < 2 ^ 64 ∧
        u.before.maxSequenceNumber ≠ sub64 e.sequenceNumber 1)) = true := by decide +kernel
  refine deliverAll_dumpAtMax pcMaps reusedHistory (by decide) [1, 2, 4, 3] ?_ (by decide) ?_
  · intro i hi
    have h := (by decide : ∀ i ∈ [1, 2, 4, 3], 1 ≤ i ∧ i ≤ reusedHistory.length) i hi
    exact exists_opAt h.1 h.2
  · intro u hu e he
    have h := List.all_eq_true.mp hcheck u hu
    rw [he, Option.all_some, decide_eq_true_eq] at h
    exact ⟨h.1, fun _ hseq => absurd hseq h.2⟩

/-- The first block is gone when the second is added: a malloc that has overtaken the others has its address. -/
def shortcutHistory : List Operation :=
  [.malloc [7] 16 10 10 1, .malloc [9] 32 100 100 2, .free 16 3, .malloc [11] 16 1 1 4]

/-- The second block makes a new maximum of 100 bytes, and the 10 bytes of the first stay in what is kept of it. -/
theorem not_dumpAtMax_shortcut :
    ¬ ∀ (history : List Operation) (order : List ℕ), history.length < 2 ^ 64 →
      (∀ i ∈ order, ∃ op, opAt history i = some op) → order.Nodup →
        ∃ s, (HeapTracker.init true).deliverAll pcMaps history order = some s ∧
          ∑ node ∈ callstacks pcMaps history, (s.retainMax node).max = s.maxUnfreed := by
  intro h
  obtain ⟨s, h1, h2⟩ := h shortcutHistory [1, 4, 2] (by decide) (by
    intro i hi
    have hlen := (by decide : ∀ i ∈ [1, 4, 2], 1 ≤ i ∧ i ≤ shortcutHistory.length) i hi
    exact exists_opAt hlen.1 hlen.2) (by decide)
  have hmax : (((HeapTracker.init true).deliverAll pcMaps shortcutHistory [1, 4, 2]).map fun s =>
      (∑ node ∈ callstacks pcMaps shortcutHistory, (s.retainMax node).max, s.maxUnfreed)) = some (110, 100) := by
    decide +kernel
  rw [h1, Option.map_some, h2, Option.some.injEq, Prod.mk.injEq] at hmax
  omega

end HeapTracker

end LynxTrace.Profiling
