import LynxTrace.Profiling.HeapHistory

/-!
# Profiling.HeapOrder — the operations of a process in any order

A malloc that overtakes older operations replaces the entry at its address; the operations it has overtaken find a
newer entry when they are committed, and change nothing.  `HeapInv` is what the arrival of an operation preserves.
-/

namespace LynxTrace.Profiling

variable {Loc BuildId Frame : Type*} [DecidableEq Frame]

namespace HeapTracker

variable {maps : Maps Loc BuildId Frame} {history : List Operation} {delivered : List ℕ} {s : HeapTracker Frame}

/-! ### One operation is committed -/

variable {op : Operation}

section

variable (hs : TableInv maps history delivered s)

include hs

/-- An entry elsewhere is live after the commit if it was before. -/
theorem TableInv.isLiveAt_succ (hop : opAt history (s.committedSequenceNumber + 1) = some op) {b : ℕ}
    {e : Allocation Frame} (hb : b ≠ op.address) (he : s.allocations b = some e) (node : Node Frame) :
    isLiveAt (s.committedSequenceNumber + 1) node e = isLiveAt s.committedSequenceNumber node e ∧
      isWaitingAt (s.committedSequenceNumber + 1) node e = isWaitingAt s.committedSequenceNumber node e := by
  have hne : e.sequenceNumber ≠ s.committedSequenceNumber + 1 := by
    intro h
    obtain ⟨op', h1, h2, -⟩ := (hs.entry b e he).opAt_eq
    rw [h, hop] at h1
    exact hb (Option.some.inj h1 ▸ h2.symm)
  have h1 : e.sequenceNumber ≤ s.committedSequenceNumber + 1 ↔ e.sequenceNumber ≤ s.committedSequenceNumber := by
    omega
  have h2 : s.committedSequenceNumber + 1 < e.sequenceNumber ↔ s.committedSequenceNumber < e.sequenceNumber := by
    omega
  simp only [isLiveAt, isWaitingAt, h1, h2, and_self]

/-- The invariant after a commit: what is to be shown of the table at the address of the operation, and of the
counters. -/
theorem TableInv.of_commit {s' : HeapTracker Frame} (hop : opAt history (s.committedSequenceNumber + 1) = some op)
    (hmem : s.committedSequenceNumber + 1 ∈ delivered) (hmode : s'.dumpAtMaxMode = false)
    (hcache : s'.frameCache = s.frameCache) (hcomm : s'.committedSequenceNumber = s.committedSequenceNumber + 1)
    (hcall : ∀ node, (s.callstackAllocations node).isSome → (s'.callstackAllocations node).isSome)
    (hother : ∀ b, b ≠ op.address → s'.allocations b = s.allocations b)
    (hentry : ∀ e, s'.allocations op.address = some e →
      s.allocations op.address = some e ∧ s.committedSequenceNumber + 1 ≤ e.sequenceNumber)
    (hnone : s'.allocations op.address = none → ∀ e, s.allocations op.address = some e →
      e.sequenceNumber ≤ s.committedSequenceNumber)
    (hbal : ∀ (node : Node Frame) (counter : Counter), Balanced (counter.added (s'.totals node))
      (counter.freed (s'.totals node))
      (tableWeight history (isLiveAt (s.committedSequenceNumber + 1) node) counter s'.allocations)
      (tableWeight history (isWaitingAt (s.committedSequenceNumber + 1) node) counter s'.allocations)
      (deliveredWeight maps history delivered node counter)) : TableInv maps history delivered s' := by
  have hold : ∀ a e, s'.allocations a = some e → s.allocations a = some e := by
    intro a e he
    by_cases ha : a = op.address
    · subst ha
      exact (hentry e he).1
    · rwa [hother a ha] at he
  constructor
  · exact hmode
  · rw [hcache]
    exact hs.frameCache
  · rw [hcomm]
    intro i h1 h2
    rcases Nat.lt_or_eq_of_le h2 with h | rfl
    · exact hs.committed i h1 (by omega)
    · exact hmem
  · intro a e he
    have h1 := hs.entry a e (hold a e he)
    refine ⟨h1.mem, h1.opAt_eq, h1.malloc_le, ?_⟩
    rw [hcomm]
    intro j hj op' hop' ha
    rcases Nat.lt_or_eq_of_le hj with h | rfl
    · exact h1.committed_le j (by omega) op' hop' ha
    · obtain rfl := Option.some.inj (hop.symm.trans hop')
      subst ha
      exact (hentry e he).2
  · intro a e he
    exact hcall _ (hs.hasCallstack a e (hold a e he))
  · rw [hcomm]
    intro a ha m hm o ho hmal hoa
    by_cases hae : a = op.address
    · subst hae
      cases hsa : s.allocations op.address with
      | none =>
        obtain ⟨j, op', h1, h2, h3⟩ := hs.noEntry _ hsa m hm o ho hmal hoa
        exact ⟨j, op', h1, by omega, h3⟩
      | some e =>
        have h1 := (hs.entry _ e hsa).malloc_le m hm o ho hmal hoa
        have h2 := hnone ha e hsa
        exact ⟨s.committedSequenceNumber + 1, op, by omega, le_rfl, hop, rfl⟩
    · rw [hother a hae] at ha
      obtain ⟨j, op', h1, h2, h3⟩ := hs.noEntry a ha m hm o ho hmal hoa
      exact ⟨j, op', h1, by omega, h3⟩
  · rw [hcomm]
    exact hbal

/-- The weights of the table after a commit. -/
theorem TableInv.tableWeight_commit (hop : opAt history (s.committedSequenceNumber + 1) = some op)
    (al' : ℕ → Option (Allocation Frame)) (hother : ∀ b, b ≠ op.address → al' b = s.allocations b) (node : Node Frame)
    (counter : Counter) :
    tableWeight history (isLiveAt (s.committedSequenceNumber + 1) node) counter al' +
        weightIf (isLiveAt s.committedSequenceNumber node) counter (s.allocations op.address) =
      tableWeight history (isLiveAt s.committedSequenceNumber node) counter s.allocations +
        weightIf (isLiveAt (s.committedSequenceNumber + 1) node) counter (al' op.address) ∧
    tableWeight history (isWaitingAt (s.committedSequenceNumber + 1) node) counter al' +
        weightIf (isWaitingAt s.committedSequenceNumber node) counter (s.allocations op.address) =
      tableWeight history (isWaitingAt s.committedSequenceNumber node) counter s.allocations +
        weightIf (isWaitingAt (s.committedSequenceNumber + 1) node) counter (al' op.address) :=
  ⟨tableWeight_add _ _ (mem_addresses hop) counter hother fun _ _ hb he => (hs.isLiveAt_succ hop hb he node).1,
    tableWeight_add _ _ (mem_addresses hop) counter hother fun _ _ hb he => (hs.isLiveAt_succ hop hb he node).2⟩

theorem TableInv.commitOperation (hop : opAt history (s.committedSequenceNumber + 1) = some op)
    (hmem : s.committedSequenceNumber + 1 ∈ delivered) (hlt : s.committedSequenceNumber + 1 < 2 ^ 64) :
    TableInv maps history delivered (s.commitOperation (s.committedSequenceNumber + 1) op.pending) := by
  have hcomm : (s.advanceCommitted op.pending.timestamp).committedSequenceNumber = s.committedSequenceNumber + 1 :=
    Nat.mod_eq_of_lt hlt
  have hmode : (s.advanceCommitted op.pending.timestamp).dumpAtMaxMode = false := hs.mode
  unfold HeapTracker.commitOperation
  rw [op.pending_address]
  dsimp only
  rw [show (s.advanceCommitted op.pending.timestamp).allocations = s.allocations from rfl]
  cases hsa : s.allocations op.address with
  | none =>
    refine hs.of_commit hop hmem hmode rfl hcomm (fun _ h => h) (fun _ _ => rfl) ?_ ?_ ?_
    · intro e he
      cases hsa.symm.trans he
    · intro _ e he
      cases hsa.symm.trans he
    · intro node counter
      obtain ⟨hL, hW⟩ := hs.tableWeight_commit hop s.allocations (fun _ _ => rfl) node counter
      simp only [hsa, weightIf, Nat.add_zero] at hL hW
      rw [show (s.advanceCommitted op.pending.timestamp).allocations = s.allocations from rfl, hL, hW]
      exact hs.balanced node counter
  | some e =>
    have hcs : ((s.advanceCommitted op.pending.timestamp).callstackAllocations e.node).isSome :=
      hs.hasCallstack _ e hsa
    dsimp only
    split_ifs with h1 h2
    · -- the malloc itself
      have hsame := sameTable_add hmode op.pending.timestamp e
      have hal := hsame.allocations
      refine hs.of_commit hop hmem (hsame.mode.trans hmode) hsame.frameCache (hsame.committed.trans hcomm)
        hsame.hasCallstack (fun _ _ => by rw [hal]; rfl) ?_ ?_ ?_
      · intro e' he
        rw [hal] at he
        obtain rfl := Option.some.inj (hsa.symm.trans he)
        exact ⟨hsa, h1.ge⟩
      · intro h
        rw [hal] at h
        cases hsa.symm.trans h
      · intro node counter
        obtain ⟨hL, hW⟩ := hs.tableWeight_commit hop s.allocations (fun _ _ => rfl) node counter
        have hb := hs.balanced node counter
        rw [hal]
        rw [hsa, weightIf_isLiveAt, weightIf_isLiveAt, h1, if_neg (Nat.not_succ_le_self _), if_pos le_rfl] at hL
        rw [hsa, weightIf_isWaitingAt, weightIf_isWaitingAt, h1, if_pos (Nat.lt_succ_self _),
          if_neg (Nat.lt_irrefl _)] at hW
        simp only [Nat.add_zero] at hL hW
        rw [← hW] at hb
        exact hL ▸ balanced_add hmode hcs op.pending.timestamp hb
    · -- a free
      have hsame := sameTable_subtract hmode e
      have hle : e.sequenceNumber ≤ s.committedSequenceNumber := by omega
      refine hs.of_commit hop hmem (hsame.mode.trans hmode) hsame.frameCache (hsame.committed.trans hcomm)
        hsame.hasCallstack ?_ ?_ ?_ ?_
      · intro b hb
        simp only [setAllocation, hsame.allocations, Function.update_of_ne hb]
        rfl
      · intro e' he
        simp only [setAllocation, Function.update_self] at he
        cases he
      · intro _ e' he
        obtain rfl := Option.some.inj (hsa.symm.trans he)
        exact hle
      · intro node counter
        have hb := hs.balanced node counter
        obtain ⟨hL, hW⟩ := hs.tableWeight_commit hop (Function.update s.allocations op.address none)
          (fun b hb => Function.update_of_ne hb _ _) node counter
        show Balanced (counter.added ((subtractFromCallstackAllocations _ e).totals node))
          (counter.freed ((subtractFromCallstackAllocations _ e).totals node))
          (tableWeight history _ counter (Function.update (subtractFromCallstackAllocations _ e).allocations _ none))
          (tableWeight history _ counter (Function.update (subtractFromCallstackAllocations _ e).allocations _ none)) _
        rw [hsame.allocations]
        rw [hsa, Function.update_self, weightIf_isLiveAt, if_pos hle] at hL
        rw [hsa, Function.update_self, weightIf_isWaitingAt, if_neg (Nat.not_lt.mpr hle)] at hW
        simp only [weightIf, Nat.add_zero] at hL hW
        rw [← hL, ← hW] at hb
        exact balanced_subtract hmode hcs hb
    · -- a newer malloc has replaced the block
      refine hs.of_commit hop hmem hmode rfl hcomm (fun _ h => h) (fun _ _ => rfl) ?_ ?_ ?_
      · intro e' he
        obtain rfl := Option.some.inj (hsa.symm.trans he)
        exact ⟨hsa, by omega⟩
      · intro h
        cases hsa.symm.trans h
      · intro node counter
        obtain ⟨hL, hW⟩ := hs.tableWeight_commit hop s.allocations (fun _ _ => rfl) node counter
        have hb := hs.balanced node counter
        have h3 : s.committedSequenceNumber + 1 < e.sequenceNumber := by omega
        rw [hsa, weightIf_isLiveAt, weightIf_isLiveAt, if_neg (by omega), if_neg (by omega)] at hL
        rw [hsa, weightIf_isWaitingAt, weightIf_isWaitingAt, if_pos (by omega), if_pos h3, Nat.add_right_cancel_iff] at hW
        simp only [Nat.add_zero] at hL
        rw [show (s.advanceCommitted op.pending.timestamp).allocations = s.allocations from rfl]
        show Balanced _ _ (tableWeight history (isLiveAt _ node) counter _) (tableWeight history (isWaitingAt _ node)
          counter _) _
        rw [← hL, ← hW] at hb
        exact hb

end

/-! ### One operation arrives -/

variable {i : ℕ}

/-- An operation that has not been delivered is not committed. -/
theorem TableInv.committed_lt (hs : TableInv maps history delivered s) (hop : opAt history i = some op)
    (hi : i ∉ delivered) : s.committedSequenceNumber < i := by
  by_contra h
  exact hi (hs.committed i (opAt_lt hop).1 (by omega))

theorem deliveredWeight_cons (hop : opAt history i = some op) (node : Node Frame) (counter : Counter) :
    deliveredWeight maps history (i :: delivered) node counter =
      deliveredWeight maps history delivered node counter +
        weightIf (fun e => e.node = node) counter (maps.allocation i op) := by
  simp only [deliveredWeight, List.map_cons, List.sum_cons, hop, Option.bind_some]
  exact Nat.add_comm _ _

/-- The invariant when an operation arrives: what is to be shown of the table at its address, and of the counters. -/
theorem TableInv.of_record (hs : TableInv maps history delivered s) {s' : HeapTracker Frame}
    (hop : opAt history i = some op) (hi : i ∉ delivered) (hmode : s'.dumpAtMaxMode = s.dumpAtMaxMode)
    (hcache : s'.frameCache = s.frameCache) (hcomm : s'.committedSequenceNumber = s.committedSequenceNumber)
    (hcall : ∀ node, (s.callstackAllocations node).isSome → (s'.callstackAllocations node).isSome)
    (hother : ∀ b, b ≠ op.address → s'.allocations b = s.allocations b)
    (hentry : ∀ e, s'.allocations op.address = some e →
      (s.allocations op.address = some e ∧ (op.isMalloc → i < e.sequenceNumber)) ∨
      (maps.allocation i op = some e ∧ (s'.callstackAllocations e.node).isSome ∧
        ∀ e', s.allocations op.address = some e' → e'.sequenceNumber < i))
    (hnone : s'.allocations op.address = none → s.allocations op.address = none ∧ ¬ op.isMalloc)
    (hbal : ∀ (node : Node Frame) (counter : Counter), Balanced (counter.added (s'.totals node))
      (counter.freed (s'.totals node))
      (tableWeight history (isLiveAt s.committedSequenceNumber node) counter s'.allocations)
      (tableWeight history (isWaitingAt s.committedSequenceNumber node) counter s'.allocations)
      (deliveredWeight maps history delivered node counter +
        weightIf (fun e => e.node = node) counter (maps.allocation i op))) :
    TableInv maps history (i :: delivered) s' := by
  have hlt := hs.committed_lt hop hi
  constructor
  · exact hmode.trans hs.mode
  · rw [hcache]
    exact hs.frameCache
  · rw [hcomm]
    exact fun j h1 h2 => List.mem_cons_of_mem _ (hs.committed j h1 h2)
  · intro a e he
    rw [hcomm]
    have hkeep : s.allocations a = some e → (a = op.address → op.isMalloc → i < e.sequenceNumber) →
        IsNewest maps history (i :: delivered) s.committedSequenceNumber a e := by
      intro hsa hlt'
      have h1 := hs.entry a e hsa
      refine ⟨List.mem_cons_of_mem _ h1.mem, h1.opAt_eq, ?_, h1.committed_le⟩
      intro m hm o ho hmal hoa
      rcases List.mem_cons.mp hm with rfl | hm
      · obtain rfl := Option.some.inj (hop.symm.trans ho)
        exact (hlt' hoa.symm hmal).le
      · exact h1.malloc_le m hm o ho hmal hoa
    by_cases ha : a = op.address
    · subst ha
      rcases hentry e he with ⟨h1, h2⟩ | ⟨h1, -, h2⟩
      · exact hkeep h1 fun _ => h2
      · have hseq := Maps.allocation_seq h1
        refine ⟨by rw [hseq]; exact List.mem_cons_self, ⟨op, by rw [hseq]; exact hop, rfl, by rw [hseq]; exact h1⟩, ?_, ?_⟩
        · intro m hm o ho hmal hoa
          rw [hseq]
          rcases List.mem_cons.mp hm with rfl | hm
          · exact le_rfl
          · cases hsa : s.allocations op.address with
            | none =>
              obtain ⟨j, -, h3, h4, -⟩ := hs.noEntry _ hsa m hm o ho hmal hoa
              omega
            | some e' =>
              have h3 := (hs.entry _ e' hsa).malloc_le m hm o ho hmal hoa
              have h4 := h2 e' hsa
              omega
        · intro j hj _ _ _
          omega
    · rw [hother a ha] at he
      exact hkeep he fun h => absurd h ha
  · intro a e he
    by_cases ha : a = op.address
    · subst ha
      rcases hentry e he with ⟨h1, -⟩ | ⟨-, h1, -⟩
      · exact hcall _ (hs.hasCallstack _ e h1)
      · exact h1
    · rw [hother a ha] at he
      exact hcall _ (hs.hasCallstack a e he)
  · rw [hcomm]
    intro a ha m hm o ho hmal hoa
    by_cases hae : a = op.address
    · subst hae
      obtain ⟨h1, h2⟩ := hnone ha
      rcases List.mem_cons.mp hm with rfl | hm
      · obtain rfl := Option.some.inj (hop.symm.trans ho)
        exact absurd hmal h2
      · exact hs.noEntry _ h1 m hm o ho hmal hoa
    · rw [hother a hae] at ha
      rcases List.mem_cons.mp hm with rfl | hm
      · obtain rfl := Option.some.inj (hop.symm.trans ho)
        exact absurd hoa.symm hae
      · exact hs.noEntry a ha m hm o ho hmal hoa
  · intro node counter
    rw [hcomm, deliveredWeight_cons hop]
    exact hbal node counter

/-- A free that arrives changes nothing before it is committed. -/
theorem TableInv.deliver_free (hs : TableInv maps history delivered s) {address timestamp : ℕ}
    (hop : opAt history i = some (.free address timestamp)) (hi : i ∉ delivered) :
    TableInv maps history (i :: delivered) s := by
  refine hs.of_record hop hi rfl rfl rfl (fun _ h => h) (fun _ _ => rfl) ?_ ?_ ?_
  · exact fun e he => Or.inl ⟨he, fun h => by cases h⟩
  · exact fun h => ⟨h, by simp [Operation.isMalloc]⟩
  · intro node counter
    exact (hs.balanced node counter).deliver (Nat.zero_le _)

omit [DecidableEq Frame] in
theorem weightIf_le_tableWeight {a : ℕ} (ha : a ∈ addresses history) (kind : Allocation Frame → Bool)
    (counter : Counter) (al : ℕ → Option (Allocation Frame)) :
    weightIf kind counter (al a) ≤ tableWeight history kind counter al :=
  Finset.single_le_sum (f := fun b => weightIf kind counter (al b)) (fun _ _ => Nat.zero_le _) ha

/-- The invariant when a malloc makes a new entry, after changes to counters only. -/
theorem TableInv.of_replace (hs : TableInv maps history delivered s) {callstack : List ℕ}
    {address sampleSize allocSize timestamp : ℕ} {s' : HeapTracker Frame}
    (hop : opAt history i = some (.malloc callstack address sampleSize allocSize timestamp)) (hi : i ∉ delivered)
    (hsame : SameTable s s') (hold : ∀ e, s.allocations address = some e → e.sequenceNumber < i)
    (hbal : ∀ (node : Node Frame) (counter : Counter), Balanced (counter.added (s'.totals node))
      (counter.freed (s'.totals node))
      (tableWeight history (isLiveAt s.committedSequenceNumber node) counter s.allocations -
        weightIf (isLiveAt s.committedSequenceNumber node) counter (s.allocations address))
      (tableWeight history (isWaitingAt s.committedSequenceNumber node) counter s.allocations -
        weightIf (isWaitingAt s.committedSequenceNumber node) counter (s.allocations address))
      (deliveredWeight maps history delivered node counter)) :
    TableInv maps history (i :: delivered) ((s'.maybeCreateCallstackAllocations (maps.node callstack)).setAllocation
      address (some ⟨sampleSize, allocSize, i, maps.node callstack⟩)) := by
  have hlt := hs.committed_lt hop hi
  have hsame' := hsame.trans (sameTable_maybeCreate s' (maps.node callstack))
  have hmem : address ∈ addresses history := mem_addresses hop
  have hother : ∀ b, b ≠ address → ((s'.maybeCreateCallstackAllocations (maps.node callstack)).setAllocation address
      (some ⟨sampleSize, allocSize, i, maps.node callstack⟩)).allocations b = s.allocations b := by
    intro b hb
    rw [setAllocation_of_ne _ hb, hsame'.allocations]
  refine hs.of_record hop hi hsame'.mode hsame'.frameCache hsame'.committed hsame'.hasCallstack hother ?_ ?_ ?_
  · intro e he
    obtain rfl := Option.some.inj ((setAllocation_self _ address _).symm.trans he)
    exact Or.inr ⟨rfl, isSome_maybeCreate s' _, hold⟩
  · intro h
    cases (setAllocation_self _ address _).symm.trans h
  · intro node counter
    have hL := tableWeight_add (isLiveAt s.committedSequenceNumber node) (isLiveAt s.committedSequenceNumber node) hmem
      counter hother fun _ _ _ _ => rfl
    have hW := tableWeight_add (isWaitingAt s.committedSequenceNumber node)
      (isWaitingAt s.committedSequenceNumber node) hmem counter hother fun _ _ _ _ => rfl
    have hL0 : weightIf (isLiveAt s.committedSequenceNumber node) counter
        (some (⟨sampleSize, allocSize, i, maps.node callstack⟩ : Allocation Frame)) = 0 := by
      rw [weightIf_isLiveAt, if_neg (Nat.not_le.mpr hlt)]
    have hW0 : weightIf (isWaitingAt s.committedSequenceNumber node) counter
        (some (⟨sampleSize, allocSize, i, maps.node callstack⟩ : Allocation Frame)) =
        weightIf (fun e => e.node = node) counter
          (some (⟨sampleSize, allocSize, i, maps.node callstack⟩ : Allocation Frame)) := by
      rw [weightIf_isWaitingAt, if_pos hlt]
    have hWle := weightIf_le_tableWeight hmem (isWaitingAt s.committedSequenceNumber node) counter s.allocations
    rw [setAllocation_self, hL0] at hL
    rw [setAllocation_self, hW0] at hW
    have h := (hbal node counter).deliver (le_refl (weightIf (fun e => e.node = node) counter
      (some (⟨sampleSize, allocSize, i, maps.node callstack⟩ : Allocation Frame))))
    rw [totals_setAllocation, totals_maybeCreate]
    convert h using 1
    · omega
    · omega
    · rfl

/-- The part of `RecordMalloc` on the table. -/
theorem TableInv.recordAllocation (hs : TableInv maps history delivered s) {callstack : List ℕ}
    {address sampleSize allocSize timestamp : ℕ}
    (hop : opAt history i = some (.malloc callstack address sampleSize allocSize timestamp)) (hi : i ∉ delivered) :
    TableInv maps history (i :: delivered)
      (s.recordAllocation (maps.node callstack) address sampleSize allocSize i timestamp) := by
  have hmode := hs.mode
  have hmem : address ∈ addresses history := mem_addresses hop
  unfold HeapTracker.recordAllocation
  cases hsa : s.allocations address with
  | none =>
    refine hs.of_replace hop hi ⟨rfl, rfl, rfl, rfl, rfl, fun _ h => h⟩ ?_ ?_
    · intro e he
      cases hsa.symm.trans he
    · intro node counter
      rw [hsa, weightIf, weightIf, Nat.sub_zero, Nat.sub_zero]
      exact hs.balanced node counter
  | some old =>
    dsimp only
    have hcs := hs.hasCallstack _ old hsa
    split_ifs with h1 h2
    · -- the old block is counted as allocated and freed
      have hsame1 := sameTable_add hmode timestamp old
      have hmode1 := hsame1.mode.trans hmode
      have hcs1 := hsame1.hasCallstack _ hcs
      refine hs.of_replace hop hi (hsame1.trans (sameTable_subtract hmode1 old)) ?_ ?_
      · intro e he
        obtain rfl := Option.some.inj (hsa.symm.trans he)
        exact h1
      · intro node counter
        have hb := hs.balanced node counter
        have hle := weightIf_le_tableWeight hmem (isWaitingAt s.committedSequenceNumber node) counter s.allocations
        rw [hsa, weightIf_isLiveAt, if_neg (Nat.not_le.mpr h2), Nat.sub_zero]
        rw [hsa, weightIf_isWaitingAt, if_pos h2] at hle
        rw [weightIf_isWaitingAt, if_pos h2]
        rw [← Nat.sub_add_cancel hle] at hb
        exact balanced_subtract hmode1 hcs1 (balanced_add hmode hcs timestamp hb)
    · -- the old block is freed
      refine hs.of_replace hop hi (sameTable_subtract hmode old) ?_ ?_
      · intro e he
        obtain rfl := Option.some.inj (hsa.symm.trans he)
        exact h1
      · intro node counter
        have hb := hs.balanced node counter
        have hle := weightIf_le_tableWeight hmem (isLiveAt s.committedSequenceNumber node) counter s.allocations
        rw [hsa, weightIf_isWaitingAt, if_neg h2, Nat.sub_zero]
        rw [hsa, weightIf_isLiveAt, if_pos (Nat.not_lt.mp h2)] at hle
        rw [weightIf_isLiveAt, if_pos (Nat.not_lt.mp h2)]
        rw [← Nat.sub_add_cancel hle] at hb
        exact balanced_subtract hmode hcs hb
    · -- a newer malloc is there
      have hne : i ≠ old.sequenceNumber := by
        rintro rfl
        exact hi (hs.entry _ old hsa).mem
      refine hs.of_record hop hi rfl rfl rfl (fun _ h => h) (fun _ _ => rfl) ?_ ?_ ?_
      · intro e he
        left
        obtain rfl := Option.some.inj (hsa.symm.trans he)
        exact ⟨hsa, fun _ => by omega⟩
      · intro h
        cases hsa.symm.trans h
      · intro node counter
        exact (hs.balanced node counter).deliver (Nat.zero_le _)

/-! ### Operations that wait for older ones -/

/-- The pending operations are those delivered and not committed, in order. -/
structure PendingInv (history : List Operation) (delivered : List ℕ) (c : ℕ)
    (pending : List (ℕ × PendingOperation)) : Prop where
  sorted : pending.Pairwise fun p q => p.1 < q.1
  mem : ∀ i o, (i, o) ∈ pending ↔ i ∈ delivered ∧ c < i ∧ (opAt history i).map Operation.pending = some o

variable {pending : List (ℕ × PendingOperation)}

omit [DecidableEq Frame] in
/-- The pending operations after the next one is committed. -/
theorem PendingInv.tail {c : ℕ} {o : PendingOperation} (hp : PendingInv history delivered c ((c + 1, o) :: pending)) :
    PendingInv history delivered (c + 1) pending := by
  obtain ⟨hlt, hsorted⟩ := List.pairwise_cons.mp hp.sorted
  refine ⟨hsorted, fun j o' => ?_⟩
  have h1 := hp.mem j o'
  constructor
  · intro hj
    obtain ⟨h2, -, h3⟩ := h1.mp (List.mem_cons_of_mem _ hj)
    exact ⟨h2, hlt _ hj, h3⟩
  · rintro ⟨h2, h3, h4⟩
    rcases List.mem_cons.mp (h1.mpr ⟨h2, by omega, h4⟩) with h5 | h5
    · simp only [Prod.mk.injEq] at h5
      omega
    · exact h5

/-- The pending operations after an operation that is next arrives and is committed. -/
theorem PendingInv.commit {c : ℕ} (hi : c + 1 ∉ delivered) (hp : PendingInv history delivered c pending) :
    PendingInv history ((c + 1) :: delivered) (c + 1) pending := by
  refine ⟨hp.sorted, fun j o => ?_⟩
  rw [hp.mem, List.mem_cons]
  constructor
  · rintro ⟨h1, h2, h3⟩
    refine ⟨Or.inr h1, ?_, h3⟩
    refine Nat.lt_of_le_of_ne h2 ?_
    rintro rfl
    exact hi h1
  · rintro ⟨rfl | h1, h2, h3⟩
    · omega
    · exact ⟨h1, by omega, h3⟩

structure HeapInv (maps : Maps Loc BuildId Frame) (history : List Operation) (delivered : List ℕ)
    (s : HeapTracker Frame) : Prop where
  table : TableInv maps history delivered s
  pending : PendingInv history delivered s.committedSequenceNumber s.pendingOperations
  next : s.committedSequenceNumber + 1 ∉ delivered

theorem committed_commitOperation (hmode : s.dumpAtMaxMode = false) (i : ℕ) (o : PendingOperation) :
    (s.commitOperation i o).committedSequenceNumber = add64 s.committedSequenceNumber 1 := by
  have hmode' : (s.advanceCommitted o.timestamp).dumpAtMaxMode = false := hmode
  unfold HeapTracker.commitOperation
  dsimp only
  split
  · rfl
  · split_ifs
    · exact (sameTable_add hmode' _ _).committed
    · exact (sameTable_subtract hmode' _).committed
    · rfl

theorem TableInv.commitPending (hlen : history.length < 2 ^ 64) (hops : ∀ i ∈ delivered, ∃ op, opAt history i = some op)
    (hs : TableInv maps history delivered s) (hp : PendingInv history delivered s.committedSequenceNumber pending) :
    HeapInv maps history delivered (s.commitPending pending) := by
  induction pending generalizing s with
  | nil =>
    refine ⟨⟨hs.mode, hs.frameCache, hs.committed, hs.entry, hs.hasCallstack, hs.noEntry, hs.balanced⟩, hp, ?_⟩
    intro h
    obtain ⟨op, hop⟩ := hops _ h
    cases (hp.mem _ op.pending).mpr ⟨h, Nat.lt_succ_self _, by rw [hop]; rfl⟩
  | cons p pending ih =>
    obtain ⟨i, o⟩ := p
    obtain ⟨hi, hci, ho⟩ := (hp.mem i o).mp List.mem_cons_self
    obtain ⟨op, hop, rfl⟩ := Option.map_eq_some_iff.mp ho
    have hin := (opAt_lt hop).2
    have hadd : add64 s.committedSequenceNumber 1 = s.committedSequenceNumber + 1 := Nat.mod_eq_of_lt (by omega)
    obtain ⟨hlt, -⟩ := List.pairwise_cons.mp hp.sorted
    unfold HeapTracker.commitPending
    rw [hadd]
    split_ifs with h
    · subst h
      apply ih (hs.commitOperation hop hi (by omega))
      rw [committed_commitOperation hs.mode, hadd]
      exact hp.tail
    · refine ⟨⟨hs.mode, hs.frameCache, hs.committed, hs.entry, hs.hasCallstack, hs.noEntry, hs.balanced⟩, hp, ?_⟩
      intro hmem
      obtain ⟨op', hop'⟩ := hops _ hmem
      rcases List.mem_cons.mp ((hp.mem _ op'.pending).mpr ⟨hmem, Nat.lt_succ_self _, by rw [hop']; rfl⟩) with h1 | h1
      · simp only [Prod.mk.injEq] at h1
        exact h h1.1.symm
      · have := hlt _ h1
        dsimp only at this
        omega

theorem mem_emplacePending {o : PendingOperation} (hi : ∀ p ∈ pending, p.1 ≠ i) (q : ℕ × PendingOperation) :
    q ∈ emplacePending i o pending ↔ q = (i, o) ∨ q ∈ pending := by
  induction pending with
  | nil => simp [emplacePending]
  | cons p pending ih =>
    have hne := hi p List.mem_cons_self
    unfold emplacePending
    split_ifs with h1 h2
    · exact List.mem_cons
    · exact absurd h2.symm hne
    · rw [List.mem_cons, ih fun q hq => hi q (List.mem_cons_of_mem _ hq), List.mem_cons]
      exact or_left_comm

theorem sorted_emplacePending {o : PendingOperation} (hi : ∀ p ∈ pending, p.1 ≠ i)
    (h : pending.Pairwise fun p q => p.1 < q.1) : (emplacePending i o pending).Pairwise fun p q => p.1 < q.1 := by
  induction pending with
  | nil => exact List.pairwise_singleton _ _
  | cons p pending ih =>
    have hne := hi p List.mem_cons_self
    have hi' : ∀ q ∈ pending, q.1 ≠ i := fun q hq => hi q (List.mem_cons_of_mem _ hq)
    obtain ⟨h1, h2⟩ := List.pairwise_cons.mp h
    unfold emplacePending
    split_ifs with h3 h4
    · refine List.pairwise_cons.mpr ⟨?_, h⟩
      intro q hq
      rcases List.mem_cons.mp hq with rfl | hq
      · exact h3
      · exact h3.trans (h1 q hq)
    · exact absurd h4.symm hne
    · refine List.pairwise_cons.mpr ⟨?_, ih hi' h2⟩
      intro q hq
      rcases (mem_emplacePending hi' q).mp hq with rfl | hq
      · show p.1 < i
        omega
      · exact h1 q hq

/-- `RecordOperation`, for an operation that is in the table. -/
theorem TableInv.recordOperation (hlen : history.length < 2 ^ 64)
    (hops : ∀ j ∈ delivered, ∃ op, opAt history j = some op) (hop : opAt history i = some op) (hi : i ∉ delivered)
    (hp : PendingInv history delivered s.committedSequenceNumber s.pendingOperations)
    (hnext : s.committedSequenceNumber + 1 ∉ delivered) (hs : TableInv maps history (i :: delivered) s)
    (hci : s.committedSequenceNumber < i) : HeapInv maps history (i :: delivered) (s.recordOperation i op.pending) := by
  have hin := (opAt_lt hop).2
  have hadd : add64 s.committedSequenceNumber 1 = s.committedSequenceNumber + 1 := Nat.mod_eq_of_lt (by omega)
  have hops' : ∀ j ∈ i :: delivered, ∃ op, opAt history j = some op := by
    intro j hj
    rcases List.mem_cons.mp hj with rfl | hj
    · exact ⟨op, hop⟩
    · exact hops j hj
  unfold HeapTracker.recordOperation
  rw [hadd]
  split_ifs with h
  · -- an older operation is missing
    have hne : ∀ p ∈ s.pendingOperations, p.1 ≠ i := by
      rintro ⟨j, o⟩ hj rfl
      exact hi ((hp.mem _ _).mp hj).1
    refine ⟨⟨hs.mode, hs.frameCache, hs.committed, hs.entry, hs.hasCallstack, hs.noEntry, hs.balanced⟩,
      ⟨sorted_emplacePending hne hp.sorted, ?_⟩, ?_⟩
    · intro j o
      show (j, o) ∈ emplacePending i op.pending s.pendingOperations ↔ _
      rw [mem_emplacePending hne, hp.mem, Prod.mk.injEq, List.mem_cons]
      constructor
      · rintro (⟨rfl, rfl⟩ | ⟨h1, h2, h3⟩)
        · exact ⟨Or.inl rfl, hci, by rw [hop]; rfl⟩
        · exact ⟨Or.inr h1, h2, h3⟩
      · rintro ⟨rfl | h1, h2, h3⟩
        · rw [hop, Option.map_some, Option.some.injEq] at h3
          exact Or.inl ⟨rfl, h3.symm⟩
        · exact Or.inr ⟨h1, h2, h3⟩
    · rintro hmem
      rcases List.mem_cons.mp hmem with h1 | h1
      · exact h h1.symm
      · exact hnext h1
  · rw [not_not] at h
    subst h
    apply TableInv.commitPending hlen hops' (hs.commitOperation hop List.mem_cons_self (by omega))
    rw [committed_commitOperation hs.mode, hadd]
    exact hp.commit hi

/-! ### Delivering -/

omit [DecidableEq Frame] in
theorem internFrames_eq (frameCache : ℕ → Option Frame)
    (h : ∀ pc f, frameCache pc = some f → f = maps.frame pc) (callstack : List ℕ) :
    (∀ pc f, (internFrames maps.internCodeLocation frameCache
        ((callstack.map maps.frameData).zip (callstack.map maps.buildId))).1 pc = some f → f = maps.frame pc) ∧
      (internFrames maps.internCodeLocation frameCache
        ((callstack.map maps.frameData).zip (callstack.map maps.buildId))).2 = maps.node callstack := by
  induction callstack generalizing frameCache with
  | nil => exact ⟨h, rfl⟩
  | cons pc callstack ih =>
    simp only [List.map_cons, List.zip_cons_cons, internFrames, Maps.node]
    cases hc : frameCache (maps.frameData pc).pc with
    | some f =>
      obtain ⟨h1, h2⟩ := ih frameCache h
      refine ⟨h1, ?_⟩
      dsimp only
      rw [h2, h pc f hc]
      rfl
    | none =>
      obtain ⟨h1, h2⟩ := ih (Function.update frameCache pc (some (maps.frame pc))) (by
        intro pc' f hf
        rw [Function.update_apply] at hf
        split_ifs at hf with hpc
        · rw [hpc]
          exact (Option.some.inj hf).symm
        · exact h pc' f hf)
      exact ⟨h1, congrArg _ h2⟩

theorem recordAllocation_same (hmode : s.dumpAtMaxMode = false) (node : Node Frame)
    (address sampleSize allocSize i timestamp : ℕ) :
    (s.recordAllocation node address sampleSize allocSize i timestamp).committedSequenceNumber =
        s.committedSequenceNumber ∧
      (s.recordAllocation node address sampleSize allocSize i timestamp).pendingOperations = s.pendingOperations := by
  unfold HeapTracker.recordAllocation
  split
  · split_ifs with h1 h2
    · rename_i old _
      have h3 := sameTable_add hmode timestamp old
      have h4 := h3.trans (sameTable_subtract (h3.mode.trans hmode) old)
      exact ⟨h4.committed, h4.pending⟩
    · rename_i old _
      have h3 := sameTable_subtract hmode old
      exact ⟨h3.committed, h3.pending⟩
    · exact ⟨rfl, rfl⟩
  · exact ⟨rfl, rfl⟩

theorem HeapInv.deliver (hlen : history.length < 2 ^ 64) (hops : ∀ j ∈ delivered, ∃ op, opAt history j = some op)
    (hs : HeapInv maps history delivered s) (hop : opAt history i = some op) (hi : i ∉ delivered) :
    ∃ s', s.deliver maps i op = some s' ∧ HeapInv maps history (i :: delivered) s' := by
  have hci := hs.table.committed_lt hop hi
  cases op with
  | free address timestamp =>
    exact ⟨_, rfl, TableInv.recordOperation hlen hops hop hi hs.pending hs.next (hs.table.deliver_free hop hi) hci⟩
  | malloc callstack address sampleSize allocSize timestamp =>
    obtain ⟨h1, h2⟩ := internFrames_eq s.frameCache hs.table.frameCache callstack
    let s1 : HeapTracker Frame := { s with frameCache := (internFrames maps.internCodeLocation s.frameCache
      ((callstack.map maps.frameData).zip (callstack.map maps.buildId))).1 }
    have hs1 : TableInv maps history delivered s1 :=
      ⟨hs.table.mode, h1, hs.table.committed, hs.table.entry, hs.table.hasCallstack, hs.table.noEntry,
        hs.table.balanced⟩
    have hs2 := hs1.recordAllocation hop hi
    obtain ⟨h3, h4⟩ := recordAllocation_same hs1.mode (maps.node callstack) address sampleSize allocSize i timestamp
    refine ⟨_, ?_, TableInv.recordOperation hlen hops hop hi (h3 ▸ h4 ▸ hs.pending) (h3 ▸ hs.next) hs2 (h3 ▸ hci)⟩
    show s.recordMalloc _ _ _ _ _ _ _ _ = _
    rw [recordMalloc, if_neg (by rw [List.length_map, List.length_map, not_not])]
    dsimp only
    rw [h2]
    rfl

end HeapTracker

end LynxTrace.Profiling
