import LynxTrace.Profiling.HeapOrder

/-!
# Profiling.HeapDelivery — a history delivered in any order

Once every operation of the history has arrived, all of them are committed, and the tracker holds the history
(`deliverAll_history`).  On the way no counter of frees passes its counter of allocations, as long as the 64-bit
counters do not wrap (`not_heapHistory_wrapped`).
-/

namespace LynxTrace.Profiling

variable {Loc BuildId Frame : Type*} [DecidableEq Frame]

/-- The weight of the live blocks of the callstack at the end of the history. -/
def liveWeight (maps : Maps Loc BuildId Frame) (history : List Operation) (node : Node Frame)
    (counter : Counter) : ℕ :=
  ∑ a ∈ addresses history, weightIf (fun e => e.node = node) counter (blocksAfter maps history a)

/-- The weight of all the mallocs of the callstack in the history. -/
def mallocWeight (maps : Maps Loc BuildId Frame) (history : List Operation) (node : Node Frame)
    (counter : Counter) : ℕ :=
  deliveredWeight maps history (List.range' 1 history.length) node counter

namespace HeapTracker

/-- The tracker holds what is live at the end of the history. -/
structure HoldsHistory (maps : Maps Loc BuildId Frame) (history : List Operation) (s : HeapTracker Frame) :
    Prop where
  pending : s.pendingOperations = []
  allocations : ∀ a, s.allocations a = blocksAfter maps history a
  size_modEq : ∀ node, (s.totals node).allocated ≡
    (s.totals node).freed + liveWeight maps history node .size [MOD 2 ^ 64]
  size_eq : ∀ node, mallocWeight maps history node .size < 2 ^ 64 →
    (s.totals node).allocated = (s.totals node).freed + liveWeight maps history node .size
  count_eq : ∀ node, (s.totals node).allocationCount =
    (s.totals node).freeCount + liveWeight maps history node .count

/-- No more has been freed than allocated, for the callstacks whose sizes fit. -/
structure FreedLe (maps : Maps Loc BuildId Frame) (history : List Operation) (s : HeapTracker Frame) : Prop where
  count_le : ∀ node, (s.totals node).freeCount ≤ (s.totals node).allocationCount
  size_le : ∀ node, mallocWeight maps history node .size < 2 ^ 64 →
    (s.totals node).freed ≤ (s.totals node).allocated

variable {maps : Maps Loc BuildId Frame} {history : List Operation} {delivered : List ℕ} {s : HeapTracker Frame}

theorem HeapInv.init : HeapInv maps history [] (HeapTracker.init false) := by
  have hempty : ∀ (kind : Allocation Frame → Bool) (counter : Counter),
      tableWeight history kind counter (fun _ => none) = 0 :=
    fun _ _ => Finset.sum_const_zero
  refine ⟨⟨rfl, ?_, ?_, ?_, ?_, ?_, ?_⟩, ⟨List.Pairwise.nil, ?_⟩, List.not_mem_nil⟩
  · rintro _ _ ⟨⟩
  · intro i h1 h2
    have h3 : i ≤ 0 := h2
    omega
  · rintro _ _ ⟨⟩
  · rintro _ _ ⟨⟩
  · intro _ _ m hm
    exact absurd hm List.not_mem_nil
  · intro node counter
    rw [show (HeapTracker.init false : HeapTracker Frame).allocations = fun _ => none from rfl, hempty, hempty]
    cases counter <;> exact Balanced.zero
  · intro i o
    constructor
    · intro h
      cases h
    · rintro ⟨h, -⟩
      exact absurd h List.not_mem_nil

/-- The invariant along the order of delivery. -/
theorem HeapInv.deliverAll (hlen : history.length < 2 ^ 64) {order : List ℕ}
    (hops : ∀ j ∈ order ++ delivered, ∃ op, opAt history j = some op) (hnodup : (order ++ delivered).Nodup)
    (hs : HeapInv maps history delivered s) :
    ∃ s', s.deliverAll maps history order = some s' ∧ HeapInv maps history (order.reverse ++ delivered) s' := by
  induction order generalizing s delivered with
  | nil => exact ⟨s, rfl, hs⟩
  | cons i order ih =>
    obtain ⟨op, hop⟩ := hops i List.mem_cons_self
    obtain ⟨hi, hnodup'⟩ := List.nodup_cons.mp hnodup
    obtain ⟨s1, h1, hs1⟩ := hs.deliver hlen
      (fun j hj => hops j (List.mem_cons_of_mem _ (List.mem_append_right _ hj))) hop
      (fun h => hi (List.mem_append_right _ h))
    have hperm : (order ++ i :: delivered).Perm (i :: (order ++ delivered)) := List.perm_middle
    obtain ⟨s2, h2, hs2⟩ := ih (fun j hj => hops j (hperm.mem_iff.mp hj)) (hperm.nodup_iff.mpr hnodup) hs1
    refine ⟨s2, ?_, ?_⟩
    · rw [HeapTracker.deliverAll, hop]
      dsimp only
      rw [h1, Option.bind_some, h2]
    · rwa [List.reverse_cons, List.append_assoc, List.singleton_append]

/-! ### When every operation has arrived -/

theorem HeapInv.committed_eq (hs : HeapInv maps history delivered s)
    (hall : ∀ i, i ∈ delivered ↔ 1 ≤ i ∧ i ≤ history.length) : s.committedSequenceNumber = history.length := by
  have h1 := mt (hall _).mpr hs.next
  rcases Nat.eq_zero_or_pos s.committedSequenceNumber with h | h
  · omega
  · have h2 := (hall _).mp (hs.table.committed _ h le_rfl)
    omega

theorem HeapInv.allocations_eq (hs : HeapInv maps history delivered s)
    (hall : ∀ i, i ∈ delivered ↔ 1 ≤ i ∧ i ≤ history.length) (a : ℕ) :
    s.allocations a = blocksAfter maps history a := by
  have hc := hs.committed_eq hall
  cases ha : s.allocations a with
  | none =>
    refine (blocksFrom_eq_none ?_).symm
    intro i op hop hmal hoa
    have hi : i < history.length := (List.getElem?_eq_some_iff.mp hop).1
    obtain ⟨j, op', h1, h2, h3, h4⟩ :=
      hs.table.noEntry a ha (i + 1) ((hall _).mpr ⟨Nat.succ_pos i, hi⟩) op hop hmal hoa
    obtain ⟨j, rfl⟩ : ∃ k, j = k + 1 := ⟨j - 1, by omega⟩
    exact ⟨j, op', by omega, h3, h4⟩
  | some e =>
    have he := hs.table.entry a e ha
    obtain ⟨op, hop, hoa, hal⟩ := he.opAt_eq
    obtain ⟨m, hm⟩ : ∃ k, e.sequenceNumber = k + 1 := ⟨e.sequenceNumber - 1, by have := opAt_lt hop; omega⟩
    rw [hm] at hop hal
    rw [blocksAfter, blocksFrom_of_last hop hoa, Nat.add_comm 1 m, hal]
    intro j op' hj hop' ha'
    have hjn : j < history.length := (List.getElem?_eq_some_iff.mp hop').1
    have := he.committed_le (j + 1) (by omega) op' hop' ha'
    omega

/-- Nothing waits, and what is live is what is in the table. -/
theorem HeapInv.tableWeight_live (hs : HeapInv maps history delivered s)
    (hall : ∀ i, i ∈ delivered ↔ 1 ≤ i ∧ i ≤ history.length) (node : Node Frame) (counter : Counter) :
    tableWeight history (isLiveAt s.committedSequenceNumber node) counter s.allocations =
      liveWeight maps history node counter := by
  refine Finset.sum_congr rfl fun a _ => ?_
  rw [← hs.allocations_eq hall]
  cases ha : s.allocations a with
  | none => rfl
  | some e =>
    obtain ⟨op, hop, -⟩ := (hs.table.entry a e ha).opAt_eq
    have hle : e.sequenceNumber ≤ s.committedSequenceNumber := by
      rw [hs.committed_eq hall]
      exact (opAt_lt hop).2
    simp only [weightIf, isLiveAt, hle, and_true]

/-! ### Sums over what is delivered -/

theorem deliveredWeight_append (l l' : List ℕ) (node : Node Frame) (counter : Counter) :
    deliveredWeight maps history (l ++ l') node counter =
      deliveredWeight maps history l node counter + deliveredWeight maps history l' node counter := by
  rw [deliveredWeight, List.map_append, List.sum_append]
  rfl

theorem deliveredWeight_perm {l l' : List ℕ} (h : l.Perm l') (node : Node Frame) (counter : Counter) :
    deliveredWeight maps history l node counter = deliveredWeight maps history l' node counter :=
  (h.map _).sum_eq

theorem deliveredWeight_count_le (l : List ℕ) (node : Node Frame) :
    deliveredWeight maps history l node .count ≤ l.length := by
  have hone : ∀ x : Option (Allocation Frame), weightIf (fun e => e.node = node) .count x ≤ 1 := by
    rintro (_ | e)
    · exact Nat.zero_le 1
    · rw [weightIf]
      split
      · exact le_rfl
      · exact Nat.zero_le 1
  induction l with
  | nil => exact le_rfl
  | cons i l ih =>
    have h := hone ((opAt history i).bind (maps.allocation i))
    have hcons : deliveredWeight maps history (i :: l) node .count =
        weightIf (fun e => e.node = node) .count ((opAt history i).bind (maps.allocation i)) +
          deliveredWeight maps history l node .count := List.sum_cons
    rw [hcons, List.length_cons]
    omega

theorem mallocWeight_count_le (node : Node Frame) : mallocWeight maps history node .count ≤ history.length := by
  have h : deliveredWeight maps history (List.range' 1 history.length) node .count ≤ _ :=
    deliveredWeight_count_le (List.range' 1 history.length) node
  rwa [List.length_range'] at h

/-- Where the weights of the mallocs fit, nothing has wrapped. -/
theorem HeapInv.added_eq (hs : HeapInv maps history delivered s) (node : Node Frame) (counter : Counter)
    (hle : deliveredWeight maps history delivered node counter ≤ mallocWeight maps history node counter)
    (hlt : mallocWeight maps history node counter < 2 ^ 64) :
    counter.added (s.totals node) = counter.freed (s.totals node) +
      tableWeight history (isLiveAt s.committedSequenceNumber node) counter s.allocations :=
  (hs.table.balanced node counter).eq_of_lt (by omega)

theorem HeapInv.holdsHistory (hlen : history.length < 2 ^ 64) (hs : HeapInv maps history delivered s)
    (hperm : delivered.Perm (List.range' 1 history.length)) : HoldsHistory maps history s := by
  have hall : ∀ i, i ∈ delivered ↔ 1 ≤ i ∧ i ≤ history.length := by
    intro i
    rw [hperm.mem_iff, List.mem_range'_1]
    omega
  have hle : ∀ (node : Node Frame) (counter : Counter),
      deliveredWeight maps history delivered node counter ≤ mallocWeight maps history node counter :=
    fun node counter => (deliveredWeight_perm hperm node counter).le
  refine ⟨?_, hs.allocations_eq hall, ?_, ?_, ?_⟩
  · apply List.eq_nil_iff_forall_not_mem.mpr
    rintro ⟨i, o⟩ hmem
    obtain ⟨h1, h2, -⟩ := (hs.pending.mem i o).mp hmem
    have h3 := (hall i).mp h1
    have h4 := hs.committed_eq hall
    omega
  · intro node
    have h := (hs.table.balanced node .size).modEq
    rwa [hs.tableWeight_live hall] at h
  · intro node hlt
    have h := hs.added_eq node .size (hle node _) hlt
    rwa [hs.tableWeight_live hall] at h
  · intro node
    have h := hs.added_eq node .count (hle node _) ((mallocWeight_count_le node).trans_lt hlen)
    rwa [hs.tableWeight_live hall] at h

/-- Whatever the order, the tracker holds the history at the end, and no free overtakes the counters on the way. -/
theorem deliverAll_history (maps : Maps Loc BuildId Frame) (history : List Operation)
    (hlen : history.length < 2 ^ 64) (order : List ℕ) (hperm : order.Perm (List.range' 1 history.length)) :
    (∃ s, (HeapTracker.init false).deliverAll maps history order = some s ∧ HoldsHistory maps history s) ∧
      ∀ arrived, arrived <+: order →
        ∃ s, (HeapTracker.init false).deliverAll maps history arrived = some s ∧ FreedLe maps history s := by
  have hnodup : order.Nodup := hperm.nodup_iff.mpr List.nodup_range'
  have hops : ∀ i ∈ order, ∃ op, opAt history i = some op := by
    intro i hi
    have h := List.mem_range'_1.mp (hperm.mem_iff.mp hi)
    exact exists_opAt h.1 (by omega)
  constructor
  · obtain ⟨s, h1, hs⟩ := (HeapInv.init : HeapInv maps history [] _).deliverAll hlen
      (by rwa [List.append_nil]) (by rwa [List.append_nil])
    rw [List.append_nil] at hs
    exact ⟨s, h1, hs.holdsHistory hlen ((List.reverse_perm order).trans hperm)⟩
  · rintro arrived ⟨rest, rfl⟩
    obtain ⟨s, h1, hs⟩ := (HeapInv.init : HeapInv maps history [] _).deliverAll hlen
      (fun i hi => hops i (List.mem_append_left _ (by rwa [List.append_nil] at hi)))
      (by rw [List.append_nil]; exact (List.nodup_append.mp hnodup).1)
    rw [List.append_nil] at hs
    have hle : ∀ (node : Node Frame) (counter : Counter),
        deliveredWeight maps history arrived.reverse node counter ≤ mallocWeight maps history node counter := by
      intro node counter
      have h2 : deliveredWeight maps history (arrived ++ rest) node counter = _ :=
        deliveredWeight_append arrived rest node counter
      rw [deliveredWeight_perm (List.reverse_perm arrived), mallocWeight, ← deliveredWeight_perm hperm]
      omega
    refine ⟨s, h1, ?_, ?_⟩
    · intro node
      exact Nat.le.intro (hs.added_eq node .count (hle node _) ((mallocWeight_count_le node).trans_lt hlen)).symm
    · intro node hlt
      exact Nat.le.intro (hs.added_eq node .size (hle node _) hlt).symm

/-- Frames that are their pcs. -/
def pcMaps : Maps Unit Unit ℕ where
  frameAt _ := ((), ())
  internCodeLocation frame _ := frame.pc

/-- A malloc overtakes the malloc and the free of the block before it. -/
theorem deliverAll_history_overtaking :
    (∃ s, (HeapTracker.init false).deliverAll pcMaps [.malloc [7] 16 8 8 1, .free 16 2, .malloc [9] 16 4 4 3]
        [3, 1, 2] = some s ∧
      HoldsHistory pcMaps [.malloc [7] 16 8 8 1, .free 16 2, .malloc [9] 16 4 4 3] s) ∧
      ∀ arrived, arrived <+: [3, 1, 2] →
        ∃ s, (HeapTracker.init false).deliverAll pcMaps
            [.malloc [7] 16 8 8 1, .free 16 2, .malloc [9] 16 4 4 3] arrived = some s ∧
          FreedLe pcMaps [.malloc [7] 16 8 8 1, .free 16 2, .malloc [9] 16 4 4 3] s :=
  deliverAll_history pcMaps [.malloc [7] 16 8 8 1, .free 16 2, .malloc [9] 16 4 4 3] (by decide) [3, 1, 2]
    (by decide)

/-- Two blocks of 2^63 bytes, one after the other: the counter of the bytes allocated wraps. -/
def wrappingHistory : List Operation :=
  [.malloc [7] 16 (2 ^ 63) (2 ^ 63) 1, .free 16 2, .malloc [7] 16 (2 ^ 63) (2 ^ 63) 3]

theorem not_heapHistory_wrapped :
    ¬ ∀ (history : List Operation) (order : List ℕ), history.length < 2 ^ 64 →
      order.Perm (List.range' 1 history.length) → ∀ arrived, arrived <+: order →
        ∃ s, (HeapTracker.init false).deliverAll pcMaps history arrived = some s ∧
          ∀ node, (s.totals node).freed ≤ (s.totals node).allocated := by
  intro h
  obtain ⟨s, h1, h2⟩ := h wrappingHistory [1, 2, 3] (by decide) (List.Perm.refl _) _ List.prefix_rfl
  have htotals : (((HeapTracker.init false).deliverAll pcMaps wrappingHistory [1, 2, 3]).map
      fun s => s.totals [7]) = some ⟨0, 2 ^ 63, 2, 1⟩ := by decide +kernel
  rw [h1, Option.map_some, Option.some.injEq] at htotals
  have h3 := h2 [7]
  rw [htotals] at h3
  exact absurd h3 (by decide)

end HeapTracker

end LynxTrace.Profiling
