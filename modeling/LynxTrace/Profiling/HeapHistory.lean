import LynxTrace.Profiling.HeapTracker
import Mathlib.Algebra.Order.BigOperators.Group.Finset
import Mathlib.Data.Nat.ModEq

/-!
# Profiling.HeapHistory — what a heap tracker holds of a history

A history is the list of the operations of a process, numbered from 1.  `blocksAfter` is its meaning: the blocks that
are live at its end.  `TableInv` says what the tracker holds of it when the operations of a set `delivered` have
arrived, in whatever order, and those up to `committedSequenceNumber` are committed.
-/

namespace LynxTrace.Profiling

variable {Loc BuildId Frame : Type*}

/-! ### Histories -/

/-- What the client reports; a callstack is given by its pcs. -/
inductive Operation
  | malloc (callstack : List ℕ) (address sampleSize allocSize timestamp : ℕ)
  | free (address timestamp : ℕ)
  deriving DecidableEq, Repr

namespace Operation

def address : Operation → ℕ
  | malloc _ address _ _ _ => address
  | free address _ => address

def isMalloc : Operation → Bool
  | malloc .. => true
  | free .. => false

/-- What `RecordOperation` is called with. -/
def pending : Operation → PendingOperation
  | malloc _ address _ _ timestamp => ⟨address, timestamp⟩
  | free address timestamp => ⟨address, timestamp⟩

theorem pending_address (op : Operation) : op.pending.allocationAddress = op.address := by
  cases op <;> rfl

end Operation

/-- The operation of this number. -/
def opAt (history : List Operation) : ℕ → Option Operation
  | 0 => none
  | i + 1 => history[i]?

/-- The maps of the process: what unwinding finds at a pc, and how it is interned. -/
structure Maps (Loc BuildId Frame : Type*) where
  frameAt : ℕ → Loc × BuildId
  internCodeLocation : FrameData Loc → BuildId → Frame

namespace Maps

variable (maps : Maps Loc BuildId Frame)

def frameData (pc : ℕ) : FrameData Loc := ⟨pc, (maps.frameAt pc).1⟩

def buildId (pc : ℕ) : BuildId := (maps.frameAt pc).2

def frame (pc : ℕ) : Frame := maps.internCodeLocation (maps.frameData pc) (maps.buildId pc)

def node (callstack : List ℕ) : Node Frame := callstack.map maps.frame

/-- The entry that a malloc leaves in `allocations_`. -/
def allocation (i : ℕ) : Operation → Option (Allocation Frame)
  | .malloc callstack _ sampleSize allocSize _ => some ⟨sampleSize, allocSize, i, maps.node callstack⟩
  | .free .. => none

end Maps

/-- The blocks that are live after a history, numbered from `i` on, that starts with the blocks `blocks`. -/
def blocksFrom (maps : Maps Loc BuildId Frame) (i : ℕ) (blocks : ℕ → Option (Allocation Frame)) :
    List Operation → ℕ → Option (Allocation Frame)
  | [] => blocks
  | op :: history => blocksFrom maps (i + 1) (Function.update blocks op.address (maps.allocation i op)) history

/-- The blocks that are live after the history, as their last malloc has made them. -/
def blocksAfter (maps : Maps Loc BuildId Frame) (history : List Operation) : ℕ → Option (Allocation Frame) :=
  blocksFrom maps 1 (fun _ => none) history

/-- The tracker takes in the operation of this number. -/
def HeapTracker.deliver [DecidableEq Frame] (maps : Maps Loc BuildId Frame) (s : HeapTracker Frame) (i : ℕ) :
    Operation → Option (HeapTracker Frame)
  | .malloc callstack address sampleSize allocSize timestamp =>
    s.recordMalloc maps.internCodeLocation (callstack.map maps.frameData) (callstack.map maps.buildId) address
      sampleSize allocSize i timestamp
  | .free address timestamp => some (s.recordFree address i timestamp)

/-- The operations of these numbers arrive in this order; `none` if there is no such operation. -/
def HeapTracker.deliverAll [DecidableEq Frame] (maps : Maps Loc BuildId Frame) (history : List Operation) :
    HeapTracker Frame → List ℕ → Option (HeapTracker Frame)
  | s, [] => some s
  | s, i :: order =>
    match opAt history i with
    | none => none
    | some op => (s.deliver maps i op).bind fun s' => HeapTracker.deliverAll maps history s' order

section History

variable {maps : Maps Loc BuildId Frame} {history : List Operation}

theorem opAt_lt {i : ℕ} {op : Operation} (h : opAt history i = some op) : 1 ≤ i ∧ i ≤ history.length := by
  cases i with
  | zero => cases h
  | succ i =>
    have := (List.getElem?_eq_some_iff.mp h).1
    omega

theorem exists_opAt {i : ℕ} (h1 : 1 ≤ i) (h2 : i ≤ history.length) : ∃ op, opAt history i = some op := by
  obtain ⟨i, rfl⟩ : ∃ j, i = j + 1 := ⟨i - 1, by omega⟩
  exact ⟨_, List.getElem?_eq_getElem (show i < history.length by omega)⟩

theorem Maps.allocation_seq {i : ℕ} {op : Operation} {e : Allocation Frame} (h : maps.allocation i op = some e) :
    e.sequenceNumber = i := by
  cases op with
  | malloc => obtain rfl := Option.some.inj h; rfl
  | free => cases h

/-- After the last operation at an address, what it has left there stays. -/
theorem blocksFrom_of_last {k i : ℕ} {blocks : ℕ → Option (Allocation Frame)} {op : Operation} {a : ℕ}
    (hop : history[i]? = some op) (ha : op.address = a)
    (hlast : ∀ j op', i < j → history[j]? = some op' → op'.address ≠ a) :
    blocksFrom maps k blocks history a = maps.allocation (k + i) op := by
  have hno : ∀ (rest : List Operation) (k : ℕ) (blocks : ℕ → Option (Allocation Frame)),
      (∀ op' ∈ rest, op'.address ≠ a) → blocksFrom maps k blocks rest a = blocks a := by
    intro rest
    induction rest with
    | nil => exact fun _ _ _ => rfl
    | cons op' rest ih =>
      intro k blocks h
      rw [blocksFrom, ih _ _ fun o ho => h o (List.mem_cons_of_mem _ ho),
        Function.update_of_ne (h op' List.mem_cons_self).symm]
  induction history generalizing k i blocks with
  | nil => cases hop
  | cons op' history ih =>
    cases i with
    | zero =>
      obtain rfl := Option.some.inj hop
      rw [blocksFrom, hno, ← ha, Function.update_self]
      · rfl
      · intro o ho
        obtain ⟨j, hj⟩ := List.mem_iff_getElem?.mp ho
        exact hlast (j + 1) o (Nat.succ_pos j) hj
    | succ i =>
      rw [blocksFrom, ih hop fun j o hj ho => hlast (j + 1) o (by omega) ho]
      congr 1
      omega

theorem blocksFrom_concat (k : ℕ) (blocks : ℕ → Option (Allocation Frame)) (history : List Operation)
    (op : Operation) : blocksFrom maps k blocks (history ++ [op]) =
      Function.update (blocksFrom maps k blocks history) op.address (maps.allocation (k + history.length) op) := by
  induction history generalizing k blocks with
  | nil => rfl
  | cons o history ih =>
    rw [List.cons_append, blocksFrom, ih, blocksFrom, List.length_cons, show k + 1 + history.length =
      k + (history.length + 1) by omega]

/-- Where every malloc has a later operation at its address, nothing is left. -/
theorem blocksFrom_eq_none {k a : ℕ}
    (h : ∀ (i : ℕ) (op : Operation), history[i]? = some op → op.isMalloc → op.address = a →
      ∃ (j : ℕ) (op' : Operation), i < j ∧ history[j]? = some op' ∧ op'.address = a) :
    blocksFrom maps k (fun _ => none) history a = none := by
  induction history using List.reverseRecOn with
  | nil => rfl
  | append_singleton history op ih =>
    have hend : (history ++ [op])[history.length]? = some op := List.getElem?_concat_length
    have hlt : ∀ {j : ℕ} {o : Operation}, (history ++ [op])[j]? = some o → j ≤ history.length := by
      intro j o ho
      have := (List.getElem?_eq_some_iff.mp ho).1
      rw [List.length_append, List.length_singleton] at this
      omega
    rw [blocksFrom_concat]
    by_cases ha : op.address = a
    · rw [ha, Function.update_self]
      cases op with
      | free => rfl
      | malloc =>
        obtain ⟨j, op', h1, h2, -⟩ := h _ _ hend rfl ha
        have := hlt h2
        omega
    · rw [Function.update_of_ne (Ne.symm ha)]
      apply ih
      intro i o ho hm hoa
      have hi : i < history.length := (List.getElem?_eq_some_iff.mp ho).1
      obtain ⟨j, op', h1, h2, h3⟩ := h i o (by rwa [List.getElem?_append_left hi]) hm hoa
      have hj : j < history.length := by
        refine Nat.lt_of_le_of_ne (hlt h2) ?_
        rintro rfl
        rw [hend] at h2
        exact ha (Option.some.inj h2 ▸ h3)
      exact ⟨j, op', h1, by rwa [List.getElem?_append_left hj] at h2, h3⟩

/-! ### Counters -/

/-- The counters `added` and `freed`, of 64 bits, stand for sums that differ by what is `live`; what has been added and
what waits to be makes up a part of what was `delivered`. -/
def Balanced (added freed live waiting delivered : ℕ) : Prop :=
  ∃ A F, added = A % 2 ^ 64 ∧ freed = F % 2 ^ 64 ∧ A = F + live ∧ A + waiting ≤ delivered

namespace Balanced

variable {added freed live waiting delivered w : ℕ}

theorem zero : Balanced 0 0 0 0 0 := ⟨0, 0, rfl, rfl, rfl, le_rfl⟩

theorem add (h : Balanced added freed live (waiting + w) delivered) :
    Balanced (HeapTracker.add64 added w) freed (live + w) waiting delivered := by
  obtain ⟨A, F, rfl, rfl, h1, h2⟩ := h
  exact ⟨A + w, F, by rw [HeapTracker.add64, Nat.mod_add_mod], rfl, by omega, by omega⟩

theorem sub (h : Balanced added freed (live + w) waiting delivered) :
    Balanced added (HeapTracker.add64 freed w) live waiting delivered := by
  obtain ⟨A, F, rfl, rfl, h1, h2⟩ := h
  exact ⟨A, F + w, rfl, by rw [HeapTracker.add64, Nat.mod_add_mod], by omega, h2⟩

theorem deliver {v : ℕ} (h : Balanced added freed live waiting delivered) (hv : v ≤ w) :
    Balanced added freed live (waiting + v) (delivered + w) := by
  obtain ⟨A, F, h1, h2, h3, h4⟩ := h
  exact ⟨A, F, h1, h2, h3, by omega⟩

/-- Nothing wraps, if all that was delivered fits. -/
theorem eq_of_lt (h : Balanced added freed live waiting delivered) (hlt : delivered < 2 ^ 64) :
    added = freed + live := by
  obtain ⟨A, F, rfl, rfl, h1, h2⟩ := h
  rw [Nat.mod_eq_of_lt (show A < 2 ^ 64 by omega), Nat.mod_eq_of_lt (show F < 2 ^ 64 by omega), h1]

theorem modEq (h : Balanced added freed live waiting delivered) : added ≡ freed + live [MOD 2 ^ 64] := by
  obtain ⟨A, F, rfl, rfl, h1, -⟩ := h
  rw [Nat.ModEq, Nat.mod_mod, h1, Nat.mod_add_mod]

end Balanced

/-- Two sums that differ at one place. -/
theorem sum_add_eq {S : Finset ℕ} {f g : ℕ → ℕ} {a : ℕ} (ha : a ∈ S) (h : ∀ b, b ≠ a → f b = g b) :
    ∑ b ∈ S, f b + g a = ∑ b ∈ S, g b + f a := by
  have h1 : ∑ b ∈ S.erase a, f b = ∑ b ∈ S.erase a, g b :=
    Finset.sum_congr rfl fun b hb => h b (Finset.ne_of_mem_erase hb)
  rw [← Finset.add_sum_erase S f ha, ← Finset.add_sum_erase S g ha, h1]
  omega

end History

/-- The two pairs of counters of a callstack: bytes, and blocks. -/
inductive Counter
  | size
  | count

namespace Counter

def weight : Counter → Allocation Frame → ℕ
  | size, e => e.sampleSize
  | count, _ => 1

def added : Counter → CallstackTotalAllocations → ℕ
  | size, c => c.allocated
  | count, c => c.allocationCount

def freed : Counter → CallstackTotalAllocations → ℕ
  | size, c => c.freed
  | count, c => c.freeCount

end Counter

section Table

variable [DecidableEq Frame]

/-- The weight of an entry, if it is there and of the kind. -/
def weightIf (kind : Allocation Frame → Bool) (counter : Counter) : Option (Allocation Frame) → ℕ
  | none => 0
  | some e => if kind e then counter.weight e else 0

/-- A committed entry of the callstack. -/
def isLiveAt (c : ℕ) (node : Node Frame) (e : Allocation Frame) : Bool := e.node = node ∧ e.sequenceNumber ≤ c

/-- An entry of the callstack that is not committed. -/
def isWaitingAt (c : ℕ) (node : Node Frame) (e : Allocation Frame) : Bool := e.node = node ∧ c < e.sequenceNumber

def addresses (history : List Operation) : Finset ℕ := (history.map Operation.address).toFinset

/-- The weight of the entries of this kind. -/
def tableWeight (history : List Operation) (kind : Allocation Frame → Bool) (counter : Counter)
    (allocations : ℕ → Option (Allocation Frame)) : ℕ :=
  ∑ a ∈ addresses history, weightIf kind counter (allocations a)

/-- The weight of the mallocs of the callstack among these operations. -/
def deliveredWeight (maps : Maps Loc BuildId Frame) (history : List Operation) (delivered : List ℕ)
    (node : Node Frame) (counter : Counter) : ℕ :=
  (delivered.map fun i => weightIf (fun e => e.node = node) counter ((opAt history i).bind (maps.allocation i))).sum

namespace HeapTracker

/-- The counters of the callstack; a callstack without `CallstackAllocations` has counted nothing. -/
def totals (s : HeapTracker Frame) (node : Node Frame) : CallstackTotalAllocations :=
  ((s.callstackAllocations node).map (·.totals)).getD ⟨0, 0, 0, 0⟩

/-- The entry is the one that an operation at the address has made, and none of the mallocs delivered or operations
committed at the address is newer. -/
structure IsNewest (maps : Maps Loc BuildId Frame) (history : List Operation) (delivered : List ℕ) (c a : ℕ)
    (e : Allocation Frame) : Prop where
  mem : e.sequenceNumber ∈ delivered
  opAt_eq : ∃ op, opAt history e.sequenceNumber = some op ∧ op.address = a ∧
    maps.allocation e.sequenceNumber op = some e
  malloc_le : ∀ m ∈ delivered, ∀ op, opAt history m = some op → op.isMalloc → op.address = a → m ≤ e.sequenceNumber
  committed_le : ∀ j ≤ c, ∀ op, opAt history j = some op → op.address = a → j ≤ e.sequenceNumber

structure TableInv (maps : Maps Loc BuildId Frame) (history : List Operation) (delivered : List ℕ)
    (s : HeapTracker Frame) : Prop where
  mode : s.dumpAtMaxMode = false
  frameCache : ∀ pc f, s.frameCache pc = some f → f = maps.frame pc
  committed : ∀ i, 1 ≤ i → i ≤ s.committedSequenceNumber → i ∈ delivered
  entry : ∀ a e, s.allocations a = some e → IsNewest maps history delivered s.committedSequenceNumber a e
  hasCallstack : ∀ a e, s.allocations a = some e → (s.callstackAllocations e.node).isSome
  noEntry : ∀ a, s.allocations a = none → ∀ m ∈ delivered, ∀ op, opAt history m = some op → op.isMalloc →
    op.address = a → ∃ j op', m < j ∧ j ≤ s.committedSequenceNumber ∧ opAt history j = some op' ∧ op'.address = a
  balanced : ∀ (node : Node Frame) (counter : Counter), Balanced (counter.added (s.totals node))
    (counter.freed (s.totals node))
    (tableWeight history (isLiveAt s.committedSequenceNumber node) counter s.allocations)
    (tableWeight history (isWaitingAt s.committedSequenceNumber node) counter s.allocations)
    (deliveredWeight maps history delivered node counter)

variable {maps : Maps Loc BuildId Frame} {history : List Operation} {delivered : List ℕ} {s : HeapTracker Frame}

theorem mem_addresses {i : ℕ} {op : Operation} (h : opAt history i = some op) : op.address ∈ addresses history := by
  cases i with
  | zero => cases h
  | succ i => exact List.mem_toFinset.mpr (List.mem_map_of_mem (List.mem_of_getElem? h))

/-! ### What the parts of an operation change -/

/-- Nothing but the counters of callstacks differs, and none is gone. -/
structure SameTable (s s' : HeapTracker Frame) : Prop where
  mode : s'.dumpAtMaxMode = s.dumpAtMaxMode
  frameCache : s'.frameCache = s.frameCache
  committed : s'.committedSequenceNumber = s.committedSequenceNumber
  allocations : s'.allocations = s.allocations
  pending : s'.pendingOperations = s.pendingOperations
  hasCallstack : ∀ node, (s.callstackAllocations node).isSome → (s'.callstackAllocations node).isSome

omit [DecidableEq Frame] in
theorem SameTable.trans {s s' s'' : HeapTracker Frame} (h : SameTable s s') (h' : SameTable s' s'') :
    SameTable s s'' :=
  ⟨h'.mode.trans h.mode, h'.frameCache.trans h.frameCache, h'.committed.trans h.committed,
    h'.allocations.trans h.allocations, h'.pending.trans h.pending, fun n hn => h'.hasCallstack n (h.hasCallstack n hn)⟩

theorem sameTable_modifyCallstack (s : HeapTracker Frame) (node : Node Frame)
    (f : CallstackAllocations → CallstackAllocations) : SameTable s (s.modifyCallstack node f) := by
  refine ⟨rfl, rfl, rfl, rfl, rfl, ?_⟩
  intro n hn
  simp only [modifyCallstack, Function.update_apply]
  split_ifs with h
  · rw [Option.isSome_map, ← h]
    exact hn
  · exact hn

theorem totals_modifyCallstack {node : Node Frame} {c : CallstackAllocations} (h : s.callstackAllocations node = some c)
    (f : CallstackAllocations → CallstackAllocations) (node' : Node Frame) :
    (s.modifyCallstack node f).totals node' = if node' = node then (f c).totals else s.totals node' := by
  unfold modifyCallstack totals
  by_cases hn : node' = node
  · subst hn
    simp [h]
  · simp [hn]

theorem sameTable_add (hmode : s.dumpAtMaxMode = false) (ts : ℕ) (e : Allocation Frame) :
    SameTable s (s.addToCallstackAllocations ts e) := by
  unfold addToCallstackAllocations
  rw [if_neg (by rw [hmode]; decide)]
  exact sameTable_modifyCallstack s _ _

/-- An entry that waited is counted as allocated. -/
theorem balanced_add (hmode : s.dumpAtMaxMode = false) {e : Allocation Frame}
    (hcs : (s.callstackAllocations e.node).isSome) (ts : ℕ) {node : Node Frame} {counter : Counter}
    {live waiting delivered : ℕ} (h : Balanced (counter.added (s.totals node)) (counter.freed (s.totals node)) live
      (waiting + weightIf (fun e => e.node = node) counter (some e)) delivered) :
    Balanced (counter.added ((s.addToCallstackAllocations ts e).totals node))
      (counter.freed ((s.addToCallstackAllocations ts e).totals node))
      (live + weightIf (fun e => e.node = node) counter (some e)) waiting delivered := by
  obtain ⟨c, hc⟩ := Option.isSome_iff_exists.mp hcs
  unfold addToCallstackAllocations
  rw [if_neg (by rw [hmode]; decide), totals_modifyCallstack hc]
  split_ifs with hn
  · subst hn
    simp only [weightIf, decide_true, if_true, totals, hc, Option.map_some, Option.getD_some] at h ⊢
    cases counter <;> exact h.add
  · simpa [weightIf, Ne.symm hn] using h

theorem sameTable_subtract (hmode : s.dumpAtMaxMode = false) (e : Allocation Frame) :
    SameTable s (s.subtractFromCallstackAllocations e) := by
  unfold subtractFromCallstackAllocations
  rw [if_neg (by rw [hmode]; decide)]
  exact sameTable_modifyCallstack s _ _

/-- A live entry is counted as freed. -/
theorem balanced_subtract (hmode : s.dumpAtMaxMode = false) {e : Allocation Frame}
    (hcs : (s.callstackAllocations e.node).isSome) {node : Node Frame} {counter : Counter}
    {live waiting delivered : ℕ} (h : Balanced (counter.added (s.totals node)) (counter.freed (s.totals node))
      (live + weightIf (fun e => e.node = node) counter (some e)) waiting delivered) :
    Balanced (counter.added ((s.subtractFromCallstackAllocations e).totals node))
      (counter.freed ((s.subtractFromCallstackAllocations e).totals node)) live waiting delivered := by
  obtain ⟨c, hc⟩ := Option.isSome_iff_exists.mp hcs
  unfold subtractFromCallstackAllocations
  rw [if_neg (by rw [hmode]; decide), totals_modifyCallstack hc]
  split_ifs with hn
  · subst hn
    simp only [weightIf, decide_true, if_true, totals, hc, Option.map_some, Option.getD_some] at h
    cases counter <;> exact h.sub
  · simpa [weightIf, Ne.symm hn] using h

/-- An entry counts as live from its commit on. -/
theorem weightIf_isLiveAt (c : ℕ) (node : Node Frame) (counter : Counter) (e : Allocation Frame) :
    weightIf (isLiveAt c node) counter (some e) =
      if e.sequenceNumber ≤ c then weightIf (fun e => e.node = node) counter (some e) else 0 := by
  by_cases hseq : e.sequenceNumber ≤ c <;> simp [weightIf, isLiveAt, hseq]

theorem weightIf_isWaitingAt (c : ℕ) (node : Node Frame) (counter : Counter) (e : Allocation Frame) :
    weightIf (isWaitingAt c node) counter (some e) =
      if c < e.sequenceNumber then weightIf (fun e => e.node = node) counter (some e) else 0 := by
  by_cases hseq : c < e.sequenceNumber <;> simp [weightIf, isWaitingAt, hseq]

omit [DecidableEq Frame] in
theorem setAllocation_self (s : HeapTracker Frame) (a : ℕ) (e : Option (Allocation Frame)) :
    (s.setAllocation a e).allocations a = e := Function.update_self _ _ _

omit [DecidableEq Frame] in
theorem setAllocation_of_ne (s : HeapTracker Frame) {a b : ℕ} (h : b ≠ a) (e : Option (Allocation Frame)) :
    (s.setAllocation a e).allocations b = s.allocations b := Function.update_of_ne h _ _

omit [DecidableEq Frame] in
theorem totals_setAllocation (s : HeapTracker Frame) (a : ℕ) (e : Option (Allocation Frame)) (node : Node Frame) :
    (s.setAllocation a e).totals node = s.totals node := rfl

theorem sameTable_maybeCreate (s : HeapTracker Frame) (node : Node Frame) :
    SameTable s (s.maybeCreateCallstackAllocations node) := by
  refine ⟨rfl, rfl, rfl, rfl, rfl, ?_⟩
  intro n hn
  simp only [maybeCreateCallstackAllocations, Function.update_apply]
  split_ifs with h
  · rfl
  · exact hn

theorem totals_maybeCreate (s : HeapTracker Frame) (node node' : Node Frame) :
    (s.maybeCreateCallstackAllocations node).totals node' = s.totals node' := by
  unfold maybeCreateCallstackAllocations totals
  by_cases hn : node' = node
  · subst hn
    cases hc : s.callstackAllocations node' with
    | none => simp [CallstackAllocations.zero]
    | some c => simp
  · simp [hn]

theorem isSome_maybeCreate (s : HeapTracker Frame) (node : Node Frame) :
    ((s.maybeCreateCallstackAllocations node).callstackAllocations node).isSome := by
  simp [maybeCreateCallstackAllocations]

omit [DecidableEq Frame] in
/-- The weights of two tables that differ at one address. -/
theorem tableWeight_add (kind kind' : Allocation Frame → Bool) {al al' : ℕ → Option (Allocation Frame)} {a : ℕ}
    (ha : a ∈ addresses history) (counter : Counter) (h : ∀ b, b ≠ a → al' b = al b)
    (hkind : ∀ b e, b ≠ a → al b = some e → kind' e = kind e) :
    tableWeight history kind' counter al' + weightIf kind counter (al a) =
      tableWeight history kind counter al + weightIf kind' counter (al' a) := by
  apply sum_add_eq ha
  intro b hb
  rw [h b hb]
  cases hal : al b with
  | none => rfl
  | some e => rw [weightIf, weightIf, hkind b e hb hal]

end HeapTracker

end Table

end LynxTrace.Profiling
