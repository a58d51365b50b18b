import LynxTrace.Profiling.HeapOrder

/-!
# Profiling.DumpAtMax — the counters of a heap tracker that dumps at the maximum

With `dump_at_max_mode_` a callstack has its bytes and blocks now (`cur`) and those at the maximum (`max`).  An
`Update` is one call of `AddToCallstackAllocations` or `SubtractFromCallstackAllocations`; `Moment` is the heap that it
leaves.
-/

namespace LynxTrace.Profiling

variable {Loc BuildId Frame : Type*}

/-- The heap after an update, by callstacks. -/
structure Moment (Frame : Type*) where
  unfreed : ℕ
  cur : Node Frame → ℕ
  curCount : Node Frame → ℕ

/-- An update: the state before it, the allocation if it is an addition, and the heap after it. -/
structure Update (Frame : Type*) where
  before : HeapTracker Frame
  added : Option (Allocation Frame)
  after : Moment Frame

/-- The callstacks of the mallocs of a history. -/
def callstacks [DecidableEq Frame] (maps : Maps Loc BuildId Frame) (history : List Operation) : Finset (Node Frame) :=
  (history.filterMap fun
    | .malloc callstack _ _ _ _ => some (maps.node callstack)
    | .free _ _ => none).toFinset

namespace HeapTracker

/-- The counters of the callstack in this mode. -/
def retainMax (s : HeapTracker Frame) (node : Node Frame) : CallstackMaxAllocations :=
  ((s.callstackAllocations node).map (·.retainMax)).getD ⟨0, 0, 0, 0⟩

def moment (s : HeapTracker Frame) : Moment Frame :=
  ⟨s.currentUnfreed, fun node => (s.retainMax node).cur, fun node => (s.retainMax node).curCount⟩

variable [DecidableEq Frame]

/-! ### The updates of an operation -/

def commitUpdates (s : HeapTracker Frame) (sequenceNumber : ℕ) (operation : PendingOperation) : List (Update Frame) :=
  match s.allocations operation.allocationAddress with
  | none => []
  | some value =>
    let after := (s.commitOperation sequenceNumber operation).moment
    let s := s.advanceCommitted operation.timestamp
    if value.sequenceNumber = sequenceNumber then [⟨s, some value, after⟩]
    else if value.sequenceNumber < sequenceNumber then [⟨s, none, after⟩]
    else []

def pendingUpdates (s : HeapTracker Frame) : List (ℕ × PendingOperation) → List (Update Frame)
  | [] => []
  | (sequenceNumber, operation) :: pending =>
    if sequenceNumber = add64 s.committedSequenceNumber 1 then
      s.commitUpdates sequenceNumber operation ++ pendingUpdates (s.commitOperation sequenceNumber operation) pending
    else []

def recordOperationUpdates (s : HeapTracker Frame) (sequenceNumber : ℕ) (operation : PendingOperation) :
    List (Update Frame) :=
  if sequenceNumber ≠ add64 s.committedSequenceNumber 1 then []
  else s.commitUpdates sequenceNumber operation ++
    pendingUpdates (s.commitOperation sequenceNumber operation) s.pendingOperations

def recordAllocationUpdates (s : HeapTracker Frame) (node : Node Frame) (address sampleSize allocSize sequenceNumber
    timestamp : ℕ) : List (Update Frame) :=
  match s.allocations address with
  | some alloc =>
    if alloc.sequenceNumber < sequenceNumber then
      let added :=
        if s.committedSequenceNumber < alloc.sequenceNumber then
          [⟨s, some alloc, (s.addToCallstackAllocations timestamp alloc).moment⟩]
        else []
      added ++ [⟨s, none, (s.recordAllocation node address sampleSize allocSize sequenceNumber timestamp).moment⟩]
    else []
  | none => []

/-- The updates while an operation is taken in. -/
def deliverUpdates (maps : Maps Loc BuildId Frame) (s : HeapTracker Frame) (i : ℕ) : Operation → List (Update Frame)
  | .malloc callstack address sampleSize allocSize timestamp =>
    let r := internFrames maps.internCodeLocation s.frameCache
      ((callstack.map maps.frameData).zip (callstack.map maps.buildId))
    let s := { s with frameCache := r.1 }
    s.recordAllocationUpdates r.2 address sampleSize allocSize i timestamp ++
      (s.recordAllocation r.2 address sampleSize allocSize i timestamp).recordOperationUpdates i ⟨address, timestamp⟩
  | .free address timestamp => s.recordOperationUpdates i ⟨address, timestamp⟩

/-- The updates while the operations of these numbers arrive. -/
def updates (maps : Maps Loc BuildId Frame) (history : List Operation) :
    HeapTracker Frame → List ℕ → List (Update Frame)
  | _, [] => []
  | s, i :: order =>
    match opAt history i with
    | none => []
    | some op =>
      s.deliverUpdates maps i op ++
        match s.deliver maps i op with
        | none => []
        | some s' => updates maps history s' order

/-- Adding the allocation does not wrap, and if it makes a new maximum and only looks at its own callstack, then no
other callstack has changed since the last maximum. -/
def AddsToMax (s : HeapTracker Frame) (alloc : Allocation Frame) : Prop :=
  s.currentUnfreed + alloc.sampleSize < 2 ^ 64 ∧
    (s.maxUnfreed < s.currentUnfreed + alloc.sampleSize → s.maxSequenceNumber = sub64 alloc.sequenceNumber 1 →
      ∀ node, node ≠ alloc.node → (s.retainMax node).max = (s.retainMax node).cur ∧
        (s.retainMax node).maxCount = (s.retainMax node).curCount)

end HeapTracker

/-- The branch that goes wrong is not taken. -/
def Update.Sound [DecidableEq Frame] (u : Update Frame) : Prop :=
  ∀ alloc, u.added = some alloc → u.before.AddsToMax alloc

namespace HeapTracker

variable [DecidableEq Frame] {s : HeapTracker Frame}

/-! ### What an update changes -/

variable {node : Node Frame}

theorem retainMax_modifyCallstack {c : CallstackAllocations} (h : s.callstackAllocations node = some c)
    (f : CallstackAllocations → CallstackAllocations) (node' : Node Frame) :
    (s.modifyCallstack node f).retainMax node' = if node' = node then (f c).retainMax else s.retainMax node' := by
  unfold modifyCallstack retainMax
  by_cases hn : node' = node
  · subst hn
    simp [h]
  · simp [hn]

theorem retainMax_maybeCreate (s : HeapTracker Frame) (node node' : Node Frame) :
    (s.maybeCreateCallstackAllocations node).retainMax node' = s.retainMax node' := by
  unfold maybeCreateCallstackAllocations retainMax
  by_cases hn : node' = node
  · subst hn
    cases hc : s.callstackAllocations node' with
    | none => simp [CallstackAllocations.zero]
    | some c => simp
  · simp [hn]

omit [DecidableEq Frame] in
theorem sameTable_currentUnfreed (s : HeapTracker Frame) (unfreed : ℕ) :
    SameTable s { s with currentUnfreed := unfreed } :=
  ⟨rfl, rfl, rfl, rfl, rfl, fun _ h => h⟩

/-- The counters of a callstack with other bytes and blocks now. -/
def withCur (c : CallstackMaxAllocations) (cur curCount : ℕ) : CallstackMaxAllocations :=
  { c with
    cur := cur
    curCount := curCount }

theorem withCur_cur (c : CallstackMaxAllocations) (cur curCount : ℕ) : (withCur c cur curCount).cur = cur := rfl

theorem withCur_max (c : CallstackMaxAllocations) (cur curCount : ℕ) :
    (withCur c cur curCount).max = c.max ∧ (withCur c cur curCount).maxCount = c.maxCount := ⟨rfl, rfl⟩

/-- The counters of a callstack that a subtraction is counted at. -/
def lowered (c : CallstackMaxAllocations) (e : Allocation Frame) : CallstackMaxAllocations :=
  withCur c (sub64 c.cur e.sampleSize) (sub64 c.curCount 1)

/-- The counters of a callstack that an addition is counted at. -/
def raised (c : CallstackMaxAllocations) (e : Allocation Frame) : CallstackMaxAllocations :=
  withCur c (add64 c.cur e.sampleSize) (add64 c.curCount 1)

/-- What is now becomes the maximum. -/
def topped (c : CallstackMaxAllocations) : CallstackMaxAllocations := { c with max := c.cur, maxCount := c.curCount }

/-- The start of an addition. -/
def raise (s : HeapTracker Frame) (e : Allocation Frame) : HeapTracker Frame :=
  ({ s with currentUnfreed := add64 s.currentUnfreed e.sampleSize } : HeapTracker Frame).modifyCallstack e.node
    fun c => { c with retainMax := raised c.retainMax e }

theorem subtract_eq (hmode : s.dumpAtMaxMode = true) (e : Allocation Frame) :
    s.subtractFromCallstackAllocations e =
      ({ s with currentUnfreed := sub64 s.currentUnfreed e.sampleSize } : HeapTracker Frame).modifyCallstack e.node
        fun c => { c with retainMax := lowered c.retainMax e } := by
  unfold subtractFromCallstackAllocations
  rw [if_pos hmode]
  rfl

/-- The end of an addition that makes a new maximum. -/
def setMax (s : HeapTracker Frame) (seq ts : ℕ) : HeapTracker Frame :=
  { s with
    maxSequenceNumber := seq
    maxUnfreed := s.currentUnfreed
    maxTimestamp := ts }

def toppedCallstack (c : CallstackAllocations) : CallstackAllocations := { c with retainMax := topped c.retainMax }

def topAll (s : HeapTracker Frame) : HeapTracker Frame :=
  { s with callstackAllocations := fun node => (s.callstackAllocations node).map toppedCallstack }

theorem add_eq (hmode : s.dumpAtMaxMode = true) (ts : ℕ) (e : Allocation Frame) :
    s.addToCallstackAllocations ts e =
      if add64 s.currentUnfreed e.sampleSize ≤ s.maxUnfreed then s.raise e
      else setMax (if s.maxSequenceNumber = sub64 e.sequenceNumber 1 then
        (s.raise e).modifyCallstack e.node toppedCallstack else (s.raise e).topAll) e.sequenceNumber ts := by
  unfold addToCallstackAllocations
  rw [if_pos hmode]
  rfl

theorem sameTable_subtract_max (hmode : s.dumpAtMaxMode = true) (e : Allocation Frame) :
    SameTable s (s.subtractFromCallstackAllocations e) := by
  rw [subtract_eq hmode]
  exact (sameTable_currentUnfreed s _).trans (sameTable_modifyCallstack _ _ _)

theorem sameTable_raise (s : HeapTracker Frame) (e : Allocation Frame) : SameTable s (s.raise e) :=
  (sameTable_currentUnfreed s _).trans (sameTable_modifyCallstack _ _ _)

omit [DecidableEq Frame] in
theorem sameTable_setMax (s : HeapTracker Frame) (seq ts : ℕ) : SameTable s (s.setMax seq ts) :=
  ⟨rfl, rfl, rfl, rfl, rfl, fun _ h => h⟩

omit [DecidableEq Frame] in
theorem sameTable_topAll (s : HeapTracker Frame) : SameTable s s.topAll :=
  ⟨rfl, rfl, rfl, rfl, rfl, fun _ h => Option.isSome_map.trans h⟩

omit [DecidableEq Frame] in
theorem sameTable_ite {c : Prop} [Decidable c] {s₁ s₂ : HeapTracker Frame} (h₁ : SameTable s s₁)
    (h₂ : SameTable s s₂) : SameTable s (if c then s₁ else s₂) := by
  split_ifs
  · exact h₁
  · exact h₂

theorem sameTable_add_max (hmode : s.dumpAtMaxMode = true) (ts : ℕ) (e : Allocation Frame) :
    SameTable s (s.addToCallstackAllocations ts e) := by
  have h := sameTable_raise s e
  have htop := sameTable_ite (c := s.maxSequenceNumber = sub64 e.sequenceNumber 1)
    (h.trans (sameTable_modifyCallstack (s.raise e) e.node toppedCallstack)) (h.trans (sameTable_topAll (s.raise e)))
  rw [add_eq hmode]
  exact sameTable_ite h (htop.trans (sameTable_setMax _ _ _))

theorem retainMax_modify (h : (s.callstackAllocations node).isSome) (unfreed : ℕ)
    (g : CallstackMaxAllocations → CallstackMaxAllocations) (node' : Node Frame) :
    (({ s with currentUnfreed := unfreed } : HeapTracker Frame).modifyCallstack node
        fun c => { c with retainMax := g c.retainMax }).retainMax node' =
      if node' = node then g (s.retainMax node') else s.retainMax node' := by
  obtain ⟨c, hc⟩ := Option.isSome_iff_exists.mp h
  rw [retainMax_modifyCallstack (s := { s with currentUnfreed := unfreed }) hc]
  split_ifs with hn
  · subst hn
    simp [retainMax, hc]
  · rfl

variable {e : Allocation Frame}

/-- What a subtraction leaves. -/
theorem subtract_max (hmode : s.dumpAtMaxMode = true) (h : (s.callstackAllocations e.node).isSome) :
    (s.subtractFromCallstackAllocations e).currentUnfreed = sub64 s.currentUnfreed e.sampleSize ∧
      (s.subtractFromCallstackAllocations e).maxUnfreed = s.maxUnfreed ∧
      ∀ node, (s.subtractFromCallstackAllocations e).retainMax node =
        if node = e.node then lowered (s.retainMax node) e else s.retainMax node := by
  rw [subtract_eq hmode]
  exact ⟨rfl, rfl, retainMax_modify h _ fun c => lowered c e⟩

theorem retainMax_raise (h : (s.callstackAllocations e.node).isSome) (node : Node Frame) :
    (s.raise e).retainMax node = if node = e.node then raised (s.retainMax node) e else s.retainMax node :=
  retainMax_modify h _ (fun c => raised c e) node

omit [DecidableEq Frame] in
theorem retainMax_topAll (s : HeapTracker Frame) (node : Node Frame) :
    s.topAll.retainMax node = topped (s.retainMax node) := by
  unfold retainMax topAll
  dsimp only
  cases s.callstackAllocations node <;> rfl

/-- An addition that makes no new maximum. -/
theorem add_max_le (hmode : s.dumpAtMaxMode = true) (h : (s.callstackAllocations e.node).isSome) (ts : ℕ)
    (hle : add64 s.currentUnfreed e.sampleSize ≤ s.maxUnfreed) :
    (s.addToCallstackAllocations ts e).currentUnfreed = add64 s.currentUnfreed e.sampleSize ∧
      (s.addToCallstackAllocations ts e).maxUnfreed = s.maxUnfreed ∧
      ∀ node, (s.addToCallstackAllocations ts e).retainMax node =
        if node = e.node then raised (s.retainMax node) e else s.retainMax node := by
  rw [add_eq hmode, if_pos hle]
  exact ⟨rfl, rfl, retainMax_raise h⟩

/-- An addition that makes a new maximum: all callstacks are brought up to it, or only its own. -/
theorem add_max_gt (hmode : s.dumpAtMaxMode = true) (h : (s.callstackAllocations e.node).isSome) (ts : ℕ)
    (hgt : s.maxUnfreed < add64 s.currentUnfreed e.sampleSize) :
    (s.addToCallstackAllocations ts e).currentUnfreed = add64 s.currentUnfreed e.sampleSize ∧
      (s.addToCallstackAllocations ts e).maxUnfreed = add64 s.currentUnfreed e.sampleSize ∧
      ∀ node, (s.addToCallstackAllocations ts e).retainMax node =
        if node = e.node then topped (raised (s.retainMax node) e)
        else if s.maxSequenceNumber = sub64 e.sequenceNumber 1 then s.retainMax node
        else topped (s.retainMax node) := by
  rw [add_eq hmode, if_neg (Nat.not_le.mpr hgt)]
  by_cases hseq : s.maxSequenceNumber = sub64 e.sequenceNumber 1
  · rw [if_pos hseq]
    refine ⟨rfl, rfl, fun node => ?_⟩
    obtain ⟨c, hc⟩ := Option.isSome_iff_exists.mp ((sameTable_raise s e).hasCallstack _ h)
    have hown : c.retainMax = (s.raise e).retainMax e.node := by
      unfold retainMax
      rw [hc]
      rfl
    refine (retainMax_modifyCallstack hc toppedCallstack node).trans ?_
    rw [if_pos hseq]
    split_ifs with hn
    · subst hn
      rw [toppedCallstack, hown, retainMax_raise h, if_pos rfl]
    · rw [retainMax_raise h, if_neg hn]
  · rw [if_neg hseq]
    refine ⟨rfl, rfl, fun node => ?_⟩
    refine (retainMax_topAll (s.raise e) node).trans ?_
    rw [retainMax_raise h, if_neg hseq]
    split_ifs <;> rfl

/-! ### The maximum -/

/-- The bytes of the callstacks make up the total, and what is kept as the maximum is the greatest of the moments. -/
structure MaxInv (nodes : Finset (Node Frame)) (moments : List (Moment Frame)) (s : HeapTracker Frame) : Prop where
  unfreed_eq : s.currentUnfreed = ∑ node ∈ nodes, (s.retainMax node).cur
  moment_mem : s.moment ∈ moments
  sum_eq : ∀ m ∈ moments, ∑ node ∈ nodes, m.cur node = m.unfreed
  le_max : ∀ m ∈ moments, m.unfreed ≤ s.maxUnfreed
  max_eq : ∃ m ∈ moments, m.unfreed = s.maxUnfreed ∧
    ∀ node, (s.retainMax node).max = m.cur node ∧ (s.retainMax node).maxCount = m.curCount node

variable {nodes : Finset (Node Frame)} {moments : List (Moment Frame)}

/-- A sum with one of its terms changed. -/
theorem sum_ite_add {f : Node Frame → ℕ} (hnode : node ∈ nodes) (a : ℕ) :
    ∑ n ∈ nodes, (if n = node then a else f n) + f node = ∑ n ∈ nodes, f n + a := by
  have h : ∑ n ∈ nodes.erase node, (if n = node then a else f n) = ∑ n ∈ nodes.erase node, f n :=
    Finset.sum_congr rfl fun n hn => if_neg (Finset.ne_of_mem_erase hn)
  rw [← Finset.add_sum_erase nodes f hnode, ← Finset.add_sum_erase nodes _ hnode, if_pos rfl, h]
  omega

theorem add64_of_lt {a b : ℕ} (h : a + b < 2 ^ 64) : add64 a b = a + b := Nat.mod_eq_of_lt h

theorem sub64_of_le {a b : ℕ} (ha : a < 2 ^ 64) (h : b ≤ a) : sub64 a b = a - b := by
  unfold sub64
  omega

omit [DecidableEq Frame] in
/-- A step to a moment that is not above the maximum, and leaves what is kept of it. -/
theorem MaxInv.of_le (h : MaxInv nodes moments s) {s' : HeapTracker Frame}
    (hsum : s'.currentUnfreed = ∑ node ∈ nodes, (s'.retainMax node).cur) (hle : s'.currentUnfreed ≤ s.maxUnfreed)
    (hmax : s'.maxUnfreed = s.maxUnfreed) (hkept : ∀ node, (s'.retainMax node).max = (s.retainMax node).max ∧
      (s'.retainMax node).maxCount = (s.retainMax node).maxCount) : MaxInv nodes (moments ++ [s'.moment]) s' := by
  have hmem : ∀ m, m ∈ moments ++ [s'.moment] ↔ m ∈ moments ∨ m = s'.moment := fun m => by
    rw [List.mem_append, List.mem_singleton]
  refine ⟨hsum, (hmem _).mpr (Or.inr rfl), ?_, ?_, ?_⟩
  · intro m hm
    rcases (hmem m).mp hm with hm | rfl
    · exact h.sum_eq m hm
    · exact hsum.symm
  · intro m hm
    rw [hmax]
    rcases (hmem m).mp hm with hm | rfl
    · exact h.le_max m hm
    · exact hle
  · obtain ⟨m, hm, hu, hn⟩ := h.max_eq
    refine ⟨m, (hmem m).mpr (Or.inl hm), hu.trans hmax.symm, fun node => ?_⟩
    rw [(hkept node).1, (hkept node).2]
    exact hn node

omit [DecidableEq Frame] in
/-- A step to a new maximum. -/
theorem MaxInv.of_gt (h : MaxInv nodes moments s) {s' : HeapTracker Frame}
    (hsum : s'.currentUnfreed = ∑ node ∈ nodes, (s'.retainMax node).cur) (hgt : s.maxUnfreed < s'.currentUnfreed)
    (hmax : s'.maxUnfreed = s'.currentUnfreed) (hkept : ∀ node, (s'.retainMax node).max = (s'.retainMax node).cur ∧
      (s'.retainMax node).maxCount = (s'.retainMax node).curCount) : MaxInv nodes (moments ++ [s'.moment]) s' := by
  have hmem : ∀ m, m ∈ moments ++ [s'.moment] ↔ m ∈ moments ∨ m = s'.moment := fun m => by
    rw [List.mem_append, List.mem_singleton]
  refine ⟨hsum, (hmem _).mpr (Or.inr rfl), ?_, ?_, ⟨s'.moment, (hmem _).mpr (Or.inr rfl), hmax.symm, hkept⟩⟩
  · intro m hm
    rcases (hmem m).mp hm with hm | rfl
    · exact h.sum_eq m hm
    · exact hsum.symm
  · intro m hm
    rw [hmax]
    rcases (hmem m).mp hm with hm | rfl
    · exact (h.le_max m hm).trans hgt.le
    · exact le_rfl

omit [DecidableEq Frame] in
/-- The bytes of a callstack are a part of the total. -/
theorem MaxInv.cur_le (h : MaxInv nodes moments s) (hnode : node ∈ nodes) :
    (s.retainMax node).cur ≤ s.currentUnfreed := by
  rw [h.unfreed_eq]
  exact Finset.single_le_sum (f := fun n => (s.retainMax n).cur) (fun _ _ => Nat.zero_le _) hnode

/-- The bytes of the callstacks after an addition. -/
theorem cur_add (hmode : s.dumpAtMaxMode = true) (h : (s.callstackAllocations e.node).isSome) (ts : ℕ)
    (node : Node Frame) : ((s.addToCallstackAllocations ts e).retainMax node).cur =
      if node = e.node then add64 (s.retainMax node).cur e.sampleSize else (s.retainMax node).cur := by
  rcases Nat.lt_or_ge s.maxUnfreed (add64 s.currentUnfreed e.sampleSize) with hgt | hle
  · rw [(add_max_gt hmode h ts hgt).2.2]
    split_ifs <;> rfl
  · rw [(add_max_le hmode h ts hle).2.2]
    split_ifs <;> rfl

theorem currentUnfreed_add (hmode : s.dumpAtMaxMode = true) (h : (s.callstackAllocations e.node).isSome) (ts : ℕ) :
    (s.addToCallstackAllocations ts e).currentUnfreed = add64 s.currentUnfreed e.sampleSize := by
  rcases Nat.lt_or_ge s.maxUnfreed (add64 s.currentUnfreed e.sampleSize) with hgt | hle
  · exact (add_max_gt hmode h ts hgt).1
  · exact (add_max_le hmode h ts hle).1

/-- The bytes of the callstacks after a subtraction. -/
theorem cur_subtract (hmode : s.dumpAtMaxMode = true) (h : (s.callstackAllocations e.node).isSome) (node : Node Frame) :
    ((s.subtractFromCallstackAllocations e).retainMax node).cur =
      if node = e.node then sub64 (s.retainMax node).cur e.sampleSize else (s.retainMax node).cur := by
  rw [(subtract_max hmode h).2.2]
  split_ifs
  · rw [lowered, withCur_cur]
  · rfl

theorem MaxInv.add (hs : MaxInv nodes moments s) (hmode : s.dumpAtMaxMode = true)
    (h : (s.callstackAllocations e.node).isSome) (hnode : e.node ∈ nodes) (hadds : s.AddsToMax e) (ts : ℕ) :
    MaxInv nodes (moments ++ [(s.addToCallstackAllocations ts e).moment]) (s.addToCallstackAllocations ts e) := by
  obtain ⟨hlt, hshort⟩ := hadds
  have hcur := hs.cur_le hnode
  have hunfreed := add64_of_lt hlt
  have hown : add64 (s.retainMax e.node).cur e.sampleSize = (s.retainMax e.node).cur + e.sampleSize :=
    add64_of_lt (by omega)
  have hsum : ∑ node ∈ nodes, ((s.addToCallstackAllocations ts e).retainMax node).cur =
      s.currentUnfreed + e.sampleSize := by
    have hone := sum_ite_add (f := fun node => (s.retainMax node).cur) hnode
      ((s.retainMax e.node).cur + e.sampleSize)
    have hterm : ∀ node ∈ nodes, ((s.addToCallstackAllocations ts e).retainMax node).cur =
        if node = e.node then (s.retainMax e.node).cur + e.sampleSize else (s.retainMax node).cur := by
      intro node _
      rw [cur_add hmode h]
      split_ifs with hn
      · rw [hn, hown]
      · rfl
    rw [Finset.sum_congr rfl hterm]
    have := hs.unfreed_eq
    omega
  rcases Nat.lt_or_ge s.maxUnfreed (s.currentUnfreed + e.sampleSize) with hgt | hle
  · obtain ⟨h1, h2, h3⟩ := add_max_gt hmode h ts (hunfreed.symm ▸ hgt)
    rw [hunfreed] at h1 h2
    refine hs.of_gt (h1.trans hsum.symm) (h1 ▸ hgt) (h2.trans h1.symm) fun node => ?_
    rw [h3]
    split_ifs with hn hseq
    · exact ⟨rfl, rfl⟩
    · exact hshort hgt hseq node hn
    · exact ⟨rfl, rfl⟩
  · obtain ⟨h1, h2, h3⟩ := add_max_le hmode h ts (hunfreed.symm ▸ hle)
    rw [hunfreed] at h1
    refine hs.of_le (h1.trans hsum.symm) (h1 ▸ hle) h2 fun node => ?_
    rw [h3]
    split_ifs <;> exact ⟨rfl, rfl⟩

theorem MaxInv.subtract (hs : MaxInv nodes moments s) (hmode : s.dumpAtMaxMode = true)
    (h : (s.callstackAllocations e.node).isSome) (hnode : e.node ∈ nodes) (hlt : s.currentUnfreed < 2 ^ 64)
    (hle : e.sampleSize ≤ (s.retainMax e.node).cur) :
    MaxInv nodes (moments ++ [(s.subtractFromCallstackAllocations e).moment])
      (s.subtractFromCallstackAllocations e) := by
  have hcur := hs.cur_le hnode
  have hmax := hs.le_max _ hs.moment_mem
  obtain ⟨h1, h2, h3⟩ := subtract_max hmode h
  rw [sub64_of_le hlt (hle.trans hcur)] at h1
  have hsum : ∑ node ∈ nodes, ((s.subtractFromCallstackAllocations e).retainMax node).cur =
      s.currentUnfreed - e.sampleSize := by
    have hone := sum_ite_add (f := fun node => (s.retainMax node).cur) hnode
      ((s.retainMax e.node).cur - e.sampleSize)
    have hterm : ∀ node ∈ nodes, ((s.subtractFromCallstackAllocations e).retainMax node).cur =
        if node = e.node then (s.retainMax e.node).cur - e.sampleSize else (s.retainMax node).cur := by
      intro node _
      rw [cur_subtract hmode h]
      split_ifs with hn
      · subst hn
        exact sub64_of_le (hcur.trans_lt hlt) hle
      · rfl
    rw [Finset.sum_congr rfl hterm]
    have := hs.unfreed_eq
    omega
  refine hs.of_le (h1.trans hsum.symm) ?_ h2 fun node => ?_
  · have : s.currentUnfreed ≤ s.maxUnfreed := hmax
    omega
  · rw [h3]
    split_ifs
    · exact withCur_max _ _ _
    · exact ⟨rfl, rfl⟩

end HeapTracker

end LynxTrace.Profiling
