import LynxTrace.ProtoVm.Accounting
import LynxTrace.ProtoVm.Parser

/-!
# ProtoVm.Memory — memory accounting over runs of programs

`Accounted l st` says that the counter of the allocator covers the tree of the state.  Every operation of the cursor
keeps it, hence every instruction, every program and every sequence of patches (`accounted_applyPatches`), up to a
crash.
-/

namespace LynxTrace.ProtoVm

open LynxTrace.Protozero IntrusiveTree

/-! ### Cost of a tree around a place -/

theorem NodeValue.cost_of_find {v : NodeValue} {key : ℕ} {n : Node} (h : find v.entries key = some n) :
    v.cost = entriesCost v.entries ∧ ∀ m, (v.setEntries m).cost = entriesCost m := by
  cases v with
  | indexedRepeatedField m b | mappedRepeatedField m | message m => exact ⟨rfl, fun _ => rfl⟩
  | _ => cases h

/-- Assigning at a place changes the cost of the tree by what it changes at the place. -/
theorem Node.get_cost {path : List ℕ} {root n : Node} (h : root.get path = some n) :
    ∃ c, root.value.cost = c + n.value.cost ∧ ∀ v, (root.setValue v path).value.cost = c + v.cost := by
  induction path generalizing root with
  | nil =>
    cases h
    exact ⟨0, by simp, fun v => by simp [Node.setValue]⟩
  | cons key path ih =>
    rw [Node.get] at h
    cases hf : find root.value.entries key with
    | none => simp [hf] at h
    | some child =>
      simp only [hf] at h
      obtain ⟨c, hc, hset⟩ := ih h
      obtain ⟨hcost, hentries⟩ := NodeValue.cost_of_find hf
      have hempty := entriesCost_set hf ⟨child.id, .empty⟩
      simp only [Node.cost, NodeValue.cost] at hempty
      refine ⟨c + (entriesCost root.value.entries - child.value.cost), by omega, fun v => ?_⟩
      have hv := entriesCost_set hf (child.setValue v path)
      simp only [Node.cost, hset] at hv
      simp only [Node.setValue, hf, hentries]
      omega

variable {l : Ledger}

/-! ### Cursor operations -/

/-- The counter covers the tree. -/
def Accounted (l : Ledger) (st : RwState) : Prop := Balanced l st.root.value.cost st.alloc

theorem Node.get_of_deref {root n : Node} {p : NodePtr} (h : root.deref p = some n) : root.get p.path = some n :=
  (Option.filter_eq_some_iff.mp h).1

variable {st : RwState} {op : NodeValue → Allocator → NodeResult}

theorem Accounted.onNode (h : Accounted l st) (c : RwProtoCursor) (hop : ∀ v al, (op v al).Keeps l v al)
    (hs : (st.onNode c op).1 ≠ .nullNode) : Accounted l (st.onNode c op).2 := by
  unfold RwState.onNode at hs ⊢
  cases hnode : c.node with
  | none => exact h
  | some p =>
    cases hd : st.root.deref p with
    | none =>
      simp only [RwState.record, hd]
      exact h
    | some n =>
      simp only [hnode, RwState.record, hd] at hs ⊢
      obtain ⟨x, hroot, hset⟩ := Node.get_cost (Node.get_of_deref hd)
      unfold Accounted at h ⊢
      rw [hroot] at h
      simp only [hset]
      refine hop n.value st.alloc x h fun hnull => hs ?_
      rw [hnull]
      rfl

theorem NodeResult.Keeps.andThen {r : NodeResult} {v : NodeValue} {al : Allocator} (hr : r.Keeps l v al)
    (hop : ∀ v al, (op v al).Keeps l v al) : (r.andThen op).Keeps l v al := by
  intro x h hs
  unfold NodeResult.andThen at hs ⊢
  by_cases hok : r.status = .kOk
  · rw [if_pos hok] at hs ⊢
    exact hop _ _ x (hr x h (by rw [hok]; decide)) hs
  · rw [if_neg hok] at hs ⊢
    exact hr x h hs

theorem onField_keeps (fieldId : ℕ) (hop : ∀ v al, (op v al).Keeps l v al) (v : NodeValue) (al : Allocator) :
    (onField fieldId op v al).Keeps l v al := by
  intro x h hs
  unfold onField at hs ⊢
  cases hf : find v.entries fieldId with
  | none => simp [hf] at hs
  | some child =>
    simp only [hf] at hs ⊢
    obtain ⟨hcost, hentries⟩ := NodeValue.cost_of_find hf
    rw [hentries]
    rw [hcost] at h
    have h' : Balanced l (x + entriesCost v.entries + 0) al := h
    exact h'.set hf fun y hy => hop _ _ y hy hs

section

variable (h : Accounted l st)

include h

theorem Accounted.moveTo (c : RwProtoCursor) (owner : List ℕ) (key : ℕ) : Accounted l (st.moveTo c owner key).2.2 := by
  unfold RwState.moveTo
  cases st.bindEntry owner key <;> exact h

theorem Accounted.hasField (c : RwProtoCursor) (fieldId : ℕ) (hs : (st.hasField c fieldId).1 ≠ .nullNode) :
    Accounted l (st.hasField c fieldId).2.2 :=
  h.onNode c convertToMessageIfNeeded_keeps hs

/-- An operation on the node followed by a move that leaves the tree alone. -/
theorem Accounted.enter (c : RwProtoCursor) (hop : ∀ v al, (op v al).Keeps l v al)
    (move : RwState → Status × RwProtoCursor × RwState) (hmove : ∀ st, Accounted l st → Accounted l (move st).2.2) :
    let r := st.onNode c op
    let e := if r.1 = .kOk then move r.2 else (r.1, c, r.2)
    e.1 ≠ .nullNode → Accounted l e.2.2 := by
  intro r e hs
  by_cases hok : r.1 = .kOk
  · have hr : Accounted l r.2 := h.onNode c hop (by rw [hok]; decide)
    simp only [e, if_pos hok]
    exact hmove _ hr
  · simp only [e, if_neg hok] at hs ⊢
    exact h.onNode c hop hs

theorem Accounted.enterField (c : RwProtoCursor) (fieldId : ℕ) (hs : (st.enterField c fieldId).1 ≠ .nullNode) :
    Accounted l (st.enterField c fieldId).2.2 := by
  refine h.enter c (fun v al => findOrCreateMessageField_keeps v fieldId al)
    (fun st => st.moveToField c fieldId) (fun st' h' => ?_) hs
  unfold RwState.moveToField
  cases st'.root.get (c.path ++ [fieldId]) with
  | none => exact h'
  | some n =>
    simp only
    split_ifs
    · exact h'
    · exact h'.moveTo c _ _

theorem Accounted.enterRepeatedFieldAt (c : RwProtoCursor) (fieldId index : ℕ)
    (hs : (st.enterRepeatedFieldAt c fieldId index).1 ≠ .nullNode) :
    Accounted l (st.enterRepeatedFieldAt c fieldId index).2.2 :=
  h.enter c (fun v al => ((findOrCreateMessageField_keeps v fieldId al).andThen
    (onField_keeps fieldId convertToIndexedRepeatedFieldIfNeeded_keeps)).andThen
    (onField_keeps fieldId fun v al => findOrCreateIndexedRepeatedField_keeps v index al))
    (fun st => st.moveTo c (c.path ++ [fieldId]) index) (fun _ h' => h'.moveTo c _ _) hs

theorem Accounted.enterRepeatedFieldByKey (c : RwProtoCursor) (fieldId mapKeyFieldId key : ℕ)
    (hs : (st.enterRepeatedFieldByKey c fieldId mapKeyFieldId key).1 ≠ .nullNode) :
    Accounted l (st.enterRepeatedFieldByKey c fieldId mapKeyFieldId key).2.2 :=
  h.enter c (fun v al => ((findOrCreateMessageField_keeps v fieldId al).andThen
    (onField_keeps fieldId fun v al => convertToMappedRepeatedFieldIfNeeded_keeps v mapKeyFieldId al)).andThen
    (onField_keeps fieldId fun v al => findOrCreateMappedRepeatedField_keeps v key al))
    (fun st => st.moveTo c (c.path ++ [fieldId]) key) (fun _ h' => h'.moveTo c _ _) hs

theorem Accounted.iterateRepeatedField (c : RwProtoCursor) (fieldId : ℕ)
    (hs : (st.iterateRepeatedField c fieldId).1 ≠ .nullNode) : Accounted l (st.iterateRepeatedField c fieldId).2.2 := by
  refine h.onNode c (fun v al => (convertToMessageIfNeeded_keeps v al).andThen fun v al => ?_) hs
  cases find v.entries fieldId with
  | none => exact .same v al
  | some n => exact onField_keeps fieldId convertToIndexedRepeatedFieldIfNeeded_keeps v al

theorem Accounted.getScalar (c : RwProtoCursor) (hs : (st.getScalar c).1 ≠ .nullNode) :
    Accounted l (st.getScalar c).2.2 := by
  refine h.onNode c (fun v al => ?_) hs
  cases v <;> exact .same _ al

end

theorem resetUnheld_keeps (v : NodeValue) (al : Allocator) :
    (NodeResult.mk .kOk .empty (al.record (.resetUnheld v))).Keeps l v al := by
  intro x h _
  by_cases hc : v.cost = 0
  · rw [hc] at h
    exact Balanced.record h hc
  · exact Balanced.drop h (Nat.add_lt_add_left (Nat.pos_of_ne_zero hc) x) hc

theorem Accounted.delete (h : Accounted l st) (c : RwProtoCursor) (hs : (st.delete c).1 ≠ .nullNode) :
    Accounted l (st.delete c).2.2 := by
  unfold RwState.delete at hs ⊢
  cases hc : c.holding with
  | none =>
    simp only [hc] at hs ⊢
    exact h.onNode c (fun v al => resetUnheld_keeps v al) hs
  | some oh =>
    obtain ⟨owner, key⟩ := oh
    simp only
    cases c.node with
    | none => exact h
    | some p =>
      simp only [RwState.record]
      cases st.root.deref p with
      | none => exact h
      | some n =>
        cases ho : st.root.deref owner with
        | none => exact h
        | some o =>
          simp only
          cases hf : find o.value.entries key with
          | none => exact h
          | some it =>
            obtain ⟨x, hroot, hset⟩ := Node.get_cost (Node.get_of_deref ho)
            obtain ⟨hcost, hentries⟩ := NodeValue.cost_of_find hf
            unfold Accounted at h ⊢
            simp only [hset, hentries]
            refine Balanced.deleteEntry ?_
            rw [hroot, hcost, ← entriesCost_remove hf, ← Nat.add_assoc] at h
            exact h

/-! ### Programs -/

/-- A result accounts for its state if the state it was reached from did, up to a crash. -/
def KeepsAccounted (l : Ledger) (vm : VmState) (r : Status × VmState) : Prop :=
  Accounted l vm.rw → r.1 ≠ .nullNode → Accounted l r.2.rw

namespace KeepsAccounted

open VmState

theorem andThen {vm : VmState} {r : Status × VmState} {next : VmState → Status × VmState} (hr : KeepsAccounted l vm r)
    (hnext : ∀ vm, KeepsAccounted l vm (next vm)) : KeepsAccounted l vm (VmState.andThen r next) := by
  intro h hs
  unfold VmState.andThen at hs ⊢
  by_cases hok : r.1 = .kOk
  · rw [if_pos hok] at hs ⊢
    exact hnext _ (hr h (by rw [hok]; decide)) hs
  · rw [if_neg hok] at hs ⊢
    exact hr h hs

theorem thenNext {vm : VmState} {r : Status × VmState} {next : VmState → Status × VmState}
    (abortLevel : Option AbortLevel) (hr : KeepsAccounted l vm r) (hnext : ∀ vm, KeepsAccounted l vm (next vm)) :
    KeepsAccounted l vm (VmState.thenNext r abortLevel next) := by
  intro h hs
  unfold VmState.thenNext at hs ⊢
  have hnull : r.1 = .nullNode → afterInstruction r.1 abortLevel = some .nullNode := fun heq => by rw [heq]; rfl
  cases ha : afterInstruction r.1 abortLevel with
  | some s =>
    simp only [ha] at hs ⊢
    refine hr h fun heq => hs ?_
    rw [hnull heq] at ha
    exact (Option.some.inj ha).symm
  | none =>
    simp only [ha] at hs ⊢
    refine hnext _ (hr h fun heq => ?_) hs
    rw [hnull heq] at ha
    cases ha

theorem forEach {ι : Type} {body : ι → VmState → Status × VmState} (hbody : ∀ i vm, KeepsAccounted l vm (body i vm))
    (is : List ι) (vm : VmState) : KeepsAccounted l vm (VmState.forEach body is vm) := by
  induction is generalizing vm with
  | nil => exact fun h _ => h
  | cons i is ih => exact (hbody i vm).andThen ih

theorem enterIfExists (vm : VmState) (fieldId : ℕ) {enter : RwState → Status × RwProtoCursor × RwState}
    (henter : ∀ rw, Accounted l rw → (enter rw).1 ≠ .nullNode → Accounted l (enter rw).2.2) :
    KeepsAccounted l vm (vm.enterIfExists fieldId enter) := by
  intro h hs
  unfold VmState.enterIfExists at hs ⊢
  have hfield := h.hasField vm.cursors.dst fieldId
  by_cases hok : (vm.rw.hasField vm.cursors.dst fieldId).1 = .kOk
  · have hrw := hfield (by rw [hok]; decide)
    simp only [if_pos hok] at hs ⊢
    split_ifs at hs ⊢
    · exact hrw
    · exact henter _ hrw hs
  · simp only [if_neg hok] at hs ⊢
    exact hfield hs

theorem enterField (vm : VmState) (fieldId : ℕ) : KeepsAccounted l vm (vm.enterField fieldId) := by
  unfold VmState.enterField
  split_ifs
  · exact fun h _ => h
  · exact enterIfExists vm fieldId fun rw hrw => hrw.enterField _ fieldId

theorem enterRepeatedFieldAt (vm : VmState) (fieldId index : ℕ) :
    KeepsAccounted l vm (vm.enterRepeatedFieldAt fieldId index) := by
  unfold VmState.enterRepeatedFieldAt
  split_ifs
  · exact fun h _ => h
  · exact fun h hs => h.enterRepeatedFieldAt _ fieldId index hs

theorem enterRepeatedFieldByKey (vm : VmState) (fieldId mapKeyFieldId key : ℕ) :
    KeepsAccounted l vm (vm.enterRepeatedFieldByKey fieldId mapKeyFieldId key) := by
  unfold VmState.enterRepeatedFieldByKey
  split_ifs
  · exact fun h _ => h
  · exact enterIfExists vm fieldId fun rw hrw => hrw.enterRepeatedFieldByKey _ fieldId mapKeyFieldId key

theorem parseRegLoad (vm : VmState) (regLoad : RegLoad) : KeepsAccounted l vm (vm.parseRegLoad regLoad) := by
  intro h hs
  unfold VmState.parseRegLoad writeRegister at hs ⊢
  split_ifs at hs ⊢
  · exact h
  · cases vm.cursors.src.getScalar <;> exact h
  · have hget := h.getScalar vm.cursors.dst
    cases hsc : (vm.rw.getScalar vm.cursors.dst).2.1 with
    | none =>
      simp only [hsc] at hs ⊢
      exact hget hs
    | some s =>
      simp only [hsc] at hs ⊢
      by_cases hok : (vm.rw.getScalar vm.cursors.dst).1 = .kOk
      · rw [if_pos hok]
        exact hget (by rw [hok]; decide)
      · rw [if_neg hok] at hs ⊢
        exact hget hs

theorem onDstNode (vm : VmState) (hop : ∀ v al, (op v al).Keeps l v al) :
    KeepsAccounted l vm (vm.onDstNode op) := fun h hs => h.onNode vm.cursors.dst hop hs

theorem merge (vm : VmState) (skip : Bool) : KeepsAccounted l vm (vm.merge skip) := by
  unfold VmState.merge
  cases vm.cursors.src.getBytes with
  | none => exact fun h _ => h
  | some data => exact onDstNode vm fun v al => merge_keeps v data skip al

theorem set (vm : VmState) : KeepsAccounted l vm vm.set := by
  unfold VmState.set
  cases vm.cursors.src.getScalar with
  | some s => exact onDstNode vm fun v al => setScalar_keeps v s al
  | none =>
    cases vm.cursors.src.getBytes with
    | none => exact fun h _ => h
    | some data => exact onDstNode vm fun v al => setBytes_keeps v data al

theorem atElement {body : VmState → Status × VmState} (hbody : ∀ vm, KeepsAccounted l vm (body vm)) (field : List ℕ)
    (key : ℕ) (vm : VmState) : KeepsAccounted l vm (VmState.atElement body field key vm) := by
  intro h hs
  unfold VmState.atElement RwState.elementCursor at hs ⊢
  cases hg : vm.rw.root.get (field ++ [key]) with
  | none =>
    simp only
    exact h
  | some n =>
    simp only [hg] at hs ⊢
    exact hbody _ h hs

theorem forEachElement {body : VmState → Status × VmState} (hbody : ∀ vm, KeepsAccounted l vm (body vm)) (vm : VmState)
    (fieldId : ℕ) : KeepsAccounted l vm (VmState.forEachElement body fieldId vm) :=
  andThen (fun h hs => h.iterateRepeatedField vm.cursors.dst fieldId hs)
    (forEach (fun key => atElement hbody _ key) _)

/-- Every program keeps the state accounted. -/
theorem programRules : ProgramRules (KeepsAccounted l) (KeepsAccounted l) where
  ok _ h _ := h
  abort _ h _ := h
  thenNext abortLevel hr hnext := hr.thenNext abortLevel hnext
  select _ hr := hr
  badSelect _ _ h _ := h
  instructions hr := hr
  forEachSrc items hbody _ := forEach (fun src vm => hbody (vm.setSrc src)) items _
  forEachElement vm fieldId hbody _ := forEachElement hbody vm fieldId
  enterField vm fieldId hbody := (enterField vm fieldId).andThen hbody
  enterRepeatedFieldAt vm fieldId index hbody := (enterRepeatedFieldAt vm fieldId index).andThen hbody
  enterRepeatedFieldByKey vm fieldId mapKeyFieldId key hbody :=
    (enterRepeatedFieldByKey vm fieldId mapKeyFieldId key).andThen hbody
  regLoad vm regLoad hbody := (parseRegLoad vm regLoad).andThen hbody
  delete vm hbody := andThen (fun h hs => h.delete vm.cursors.dst hs) hbody
  merge vm skip hbody := (merge vm skip).andThen hbody
  set vm hbody := (set vm).andThen hbody

end KeepsAccounted

/-! ### Runs -/

theorem setBytes_status (v : NodeValue) (data : List UInt8) (al : Allocator) :
    (setBytes v data al).status ≠ .nullNode := by
  cases v <;> unfold setBytes <;> cases al.allocateAndCopyBytes data.length <;> simp

/-- The ledger of a state machine from its construction on. -/
def Ledger.new (memoryLimitBytes : ℕ) : Ledger := ⟨memoryLimitBytes, True⟩

theorem accounted_new (program : List Instruction) (memoryLimitBytes : ℕ) (initial : Option (List UInt8)) :
    Accounted (.new memoryLimitBytes) (Vm.new program memoryLimitBytes initial).state.rw := by
  have hempty : Accounted (.new memoryLimitBytes)
      { root := ⟨0, .empty⟩, alloc := { memoryLimitBytes, nextId := 1 }, nextBinding := 1 } :=
    ⟨le_rfl, rfl, Nat.zero_le _, Nat.zero_le _, fun _ => by simp [NodeValue.cost]⟩
  cases initial with
  | none => exact hempty
  | some data =>
    refine hempty.onNode _ (fun v al => setBytes_keeps v data al) ?_
    have hs := setBytes_status .empty data { memoryLimitBytes, nextId := 1 }
    unfold RwState.onNode
    simp only [RwState.record, Node.deref, Node.get, Option.filter_some, decide_true, if_true]
    cases hst : (setBytes .empty data { memoryLimitBytes, nextId := 1 }).status with
    | nullNode => exact absurd hst hs
    | kOk => simp [OpStatus.toStatus]
    | kAbort => simp [OpStatus.toStatus]

theorem Accounted.applyPatch {vm : Vm} (h : Accounted l vm.state.rw) (packet : List UInt8)
    (hs : (vm.applyPatch packet).1 ≠ .nullNode) : Accounted l (vm.applyPatch packet).2.state.rw :=
  KeepsAccounted.programRules.parseInstructions vm.program _ h hs

theorem Accounted.applyPatches {vm vm' : Vm} {packets : List (List UInt8)} (h : Accounted l vm.state.rw)
    (hrun : vm.applyPatches packets = some vm') : Accounted l vm'.state.rw := by
  induction packets generalizing vm with
  | nil =>
    cases hrun
    exact h
  | cons packet packets ih =>
    have hstep := h.applyPatch packet
    rw [Vm.applyPatches] at hrun
    cases hs : (vm.applyPatch packet).1 with
    | danglingCursor => simp [hs] at hrun
    | nullNode => simp [hs] at hrun
    | kOk | kError | kAbort => exact ih (hstep (by simp [hs])) (by simpa [hs] using hrun)

/-- In every state a run reaches the counter covers the tree and respects the limit; it is what the tree costs if and
only if no step so far has dropped nodes it had in hand. -/
theorem usedMemoryBytes_eq_cost_iff (program : List Instruction) (memoryLimitBytes : ℕ) (initial : Option (List UInt8))
    (packets : List (List UInt8)) (vm : Vm)
    (hrun : (Vm.new program memoryLimitBytes initial).applyPatches packets = some vm) :
    vm.state.rw.root.value.cost ≤ vm.state.rw.alloc.usedMemoryBytes ∧
      vm.state.rw.alloc.usedMemoryBytes ≤ memoryLimitBytes ∧
      (vm.state.rw.alloc.usedMemoryBytes = vm.state.rw.root.value.cost ↔ ∀ e ∈ vm.state.rw.alloc.trace, e.Benign) := by
  have h := (accounted_new program memoryLimitBytes initial).applyPatches hrun
  exact ⟨h.covers, h.limit.trans_eq h.limitBytes, h.exact trivial⟩

/-- A program that merges the patch into the state: what a field takes is on the counter. -/
theorem usedMemoryBytes_eq_cost_merge :
    let vm := (Vm.new [.mk none none false (some false) false none []] 4096 none).applyPatch [8, 1]
    vm.2.state.rw.alloc.usedMemoryBytes = 112 ∧
      vm.2.state.rw.alloc.usedMemoryBytes = vm.2.state.rw.root.value.cost := by
  intro vm
  have hrun : (Vm.new [.mk none none false (some false) false none []] 4096 none).applyPatches [[8, 1]] = some vm.2 :=
    rfl
  refine ⟨rfl, (usedMemoryBytes_eq_cost_iff _ 4096 none [[8, 1]] vm.2 hrun).2.2.mpr fun e he => ?_⟩
  obtain rfl := List.mem_singleton.mp he
  exact fun m hm => by cases hm

/-- `del` on the root of a state of two bytes leaves them on the counter. -/
theorem delete_root_leaks : ∃ vm,
    (Vm.new [.mk none none true none false none []] 4096 (some [8, 1])).applyPatches [[]] = some vm ∧
      vm.state.rw.root.value.cost = 0 ∧ vm.state.rw.alloc.usedMemoryBytes = 2 := ⟨_, rfl, rfl, rfl⟩

end LynxTrace.ProtoVm
