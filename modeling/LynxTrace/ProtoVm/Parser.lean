import LynxTrace.ProtoVm.Cursor

/-!
# ProtoVm.Parser — programs and their execution (src/protovm/executor.cc, parser.cc, vm.cc)

A program is the tree its decoders see: `Instruction` with the fields that are present.  `Parser::Run` is a
structural recursion over it.  An enumerator the source does not compare with behaves like the default one, so
the enumerations only have the cases the code tells apart.
-/

namespace LynxTrace.ProtoVm

open LynxTrace.Protozero

inductive CursorEnum
  | unspecified
  | src
  | dst
  | both
  deriving DecidableEq, Repr

inductive AbortLevel
  | skipCurrentInstruction
  | skipCurrentInstructionAndBreakOuter
  | abort
  deriving DecidableEq, Repr

/-- `VmOpSelect.PathComponent`. -/
structure PathComponent where
  fieldId : Option ℕ := none
  arrayIndex : Option ℕ := none
  mapKeyFieldId : Option ℕ := none
  isRepeated : Bool := false
  registerToMatch : Option ℕ := none

/-- `VmOpSelect`. -/
structure Select where
  cursor : Option CursorEnum := none
  relativePath : List PathComponent := []
  createIfNotExist : Bool := false

/-- `VmOpRegLoad`. -/
structure RegLoad where
  cursor : Option CursorEnum := none
  dstRegister : ℕ := 0

/-- `VmInstruction`; `merge` is the `skip_submessages` of a `VmOpMerge`. -/
inductive Instruction where
  | mk (select : Option Select) (regLoad : Option RegLoad) (del : Bool) (merge : Option Bool) (set : Bool)
    (abortLevel : Option AbortLevel) (nestedInstructions : List Instruction)

def Instruction.abortLevel : Instruction → Option AbortLevel
  | .mk _ _ _ _ _ abortLevel _ => abortLevel

structure Cursors where
  src : RoCursor
  dst : RwProtoCursor
  selected : CursorEnum
  createIfNotExist : Bool

/-- The state the executor and the parser work on. -/
structure VmState where
  rw : RwState
  cursors : Cursors
  registers : List (Option ℕ)

/-- Number of registers. -/
def kNumRegisters : ℕ := 32

namespace VmState

def setSrc (vm : VmState) (src : RoCursor) : VmState := { vm with cursors := { vm.cursors with src } }

def setDst (vm : VmState) (dst : RwProtoCursor) (rw : RwState) : VmState :=
  { vm with cursors := { vm.cursors with dst }, rw }

/-! ### Executor -/

/-- Runs an operation of the `dst` cursor that may move it. -/
def onDst (vm : VmState) (r : Status × RwProtoCursor × RwState) : Status × VmState := (r.1, vm.setDst r.2.1 r.2.2)

/-- Runs an operation of the `src` cursor. -/
def onSrc (vm : VmState) (r : Status × RoCursor) : Status × VmState := (r.1, vm.setSrc r.2)

/-- `HasField` and the check of `create_if_not_exist`, before `dst` enters a field. -/
def enterIfExists (vm : VmState) (fieldId : ℕ) (enter : RwState → Status × RwProtoCursor × RwState) :
    Status × VmState :=
  let r := vm.rw.hasField vm.cursors.dst fieldId
  let vm := vm.setDst vm.cursors.dst r.2.2
  if r.1 = .kOk then
    if !r.2.1 && !vm.cursors.createIfNotExist then (.kError, vm) else vm.onDst (enter r.2.2)
  else (r.1, vm)

/-- `EnterField`. -/
def enterField (vm : VmState) (fieldId : ℕ) : Status × VmState :=
  if vm.cursors.selected = .src then vm.onSrc (vm.cursors.src.enterField fieldId)
  else vm.enterIfExists fieldId fun rw => rw.enterField vm.cursors.dst fieldId

/-- `EnterRepeatedFieldAt`. -/
def enterRepeatedFieldAt (vm : VmState) (fieldId index : ℕ) : Status × VmState :=
  if vm.cursors.selected = .src then vm.onSrc (vm.cursors.src.enterRepeatedFieldAt fieldId index)
  else vm.onDst (vm.rw.enterRepeatedFieldAt vm.cursors.dst fieldId index)

/-- `EnterRepeatedFieldByKey`. -/
def enterRepeatedFieldByKey (vm : VmState) (fieldId mapKeyFieldId key : ℕ) : Status × VmState :=
  if vm.cursors.selected = .src then (.kAbort, vm)
  else vm.enterIfExists fieldId fun rw => rw.enterRepeatedFieldByKey vm.cursors.dst fieldId mapKeyFieldId key

/-- `ReadRegister`; `none` is an abort. -/
def readRegister (vm : VmState) (regId : ℕ) : Option ℕ := (vm.registers[regId]?).join

/-- `WriteRegister`. -/
def writeRegister (vm : VmState) (cursor : CursorEnum) (regId : ℕ) : Status × VmState :=
  if regId ≥ kNumRegisters then (.kAbort, vm)
  else if cursor = .src then
    match vm.cursors.src.getScalar with
    | none => (.kAbort, vm)
    | some s => (.kOk, { vm with registers := vm.registers.set regId (some s.value) })
  else
    let r := vm.rw.getScalar vm.cursors.dst
    let vm := { vm with rw := r.2.2 }
    match r.2.1 with
    | some s => if r.1 = .kOk then (.kOk, { vm with registers := vm.registers.set regId (some s.value) }) else (r.1, vm)
    | none => (r.1, vm)

/-- `Delete`. -/
def delete (vm : VmState) : Status × VmState := vm.onDst (vm.rw.delete vm.cursors.dst)

/-- Applies an operation to the node of the `dst` cursor. -/
def onDstNode (vm : VmState) (op : NodeValue → Allocator → NodeResult) : Status × VmState :=
  let r := vm.rw.onNode vm.cursors.dst op
  (r.1, { vm with rw := r.2 })

/-- `Merge`. -/
def merge (vm : VmState) (skipSubmessages : Bool) : Status × VmState :=
  match vm.cursors.src.getBytes with
  | none => (.kAbort, vm)
  | some data => vm.onDstNode fun v al => ProtoVm.merge v data skipSubmessages al

/-- `Set`. -/
def set (vm : VmState) : Status × VmState :=
  match vm.cursors.src.getScalar with
  | some s => vm.onDstNode fun v al => setScalar v s al
  | none =>
    match vm.cursors.src.getBytes with
    | some data => vm.onDstNode fun v al => setBytes v data al
    | none => (.kAbort, vm)

/-! ### Parser -/

/-- The cursor a `VmOpSelect` or `VmOpRegLoad` names; the default is the patch. -/
def cursorOf (cursor : Option CursorEnum) : CursorEnum := cursor.getD .src

/-- `ParseRegLoad`. -/
def parseRegLoad (vm : VmState) (regLoad : RegLoad) : Status × VmState :=
  vm.writeRegister (cursorOf regLoad.cursor) (regLoad.dstRegister % 2 ^ 8)

/-- One operation after another, if the first succeeds. -/
def andThen (r : Status × VmState) (next : VmState → Status × VmState) : Status × VmState :=
  if r.1 = .kOk then next r.2 else r

/-- Runs `body` on each item in turn while it succeeds. -/
def forEach {ι : Type} (body : ι → VmState → Status × VmState) : List ι → VmState → Status × VmState
  | [], vm => (.kOk, vm)
  | i :: is, vm => andThen (body i vm) (forEach body is)

/-- The `dst` cursor at an element of the repeated field under iteration. -/
def atElement (body : VmState → Status × VmState) (field : List ℕ) (key : ℕ) (vm : VmState) : Status × VmState :=
  match vm.rw.elementCursor field key with
  | none => (.danglingCursor, vm)
  | some (c, rw) => body (vm.setDst c rw)

/-- The loop over the elements of a repeated field of the `dst` cursor. -/
def forEachElement (body : VmState → Status × VmState) (fieldId : ℕ) (vm : VmState) : Status × VmState :=
  let r := vm.rw.iterateRepeatedField vm.cursors.dst fieldId
  andThen (r.1, vm.setDst vm.cursors.dst r.2.2)
    (forEach (atElement body (vm.cursors.dst.path ++ [fieldId])) r.2.1)

/-- `ParseSelectRec`; `body` executes the nested instructions once the path has been entered. -/
def parseSelectRec (body : VmState → Status × VmState) : List PathComponent → VmState → Status × VmState
  | [], vm => body vm
  | curr :: rest, vm =>
    match curr.fieldId with
    | none => (.kAbort, vm)
    | some fieldId =>
      if curr.isRepeated then
        match vm.cursors.selected with
        | .src =>
          match vm.cursors.src.iterateRepeatedField fieldId with
          | none => (.kAbort, vm)
          | some items => forEach (fun src vm => parseSelectRec body rest (vm.setSrc src)) items vm
        | .dst => forEachElement (parseSelectRec body rest) fieldId vm
        | _ => (.kAbort, vm)
      else
        match rest with
        | [] => andThen (vm.enterField fieldId) (parseSelectRec body [])
        | next :: rest' =>
          match next.arrayIndex with
          | some index => andThen (vm.enterRepeatedFieldAt fieldId index) (parseSelectRec body rest')
          | none =>
            match next.mapKeyFieldId with
            | some mapKeyFieldId =>
              match next.registerToMatch with
              | none => (.kAbort, vm)
              | some reg =>
                match vm.readRegister (reg % 2 ^ 8) with
                | none => (.kAbort, vm)
                | some key =>
                  andThen (vm.enterRepeatedFieldByKey fieldId mapKeyFieldId (key % 2 ^ 32))
                    (parseSelectRec body rest')
            | none => andThen (vm.enterField fieldId) (parseSelectRec body (next :: rest'))

/-- The cursors as `ParseSelect` sets them up. -/
def forSelect (vm : VmState) (select : Select) : VmState :=
  { vm with cursors := { vm.cursors with
    selected := cursorOf select.cursor, createIfNotExist := select.createIfNotExist } }

/-- `ParseSelect`: the cursors are restored whatever the status, unless the parameters exclude each other. -/
def parseSelect (body : VmState → Status × VmState) (select : Select) (vm : VmState) : Status × VmState :=
  if cursorOf select.cursor = .src ∧ select.createIfNotExist then (.kAbort, vm.forSelect select)
  else
    let r := parseSelectRec body select.relativePath (vm.forSelect select)
    (r.1, { r.2 with cursors := vm.cursors })

/-- What `ParseInstructions` does after an instruction: `none` goes on with the next one. -/
def afterInstruction (status : Status) (abortLevel : Option AbortLevel) : Option Status :=
  match status with
  | .kOk => none
  | .kError =>
    match abortLevel.getD .skipCurrentInstructionAndBreakOuter with
    | .skipCurrentInstructionAndBreakOuter => some .kError
    | .abort => some .kAbort
    | .skipCurrentInstruction => none
  | s => some s

/-- An instruction and, depending on how it ended, the ones after it. -/
def thenNext (r : Status × VmState) (abortLevel : Option AbortLevel) (next : VmState → Status × VmState) :
    Status × VmState :=
  match afterInstruction r.1 abortLevel with
  | some s => (s, r.2)
  | none => next r.2

mutual

/-- `ParseInstructions`. -/
def parseInstructions : List Instruction → VmState → Status × VmState
  | [], vm => (.kOk, vm)
  | i :: is, vm => thenNext (parseInstruction i vm) i.abortLevel (parseInstructions is)

/-- `ParseInstruction`. -/
def parseInstruction : Instruction → VmState → Status × VmState
  | .mk select regLoad del mergeOp setOp _ nested, vm =>
    match select with
    | some select => parseSelect (parseInstructions nested) select vm
    | none =>
      let r :=
        match regLoad with
        | some regLoad => vm.parseRegLoad regLoad
        | none =>
          if del then vm.delete
          else
            match mergeOp with
            | some skipSubmessages => vm.merge skipSubmessages
            | none => if setOp then vm.set else (.kAbort, vm)
      andThen r (parseInstructions nested)

end

end VmState

/-! ### Induction over programs -/

/-- What it takes for a relation between a state and the result of running code from it to hold of every program:
one rule for each thing the parser does.  `R` is for instructions and `S` for the rest of a path under way, which may
leave the cursors elsewhere. -/
structure ProgramRules (R S : VmState → Status × VmState → Prop) : Prop where
  ok : ∀ vm, R vm (.kOk, vm)
  abort : ∀ vm, R vm (.kAbort, vm)
  thenNext : ∀ {vm : VmState} {r : Status × VmState} {next : VmState → Status × VmState} (abortLevel : Option AbortLevel),
    R vm r → (∀ vm, R vm (next vm)) → R vm (VmState.thenNext r abortLevel next)
  select : ∀ {vm : VmState} {r : Status × VmState} (select : Select), S (vm.forSelect select) r →
    R vm (r.1, { r.2 with cursors := vm.cursors })
  badSelect : ∀ (vm : VmState) (select : Select), R vm (.kAbort, vm.forSelect select)
  instructions : ∀ {vm : VmState} {r : Status × VmState}, R vm r → S vm r
  forEachSrc : ∀ {vm : VmState} {body : VmState → Status × VmState} (items : List RoCursor), (∀ vm, S vm (body vm)) →
    vm.cursors.selected = .src → S vm (VmState.forEach (fun src vm => body (vm.setSrc src)) items vm)
  forEachElement : ∀ {body : VmState → Status × VmState} (vm : VmState) (fieldId : ℕ), (∀ vm, S vm (body vm)) →
    vm.cursors.selected = .dst → S vm (VmState.forEachElement body fieldId vm)
  enterField : ∀ {body : VmState → Status × VmState} (vm : VmState) (fieldId : ℕ), (∀ vm, S vm (body vm)) →
    S vm (VmState.andThen (vm.enterField fieldId) body)
  enterRepeatedFieldAt : ∀ {body : VmState → Status × VmState} (vm : VmState) (fieldId index : ℕ),
    (∀ vm, S vm (body vm)) → S vm (VmState.andThen (vm.enterRepeatedFieldAt fieldId index) body)
  enterRepeatedFieldByKey : ∀ {body : VmState → Status × VmState} (vm : VmState) (fieldId mapKeyFieldId key : ℕ),
    (∀ vm, S vm (body vm)) → S vm (VmState.andThen (vm.enterRepeatedFieldByKey fieldId mapKeyFieldId key) body)
  regLoad : ∀ {body : VmState → Status × VmState} (vm : VmState) (regLoad : RegLoad), (∀ vm, R vm (body vm)) →
    R vm (VmState.andThen (vm.parseRegLoad regLoad) body)
  delete : ∀ {body : VmState → Status × VmState} (vm : VmState), (∀ vm, R vm (body vm)) →
    R vm (VmState.andThen vm.delete body)
  merge : ∀ {body : VmState → Status × VmState} (vm : VmState) (skip : Bool), (∀ vm, R vm (body vm)) →
    R vm (VmState.andThen (vm.merge skip) body)
  set : ∀ {body : VmState → Status × VmState} (vm : VmState), (∀ vm, R vm (body vm)) →
    R vm (VmState.andThen vm.set body)

namespace ProgramRules

open VmState

variable {R S : VmState → Status × VmState → Prop}

theorem parseSelectRec (h : ProgramRules R S) {body : VmState → Status × VmState} (hbody : ∀ vm, S vm (body vm))
    (path : List PathComponent) (vm : VmState) : S vm (VmState.parseSelectRec body path vm) := by
  induction hn : path.length using Nat.strong_induction_on generalizing path vm with
  | _ n ih =>
    subst hn
    cases path with
    | nil => exact hbody vm
    | cons curr rest =>
      have hrest : ∀ vm, S vm (VmState.parseSelectRec body rest vm) := fun vm => ih rest.length (by simp) rest vm rfl
      rw [VmState.parseSelectRec]
      cases curr.fieldId with
      | none => exact h.instructions (h.abort vm)
      | some fieldId =>
        simp only
        by_cases hrep : curr.isRepeated = true
        · rw [if_pos hrep]
          cases hsel : vm.cursors.selected with
          | src =>
            simp only
            cases vm.cursors.src.iterateRepeatedField fieldId with
            | none => exact h.instructions (h.abort vm)
            | some items => exact h.forEachSrc items hrest hsel
          | dst => exact h.forEachElement vm fieldId hrest hsel
          | unspecified | both => exact h.instructions (h.abort vm)
        · rw [if_neg hrep]
          cases rest with
          | nil => exact h.enterField vm fieldId hrest
          | cons next rest' =>
            have hrest' : ∀ vm, S vm (VmState.parseSelectRec body rest' vm) := fun vm =>
              ih rest'.length (by simp) rest' vm rfl
            simp only
            cases next.arrayIndex with
            | some index => exact h.enterRepeatedFieldAt vm fieldId index hrest'
            | none =>
              cases next.mapKeyFieldId with
              | none => exact h.enterField vm fieldId hrest
              | some mapKeyFieldId =>
                cases next.registerToMatch with
                | none => exact h.instructions (h.abort vm)
                | some reg =>
                  simp only
                  cases vm.readRegister (reg % 2 ^ 8) with
                  | none => exact h.instructions (h.abort vm)
                  | some key => exact h.enterRepeatedFieldByKey vm fieldId mapKeyFieldId _ hrest'

theorem parseSelect (h : ProgramRules R S) {body : VmState → Status × VmState} (hbody : ∀ vm, R vm (body vm))
    (select : Select) (vm : VmState) : R vm (VmState.parseSelect body select vm) := by
  unfold VmState.parseSelect
  split_ifs
  · exact h.badSelect vm select
  · exact h.select select (h.parseSelectRec (fun vm => h.instructions (hbody vm)) select.relativePath _)

theorem abortThen (h : ProgramRules R S) (vm : VmState) (body : VmState → Status × VmState) :
    R vm (andThen (.kAbort, vm) body) := by
  rw [andThen, if_neg (by simp)]
  exact h.abort vm

mutual

/-- The relation holds of every program, from every state. -/
theorem parseInstructions (h : ProgramRules R S) : (is : List Instruction) → (vm : VmState) →
    R vm (VmState.parseInstructions is vm)
  | [], vm => h.ok vm
  | i :: is, vm => h.thenNext i.abortLevel (parseInstruction h i vm) (parseInstructions h is)

theorem parseInstruction (h : ProgramRules R S) : (i : Instruction) → (vm : VmState) →
    R vm (VmState.parseInstruction i vm)
  | .mk (some select) _ _ _ _ _ nested, vm => h.parseSelect (parseInstructions h nested) select vm
  | .mk none (some regLoad) _ _ _ _ nested, vm => h.regLoad vm regLoad (parseInstructions h nested)
  | .mk none none true _ _ _ nested, vm => h.delete vm (parseInstructions h nested)
  | .mk none none false (some skip) _ _ nested, vm => h.merge vm skip (parseInstructions h nested)
  | .mk none none false none true _ nested, vm => h.set vm (parseInstructions h nested)
  | .mk none none false none false _ nested, vm => h.abortThen vm (VmState.parseInstructions nested)

end

end ProgramRules

/-! ### Vm -/

/-- `Vm`, in its read-write state. -/
structure Vm where
  program : List Instruction
  state : VmState

/-- A cursor at the root. -/
def RwState.rootCursor (st : RwState) : RwProtoCursor := ⟨some ⟨[], st.root.id⟩, none, st.nextBinding⟩

/-- `Vm`'s constructor. -/
def Vm.new (program : List Instruction) (memoryLimitBytes : ℕ) (initialIncrementalState : Option (List UInt8)) : Vm :=
  let rw : RwState :=
    { root := ⟨0, .empty⟩, alloc := { memoryLimitBytes, nextId := 1 }, nextBinding := 1 }
  let rw := match initialIncrementalState with
    | none => rw
    | some data => (rw.onNode ⟨some ⟨[], 0⟩, none, 0⟩ fun v al => setBytes v data al).2
  ⟨program, ⟨rw, ⟨.bytes [], ⟨none, none, 0⟩, .unspecified, false⟩, List.replicate kNumRegisters none⟩⟩

/-- `ApplyPatch`. -/
def Vm.applyPatch (vm : Vm) (packet : List UInt8) : Status × Vm :=
  let rw := vm.state.rw
  let dst := rw.rootCursor
  let state := { vm.state with
    rw := { rw with nextBinding := rw.nextBinding + 1 }
    cursors := { vm.state.cursors with src := .bytes packet, dst } }
  let r := VmState.parseInstructions vm.program state
  (r.1, { vm with state := r.2 })

/-- `ApplyPatch` of one patch after the other; a crash ends the run. -/
def Vm.applyPatches : List (List UInt8) → Vm → Option Vm
  | [], vm => some vm
  | packet :: packets, vm =>
    let r := vm.applyPatch packet
    match r.1 with
    | .danglingCursor => none
    | .nullNode => none
    | _ => Vm.applyPatches packets r.2

end LynxTrace.ProtoVm
