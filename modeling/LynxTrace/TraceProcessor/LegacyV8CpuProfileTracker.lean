import Mathlib.Data.List.Induction
import Mathlib.Data.Nat.Notation
import Mathlib.Logic.Function.Basic
import Mathlib.Tactic.Common

/-!
# TraceProcessor.LegacyV8CpuProfileTracker — call trees of V8 profiles

`internCallsite` follows `stack_profile_tracker.cc`, `internDummyFrame` follows `virtual_memory_mapping.cc`,
`addCallsite` follows `legacy_v8_cpu_profile_tracker.cc`.  A string of the storage is the string itself, a hash map is a
function. Timestamps and samples are left out: they do not touch the callsites.
-/

namespace LynxTrace.TraceProcessor.V8Profile

/-! ### The source -/

/-- `tables::StackProfileCallsiteTable::Row` -/
structure CallsiteRow where
  depth : ℕ
  parentId : Option ℕ
  frameId : ℕ
  deriving DecidableEq, Repr

/-- `tables::StackProfileFrameTable::Row` of a frame at the address 0. -/
structure FrameRow where
  name : String
  mapping : ℕ
  symbolSetId : Option ℕ
  deriving DecidableEq, Repr

/-- `tables::SymbolTable::Row` without a line number. -/
structure SymbolRow where
  symbolSetId : ℕ
  name : String
  sourceFile : Option String
  deriving DecidableEq, Repr

/-- The tables, and what `StackProfileTracker` has interned. -/
structure Storage where
  callsites : List CallsiteRow
  callsiteUniqueRowIndex : CallsiteRow → Option ℕ
  frames : List FrameRow
  symbols : List SymbolRow
  mappingCount : ℕ

/-- The function and the url of a node; a url without data is no string. -/
abbrev FrameKey := String × Option String

/-- `DummyMemoryMapping` -/
structure Mapping where
  id : ℕ
  internedDummyFrames : FrameKey → Option ℕ

/-- `LegacyV8CpuProfileTracker::State` -/
structure State where
  callsites : ℕ → Option ℕ
  callsiteInferredParents : ℕ → Option ℕ
  mapping : Mapping

/-- A node of a profile, as the tokenizers pass it on. -/
structure Node where
  id : ℕ
  parent : Option ℕ
  key : FrameKey
  children : List ℕ
  deriving DecidableEq, Repr

/-- A session and a process. -/
abbrev ProfileId := ℕ × ℕ

structure Tracker where
  storage : Storage
  stateBySessionAndPid : ProfileId → Option State

inductive Status
  | ok
  | error (message : String)
  deriving DecidableEq, Repr

def init : Tracker := ⟨⟨[], fun _ => none, [], [], 0⟩, fun _ => none⟩

/-- `StackProfileTracker::InternCallsite` -/
def internCallsite (s : Storage) (parentCallsiteId : Option ℕ) (frameId depth : ℕ) : Storage × ℕ :=
  let row : CallsiteRow := ⟨depth, parentCallsiteId, frameId⟩
  match s.callsiteUniqueRowIndex row with
  | some id => (s, id)
  | none =>
    ({ s with
        callsites := s.callsites ++ [row]
        callsiteUniqueRowIndex := Function.update s.callsiteUniqueRowIndex row (some s.callsites.length) },
      s.callsites.length)

/-- `DummyMemoryMapping::InternDummyFrame`; the symbol set of a frame is named after its row in the symbol table. -/
def internDummyFrame (s : Storage) (m : Mapping) (key : FrameKey) : Storage × Mapping × ℕ :=
  match m.internedDummyFrames key with
  | some id => (s, m, id)
  | none =>
    ({ s with
        frames := s.frames ++ [⟨key.1, m.id, some s.symbols.length⟩]
        symbols := s.symbols ++ [⟨s.symbols.length, key.1, key.2⟩] },
      { m with internedDummyFrames := Function.update m.internedDummyFrames key (some s.frames.length) },
      s.frames.length)

/-- `SetStartTsForSessionAndPid`: the first one makes the profile and its mapping. -/
def setStartTs (t : Tracker) (profile : ProfileId) : Tracker :=
  match t.stateBySessionAndPid profile with
  | some _ => t
  | none =>
    ⟨{ t.storage with mappingCount := t.storage.mappingCount + 1 },
      Function.update t.stateBySessionAndPid profile
        (some ⟨fun _ => none, fun _ => none, ⟨t.storage.mappingCount, fun _ => none⟩⟩)⟩

/-- The row of a child gets its parent, once that is known. -/
def adopt (rows : List CallsiteRow) (childRow depth callsiteId : ℕ) : List CallsiteRow :=
  rows.modify childRow fun row => ⟨depth + 1, some callsiteId, row.frameId⟩

/-- A child gets its inferred parent. -/
def nameChild (state : State) (rawCallsiteId child : ℕ) : State :=
  { state with
    callsiteInferredParents := Function.update state.callsiteInferredParents child (some rawCallsiteId) }

/-- The loop over the children; `none` is a failed check. -/
def addChildren (rawCallsiteId callsiteId depth : ℕ) (s : Storage) (state : State) :
    List ℕ → Option (Storage × State × Status)
  | [] => some (s, state, .ok)
  | child :: children =>
    if (state.callsiteInferredParents child).isSome then
      some (s, state, .error ("v8 profile: multiple nodes specify the same node id " ++ toString child ++ " as child"))
    else
      match state.callsites child with
      | none => addChildren rawCallsiteId callsiteId depth s (nameChild state rawCallsiteId child) children
      | some childRow =>
        if childRow < s.callsites.length then
          addChildren rawCallsiteId callsiteId depth
            { s with callsites := adopt s.callsites childRow depth callsiteId }
            (nameChild state rawCallsiteId child) children
        else none

/-- The parent of a node: its own field, or the node that named it as a child. -/
def knownParent (state : State) (node : Node) : Option ℕ :=
  match node.parent with
  | some parent => some parent
  | none => state.callsiteInferredParents node.id

/-- The callsite and the children of a node whose parent, if it has one, is the row `parentRow`. -/
def addNode (s : Storage) (state : State) (node : Node) (frameId : ℕ) (parentRow : Option ℕ) (depth : ℕ) :
    Option (Storage × State × Status) :=
  let (s, callsiteId) := internCallsite s parentRow frameId depth
  addChildren node.id callsiteId depth s
    { state with callsites := Function.update state.callsites node.id (some callsiteId) } node.children

/-- `AddCallsite`, for a profile that is there. -/
def addToProfile (s : Storage) (state : State) (node : Node) : Option (Storage × State × Status) :=
  if (state.callsites node.id).isSome then some (s, state, .error "v8 profile: callsite with id already exists")
  else
    let (s, mapping, frameId) := internDummyFrame s state.mapping node.key
    let state := { state with mapping := mapping }
    match knownParent state node with
    | none => addNode s state node frameId none 0
    | some parent =>
      match state.callsites parent with
      | none => some (s, state, .error "v8 profile parent id does not exist: cannot insert callsite")
      | some parentRow =>
        s.callsites[parentRow]?.bind fun row => addNode s state node frameId (some parentRow) (row.depth + 1)

/-- `AddCallsite`; `none` is a failed check, or a row that is read where there is none. -/
def addCallsite (t : Tracker) (profile : ProfileId) (node : Node) : Option (Tracker × Status) :=
  match t.stateBySessionAndPid profile with
  | none => some (t, .error "v8 profile id does not exist: cannot insert callsite")
  | some state =>
    (addToProfile t.storage state node).map fun (s, state, status) =>
      (⟨s, Function.update t.stateBySessionAndPid profile (some state)⟩, status)

/-- What the tokenizers call. -/
inductive Call
  | start (profile : ProfileId)
  | add (profile : ProfileId) (node : Node)

/-- All calls one after the other, with the statuses of the nodes. -/
def run (calls : List Call) : Option (Tracker × List Status) :=
  calls.foldlM (fun (t, statuses) call =>
    match call with
    | .start profile => some (setStartTs t profile, statuses)
    | .add profile node => (addCallsite t profile node).map fun (t, status) => (t, statuses ++ [status]))
    (init, [])

/-! ### What one call does -/

theorem internCallsite_cases (s : Storage) (parent : Option ℕ) (frameId depth : ℕ) :
    (∃ id, s.callsiteUniqueRowIndex ⟨depth, parent, frameId⟩ = some id ∧
      internCallsite s parent frameId depth = (s, id)) ∨
    (s.callsiteUniqueRowIndex ⟨depth, parent, frameId⟩ = none ∧
      internCallsite s parent frameId depth =
        ({ s with
            callsites := s.callsites ++ [⟨depth, parent, frameId⟩]
            callsiteUniqueRowIndex :=
              Function.update s.callsiteUniqueRowIndex ⟨depth, parent, frameId⟩ (some s.callsites.length) },
          s.callsites.length)) := by
  unfold internCallsite
  cases h : s.callsiteUniqueRowIndex ⟨depth, parent, frameId⟩ with
  | some id => exact Or.inl ⟨id, rfl, by simp only [h]⟩
  | none => exact Or.inr ⟨rfl, by simp only [h]⟩

theorem getElem?_adopt (rows : List CallsiteRow) (childRow depth callsiteId r : ℕ) :
    (adopt rows childRow depth callsiteId)[r]? =
      if childRow = r then rows[r]?.map fun row => ⟨depth + 1, some callsiteId, row.frameId⟩ else rows[r]? := by
  rw [adopt, List.getElem?_modify]
  by_cases h : childRow = r <;> simp [h]

@[simp] theorem length_adopt (rows : List CallsiteRow) (childRow depth callsiteId : ℕ) :
    (adopt rows childRow depth callsiteId).length = rows.length := List.length_modify _ _ _

/-- The state after the children have been named. -/
def nameChildren (state : State) (rawCallsiteId : ℕ) (children : List ℕ) : State :=
  { state with
    callsiteInferredParents := fun c => if c ∈ children then some rawCallsiteId else state.callsiteInferredParents c }

theorem nameChildren_cons (state : State) (rawCallsiteId child : ℕ) (children : List ℕ) :
    nameChildren (nameChild state rawCallsiteId child) rawCallsiteId children =
      nameChildren state rawCallsiteId (child :: children) := by
  unfold nameChildren nameChild
  congr 1
  funext c
  by_cases hc : c = child
  · subst hc
    simp
  · simp [hc]

/-- The rows after those of the children that are there have been changed. -/
structure Adopted (callsites : ℕ → Option ℕ) (children : List ℕ) (depth callsiteId : ℕ)
    (rows rows' : List CallsiteRow) : Prop where
  length : rows'.length = rows.length
  adopted : ∀ r row, rows[r]? = some row → (∃ c ∈ children, callsites c = some r) →
    rows'[r]? = some ⟨depth + 1, some callsiteId, row.frameId⟩
  other : ∀ r, (∀ c ∈ children, callsites c ≠ some r) → rows'[r]? = rows[r]?

/-- **The loop over the children**, where none of them has been named before. -/
theorem addChildren_spec (rawCallsiteId callsiteId depth : ℕ) {children : List ℕ} : ∀ (s : Storage) (state : State),
    children.Nodup → (∀ c ∈ children, state.callsiteInferredParents c = none) →
    (∀ c ∈ children, ∀ r, state.callsites c = some r → r < s.callsites.length) →
    ∃ rows, addChildren rawCallsiteId callsiteId depth s state children =
        some ({ s with callsites := rows }, nameChildren state rawCallsiteId children, .ok) ∧
      Adopted state.callsites children depth callsiteId s.callsites rows := by
  induction children with
  | nil =>
    intro s state _ _ _
    refine ⟨s.callsites, ?_, rfl, ?_, fun _ _ => rfl⟩
    · simp [addChildren, nameChildren]
    · rintro r row _ ⟨c, hc, _⟩
      cases hc
  | cons child children ih =>
    intro s state hnodup hnew hrange
    obtain ⟨hchild, hnodup⟩ := List.nodup_cons.mp hnodup
    have hnew' : ∀ c ∈ children, (nameChild state rawCallsiteId child).callsiteInferredParents c = none := by
      intro c hc
      have hne : c ≠ child := fun heq => hchild (heq ▸ hc)
      exact (Function.update_of_ne hne _ _).trans (hnew c (List.mem_cons_of_mem _ hc))
    rw [addChildren, if_neg (by simp [hnew child List.mem_cons_self]), ← nameChildren_cons]
    cases hrow : state.callsites child with
    | none =>
      obtain ⟨rows, hrun, hadopted⟩ := ih s (nameChild state rawCallsiteId child) hnodup hnew'
        fun c hc => hrange c (List.mem_cons_of_mem _ hc)
      refine ⟨rows, hrun, hadopted.length, fun r row hr hex => hadopted.adopted r row hr ?_, fun r hr => ?_⟩
      · obtain ⟨c, hc, hcr⟩ := hex
        rcases List.mem_cons.mp hc with rfl | hc
        · rw [hrow] at hcr
          cases hcr
        · exact ⟨c, hc, hcr⟩
      · exact hadopted.other r fun c hc => hr c (List.mem_cons_of_mem _ hc)
    | some childRow =>
      have hlt := hrange child List.mem_cons_self childRow hrow
      dsimp only
      rw [if_pos hlt]
      obtain ⟨rows, hrun, hadopted⟩ := ih { s with callsites := adopt s.callsites childRow depth callsiteId }
        (nameChild state rawCallsiteId child) hnodup hnew'
        fun c hc r hr => by
          rw [length_adopt]
          exact hrange c (List.mem_cons_of_mem _ hc) r hr
      refine ⟨rows, hrun, by rw [hadopted.length, length_adopt], fun r row hr hex => ?_, fun r hr => ?_⟩
      · by_cases hlater : ∃ c ∈ children, state.callsites c = some r
        · by_cases heq : childRow = r
          · have hr' : (adopt s.callsites childRow depth callsiteId)[r]? =
                some ⟨depth + 1, some callsiteId, row.frameId⟩ := by
              rw [getElem?_adopt, if_pos heq, hr]
              rfl
            exact hadopted.adopted r ⟨depth + 1, some callsiteId, row.frameId⟩ hr' hlater
          · have hr' : (adopt s.callsites childRow depth callsiteId)[r]? = some row := by
              rw [getElem?_adopt, if_neg heq, hr]
            exact hadopted.adopted r _ hr' hlater
        · have heq : childRow = r := by
            obtain ⟨c, hc, hcr⟩ := hex
            rcases List.mem_cons.mp hc with rfl | hc
            · exact Option.some.inj (hrow.symm.trans hcr)
            · exact absurd ⟨c, hc, hcr⟩ hlater
          rw [hadopted.other r fun c hc hcr => hlater ⟨c, hc, hcr⟩]
          show (adopt s.callsites childRow depth callsiteId)[r]? = _
          rw [getElem?_adopt, if_pos heq, hr]
          rfl
      · rw [hadopted.other r fun c hc => hr c (List.mem_cons_of_mem _ hc)]
        show (adopt s.callsites childRow depth callsiteId)[r]? = _
        rw [getElem?_adopt, if_neg fun heq : childRow = r => hr child List.mem_cons_self (heq ▸ hrow)]

end LynxTrace.TraceProcessor.V8Profile
