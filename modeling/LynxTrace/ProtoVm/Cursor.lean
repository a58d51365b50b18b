import LynxTrace.ProtoVm.RwProto

/-!
# ProtoVm.Cursor — the cursors over the patch and over the state (src/protovm/ro_cursor.cc, rw_proto_cursor.cc)

`NodePtr` is a `Node*`: the place a node was found at, as the keys of the maps on the way from the root, and the node's
identity; dereferencing it finds the node of that identity at that place, or fails.  `RwProtoCursor` is `node_` and
`holding_map_and_node_`; its `binding` numbers the moves of the cursor, so that copies of a cursor can be told from
cursors that were moved since.  The `binding` and the log of `RwState` are not in the source.
-/

namespace LynxTrace.ProtoVm

open LynxTrace.Protozero IntrusiveTree

/-! ### The patch -/

inductive RoCursor where
  | bytes (data : List UInt8)
  | field (f : Field)

/-- `GetLengthDelimitedData` and `GetBytes`; `none` is an abort. -/
def RoCursor.getBytes : RoCursor → Option (List UInt8)
  | .bytes data => some data
  | .field f => if f.type = .kLengthDelimited then some f.data else none

/-- `GetScalar`; `none` is an abort. -/
def RoCursor.getScalar : RoCursor → Option Scalar
  | .bytes _ => none
  | .field f => if f.type = .kLengthDelimited then none else some ⟨f.type, f.intValue⟩

/-- `IterateRepeatedField`: the elements in order. -/
def RoCursor.iterateRepeatedField (c : RoCursor) (fieldId : ℕ) : Option (List RoCursor) :=
  c.getBytes.map fun data => (occurrencesIn fieldId (readFields data)).map .field

/-- `EnterField`. -/
def RoCursor.enterField (c : RoCursor) (fieldId : ℕ) : Status × RoCursor :=
  match c.getBytes with
  | none => (.kAbort, c)
  | some data =>
    match occurrencesIn fieldId (readFields data) with
    | [] => (.kError, c)
    | f :: _ => (.kOk, .field f)

/-- `EnterRepeatedFieldAt`. -/
def RoCursor.enterRepeatedFieldAt (c : RoCursor) (fieldId index : ℕ) : Status × RoCursor :=
  match c.getBytes with
  | none => (.kAbort, c)
  | some data =>
    match (occurrencesIn fieldId (readFields data))[index]? with
    | none => (.kError, c)
    | some f => (.kOk, .bytes f.data)

/-! ### Places in the state -/

/-- The node at a place. -/
def Node.get : List ℕ → Node → Option Node
  | [], n => some n
  | key :: path, n =>
    match find n.value.entries key with
    | none => none
    | some child => child.get path

/-- Assigns to the value of the node at a place. -/
def Node.setValue (v : NodeValue) : List ℕ → Node → Node
  | [], n => ⟨n.id, v⟩
  | key :: path, n =>
    match find n.value.entries key with
    | none => n
    | some child => ⟨n.id, n.value.setEntries (set n.value.entries key (child.setValue v path))⟩

structure NodePtr where
  path : List ℕ
  id : ℕ
  deriving DecidableEq, Repr

/-- The node a pointer denotes, if it is in the tree. -/
def Node.deref (root : Node) (p : NodePtr) : Option Node := (root.get p.path).filter (·.id = p.id)

/-! ### The cursor over the state -/

structure RwProtoCursor where
  node : Option NodePtr
  /-- The node whose map holds the cursor's node, and the key of its entry. -/
  holding : Option (NodePtr × ℕ) := none
  binding : ℕ
  deriving DecidableEq, Repr

inductive CursorEvent
  /-- An operation is applied to a cursor. -/
  | use (binding : ℕ)
  /-- `Delete` removes the entry of a cursor from the map that holds it. -/
  | del (binding : ℕ)
  deriving DecidableEq, Repr

structure RwState where
  root : Node
  alloc : Allocator
  nextBinding : ℕ
  trace : List CursorEvent := []

def RwState.record (st : RwState) (e : CursorEvent) : RwState := { st with trace := e :: st.trace }

/-- Applies an operation to the node of a cursor. -/
def RwState.onNode (st : RwState) (c : RwProtoCursor) (op : NodeValue → Allocator → NodeResult) : Status × RwState :=
  let st := st.record (.use c.binding)
  match c.node with
  | none => (.danglingCursor, st)
  | some p =>
    match st.root.deref p with
    | none => (.danglingCursor, st)
    | some n =>
      let r := op n.value st.alloc
      (r.status.toStatus, { st with root := st.root.setValue r.value p.path, alloc := r.alloc })

/-- A cursor moved to the entry of a map. -/
def RwState.bindEntry (st : RwState) (owner : List ℕ) (key : ℕ) : Option RwProtoCursor :=
  match st.root.get owner with
  | none => none
  | some o =>
    match find o.value.entries key with
    | none => none
    | some n => some ⟨some ⟨owner ++ [key], n.id⟩, some (⟨owner, o.id⟩, key), st.nextBinding⟩

/-- The end of the `Enter` operations: moves the cursor to an entry. -/
def RwState.moveTo (st : RwState) (c : RwProtoCursor) (owner : List ℕ) (key : ℕ) :
    Status × RwProtoCursor × RwState :=
  match st.bindEntry owner key with
  | none => (.nullNode, c, st)
  | some c' => (.kOk, c', { st with nextBinding := st.nextBinding + 1 })

/-- The place of a cursor. -/
def RwProtoCursor.path (c : RwProtoCursor) : List ℕ := (c.node.map NodePtr.path).getD []

/-- Applies an operation to the node of a message's field. -/
def onField (fieldId : ℕ) (op : NodeValue → Allocator → NodeResult) (v : NodeValue) (al : Allocator) : NodeResult :=
  match find v.entries fieldId with
  | none => ⟨.nullNode, v, al⟩
  | some child =>
    let r := op child.value al
    ⟨r.status, v.setEntries (set v.entries fieldId ⟨child.id, r.value⟩), r.alloc⟩

/-- One operation after another, if the first succeeds. -/
def NodeResult.andThen (r : NodeResult) (op : NodeValue → Allocator → NodeResult) : NodeResult :=
  if r.status = .kOk then op r.value r.alloc else r

/-- `HasField`, with its answer. -/
def RwState.hasField (st : RwState) (c : RwProtoCursor) (fieldId : ℕ) : Status × Bool × RwState :=
  let r := st.onNode c convertToMessageIfNeeded
  let found := match r.2.root.get c.path with
    | none => false
    | some n => (find n.value.entries fieldId).isSome
  (r.1, found, r.2)

/-- A repeated field cannot be entered as a simple one. -/
def NodeValue.isRepeated : NodeValue → Bool
  | .indexedRepeatedField _ _ => true
  | .mappedRepeatedField _ => true
  | _ => false

/-- `EnterField`. -/
def RwState.enterField (st : RwState) (c : RwProtoCursor) (fieldId : ℕ) : Status × RwProtoCursor × RwState :=
  let r := st.onNode c fun v al => findOrCreateMessageField v fieldId al
  if r.1 = .kOk then
    match r.2.root.get (c.path ++ [fieldId]) with
    | none => (.nullNode, c, r.2)
    | some n => if n.value.isRepeated then (.kAbort, c, r.2) else r.2.moveTo c c.path fieldId
  else (r.1, c, r.2)

/-- `EnterField`, once the map has the field. -/
def RwState.moveToField (st : RwState) (c : RwProtoCursor) (fieldId : ℕ) : Status × RwProtoCursor × RwState :=
  match st.root.get (c.path ++ [fieldId]) with
  | none => (.nullNode, c, st)
  | some n => if n.value.isRepeated then (.kAbort, c, st) else st.moveTo c c.path fieldId

/-- `EnterRepeatedFieldAt`. -/
def RwState.enterRepeatedFieldAt (st : RwState) (c : RwProtoCursor) (fieldId index : ℕ) :
    Status × RwProtoCursor × RwState :=
  let r := st.onNode c fun v al =>
    ((findOrCreateMessageField v fieldId al).andThen
      (onField fieldId convertToIndexedRepeatedFieldIfNeeded)).andThen
      (onField fieldId fun v al => findOrCreateIndexedRepeatedField v index al)
  if r.1 = .kOk then r.2.moveTo c (c.path ++ [fieldId]) index else (r.1, c, r.2)

/-- `EnterRepeatedFieldByKey`. -/
def RwState.enterRepeatedFieldByKey (st : RwState) (c : RwProtoCursor) (fieldId mapKeyFieldId key : ℕ) :
    Status × RwProtoCursor × RwState :=
  let r := st.onNode c fun v al =>
    ((findOrCreateMessageField v fieldId al).andThen
      (onField fieldId fun v al => convertToMappedRepeatedFieldIfNeeded v mapKeyFieldId al)).andThen
      (onField fieldId fun v al => findOrCreateMappedRepeatedField v key al)
  if r.1 = .kOk then r.2.moveTo c (c.path ++ [fieldId]) key else (r.1, c, r.2)

/-- `IterateRepeatedField`: the keys of the elements, or none if the field is absent. -/
def RwState.iterateRepeatedField (st : RwState) (c : RwProtoCursor) (fieldId : ℕ) : Status × List ℕ × RwState :=
  let r := st.onNode c fun v al =>
    (convertToMessageIfNeeded v al).andThen fun v al =>
      match find v.entries fieldId with
      | none => ⟨.kOk, v, al⟩
      | some _ => onField fieldId convertToIndexedRepeatedFieldIfNeeded v al
  let keys := match r.2.root.get (c.path ++ [fieldId]) with
    | none => []
    | some n => n.value.entries.map Prod.fst
  (r.1, keys, r.2)

/-- `RepeatedFieldIterator::GetCursor` at the element with a key; the cursor has no holding map. -/
def RwState.elementCursor (st : RwState) (field : List ℕ) (key : ℕ) : Option (RwProtoCursor × RwState) :=
  match st.root.get (field ++ [key]) with
  | none => none
  | some n => some (⟨some ⟨field ++ [key], n.id⟩, none, st.nextBinding⟩, { st with nextBinding := st.nextBinding + 1 })

/-- `GetScalar`; the scalar is the one of the node. -/
def RwState.getScalar (st : RwState) (c : RwProtoCursor) : Status × Option Scalar × RwState :=
  let r := st.onNode c fun v al =>
    match v with
    | .scalar _ => ⟨.kOk, v, al⟩
    | _ => ⟨.kAbort, v, al⟩
  let scalar := match r.2.root.get c.path with
    | some ⟨_, .scalar s⟩ => some s
    | _ => none
  (r.1, scalar, r.2)

/-- `Delete`. -/
def RwState.delete (st : RwState) (c : RwProtoCursor) : Status × RwProtoCursor × RwState :=
  match c.holding with
  | none =>
    -- the node is reset and what it referred to is not deleted
    let r := st.onNode c fun v al => ⟨.kOk, .empty, al.record (.resetUnheld v)⟩
    (r.1, c, r.2)
  | some (owner, key) =>
    let st := st.record (.use c.binding)
    match c.node with
    | none => (.danglingCursor, c, st)
    | some p =>
      match st.root.deref p, st.root.deref owner with
      | some _, some o =>
        match find o.value.entries key with
        | none => (.danglingCursor, c, st)
        | some n =>
          (.kOk, { c with node := none },
            { st.record (.del c.binding) with
              root := st.root.setValue (o.value.setEntries (remove o.value.entries key)) owner.path
              alloc := st.alloc.deleteEntry n })
      | _, _ => (.danglingCursor, c, st)

end LynxTrace.ProtoVm
