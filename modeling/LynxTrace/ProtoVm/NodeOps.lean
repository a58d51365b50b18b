import LynxTrace.ProtoVm.Node

/-!
# ProtoVm.NodeOps — what a cursor does to one node (src/protovm/rw_proto_cursor.cc)

The private operations of `RwProtoCursor` take a node and rewrite its value in place; here they map the value to
a status, the new value and the allocator.  An operation that aborts in the middle returns the value as far as
it got.  A node the code drops without `Delete` is dropped here as well: its bytes stay on the counter.
-/

namespace LynxTrace.ProtoVm

open LynxTrace.Protozero IntrusiveTree

/-- `StatusOr<void>`, the value of the node and the allocator after an operation. -/
structure NodeResult where
  status : OpStatus
  value : NodeValue
  alloc : Allocator

/-- The same for an operation on a map. -/
structure MapResult where
  status : OpStatus
  map : NodeMap
  alloc : Allocator

/-- `MapInsert`.  After a failed insertion it deletes `map_value`, which was moved into the holder. -/
def mapInsert (map : NodeMap) (key : ℕ) (mapValue : Node) (al : Allocator) : MapResult :=
  match al.createNode with
  | none => ⟨.kAbort, map, al.delete mapValue⟩
  | some (_, al) =>
    match find map key with
    | none => ⟨.kOk, insert map key mapValue, al⟩
    | some _ => ⟨.nullNode, map, al⟩

/-- `CreateNodeFromField`. -/
def createNodeFromField (field : Field) (al : Allocator) : Option Node × Allocator :=
  if field.type = .kLengthDelimited then
    match al.allocateAndCopyBytes field.data.length with
    | none => (none, al)
    | some al =>
      match al.createNode with
      | none => (none, al.release field.data.length)
      | some (id, al) => (some ⟨id, .bytes field.data⟩, al)
  else
    match al.createNode with
    | none => (none, al)
    | some (id, al) => (some ⟨id, .scalar ⟨field.type, field.intValue⟩⟩, al)

/-- Moves a node's value into a new node, the only entry of a map. -/
def moveIntoMap (key : ℕ) (v : NodeValue) (al : Allocator) (wrap : NodeMap → NodeValue) : NodeResult :=
  match al.createNode with
  | none => ⟨.kAbort, v, al⟩
  | some (id, al) =>
    let r := mapInsert [] key ⟨id, v⟩ al
    ⟨r.status, wrap r.map, r.alloc⟩

/-- `ConvertToIndexedRepeatedFieldIfNeeded`. -/
def convertToIndexedRepeatedFieldIfNeeded (v : NodeValue) (al : Allocator) : NodeResult :=
  match v with
  | .indexedRepeatedField _ _ => ⟨.kOk, v, al⟩
  | .mappedRepeatedField _ => ⟨.kAbort, v, al⟩
  | .empty => ⟨.kOk, .indexedRepeatedField [] false, al⟩
  | .bytes _ => moveIntoMap 0 v al fun m => .indexedRepeatedField m false
  | .message _ => moveIntoMap 0 v al fun m => .indexedRepeatedField m false
  | .scalar _ => moveIntoMap 0 v al fun m => .indexedRepeatedField m false

/-- The Nth occurrence of a field in `ConvertToMessageIfNeeded`: makes sure that the node is an indexed repeated
field and appends to it.  `map_value` is deleted when it cannot be appended. -/
def appendOccurrence (v : NodeValue) (mapValue : Node) (al : Allocator) : NodeResult :=
  let r := convertToIndexedRepeatedFieldIfNeeded v al
  if r.status = .kOk then
    match r.value with
    | .indexedRepeatedField indexToNode b =>
      let i := mapInsert indexToNode indexToNode.length mapValue r.alloc
      ⟨i.status, .indexedRepeatedField i.map b, i.alloc⟩
    | _ => { r with status := .nullNode }
  else { r with alloc := r.alloc.delete mapValue }

/-- Adds the node of one field to the local message of `ConvertToMessageIfNeeded`. -/
def addOccurrence (message : NodeMap) (fieldId : ℕ) (mapValue : Node) (al : Allocator) : MapResult :=
  match find message fieldId with
  | none => mapInsert message fieldId mapValue al
  | some it =>
    let r := appendOccurrence it.value mapValue al
    ⟨r.status, set message fieldId ⟨it.id, r.value⟩, r.alloc⟩

/-- The loop of `ConvertToMessageIfNeeded` over the fields of the blob; `message` is the local message, which
every abort deletes. -/
def decompose : List Field → NodeMap → Allocator → MapResult
  | [], message, al => ⟨.kOk, message, al⟩
  | field :: fields, message, al =>
    match createNodeFromField field al with
    | (none, al) => ⟨.kAbort, [], al.deleteEntries message⟩
    | (some mapValue, al) =>
      let r := addOccurrence message field.id mapValue al
      if r.status = .kOk then decompose fields r.map r.alloc
      else ⟨r.status, [], r.alloc.deleteEntries r.map⟩

/-- `ConvertToMessageIfNeeded`. -/
def convertToMessageIfNeeded (v : NodeValue) (al : Allocator) : NodeResult :=
  match v with
  | .message _ => ⟨.kOk, v, al⟩
  | .empty => ⟨.kOk, .message [], al⟩
  | .bytes data =>
    let r := decompose (readFields data) [] al
    if r.status = .kOk then ⟨.kOk, .message r.map, r.alloc.deleteReferencedData v⟩
    else ⟨r.status, v, r.alloc⟩
  | .indexedRepeatedField _ _ => ⟨.kAbort, v, al⟩
  | .mappedRepeatedField _ => ⟨.kAbort, v, al⟩
  | .scalar _ => ⟨.kAbort, v, al⟩

/-- `ReadScalarField`; `none` is an abort. -/
def readScalarField (v : NodeValue) (fieldId : ℕ) : Option ℕ :=
  match v with
  | .bytes data =>
    match (readFields data).find? (·.id = fieldId) with
    | none => none
    | some field => if field.type = .kLengthDelimited then none else some field.intValue
  | .message m =>
    match find m fieldId with
    | some ⟨_, .scalar s⟩ => some s.value
    | _ => none
  | _ => none

/-- The loop of `ConvertToMappedRepeatedFieldIfNeeded` over the entries of an indexed repeated field.  An entry
without a readable key has already left the tree when the loop aborts, and so have the ones re-keyed before it;
an entry whose key is taken is not inserted. -/
def rekey (mapKeyFieldId : ℕ) (hasBeenMerged : Bool) : NodeMap → NodeMap → OpStatus × NodeValue
  | [], keyToNode => (.kOk, .mappedRepeatedField keyToNode)
  | (_, node) :: indexToNode, keyToNode =>
    match readScalarField node.value mapKeyFieldId with
    | none => (.kAbort, .indexedRepeatedField indexToNode hasBeenMerged)
    | some key => rekey mapKeyFieldId hasBeenMerged indexToNode (insert keyToNode key node)

/-- `ConvertToMappedRepeatedFieldIfNeeded`. -/
def convertToMappedRepeatedFieldIfNeeded (v : NodeValue) (mapKeyFieldId : ℕ) (al : Allocator) : NodeResult :=
  let convertMessage :=
    match readScalarField v mapKeyFieldId with
    | none => ⟨.kAbort, v, al⟩
    | some key => moveIntoMap key v al .mappedRepeatedField
  match v with
  | .mappedRepeatedField _ => ⟨.kOk, v, al⟩
  | .empty => ⟨.kOk, .mappedRepeatedField [], al⟩
  | .bytes _ => convertMessage
  | .message _ => convertMessage
  | .indexedRepeatedField indexToNode b =>
    let r := rekey mapKeyFieldId b indexToNode []
    ⟨r.1, r.2, al.record (.rekey mapKeyFieldId indexToNode)⟩
  | .scalar _ => ⟨.kAbort, v, al⟩

/-- Creates an empty node under a key. -/
def insertEmpty (map : NodeMap) (key : ℕ) (al : Allocator) : MapResult :=
  match al.createNode with
  | none => ⟨.kAbort, map, al⟩
  | some (id, al) => mapInsert map key ⟨id, .empty⟩ al

/-- `FindOrCreateMessageField`: on success the field is in the message. -/
def findOrCreateMessageField (v : NodeValue) (fieldId : ℕ) (al : Allocator) : NodeResult :=
  let r := convertToMessageIfNeeded v al
  if r.status = .kOk then
    match r.value with
    | .message m =>
      match find m fieldId with
      | some _ => r
      | none =>
        let i := insertEmpty m fieldId r.alloc
        ⟨i.status, .message i.map, i.alloc⟩
    | _ => { r with status := .nullNode }
  else r

/-- `FindOrCreateIndexedRepeatedField`. -/
def findOrCreateIndexedRepeatedField (v : NodeValue) (index : ℕ) (al : Allocator) : NodeResult :=
  match v with
  | .indexedRepeatedField m b =>
    match find m index with
    | some _ => ⟨.kOk, v, al⟩
    | none =>
      if index > m.length then ⟨.kAbort, v, al⟩
      else
        let r := insertEmpty m index al
        ⟨r.status, .indexedRepeatedField r.map b, r.alloc⟩
  | _ => ⟨.nullNode, v, al⟩

/-- `FindOrCreateMappedRepeatedField`. -/
def findOrCreateMappedRepeatedField (v : NodeValue) (key : ℕ) (al : Allocator) : NodeResult :=
  match v with
  | .mappedRepeatedField m =>
    match find m key with
    | some _ => ⟨.kOk, v, al⟩
    | none =>
      let r := insertEmpty m key al
      ⟨r.status, .mappedRepeatedField r.map, r.alloc⟩
  | _ => ⟨.nullNode, v, al⟩

/-! ### Operations on the node under the cursor -/

/-- `SetBytes`. -/
def setBytes (v : NodeValue) (data : List UInt8) (al : Allocator) : NodeResult :=
  let replace :=
    match al.allocateAndCopyBytes data.length with
    | none => ⟨.kAbort, v, al⟩
    | some al => ⟨.kOk, .bytes data, al.deleteReferencedData v⟩
  match v with
  | .empty => replace
  | .bytes _ => replace
  | .message _ => replace
  | .indexedRepeatedField _ _ => ⟨.kAbort, v, al⟩
  | .mappedRepeatedField _ => ⟨.kAbort, v, al⟩
  | .scalar _ => ⟨.kAbort, v, al⟩

/-- `SetScalar`. -/
def setScalar (v : NodeValue) (scalar : Scalar) (al : Allocator) : NodeResult :=
  match v with
  | .empty => ⟨.kOk, .scalar scalar, al⟩
  | .scalar _ => ⟨.kOk, .scalar scalar, al⟩
  | .bytes _ => ⟨.kAbort, v, al⟩
  | .indexedRepeatedField _ _ => ⟨.kAbort, v, al⟩
  | .mappedRepeatedField _ => ⟨.kAbort, v, al⟩
  | .message _ => ⟨.kAbort, v, al⟩

def NodeValue.isMessage : NodeValue → Bool
  | .message _ => true
  | _ => false

/-- One turn of the loop of `Merge`: `map_value` is the node made from the field. -/
def mergeField (fieldId : ℕ) (mapValue : Node) (skipSubmessages : Bool) (message : NodeMap) (al : Allocator) :
    MapResult :=
  match find message fieldId with
  | none => mapInsert message fieldId mapValue al
  | some it =>
    if skipSubmessages && it.value.isMessage then ⟨.kOk, message, al.delete mapValue⟩
    else
      match it.value with
      | .mappedRepeatedField _ => ⟨.kAbort, message, al⟩
      | .indexedRepeatedField indexToNode hasBeenMerged =>
        let cleared := if hasBeenMerged then indexToNode else []
        let al := if hasBeenMerged then al else al.deleteReferencedData it.value
        let r := mapInsert cleared cleared.length mapValue al
        let message := set message fieldId ⟨it.id, .indexedRepeatedField r.map true⟩
        -- the result of `MapInsert` is not looked at
        ⟨if r.status = .nullNode then .nullNode else .kOk, message, r.alloc⟩
      | _ => ⟨.kOk, set message fieldId mapValue, al.delete it⟩

/-- The loop of `Merge`. -/
def mergeFields (skipSubmessages : Bool) : List Field → NodeMap → Allocator → MapResult
  | [], message, al => ⟨.kOk, message, al⟩
  | field :: fields, message, al =>
    match createNodeFromField field al with
    | (none, al) => ⟨.kAbort, message, al⟩
    | (some mapValue, al) =>
      let al := al.record (.mergeField (((find message field.id).map Node.value).getD .empty))
      let r := mergeField field.id mapValue skipSubmessages message al
      if r.status = .kOk then mergeFields skipSubmessages fields r.map r.alloc else r

/-- Resets the merge state of a repeated field. -/
def NodeValue.resetMerged : NodeValue → NodeValue
  | .indexedRepeatedField m _ => .indexedRepeatedField m false
  | v => v

/-- The body of `Merge`, after the check of the node's type. -/
def mergeMessage (v : NodeValue) (data : List UInt8) (skipSubmessages : Bool) (al : Allocator) : NodeResult :=
  if data = [] then ⟨.kOk, v, al⟩
  else
    let r := convertToMessageIfNeeded v al
    if r.status = .kOk then
      match r.value with
      | .message m =>
        let r := mergeFields skipSubmessages (readFields data) m r.alloc
        if r.status = .kOk then
          ⟨.kOk, .message (r.map.map fun e => (e.1, ⟨e.2.id, e.2.value.resetMerged⟩)), r.alloc⟩
        else ⟨r.status, .message r.map, r.alloc⟩
      | _ => { r with status := .nullNode }
    else r

/-- `Merge`. -/
def merge (v : NodeValue) (data : List UInt8) (skipSubmessages : Bool) (al : Allocator) : NodeResult :=
  match v with
  | .empty => mergeMessage v data skipSubmessages al
  | .message _ => mergeMessage v data skipSubmessages al
  | .bytes _ => mergeMessage v data skipSubmessages al
  | .indexedRepeatedField _ _ => ⟨.kAbort, v, al⟩
  | .mappedRepeatedField _ => ⟨.kAbort, v, al⟩
  | .scalar _ => ⟨.kAbort, v, al⟩

end LynxTrace.ProtoVm
