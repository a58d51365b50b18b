import LynxTrace.ProtoVm.NodeOps

/-!
# ProtoVm.RwProto — serialization (src/protovm/rw_proto.cc)

`Serialize` is the list of the appends it makes to the output message, in order.  `held` reads such a list field
by field: what the output holds for one field id.
-/

namespace LynxTrace.ProtoVm

open LynxTrace.Wire LynxTrace.Protozero IntrusiveTree

/-- One call on a `protozero::Message`. -/
inductive Appended where
  | bytes (fieldId : ℕ) (data : List UInt8)
  | fixed32 (fieldId value : ℕ)
  | fixed64 (fieldId value : ℕ)
  | varInt (fieldId value : ℕ)
  | nested (fieldId : ℕ) (fields : List Appended)
  | raw (data : List UInt8)

def serializeScalar (fieldId : ℕ) (s : Scalar) : Appended :=
  match s.wireType with
  | .kFixed32 => .fixed32 fieldId (s.value % 2 ^ 32)
  | .kFixed64 => .fixed64 fieldId s.value
  | .kVarInt => .varInt fieldId s.value
  | .kLengthDelimited => .varInt fieldId s.value

mutual

/-- `SerializeField`. -/
def serializeField (fieldId : ℕ) : NodeValue → List Appended
  | .empty => []
  | .bytes data => [.bytes fieldId data]
  | .scalar s => [serializeScalar fieldId s]
  | .message m => [.nested fieldId (serializeMessage m)]
  | .indexedRepeatedField m _ => serializeElements fieldId m
  | .mappedRepeatedField m => serializeElements fieldId m

/-- The fields of a message, each under its own id. -/
def serializeMessage : List (ℕ × Node) → List Appended
  | [] => []
  | (key, ⟨_, v⟩) :: m => serializeField (key % 2 ^ 32) v ++ serializeMessage m

/-- The elements of a repeated field, all under the field's id. -/
def serializeElements (fieldId : ℕ) : List (ℕ × Node) → List Appended
  | [] => []
  | (_, ⟨_, v⟩) :: m => serializeField fieldId v ++ serializeElements fieldId m

end

/-- `Serialize` of a root; `none` is the failed `PERFETTO_DCHECK(message)`. -/
def serialize : NodeValue → Option (List Appended)
  | .empty => some []
  | .bytes data => some [.raw data]
  | .message m => some (serializeMessage m)
  | _ => none

/-! ### What is held for a field id -/

/-- A decoded field, as an append. -/
def appendedField (f : Field) : Appended :=
  match f.type with
  | .kLengthDelimited => .bytes f.id f.data
  | .kFixed32 => .fixed32 f.id f.intValue
  | .kFixed64 => .fixed64 f.id f.intValue
  | .kVarInt => .varInt f.id f.intValue

/-- A wire field, as an append. -/
def appendedWire (f : WireField) : Appended :=
  match f.value with
  | .varint v => .varInt f.id v
  | .fixed64 v => .fixed64 f.id v
  | .bytes b => .bytes f.id b
  | .fixed32 v => .fixed32 f.id v

def occurrencesIn (id : ℕ) (fields : List Field) : List Field := fields.filter (·.id = id)

/-- The appends an output holds under a field id; raw bytes hold the fields a decoder finds in them. -/
def Appended.heldUnder (id : ℕ) : Appended → List Appended
  | .raw data => (occurrencesIn id (readFields data)).map appendedField
  | .bytes fieldId data => if fieldId = id then [.bytes fieldId data] else []
  | .fixed32 fieldId v => if fieldId = id then [.fixed32 fieldId v] else []
  | .fixed64 fieldId v => if fieldId = id then [.fixed64 fieldId v] else []
  | .varInt fieldId v => if fieldId = id then [.varInt fieldId v] else []
  | .nested fieldId fields => if fieldId = id then [.nested fieldId fields] else []

def held (id : ℕ) (out : List Appended) : List Appended := out.flatMap (Appended.heldUnder id)

@[simp] theorem held_nil (id : ℕ) : held id [] = [] := rfl

theorem held_append (id : ℕ) (a b : List Appended) : held id (a ++ b) = held id a ++ held id b :=
  List.flatMap_append

theorem serializeElements_eq (fieldId : ℕ) (m : NodeMap) :
    serializeElements fieldId m = m.flatMap fun e => serializeField fieldId e.2.value := by
  induction m with
  | nil => rfl
  | cons e m ih =>
    obtain ⟨k, id, v⟩ := e
    rw [serializeElements, ih, List.flatMap_cons]

theorem heldUnder_serializeScalar (id fieldId : ℕ) (s : Scalar) :
    (serializeScalar fieldId s).heldUnder id = if fieldId = id then [serializeScalar fieldId s] else [] := by
  unfold serializeScalar
  cases s.wireType <;> rfl

mutual

/-- A node of a message appends under its own id only. -/
theorem held_serializeField (id fieldId : ℕ) : (v : NodeValue) →
    held id (serializeField fieldId v) = if fieldId = id then serializeField fieldId v else []
  | .empty => by simp [serializeField]
  | .bytes data => by simp [serializeField, held, Appended.heldUnder]
  | .scalar s => by simp [serializeField, held, heldUnder_serializeScalar]
  | .message m => by simp [serializeField, held, Appended.heldUnder]
  | .indexedRepeatedField m _ => held_serializeElements id fieldId m
  | .mappedRepeatedField m => held_serializeElements id fieldId m

theorem held_serializeElements (id fieldId : ℕ) : (m : List (ℕ × Node)) →
    held id (serializeElements fieldId m) = if fieldId = id then serializeElements fieldId m else []
  | [] => by simp [serializeElements]
  | (_, ⟨_, v⟩) :: m => by
    rw [serializeElements, held_append, held_serializeField id fieldId v, held_serializeElements id fieldId m]
    split_ifs <;> rfl

end

/-- The value a message has under a field id. -/
def slot (m : NodeMap) (id : ℕ) : Option NodeValue := (find m id).map Node.value

def serializeSlot (id : ℕ) (o : Option NodeValue) : List Appended :=
  match o with
  | none => []
  | some v => serializeField id v

/-- What keeps a message readable by field id: ids ascend and have 32 bits. -/
structure MessageOk (m : NodeMap) : Prop where
  sorted : Sorted m
  key_lt : ∀ e ∈ m, e.1 < 2 ^ 32

theorem MessageOk.nil : MessageOk [] := ⟨Sorted.nil, by simp⟩

theorem MessageOk.insert {m : NodeMap} (h : MessageOk m) {key : ℕ} (hk : key < 2 ^ 32) (n : Node) :
    MessageOk (insert m key n) := by
  refine ⟨h.sorted.insert key n, fun e he => ?_⟩
  rcases mem_insert he with rfl | he
  · exact hk
  · exact h.key_lt e he

theorem MessageOk.of_keys {m m' : NodeMap} (h : MessageOk m) (hk : m'.map Prod.fst = m.map Prod.fst) :
    MessageOk m' := by
  refine ⟨?_, fun e he => ?_⟩
  · rw [sorted_iff_keys, hk]
    exact (sorted_iff_keys m).mp h.sorted
  · have hmem : e.1 ∈ m.map Prod.fst := by
      rw [← hk]
      exact List.mem_map_of_mem he
    obtain ⟨e', he', heq⟩ := List.mem_map.mp hmem
    rw [← heq]
    exact h.key_lt e' he'

/-- A serialized message holds under an id what the node under that id appends. -/
theorem held_serializeMessage {m : NodeMap} (h : MessageOk m) (id : ℕ) :
    held id (serializeMessage m) = serializeSlot id (slot m id) := by
  induction m with
  | nil => rfl
  | cons e m ih =>
    obtain ⟨key, nid, v⟩ := e
    obtain ⟨hhead, htail⟩ := List.pairwise_cons.mp h.sorted
    have hkey : key < 2 ^ 32 := h.key_lt (key, ⟨nid, v⟩) (by simp)
    have hm : MessageOk m := ⟨htail, fun e he => h.key_lt e (by simp [he])⟩
    rw [serializeMessage, held_append, held_serializeField, ih hm, Nat.mod_eq_of_lt hkey, slot, slot, find_cons]
    by_cases hk : key = id
    · subst hk
      have hnone : find m key = none := find_eq_none_iff.mpr fun e he => (hhead e he).ne'
      rw [if_pos rfl, if_pos rfl, hnone]
      simp [serializeSlot]
    · rw [if_neg hk, if_neg hk, List.nil_append]

end LynxTrace.ProtoVm
