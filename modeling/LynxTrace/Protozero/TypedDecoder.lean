import LynxTrace.Protozero.Decoder

/-!
# Protozero.TypedDecoder — `TypedProtoDecoder` (src/protozero/proto_decoder.cc, proto_decoder.h)

The decoder holds the slots below `size_` as a list: the last value of each known id at that id, and from
`num_fields_` on the earlier values of the repeated fields.  The slots above `size_` are not read.  Positions in
the storage are indices.
-/

namespace LynxTrace.Protozero

/-- Why there is no decoder: the `PERFETTO_CHECK` of `ExpandHeapStorage`, or a slot outside the storage. -/
inductive StorageFailure
  | capacityCheck
  | outOfBounds
  deriving DecidableEq, Repr

structure TypedProtoDecoder where
  fields : List Field
  numFields : ℕ
  capacity : ℕ
  deriving DecidableEq, Repr

/-- `PROTOZERO_DECODER_INITIAL_STACK_CAPACITY`. -/
def initialStackCapacity : ℕ := 100

namespace TypedProtoDecoder

def size (d : TypedProtoDecoder) : ℕ := d.fields.length

/-- The constructor, before it parses. -/
def init (maxFieldId : ℕ) : TypedProtoDecoder where
  fields := List.replicate (min (maxFieldId + 1) (initialStackCapacity - 1)) {}
  numFields := maxFieldId + 1
  capacity := initialStackCapacity

/-- `ExpandHeapStorage`. -/
def expandHeapStorage (d : TypedProtoDecoder) : Except StorageFailure TypedProtoDecoder :=
  let minCapacity := (d.numFields + 2048) % 2 ^ 32
  let newCapacity := max (d.capacity * 2 % 2 ^ 32) minCapacity
  if newCapacity > d.size ∧ newCapacity > d.numFields then
    let newSize := max d.size d.numFields
    .ok { d with fields := d.fields ++ List.replicate (newSize - d.size) {}, capacity := newCapacity }
  else .error .capacityCheck

/-- `if (needed) ExpandHeapStorage()`. -/
def expandIf (needed : Prop) [Decidable needed] (d : TypedProtoDecoder) : Except StorageFailure TypedProtoDecoder :=
  if needed then d.expandHeapStorage else .ok d

/-- What `ParseAllFields` does with a field of a known id. -/
def store (d : TypedProtoDecoder) (field : Field) : Except StorageFailure TypedProtoDecoder := do
  let d ← d.expandIf (field.id ≥ d.size ∨ d.size ≥ d.capacity)
  match d.fields[field.id]? with
  | none => .error .outOfBounds
  | some fld =>
    if !fld.valid then
      -- the first time this field is seen
      .ok { d with fields := d.fields.set field.id field }
    else do
      let d ← d.expandIf (d.numFields > d.size)
      if d.size < d.capacity then .ok { d with fields := (d.fields ++ [fld]).set field.id field }
      else .error .outOfBounds

/-- The loop of `ParseAllFields`, over at most `fuel` fields. -/
def parseAllFieldsFrom : ℕ → List UInt8 → TypedProtoDecoder → Except StorageFailure TypedProtoDecoder
  | 0, _, d => .ok d
  | fuel + 1, cur, d =>
    let res := parseOneField cur
    match res.parseRes with
    | .kSkip => parseAllFieldsFrom fuel res.next d
    | .kAbort => .ok d
    | .kOk =>
      if res.field.id ≥ d.numFields then parseAllFieldsFrom fuel res.next d
      else do
        let d ← d.store res.field
        parseAllFieldsFrom fuel res.next d

/-- `TypedProtoDecoder<MAX_FIELD_ID>(buffer)`. -/
def make (maxFieldId : ℕ) (buffer : List UInt8) : Except StorageFailure TypedProtoDecoder :=
  parseAllFieldsFrom (buffer.length + 1) buffer (init maxFieldId)

/-- The slot that `Get` returns. -/
def getIndex (d : TypedProtoDecoder) (id : ℕ) : ℕ := if id < d.numFields ∧ id < d.size then id else 0

/-- `Get`. -/
def get (d : TypedProtoDecoder) (id : ℕ) : Field := d.fields.getD (d.getIndex id) {}

end TypedProtoDecoder

/-! ### Iteration -/

structure RepeatedFieldIterator where
  fieldId : ℕ
  iter : ℕ
  end_ : ℕ
  last : ℕ
  deriving DecidableEq, Repr

namespace RepeatedFieldIterator

/-- The loop of `FindNextMatchingId`, from a position to the end. -/
def findFrom (fields : List Field) (it : RepeatedFieldIterator) : ℕ → ℕ → ℕ
  | 0, _ => if (fields.getD it.last {}).valid then it.last else it.end_
  | n + 1, iter => if (fields.getD iter {}).id = it.fieldId then iter else findFrom fields it n (iter + 1)

/-- `FindNextMatchingId`. -/
def findNextMatchingId (fields : List Field) (it : RepeatedFieldIterator) : RepeatedFieldIterator :=
  { it with iter := it.findFrom fields (it.end_ - it.iter) it.iter }

/-- `operator bool`. -/
def valid (it : RepeatedFieldIterator) : Bool := it.iter != it.end_

/-- `operator++`. -/
def next (fields : List Field) (it : RepeatedFieldIterator) : RepeatedFieldIterator :=
  if it.iter = it.last then { it with iter := it.end_ }
  else findNextMatchingId fields { it with iter := it.iter + 1 }

/-- What `for (; it; ++it)` sees, at most `fuel` fields. -/
def drain (fields : List Field) : ℕ → RepeatedFieldIterator → List Field
  | 0, _ => []
  | fuel + 1, it => if it.valid then fields.getD it.iter {} :: drain fields fuel (it.next fields) else []

end RepeatedFieldIterator

namespace TypedProtoDecoder

/-- `GetRepeated`. -/
def getRepeated (d : TypedProtoDecoder) (fieldId : ℕ) : RepeatedFieldIterator :=
  let begin_ := if d.numFields < d.size then d.numFields else d.size
  RepeatedFieldIterator.findNextMatchingId d.fields ⟨fieldId, begin_, d.size, d.getIndex fieldId⟩

/-- The fields that a loop over `GetRepeated` sees; the iterator goes up in the storage, then to the last slot. -/
def repeated (d : TypedProtoDecoder) (fieldId : ℕ) : List Field :=
  RepeatedFieldIterator.drain d.fields (d.size + 2) (d.getRepeated fieldId)

end TypedProtoDecoder

end LynxTrace.Protozero
