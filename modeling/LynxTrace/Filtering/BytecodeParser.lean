import LynxTrace.Filtering.BytecodeGenerator

/-!
# Filtering.BytecodeParser — `FilterBytecodeParser` (src/protozero/filtering/filter_bytecode_parser.{h,cc})

The vectors of words are lists; a range of the temporary `ranges` vector, three words there, is a structure here.
-/

namespace LynxTrace.Filtering

def kSimpleField : ℕ := 0x7fffffff

def kFilterStringField : ℕ := 0x7ffffffe

def kFilterStringFieldWithType : ℕ := 0x7fff0000

def kFilterStringFieldWithTypeMask : ℕ := 0x7fff0000

def kSemanticTypeMask : ℕ := 0xffff

def kDirectlyIndexLimit : ℕ := 128

/-- Bit 31 of a field state. -/
def kAllowed : ℕ := 2 ^ 31

/-- `~kAllowed`. -/
def kNotAllowedMask : ℕ := 2 ^ 31 - 1

structure QueryResult where
  allowed : Bool
  nestedMsgIndex : ℕ
  semanticType : ℕ
  deriving DecidableEq, Repr

def QueryResult.simpleField (r : QueryResult) : Bool := r.nestedMsgIndex = kSimpleField

def QueryResult.filterStringField (r : QueryResult) : Bool :=
  kFilterStringFieldWithType ≤ r.nestedMsgIndex ∧ r.nestedMsgIndex ≤ kFilterStringField

def QueryResult.nestedMsgField (r : QueryResult) : Bool := r.nestedMsgIndex < kFilterStringFieldWithType

structure FilterBytecodeParser where
  words : List ℕ := []
  messageOffset : List ℕ := []
  deriving DecidableEq, Repr

/-! ### Overlay -/

structure OverlayEntry where
  msgIndex : ℕ
  fieldId : ℕ
  messageId : ℕ
  deriving DecidableEq, Repr

/-- `kFilterStringFieldWithType | (semantic_type & kSemanticTypeMask)`. -/
def typedMessageId (semanticType : ℕ) : ℕ := kFilterStringFieldWithType ||| (semanticType &&& kSemanticTypeMask)

/-- `GetMessageIdForOverlay`; 0 is an invalid opcode. -/
def getMessageIdForOverlay (opcode argument : ℕ) : ℕ :=
  match FilterOpcode.ofNat? opcode with
  | some .simpleField => kSimpleField
  | some .filterString => kFilterStringField
  | some .filterStringWithType => typedMessageId argument
  | _ => 0

/-- The entries of an overlay, with the checks of the loop that reads them; `prev` is the entry before. -/
def parseOverlay : Option OverlayEntry → List ℕ → Option (List OverlayEntry)
  | _, [] => some []
  | prev, msgIndex :: fieldWord :: argument :: words =>
    let messageId := getMessageIdForOverlay (fieldWord &&& kOpcodeMask) argument
    if messageId = 0 then none
    else
      let entry : OverlayEntry := ⟨msgIndex, fieldWord >>> kOpcodeShift, messageId⟩
      let unsorted := match prev with
        | none => false
        | some prev => entry.msgIndex < prev.msgIndex ∨ (entry.msgIndex = prev.msgIndex ∧ entry.fieldId ≤ prev.fieldId)
      if unsorted then none else (parseOverlay (some entry) words).map (entry :: ·)
  | _, _ => none

/-! ### Load -/

structure Range where
  start : ℕ
  limit : ℕ
  state : ℕ
  deriving DecidableEq, Repr

/-- The two temporary vectors of a message. -/
structure MessageTable where
  directIndexedFields : List ℕ := []
  ranges : List Range := []
  deriving DecidableEq, Repr

namespace MessageTable

/-- `add_directly_indexed_field`. -/
def addDirectlyIndexedField (t : MessageTable) (fieldId msgId : ℕ) : MessageTable :=
  let resized := t.directIndexedFields ++ List.replicate (fieldId + 1 - t.directIndexedFields.length) 0
  { t with directIndexedFields := resized.set fieldId (kAllowed ||| msgId) }

/-- `add_range`. -/
def addRange (t : MessageTable) (idStart idEnd msgId : ℕ) : MessageTable :=
  { t with ranges := t.ranges ++ [⟨idStart, idEnd, kAllowed ||| msgId⟩] }

/-- Adds one field, to the vector its id belongs to. -/
def addField (t : MessageTable) (fieldId msgId : ℕ) : MessageTable :=
  if fieldId < kDirectlyIndexLimit then t.addDirectlyIndexedField fieldId msgId
  else t.addRange fieldId (fieldId + 1) msgId

/-- Adds a range of simple fields: the ids below the limit one by one, the rest as a range. -/
def addSimpleFields (t : MessageTable) (fieldId rangeEnd : ℕ) : MessageTable :=
  let directEnd := max fieldId (min rangeEnd kDirectlyIndexLimit)
  let t := (List.range' fieldId (directEnd - fieldId)).foldl
    (fun t id => t.addDirectlyIndexedField id (kAllowed ||| kSimpleField)) t
  if directEnd < rangeEnd then t.addRange directEnd rangeEnd kSimpleField else t

/-- No range starts before the end of the one before it. -/
def nonOverlapping : List Range → Bool
  | a :: b :: ranges => !(b.start < a.limit) && nonOverlapping (b :: ranges)
  | _ => true

/-- The words of a message in `words_`. -/
def toWords (t : MessageTable) : List ℕ :=
  t.directIndexedFields.length :: t.directIndexedFields ++ t.ranges.flatMap fun r => [r.start, r.limit, r.state]

end MessageTable

/-- The variables of `LoadInternal`; `overlay` holds the entries from `overlay_idx` on. -/
structure LoadState where
  table : MessageTable := {}
  maxMsgIndex : ℕ := 0
  currentMsgIndex : ℕ := 0
  overlay : List OverlayEntry
  isEom : Bool := true
  parser : FilterBytecodeParser := {}

/-- `process_overlay`: the table, the entries left, and the message id of an upgrade or 0. -/
def processOverlay (currentMsgIndex fieldId : ℕ) : List OverlayEntry → MessageTable →
    MessageTable × List OverlayEntry × ℕ
  | [], t => (t, [], 0)
  | entry :: overlay, t =>
    if entry.msgIndex > currentMsgIndex ∨ (entry.msgIndex = currentMsgIndex ∧ entry.fieldId > fieldId) then
      (t, entry :: overlay, 0)
    else if entry.fieldId = fieldId then (t, overlay, entry.messageId)
    else processOverlay currentMsgIndex fieldId overlay (t.addField entry.fieldId entry.messageId)

namespace LoadState

/-- A field word, with the message id its opcode gives. -/
def field (st : LoadState) (fieldId msgId : ℕ) : LoadState :=
  let r := processOverlay st.currentMsgIndex fieldId st.overlay st.table
  { st with table := r.1.addField fieldId (if r.2.2 ≠ 0 then r.2.2 else msgId), overlay := r.2.1, isEom := false }

/-- A range word. -/
def range (st : LoadState) (fieldId rangeLen : ℕ) : LoadState :=
  { st with table := st.table.addSimpleFields fieldId ((fieldId + rangeLen) % 2 ^ 32), isEom := false }

/-- The end of a message: the overlay entries left for it, the check of the ranges, the words of the message. -/
def endMessage (st : LoadState) : Option LoadState :=
  let r := processOverlay st.currentMsgIndex (2 ^ 32 - 1) st.overlay st.table
  if MessageTable.nonOverlapping r.1.ranges then
    some { st with
      table := {}
      overlay := r.2.1
      currentMsgIndex := (st.currentMsgIndex + 1) % 2 ^ 32
      isEom := true
      parser := ⟨st.parser.words ++ r.1.toWords, st.parser.messageOffset ++ [st.parser.words.length % 2 ^ 32]⟩ }
  else none

end LoadState

/-- The loop over the words of the bytecode. -/
def loadWords : List ℕ → LoadState → Option LoadState
  | [], st => some st
  | word :: words, st =>
    let fieldId := word >>> kOpcodeShift
    match FilterOpcode.ofNat? (word &&& kOpcodeMask) with
    | none => none
    | some .endOfMessage =>
      match st.endMessage with
      | none => none
      | some st => loadWords words st
    | some .simpleField => if fieldId = 0 then none else loadWords words (st.field fieldId kSimpleField)
    | some .filterString => if fieldId = 0 then none else loadWords words (st.field fieldId kFilterStringField)
    | some .filterStringWithType =>
      match words with
      | [] => none
      | semanticType :: words =>
        if fieldId = 0 then none else loadWords words (st.field fieldId (typedMessageId semanticType))
    | some .nestedField =>
      match words with
      | [] => none
      | msgId :: words =>
        if fieldId = 0 then none
        else loadWords words ({ st with maxMsgIndex := max st.maxMsgIndex msgId }.field fieldId msgId)
    | some .simpleFieldRange =>
      match words with
      | [] => none
      | rangeLen :: words => if fieldId = 0 then none else loadWords words (st.range fieldId rangeLen)

namespace FilterBytecodeParser

/-- `LoadInternal`, on the words of the bytecode and of the overlay. -/
def loadInternal (words : List ℕ) (overlay : List OverlayEntry) : Option FilterBytecodeParser :=
  match loadWords words { overlay } with
  | none => none
  | some st =>
    if !st.isEom then none
    else if st.overlay ≠ [] then none
    else if st.maxMsgIndex > 0 ∧ st.maxMsgIndex ≥ st.parser.messageOffset.length then none
    else some ⟨st.parser.words, st.parser.messageOffset ++ [st.parser.words.length % 2 ^ 32]⟩

/-- `Load`; an empty overlay is the same as none. -/
def load (filterData overlayData : List UInt8) : Option FilterBytecodeParser :=
  match parseAndVerifyChecksum filterData with
  | none => none
  | some words =>
    if overlayData = [] then loadInternal words []
    else
      match parseAndVerifyChecksum overlayData with
      | none => none
      | some overlayWords =>
        match parseOverlay none overlayWords with
        | none => none
        | some overlay => loadInternal words overlay

/-- The state of the first range that has the field. -/
def findRange (fieldId : ℕ) : List ℕ → ℕ
  | rangeStart :: rangeEnd :: rangeState :: word =>
    if fieldId ≥ rangeStart ∧ fieldId < rangeEnd then rangeState else findRange fieldId word
  | _ => 0

/-- The state of a field in the words of its message. -/
def fieldState (fieldId : ℕ) : List ℕ → ℕ
  | [] => 0
  | numDirectlyIndexed :: word =>
    if fieldId < numDirectlyIndexed then word.getD fieldId 0 else findRange fieldId (word.drop numDirectlyIndexed)

/-- The end of `Query`: what a field state says. -/
def resultOf (fieldState : ℕ) : QueryResult :=
  let nestedMsgIndex := fieldState &&& kNotAllowedMask
  { allowed := fieldState &&& kAllowed ≠ 0
    nestedMsgIndex
    semanticType :=
      if nestedMsgIndex &&& kFilterStringFieldWithTypeMask = kFilterStringFieldWithType ∧
          nestedMsgIndex ≠ kFilterStringField then nestedMsgIndex &&& kSemanticTypeMask else 0 }

/-- `Query`. -/
def query (p : FilterBytecodeParser) (msgIndex fieldId : ℕ) : QueryResult :=
  if msgIndex + 1 ≥ p.messageOffset.length then ⟨false, 0, 0⟩
  else
    let startOffset := p.messageOffset.getD msgIndex 0
    let endOff := p.messageOffset.getD (msgIndex + 1) 0
    resultOf (fieldState fieldId ((p.words.take endOff).drop startOffset))

end FilterBytecodeParser

end LynxTrace.Filtering
