import LynxTrace.Filtering.PackedVarInt

/-!
# Filtering.BytecodeGenerator — `FilterBytecodeGenerator` (src/protozero/filtering/filter_bytecode_generator.cc)

The calls of a client, what each does to the generator, and `Serialize`.  `none` is a `PERFETTO_CHECK` that fails.
-/

namespace LynxTrace.Filtering

/-- `FilterOpcode`. -/
inductive FilterOpcode
  | endOfMessage
  | simpleField
  | simpleFieldRange
  | nestedField
  | filterString
  | filterStringWithType
  deriving DecidableEq, Repr

def FilterOpcode.toNat : FilterOpcode → ℕ
  | endOfMessage => 0
  | simpleField => 1
  | simpleFieldRange => 2
  | nestedField => 3
  | filterString => 4
  | filterStringWithType => 5

def FilterOpcode.ofNat? : ℕ → Option FilterOpcode
  | 0 => some endOfMessage
  | 1 => some simpleField
  | 2 => some simpleFieldRange
  | 3 => some nestedField
  | 4 => some filterString
  | 5 => some filterStringWithType
  | _ => none

def kOpcodeMask : ℕ := 0x7

def kOpcodeShift : ℕ := 3

/-- `field_id << kOpcodeShift | opcode`, in `uint32_t`. -/
def fieldWord (fieldId : ℕ) (opcode : FilterOpcode) : ℕ := (fieldId <<< kOpcodeShift) % 2 ^ 32 ||| opcode.toNat

inductive BytecodeVersion
  | kV1
  | kV2
  | kV54
  deriving DecidableEq, Repr

/-- The calls of a client before `Serialize`. -/
inductive Call
  | endMessage
  | addSimpleField (fieldId : ℕ)
  | addFilterStringField (fieldId semanticType : ℕ) (allowInV1 allowInV2 : Bool)
  | addSimpleFieldRange (rangeStart rangeLen : ℕ)
  | addNestedField (fieldId messageIndex : ℕ)
  deriving DecidableEq, Repr

structure FilterBytecodeGenerator where
  minVersion : BytecodeVersion
  numMessages : ℕ := 0
  lastFieldId : ℕ := 0
  maxMsgIndex : ℕ := 0
  endmessageCalled : Bool := false
  bytecode : List ℕ := []
  v54Overlay : List ℕ := []

namespace FilterBytecodeGenerator

/-- The words of a field, appended to the bytecode and to the overlay. -/
def push (g : FilterBytecodeGenerator) (lastFieldId : ℕ) (words overlay : List ℕ) : FilterBytecodeGenerator :=
  { g with bytecode := g.bytecode ++ words, v54Overlay := g.v54Overlay ++ overlay, lastFieldId,
           endmessageCalled := false }

/-- `EndMessage`. -/
def endMessage (g : FilterBytecodeGenerator) : FilterBytecodeGenerator :=
  { g with endmessageCalled := true, bytecode := g.bytecode ++ [FilterOpcode.endOfMessage.toNat], lastFieldId := 0,
           numMessages := (g.numMessages + 1) % 2 ^ 32 }

/-- `AddSimpleField`. -/
def addSimpleField (g : FilterBytecodeGenerator) (fieldId : ℕ) : Option FilterBytecodeGenerator :=
  if fieldId > g.lastFieldId then some (g.push fieldId [fieldWord fieldId .simpleField] []) else none

/-- `AddFilterStringField`. -/
def addFilterStringField (g : FilterBytecodeGenerator) (fieldId semanticType : ℕ) (allowInV1 allowInV2 : Bool) :
    Option FilterBytecodeGenerator :=
  if g.minVersion = .kV1 then
    if allowInV1 then g.addSimpleField fieldId else some g
  else if fieldId > g.lastFieldId then
    if semanticType = 0 then some (g.push fieldId [fieldWord fieldId .filterString] [])
    else if g.minVersion = .kV54 then
      some (g.push fieldId [fieldWord fieldId .filterStringWithType, semanticType] [])
    else
      some (g.push fieldId (if allowInV2 then [fieldWord fieldId .filterString] else [])
        [g.numMessages, fieldWord fieldId .filterStringWithType, semanticType])
  else none

/-- `AddSimpleFieldRange`. -/
def addSimpleFieldRange (g : FilterBytecodeGenerator) (rangeStart rangeLen : ℕ) : Option FilterBytecodeGenerator :=
  if rangeStart > g.lastFieldId ∧ rangeLen > 0 then
    some (g.push ((rangeStart + rangeLen - 1) % 2 ^ 32) [fieldWord rangeStart .simpleFieldRange, rangeLen] [])
  else none

/-- `AddNestedField`. -/
def addNestedField (g : FilterBytecodeGenerator) (fieldId messageIndex : ℕ) : Option FilterBytecodeGenerator :=
  if fieldId > g.lastFieldId then
    some { g.push fieldId [fieldWord fieldId .nestedField, messageIndex] [] with
      maxMsgIndex := max g.maxMsgIndex messageIndex }
  else none

/-- One call of the client. -/
def call (g : FilterBytecodeGenerator) : Call → Option FilterBytecodeGenerator
  | .endMessage => some g.endMessage
  | .addSimpleField fieldId => g.addSimpleField fieldId
  | .addFilterStringField fieldId semanticType allowInV1 allowInV2 =>
    g.addFilterStringField fieldId semanticType allowInV1 allowInV2
  | .addSimpleFieldRange rangeStart rangeLen => g.addSimpleFieldRange rangeStart rangeLen
  | .addNestedField fieldId messageIndex => g.addNestedField fieldId messageIndex

/-- A sequence of calls. -/
def calls : List Call → FilterBytecodeGenerator → Option FilterBytecodeGenerator
  | [], g => some g
  | c :: cs, g => (g.call c).bind (calls cs)

/-- `SerializeResult`. -/
structure SerializeResult where
  bytecode : List UInt8
  v54Overlay : List UInt8

/-- `Serialize`. -/
def serialize (g : FilterBytecodeGenerator) : Option SerializeResult :=
  if g.endmessageCalled ∧ g.maxMsgIndex < g.numMessages then
    some ⟨serializeWords g.bytecode, if g.v54Overlay = [] then [] else serializeWords g.v54Overlay⟩
  else none

end FilterBytecodeGenerator

end LynxTrace.Filtering
