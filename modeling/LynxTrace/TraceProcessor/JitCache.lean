import LynxTrace.Text.Base64
import LynxTrace.TraceProcessor.AddressRange
import Mathlib.Logic.Function.Basic

/-!
# TraceProcessor.JitCache — `JitCache` (src/trace_processor/importers/common/jit_cache.cc)

Strings are lists of bytes, ids are places in the tables, and a hash map is a function from its keys.  An operation
gives `none` where the code reads through an iterator or an id that leads nowhere, or where a `PERFETTO_CHECK` fails.
-/

namespace LynxTrace.TraceProcessor

namespace AddressRange

/-- `Contains` of a range. -/
def containsRange (r other : AddressRange) : Bool := r.start ≤ other.start && other.end_ ≤ r.end_

def size (r : AddressRange) : ℕ := r.end_ - r.start

end AddressRange

namespace JitCache

/-! ### The tables -/

structure FrameRow where
  name : List UInt8
  mapping : ℕ
  relPc : Int64
  symbolSetId : Option ℕ
  deriving DecidableEq

structure JitCodeRow where
  createTs : ℤ
  estimatedDeleteTs : Option ℤ
  utid : ℕ
  startAddress : Int64
  size : Int64
  functionName : List UInt8
  nativeCodeBase64 : List UInt8
  deriving DecidableEq

structure JitFrameRow where
  jitCodeId : ℕ
  frameId : ℕ
  deriving DecidableEq

structure SymbolRow where
  symbolSetId : ℕ
  name : List UInt8
  sourceFile : List UInt8
  lineNumber : ℕ
  deriving DecidableEq

/-- The tables, the process of each thread, and the number of unknown frames. -/
structure Storage where
  frames : List FrameRow
  jitCode : List JitCodeRow
  jitFrames : List JitFrameRow
  symbols : List SymbolRow
  threads : List (Option ℕ)
  jitUnknownFrame : ℕ

/-! ### The source -/

structure SourceLocation where
  fileName : List UInt8
  lineNumber : ℕ
  deriving DecidableEq

structure FrameKey where
  mappingId : ℕ
  relPc : UInt64
  deriving DecidableEq

/-- What is read of a `VirtualMemoryMapping`. -/
structure Mapping where
  mappingId : ℕ
  start : UInt64
  offset : UInt64
  loadBias : UInt64
  deriving DecidableEq

def Mapping.toAddress (m : Mapping) (relPc : UInt64) : UInt64 := relPc + (m.start - m.offset - m.loadBias)

structure JittedFunction where
  jitCodeId : ℕ
  symbolSetId : Option ℕ
  internedFrames : FrameKey → Option ℕ

structure State where
  storage : Storage
  upid : ℕ
  range : AddressRange
  functions : AddressRangeMap JittedFunction
  unknownFrames : FrameKey → Option ℕ

/-- `JittedFunction::InternFrame` -/
def JittedFunction.internFrame (f : JittedFunction) (storage : Storage) (key : FrameKey) :
    Option (Storage × JittedFunction × ℕ × Bool) :=
  match f.internedFrames key with
  | some id => some (storage, f, id, false)
  | none =>
    storage.jitCode[f.jitCodeId]?.map fun code =>
      let frameId := storage.frames.length
      ({ storage with
          frames := storage.frames ++ [⟨code.functionName, key.mappingId, key.relPc.toInt64, f.symbolSetId⟩]
          jitFrames := storage.jitFrames ++ [⟨f.jitCodeId, frameId⟩] },
        { f with internedFrames := Function.update f.internedFrames key (some frameId) }, frameId, true)

/-- `set_estimated_delete_ts` for every entry that the callback is called with. -/
def markDeleted (timestamp : ℤ) (rows : List JitCodeRow) :
    List (AddressRange × JittedFunction) → Option (List JitCodeRow)
  | [] => some rows
  | e :: rest =>
    if e.2.jitCodeId < rows.length then
      markDeleted timestamp (rows.modify e.2.jitCodeId fun row => { row with estimatedDeleteTs := some timestamp }) rest
    else none

/-- `DeleteOverlapsAndEmplace`, with the callback. -/
def emplaceFunction (s : State) (timestamp : ℤ) (range : AddressRange) (f : JittedFunction) : Option State :=
  let (_, called, functions) := AddressRangeMap.deleteOverlapsAndEmplace s.functions range f
  (markDeleted timestamp s.storage.jitCode called).map fun rows =>
    { s with functions := functions, storage := { s.storage with jitCode := rows } }

def loadCode (s : State) (timestamp : ℤ) (utid : ℕ) (codeRange : AddressRange) (functionName : List UInt8)
    (sourceLocation : Option SourceLocation) (nativeCode : List UInt8) : Option (State × ℕ) :=
  if s.range.containsRange codeRange ∧ s.storage.threads[utid]? = some (some s.upid) ∧
      (nativeCode.length = 0 ∨ nativeCode.length = codeRange.size) then
    (Text.Base64.base64Encode nativeCode).toOption.bind fun base64 =>
      let symbolSetId := sourceLocation.map fun _ => s.storage.symbols.length
      let symbols := sourceLocation.toList.map fun location =>
        ⟨s.storage.symbols.length, functionName, location.fileName, location.lineNumber⟩
      let jitCodeId := s.storage.jitCode.length
      let row : JitCodeRow := ⟨timestamp, none, utid, Int64.ofNat codeRange.start, Int64.ofNat codeRange.size,
        functionName, base64⟩
      let storage := { s.storage with symbols := s.storage.symbols ++ symbols, jitCode := s.storage.jitCode ++ [row] }
      (emplaceFunction { s with storage := storage } timestamp codeRange ⟨jitCodeId, symbolSetId, fun _ => none⟩).map
        fun s => (s, jitCodeId)
  else none

/-- `MoveCode`: `AddressRange(to_code_start, old_code_range.size())` takes the size for the end. -/
def moveCode (s : State) (timestamp : ℤ) (fromCodeStart toCodeStart : ℕ) : Option (State × ℕ) :=
  (AddressRangeMap.find s.functions fromCodeStart).bind fun (oldCodeRange, func) =>
    (AddressRange.make toCodeStart oldCodeRange.size).bind fun newCodeRange =>
      let functions := s.functions.filter fun e => e.1 ≠ oldCodeRange
      (emplaceFunction { s with functions := functions } timestamp newCodeRange func).map fun s => (s, func.jitCodeId)

/-- The number of a frame that has no name, as `%x` writes it. -/
def hexDigits (n : ℕ) : List UInt8 := (Nat.toDigits 16 n).map Char.toUInt8

/-- The name of a frame of unknown code. -/
def unknownName (functionName : List UInt8) (relPc : UInt64) : List UInt8 :=
  if functionName = [] then "[+0x".toUTF8.toList ++ hexDigits relPc.toNat ++ "]".toUTF8.toList else functionName

def internFrame (s : State) (mapping : Mapping) (relPc : UInt64) (functionName : List UInt8) :
    Option (State × ℕ × Bool) :=
  let key : FrameKey := ⟨mapping.mappingId, relPc⟩
  match AddressRangeMap.find s.functions (mapping.toAddress relPc).toNat with
  | some (range, func) =>
    (func.internFrame s.storage key).map fun (storage, func, id, isNew) =>
      ({ s with
          storage := storage
          functions := s.functions.map fun e => if e.1 = range then (e.1, func) else e }, id, isNew)
  | none =>
    match s.unknownFrames key with
    | some id => some (s, id, false)
    | none =>
      let id := s.storage.frames.length
      some ({ s with
          storage := { s.storage with
            jitUnknownFrame := s.storage.jitUnknownFrame + 1
            frames := s.storage.frames ++ [⟨unknownName functionName relPc, key.mappingId, relPc.toInt64, none⟩] }
          unknownFrames := Function.update s.unknownFrames key (some id) }, id, true)

end JitCache

end LynxTrace.TraceProcessor
