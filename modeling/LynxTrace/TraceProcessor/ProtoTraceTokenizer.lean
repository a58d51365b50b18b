import LynxTrace.Protozero.Decoder
import LynxTrace.TraceProcessor.TraceBlobViewReader

/-!
# TraceProcessor.ProtoTraceTokenizer — `ProtoTraceTokenizer` (src/trace_processor/importers/proto/proto_trace_tokenizer.h)

Decompression is a parameter, and so is the callback: its status may depend on everything passed to it before.  `fault`
stands for a failing CHECK or a slice that is not inside the buffer it is cut from.
-/

namespace LynxTrace.TraceProcessor

open LynxTrace.Wire LynxTrace.Protozero

/-- `MakeTagLengthDelimited(Trace::kPacketFieldNumber)`. -/
def kTracePacketTag : ℕ := 0x0A

def kMinHeaderBytes : ℕ := 2

def kMaxHeaderBytes : ℕ := 20

def kCompressedPacketsFieldNumber : ℕ := 50

inductive TokenizeStatus
  | ok
  | error
  | fault
  deriving DecidableEq, Repr

/-- What the tokenizer uses: the decompressor (`none` is an error) and the callback (`false` is an error), which is given
the packets passed before. -/
structure TokenizerEnv where
  isGzipSupported : Bool
  decompress : List UInt8 → Option (List UInt8)
  callback : List (List UInt8) → List UInt8 → Bool

/-- The reader, and the packets passed to the callback so far. -/
structure Tokenizer where
  reader : TraceBlobViewReader := {}
  passed : List (List UInt8) := []

/-- `decoder.compressed_packets()`: the last field with that id. -/
def compressedPackets (packet : List UInt8) : Option Field :=
  (readFields packet).reverse.find? fun f => f.id = kCompressedPacketsFieldNumber

/-- A turn that goes on with the loop, or returns. -/
inductive Turn
  | next (t : Tokenizer)
  | done (status : TokenizeStatus) (t : Tokenizer)

variable (env : TokenizerEnv)

/-- The callback on one packet. -/
def pass (packet : List UInt8) (t : Tokenizer) : Turn :=
  let t' := { t with passed := t.passed ++ [packet] }
  if env.callback t.passed packet then .next t' else .done .error t'

/-- The loop over decompressed bytes; `rest` are the bytes from `ptr` on. -/
def unpack (rest : List UInt8) (t : Tokenizer) : Turn :=
  if rest.length > 2 then
    match rest with
    | [] => .next t
    | tag :: afterTag =>
      if tag.toNat ≠ kTracePacketTag then .done .error t
      else
        -- A size that cannot be parsed is 0, with nothing read.
        let (packetSize, packetStart) := (parseVarInt afterTag).getD (0, afterTag)
        let ptr := ((tag :: afterTag).length - packetStart.length + packetSize) % 2 ^ 64
        if ptr < 2 ∨ ptr > (tag :: afterTag).length then .done .error t
        else
          match viewSliceOff packetStart 0 packetSize with
          | none => .done .fault t
          | some sliced =>
            match pass env sliced t with
            | .next t => unpack ((tag :: afterTag).drop ptr) t
            | .done status t => .done status t
  else .next t
termination_by rest.length
decreasing_by
  rw [List.length_drop]
  omega

/-- What is done with the bytes of a packet. -/
def tokenizePacket (packet : List UInt8) (t : Tokenizer) : Turn :=
  match compressedPackets packet with
  | none => pass env packet t
  | some field =>
    if !env.isGzipSupported then .done .error t
    -- The data of a field of another type is not in the packet.
    else if field.type ≠ .kLengthDelimited then .done .fault t
    else
      match env.decompress field.data with
      | none => .done .error t
      | some packets => unpack env packets t

/-- `PERFETTO_CHECK(reader_.PopFrontBytes(bytes))`. -/
def popFrontBytes (bytes : ℕ) (t : Tokenizer) : Turn :=
  match t.reader.popFrontBytes bytes with
  | some (true, reader) => .next { t with reader }
  | _ => .done .fault t

/-- One turn of the loop of `Tokenize`. -/
def step (t : Tokenizer) : Turn :=
  let startOffset := t.reader.startOffset
  let avail := t.reader.avail
  match t.reader.sliceOff startOffset (min (max avail kMinHeaderBytes) kMaxHeaderBytes) with
  | none => .done .fault t
  | some none => .done .ok t
  | some (some header) =>
    let wait := if header.length < kMaxHeaderBytes then .done .ok t else .done .error t
    match parseVarInt header with
    | none => wait
    | some (tag, tagEnd) =>
      if tag ≠ kTracePacketTag then
        match ProtoWireType.ofNat? (tag % 8) with
        | some .kVarInt =>
          match parseVarInt tagEnd with
          | none => wait
          | some (_, varintEnd) => popFrontBytes (header.length - varintEnd.length) t
        | some .kLengthDelimited =>
          match parseVarInt tagEnd with
          | none => wait
          | some (varint, varintEnd) =>
            let sizeInclHeader := (header.length - varintEnd.length + varint) % 2 ^ 64
            if sizeInclHeader > avail then .done .ok t else popFrontBytes sizeInclHeader t
        | some .kFixed64 =>
          let sizeInclHeader := header.length - tagEnd.length + 8
          if sizeInclHeader > avail then .done .ok t else popFrontBytes sizeInclHeader t
        | some .kFixed32 =>
          let sizeInclHeader := header.length - tagEnd.length + 4
          if sizeInclHeader > avail then .done .ok t else popFrontBytes sizeInclHeader t
        | none => .done .error t
      else
        match parseVarInt tagEnd with
        | none => wait
        | some (fieldSize, sizeEnd) =>
          let hdrSize := header.length - sizeEnd.length
          if fieldSize = 0 then popFrontBytes hdrSize t
          else if fieldSize > avail - hdrSize then .done .ok t
          else
            match t.reader.sliceOff (startOffset + hdrSize) fieldSize with
            | some (some packet) =>
              match popFrontBytes (hdrSize + fieldSize) t with
              | .next t => tokenizePacket env packet t
              | .done status t => .done status t
            | _ => .done .fault t

/-- At most `n` turns of the loop. -/
def loop : ℕ → Tokenizer → Option (TokenizeStatus × Tokenizer)
  | 0, _ => none
  | n + 1, t =>
    match step env t with
    | .next t => loop n t
    | .done status t => some (status, t)

/-- `Tokenize`. -/
def tokenize (n : ℕ) (view : List UInt8) (t : Tokenizer) : Option (TokenizeStatus × Tokenizer) :=
  loop env n { t with reader := t.reader.pushBack view }

/-- The calls of `Tokenize` for the pieces of a stream, up to the first error. -/
def tokenizeAll (n : ℕ) : List (List UInt8) → Tokenizer → Option (TokenizeStatus × Tokenizer)
  | [], t => some (.ok, t)
  | view :: views, t =>
    match tokenize env n view t with
    | some (.ok, t) => tokenizeAll n views t
    | res => res

end LynxTrace.TraceProcessor
