import LynxTrace.Wire.Message

/-!
# Protozero.Decoder — `ProtoDecoder` (src/protozero/proto_decoder.cc)

Buffers are byte lists and a position in a buffer is the list of the bytes left.  `PerfettoPbParseVarInt`,
`ParseOneField` and `ProtoDecoder::ReadField`, with the results the consumers use: what the decoder makes of an
encoded field or message (`readField_encoded`, `readFields_encoded`), and the values any field it returns can
have (`readFields_wellTyped`).
-/

namespace LynxTrace.Protozero

open LynxTrace.Wire

inductive ProtoWireType
  | kVarInt
  | kFixed64
  | kLengthDelimited
  | kFixed32
  deriving DecidableEq, Repr

/-- The numbers of the enumerators, as on the wire. -/
def ProtoWireType.toNat : ProtoWireType → ℕ
  | kVarInt => 0
  | kFixed64 => 1
  | kLengthDelimited => 2
  | kFixed32 => 5

def ProtoWireType.ofNat? : ℕ → Option ProtoWireType
  | 0 => some kVarInt
  | 1 => some kFixed64
  | 2 => some kLengthDelimited
  | 5 => some kFixed32
  | _ => none

theorem ProtoWireType.ofNat?_toNat (t : ProtoWireType) : ofNat? t.toNat = some t := by cases t <;> rfl

theorem ProtoWireType.ofNat?_eq_some {n : ℕ} {t : ProtoWireType} : ofNat? n = some t ↔ n = t.toNat := by
  constructor
  · intro h
    unfold ofNat? at h
    split at h <;> simp_all [toNat, eq_comm]
  · rintro rfl
    exact ofNat?_toNat t

/-- Maximum message size supported: 256 MiB (4 x 7-bit due to varint encoding). -/
def kMaxMessageLength : ℕ := 2 ^ 28 - 1

/-- A decoded field.  The C++ field keeps the address of a length-delimited payload in `int_value_`; here the
payload itself is kept, and `intValue` is 0 for such a field. -/
structure Field where
  id : ℕ := 0
  type : ProtoWireType := .kVarInt
  intValue : ℕ := 0
  data : List UInt8 := []
  deriving DecidableEq, Repr

def Field.valid (f : Field) : Bool := f.id != 0

/-- The largest id a field can hold (`id_ : 24`). -/
def Field.kMaxId : ℕ := 2 ^ 24 - 1

/-! ### Varints -/

/-- The loop of `PerfettoPbParseVarInt`; `none` is its `return start`. -/
def parseVarIntFrom (value shift : ℕ) : List UInt8 → Option (ℕ × List UInt8)
  | [] => none
  | curByte :: pos =>
    if shift < 64 then
      let value := accVarint value shift curByte
      if curByte.toNat &&& 0x80 = 0 then some (value, pos) else parseVarIntFrom value (shift + 7) pos
    else none

/-- The varint at the start of the buffer and the bytes after it. -/
def parseVarInt (buffer : List UInt8) : Option (ℕ × List UInt8) := parseVarIntFrom 0 0 buffer

theorem parseVarIntFrom_eq (i : ℕ) (hi : i ≤ 10) {value : ℕ} (hv : value < 2 ^ (7 * i)) (bs : List UInt8) :
    parseVarIntFrom value (7 * i) bs =
      (decodeVarint (10 - i) bs).map fun r => ((value + r.1 * 2 ^ (7 * i)) % 2 ^ 64, r.2) := by
  induction bs generalizing i value with
  | nil => cases h : 10 - i <;> simp [parseVarIntFrom, decodeVarint]
  | cons b bs ih =>
    rcases Nat.lt_or_ge i 10 with hlt | hge
    · obtain ⟨n, hn⟩ : ∃ n, 10 - i = n + 1 := ⟨10 - i - 1, by omega⟩
      have hacc := accVarint_eq b hv (show 7 * i ≤ 63 by omega)
      rw [parseVarIntFrom, if_pos (by omega), hn, decodeVarint]
      by_cases hb : b.toNat < 128
      · simp only [(cont_bit_iff b).mpr hb, if_pos hb, hacc, Nat.mod_eq_of_lt hb, if_true, Option.map_some]
      · have hlast := accVarint_lt b hv (show 7 * i ≤ 63 by omega)
        simp only [mt (cont_bit_iff b).mp hb, if_neg hb, if_false]
        rw [show 7 * i + 7 = 7 * (i + 1) by ring] at hlast ⊢
        rw [ih (i + 1) (by omega) hlast, show 10 - (i + 1) = n by omega, hacc, Option.map_map]
        congr 1
        funext r
        simp only [Function.comp, Prod.mk.injEq, and_true]
        rw [show 7 * (i + 1) = 7 * i + 7 by ring, pow_add, Nat.mod_add_mod]
        congr 1
        ring
    · obtain rfl : i = 10 := by omega
      simp [parseVarIntFrom, decodeVarint]

/-- `ParseVarInt` reads a varint of at most ten bytes and keeps its low 64 bits. -/
theorem parseVarInt_eq (bs : List UInt8) :
    parseVarInt bs = (decodeVarint 10 bs).map fun r => (r.1 % 2 ^ 64, r.2) := by
  have h0 : 0 < 2 ^ (7 * 0) := by norm_num
  simpa [parseVarInt] using parseVarIntFrom_eq 0 (by omega) h0 bs

variable {bs r enc buf : List UInt8}

theorem parseVarInt_split {v : ℕ} (h : parseVarInt bs = some (v, r)) : ∃ enc, bs = enc ++ r ∧ IsVarint64 enc v := by
  rw [parseVarInt_eq, Option.map_eq_some_iff] at h
  obtain ⟨⟨w, r'⟩, h1, h2⟩ := h
  simp only [Prod.mk.injEq] at h2
  obtain ⟨rfl, rfl⟩ := h2
  obtain ⟨enc, h3, h4, -, -⟩ := decodeVarint_split h1
  exact ⟨enc, h3, w, h4, rfl⟩

theorem parseVarInt_append {v : ℕ} (h : IsVarint64 enc v) (rest : List UInt8) :
    parseVarInt (enc ++ rest) = some (v, rest) := by
  obtain ⟨w, hw, rfl⟩ := h
  rw [parseVarInt_eq, hw.decode]
  rfl

theorem parseVarInt_append_right {v : ℕ} (h : parseVarInt bs = some (v, r)) (ys : List UInt8) :
    parseVarInt (bs ++ ys) = some (v, r ++ ys) := by
  obtain ⟨enc, rfl, henc⟩ := parseVarInt_split h
  rw [List.append_assoc, parseVarInt_append henc]

theorem parseVarInt_length_lt {v : ℕ} (h : parseVarInt bs = some (v, r)) : r.length < bs.length := by
  obtain ⟨enc, rfl, henc⟩ := parseVarInt_split h
  have := List.length_pos_iff.mpr henc.ne_nil
  rw [List.length_append]
  omega

/-! ### Fields -/

inductive ParseResult
  | kAbort
  | kSkip
  | kOk
  deriving DecidableEq, Repr

structure ParseFieldResult where
  parseRes : ParseResult
  next : List UInt8
  field : Field
  deriving DecidableEq, Repr

/-- The checks at the end of `ParseOneField`, once the field and the position after it are known. -/
def finishField (f : Field) (newPos : List UInt8) : ParseFieldResult :=
  if f.id > Field.kMaxId then ⟨.kSkip, newPos, {}⟩
  else if f.data.length > kMaxMessageLength then ⟨.kSkip, newPos, {}⟩
  else ⟨.kOk, newPos, f⟩

/-- Parses one field.  If parsing fails, `next` is the whole buffer. -/
def parseOneField (buffer : List UInt8) : ParseFieldResult :=
  let abort : ParseFieldResult := ⟨.kAbort, buffer, {}⟩
  match buffer with
  | [] => abort
  | first :: rest =>
    -- Fastpath for fields with ID < 16.
    match if first.toNat < 0x80 then some (first.toNat, rest) else parseVarInt buffer with
    | none => abort
    | some (preamble, pos) =>
      let fieldId := preamble / 8 % 2 ^ 32
      if fieldId = 0 ∨ pos = [] then abort
      else
        match ProtoWireType.ofNat? (preamble % 8) with
        | none => abort
        | some .kVarInt =>
          match parseVarInt pos with
          | none => abort
          | some (v, newPos) => finishField { id := fieldId, type := .kVarInt, intValue := v } newPos
        | some .kLengthDelimited =>
          match parseVarInt pos with
          | none => abort
          | some (len, newPos) =>
            if len > newPos.length then abort
            else finishField { id := fieldId, type := .kLengthDelimited, data := newPos.take len }
              (newPos.drop len)
        | some .kFixed64 =>
          if pos.length < 8 then abort
          else finishField { id := fieldId, type := .kFixed64, intValue := leNat (pos.take 8) } (pos.drop 8)
        | some .kFixed32 =>
          if pos.length < 4 then abort
          else finishField { id := fieldId, type := .kFixed32, intValue := leNat (pos.take 4) } (pos.drop 4)

/-- The field the decoder makes of a wire field. -/
def Field.ofWire (f : WireField) : Field :=
  match f.value with
  | .varint v => { id := f.id % 2 ^ 32, type := .kVarInt, intValue := v }
  | .fixed64 v => { id := f.id % 2 ^ 32, type := .kFixed64, intValue := v }
  | .bytes b => { id := f.id % 2 ^ 32, type := .kLengthDelimited, data := b }
  | .fixed32 v => { id := f.id % 2 ^ 32, type := .kFixed32, intValue := v }

@[simp] theorem Field.ofWire_id (f : WireField) : (Field.ofWire f).id = f.id % 2 ^ 32 := by
  unfold ofWire
  cases f.value <;> rfl

/-- `ParseOneField` on an encoded field followed by anything. -/
theorem parseOneField_encoded {f : WireField} (h : EncodesField enc f) (rest : List UInt8) :
    parseOneField (enc ++ rest) =
      if f.id % 2 ^ 32 = 0 then ⟨.kAbort, enc ++ rest, {}⟩ else finishField (Field.ofWire f) rest := by
  obtain ⟨ht, hv⟩ := h
  rename_i tagEnc valEnc
  have htag := parseVarInt_append ht (valEnc ++ rest)
  obtain ⟨b, bs, rfl⟩ := List.exists_cons_of_ne_nil ht.ne_nil
  have hpre : (if b.toNat < 0x80 then some (b.toNat, bs ++ (valEnc ++ rest))
      else parseVarInt (b :: (bs ++ (valEnc ++ rest)))) = some (f.tag, valEnc ++ rest) := by
    split_ifs with hb
    · have hfast : parseVarInt (b :: (bs ++ (valEnc ++ rest))) = some (b.toNat, bs ++ (valEnc ++ rest)) := by
        have hlt := b.toNat_lt
        rw [parseVarInt_eq, decodeVarint, if_pos hb]
        simp only [Option.map_some, Option.some.injEq, Prod.mk.injEq, and_true]
        exact Nat.mod_eq_of_lt (by omega)
      rw [← hfast, ← htag, List.cons_append]
    · exact htag
  have hne : valEnc ++ rest ≠ [] := List.append_ne_nil_of_left_ne_nil hv.ne_nil _
  simp only [parseOneField, List.cons_append, List.append_assoc]
  rw [hpre]
  simp only [f.tag_div, f.tag_mod, hne, or_false]
  by_cases hid : f.id % 2 ^ 32 = 0
  · rw [if_pos hid, if_pos hid]
  rw [if_neg hid, if_neg hid]
  unfold Field.ofWire
  cases hval : f.value <;> rw [hval] at hv <;> cases hv <;>
    simp only [WireValue.wireType, ProtoWireType.ofNat?]
  case varint v h => rw [parseVarInt_append h]
  case fixed64 h =>
    rw [if_neg (by rw [List.length_append]; omega), List.take_left' h, List.drop_left' h]
  case bytes enc payload h =>
    rw [List.append_assoc, parseVarInt_append h]
    simp only
    rw [if_neg (by rw [List.length_append]; omega), List.take_left' rfl, List.drop_left' rfl]
  case fixed32 h =>
    rw [if_neg (by rw [List.length_append]; omega), List.take_left' h, List.drop_left' h]

/-! ### Reading fields in order -/

/-- The loop of `ReadField`, skipping at most `fuel` fields. -/
def readFieldFrom : ℕ → List UInt8 → Field × List UInt8
  | 0, readPtr => ({}, readPtr)
  | fuel + 1, readPtr =>
    let res := parseOneField readPtr
    if res.parseRes = .kSkip then readFieldFrom fuel res.next else (res.field, res.next)

/-- `ProtoDecoder::ReadField`: the next field, or an invalid one, and the new read position. -/
def readField (readPtr : List UInt8) : Field × List UInt8 := readFieldFrom (readPtr.length + 1) readPtr

/-- The field returned by the `k`-th further call of `ReadField`. -/
def readFieldNth : ℕ → List UInt8 → Field
  | 0, readPtr => (readField readPtr).1
  | k + 1, readPtr => readFieldNth k (readField readPtr).2

/-- The fields seen by `for (f = ReadField(); f.valid(); f = ReadField())`, at most `fuel` of them. -/
def readFieldsFrom : ℕ → List UInt8 → List Field
  | 0, _ => []
  | fuel + 1, readPtr =>
    let (f, next) := readField readPtr
    if f.valid then f :: readFieldsFrom fuel next else []

def readFields (readPtr : List UInt8) : List Field := readFieldsFrom readPtr.length readPtr

theorem finishField_next (f : Field) (newPos : List UInt8) : (finishField f newPos).next = newPos := by
  unfold finishField
  split_ifs <;> rfl

/-- A field that is not aborted takes at least one byte. -/
theorem parseOneField_length_lt (h : (parseOneField buf).parseRes ≠ .kAbort) :
    (parseOneField buf).next.length < buf.length := by
  unfold parseOneField at h ⊢
  cases buf with
  | nil => simp at h
  | cons b bs =>
    have hpre : ∀ x, (if b.toNat < 0x80 then some (b.toNat, bs) else parseVarInt (b :: bs)) = some x →
        x.2.length < (b :: bs).length := by
      intro x hx
      split_ifs at hx
      · simp only [Option.some.injEq] at hx
        subst hx
        simp
      · exact parseVarInt_length_lt hx
    cases hp : (if b.toNat < 0x80 then some (b.toNat, bs) else parseVarInt (b :: bs)) with
    | none => simp [hp] at h
    | some x =>
      obtain ⟨preamble, pos⟩ := x
      have hlt : pos.length < (b :: bs).length := hpre _ hp
      simp only [hp] at h ⊢
      by_cases h0 : preamble / 8 % 2 ^ 32 = 0 ∨ pos = []
      · rw [if_pos h0] at h
        exact absurd rfl h
      rw [if_neg h0] at h ⊢
      cases ht : ProtoWireType.ofNat? (preamble % 8) with
      | none => simp [ht] at h
      | some t =>
        simp only [ht] at h ⊢
        cases t with
        | kVarInt =>
          cases hv : parseVarInt pos with
          | none => simp [hv] at h
          | some r =>
            simp only [finishField_next]
            exact (parseVarInt_length_lt hv).trans hlt
        | kLengthDelimited =>
          cases hv : parseVarInt pos with
          | none => simp [hv] at h
          | some r =>
            have hr := parseVarInt_length_lt hv
            simp only [hv] at h ⊢
            split_ifs at h ⊢
            · simp at h
            · rw [finishField_next, List.length_drop]
              omega
        | kFixed64 | kFixed32 =>
          simp only at h ⊢
          split_ifs at h ⊢
          · simp at h
          · rw [finishField_next, List.length_drop]
            omega

theorem readFieldFrom_fuel {n m : ℕ} (hn : buf.length < n) (hm : buf.length < m) :
    readFieldFrom n buf = readFieldFrom m buf := by
  induction n generalizing m buf with
  | zero => omega
  | succ n ih =>
    obtain ⟨m, rfl⟩ : ∃ k, m = k + 1 := ⟨m - 1, by omega⟩
    simp only [readFieldFrom]
    split_ifs with hs
    · have := parseOneField_length_lt (show (parseOneField buf).parseRes ≠ .kAbort by simp [hs])
      exact ih (by omega) (by omega)
    · rfl

/-- One turn of the loop of `ReadField`. -/
theorem readField_eq (buf : List UInt8) : readField buf =
    if (parseOneField buf).parseRes = .kSkip then readField (parseOneField buf).next
    else ((parseOneField buf).field, (parseOneField buf).next) := by
  rw [readField, readFieldFrom]
  split_ifs with hs
  · have := parseOneField_length_lt (show (parseOneField buf).parseRes ≠ .kAbort by simp [hs])
    exact readFieldFrom_fuel (by omega) (by omega)
  · rfl

/-- Whether the decoder returns a wire field, skips it, or stops at it. -/
def Field.Accepted (f : WireField) : Prop :=
  f.id % 2 ^ 32 ≤ Field.kMaxId ∧ (Field.ofWire f).data.length ≤ kMaxMessageLength

instance (f : WireField) : Decidable (Field.Accepted f) := inferInstanceAs (Decidable (_ ∧ _))

theorem finishField_ofWire (f : WireField) (rest : List UInt8) : finishField (Field.ofWire f) rest =
    if Field.Accepted f then ⟨.kOk, rest, Field.ofWire f⟩ else ⟨.kSkip, rest, {}⟩ := by
  unfold finishField
  rw [Field.ofWire_id]
  by_cases h1 : f.id % 2 ^ 32 ≤ Field.kMaxId
  · by_cases h2 : (Field.ofWire f).data.length ≤ kMaxMessageLength
    · rw [if_neg (not_lt.mpr h1), if_neg (not_lt.mpr h2), if_pos (show Field.Accepted f from ⟨h1, h2⟩)]
    · rw [if_neg (not_lt.mpr h1), if_pos (not_le.mp h2), if_neg fun h : Field.Accepted f => h2 h.2]
  · rw [if_pos (not_le.mp h1), if_neg fun h : Field.Accepted f => h1 h.1]

theorem readField_nil : readField [] = ({}, []) := rfl

theorem readField_encoded {f : WireField} (h : EncodesField enc f) (rest : List UInt8) :
    readField (enc ++ rest) =
      if f.id % 2 ^ 32 = 0 then ({}, enc ++ rest)
      else if Field.Accepted f then (Field.ofWire f, rest) else readField rest := by
  rw [readField_eq, parseOneField_encoded h]
  by_cases hid : f.id % 2 ^ 32 = 0
  · rw [if_pos hid, if_pos hid, if_neg (by simp)]
  rw [if_neg hid, if_neg hid, finishField_next]
  have hf := finishField_ofWire f rest
  by_cases ha : Field.Accepted f
  · rw [if_pos ha] at hf ⊢
    rw [hf, if_neg (by simp)]
  · rw [if_neg ha] at hf ⊢
    rw [hf, if_pos rfl]

/-- Reading all fields of a message that has none the decoder stops at or skips. -/
theorem readFields_encoded {fs : List WireField} (h : EncodesMessage bs fs) (hid : ∀ f ∈ fs, f.id % 2 ^ 32 ≠ 0)
    (hacc : ∀ f ∈ fs, Field.Accepted f) : readFields bs = fs.map Field.ofWire := by
  suffices hfuel : ∀ n, bs.length ≤ n → readFieldsFrom n bs = fs.map Field.ofWire from hfuel _ le_rfl
  induction h with
  | nil =>
    intro n _
    cases n with
    | zero => rfl
    | succ n => simp [readFieldsFrom, readField_nil, Field.valid]
  | @cons enc bs f fs hf h ih =>
    intro n hn
    have hpos := List.length_pos_iff.mpr hf.ne_nil
    rw [List.length_append] at hn
    obtain ⟨n, rfl⟩ : ∃ k, n = k + 1 := ⟨n - 1, by omega⟩
    have hread := readField_encoded hf bs
    rw [if_neg (hid f (by simp)), if_pos (hacc f (by simp))] at hread
    have hv : (Field.ofWire f).valid = true := by
      simpa [Field.valid] using hid f (by simp)
    simp only [readFieldsFrom, hread, hv, if_true, List.map_cons]
    rw [ih (fun g hg => hid g (by simp [hg])) (fun g hg => hacc g (by simp [hg])) n (by omega)]

/-! ### Values of decoded fields -/

/-- The id has 32 bits, and a fixed-width value has its width. -/
structure Field.WellTyped (f : Field) : Prop where
  id_lt : f.id < 2 ^ 32
  fixed32_lt : f.type = .kFixed32 → f.intValue < 2 ^ 32
  fixed64_lt : f.type = .kFixed64 → f.intValue < 2 ^ 64

theorem Field.wellTyped_default : Field.WellTyped {} :=
  ⟨by norm_num, nofun, nofun⟩

theorem finishField_wellTyped {f : Field} (h : f.WellTyped) (newPos : List UInt8) :
    (finishField f newPos).field.WellTyped := by
  unfold finishField
  split_ifs
  · exact Field.wellTyped_default
  · exact Field.wellTyped_default
  · exact h

theorem parseOneField_wellTyped (buf : List UInt8) : (parseOneField buf).field.WellTyped := by
  have habort : Field.WellTyped {} := Field.wellTyped_default
  unfold parseOneField
  cases buf with
  | nil => exact habort
  | cons b bs =>
    cases hp : (if b.toNat < 0x80 then some (b.toNat, bs) else parseVarInt (b :: bs)) with
    | none =>
      simp only [hp]
      exact habort
    | some x =>
      obtain ⟨preamble, pos⟩ := x
      simp only [hp]
      by_cases h0 : preamble / 8 % 2 ^ 32 = 0 ∨ pos = []
      · rw [if_pos h0]
        exact habort
      rw [if_neg h0]
      have hid : preamble / 8 % 2 ^ 32 < 2 ^ 32 := Nat.mod_lt _ (by norm_num)
      cases ht : ProtoWireType.ofNat? (preamble % 8) with
      | none => exact habort
      | some t =>
        cases t with
        | kVarInt =>
          cases parseVarInt pos with
          | none => exact habort
          | some r =>
            refine finishField_wellTyped ?_ _
            exact ⟨hid, nofun, nofun⟩
        | kLengthDelimited =>
          cases parseVarInt pos with
          | none => exact habort
          | some r =>
            simp only
            split_ifs
            · exact habort
            · refine finishField_wellTyped ?_ _
              exact ⟨hid, nofun, nofun⟩
        | kFixed64 =>
          simp only
          split_ifs with hlen
          · exact habort
          · have hlt := leNat_lt (pos.take 8)
            rw [List.length_take, Nat.min_eq_left (by omega)] at hlt
            refine finishField_wellTyped ?_ _
            exact ⟨hid, nofun, fun _ => hlt⟩
        | kFixed32 =>
          simp only
          split_ifs with hlen
          · exact habort
          · have hlt := leNat_lt (pos.take 4)
            rw [List.length_take, Nat.min_eq_left (by omega)] at hlt
            refine finishField_wellTyped ?_ _
            exact ⟨hid, fun _ => hlt, nofun⟩

theorem readFieldFrom_wellTyped (n : ℕ) (buf : List UInt8) : (readFieldFrom n buf).1.WellTyped := by
  induction n generalizing buf with
  | zero => exact Field.wellTyped_default
  | succ n ih =>
    simp only [readFieldFrom]
    split_ifs
    · exact ih _
    · exact parseOneField_wellTyped buf

theorem readFields_wellTyped {f : Field} (h : f ∈ readFields buf) : f.WellTyped := by
  suffices hfuel : ∀ n buf, f ∈ readFieldsFrom n buf → f.WellTyped from hfuel _ _ h
  intro n
  induction n with
  | zero => simp [readFieldsFrom]
  | succ n ih =>
    intro buf hf
    simp only [readFieldsFrom] at hf
    split_ifs at hf with hv
    · rcases List.mem_cons.mp hf with rfl | hf
      · exact readFieldFrom_wellTyped _ _
      · exact ih _ hf
    · simp at hf

/-- Every field read from an encoded message is invalid or one of the message's fields. -/
theorem readFieldNth_encoded {fs : List WireField} (h : EncodesMessage bs fs) (k : ℕ) :
    readFieldNth k bs = {} ∨ ∃ f ∈ fs, readFieldNth k bs = Field.ofWire f := by
  induction h generalizing k with
  | nil =>
    left
    induction k with
    | zero => rfl
    | succ k ih => exact ih
  | @cons enc bs f fs hf h ih =>
    have hread := readField_encoded hf bs
    by_cases hid : f.id % 2 ^ 32 = 0
    · rw [if_pos hid] at hread
      left
      induction k with
      | zero => rw [readFieldNth, hread]
      | succ k ihk => rw [readFieldNth, hread, ihk]
    · rw [if_neg hid] at hread
      by_cases ha : Field.Accepted f
      · rw [if_pos ha] at hread
        cases k with
        | zero => exact Or.inr ⟨f, by simp, by rw [readFieldNth, hread]⟩
        | succ k =>
          rw [readFieldNth, hread]
          exact (ih k).imp_right fun ⟨g, hg, e⟩ => ⟨g, by simp [hg], e⟩
      · rw [if_neg ha] at hread
        have hsame : readFieldNth k (enc ++ bs) = readFieldNth k bs := by
          cases k with
          | zero | succ k => rw [readFieldNth, readFieldNth, hread]
        rw [hsame]
        exact (ih k).imp_right fun ⟨g, hg, e⟩ => ⟨g, by simp [hg], e⟩

end LynxTrace.Protozero
