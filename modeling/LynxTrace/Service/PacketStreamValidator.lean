import LynxTrace.Protozero.Decoder

/-!
# Service.PacketStreamValidator — top-level checks on producer packets

`ProtoFieldParserFSM` and `PacketStreamValidator::Validate` (src/tracing/service/packet_stream_validator.cc).
The slices of a packet are byte lists.  `feed` is one turn of the inner loop when only one byte is skipped at a
time; `validateSlice_eq` shows that slicing does not matter, `validate_iff` that the accepted packets are the
encoded messages without reserved fields.
-/

namespace LynxTrace.PacketStreamValidator

open LynxTrace.Wire LynxTrace.Protozero

/-! ### The automaton -/

/-- trusted_uid, trusted_packet_sequence_id, trace_config, trace_stats, compressed_packets,
synchronization_marker, trusted_pid, machine_id, service_event. -/
def kReservedFieldIds : List ℕ := [3, 10, 33, 35, 50, 36, 79, 98, 69]

inductive FsmState
  | kFieldPreamble
  | kVarIntValue
  | kLenDelimitedLen
  -- Error states.
  | kWroteReservedField
  | kUnknownFieldType
  | kMessageTooBig
  | kInvalidVarInt
  deriving DecidableEq, Repr

structure ProtoFieldParserFSM where
  state : FsmState := .kFieldPreamble
  varint : ℕ := 0
  varintShift : ℕ := 0
  deriving DecidableEq, Repr

/-- The `switch` of `Push`: a varint is complete; the new state and the number of bytes to skip. -/
def FsmState.onVarint (state : FsmState) (varint : ℕ) : FsmState × ℕ :=
  match state with
  | .kFieldPreamble =>
    let fieldId := varint / 8 % 2 ^ 32
    if fieldId ∈ kReservedFieldIds then (.kWroteReservedField, 0)
    else
      match ProtoWireType.ofNat? (varint % 8) with
      | some .kVarInt => (.kVarIntValue, 0)
      | some .kFixed32 => (.kFieldPreamble, 4)
      | some .kFixed64 => (.kFieldPreamble, 8)
      | some .kLengthDelimited => (.kLenDelimitedLen, 0)
      | none => (.kUnknownFieldType, 0)
  | .kVarIntValue => (.kFieldPreamble, 0)
  | .kLenDelimitedLen => if varint > kMaxMessageLength then (.kMessageTooBig, 0) else (.kFieldPreamble, varint)
  -- Persistent error states.
  | s => (s, 0)

/-- `Push`: the next state and how many bytes to skip until the next field. -/
def ProtoFieldParserFSM.push (p : ProtoFieldParserFSM) (octet : UInt8) : ProtoFieldParserFSM × ℕ :=
  let varint := accVarint p.varint p.varintShift octet
  if octet.toNat &&& 0x80 ≠ 0 then
    let shift := p.varintShift + 7
    if shift ≥ 64 then ({ state := .kInvalidVarInt, varint, varintShift := 0 }, 0)
    else ({ p with varint, varintShift := shift }, 0)
  else
    let (state, skip) := p.state.onVarint varint
    ({ state, varint := 0, varintShift := 0 }, skip)

def ProtoFieldParserFSM.valid (p : ProtoFieldParserFSM) : Bool :=
  p.state = .kFieldPreamble ∧ p.varintShift = 0

/-- The inner loop of `Validate` over what is left of one slice. -/
def validateSlice (parser : ProtoFieldParserFSM) (skipBytes : ℕ) : List UInt8 → ProtoFieldParserFSM × ℕ
  | [] => (parser, skipBytes)
  | octet :: rest =>
    let skipBytesCurSlice := min skipBytes (rest.length + 1)
    if skipBytesCurSlice > 0 then
      validateSlice parser (skipBytes - skipBytesCurSlice) (rest.drop (skipBytesCurSlice - 1))
    else
      let (parser, skipBytes) := parser.push octet
      validateSlice parser skipBytes rest
termination_by bytes => bytes.length
decreasing_by all_goals simp only [List.length_cons, List.length_drop]; omega

def validate (slices : List (List UInt8)) : Bool :=
  let (parser, skipBytes) := slices.foldl (fun r slice => validateSlice r.1 r.2 slice) ({}, 0)
  skipBytes = 0 ∧ parser.valid

/-! ### Slicing does not matter -/

/-- One byte of input: skipped, or pushed into the automaton. -/
def feed (r : ProtoFieldParserFSM × ℕ) (octet : UInt8) : ProtoFieldParserFSM × ℕ :=
  if r.2 > 0 then (r.1, r.2 - 1) else r.1.push octet

variable {bs : List UInt8}

theorem foldl_feed_skip (p : ProtoFieldParserFSM) {n skip : ℕ} (hn : n ≤ skip) (hl : n ≤ bs.length) :
    bs.foldl feed (p, skip) = (bs.drop n).foldl feed (p, skip - n) := by
  induction n generalizing skip bs with
  | zero => simp
  | succ n ih =>
    cases bs with
    | nil => simp at hl
    | cons b bs =>
      have hstep : feed (p, skip) b = (p, skip - 1) := by simp [feed, show 0 < skip by omega]
      rw [List.foldl_cons, hstep, ih (by omega) (by simpa using hl), List.drop_succ_cons]
      congr 2
      omega

theorem validateSlice_eq (p : ProtoFieldParserFSM) (skip : ℕ) (bs : List UInt8) :
    validateSlice p skip bs = bs.foldl feed (p, skip) := by
  induction hn : bs.length using Nat.strong_induction_on generalizing p skip bs with
  | _ n ih =>
    subst hn
    cases bs with
    | nil => rw [validateSlice, List.foldl_nil]
    | cons b rest =>
      rw [validateSlice]
      by_cases hs : min skip (rest.length + 1) > 0
      · simp only [if_pos hs]
        rw [ih _ (by simp only [List.length_cons, List.length_drop]; omega) _ _ _ rfl]
        obtain ⟨k, hk⟩ : ∃ k, min skip (rest.length + 1) = k + 1 := ⟨_, (Nat.succ_pred_eq_of_pos hs).symm⟩
        have hlen : k + 1 ≤ (b :: rest).length := by
          rw [List.length_cons]
          omega
        have hskip : k + 1 ≤ skip := by omega
        rw [foldl_feed_skip p hskip hlen, hk, List.drop_succ_cons, Nat.add_sub_cancel]
      · simp only [if_neg hs]
        rw [ih _ (by simp) _ _ _ rfl, List.foldl_cons]
        have h0 : skip = 0 := by omega
        simp [feed, h0]

theorem validate_eq (slices : List (List UInt8)) : validate slices =
    decide ((slices.flatten.foldl feed ({}, 0)).2 = 0 ∧ (slices.flatten.foldl feed ({}, 0)).1.valid) := by
  have hfold : slices.foldl (fun r slice => validateSlice r.1 r.2 slice) ({}, 0) =
      slices.flatten.foldl feed ({}, 0) := by
    rw [List.foldl_flatten]
    congr 1
    funext r slice
    rw [validateSlice_eq]
  rw [validate, hfold]

/-! ### What a run of the automaton does -/

def FsmState.isError : FsmState → Bool
  | .kFieldPreamble | .kVarIntValue | .kLenDelimitedLen => false
  | _ => true

/-- The state after a complete varint. -/
def ready (state : FsmState) (varint : ℕ) : ProtoFieldParserFSM × ℕ :=
  ({ state := (state.onVarint varint).1 }, (state.onVarint varint).2)

theorem push_last (p : ProtoFieldParserFSM) {b : UInt8} (hb : b.toNat < 128) :
    p.push b = ready p.state (accVarint p.varint p.varintShift b) := by
  simp [ProtoFieldParserFSM.push, (cont_bit_iff b).mpr hb, ready]

theorem push_more (p : ProtoFieldParserFSM) {b : UInt8} (hb : ¬ b.toNat < 128) :
    p.push b =
      if p.varintShift + 7 ≥ 64 then
        ({ state := .kInvalidVarInt, varint := accVarint p.varint p.varintShift b }, 0)
      else ({ p with varint := accVarint p.varint p.varintShift b, varintShift := p.varintShift + 7 }, 0) := by
  simp [ProtoFieldParserFSM.push, mt (cont_bit_iff b).mp hb]

/-- Error states are persistent. -/
theorem foldl_feed_error {r : ProtoFieldParserFSM × ℕ} (h : r.1.state.isError) : (bs.foldl feed r).1.state.isError := by
  induction bs generalizing r with
  | nil => exact h
  | cons b bs ih =>
    apply ih
    unfold feed
    by_cases h1 : r.2 > 0
    · rwa [if_pos h1]
    rw [if_neg h1]
    by_cases hb : b.toNat < 128
    · rw [push_last _ hb]
      cases hs : r.1.state <;> simp [hs, ready, FsmState.isError, FsmState.onVarint] at h ⊢
    · rw [push_more _ hb]
      split_ifs
      · rfl
      · exact h

theorem not_valid_of_error {p : ProtoFieldParserFSM} (h : p.state.isError) : p.valid = false := by
  cases hs : p.state <;> simp [hs, FsmState.isError, ProtoFieldParserFSM.valid] at h ⊢

/-- A varint in the input is folded into `varint_` and then dispatched on. -/
theorem foldl_feed_varint (i : ℕ) (hi : i ≤ 9) {acc : ℕ} (hacc : acc < 2 ^ (7 * i)) (st : FsmState) {rest : List UInt8}
    {w : ℕ} (h : decodeVarint (10 - i) bs = some (w, rest)) :
    bs.foldl feed ({ state := st, varint := acc, varintShift := 7 * i }, 0) =
      rest.foldl feed (ready st ((acc + w * 2 ^ (7 * i)) % 2 ^ 64)) := by
  induction bs generalizing i acc w with
  | nil => cases hn : 10 - i <;> simp [hn, decodeVarint] at h
  | cons b bs ih =>
    obtain ⟨n, hn⟩ : ∃ n, 10 - i = n + 1 := ⟨10 - i - 1, by omega⟩
    have heq := accVarint_eq b hacc (show 7 * i ≤ 63 by omega)
    rw [hn, decodeVarint] at h
    rw [List.foldl_cons, feed, if_neg (by simp)]
    by_cases hb : b.toNat < 128
    · simp only [if_pos hb, Option.some.injEq, Prod.mk.injEq] at h
      obtain ⟨rfl, rfl⟩ := h
      rw [push_last _ hb, heq, Nat.mod_eq_of_lt hb]
    · rw [if_neg hb, Option.map_eq_some_iff] at h
      obtain ⟨⟨w', rest'⟩, h1, h2⟩ := h
      simp only [Prod.mk.injEq] at h2
      obtain ⟨rfl, rfl⟩ := h2
      have hi9 : i ≠ 9 := by
        rintro rfl
        obtain rfl : n = 0 := by omega
        simp [decodeVarint] at h1
      have hlt := accVarint_lt b hacc (show 7 * i ≤ 63 by omega)
      rw [push_more _ hb, if_neg (by simp only; omega)]
      simp only [show 7 * i + 7 = 7 * (i + 1) by ring] at hlt ⊢
      rw [ih (i + 1) (by omega) hlt (by rw [show 10 - (i + 1) = n by omega]; exact h1), heq]
      congr 2
      rw [show 7 * (i + 1) = 7 * i + 7 by ring, pow_add, Nat.mod_add_mod]
      congr 1
      ring

/-- Input that ends inside a varint, or whose varint does not end in ten bytes, is not accepted. -/
theorem not_valid_of_no_varint (i : ℕ) (hi : i ≤ 9) (acc : ℕ) (st : FsmState)
    (hst : i ≠ 0 ∨ st ≠ .kFieldPreamble ∨ bs ≠ []) (h : decodeVarint (10 - i) bs = none) :
    (bs.foldl feed ({ state := st, varint := acc, varintShift := 7 * i }, 0)).1.valid = false := by
  induction bs generalizing i acc with
  | nil =>
    rw [List.foldl_nil, ProtoFieldParserFSM.valid, decide_eq_false_iff_not]
    rintro ⟨h1, h2⟩
    simp only at h1 h2
    rcases hst with h | h | h
    · omega
    · exact h h1
    · exact h rfl
  | cons b bs ih =>
    obtain ⟨n, hn⟩ : ∃ n, 10 - i = n + 1 := ⟨10 - i - 1, by omega⟩
    rw [hn, decodeVarint] at h
    by_cases hb : b.toNat < 128
    · simp [hb] at h
    rw [if_neg hb, Option.map_eq_none_iff] at h
    rw [List.foldl_cons, feed, if_neg (by simp), push_more _ hb]
    by_cases hi9 : i = 9
    · subst hi9
      exact not_valid_of_error (foldl_feed_error rfl)
    · rw [if_neg (by simp only; omega)]
      simp only [show 7 * i + 7 = 7 * (i + 1) by ring]
      exact ih (i + 1) (by omega) _ (Or.inl (by omega)) (by rw [show 10 - (i + 1) = n by omega]; exact h)

/-! ### The accepted packets -/

/-- A field a producer may write.  Ids are 32-bit: both the validator and the decoder drop the higher bits of a
64-bit tag. -/
def SafeField (f : WireField) : Prop :=
  f.id % 2 ^ 32 ∉ kReservedFieldIds ∧ ∀ b, f.value = .bytes b → b.length ≤ kMaxMessageLength

/-- The bytes are complete top-level fields, none of them reserved. -/
def SafePacket (bs : List UInt8) : Prop := ∃ fs, EncodesMessage bs fs ∧ ∀ f ∈ fs, SafeField f

/-- The automaton has consumed whole fields only. -/
def Accepts (r : ProtoFieldParserFSM × ℕ) : Prop := r.2 = 0 ∧ r.1.valid

theorem foldl_feed_varint64 (st : FsmState) {enc : List UInt8} {v : ℕ} (h : IsVarint64 enc v)
    (rest : List UInt8) : (enc ++ rest).foldl feed ({ state := st }, 0) = rest.foldl feed (ready st v) := by
  obtain ⟨w, hw, rfl⟩ := h
  have h0 : 0 < 2 ^ (7 * 0) := by norm_num
  simpa using foldl_feed_varint 0 (by omega) h0 st (hw.decode rest)

theorem onVarint_tag {f : WireField} (hf : f.id % 2 ^ 32 ∉ kReservedFieldIds) :
    FsmState.kFieldPreamble.onVarint f.tag =
      match f.value with
      | .varint _ => (.kVarIntValue, 0)
      | .fixed64 _ => (.kFieldPreamble, 8)
      | .bytes _ => (.kLenDelimitedLen, 0)
      | .fixed32 _ => (.kFieldPreamble, 4) := by
  simp only [FsmState.onVarint, f.tag_div, f.tag_mod, if_neg hf]
  cases f.value <;> rfl

/-- A safe field takes the automaton back to where it was. -/
theorem foldl_feed_field {enc : List UInt8} {f : WireField} (h : EncodesField enc f) (hs : SafeField f)
    (rest : List UInt8) : (enc ++ rest).foldl feed ({}, 0) = rest.foldl feed ({}, 0) := by
  obtain ⟨ht, hv⟩ := h
  rename_i tagEnc valEnc
  rw [List.append_assoc, foldl_feed_varint64 _ ht, ready, onVarint_tag hs.1]
  have hskip : ∀ {n : ℕ} {bs : List UInt8}, bs.length = n →
      (bs ++ rest).foldl feed ({}, n) = rest.foldl feed ({}, 0) := by
    rintro _ bs rfl
    rw [foldl_feed_skip _ le_rfl (by simp), List.drop_left, Nat.sub_self]
  cases hval : f.value <;> rw [hval] at hv <;> cases hv
  case varint v h => exact foldl_feed_varint64 _ h rest
  case fixed64 h => exact hskip h
  case bytes enc payload h =>
    rw [List.append_assoc, foldl_feed_varint64 _ h, ready]
    simp only [FsmState.onVarint, if_neg (not_lt.mpr (hs.2 _ hval))]
    exact hskip rfl
  case fixed32 h => exact hskip h

theorem accepts_of_safePacket (h : SafePacket bs) : Accepts (bs.foldl feed ({}, 0)) := by
  obtain ⟨fs, hm, hs⟩ := h
  induction hm with
  | nil => exact ⟨rfl, rfl⟩
  | cons hf _ ih =>
    rw [foldl_feed_field hf (hs _ (by simp))]
    exact ih fun f hf => hs f (by simp [hf])

theorem SafePacket.cons {enc : List UInt8} {f : WireField} (hf : EncodesField enc f) (hs : SafeField f)
    (h : SafePacket bs) : SafePacket (enc ++ bs) := by
  obtain ⟨fs, hm, hfs⟩ := h
  refine ⟨f :: fs, .cons hf hm, fun g hg => ?_⟩
  rcases List.mem_cons.mp hg with rfl | hg
  · exact hs
  · exact hfs g hg

/-- A non-empty accepted input starts with a varint, and what follows it is accepted from the state the varint
leads to. -/
theorem accepts_varint {st : FsmState} (hst : st ≠ .kFieldPreamble ∨ bs ≠ [])
    (h : Accepts (bs.foldl feed ({ state := st }, 0))) :
    ∃ enc v rest, bs = enc ++ rest ∧ IsVarint64 enc v ∧ Accepts (rest.foldl feed (ready st v)) ∧
      rest.length < bs.length := by
  cases hd : decodeVarint 10 bs with
  | none =>
    have := not_valid_of_no_varint 0 (by omega) 0 st (Or.inr hst) hd
    rw [h.2] at this
    exact absurd this (by simp)
  | some r =>
    obtain ⟨w, rest⟩ := r
    obtain ⟨enc, rfl, hw, -, -⟩ := decodeVarint_split hd
    have henc : IsVarint64 enc (w % 2 ^ 64) := ⟨w, hw, rfl⟩
    rw [foldl_feed_varint64 st henc] at h
    exact ⟨enc, _, rest, rfl, henc, h, decodeVarint_length_lt hd⟩

/-- Skipped bytes must be there. -/
theorem accepts_skip {n : ℕ} (h : Accepts (bs.foldl feed ({}, n))) :
    ∃ payload rest, bs = payload ++ rest ∧ payload.length = n ∧ Accepts (rest.foldl feed ({}, 0)) := by
  rcases Nat.le_total n bs.length with hle | hle
  · rw [foldl_feed_skip _ le_rfl hle, Nat.sub_self] at h
    exact ⟨bs.take n, bs.drop n, (List.take_append_drop n bs).symm, by simpa using hle, h⟩
  · rw [foldl_feed_skip _ hle le_rfl, List.drop_length, List.foldl_nil] at h
    have h0 : n - bs.length = 0 := h.1
    exact ⟨bs, [], by simp, by omega, rfl, rfl⟩

theorem not_accepts_error {r : ProtoFieldParserFSM × ℕ} (he : r.1.state.isError) (bs : List UInt8) :
    ¬ Accepts (bs.foldl feed r) := by
  intro h
  have hv : (bs.foldl feed r).1.valid = false := not_valid_of_error (foldl_feed_error he)
  rw [h.2] at hv
  exact absurd hv (by simp)

/-- What follows an accepted tag is a value of the tag's wire type, then an accepted rest. -/
theorem accepts_value {v : ℕ} (h : Accepts (bs.foldl feed (ready .kFieldPreamble v))) :
    ∃ f valEnc rest, f.tag = v ∧ bs = valEnc ++ rest ∧ EncodesValue valEnc f.value ∧ SafeField f ∧
      Accepts (rest.foldl feed ({}, 0)) := by
  by_cases hres : v / 8 % 2 ^ 32 ∈ kReservedFieldIds
  · have he : (ready .kFieldPreamble v).1.state.isError := by
      simp only [ready, FsmState.onVarint, if_pos hres]
      rfl
    exact absurd h (not_accepts_error he bs)
  have hdiv : v / 8 * 8 + v % 8 = v := by omega
  cases ht : ProtoWireType.ofNat? (v % 8) with
  | none =>
    have he : (ready .kFieldPreamble v).1.state.isError := by
      simp only [ready, FsmState.onVarint, if_neg hres, ht]
      rfl
    exact absurd h (not_accepts_error he bs)
  | some t =>
    have hv8 := ProtoWireType.ofNat?_eq_some.mp ht
    simp only [ready, FsmState.onVarint, if_neg hres, ht] at h
    cases t with
    | kVarInt =>
      obtain ⟨enc, x, rest, rfl, henc, hrest, -⟩ := accepts_varint (Or.inl (by simp)) h
      exact ⟨⟨v / 8, .varint x⟩, enc, rest, by simpa [WireField.tag, WireValue.wireType, hv8, ProtoWireType.toNat] using hdiv, rfl,
        .varint henc, ⟨hres, by simp⟩, hrest⟩
    | kFixed64 =>
      obtain ⟨payload, rest, rfl, hlen, hrest⟩ := accepts_skip h
      exact ⟨⟨v / 8, .fixed64 (leNat payload)⟩, payload, rest,
        by simpa [WireField.tag, WireValue.wireType, hv8, ProtoWireType.toNat] using hdiv, rfl, .fixed64 hlen, ⟨hres, by simp⟩, hrest⟩
    | kFixed32 =>
      obtain ⟨payload, rest, rfl, hlen, hrest⟩ := accepts_skip h
      exact ⟨⟨v / 8, .fixed32 (leNat payload)⟩, payload, rest,
        by simpa [WireField.tag, WireValue.wireType, hv8, ProtoWireType.toNat] using hdiv, rfl, .fixed32 hlen, ⟨hres, by simp⟩, hrest⟩
    | kLengthDelimited =>
      obtain ⟨enc, len, rest, rfl, henc, hrest, -⟩ := accepts_varint (Or.inl (by simp)) h
      by_cases hbig : len > kMaxMessageLength
      · exact absurd hrest (not_accepts_error (by simp [ready, FsmState.onVarint, hbig, FsmState.isError]) rest)
      simp only [ready, FsmState.onVarint, if_neg hbig] at hrest
      obtain ⟨payload, rest, rfl, rfl, hrest'⟩ := accepts_skip hrest
      refine ⟨⟨v / 8, .bytes payload⟩, enc ++ payload, rest,
        by simpa [WireField.tag, WireValue.wireType, hv8, ProtoWireType.toNat] using hdiv, by simp, .bytes henc, ⟨hres, ?_⟩, hrest'⟩
      rintro b ⟨⟩
      exact not_lt.mp hbig

theorem safePacket_of_accepts (h : Accepts (bs.foldl feed ({}, 0))) : SafePacket bs := by
  induction hn : bs.length using Nat.strong_induction_on generalizing bs with
  | _ n ih =>
    subst hn
    by_cases hne : bs = []
    · subst hne
      exact ⟨[], .nil, by simp⟩
    obtain ⟨tagEnc, v, rest, rfl, htag, hrest, hlt⟩ := accepts_varint (Or.inr hne) h
    obtain ⟨f, valEnc, rest, rfl, rfl, hval, hs, hrest⟩ := accepts_value hrest
    rw [← List.append_assoc]
    refine SafePacket.cons (.mk htag hval) hs (ih _ ?_ hrest rfl)
    simp only [List.length_append] at hlt ⊢
    omega

theorem validate_iff_safePacket (slices : List (List UInt8)) :
    validate slices = true ↔ SafePacket slices.flatten := by
  rw [validate_eq, decide_eq_true_iff]
  exact ⟨safePacket_of_accepts, accepts_of_safePacket⟩

/-- No field read by `ProtoDecoder` from a safe packet has a reserved id. -/
theorem readFieldNth_not_reserved (h : SafePacket bs) (k : ℕ) : (readFieldNth k bs).id ∉ kReservedFieldIds := by
  obtain ⟨fs, hm, hs⟩ := h
  rcases readFieldNth_encoded hm k with h0 | ⟨f, hf, h1⟩
  · rw [h0]
    decide
  · rw [h1, Field.ofWire_id]
    exact (hs f hf).1

/-- `Validate` accepts exactly the safe packets, in any slicing, and then no read of the concatenated bytes
returns a reserved field. -/
theorem validate_exact (slices : List (List UInt8)) :
    (validate slices = true ↔ SafePacket slices.flatten) ∧
      (validate slices = true → ∀ k, (readFieldNth k slices.flatten).id ∉ kReservedFieldIds) :=
  ⟨validate_iff_safePacket slices, fun h => readFieldNth_not_reserved ((validate_iff_safePacket slices).mp h)⟩

end LynxTrace.PacketStreamValidator
