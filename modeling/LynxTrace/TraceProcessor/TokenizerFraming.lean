import LynxTrace.Base.Framing
import LynxTrace.TraceProcessor.ProtoTraceTokenizer

/-!
# TraceProcessor.TokenizerFraming — the top-level fields of a trace as frames

`extent` is how far the field at the head of some bytes goes, as far as the header tells it.  Fields in the sense of the
wire format are what it finds (`extent_encoded`, `extent_field`), so it makes a `Framing` of the stream: `topFields`.
-/

namespace LynxTrace.TraceProcessor

open LynxTrace.Wire LynxTrace.Protozero

/-- The packet in a top-level field, unless it is empty. -/
def packetOf (f : WireField) : List (List UInt8) :=
  match f.value with
  | .bytes payload => if f.id = 1 ∧ payload ≠ [] then [payload] else []
  | _ => []

/-- How far the field at the head of some bytes goes. -/
inductive Extent
  | more
  | bad
  | field (size : ℕ) (packet : List (List UInt8))
  deriving DecidableEq

/-- A header that does not parse: it is complete only with the largest number of bytes it can have. -/
def waitFor (header : List UInt8) : Extent := if header.length < kMaxHeaderBytes then .more else .bad

def extent (bs : List UInt8) : Extent :=
  if bs.length < kMinHeaderBytes then .more
  else
    let header := bs.take kMaxHeaderBytes
    match parseVarInt header with
    | none => waitFor header
    | some (tag, tagEnd) =>
      if tag ≠ kTracePacketTag then
        match ProtoWireType.ofNat? (tag % 8) with
        | some .kVarInt =>
          match parseVarInt tagEnd with
          | none => waitFor header
          | some (_, varintEnd) => .field (header.length - varintEnd.length) []
        | some .kLengthDelimited =>
          match parseVarInt tagEnd with
          | none => waitFor header
          | some (varint, varintEnd) => .field (header.length - varintEnd.length + varint) []
        | some .kFixed64 => .field (header.length - tagEnd.length + 8) []
        | some .kFixed32 => .field (header.length - tagEnd.length + 4) []
        | none => .bad
      else
        match parseVarInt tagEnd with
        | none => waitFor header
        | some (fieldSize, sizeEnd) =>
          let hdrSize := header.length - sizeEnd.length
          .field (hdrSize + fieldSize) (if fieldSize = 0 then [] else [slice bs hdrSize fieldSize])

/-! ### Fields of the wire format -/

/-- The header of some bytes, with what is known to come first. -/
theorem take_header {a b : List UInt8} (h : a.length ≤ kMaxHeaderBytes) :
    (a ++ b).take kMaxHeaderBytes = a ++ b.take (kMaxHeaderBytes - a.length) := by
  rw [List.take_append, List.take_of_length_le h]

theorem ne_packetTag {tag : ℕ} (h : tag % 8 ≠ ProtoWireType.kLengthDelimited.toNat) : tag ≠ kTracePacketTag := by
  rintro rfl
  exact h rfl

/-- A length-delimited field has the tag of a packet if it has the id of one. -/
theorem tag_eq_packetTag_iff {f : WireField} {payload : List UInt8} (hv : f.value = .bytes payload) :
    f.tag = kTracePacketTag ↔ f.id = 1 := by
  unfold WireField.tag kTracePacketTag
  rw [hv]
  show f.id * 8 + 2 = 10 ↔ f.id = 1
  omega

/-- The extent of a field at the head of some bytes. -/
theorem extent_encoded {enc : List UInt8} {f : WireField} (h : EncodesField enc f) (rest : List UInt8) :
    extent (enc ++ rest) = .field enc.length (packetOf f) := by
  obtain ⟨htag, hval⟩ := h
  rename_i tagEnc valEnc
  have htag10 := htag.length_le
  have htag0 := List.length_pos_iff.mpr htag.ne_nil
  have hval0 := List.length_pos_iff.mpr hval.ne_nil
  have hlong : ¬ (tagEnc ++ valEnc ++ rest).length < kMinHeaderBytes := by
    rw [List.length_append, List.length_append]
    unfold kMinHeaderBytes
    omega
  have htake : (tagEnc ++ valEnc ++ rest).take kMaxHeaderBytes =
      tagEnc ++ (valEnc ++ rest).take (kMaxHeaderBytes - tagEnc.length) := by
    rw [List.append_assoc]
    exact take_header (htag10.trans (by decide))
  have hparse := parseVarInt_append htag ((valEnc ++ rest).take (kMaxHeaderBytes - tagEnc.length))
  -- A value of ten bytes at most is in the header whole.
  have hroom : ∀ {a b : List UInt8}, a.length ≤ 10 → (a ++ b).take (kMaxHeaderBytes - tagEnc.length) =
      a ++ b.take (kMaxHeaderBytes - tagEnc.length - a.length) := by
    intro a b ha
    rw [List.take_append, List.take_of_length_le]
    unfold kMaxHeaderBytes
    omega
  unfold extent
  rw [if_neg hlong, htake]
  dsimp only
  rw [hparse]
  dsimp only
  rw [f.tag_mod]
  unfold packetOf
  cases hv : f.value with
  | varint v =>
    rw [hv] at hval
    cases hval with
    | varint hvarint =>
      rw [if_pos (ne_packetTag (by rw [f.tag_mod, hv]; simp [WireValue.wireType, ProtoWireType.toNat])), hroom hvarint.length_le]
      simp only [WireValue.wireType, ProtoWireType.ofNat?, parseVarInt_append hvarint, List.length_append]
      congr 1
      omega
  | fixed64 v =>
    rw [hv] at hval
    cases hval with
    | fixed64 hlen =>
      rw [if_pos (ne_packetTag (by rw [f.tag_mod, hv]; simp [WireValue.wireType, ProtoWireType.toNat]))]
      simp only [WireValue.wireType, ProtoWireType.ofNat?, List.length_append]
      congr 1
      omega
  | fixed32 v =>
    rw [hv] at hval
    cases hval with
    | fixed32 hlen =>
      rw [if_pos (ne_packetTag (by rw [f.tag_mod, hv]; simp [WireValue.wireType, ProtoWireType.toNat]))]
      simp only [WireValue.wireType, ProtoWireType.ofNat?, List.length_append]
      congr 1
      omega
  | bytes payload =>
    have hiff := tag_eq_packetTag_iff hv
    rw [hv] at hval
    cases hval with
    | bytes hlen =>
      rename_i lenEnc
      rw [List.append_assoc lenEnc, hroom hlen.length_le]
      by_cases hid : f.id = 1
      · rw [if_neg (not_not.mpr (hiff.mpr hid))]
        simp only [parseVarInt_append hlen, List.length_append, hid, true_and]
        have hhdr : tagEnc.length + (lenEnc.length + (List.take (kMaxHeaderBytes - tagEnc.length - lenEnc.length)
            (payload ++ rest)).length) - (List.take (kMaxHeaderBytes - tagEnc.length - lenEnc.length)
            (payload ++ rest)).length = tagEnc.length + lenEnc.length := by omega
        rw [hhdr]
        congr 1
        · omega
        · by_cases hempty : payload = []
          · rw [hempty]
            rfl
          · rw [if_neg (by rwa [List.length_eq_zero_iff]), if_pos hempty]
            unfold slice
            rw [← List.length_append, ← List.append_assoc, List.append_assoc (tagEnc ++ lenEnc), List.drop_left' rfl,
              List.take_left' rfl]
      · rw [if_pos (by rw [ne_eq, hiff]; exact hid)]
        simp only [WireValue.wireType, ProtoWireType.ofNat?, parseVarInt_append hlen, List.length_append, hid, false_and,
          if_false]
        congr 1
        omega

/-- The tag in a header, and the bytes after it. -/
theorem exists_tag {bs tagEnd : List UInt8} {tag : ℕ} (h : parseVarInt (bs.take kMaxHeaderBytes) = some (tag, tagEnd)) :
    ∃ tagEnc, IsVarint64 tagEnc tag ∧ bs = tagEnc ++ (tagEnd ++ bs.drop kMaxHeaderBytes) ∧
      (bs.take kMaxHeaderBytes).length = tagEnc.length + tagEnd.length := by
  obtain ⟨tagEnc, heq, htag⟩ := parseVarInt_split h
  refine ⟨tagEnc, htag, ?_, ?_⟩
  · rw [← List.append_assoc, ← heq, List.take_append_drop]
  · rw [heq, List.length_append]

theorem tag_of_mod {tag : ℕ} {v : WireValue} (h : tag % 8 = v.wireType) : (⟨tag / 8, v⟩ : WireField).tag = tag := by
  show tag / 8 * 8 + v.wireType = tag
  omega

/-- What `extent` finds is a field. -/
theorem extent_field {bs : List UInt8} {size : ℕ} {packet : List (List UInt8)} (h : extent bs = .field size packet)
    (hsize : size ≤ bs.length) : ∃ enc f rest, bs = enc ++ rest ∧ enc.length = size ∧ EncodesField enc f := by
  unfold extent at h
  split_ifs at h with hlong
  dsimp only at h
  -- Without a tag, or without the varint that should follow it, there is no extent.
  have hwait : ∀ {header : List UInt8}, waitFor header ≠ .field size packet := by
    intro header
    unfold waitFor
    split_ifs <;> simp
  split at h
  · exact absurd h hwait
  · rename_i tag tagEnd htag
    obtain ⟨tagEnc, henc, hbs, hlen⟩ := exists_tag htag
    have hfield : ∀ {valEnc rest : List UInt8} {v : WireValue}, EncodesValue valEnc v → tag % 8 = v.wireType →
        bs = tagEnc ++ (valEnc ++ rest) → tagEnc.length + valEnc.length = size →
          ∃ enc f rest, bs = enc ++ rest ∧ enc.length = size ∧ EncodesField enc f := by
      intro valEnc rest v hval hmod hsplit hvlen
      refine ⟨tagEnc ++ valEnc, ⟨tag / 8, v⟩, rest, by rw [List.append_assoc]; exact hsplit, ?_, ?_⟩
      · rw [List.length_append, hvlen]
      · exact .mk (by rw [tag_of_mod hmod]; exact henc) hval
    have hfixed : ∀ {n : ℕ}, tagEnc.length + n = size → ((tagEnd ++ bs.drop kMaxHeaderBytes).take n).length = n ∧
        bs = tagEnc ++ ((tagEnd ++ bs.drop kMaxHeaderBytes).take n ++ (tagEnd ++ bs.drop kMaxHeaderBytes).drop n) := by
      intro n hn
      rw [List.take_append_drop]
      refine ⟨?_, hbs⟩
      have hall := congrArg List.length hbs
      rw [List.length_append] at hall
      rw [List.length_take]
      omega
    have hdelimited : ∀ {len : ℕ} {sizeEnd : List UInt8}, tag % 8 = 2 → parseVarInt tagEnd = some (len, sizeEnd) →
        (bs.take kMaxHeaderBytes).length - sizeEnd.length + len = size →
          ∃ enc f rest, bs = enc ++ rest ∧ enc.length = size ∧ EncodesField enc f := by
      intro len sizeEnd hmod hparse hn
      obtain ⟨lenEnc, rfl, hlenEnc⟩ := parseVarInt_split hparse
      rw [List.length_append] at hlen
      rw [List.append_assoc] at hbs
      have hall := congrArg List.length hbs
      rw [List.length_append, List.length_append] at hall
      have hpayload : ((sizeEnd ++ bs.drop kMaxHeaderBytes).take len).length = len := by
        rw [List.length_take]
        omega
      have hval : EncodesValue (lenEnc ++ (sizeEnd ++ bs.drop kMaxHeaderBytes).take len)
          (.bytes ((sizeEnd ++ bs.drop kMaxHeaderBytes).take len)) := .bytes (by rwa [hpayload])
      refine @hfield _ ((sizeEnd ++ bs.drop kMaxHeaderBytes).drop len) _ hval hmod ?_ ?_
      · rw [List.append_assoc, List.take_append_drop]
        exact hbs
      · rw [List.length_append, hpayload]
        omega
    split_ifs at h with hpacket
    · split at h
      · rename_i hwire
        split at h
        · exact absurd h hwait
        · rename_i v varintEnd hparse
          obtain ⟨hn, -⟩ := Extent.field.inj h
          obtain ⟨valEnc, rfl, hvalEnc⟩ := parseVarInt_split hparse
          rw [List.length_append] at hlen
          refine @hfield _ (varintEnd ++ bs.drop kMaxHeaderBytes) _ (.varint hvalEnc)
            (ProtoWireType.ofNat?_eq_some.mp hwire) ?_ (by omega)
          rw [← List.append_assoc valEnc]
          exact hbs
      · rename_i hwire
        split at h
        · exact absurd h hwait
        · rename_i len sizeEnd hparse
          exact hdelimited (ProtoWireType.ofNat?_eq_some.mp hwire) hparse (Extent.field.inj h).1
      · rename_i hwire
        obtain ⟨hn, -⟩ := Extent.field.inj h
        obtain ⟨hlen8, hsplit⟩ := hfixed (n := 8) (by omega)
        exact hfield (.fixed64 hlen8) (ProtoWireType.ofNat?_eq_some.mp hwire) hsplit (by rw [hlen8]; omega)
      · rename_i hwire
        obtain ⟨hn, -⟩ := Extent.field.inj h
        obtain ⟨hlen4, hsplit⟩ := hfixed (n := 4) (by omega)
        exact hfield (.fixed32 hlen4) (ProtoWireType.ofNat?_eq_some.mp hwire) hsplit (by rw [hlen4]; omega)
      · simp at h
    · split at h
      · exact absurd h hwait
      · rename_i len sizeEnd hparse
        have htag2 : tag % 8 = 2 := by rw [not_not.mp hpacket]; rfl
        exact hdelimited htag2 hparse (Extent.field.inj h).1

/-- Bad bytes stay bad. -/
theorem extent_bad {bs : List UInt8} (h : extent bs = .bad) (ys : List UInt8) : extent (bs ++ ys) = .bad := by
  have hlong : ¬ (bs ++ ys).length < kMinHeaderBytes := by
    intro hlt
    have hshort : bs.length < kMinHeaderBytes := by
      rw [List.length_append] at hlt
      omega
    unfold extent at h
    rw [if_pos hshort] at h
    exact absurd h (by simp)
  -- Either the header is complete, or it has a tag of an unknown type.
  have hheader : waitFor (bs.take kMaxHeaderBytes) = .bad → (bs ++ ys).take kMaxHeaderBytes = bs.take kMaxHeaderBytes := by
    intro hwait
    unfold waitFor at hwait
    split_ifs at hwait with hlt
    rw [List.length_take] at hlt
    exact List.take_append_of_le_length (by omega)
  have hextend : (bs ++ ys).take kMaxHeaderBytes = bs.take kMaxHeaderBytes ++ ys.take (kMaxHeaderBytes - bs.length) :=
    List.take_append
  unfold extent at h ⊢
  rw [if_neg hlong]
  split_ifs at h with hshort
  dsimp only at h ⊢
  split at h
  · rename_i htag
    rw [hheader h, htag]
    exact h
  · rename_i tag tagEnd htag
    have htag' := parseVarInt_append_right htag (ys.take (kMaxHeaderBytes - bs.length))
    rw [← hextend] at htag'
    split_ifs at h with hpacket
    · split at h
      · rename_i hwire
        split at h
        · rename_i hparse
          rw [hheader h, htag]
          simp only [if_pos hpacket, hwire, hparse]
          exact h
        · simp at h
      · rename_i hwire
        split at h
        · rename_i hparse
          rw [hheader h, htag]
          simp only [if_pos hpacket, hwire, hparse]
          exact h
        · simp at h
      · simp at h
      · simp at h
      · rename_i hwire
        rw [htag']
        simp only [if_pos hpacket, hwire]
    · split at h
      · rename_i hparse
        rw [hheader h, htag]
        simp only [if_neg hpacket, hparse]
        exact h
      · simp at h

/-! ### The stream -/

/-- The decision on the bytes at hand. -/
def nextField (bs : List UInt8) : Outcome UInt8 (List UInt8) :=
  match extent bs with
  | .more => .more
  | .bad => .fail []
  | .field size packet => if size ≤ bs.length then .frame packet (bs.drop size) else .more

theorem nextField_encoded {enc : List UInt8} {f : WireField} (h : EncodesField enc f) (rest : List UInt8) :
    nextField (enc ++ rest) = .frame (packetOf f) rest := by
  unfold nextField
  rw [extent_encoded h]
  dsimp only
  rw [if_pos (by rw [List.length_append]; omega), List.drop_left' rfl]

/-- A frame is a field. -/
theorem nextField_frame {bs rest : List UInt8} {ms : List (List UInt8)} (h : nextField bs = .frame ms rest) :
    ∃ enc f, bs = enc ++ rest ∧ EncodesField enc f ∧ ms = packetOf f := by
  unfold nextField at h
  split at h
  · simp at h
  · simp at h
  · rename_i size packet hextent
    split_ifs at h with hsize
    obtain ⟨enc, f, rest', rfl, rfl, henc⟩ := extent_field hextent hsize
    obtain ⟨rfl, rfl⟩ := Outcome.frame.inj h
    rw [extent_encoded henc] at hextent
    exact ⟨enc, f, by rw [List.drop_left' rfl], henc, (Extent.field.inj hextent).2.symm⟩

theorem nextField_fail {bs : List UInt8} {ms : List (List UInt8)} : nextField bs = .fail ms ↔ extent bs = .bad ∧ ms = [] := by
  unfold nextField
  constructor
  · intro h
    split at h
    · simp at h
    · rename_i hbad
      exact ⟨hbad, (Outcome.fail.inj h).symm⟩
    · split_ifs at h
  · rintro ⟨hbad, rfl⟩
    rw [hbad]

/-- The top-level fields of a trace, with the packets in them. -/
def topFields : Framing UInt8 (List UInt8) where
  next := nextField
  shorter := by
    intro bs ms rest h
    obtain ⟨enc, f, rfl, henc, -⟩ := nextField_frame h
    have hpos := List.length_pos_iff.mpr henc.ne_nil
    rw [List.length_append]
    omega
  frame_append := by
    intro bs ms rest ys h
    obtain ⟨enc, f, rfl, henc, rfl⟩ := nextField_frame h
    rw [List.append_assoc]
    exact nextField_encoded henc (rest ++ ys)
  fail_append := by
    intro bs ms ys h
    obtain ⟨hbad, rfl⟩ := nextField_fail.mp h
    exact nextField_fail.mpr ⟨extent_bad hbad ys, rfl⟩

/-- The frames of some bytes are the fields they begin with; what follows does not begin with a field. -/
theorem topFields_drain (bs : List UInt8) :
    ∃ enc fields rest, bs = enc ++ rest ∧ EncodesMessage enc fields ∧ (topFields.drain bs).1 = fields.flatMap packetOf ∧
      (∀ enc' f rest', rest = enc' ++ rest' → ¬ EncodesField enc' f) ∧
      ∀ left, (topFields.drain bs).2 = some left → rest = left := by
  have hnone : ∀ {rest : List UInt8}, (∀ ms rest', nextField rest ≠ .frame ms rest') →
      ∀ enc' f rest', rest = enc' ++ rest' → ¬ EncodesField enc' f := by
    intro rest h enc' f rest' heq henc
    rw [heq] at h
    exact h _ _ (nextField_encoded henc rest')
  induction hn : bs.length using Nat.strongRecOn generalizing bs with
  | ind n ih =>
    subst hn
    cases hnext : topFields.next bs with
    | more =>
      rw [topFields.drain_more hnext]
      refine ⟨[], [], bs, rfl, .nil, rfl, hnone fun ms rest' h => ?_, fun left h => Option.some.inj h⟩
      exact absurd (hnext.symm.trans h) (by simp)
    | fail ms =>
      rw [topFields.drain_fail hnext]
      obtain ⟨-, rfl⟩ := nextField_fail.mp hnext
      refine ⟨[], [], bs, rfl, .nil, rfl, hnone fun ms rest' h => ?_, fun left h => absurd h (by simp)⟩
      exact absurd (hnext.symm.trans h) (by simp)
    | frame ms rest =>
      obtain ⟨enc, f, rfl, henc, rfl⟩ := nextField_frame hnext
      rw [topFields.drain_frame hnext]
      obtain ⟨enc', fields, rest', rfl, hencs, hms, hmax, hleft⟩ := ih rest.length (topFields.shorter hnext) rest rfl
      refine ⟨enc ++ enc', f :: fields, rest', by rw [List.append_assoc], .cons henc hencs, ?_, hmax, hleft⟩
      rw [hms]
      rfl

end LynxTrace.TraceProcessor
