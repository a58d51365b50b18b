import LynxTrace.TraceProcessor.TokenizerFraming

/-!
# TraceProcessor.TokenizerDelivery — what `Tokenize` passes to its callback

* `unpacked` — the packet fields of decompressed bytes, as frames.
* `deliverPackets` — what is passed for the packets of a stream, up to the first error.
* `tokenizeAll_spec` — that is what the calls of `Tokenize` pass, however the stream is cut into them, unless a size that
  wraps around is met (`SafeStream`).
-/

namespace LynxTrace.TraceProcessor

open LynxTrace.Wire LynxTrace.Protozero

/-! ### Decompressed bytes -/

/-- The packet field at the head of decompressed bytes. -/
def nextUnpacked : List UInt8 → Outcome UInt8 (List UInt8)
  | [] => .more
  | tag :: afterTag =>
    if tag.toNat = kTracePacketTag then
      match parseVarInt afterTag with
      | none => .more
      | some (size, body) => if size ≤ body.length then .frame [body.take size] (body.drop size) else .more
    else .more

variable {bs rest packet : List UInt8}

theorem nextUnpacked_frame {ms : List (List UInt8)} :
    nextUnpacked bs = .frame ms rest ↔ ∃ tag sizeEnc packet, bs = tag :: (sizeEnc ++ (packet ++ rest)) ∧
      tag.toNat = kTracePacketTag ∧ IsVarint64 sizeEnc packet.length ∧ ms = [packet] := by
  constructor
  · intro h
    unfold nextUnpacked at h
    split at h
    · simp at h
    · rename_i tag afterTag
      split_ifs at h with htag
      split at h
      · simp at h
      · rename_i size body hparse
        split_ifs at h with hsize
        obtain ⟨rfl, rfl⟩ := Outcome.frame.inj h
        obtain ⟨sizeEnc, rfl, henc⟩ := parseVarInt_split hparse
        refine ⟨tag, sizeEnc, body.take size, by rw [List.take_append_drop], htag, ?_, rfl⟩
        rwa [List.length_take, Nat.min_eq_left hsize]
  · rintro ⟨tag, sizeEnc, packet, rfl, htag, henc, rfl⟩
    unfold nextUnpacked
    dsimp only
    rw [if_pos htag, parseVarInt_append henc]
    dsimp only
    rw [if_pos (by rw [List.length_append]; omega), List.take_left' rfl, List.drop_left' rfl]

theorem unpacked_ne_fail (bs : List UInt8) (ms : List (List UInt8)) : nextUnpacked bs ≠ .fail ms := by
  intro h
  unfold nextUnpacked at h
  split at h
  · simp at h
  · split_ifs at h
    split at h
    · simp at h
    · split_ifs at h

/-- The packet fields of decompressed bytes. -/
def unpacked : Framing UInt8 (List UInt8) where
  next := nextUnpacked
  shorter := by
    intro bs ms rest h
    obtain ⟨tag, sizeEnc, packet, rfl, -⟩ := nextUnpacked_frame.mp h
    simp only [List.length_cons, List.length_append]
    omega
  frame_append := by
    intro bs ms rest ys h
    obtain ⟨tag, sizeEnc, packet, rfl, htag, henc, rfl⟩ := nextUnpacked_frame.mp h
    refine nextUnpacked_frame.mpr ⟨tag, sizeEnc, packet, ?_, htag, henc, rfl⟩
    simp only [List.cons_append, List.append_assoc]
  fail_append := fun _ h => absurd h (unpacked_ne_fail _ _)

/-- The packet fields of decompressed bytes, in order. -/
def unpackedPackets (bs : List UInt8) : List (List UInt8) := (unpacked.drain bs).1

/-- The bytes after them. -/
def unpackedRest (bs : List UInt8) : List UInt8 := (unpacked.drain bs).2.getD []

theorem unpacked_frame (h : nextUnpacked bs = .frame [packet] rest) :
    unpackedPackets bs = packet :: unpackedPackets rest ∧ unpackedRest bs = unpackedRest rest := by
  have hdrain := unpacked.drain_frame h
  unfold unpackedPackets unpackedRest
  rw [hdrain]
  exact ⟨rfl, rfl⟩

theorem unpacked_more (h : nextUnpacked bs = .more) : unpackedPackets bs = [] ∧ unpackedRest bs = bs := by
  have hdrain := unpacked.drain_more h
  unfold unpackedPackets unpackedRest
  rw [hdrain]
  exact ⟨rfl, rfl⟩

/-! ### What is passed -/

variable (env : TokenizerEnv)

/-- Packets passed to the callback up to its first error. -/
def deliver : List (List UInt8) → List (List UInt8) → Bool × List (List UInt8)
  | [], passed => (true, passed)
  | packet :: packets, passed =>
    if env.callback passed packet then deliver packets (passed ++ [packet]) else (false, passed ++ [packet])

theorem deliver_cons (packet : List UInt8) (packets passed : List (List UInt8)) : deliver env (packet :: packets) passed =
    if env.callback passed packet then deliver env packets (passed ++ [packet]) else (false, passed ++ [packet]) := rfl

/-- What is passed for one packet: the packet, or the packet fields of its decompressed bytes.  At most two bytes may
follow these. -/
def deliverPacket (packet : List UInt8) (passed : List (List UInt8)) : Bool × List (List UInt8) :=
  match compressedPackets packet with
  | none => deliver env [packet] passed
  | some field =>
    if !env.isGzipSupported then (false, passed)
    else
      match env.decompress field.data with
      | none => (false, passed)
      | some packets =>
        let r := deliver env (unpackedPackets packets) passed
        (r.1 && (unpackedRest packets).length ≤ 2, r.2)

/-- What is passed for some packets, up to the first error. -/
def deliverPackets : List (List UInt8) → List (List UInt8) → Bool × List (List UInt8)
  | [], passed => (true, passed)
  | packet :: packets, passed =>
    let r := deliverPacket env packet passed
    if r.1 then deliverPackets packets r.2 else r

/-! ### Sizes that wrap around -/

/-- A packet field whose size makes the read pointer wrap around to a place at least two bytes after its tag. -/
def unpackWraps : List UInt8 → Bool
  | [] => false
  | tag :: afterTag =>
    tag.toNat = kTracePacketTag ∧
      (parseVarInt afterTag).any fun r => 2 ^ 64 + 2 ≤ (tag :: afterTag).length - r.2.length + r.1

/-- Decompressed bytes whose packets are passed as they are, when others have been passed before. -/
structure SafeUnpack (packets : List UInt8) (passed : List (List UInt8)) : Prop where
  short : packets.length < 2 ^ 64
  sizes : (deliver env (unpackedPackets packets) passed).1 → ¬ unpackWraps (unpackedRest packets)
  /-- The bytes do not end with an empty packet field, unless the callback fails before it. -/
  last : ∀ pre, packets = pre ++ [0x0A, 0] → unpackedRest pre = [] → ¬ (deliver env (unpackedPackets pre) passed).1

/-- A packet whose compressed packets, if it has any, are in a length-delimited field and decompress safely. -/
def SafePacket (packet : List UInt8) (passed : List (List UInt8)) : Prop :=
  env.isGzipSupported → ∀ field, compressedPackets packet = some field → field.type = .kLengthDelimited ∧
    ∀ packets, env.decompress field.data = some packets → SafeUnpack env packets passed

/-- All packets up to the first error are safe. -/
def SafePackets : List (List UInt8) → List (List UInt8) → Prop
  | [], _ => True
  | packet :: packets, passed =>
    SafePacket env packet passed ∧
      ((deliverPacket env packet passed).1 → SafePackets packets (deliverPacket env packet passed).2)

/-- A length-delimited field, not a packet, whose size with its header wraps around. -/
def skipWraps (bs : List UInt8) : Bool :=
  (parseVarInt (bs.take kMaxHeaderBytes)).any fun r => r.1 ≠ kTracePacketTag ∧
    r.1 % 8 = ProtoWireType.kLengthDelimited.toNat ∧
    (parseVarInt r.2).any fun r' => 2 ^ 64 ≤ (bs.take kMaxHeaderBytes).length - r'.2.length + r'.1

/-- Bytes in which no size met before the first error wraps around, when some packets have been passed before. -/
structure SafeStream (stream : List UInt8) (passed : List (List UInt8)) : Prop where
  short : stream.length < 2 ^ 64
  packets : SafePackets env (topFields.drain stream).1 passed
  skips : (deliverPackets env (topFields.drain stream).1 passed).1 →
    ∀ rest, (topFields.drain stream).2 = some rest → ¬ skipWraps rest

/-! ### One packet -/

/-- The turn with a result of the callback. -/
def turnOf (r : Bool × List (List UInt8)) (reader : TraceBlobViewReader) : Turn :=
  if r.1 then .next ⟨reader, r.2⟩ else .done .error ⟨reader, r.2⟩

theorem pass_eq (packet : List UInt8) (t : Tokenizer) : pass env packet t = turnOf (deliver env [packet] t.passed) t.reader := by
  unfold pass turnOf deliver deliver
  cases env.callback t.passed packet <;> rfl

variable {env}

theorem turnOf_true (t : Tokenizer) : turnOf (true, t.passed) t.reader = .next t := rfl

/-- The packet in two bytes is the empty one. -/
theorem eq_of_short {tag : UInt8} {sizeEnc : List UInt8} (htag : tag.toNat = kTracePacketTag)
    (hsize : IsVarint64 sizeEnc packet.length) (hlen : (tag :: (sizeEnc ++ (packet ++ rest))).length ≤ 2) :
    tag :: (sizeEnc ++ (packet ++ rest)) = [0x0A, 0] := by
  have hpos := List.length_pos_iff.mpr hsize.ne_nil
  simp only [List.length_cons, List.length_append] at hlen
  obtain ⟨b, rfl⟩ := List.length_eq_one_iff.mp (show sizeEnc.length = 1 by omega)
  obtain rfl := List.eq_nil_of_length_eq_zero (show packet.length = 0 by omega)
  obtain rfl := List.eq_nil_of_length_eq_zero (show rest.length = 0 by omega)
  obtain rfl : tag = 0x0A := UInt8.toNat_inj.mp htag
  obtain ⟨w, hw, hmod⟩ := hsize
  unfold IsVarint at hw
  rw [decodeVarint] at hw
  split_ifs at hw with hb
  · obtain ⟨rfl, -⟩ := Prod.mk.inj (Option.some.inj hw)
    have hzero : b.toNat = 0 := by
      have hmod0 : 0 = b.toNat % 2 ^ 64 := hmod
      omega
    obtain rfl : b = 0 := UInt8.toNat_inj.mp hzero
    rfl
  · simp [decodeVarint] at hw

variable {passed : List (List UInt8)}

/-- After a packet field has been passed, the rest is safe. -/
theorem SafeUnpack.next (h : SafeUnpack env bs passed) (hframe : nextUnpacked bs = .frame [packet] rest)
    (hok : env.callback passed packet) : SafeUnpack env rest (passed ++ [packet]) := by
  have hlt : rest.length < bs.length := unpacked.shorter hframe
  obtain ⟨hpackets, hrest⟩ := unpacked_frame hframe
  have hdeliver : ∀ packets, deliver env (packet :: packets) passed = deliver env packets (passed ++ [packet]) :=
    fun packets => (deliver_cons env packet packets passed).trans (if_pos hok)
  refine ⟨hlt.trans h.short, fun hall => ?_, fun pre hpre hnil hall => ?_⟩
  · rw [← hrest]
    refine h.sizes ?_
    rw [hpackets, hdeliver]
    exact hall
  · obtain ⟨tag, sizeEnc, packet', rfl, htag, henc, hms⟩ := nextUnpacked_frame.mp hframe
    obtain rfl : packet = packet' := by simpa using hms
    have hlonger : nextUnpacked (tag :: (sizeEnc ++ (packet ++ pre))) = .frame [packet] pre :=
      nextUnpacked_frame.mpr ⟨tag, sizeEnc, packet, rfl, htag, henc, rfl⟩
    obtain ⟨hpackets', hrest'⟩ := unpacked_frame hlonger
    refine h.last (tag :: (sizeEnc ++ (packet ++ pre))) ?_ (hrest'.trans hnil) ?_
    · rw [hpre]
      simp only [List.cons_append, List.append_assoc]
    · rw [hpackets', hdeliver]
      exact hall

variable {t : Tokenizer}

/-- The loop over decompressed bytes passes their packet fields. -/
theorem unpack_spec (h : SafeUnpack env bs t.passed) :
    unpack env bs t = turnOf ((deliver env (unpackedPackets bs) t.passed).1 && (unpackedRest bs).length ≤ 2,
      (deliver env (unpackedPackets bs) t.passed).2) t.reader := by
  induction hn : bs.length using Nat.strongRecOn generalizing bs t with
  | ind n ih =>
    subst hn
    have hstop : nextUnpacked bs = .more → ∀ {b : Bool}, b = decide (bs.length ≤ 2) →
        turnOf (b, t.passed) t.reader = turnOf ((deliver env (unpackedPackets bs) t.passed).1 &&
          (unpackedRest bs).length ≤ 2, (deliver env (unpackedPackets bs) t.passed).2) t.reader := by
      intro hmore b hb
      obtain ⟨hpackets, hrest⟩ := unpacked_more hmore
      rw [hpackets, hrest, hb]
      rfl
    rw [unpack.eq_def]
    by_cases hlen : bs.length > 2
    · rw [if_pos hlen]
      have hfalse : false = decide (bs.length ≤ 2) := (decide_eq_false (not_le.mpr hlen)).symm
      cases bs with
      | nil => exact absurd hlen (by simp)
      | cons tag afterTag =>
        dsimp only
        by_cases htag : tag.toNat = kTracePacketTag
        · rw [if_neg (not_not.mpr htag)]
          cases hparse : parseVarInt afterTag with
          | none =>
            have hmore : nextUnpacked (tag :: afterTag) = .more := by
              unfold nextUnpacked
              simp only [htag, if_true, hparse]
            rw [if_pos, ← hstop hmore hfalse]
            · rfl
            · left
              simp
          | some r =>
            obtain ⟨size, body⟩ := r
            obtain ⟨sizeEnc, rfl, hsizeEnc⟩ := parseVarInt_split hparse
            have hpos := List.length_pos_iff.mpr hsizeEnc.ne_nil
            have hsize64 := hsizeEnc.lt
            have hshort := h.short
            simp only [List.length_cons, List.length_append] at hshort hlen
            have hhdr : (tag :: (sizeEnc ++ body)).length - body.length = sizeEnc.length + 1 := by
              simp only [List.length_cons, List.length_append]
              omega
            simp only [Option.getD_some]
            rw [hhdr]
            by_cases hfits : size ≤ body.length
            · have hframe : nextUnpacked (tag :: (sizeEnc ++ body)) = .frame [body.take size] (body.drop size) := by
                unfold nextUnpacked
                simp only [htag, if_true, hparse, if_pos hfits]
              obtain ⟨hpackets, hrest⟩ := unpacked_frame hframe
              have hptr : (sizeEnc.length + 1 + size) % 2 ^ 64 = sizeEnc.length + 1 + size :=
                Nat.mod_eq_of_lt (by omega)
              have hdrop : (tag :: (sizeEnc ++ body)).drop (sizeEnc.length + 1 + size) = body.drop size := by
                rw [show sizeEnc.length + 1 + size = (sizeEnc.length + size) + 1 by omega, List.drop_succ_cons,
                  List.drop_append, List.drop_eq_nil_of_le (by omega), List.nil_append]
                congr 1
                omega
              rw [hptr, if_neg (by simp only [List.length_cons, List.length_append]; omega),
                TraceBlobViewReader.viewSliceOff_eq (by omega), hdrop]
              have hslice : slice body 0 size = body.take size := by
                unfold slice
                rw [List.drop_zero]
              dsimp only
              rw [hslice, pass_eq, hpackets, hrest, deliver_cons, deliver_cons]
              by_cases hok : env.callback t.passed (body.take size) = true
              · rw [if_pos hok, if_pos hok]
                have hnext := @ih (body.drop size).length (unpacked.shorter hframe) (body.drop size)
                  ⟨t.reader, t.passed ++ [body.take size]⟩ (h.next hframe hok) rfl
                exact hnext
              · rw [if_neg hok, if_neg hok]
                rfl
            · have hmore : nextUnpacked (tag :: (sizeEnc ++ body)) = .more := by
                unfold nextUnpacked
                simp only [htag, if_true, hparse, if_neg hfits]
              obtain ⟨hpackets, hrest⟩ := unpacked_more hmore
              have hwraps := h.sizes
              rw [hpackets, hrest] at hwraps
              have hnot : ¬ 2 ^ 64 + 2 ≤ sizeEnc.length + 1 + size := by
                intro hle
                refine hwraps rfl ?_
                unfold unpackWraps
                dsimp only
                rw [hparse]
                simp only [htag, Option.any_some, hhdr, true_and, decide_eq_true_eq]
                exact hle
              rw [if_pos, ← hstop hmore hfalse]
              · rfl
              · simp only [List.length_cons, List.length_append]
                omega
        · have hmore : nextUnpacked (tag :: afterTag) = .more := by
            unfold nextUnpacked
            exact if_neg htag
          rw [if_pos htag, ← hstop hmore hfalse]
          rfl
    · rw [if_neg hlen]
      cases hnext : nextUnpacked bs with
      | more =>
        rw [← hstop hnext (decide_eq_true (not_lt.mp hlen)).symm]
        rfl
      | fail ms => exact absurd hnext (unpacked_ne_fail bs ms)
      | frame ms rest =>
        obtain ⟨tag, sizeEnc, packet, rfl, htag, hsize, rfl⟩ := nextUnpacked_frame.mp hnext
        refine absurd ?_ (h.last [] (eq_of_short htag hsize (not_lt.mp hlen)) (unpacked_more rfl).2)
        rw [(unpacked_more rfl).1]
        rfl

theorem tokenizePacket_spec (h : SafePacket env packet t.passed) :
    tokenizePacket env packet t = turnOf (deliverPacket env packet t.passed) t.reader := by
  unfold tokenizePacket deliverPacket
  cases hfield : compressedPackets packet with
  | none => exact pass_eq env packet t
  | some field =>
    dsimp only
    cases hgzip : env.isGzipSupported with
    | false => rfl
    | true =>
      obtain ⟨htype, hunpack⟩ := h hgzip field hfield
      rw [if_neg (by simp), if_neg (not_not.mpr htype), if_neg (by simp)]
      cases hdec : env.decompress field.data with
      | none => rfl
      | some packets => exact unpack_spec (hunpack packets hdec)

/-! ### One turn -/

/-- What a turn does when the field at the head of the bytes goes so far. -/
def takeField (env : TokenizerEnv) (t : Tokenizer) : Extent → Turn
  | .more => .done .ok t
  | .bad => .done .error t
  | .field size packet =>
    if size > t.reader.bytes.length then .done .ok t
    else
      match popFrontBytes size t with
      | .next t =>
        match packet with
        | [] => .next t
        | packet :: _ => tokenizePacket env packet t
      | .done status t => .done status t

theorem takeField_nil (t : Tokenizer) (size : ℕ) : takeField env t (.field size []) =
    if size > t.reader.bytes.length then .done .ok t else popFrontBytes size t := by
  unfold takeField
  dsimp only
  cases popFrontBytes size t <;> rfl

theorem takeField_waitFor (t : Tokenizer) (header : List UInt8) : takeField env t (waitFor header) =
    if header.length < kMaxHeaderBytes then .done .ok t else .done .error t := by
  unfold waitFor
  split_ifs <;> rfl

/-- A turn does what the extent of the field at the head of the bytes tells. -/
theorem step_eq (hwf : t.reader.WellFormed) (hskip : ¬ skipWraps t.reader.bytes) :
    step env t = takeField env t (extent t.reader.bytes) := by
  unfold step extent
  dsimp only
  rw [hwf.avail_eq]
  by_cases hlong : t.reader.bytes.length < kMinHeaderBytes
  · have hnone : t.reader.bytes.length < min (max t.reader.bytes.length kMinHeaderBytes) kMaxHeaderBytes := by
      unfold kMinHeaderBytes kMaxHeaderBytes at *
      omega
    rw [if_pos hlong, hwf.sliceOff_none hnone]
    rfl
  · have hheader : t.reader.sliceOff t.reader.startOffset
        (min (max t.reader.bytes.length kMinHeaderBytes) kMaxHeaderBytes) =
          some (some (t.reader.bytes.take kMaxHeaderBytes)) := by
      rw [Nat.max_eq_left (not_lt.mp hlong)]
      refine (hwf.sliceOff (k := 0) (by omega)).trans ?_
      unfold slice
      rw [List.drop_zero, Nat.min_comm, ← List.take_take, List.take_length]
    have hlen : (t.reader.bytes.take kMaxHeaderBytes).length ≤ t.reader.bytes.length := by
      rw [List.length_take]
      omega
    rw [if_neg hlong, hheader]
    dsimp only
    cases htag : parseVarInt (t.reader.bytes.take kMaxHeaderBytes) with
    | none => exact (takeField_waitFor t _).symm
    | some r =>
      obtain ⟨tag, tagEnd⟩ := r
      have htagEnd := parseVarInt_length_lt htag
      dsimp only
      by_cases hpacket : tag ≠ kTracePacketTag
      · rw [if_pos hpacket, if_pos hpacket]
        cases hwire : ProtoWireType.ofNat? (tag % 8) with
        | none => rfl
        | some wire =>
          cases wire with
          | kVarInt =>
            cases parseVarInt tagEnd with
            | none => exact (takeField_waitFor t _).symm
            | some r =>
              dsimp only
              rw [takeField_nil, if_neg (by omega)]
          | kFixed64 | kFixed32 => exact (takeField_nil t _).symm
          | kLengthDelimited =>
            cases hsize : parseVarInt tagEnd with
            | none => exact (takeField_waitFor t _).symm
            | some r =>
              have hmod : ((t.reader.bytes.take kMaxHeaderBytes).length - r.2.length + r.1) % 2 ^ 64 =
                  (t.reader.bytes.take kMaxHeaderBytes).length - r.2.length + r.1 := by
                refine Nat.mod_eq_of_lt (not_le.mp fun hle => hskip ?_)
                unfold skipWraps
                rw [htag]
                simp only [Option.any_some, hsize, decide_eq_true_eq, Bool.decide_and, Bool.and_eq_true]
                exact ⟨hpacket, ProtoWireType.ofNat?_eq_some.mp hwire, hle⟩
              dsimp only
              rw [takeField_nil, hmod]
      · rw [if_neg hpacket, if_neg hpacket]
        cases hsize : parseVarInt tagEnd with
        | none => exact (takeField_waitFor t _).symm
        | some r =>
          obtain ⟨fieldSize, sizeEnd⟩ := r
          dsimp only
          by_cases hempty : fieldSize = 0
          · rw [if_pos hempty, if_pos hempty, takeField_nil, if_neg (by omega), hempty, Nat.add_zero]
          · rw [if_neg hempty, if_neg hempty]
            unfold takeField
            dsimp only
            by_cases hroom : fieldSize > t.reader.bytes.length -
                ((t.reader.bytes.take kMaxHeaderBytes).length - sizeEnd.length)
            · rw [if_pos hroom, if_pos (by omega)]
            · rw [if_neg hroom, if_neg (by omega)]
              refine Eq.trans (by rw [hwf.sliceOff (by omega)]) ?_
              rfl

theorem skipWraps_iff : skipWraps bs ↔ ∃ tag tagEnd varint varintEnd,
    parseVarInt (bs.take kMaxHeaderBytes) = some (tag, tagEnd) ∧ tag ≠ kTracePacketTag ∧
      tag % 8 = ProtoWireType.kLengthDelimited.toNat ∧ parseVarInt tagEnd = some (varint, varintEnd) ∧
      2 ^ 64 ≤ (bs.take kMaxHeaderBytes).length - varintEnd.length + varint := by
  unfold skipWraps
  constructor
  · intro h
    obtain ⟨⟨tag, tagEnd⟩, htag, h⟩ := (Option.any_eq_true _ _).mp h
    obtain ⟨hpacket, htype, h⟩ := of_decide_eq_true h
    obtain ⟨⟨varint, varintEnd⟩, hsize, h⟩ := (Option.any_eq_true _ _).mp h
    exact ⟨tag, tagEnd, varint, varintEnd, htag, hpacket, htype, hsize, of_decide_eq_true h⟩
  · rintro ⟨tag, tagEnd, varint, varintEnd, htag, hpacket, htype, hsize, h⟩
    rw [htag]
    simp only [Option.any_some, hsize, decide_eq_true_eq]
    exact ⟨hpacket, htype, h⟩

/-- A field whose size wraps around is not complete. -/
theorem nextField_of_skipWraps (h : skipWraps bs) (hshort : bs.length < 2 ^ 64) : nextField bs = .more := by
  obtain ⟨tag, tagEnd, varint, varintEnd, htag, hpacket, htype, hsize, hwraps⟩ := skipWraps_iff.mp h
  have hwire : ProtoWireType.ofNat? (tag % 8) = some .kLengthDelimited := ProtoWireType.ofNat?_eq_some.mpr htype
  unfold nextField extent
  by_cases hlong : bs.length < kMinHeaderBytes
  · rw [if_pos hlong]
  · rw [if_neg hlong]
    dsimp only
    rw [htag]
    dsimp only
    rw [if_pos hpacket, hwire]
    dsimp only
    rw [hsize]
    exact if_neg (by omega)

/-- Such a field stays one when more bytes arrive. -/
theorem skipWraps_append (h : skipWraps bs) (ys : List UInt8) : skipWraps (bs ++ ys) := by
  obtain ⟨tag, tagEnd, varint, varintEnd, htag, hpacket, htype, hsize, hwraps⟩ := skipWraps_iff.mp h
  have htake : (bs ++ ys).take kMaxHeaderBytes = bs.take kMaxHeaderBytes ++ ys.take (kMaxHeaderBytes - bs.length) :=
    List.take_append
  refine skipWraps_iff.mpr ⟨tag, _, varint, _, ?_, hpacket, htype,
    parseVarInt_append_right hsize (ys.take (kMaxHeaderBytes - bs.length)), ?_⟩
  · rw [htake, parseVarInt_append_right htag]
  · rw [htake, List.length_append, List.length_append, Nat.add_sub_add_right]
    exact hwraps

theorem packetOf_cases (f : WireField) : packetOf f = [] ∨ ∃ packet, packetOf f = [packet] := by
  unfold packetOf
  split
  · rename_i payload _
    split_ifs
    · exact .inr ⟨payload, rfl⟩
    · exact .inl rfl
  · exact .inl rfl

/-- A turn at a complete field takes it off and passes its packet. -/
theorem step_frame {ms : List (List UInt8)} (hwf : t.reader.WellFormed) (hskip : ¬ skipWraps t.reader.bytes)
    (hnext : nextField t.reader.bytes = .frame ms rest) (hsafe : SafePackets env ms t.passed) :
    ∃ reader : TraceBlobViewReader, reader.WellFormed ∧ reader.bytes = rest ∧
      step env t = turnOf (deliverPackets env ms t.passed) reader := by
  obtain ⟨-, f, -, -, hms⟩ := nextField_frame hnext
  rw [step_eq hwf hskip]
  unfold nextField at hnext
  split at hnext
  · simp at hnext
  · simp at hnext
  · rename_i size packet hextent
    split_ifs at hnext with hsize
    obtain ⟨rfl, rfl⟩ := Outcome.frame.inj hnext
    obtain ⟨reader, hpop, hwf', hbytes⟩ := hwf.popFrontBytes hsize
    have hturn : popFrontBytes size t = .next { t with reader } := by
      unfold popFrontBytes
      rw [hpop]
    refine ⟨reader, hwf', hbytes, ?_⟩
    rw [hextent]
    unfold takeField
    simp only [if_neg (not_lt.mpr hsize), hturn]
    rcases packetOf_cases f with hnil | ⟨p, hone⟩
    · obtain rfl := hms.trans hnil
      exact (turnOf_true { t with reader }).symm
    · obtain rfl := hms.trans hone
      refine (tokenizePacket_spec (t := { t with reader }) hsafe.1).trans ?_
      show turnOf (deliverPacket env p t.passed) reader = turnOf (deliverPackets env [p] t.passed) reader
      unfold deliverPackets
      dsimp only
      split_ifs with hok
      · show _ = turnOf (true, _) _
        rw [← hok]
      · rfl

/-! ### Calls -/

theorem deliverPackets_cons (p : List UInt8) (ps passed : List (List UInt8)) : deliverPackets env (p :: ps) passed =
    if (deliverPacket env p passed).1 then deliverPackets env ps (deliverPacket env p passed).2
    else deliverPacket env p passed := rfl

theorem safePackets_cons {p : List UInt8} {ps : List (List UInt8)} : SafePackets env (p :: ps) passed ↔
    SafePacket env p passed ∧
      ((deliverPacket env p passed).1 → SafePackets env ps (deliverPacket env p passed).2) := Iff.rfl

theorem deliverPackets_append (ps qs passed : List (List UInt8)) : deliverPackets env (ps ++ qs) passed =
    if (deliverPackets env ps passed).1 then deliverPackets env qs (deliverPackets env ps passed).2
    else deliverPackets env ps passed := by
  induction ps generalizing passed with
  | nil => rfl
  | cons p ps ih =>
    rw [List.cons_append, deliverPackets_cons, deliverPackets_cons]
    by_cases hok : (deliverPacket env p passed).1 = true
    · rw [if_pos hok, if_pos hok]
      exact ih _
    · rw [if_neg hok, if_neg hok, if_neg hok]

theorem safePackets_append {ps qs : List (List UInt8)} : SafePackets env (ps ++ qs) passed ↔
    SafePackets env ps passed ∧
      ((deliverPackets env ps passed).1 → SafePackets env qs (deliverPackets env ps passed).2) := by
  induction ps generalizing passed with
  | nil => exact ⟨fun h => ⟨trivial, fun _ => h⟩, fun h => h.2 rfl⟩
  | cons p ps ih =>
    rw [List.cons_append, safePackets_cons, safePackets_cons, deliverPackets_cons]
    by_cases hok : (deliverPacket env p passed).1 = true
    · rw [if_pos hok, ih]
      simp only [hok, true_implies, and_assoc]
    · rw [if_neg hok]
      exact ⟨fun h => ⟨⟨h.1, fun h' => absurd h' hok⟩, fun h' => absurd h' hok⟩, fun h => h.1.imp_right fun _ h' => absurd h' hok⟩

theorem SafeStream.not_skipWraps (h : SafeStream env bs passed) : ¬ skipWraps bs := by
  intro hwraps
  have hdrain := topFields.drain_more (nextField_of_skipWraps hwraps h.short)
  refine h.skips ?_ bs ?_ hwraps <;> rw [hdrain]
  rfl

/-- The first part of safe bytes is safe, and so are what it leaves and the second part when its packets are passed. -/
theorem SafeStream.cut {xs ys : List UInt8} (h : SafeStream env (xs ++ ys) passed) :
    SafeStream env xs passed ∧ ∀ rest, (topFields.drain xs).2 = some rest →
      (deliverPackets env (topFields.drain xs).1 passed).1 →
        SafeStream env (rest ++ ys) (deliverPackets env (topFields.drain xs).1 passed).2 := by
  have hshort := h.short
  rw [List.length_append] at hshort
  have hdrain := topFields.drain_append xs ys
  cases hleft : (topFields.drain xs).2 with
  | none =>
    have hall : topFields.drain (xs ++ ys) = topFields.drain xs := by
      rw [hdrain]
      unfold Framing.feed
      rw [hleft]
    refine ⟨⟨by omega, hall ▸ h.packets, fun _ rest hrest => ?_⟩, fun rest hrest => absurd hrest (by simp)⟩
    exact absurd (hleft.symm.trans hrest) (by simp)
  | some rest =>
    have hall : topFields.drain (xs ++ ys) = ((topFields.drain xs).1 ++ (topFields.drain (rest ++ ys)).1,
        (topFields.drain (rest ++ ys)).2) := by
      rw [hdrain]
      unfold Framing.feed
      rw [hleft]
    obtain ⟨hle, -⟩ := topFields.drain_left hleft
    have hshort' : (rest ++ ys).length < 2 ^ 64 := by
      rw [List.length_append]
      omega
    have hpackets := h.packets
    have hskips := h.skips
    rw [hall] at hpackets hskips
    obtain ⟨hfirst, hsecond⟩ := safePackets_append.mp hpackets
    rw [deliverPackets_append] at hskips
    refine ⟨⟨by omega, hfirst, fun hok rest' hrest hwraps => ?_⟩, fun rest' hrest hok => ?_⟩
    · obtain rfl := Option.some.inj (hleft.symm.trans hrest)
      have hstuck := skipWraps_append hwraps ys
      rw [if_pos hok, topFields.drain_more (nextField_of_skipWraps hstuck hshort')] at hskips
      exact hskips rfl _ rfl hstuck
    · obtain rfl := Option.some.inj hrest
      rw [if_pos hok] at hskips
      exact ⟨hshort', hsecond hok, hskips⟩

/-- A call that had bytes with these frames: the packets it has passed, its status, and the bytes it leaves. -/
structure Tokenized (env : TokenizerEnv) (frames : List (List UInt8) × Option (List UInt8)) (passed : List (List UInt8))
    (status : TokenizeStatus) (t : Tokenizer) : Prop where
  packets : t.passed = (deliverPackets env frames.1 passed).2
  verdict : status = if (deliverPackets env frames.1 passed).1 && frames.2.isSome then .ok else .error
  left : (deliverPackets env frames.1 passed).1 → ∀ rest, frames.2 = some rest →
    t.reader.WellFormed ∧ t.reader.bytes = rest

/-- The loop of a call ends within as many turns as there are bytes, and one. -/
theorem loop_spec {n : ℕ} (hwf : t.reader.WellFormed) (hsafe : SafeStream env t.reader.bytes t.passed)
    (hn : t.reader.bytes.length < n) : ∃ status t', loop env n t = some (status, t') ∧
      Tokenized env (topFields.drain t.reader.bytes) t.passed status t' := by
  induction n generalizing t with
  | zero => exact absurd hn (Nat.not_lt_zero _)
  | succ n ih =>
    have hskip := hsafe.not_skipWraps
    unfold loop
    cases hnext : nextField t.reader.bytes with
    | more =>
      have hstep : step env t = .done .ok t := by
        rw [step_eq hwf hskip]
        unfold nextField at hnext
        split at hnext
        · rename_i hextent
          rw [hextent]
          rfl
        · simp at hnext
        · rename_i size packet hextent
          split_ifs at hnext with hsize
          rw [hextent]
          exact if_pos (not_le.mp hsize)
      rw [hstep, topFields.drain_more hnext]
      exact ⟨.ok, t, rfl, rfl, rfl, fun _ rest hrest => ⟨hwf, Option.some.inj hrest⟩⟩
    | fail ms =>
      obtain ⟨hbad, rfl⟩ := nextField_fail.mp hnext
      rw [step_eq hwf hskip, hbad, topFields.drain_fail hnext]
      exact ⟨.error, t, rfl, rfl, rfl, fun _ rest hrest => absurd hrest (by simp)⟩
    | frame ms rest =>
      have hdrain := topFields.drain_frame hnext
      obtain ⟨hpackets, hrest⟩ := safePackets_append.mp (show SafePackets env (ms ++ (topFields.drain rest).1) t.passed by
        have hall := hsafe.packets
        rwa [hdrain] at hall)
      have hskips := hsafe.skips
      rw [hdrain, deliverPackets_append] at hskips
      obtain ⟨reader, hwf', hbytes, hstep⟩ := step_frame hwf hskip hnext hpackets
      have hlt : rest.length < t.reader.bytes.length := topFields.shorter hnext
      rw [hstep, hdrain]
      unfold turnOf
      by_cases hok : (deliverPackets env ms t.passed).1 = true
      · rw [if_pos hok] at hskips ⊢
        subst hbytes
        have hshort := hsafe.short
        obtain ⟨status, t', hloop, hpassed, hstatus, hleft⟩ :=
          ih (t := ⟨reader, _⟩) hwf' ⟨hlt.trans hshort, hrest hok, hskips⟩ (hlt.trans_le (Nat.lt_succ_iff.mp hn))
        refine ⟨status, t', hloop, ?_, ?_, ?_⟩ <;> rw [deliverPackets_append, if_pos hok]
        · exact hpassed
        · exact hstatus
        · exact hleft
      · rw [if_neg hok]
        refine ⟨.error, _, rfl, ?_, ?_, ?_⟩ <;> rw [deliverPackets_append, if_neg hok]
        · rw [Bool.not_eq_true] at hok
          rw [hok]
          rfl
        · exact fun h => absurd h hok

/-- The calls for the pieces of a stream pass its packets. -/
theorem tokenizeAll_from {n : ℕ} {chunks : List (List UInt8)} (hwf : t.reader.WellFormed)
    (hstuck : nextField t.reader.bytes = .more) (hsafe : SafeStream env (t.reader.bytes ++ chunks.flatten) t.passed)
    (hn : (t.reader.bytes ++ chunks.flatten).length < n) : ∃ status t', tokenizeAll env n chunks t = some (status, t') ∧
      Tokenized env (topFields.drain (t.reader.bytes ++ chunks.flatten)) t.passed status t' := by
  induction chunks generalizing t with
  | nil =>
    rw [List.flatten_nil, List.append_nil, topFields.drain_more hstuck]
    exact ⟨.ok, t, rfl, rfl, rfl, fun _ rest hrest => ⟨hwf, Option.some.inj hrest⟩⟩
  | cons view views ih =>
    obtain ⟨hwf', hbytes⟩ := hwf.pushBack view
    rw [List.flatten_cons, ← List.append_assoc, ← hbytes] at hsafe hn ⊢
    obtain ⟨hfirst, hrest⟩ := hsafe.cut
    have hdrain := topFields.drain_append (t.reader.pushBack view).bytes views.flatten
    rw [List.length_append] at hn
    obtain ⟨status, t', hloop, hpassed, hstatus, hleft⟩ :=
      loop_spec (t := { t with reader := t.reader.pushBack view }) (n := n) hwf' hfirst (by dsimp only; omega)
    dsimp only at hloop hpassed hstatus hleft hrest
    unfold tokenizeAll tokenize
    rw [hloop, hdrain]
    unfold Framing.feed
    cases hend : (topFields.drain (t.reader.pushBack view).bytes).2 with
    | none =>
      rw [hend, Option.isSome_none, Bool.and_false, if_neg (by simp)] at hstatus
      subst hstatus
      refine ⟨.error, t', rfl, hpassed, ?_, hleft⟩
      rw [hend, Option.isSome_none, Bool.and_false, if_neg (by simp)]
    | some rest =>
      obtain ⟨hle, hmore⟩ := topFields.drain_left hend
      dsimp only
      by_cases hok : (deliverPackets env (topFields.drain (t.reader.pushBack view).bytes).1 t.passed).1 = true
      · rw [hend, hok] at hstatus
        obtain rfl : status = .ok := hstatus
        obtain ⟨hwf', hrestBytes⟩ := hleft hok rest hend
        have hsafe' := hrest rest hend hok
        rw [← hpassed, ← hrestBytes] at hsafe'
        rw [← hrestBytes] at hmore hle
        obtain ⟨status, t'', hcalls, hpassed', hstatus', hleft'⟩ :=
          ih hwf' hmore hsafe' (by rw [List.length_append]; omega)
        rw [hpassed, hrestBytes] at hpassed' hstatus' hleft'
        refine ⟨status, t'', hcalls, ?_, ?_, ?_⟩ <;> rw [deliverPackets_append, if_pos hok]
        · exact hpassed'
        · exact hstatus'
        · exact hleft'
      · rw [Bool.not_eq_true] at hok
        rw [hok, Bool.false_and, if_neg (by simp)] at hstatus
        subst hstatus
        refine ⟨.error, t', rfl, ?_, ?_, ?_⟩ <;> rw [deliverPackets_append, if_neg (by simp [hok])]
        · exact hpassed
        · exact fun h => absurd (hok.symm.trans h) (by simp)

/-- The calls for the pieces of a stream pass the packets among the fields the stream begins with, those of its
decompressed packets in their place, up to the first error; a call takes at most as many turns as there are bytes, and
one, and the last one leaves the reader after these fields. -/
theorem tokenizeAll_spec {stream : List UInt8} {chunks : List (List UInt8)} {n : ℕ} (hsafe : SafeStream env stream [])
    (hcut : chunks.flatten = stream) (hn : stream.length < n) :
    ∃ enc fields rest status t, stream = enc ++ rest ∧ EncodesMessage enc fields ∧
      (∀ enc' f rest', rest = enc' ++ rest' → ¬ EncodesField enc' f) ∧
      tokenizeAll env n chunks {} = some (status, t) ∧ status ≠ .fault ∧
      t.passed = (deliverPackets env (fields.flatMap packetOf) []).2 ∧
      (status = .ok → (deliverPackets env (fields.flatMap packetOf) []).1 ∧ t.reader.bytes = rest) := by
  subst hcut
  obtain ⟨enc, fields, rest, heq, henc, hms, hmax, hleft⟩ := topFields_drain chunks.flatten
  obtain ⟨status, t, hcalls, hcalled⟩ := tokenizeAll_from (t := {}) TraceBlobViewReader.wellFormed_init rfl hsafe hn
  have hcalled' : Tokenized env (topFields.drain chunks.flatten) [] status t := hcalled
  obtain ⟨hpassed, hstatus, hend⟩ := hcalled'
  rw [hms] at hpassed hstatus hend
  refine ⟨enc, fields, rest, status, t, heq, henc, hmax, hcalls, ?_, hpassed, fun hok => ?_⟩
  · rw [hstatus]
    split_ifs <;> simp
  · rw [hok] at hstatus
    split_ifs at hstatus with hall
    obtain ⟨hdelivered, hsome⟩ := Bool.and_eq_true_iff.mp hall
    obtain ⟨left, hsome⟩ := Option.isSome_iff_exists.mp hsome
    exact ⟨hdelivered, (hend hdelivered left hsome).2.trans (hleft left hsome).symm⟩

/-- A decompressor that makes one packet of anything, and a callback without errors. -/
def onePacketEnv : TokenizerEnv where
  isGzipSupported := true
  decompress := fun _ => some [0x0A, 1, 9]
  callback := fun _ _ => true

/-- A varint, a packet and a compressed packet. -/
def mixedStream : List UInt8 := [0x10, 5, 0x0A, 2, 8, 1, 0x0A, 4, 0x92, 3, 1, 7]

theorem mixedStream_drain : topFields.drain mixedStream = ([[8, 1], [0x92, 3, 1, 7]], some []) := by
  have h1 : topFields.next mixedStream = .frame [] [0x0A, 2, 8, 1, 0x0A, 4, 0x92, 3, 1, 7] := rfl
  have h2 : topFields.next [0x0A, 2, 8, 1, 0x0A, 4, 0x92, 3, 1, 7] = .frame [[8, 1]] [0x0A, 4, 0x92, 3, 1, 7] := rfl
  have h3 : topFields.next [0x0A, 4, 0x92, 3, 1, 7] = .frame [[0x92, 3, 1, 7]] [] := rfl
  rw [topFields.drain_frame h1, topFields.drain_frame h2, topFields.drain_frame h3, topFields.drain_more rfl]
  rfl

theorem mixedStream_safe : SafeStream onePacketEnv mixedStream [] := by
  have hplain : compressedPackets [8, 1] = none := by decide
  have hfield : compressedPackets [0x92, 3, 1, 7] = some { id := 50, type := .kLengthDelimited, data := [7] } := by decide
  have hunpack : nextUnpacked [0x0A, 1, 9] = .frame [[9]] [] := rfl
  refine ⟨by decide, ?_, fun _ rest hrest => ?_⟩
  · rw [mixedStream_drain]
    refine ⟨fun _ field h => absurd (hplain.symm.trans h) (by simp), fun _ => ⟨fun _ field h => ?_, fun _ => trivial⟩⟩
    obtain rfl := Option.some.inj (hfield.symm.trans h)
    refine ⟨rfl, fun packets hpackets => ?_⟩
    obtain rfl := Option.some.inj hpackets
    refine ⟨by decide, fun _ => ?_, fun pre hpre => ?_⟩
    · rw [(unpacked_frame hunpack).2, (unpacked_more rfl).2]
      decide
    · have hlast := congrArg List.getLast? hpre
      simp at hlast
  · rw [mixedStream_drain] at hrest
    obtain rfl := Option.some.inj hrest
    decide

/-- The stream in four pieces. -/
theorem tokenizeAll_spec_cut : ∃ enc fields rest status t, mixedStream = enc ++ rest ∧ EncodesMessage enc fields ∧
    (∀ enc' f rest', rest = enc' ++ rest' → ¬ EncodesField enc' f) ∧
    tokenizeAll onePacketEnv 13 [[0x10], [5, 0x0A, 2], [8, 1, 0x0A, 4, 0x92], [3, 1, 7]] {} = some (status, t) ∧
    status ≠ .fault ∧ t.passed = (deliverPackets onePacketEnv (fields.flatMap packetOf) []).2 ∧
    (status = .ok → (deliverPackets onePacketEnv (fields.flatMap packetOf) []).1 ∧ t.reader.bytes = rest) :=
  tokenizeAll_spec mixedStream_safe rfl (by decide)

/-- A skipped field of eleven bytes up to its payload, which has a declared length of 2^64 - 11. -/
def wrappingField : List UInt8 := [0x12, 0xF5, 0xFF, 0xFF, 0xFF, 0xFF, 0xFF, 0xFF, 0xFF, 0xFF, 0x01]

/-- The read position stands still at this field. -/
theorem loop_wrappingField (n : ℕ) : loop onePacketEnv n { reader := ⟨[⟨0, wrappingField⟩], 11⟩ } = none := by
  induction n with
  | zero => rfl
  | succ n ih => exact ih

/-- The call never returns. -/
theorem tokenize_loops : ¬ ∃ n res, tokenizeAll onePacketEnv n [wrappingField] {} = some res := by
  rintro ⟨n, res, h⟩
  have hcall : tokenize onePacketEnv n wrappingField {} = none := loop_wrappingField n
  rw [tokenizeAll, hcall] at h
  cases h

end LynxTrace.TraceProcessor
