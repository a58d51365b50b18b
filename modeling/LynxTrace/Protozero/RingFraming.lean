import LynxTrace.Base.Framing
import LynxTrace.Protozero.ProtoRingBuffer

/-!
# Protozero.RingFraming — the messages a `ProtoRingBuffer` returns

The readable bytes of the buffer are what the framing of messages has left of the stream so far (`Ready`): `Append` adds
the new bytes to them, wherever it finds the space, and reading takes the frames off them.  The fast path is the case
of a frame that ends with the data.
-/

namespace LynxTrace.Protozero

open LynxTrace.Wire

/-! ### The framing of messages -/

variable {data rest : List UInt8}

theorem tryReadProtoMessage_message {msg : RingMessage} :
    tryReadProtoMessage data = (.message msg, rest) ↔ ∃ fieldTag startOfLen msgLen startOfMsg,
      parseVarInt data = some (fieldTag, startOfLen) ∧ fieldTag % 8 = ProtoWireType.kLengthDelimited.toNat ∧
        parseVarInt startOfLen = some (msgLen, startOfMsg) ∧ msgLen ≤ kMaxMsgSize ∧ msgLen ≤ startOfMsg.length ∧
          msg = ⟨fieldTag / 8 % 2 ^ 32, startOfMsg.take msgLen⟩ ∧ rest = startOfMsg.drop msgLen := by
  constructor
  · intro h
    unfold tryReadProtoMessage at h
    split at h
    · simp at h
    · rename_i fieldTag startOfLen htag
      split_ifs at h with htype
      · simp at h
      · split at h
        · simp at h
        · rename_i msgLen startOfMsg hlen
          split_ifs at h with hmax hrest
          · simp at h
          · simp at h
          · simp only [Prod.mk.injEq, ReadResult.message.injEq] at h
            exact ⟨fieldTag, startOfLen, msgLen, startOfMsg, htag, not_not.mp htype, hlen, not_lt.mp hmax,
              not_lt.mp hrest, h.1.symm, h.2.symm⟩
  · rintro ⟨fieldTag, startOfLen, msgLen, startOfMsg, htag, htype, hlen, hmax, hrest, rfl, rfl⟩
    unfold tryReadProtoMessage
    simp only [htag, htype, hlen, ne_eq, not_true_eq_false, if_false, if_neg (not_lt.mpr hmax),
      if_neg (not_lt.mpr hrest)]

theorem tryReadProtoMessage_framingError :
    (tryReadProtoMessage data).1 = .framingError ↔ ∃ fieldTag startOfLen,
      parseVarInt data = some (fieldTag, startOfLen) ∧ (fieldTag % 8 ≠ ProtoWireType.kLengthDelimited.toNat ∨
        ∃ msgLen startOfMsg, parseVarInt startOfLen = some (msgLen, startOfMsg) ∧ msgLen > kMaxMsgSize) := by
  constructor
  · intro h
    unfold tryReadProtoMessage at h
    split at h
    · simp at h
    · rename_i fieldTag startOfLen htag
      split_ifs at h with htype
      · exact ⟨fieldTag, startOfLen, htag, .inl htype⟩
      · split at h
        · simp at h
        · rename_i msgLen startOfMsg hlen
          split_ifs at h with hmax hrest
          exact ⟨fieldTag, startOfLen, htag, .inr ⟨msgLen, startOfMsg, hlen, hmax⟩⟩
  · rintro ⟨fieldTag, startOfLen, htag, h⟩
    unfold tryReadProtoMessage
    simp only [htag]
    split_ifs with htype
    · rfl
    · obtain ⟨msgLen, startOfMsg, hlen, hmax⟩ := h.resolve_left htype
      simp only [hlen, if_pos hmax]

/-- What follows a message is the end of the data. -/
theorem suffix_of_message {msg : RingMessage} (h : tryReadProtoMessage data = (.message msg, rest)) :
    rest <:+ data := by
  obtain ⟨fieldTag, startOfLen, msgLen, startOfMsg, htag, -, hlen, -, -, -, rfl⟩ := tryReadProtoMessage_message.mp h
  obtain ⟨tagEnc, rfl, -⟩ := parseVarInt_split htag
  obtain ⟨lenEnc, rfl, -⟩ := parseVarInt_split hlen
  exact (List.drop_suffix _ _).trans ((List.suffix_append _ _).trans (List.suffix_append _ _))

/-- The decision of `TryReadProtoMessage` on some data. -/
def nextMessage (data : List UInt8) : Outcome UInt8 RingMessage :=
  match tryReadProtoMessage data with
  | (.message msg, rest) => .frame [msg] rest
  | (.framingError, _) => .fail []
  | (.none, _) => .more

theorem nextMessage_frame {ms : List RingMessage} :
    nextMessage data = .frame ms rest ↔ ∃ msg, ms = [msg] ∧ tryReadProtoMessage data = (.message msg, rest) := by
  unfold nextMessage
  rcases tryReadProtoMessage data with ⟨_ | _ | msg, rest'⟩
  · simp
  · simp
  · constructor
    · intro h
      obtain ⟨rfl, rfl⟩ := Outcome.frame.inj h
      exact ⟨msg, rfl, rfl⟩
    · rintro ⟨msg', rfl, h⟩
      obtain ⟨h1, rfl⟩ := Prod.mk.inj h
      rw [ReadResult.message.inj h1]

theorem nextMessage_fail {ms : List RingMessage} :
    nextMessage data = .fail ms ↔ ms = [] ∧ (tryReadProtoMessage data).1 = .framingError := by
  unfold nextMessage
  rcases tryReadProtoMessage data with ⟨_ | _ | msg, rest'⟩
  · simp
  · simp [eq_comm]
  · simp

/-- Messages as frames of a stream. -/
def messages : Framing UInt8 RingMessage where
  next := nextMessage
  shorter := by
    intro xs ms rest h
    obtain ⟨msg, -, h⟩ := nextMessage_frame.mp h
    obtain ⟨fieldTag, startOfLen, msgLen, startOfMsg, htag, -, hlen, -, -, -, rfl⟩ := tryReadProtoMessage_message.mp h
    have h1 := parseVarInt_length_lt htag
    have h2 := parseVarInt_length_lt hlen
    rw [List.length_drop]
    omega
  frame_append := by
    intro xs ms rest ys h
    obtain ⟨msg, rfl, hread⟩ := nextMessage_frame.mp h
    obtain ⟨fieldTag, startOfLen, msgLen, startOfMsg, htag, htype, hlen, hmax, hrest, rfl, rfl⟩ :=
      tryReadProtoMessage_message.mp hread
    refine nextMessage_frame.mpr ⟨_, rfl, tryReadProtoMessage_message.mpr ?_⟩
    refine ⟨fieldTag, startOfLen ++ ys, msgLen, startOfMsg ++ ys, parseVarInt_append_right htag ys, htype,
      parseVarInt_append_right hlen ys, hmax, ?_, ?_, ?_⟩
    · rw [List.length_append]
      omega
    · rw [List.take_append_of_le_length hrest]
    · rw [List.drop_append_of_le_length hrest]
  fail_append := by
    intro xs ms ys h
    obtain ⟨rfl, hread⟩ := nextMessage_fail.mp h
    obtain ⟨fieldTag, startOfLen, htag, hbad⟩ := tryReadProtoMessage_framingError.mp hread
    refine nextMessage_fail.mpr ⟨rfl, tryReadProtoMessage_framingError.mpr ?_⟩
    refine ⟨fieldTag, startOfLen ++ ys, parseVarInt_append_right htag ys, hbad.imp_right ?_⟩
    rintro ⟨msgLen, startOfMsg, hlen, hmax⟩
    exact ⟨msgLen, startOfMsg ++ ys, parseVarInt_append_right hlen ys, hmax⟩

theorem messages_drain_nil : messages.drain [] = ([], some []) := messages.drain_more rfl

theorem messages_drain_message {msg : RingMessage} (h : tryReadProtoMessage data = (.message msg, rest)) :
    messages.drain data = (msg :: (messages.drain rest).1, (messages.drain rest).2) :=
  messages.drain_frame (nextMessage_frame.mpr ⟨msg, rfl, h⟩)

/-- The field a message is written as. -/
def RingMessage.toWire (m : RingMessage) : WireField := ⟨m.fieldId, .bytes m.data⟩

/-- The frames of a stream of fields are the fields. -/
theorem messages_drain_encoded {stream : List UInt8} {fields : List RingMessage}
    (henc : EncodesMessage stream (fields.map RingMessage.toWire))
    (hfields : ∀ m ∈ fields, m.fieldId < 2 ^ 32 ∧ m.data.length ≤ kMaxMsgSize) :
    messages.drain stream = (fields, some []) := by
  induction fields generalizing stream with
  | nil =>
    cases henc
    exact messages_drain_nil
  | cons m fields ih =>
    obtain ⟨hid, hmax⟩ := hfields m (by simp)
    generalize hf : (m :: fields).map RingMessage.toWire = fs at henc
    cases henc with
    | nil => exact absurd hf (by simp)
    | cons hf' henc =>
      rename_i enc bs f fs
      obtain ⟨rfl, rfl⟩ := List.cons.inj (hf.symm.trans rfl)
      obtain ⟨htag, hval⟩ := hf'
      rename_i tagEnc valEnc
      generalize hw : m.toWire.value = w at hval
      cases hval with
      | bytes hlen =>
        rename_i lenEnc payload
        obtain rfl : m.data = payload := WireValue.bytes.inj hw
        have hread : tryReadProtoMessage (tagEnc ++ (lenEnc ++ m.data) ++ bs) = (.message m, bs) := by
          refine tryReadProtoMessage_message.mpr ⟨m.toWire.tag, lenEnc ++ m.data ++ bs, m.data.length, m.data ++ bs,
            ?_, m.toWire.tag_mod, ?_, hmax, ?_, ?_, ?_⟩
          · rw [List.append_assoc, parseVarInt_append htag]
          · rw [List.append_assoc, parseVarInt_append hlen]
          · rw [List.length_append]
            omega
          · rw [m.toWire.tag_div, List.take_left' rfl]
            show m = ⟨m.fieldId % 2 ^ 32, m.data⟩
            rw [Nat.mod_eq_of_lt hid]
          · rw [List.drop_left' rfl]
        rw [messages_drain_message hread, ih henc fun m' hm' => hfields m' (by simp [hm'])]
      | varint h | fixed64 h | fixed32 h => exact absurd hw (by simp [RingMessage.toWire])

/-! ### The buffer -/

namespace RingBufferMessageReader

/-- The readable bytes. -/
def pending (s : RingBufferMessageReader) : List UInt8 := slice s.buf s.rd (s.wr - s.rd)

/-- The cursors are in the buffer, whose size is a number of steps of growth within the limit. -/
structure InBounds (s : RingBufferMessageReader) : Prop where
  rd_le : s.rd ≤ s.wr
  wr_le : s.wr ≤ s.buf.length
  steps : kGrowBytes ∣ s.buf.length
  limit : s.buf.length ≤ growthLimit

/-- A reader between two calls of `Append`. -/
structure Ready (s : RingBufferMessageReader) : Prop extends s.InBounds where
  failed : s.failed = false
  fastpath : s.fastpath = none

theorem ready_init : Ready {} := by
  refine ⟨⟨le_refl _, Nat.zero_le _, ?_, ?_⟩, rfl, rfl⟩
  · rw [List.length_replicate]
  · rw [List.length_replicate]
    decide

variable {s : RingBufferMessageReader}

theorem InBounds.cursors (h : s.InBounds) : CursorsIn kGrowBytes growthLimit s.buf s.rd s.wr :=
  ⟨h.rd_le, h.wr_le, h.steps, h.limit⟩

theorem InBounds.of_cursors (h : CursorsIn kGrowBytes growthLimit s.buf s.rd s.wr) : s.InBounds :=
  ⟨h.rd_le, h.wr_le, h.steps, h.limit⟩

theorem InBounds.length_pending (h : s.InBounds) : s.pending.length = s.backlog := h.cursors.length_between

theorem newSize_spec {dataLen wr size : ℕ} (hwr : wr ≤ size) (hsteps : kGrowBytes ∣ size)
    (hlimit : size ≤ growthLimit) (hfits : wr + dataLen ≤ growthLimit) :
    size ≤ newSize dataLen wr size ∧ dataLen ≤ newSize dataLen wr size - wr ∧
      kGrowBytes ∣ newSize dataLen wr size ∧ newSize dataLen wr size ≤ growthLimit := by
  induction size using newSize.induct dataLen wr with
  | case1 size hgt ih =>
    -- There is a step of growth left: the limit is a number of steps too.
    have hstep : size + kGrowBytes ≤ growthLimit := by
      obtain ⟨k, rfl⟩ := hsteps
      have hlt : kGrowBytes * k < growthLimit := by omega
      have hlim : growthLimit = kGrowBytes * 1024 := rfl
      rw [hlim] at hlt ⊢
      have hk : k < 1024 := lt_of_mul_lt_mul_left hlt (Nat.zero_le _)
      calc kGrowBytes * k + kGrowBytes = kGrowBytes * (k + 1) := (Nat.mul_succ _ _).symm
        _ ≤ kGrowBytes * 1024 := Nat.mul_le_mul_left _ hk
    obtain ⟨h1, h2⟩ := ih (by omega) (Nat.dvd_add hsteps (dvd_refl _)) hstep
    rw [newSize, if_pos hgt]
    exact ⟨by omega, h2⟩
  | case2 size hle =>
    rw [newSize, if_neg hle]
    exact ⟨le_refl _, by omega, hsteps, hlimit⟩

/-- Writing after the readable bytes. -/
theorem InBounds.write (h : s.InBounds) (hspace : data.length ≤ s.buf.length - s.wr) :
    (s.write data).InBounds ∧ (s.write data).pending = s.pending ++ data :=
  And.imp_left .of_cursors (h.cursors.write hspace)

/-- Recompaction keeps the readable bytes. -/
theorem InBounds.recompact (h : s.InBounds) :
    s.recompact.InBounds ∧ s.recompact.pending = s.pending ∧ s.recompact.buf.length = s.buf.length :=
  And.imp_left .of_cursors h.cursors.recompact

/-- A larger buffer keeps the readable bytes. -/
theorem InBounds.expand (h : s.InBounds) {size : ℕ} (hge : s.buf.length ≤ size) (hsteps : kGrowBytes ∣ size)
    (hlimit : size ≤ growthLimit) :
    (s.expand size).InBounds ∧ (s.expand size).pending = s.pending ∧ (s.expand size).buf.length = size := by
  have hlen : (s.buf ++ List.replicate (size - s.buf.length) 0).length = size := by
    rw [List.length_append, List.length_replicate]
    omega
  obtain ⟨hin, hkept⟩ := h.cursors.expand (by rwa [hlen]) (by rwa [hlen])
  exact ⟨.of_cursors hin, hkept, hlen⟩

/-- Whatever way the space is found, the data is added to the readable bytes. -/
theorem InBounds.appendToBuffer (h : s.InBounds) (hfits : s.backlog + data.length ≤ growthLimit) :
    (s.appendToBuffer data).InBounds ∧ (s.appendToBuffer data).pending = s.pending ++ data ∧
      (s.appendToBuffer data).failed = s.failed ∧ (s.appendToBuffer data).fastpath = s.fastpath := by
  obtain ⟨hcompact, hpending, hlen⟩ := h.recompact
  unfold RingBufferMessageReader.appendToBuffer
  dsimp only
  split_ifs with h1 h2 h3
  · obtain ⟨hin, hdata⟩ := h.write h1
    exact ⟨hin, hdata, rfl, rfl⟩
  · obtain ⟨hin, hdata⟩ := hcompact.write h2
    exact ⟨hin, by rw [hdata, hpending], rfl, rfl⟩
  · have hsize := newSize_spec hcompact.wr_le hcompact.steps hcompact.limit hfits
    exact absurd h3 (not_lt.mpr hsize.2.2.2)
  · obtain ⟨hge, hspace, hsteps, hlimit⟩ := newSize_spec hcompact.wr_le hcompact.steps hcompact.limit hfits
    obtain ⟨hlarger, hkept, hsize⟩ := hcompact.expand hge hsteps hlimit
    obtain ⟨hin, hdata⟩ := hlarger.write (show data.length ≤ _ by rwa [hsize])
    exact ⟨hin, by rw [hdata, hkept, hpending], rfl, rfl⟩

/-! ### Reading -/

/-- A message takes its bytes off the readable ones. -/
theorem InBounds.skip (h : s.InBounds) (hrest : rest <:+ s.pending) :
    InBounds { s with rd := s.wr - rest.length } ∧ pending { s with rd := s.wr - rest.length } = rest :=
  And.imp_left .of_cursors (h.cursors.skip hrest)

/-- Reading until there is no message takes the frames off the readable bytes. -/
theorem Ready.readAll (h : s.Ready) {n : ℕ} (hn : s.pending.length < n)
    (hrest : (messages.drain s.pending).2 = some rest) :
    ∃ s', s.readAll n = some ((messages.drain s.pending).1, .none, s') ∧ s'.Ready ∧ s'.pending = rest := by
  induction n generalizing s with
  | zero => exact absurd hn (Nat.not_lt_zero _)
  | succ n ih =>
    have hpending : s.pending.length = s.wr - s.rd := h.length_pending
    by_cases hempty : s.rd ≥ s.wr
    · have hnil : s.pending = [] := List.eq_nil_of_length_eq_zero (by omega)
      rw [hnil, messages_drain_nil] at hrest ⊢
      have hread : s.readMessage = some (.none, s) := by
        unfold readMessage
        simp only [h.failed, h.fastpath, if_pos hempty, Bool.false_eq_true, if_false]
      refine ⟨s, ?_, h, hnil.trans (Option.some.inj hrest)⟩
      rw [RingBufferMessageReader.readAll, hread]
    · have hread : s.readMessage = match tryReadProtoMessage s.pending with
          | (.message msg, rest) => some (.message msg, { s with rd := s.wr - rest.length })
          | (.framingError, _) => some (.framingError, { s with failed := true })
          | (.none, _) => some (.none, s) := by
        unfold readMessage
        simp only [h.failed, h.fastpath, if_neg hempty, Bool.false_eq_true, if_false]
        rfl
      rcases htry : tryReadProtoMessage s.pending with ⟨_ | _ | msg, rest'⟩
      · have hmore : messages.next s.pending = .more := by
          show nextMessage s.pending = _
          rw [nextMessage, htry]
        rw [messages.drain_more hmore] at hrest ⊢
        rw [htry] at hread
        refine ⟨s, ?_, h, Option.some.inj hrest⟩
        rw [RingBufferMessageReader.readAll, hread]
      · have hfail : messages.next s.pending = .fail [] := nextMessage_fail.mpr ⟨rfl, by rw [htry]⟩
        rw [messages.drain_fail hfail] at hrest
        exact absurd hrest (by simp)
      · obtain ⟨hin, hleft⟩ := h.skip (suffix_of_message htry)
        have hshorter : rest'.length < s.pending.length :=
          messages.shorter (nextMessage_frame.mpr ⟨msg, rfl, htry⟩)
        rw [messages_drain_message htry] at hrest ⊢
        rw [htry] at hread
        obtain ⟨s', hall, hready, hs'⟩ := ih (s := { s with rd := s.wr - rest'.length }) ⟨hin, h.failed, h.fastpath⟩
          (by rw [hleft]; omega) (by rw [hleft]; exact hrest)
        rw [hleft] at hall
        refine ⟨s', ?_, hready, hs'⟩
        rw [RingBufferMessageReader.readAll, hread]
        simp only [hall, Option.map_some]

/-- The message of the fast path. -/
theorem readAll_fastpath (h : s.Ready) (hempty : s.rd = s.wr) (msg : RingMessage) {n : ℕ} (hn : 2 ≤ n) :
    readAll n { s with fastpath := some msg } = some ([msg], .none, s) := by
  obtain ⟨n, rfl⟩ : ∃ k, n = k + 2 := ⟨n - 2, by omega⟩
  have hfirst : readMessage { s with fastpath := some msg } = some (.message msg, s) := by
    unfold readMessage
    rw [if_neg (by rw [h.failed]; simp)]
    show (if s.rd = s.wr then some (ReadResult.message msg, { s with fastpath := none }) else none) = _
    rw [if_pos hempty, ← h.fastpath]
  have hthen : s.readMessage = some (.none, s) := by
    unfold readMessage
    simp only [h.failed, h.fastpath, hempty, Bool.false_eq_true, if_false, ge_iff_le, le_refl, if_true]
  rw [RingBufferMessageReader.readAll, hfirst]
  simp only
  rw [RingBufferMessageReader.readAll, hthen]
  rfl

/-- `append`, of the buffer with its cursors at the beginning where nothing is pending. -/
theorem Ready.append_eq {t : RingBufferMessageReader} (h : s.Ready)
    (ht : t = if s.rd = s.wr then { s with rd := 0, wr := 0 } else s) (hready : t.Ready) (chunk : List UInt8) :
    s.append chunk = match if t.rd = t.wr then tryReadProtoMessage chunk else (.none, chunk) with
      | (.message msg, []) => some { t with fastpath := some msg }
      | _ => some (t.appendToBuffer chunk) := by
  unfold append
  rw [if_neg (by rw [h.failed]; simp), ← ht]
  refine Eq.trans (by simp only [hready.fastpath, Option.isSome_none, Bool.false_eq_true, if_false]; rfl) ?_
  rfl

/-- One piece: the frames that it completes are read. -/
theorem Ready.appendAndRead (h : s.Ready) {chunk : List UInt8} (hfits : s.backlog + chunk.length ≤ growthLimit) {n : ℕ}
    (hn : (s.pending ++ chunk).length < n) (hrest : (messages.drain (s.pending ++ chunk)).2 = some rest) :
    ∃ s', s.appendAndRead n chunk = some ((messages.drain (s.pending ++ chunk)).1, .none, s') ∧ s'.Ready ∧
      s'.pending = rest := by
  -- Restarting from the beginning of the buffer changes nothing but the cursors.
  obtain ⟨t, ht, hstart, hpending, hfits, hempty⟩ : ∃ t : RingBufferMessageReader,
      t = (if s.rd = s.wr then { s with rd := 0, wr := 0 } else s) ∧ t.Ready ∧ t.pending = s.pending ∧
        t.backlog + chunk.length ≤ growthLimit ∧ (t.rd = t.wr → t.pending = []) := by
    refine ⟨_, rfl, ?_⟩
    have hnil : ∀ r : RingBufferMessageReader, r.rd = r.wr → r.pending = [] := by
      intro r hr
      unfold pending slice
      rw [hr, Nat.sub_self, List.take_zero]
    split_ifs with hrd
    · refine ⟨⟨⟨le_refl _, Nat.zero_le _, h.steps, h.limit⟩, h.failed, h.fastpath⟩, ?_, ?_, fun _ => hnil _ rfl⟩
      · rw [hnil s hrd, hnil _ rfl]
      · unfold backlog at hfits ⊢
        dsimp only
        omega
    · exact ⟨h, rfl, hfits, hnil s⟩
  have happend := h.append_eq ht hstart chunk
  have hbuffered : s.append chunk = some (t.appendToBuffer chunk) → ∃ s', s.appendAndRead n chunk =
      some ((messages.drain (s.pending ++ chunk)).1, .none, s') ∧ s'.Ready ∧ s'.pending = rest := by
    intro hbuf
    obtain ⟨hin, hdata, hfailed, hfast⟩ := hstart.appendToBuffer hfits
    have hready : (t.appendToBuffer chunk).Ready := ⟨hin, hfailed.trans hstart.failed, hfast.trans hstart.fastpath⟩
    rw [hpending] at hdata
    rw [← hdata] at hn hrest ⊢
    unfold RingBufferMessageReader.appendAndRead
    rw [hbuf, Option.bind_some]
    exact hready.readAll hn hrest
  by_cases hrd : t.rd = t.wr
  · rw [if_pos hrd] at happend
    rcases htry : tryReadProtoMessage chunk with ⟨_ | _ | msg, _ | ⟨b, rest'⟩⟩
    all_goals rw [htry] at happend
    case message.nil =>
      -- The fast path: the data is one frame.
      have hdrain := messages_drain_message htry
      rw [messages_drain_nil] at hdrain
      rw [← hpending, hempty hrd, List.nil_append] at hn hrest ⊢
      have hlong : 1 ≤ chunk.length := by
        have hlt := messages.shorter (nextMessage_frame.mpr ⟨msg, rfl, htry⟩)
        rw [List.length_nil] at hlt
        omega
      unfold RingBufferMessageReader.appendAndRead
      rw [happend, Option.bind_some, hdrain, readAll_fastpath hstart hrd msg (by omega)]
      rw [hdrain] at hrest
      exact ⟨t, rfl, hstart, (hempty hrd).trans (Option.some.inj hrest)⟩
    all_goals exact hbuffered happend
  · rw [if_neg hrd] at happend
    exact hbuffered happend

/-! ### Sessions -/

/-- The messages of a session are the frames of the stream, as long as there is no framing error in it. -/
theorem Ready.session (h : s.Ready) (hmore : messages.next s.pending = .more) {chunks : List (List UInt8)} {n : ℕ}
    (hn : (s.pending ++ chunks.flatten).length < n) (hfits : backlogFits n chunks s)
    (hok : (messages.drain (s.pending ++ chunks.flatten)).2 ≠ none) :
    ∃ mss, s.session n chunks = some mss ∧ mss.flatten = (messages.drain (s.pending ++ chunks.flatten)).1 := by
  induction chunks generalizing s with
  | nil =>
    refine ⟨[], rfl, ?_⟩
    rw [List.flatten_nil, List.flatten_nil, List.append_nil, messages.drain_more hmore]
  | cons chunk chunks ih =>
    rw [List.flatten_cons, ← List.append_assoc] at hn hok ⊢
    rw [messages.drain_append] at hok ⊢
    rcases hdrain : messages.drain (s.pending ++ chunk) with ⟨ms, _ | rest⟩
    · rw [hdrain] at hok
      exact absurd rfl hok
    · rw [hdrain] at hok
      simp only [backlogFits, Bool.and_eq_true, decide_eq_true_eq] at hfits
      rw [List.length_append] at hn
      have hleft : (messages.drain (s.pending ++ chunk)).2 = some rest := by rw [hdrain]
      obtain ⟨s', hread, hready, rfl⟩ := h.appendAndRead hfits.1 (n := n) (by omega) hleft
      rw [hread, Option.all_some] at hfits
      obtain ⟨hle, hmore'⟩ := messages.drain_left hleft
      obtain ⟨mss, hmss, hflat⟩ := ih hready hmore' (by rw [List.length_append]; omega) hfits.2 hok
      refine ⟨ms :: mss, ?_, ?_⟩
      · rw [RingBufferMessageReader.session, hread, hdrain]
        simp only [Option.bind_some, hmss, Option.map_some]
      · rw [List.flatten_cons, hflat]
        rfl

/-- A stream that fits the largest buffer fits it at every piece. -/
theorem Ready.backlogFits_of_length (h : s.Ready) {chunks : List (List UInt8)} {n : ℕ}
    (hn : (s.pending ++ chunks.flatten).length < n) (hlimit : (s.pending ++ chunks.flatten).length ≤ growthLimit)
    (hok : (messages.drain (s.pending ++ chunks.flatten)).2 ≠ none) : backlogFits n chunks s := by
  induction chunks generalizing s with
  | nil => rfl
  | cons chunk chunks ih =>
    rw [List.flatten_cons, ← List.append_assoc] at hn hlimit hok
    rw [List.length_append] at hn hlimit
    rw [messages.drain_append] at hok
    have hfits : s.backlog + chunk.length ≤ growthLimit := by
      rw [← h.length_pending, ← List.length_append]
      omega
    rcases hdrain : messages.drain (s.pending ++ chunk) with ⟨ms, _ | rest⟩
    · rw [hdrain] at hok
      exact absurd rfl hok
    · rw [hdrain] at hok
      have hleft : (messages.drain (s.pending ++ chunk)).2 = some rest := by rw [hdrain]
      obtain ⟨s', hread, hready, rfl⟩ := h.appendAndRead hfits (n := n) (by omega) hleft
      obtain ⟨hle, -⟩ := messages.drain_left hleft
      have hnext := ih hready (by rw [List.length_append]; omega) (by rw [List.length_append]; omega) hok
      rw [backlogFits, hread, Option.all_some, hnext, Bool.and_true]
      exact decide_eq_true hfits

/-- The messages read in a session are the fields of the stream, in order and however it is cut into pieces, as long as
what has not been read stays under the limit of the buffer's growth. -/
theorem session_eq {fields : List RingMessage} {stream : List UInt8}
    (henc : EncodesMessage stream (fields.map RingMessage.toWire))
    (hfields : ∀ m ∈ fields, m.fieldId < 2 ^ 32 ∧ m.data.length ≤ kMaxMsgSize) {chunks : List (List UInt8)}
    (hcut : chunks.flatten = stream) {n : ℕ} (hn : stream.length < n) (hfits : backlogFits n chunks {}) :
    ∃ mss, session n chunks {} = some mss ∧ mss.flatten = fields := by
  have hdrain := messages_drain_encoded henc hfields
  have hempty : pending {} = [] := rfl
  have hstream : pending {} ++ chunks.flatten = stream := by rw [hempty, hcut, List.nil_append]
  have hlen : (pending {} ++ chunks.flatten).length < n := by rwa [hstream]
  obtain ⟨mss, hmss, hflat⟩ := ready_init.session rfl hlen hfits (by rw [hstream, hdrain]; simp)
  exact ⟨mss, hmss, by rw [hflat, hstream, hdrain]⟩

/-- Two fields, the first of them empty, in three pieces: one that ends inside the second field's length, the rest of
that field, and nothing. -/
theorem session_eq_cut :
    ∃ mss, session 9 [[10, 0, 18], [2, 7, 7], []] {} = some mss ∧ mss.flatten = [⟨1, []⟩, ⟨2, [7, 7]⟩] := by
  have hfirst : EncodesField ([10] ++ ([0] ++ [])) (RingMessage.toWire ⟨1, []⟩) :=
    .mk ⟨10, rfl, rfl⟩ (.bytes ⟨0, rfl, rfl⟩)
  have hsecond : EncodesField ([18] ++ ([2] ++ [7, 7])) (RingMessage.toWire ⟨2, [7, 7]⟩) :=
    .mk ⟨18, rfl, rfl⟩ (.bytes ⟨2, rfl, rfl⟩)
  have hstream : EncodesMessage [10, 0, 18, 2, 7, 7] ([⟨1, []⟩, ⟨2, [7, 7]⟩].map RingMessage.toWire) :=
    .cons hfirst (.cons hsecond .nil)
  have hfields : ∀ m ∈ [(⟨1, []⟩ : RingMessage), ⟨2, [7, 7]⟩], m.fieldId < 2 ^ 32 ∧ m.data.length ≤ kMaxMsgSize := by
    decide
  have hfits : backlogFits 9 [[10, 0, 18], [2, 7, 7], []] {} :=
    ready_init.backlogFits_of_length (show 6 < 9 by decide) (show 6 ≤ growthLimit by decide)
      (Option.ne_none_iff_exists'.mpr ⟨_, congrArg Prod.snd (messages_drain_encoded hstream hfields)⟩)
  exact session_eq hstream hfields rfl (by decide) hfits

end RingBufferMessageReader

end LynxTrace.Protozero
