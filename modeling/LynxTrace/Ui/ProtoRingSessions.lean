import LynxTrace.Ui.ProtoRingFraming

/-!
# Ui.ProtoRingSessions — one `append` to a `ProtoRingBuffer` and the reads after it

The readable bytes of the buffer are what the framing has left of the stream so far (`Ready`).  `append` adds the new
bytes to them, wherever it finds the space; the fast path is the case of a frame that is all of the data.
-/

namespace LynxTrace.Ui

open ProtoTokenizationMode

namespace ProtoRingBuffer

/-- The largest size the buffer is expanded to. -/
def growthLimit : ℕ := kMaxMsgSize * 2

/-- The readable bytes. -/
def pending (s : ProtoRingBuffer) : List UInt8 := slice s.buf s.rd (s.wr - s.rd)

/-- The cursors are in the buffer, whose size is a number of steps of growth within the limit. -/
structure InBounds (s : ProtoRingBuffer) : Prop where
  rd_le : s.rd ≤ s.wr
  wr_le : s.wr ≤ s.buf.length
  steps : kGrowBytes ∣ s.buf.length
  limit : s.buf.length ≤ growthLimit

/-- A buffer between two calls of `append`. -/
structure Ready (s : ProtoRingBuffer) : Prop extends s.InBounds where
  fastpath : s.fastpath = none

theorem ready_new (mode : ProtoTokenizationMode) : (new mode).Ready := by
  refine ⟨⟨Nat.le_refl 0, Nat.zero_le _, ?_, ?_⟩, rfl⟩
  · show kGrowBytes ∣ (List.replicate kGrowBytes (0 : UInt8)).length
    rw [List.length_replicate]
  · show (List.replicate kGrowBytes (0 : UInt8)).length ≤ growthLimit
    rw [List.length_replicate]
    decide

variable {s : ProtoRingBuffer} {data : List UInt8}

theorem InBounds.cursors (h : s.InBounds) : CursorsIn kGrowBytes growthLimit s.buf s.rd s.wr :=
  ⟨h.rd_le, h.wr_le, h.steps, h.limit⟩

theorem InBounds.of_cursors (h : CursorsIn kGrowBytes growthLimit s.buf s.rd s.wr) : s.InBounds :=
  ⟨h.rd_le, h.wr_le, h.steps, h.limit⟩

theorem InBounds.length_pending (h : s.InBounds) : s.pending.length = s.wr - s.rd := h.cursors.length_between

/-- Writing after the readable bytes. -/
theorem InBounds.write (h : s.InBounds) (hspace : data.length ≤ s.buf.length - s.wr) :
    (s.write data).InBounds ∧ (s.write data).pending = s.pending ++ data :=
  And.imp_left .of_cursors (h.cursors.write hspace)

/-- Recompaction keeps the readable bytes. -/
theorem InBounds.recompact (h : s.InBounds) :
    s.recompact.InBounds ∧ s.recompact.pending = s.pending ∧ s.recompact.buf.length = s.buf.length :=
  And.imp_left .of_cursors h.cursors.recompact

/-- A larger buffer keeps the readable bytes. -/
theorem InBounds.expand (h : s.InBounds) {size : ℕ} (hge : s.buf.length ≤ size) (hsteps : kGrowBytes ∣ size)
    (hlimit : size ≤ growthLimit) :
    (s.expand size).InBounds ∧ (s.expand size).pending = s.pending ∧ (s.expand size).buf.length = size := by
  have hlen : (s.buf ++ List.replicate (size - s.buf.length) 0).length = size := by
    rw [List.length_append, List.length_replicate]
    omega
  obtain ⟨hin, hkept⟩ := h.cursors.expand (by rwa [hlen]) (by rwa [hlen])
  exact ⟨.of_cursors hin, hkept, hlen⟩

theorem newSize_spec {dataLen wr size : ℕ} (hwr : wr ≤ size) (hsteps : kGrowBytes ∣ size)
    (hlimit : size ≤ growthLimit) (hfits : wr + dataLen ≤ growthLimit) :
    size ≤ newSize dataLen wr size ∧ dataLen ≤ newSize dataLen wr size - wr ∧
      kGrowBytes ∣ newSize dataLen wr size ∧ newSize dataLen wr size ≤ growthLimit := by
  induction size using newSize.induct dataLen wr with
  | case1 size hgt ih =>
    -- There is a step of growth left: the limit is a number of steps too.
    have hstep : size + kGrowBytes ≤ growthLimit := by
      obtain ⟨k, rfl⟩ := hsteps
      rw [kGrowBytes, growthLimit, kMaxMsgSize] at *
      omega
    obtain ⟨h1, h2⟩ := ih (by omega) (Nat.dvd_add hsteps (Nat.dvd_refl _)) hstep
    rw [newSize, if_pos hgt]
    exact ⟨by omega, h2⟩
  | case2 size hle =>
    rw [newSize, if_neg hle]
    exact ⟨Nat.le_refl _, by omega, hsteps, hlimit⟩

/-- Whatever way the space is found, the data is added to the readable bytes. -/
theorem Ready.appendToBuffer (h : s.Ready) (hfits : s.pending.length + data.length ≤ growthLimit) :
    ∃ s', s.appendToBuffer data = .ok s' ∧ s'.Ready ∧ s'.pending = s.pending ++ data ∧ s'.mode = s.mode := by
  obtain ⟨hcompact, hpending, hlen⟩ := h.recompact
  rw [h.length_pending] at hfits
  unfold ProtoRingBuffer.appendToBuffer
  dsimp only
  split_ifs with h1 h2 h3
  · obtain ⟨hin, hdata⟩ := h.write h1
    exact ⟨_, rfl, ⟨hin, h.fastpath⟩, hdata, rfl⟩
  · obtain ⟨hin, hdata⟩ := hcompact.write h2
    exact ⟨_, rfl, ⟨hin, h.fastpath⟩, by rw [hdata, hpending], rfl⟩
  · have hsize := newSize_spec hcompact.wr_le hcompact.steps hcompact.limit hfits
    exact absurd h3 (Nat.not_lt.mpr hsize.2.2.2)
  · obtain ⟨hge, hspace, hsteps, hlimit⟩ := newSize_spec hcompact.wr_le hcompact.steps hcompact.limit hfits
    obtain ⟨hlarger, hkept, hsize⟩ := hcompact.expand hge hsteps hlimit
    obtain ⟨hin, hdata⟩ := hlarger.write (show data.length ≤ _ by rwa [hsize])
    exact ⟨_, rfl, ⟨hin, h.fastpath⟩, by rw [hdata, hkept, hpending], rfl⟩

/-! ### Reading -/

/-- Every header of the stream whose length is too large is seen to be: its bits put together in 32 bits have bit 30 set
and bit 31 not set. -/
def SeesLengths (mode : ProtoTokenizationMode) (stream : List UInt8) : Prop :=
  ∀ d groups body, (frames mode).Leaves stream d → mode.header d = .length groups body →
    kMaxMsgSize ≤ mode.declared groups → mode.Recognized groups

variable {mode : ProtoTokenizationMode} {ms : List (List UInt8)}

/-- The first header of what is no frame decides. -/
theorem seesLengths_of_fail (h : nextFrame mode data = .fail ms) : SeesLengths mode data ↔
      ∀ groups body, mode.header data = .length groups body → mode.Recognized groups := by
  constructor
  · intro hsees groups body hheader
    refine hsees data groups body (.refl data) hheader ?_
    obtain ⟨-, hbad | ⟨groups', body', hheader', hmax⟩⟩ := nextFrame_fail.mp h
    · rw [hbad] at hheader
      cases hheader
    · rw [hheader] at hheader'
      cases hheader'
      exact hmax
  · intro hrec d groups body hleaves hheader _
    obtain rfl := hleaves.eq_of_not_frame fun ms' rest hframe => by
      rw [show (frames mode).next data = nextFrame mode data from rfl, h] at hframe
      cases hframe
    exact hrec groups body hheader

variable {rest : List UInt8}

/-- A header whose frame is complete is not concerned. -/
theorem seesLengths_of_frame (h : nextFrame mode data = .frame ms rest) :
    SeesLengths mode data ↔ SeesLengths mode rest := by
  constructor
  · exact fun hsees d groups body hleaves => hsees d groups body (.frame h hleaves)
  · intro hsees d groups body hleaves hheader hmax
    cases hleaves with
    | refl =>
      obtain ⟨groups', body', hheader', hlt, -⟩ := nextFrame_frame.mp h
      rw [hheader] at hheader'
      cases hheader'
      exact absurd hmax (Nat.not_le.mpr hlt)
    | frame h' hrest =>
      obtain ⟨-, rfl⟩ := Outcome.frame.inj (h.symm.trans h')
      exact hsees d groups body hrest hheader hmax

/-- A message takes its bytes off the readable ones. -/
theorem Ready.skip (h : s.Ready) (hrest : rest <:+ s.pending) :
    Ready { s with rd := s.wr - rest.length } ∧ pending { s with rd := s.wr - rest.length } = rest :=
  And.imp_left (fun hin => ⟨.of_cursors hin, h.fastpath⟩) (h.cursors.skip hrest)

/-- `readMessage` of a buffer that is ready: what `tryReadMessage` makes of the readable bytes. -/
theorem Ready.readMessage_eq (h : s.Ready) : s.readMessage =
    match tryReadMessage s.mode s.buf s.rd s.wr with
    | .error e => .error e
    | .ok none => .ok (none, s)
    | .ok (some (offset, msg)) => .ok (some msg, { s with rd := offset + msg.length }) := by
  have hrd := h.rd_le
  unfold readMessage
  rw [h.fastpath]
  dsimp only
  rw [if_neg (Nat.not_lt.mpr hrd)]
  split_ifs with hempty
  · unfold tryReadMessage
    rw [if_neg (Nat.not_lt.mpr h.wr_le), if_pos hempty]
  · rfl

/-- A frame is read, and what is after it stays. -/
theorem Ready.readMessage_frame (h : s.Ready) (hnext : nextFrame s.mode s.pending = .frame ms rest) :
    ∃ m, ms = [m] ∧ s.readMessage = .ok (some m, { s with rd := s.wr - rest.length }) ∧
      Ready { s with rd := s.wr - rest.length } ∧ pending { s with rd := s.wr - rest.length } = rest := by
  obtain ⟨m, hm, htry, hinside, hsuffix⟩ := tryReadMessage_frame h.wr_le hnext
  refine ⟨m, hm, ?_, h.skip hsuffix⟩
  rw [h.readMessage_eq, htry]
  dsimp only
  rw [show s.wr - rest.length - m.length + m.length = s.wr - rest.length by omega]

/-- Reading until there is no message takes the frames off the readable bytes. -/
theorem Ready.readAll (h : s.Ready) {n : ℕ} (hn : s.pending.length < n)
    (hrest : ((frames s.mode).drain s.pending).2 = some rest) :
    ∃ s', s.readAll n = some (((frames s.mode).drain s.pending).1, .ok s') ∧ s'.Ready ∧ s'.pending = rest ∧
      s'.mode = s.mode := by
  induction n generalizing s with
  | zero => exact absurd hn (Nat.not_lt_zero _)
  | succ n ih =>
    have hread := h.readMessage_eq
    rw [ProtoRingBuffer.readAll]
    cases hnext : (frames s.mode).next s.pending with
    | more =>
      rw [(frames s.mode).drain_more hnext] at hrest ⊢
      rw [tryReadMessage_more h.wr_le hnext] at hread
      exact ⟨s, by rw [hread], h, Option.some.inj hrest, rfl⟩
    | fail ms =>
      rw [(frames s.mode).drain_fail hnext] at hrest
      cases hrest
    | frame ms rest' =>
      obtain ⟨m, rfl, hread, hready, hleft⟩ := h.readMessage_frame hnext
      have hshorter := (frames s.mode).shorter hnext
      rw [(frames s.mode).drain_frame hnext] at hrest ⊢
      have hih := @ih { s with rd := s.wr - rest'.length } hready
      rw [hleft] at hih
      obtain ⟨s', hall, hready', hs', hmode⟩ := hih (by omega) hrest
      refine ⟨s', ?_, hready', hs', hmode⟩
      rw [hread]
      dsimp only
      rw [hall]
      rfl

/-- Reading throws at the first thing that is no frame, after the messages before it, exactly if it is seen. -/
theorem Ready.readAll_fail (h : s.Ready) {n : ℕ} (hn : s.pending.length < n)
    (hfail : ((frames s.mode).drain s.pending).2 = none) :
    (∃ e, s.readAll n = some (((frames s.mode).drain s.pending).1, .error e)) ↔ SeesLengths s.mode s.pending := by
  induction n generalizing s with
  | zero => exact absurd hn (Nat.not_lt_zero _)
  | succ n ih =>
    have hread := h.readMessage_eq
    rw [ProtoRingBuffer.readAll]
    cases hnext : (frames s.mode).next s.pending with
    | more =>
      rw [(frames s.mode).drain_more hnext] at hfail
      cases hfail
    | fail ms =>
      obtain ⟨rfl, -⟩ := nextFrame_fail.mp hnext
      rw [(frames s.mode).drain_fail hnext, seesLengths_of_fail hnext]
      refine Iff.trans ?_ (tryReadMessage_fail h.wr_le hnext)
      cases htry : tryReadMessage s.mode s.buf s.rd s.wr with
      | error e =>
        rw [htry] at hread
        rw [hread]
        exact ⟨fun _ => ⟨e, rfl⟩, fun _ => ⟨e, rfl⟩⟩
      | ok view =>
        rw [htry] at hread
        refine ⟨?_, fun ⟨e, he⟩ => by cases he⟩
        rintro ⟨e, he⟩
        cases view with
        | none =>
          rw [hread] at he
          cases he
        | some view =>
          rw [hread] at he
          obtain ⟨r, -, hr⟩ := Option.map_eq_some_iff.mp he
          cases hr
    | frame ms rest' =>
      obtain ⟨m, rfl, hread, hready, hleft⟩ := h.readMessage_frame hnext
      have hshorter := (frames s.mode).shorter hnext
      rw [(frames s.mode).drain_frame hnext] at hfail ⊢
      have hih := @ih { s with rd := s.wr - rest'.length } hready
      rw [hleft] at hih
      rw [seesLengths_of_frame hnext, ← hih (by omega) hfail, hread]
      dsimp only
      constructor
      · rintro ⟨e, he⟩
        obtain ⟨⟨ms, res⟩, hr, he'⟩ := Option.map_eq_some_iff.mp he
        rw [Prod.mk.injEq, List.singleton_append, List.cons.injEq] at he'
        obtain ⟨⟨-, rfl⟩, rfl⟩ := he'
        exact ⟨e, hr⟩
      · rintro ⟨e, he⟩
        refine ⟨e, ?_⟩
        rw [he]
        rfl

/-! ### Appending -/

/-- The data after `left` is one frame, or fits the largest buffer with it. -/
def FitsAfter (mode : ProtoTokenizationMode) (left data : List UInt8) : Prop :=
  (left = [] ∧ ∃ m, nextFrame mode data = .frame m []) ∨ left.length + data.length ≤ growthLimit

theorem slice_all (data : List UInt8) : slice data 0 (data.length - 0) = data := by
  rw [slice, List.drop_zero, Nat.sub_zero, List.take_length]

/-- `append`, of the buffer with its cursors at the beginning where nothing is pending. -/
theorem Ready.append_eq {t : ProtoRingBuffer} (h : s.Ready)
    (ht : t = if s.rd = s.wr then { s with rd := 0, wr := 0 } else s) (hready : t.Ready) (data : List UInt8) :
    s.append data = if data.length = 0 then .ok t
      else if t.rd = t.wr then
        match tryReadMessage t.mode data 0 data.length with
        | .error e => .error e
        | .ok (some (offset, msg)) =>
          if offset + msg.length = data.length then .ok { t with fastpath := some msg } else t.appendToBuffer data
        | .ok none => t.appendToBuffer data
      else t.appendToBuffer data := by
  have hrd := h.rd_le
  have hwr := h.wr_le
  unfold append
  rw [if_neg (by omega), ← ht]
  exact if_congr Iff.rfl rfl (if_neg (by rw [hready.fastpath]; exact Bool.false_ne_true))

/-- What `append` does: it takes the data into the buffer, or the message that it is on the fast path, or throws at the
data. -/
theorem Ready.append_cases (h : s.Ready) (hfits : FitsAfter s.mode s.pending data) :
    (∃ u, s.append data = .ok u ∧ u.Ready ∧ u.pending = s.pending ++ data ∧ u.mode = s.mode) ∨
    (∃ (u : ProtoRingBuffer) (offset : ℕ) (m : List UInt8), s.append data = .ok { u with fastpath := some m } ∧
      u.Ready ∧ u.rd = u.wr ∧ u.mode = s.mode ∧ s.pending = [] ∧
      tryReadMessage s.mode data 0 data.length = .ok (some (offset, m)) ∧ offset + m.length = data.length) ∨
    (∃ e, s.append data = .error e ∧ s.pending = [] ∧ tryReadMessage s.mode data 0 data.length = .error e) := by
  -- Restarting from the beginning of the buffer changes nothing but the cursors.
  obtain ⟨t, ht, hready, hpending, hmode, hempty⟩ : ∃ t : ProtoRingBuffer,
      t = (if s.rd = s.wr then { s with rd := 0, wr := 0 } else s) ∧ t.Ready ∧ t.pending = s.pending ∧
        t.mode = s.mode ∧ (t.rd = t.wr → t.pending = []) := by
    refine ⟨_, rfl, ?_⟩
    have hnil : ∀ r : ProtoRingBuffer, r.rd = r.wr → r.pending = [] := by
      intro r hr
      unfold pending slice
      rw [hr, Nat.sub_self, List.take_zero]
    split_ifs with hrd
    · refine ⟨⟨⟨Nat.le_refl _, Nat.zero_le _, h.steps, h.limit⟩, h.fastpath⟩, ?_, rfl, fun _ => hnil _ rfl⟩
      rw [hnil s hrd, hnil _ rfl]
    · exact ⟨h, rfl, rfl, hnil s⟩
  have happend := h.append_eq ht hready data
  have hbuffer : s.pending.length + data.length ≤ growthLimit → s.append data = t.appendToBuffer data →
      ∃ u, s.append data = .ok u ∧ u.Ready ∧ u.pending = s.pending ++ data ∧ u.mode = s.mode := by
    intro hlimit heq
    obtain ⟨u, hu, hready', hdata, hmode'⟩ := hready.appendToBuffer (hpending ▸ hlimit)
    exact ⟨u, heq.trans hu, hready', hpending ▸ hdata, hmode'.trans hmode⟩
  by_cases hzero : data.length = 0
  · left
    rw [if_pos hzero] at happend
    refine ⟨t, happend, hready, ?_, hmode⟩
    rw [hpending, List.length_eq_zero_iff.mp hzero, List.append_nil]
  rw [if_neg hzero] at happend
  by_cases hrd : t.rd = t.wr
  · rw [if_pos hrd, hmode] at happend
    have hnil : s.pending = [] := hpending.symm.trans (hempty hrd)
    cases htry : tryReadMessage s.mode data 0 data.length with
    | error e =>
      rw [htry] at happend
      exact Or.inr (Or.inr ⟨e, happend, hnil, rfl⟩)
    | ok view =>
      rw [htry] at happend
      -- A frame that is all of the data is on the fast path.
      have hlimit : (∀ offset m, view = some (offset, m) → offset + m.length ≠ data.length) →
          s.pending.length + data.length ≤ growthLimit := by
        intro hne
        rcases hfits with ⟨-, ms, hframe⟩ | hlimit
        · rw [← slice_all data] at hframe
          obtain ⟨m, -, htry', hinside, -⟩ := tryReadMessage_frame (Nat.le_refl data.length) hframe
          rw [htry, Except.ok.injEq] at htry'
          rw [List.length_nil] at hinside htry'
          exact absurd (by omega) (hne _ _ htry')
        · exact hlimit
      cases view with
      | none =>
        left
        exact hbuffer (hlimit fun _ _ h => by cases h) happend
      | some view =>
        obtain ⟨offset, m⟩ := view
        dsimp only at happend
        split_ifs at happend with hall
        · right; left
          exact ⟨t, offset, m, happend.trans (by rw [hmode]), hready, hrd, hmode, hnil, rfl, hall⟩
        · left
          refine hbuffer (hlimit fun _ _ h => ?_) happend
          cases h
          exact hall
  · rw [if_neg hrd] at happend
    left
    refine hbuffer ?_ happend
    rcases hfits with ⟨hnil, -⟩ | hlimit
    · have hlen := hready.length_pending
      rw [hpending, hnil, List.length_nil] at hlen
      have := hready.rd_le
      omega
    · exact hlimit

/-! ### Appending and reading -/

theorem nextFrame_nil (mode : ProtoTokenizationMode) : nextFrame mode [] = .more := by
  cases mode <;> rfl

theorem frames_drain_nil (mode : ProtoTokenizationMode) : (frames mode).drain [] = ([], some []) :=
  (frames mode).drain_more (nextFrame_nil mode)

/-- Data that is no frame throws if it is seen not to be one. -/
theorem tryReadMessage_fail_whole (hnext : nextFrame mode data = .fail ms) :
    (∃ e, tryReadMessage mode data 0 data.length = .error e) ↔ SeesLengths mode data := by
  have hslice := hnext
  rw [← slice_all data] at hslice
  rw [tryReadMessage_fail (Nat.le_refl data.length) hslice, slice_all, seesLengths_of_fail hnext]

/-- A message that is all of the data is its frame, or the length of its header is not seen to be too large. -/
theorem tryReadMessage_whole {offset : ℕ} {m : List UInt8}
    (htry : tryReadMessage mode data 0 data.length = .ok (some (offset, m))) (hall : offset + m.length = data.length) :
    nextFrame mode data = .frame [m] [] ∨ (nextFrame mode data = .fail [] ∧ ¬ SeesLengths mode data) := by
  have hwhole := slice_all data
  cases hnext : nextFrame mode data with
  | more =>
    rw [tryReadMessage_more (Nat.le_refl _) (by rwa [hwhole])] at htry
    cases htry
  | fail ms =>
    obtain ⟨rfl, -⟩ := nextFrame_fail.mp hnext
    refine Or.inr ⟨rfl, fun hsees => ?_⟩
    obtain ⟨e, he⟩ := (tryReadMessage_fail_whole hnext).mpr hsees
    rw [htry] at he
    cases he
  | frame ms rest =>
    left
    rw [← hwhole] at hnext
    obtain ⟨m', rfl, htry', hinside, -⟩ := tryReadMessage_frame (Nat.le_refl data.length) hnext
    rw [htry, Except.ok.injEq, Option.some.injEq, Prod.mk.injEq] at htry'
    obtain ⟨rfl, rfl⟩ := htry'
    have hnil : rest = [] := List.length_eq_zero_iff.mp (by omega)
    rw [hnil]

/-- Data that makes `tryReadMessage` throw is no frame, and is seen not to be one. -/
theorem tryReadMessage_throws {e : String} (htry : tryReadMessage mode data 0 data.length = .error e) :
    nextFrame mode data = .fail [] ∧ SeesLengths mode data := by
  have hwhole := slice_all data
  cases hnext : nextFrame mode data with
  | more =>
    rw [tryReadMessage_more (Nat.le_refl _) (by rwa [hwhole])] at htry
    cases htry
  | fail ms =>
    obtain ⟨rfl, -⟩ := nextFrame_fail.mp hnext
    exact ⟨rfl, (tryReadMessage_fail_whole hnext).mp ⟨e, htry⟩⟩
  | frame ms rest =>
    rw [← hwhole] at hnext
    obtain ⟨m', -, htry', -⟩ := tryReadMessage_frame (Nat.le_refl data.length) hnext
    rw [htry] at htry'
    cases htry'

/-- The message of the fast path, then nothing. -/
theorem Ready.readAll_fastpath {u : ProtoRingBuffer} (h : u.Ready) (hrd : u.rd = u.wr) (m : List UInt8) {n : ℕ}
    (hn : 1 < n) : ProtoRingBuffer.readAll n { u with fastpath := some m } = some ([m], .ok u) := by
  obtain ⟨n, rfl⟩ : ∃ k, n = k + 2 := ⟨n - 2, by omega⟩
  have hu : { u with fastpath := none } = u := by
    rw [← h.fastpath]
  have hnone : u.readMessage = .ok (none, u) := by
    rw [h.readMessage_eq]
    unfold tryReadMessage
    rw [if_neg (Nat.not_lt.mpr h.wr_le), if_pos (Nat.le_of_eq hrd.symm)]
  rw [ProtoRingBuffer.readAll]
  unfold readMessage
  dsimp only
  rw [if_pos hrd, hu]
  dsimp only
  rw [ProtoRingBuffer.readAll, hnone]
  rfl

/-- Where the stream so far has no failure, the messages are its new frames. -/
theorem Ready.appendAndRead (h : s.Ready) (hfits : FitsAfter s.mode s.pending data) {n : ℕ}
    (hn : (s.pending ++ data).length < n) (hrest : ((frames s.mode).drain (s.pending ++ data)).2 = some rest) :
    ∃ s', s.appendAndRead n data = some (((frames s.mode).drain (s.pending ++ data)).1, .ok s') ∧ s'.Ready ∧
      s'.pending = rest ∧ s'.mode = s.mode := by
  unfold ProtoRingBuffer.appendAndRead
  rcases h.append_cases hfits with ⟨u, hu, hready, hpending, hmode⟩ | ⟨u, offset, m, hu, hready, hrd, hmode, hnil, htry,
    hall⟩ | ⟨e, he, hnil, htry⟩
  · rw [hu, ← hpending, ← hmode]
    exact hready.readAll (by rwa [hpending]) (by rwa [hpending, hmode])
  · rw [hnil, List.nil_append] at hn hrest ⊢
    rcases tryReadMessage_whole htry hall with hframe | ⟨hfail, -⟩
    · have hdrain := (frames s.mode).drain_frame hframe
      rw [frames_drain_nil] at hdrain
      rw [hdrain] at hrest ⊢
      have hlong := (frames s.mode).shorter hframe
      rw [List.length_nil] at hlong
      refine ⟨u, ?_, hready, ?_, hmode⟩
      · rw [hu]
        exact hready.readAll_fastpath hrd m (by omega)
      · rw [← Option.some.inj hrest, pending, slice, hrd, Nat.sub_self, List.take_zero]
    · rw [(frames s.mode).drain_fail hfail] at hrest
      cases hrest
  · rw [hnil, List.nil_append, (frames s.mode).drain_fail (tryReadMessage_throws htry).1] at hrest
    cases hrest

/-- Where it has one, the buffer throws after the messages before it, exactly if the failure is seen. -/
theorem Ready.appendAndRead_fail (h : s.Ready) (hfits : FitsAfter s.mode s.pending data) {n : ℕ}
    (hn : (s.pending ++ data).length < n) (hfail : ((frames s.mode).drain (s.pending ++ data)).2 = none) :
    (∃ e, s.appendAndRead n data = some (((frames s.mode).drain (s.pending ++ data)).1, .error e)) ↔
      SeesLengths s.mode (s.pending ++ data) := by
  unfold ProtoRingBuffer.appendAndRead
  rcases h.append_cases hfits with ⟨u, hu, hready, hpending, hmode⟩ | ⟨u, offset, m, hu, hready, hrd, hmode, hnil, htry,
    hall⟩ | ⟨e, he, hnil, htry⟩
  · rw [hu, ← hpending, ← hmode]
    exact hready.readAll_fail (by rwa [hpending]) (by rwa [hpending, hmode])
  · rw [hnil, List.nil_append] at hn hfail ⊢
    rcases tryReadMessage_whole htry hall with hframe | ⟨hnext, hblind⟩
    · rw [(frames s.mode).drain_frame hframe, frames_drain_nil] at hfail
      cases hfail
    · have hlong : 0 < data.length := by
        refine List.length_pos_iff.mpr fun hempty => ?_
        rw [hempty, nextFrame_nil] at hnext
        cases hnext
      refine ⟨?_, fun hsees => absurd hsees hblind⟩
      rintro ⟨e, he⟩
      rw [hu] at he
      dsimp only at he
      rw [hready.readAll_fastpath hrd m (by omega), Option.some.injEq, Prod.mk.injEq] at he
      cases he.2
  · obtain ⟨hnext, hsees⟩ := tryReadMessage_throws htry
    rw [hnil, List.nil_append, (frames s.mode).drain_fail hnext, he]
    exact ⟨fun _ => hsees, fun _ => ⟨e, rfl⟩⟩

end ProtoRingBuffer

end LynxTrace.Ui
