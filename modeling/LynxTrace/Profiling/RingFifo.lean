import LynxTrace.Profiling.RingRecords

/-!
# Profiling.RingFifo — the ring buffer is a FIFO of whole payloads

`RingFifo` is what the users of the ring buffer rely on.  It holds in every state that a run reaches
(`reachable_ringFifo`), until the 64-bit positions wrap: then the write position is below the read position, and the
buffer takes itself for corrupt (`not_ringFifo_wrapped`).
-/

namespace LynxTrace.Profiling

open CyclicMemory

/-- What writers and reader see: positions in order, no corruption, payloads read whole, once and in the order in which
their writes began, none before its write has ended, and no write refused that fits. -/
structure RingFifo (size : ℕ) (s : RingState) : Prop where
  readPos_le : s.readPos ≤ s.writePos
  writePos_le : s.writePos ≤ s.readPos + size
  dvd_readPos : kAlignment ∣ s.readPos
  dvd_writePos : kAlignment ∣ s.writePos
  not_corrupt : isCorrupt size s.pos = false
  received : s.received <+: s.accepted
  ended : ∀ n < s.received.length, s.pending n = none
  reading : ∀ buf, s.reading = some buf → s.pending s.received.length = none ∧
    s.accepted[s.received.length]? = some (load size s.mem buf.data buf.size)
  beginRead : ∀ e, Profiling.beginRead size s.mem s.pos = .error e ↔
    e = .EAGAIN ∧ (s.received.length = s.accepted.length ∨ (s.pending s.received.length).isSome)
  beginRead_loaded : ∀ pos, s.positions = some pos → Profiling.beginRead size s.mem pos ≠ .error .EBADF
  beginWrite : ∀ n < 2 ^ 32, ∀ e, Profiling.beginWrite size s.pos n = .error e ↔
    e = .EAGAIN ∧ size - (s.writePos - s.readPos) < (n + kHeaderSize + 7) / 8 * 8

variable {s : RingState}

theorem RingInv.ringFifo {k : ℕ} (hs : RingInv (2 ^ k) s) : RingFifo (2 ^ k) s where
  readPos_le := hs.readPos_le
  writePos_le := hs.window
  dvd_readPos := hs.dvd_readPos
  dvd_writePos := hs.dvd_writePos
  not_corrupt := hs.isCorrupt_eq
  received := hs.prefix_accepted
  ended := by
    intro n hn
    by_contra h
    obtain ⟨w, hw⟩ := Option.ne_none_iff_exists'.mp h
    have := (hs.pending n w hw).1
    omega
  reading := fun buf hbuf => ⟨(hs.reading buf hbuf).2, hs.load_reading hbuf⟩
  beginRead := by
    intro e
    rw [hs.beginRead_eq rfl (show s.pos.readPos = s.readPos from rfl) hs.prefix_accepted.length_le le_rfl hs.writePos_eq]
    split_ifs with h
    · simp only [Except.error.injEq]
      constructor
      · rintro rfl
        exact ⟨rfl, h.imp_left Eq.symm⟩
      · exact fun h => h.1.symm
    · simp only [false_iff]
      exact fun h' => h (h'.2.imp_left Eq.symm)
  beginRead_loaded := by
    intro pos hpos
    obtain ⟨-, hread, m, hm, hm', hwrite⟩ := hs.positions pos hpos
    rw [hs.beginRead_eq rfl hread hm hm' hwrite]
    split_ifs <;> simp
  beginWrite := by
    intro n hn e
    rw [hs.beginWrite_eq rfl hn, sizeWithHeader_eq hn, show (n + kHeaderSize + 7) / 8 * 8 = (n + 15) / 8 * 8 from rfl]
    split_ifs with h
    · simp only [Except.error.injEq]
      constructor
      · rintro rfl
        exact ⟨rfl, h⟩
      · exact fun h => h.1.symm
    · simp [h]

/-- Writes are only ever added. -/
theorem step_accepted {size : ℕ} {s' : RingState} {st : RingStep} (h : s.step size st = some s') :
    s.accepted <+: s'.accepted := by
  cases st with
  | beginWrite payload =>
    simp only [RingState.step, Option.ite_none_right_eq_some, Option.some.injEq] at h
    obtain ⟨-, rfl⟩ := h
    unfold RingState.beginWrite
    split
    · exact List.prefix_rfl
    · exact List.prefix_rfl
  | advanceWritePos =>
    simp only [RingState.step] at h
    split at h
    · cases h
    · obtain rfl := Option.some.inj h
      exact List.prefix_append _ _
  | storePayload n i =>
    simp only [RingState.step] at h
    split at h
    · cases h
    · obtain ⟨b, -, rfl⟩ := Option.map_eq_some_iff.mp h
      exact List.prefix_rfl
  | endWrite n =>
    simp only [RingState.step] at h
    split at h
    · cases h
    · rw [Option.ite_none_right_eq_some] at h
      obtain rfl := Option.some.inj h.2
      exact List.prefix_rfl
  | loadPositions =>
    simp only [RingState.step, Option.ite_none_right_eq_some, Option.some.injEq] at h
    obtain ⟨-, rfl⟩ := h
    exact List.prefix_rfl
  | beginRead | endRead =>
    simp only [RingState.step] at h
    split at h
    · cases h
    · obtain rfl := Option.some.inj h
      exact List.prefix_rfl

theorem totalSize_le {ps qs : List (List UInt8)} (h : ps <+: qs) : totalSize ps ≤ totalSize qs := by
  obtain ⟨rest, rfl⟩ := h
  rw [totalSize_append]
  exact Nat.le_add_right _ _

theorem RingReachable.ringInv {k : ℕ} (h : RingReachable (2 ^ k) s) (htotal : totalSize s.accepted < 2 ^ 64) :
    RingInv (2 ^ k) s := by
  induction h with
  | init mem => exact RingInv.init mem
  | step st _ hst ih => exact (ih ((totalSize_le (step_accepted hst)).trans_lt htotal)).step rfl hst htotal

/-- For every power of two as the size, in every state of every run whose records take less than `2 ^ 64` bytes. -/
theorem reachable_ringFifo {k : ℕ} {s : RingState} (h : RingReachable (2 ^ k) s)
    (htotal : totalSize s.accepted < 2 ^ 64) : RingFifo (2 ^ k) s :=
  (h.ringInv htotal).ringFifo

/-- A run in a ring of 4096 bytes, in which three bytes are written and read. -/
theorem reachable_ringFifo_beginWrite : ∃ s, RingReachable (2 ^ 12) s ∧ s.accepted = [[1, 2, 3]] ∧
    s.received = [[1, 2, 3]] ∧ RingFifo (2 ^ 12) s := by
  have h : RingReachable (2 ^ 12) (.init fun _ => 0) := .init _
  have hbegun := (h.step (.beginWrite [1, 2, 3]) rfl).step .advanceWritePos rfl
  have hstored := ((hbegun.step (.storePayload 0 2) rfl).step (.storePayload 0 0) rfl).step (.storePayload 0 1) rfl
  have hwritten := hstored.step (.endWrite 0) rfl
  have hread := ((hwritten.step .loadPositions rfl).step .beginRead rfl).step .endRead rfl
  exact ⟨_, hread, rfl, by decide, reachable_ringFifo hread (by decide)⟩

/-! ### When the positions wrap -/

/-- No write and no read is under way, and all has been read. -/
structure RingQuiet (s : RingState) : Prop where
  locked : s.locked = none
  reading : s.reading = none
  pending : ∀ n, s.pending n = none
  received : s.received = s.accepted

theorem totalSize_byte (b : UInt8) : totalSize [[b]] = 16 := by
  simp [totalSize, sizeWithHeader, alignUp, kHeaderSize, kAlignment]

/-- `BeginWrite` for one byte, when the ring is empty. -/
theorem RingQuiet.beginWrite (hs : RingInv (2 ^ 12) s) (hq : RingQuiet s) :
    s.beginWrite (2 ^ 12) [0] = { s with
      mem := storeU32 (2 ^ 12) s.mem (s.writePos % 2 ^ 12) 0
      locked := some (⟨s.writePos % 2 ^ 12 + kHeaderSize, 1, 2 ^ 12⟩, [0]) } := by
  have hpos : s.writePos - s.readPos = 0 := by
    rw [hs.writePos_eq, hs.readPos_eq, hq.received, Nat.sub_self]
  unfold RingState.beginWrite
  rw [show Profiling.beginWrite (2 ^ 12) s.pos [(0 : UInt8)].length = .ok ⟨s.writePos % 2 ^ 12 + kHeaderSize, 1, 2 ^ 12⟩ from ?_]
  · rfl
  · rw [hs.beginWrite_eq rfl (by decide), hpos, if_neg (by decide)]
    rfl

/-- The rest of a write of one byte. -/
theorem RingReachable.finishWrite (h : RingReachable (2 ^ 12) s) {buf : Buffer} (hl : s.locked = some (buf, [0]))
    (hp : ∀ n, s.pending n = none) : ∃ s', RingReachable (2 ^ 12) s' ∧
      s'.locked = none ∧ s'.reading = s.reading ∧ (∀ n, s'.pending n = none) ∧ s'.received = s.received ∧
      s'.accepted = s.accepted ++ [[0]] := by
  let w : PendingWrite := ⟨buf, [0], []⟩
  have h1 := h.step .advanceWritePos (show _ = some (s.advanceWritePos buf [0]) by simp [RingState.step, hl])
  have h2 := h1.step (.storePayload s.accepted.length 0)
    (show _ = some ((s.advanceWritePos buf [0]).storePayload (2 ^ 12) s.accepted.length w 0 0) by
      simp [RingState.step, RingState.advanceWritePos, w])
  have h3 := h2.step (.endWrite s.accepted.length)
    (show _ = some (((s.advanceWritePos buf [0]).storePayload (2 ^ 12) s.accepted.length w 0 0).endWrite (2 ^ 12)
        s.accepted.length { w with stored := [0] }) by
      simp [RingState.step, RingState.storePayload, w])
  refine ⟨_, h3, rfl, rfl, ?_, rfl, rfl⟩
  intro n
  simp only [RingState.endWrite, RingState.storePayload, RingState.advanceWritePos, Function.update_apply, hp]
  split_ifs <;> rfl

/-- The read of a record whose write has ended. -/
theorem RingReachable.readRecord (h : RingReachable (2 ^ 12) s) (htotal : totalSize s.accepted < 2 ^ 64)
    (hr : s.reading = none) (hp : ∀ n, s.pending n = none) (hlt : s.received.length < s.accepted.length) :
    ∃ s', RingReachable (2 ^ 12) s' ∧ s'.locked = s.locked ∧
      s'.reading = none ∧ s'.pending = s.pending ∧ s'.received.length = s.received.length + 1 ∧
      s'.accepted = s.accepted := by
  have hs := h.ringInv htotal
  obtain ⟨buf, hbuf⟩ : ∃ buf, Profiling.beginRead (2 ^ 12) s.mem s.pos = .ok buf := by
    rw [hs.beginRead_eq rfl (show s.pos.readPos = s.readPos from rfl) hs.prefix_accepted.length_le le_rfl
      hs.writePos_eq, if_neg]
    · exact ⟨_, rfl⟩
    · rw [hp]
      rintro (h1 | h1)
      · omega
      · cases h1
  have h1 := h.step .loadPositions (show _ = some { s with positions := some s.pos } by simp [RingState.step, hr])
  have h2 := h1.step .beginRead (show _ = some { s with reading := some buf, positions := none } by
    unfold RingState.step
    dsimp only
    rw [hbuf]
    rfl)
  have h3 := h2.step .endRead
    (show _ = some ({ s with reading := some buf, positions := none }.endRead (2 ^ 12) buf) from rfl)
  exact ⟨_, h3, rfl, rfl, rfl, List.length_append, rfl⟩

/-- A run through one write of one byte and its read. -/
theorem RingReachable.writeAndRead (h : RingReachable (2 ^ 12) s) (hq : RingQuiet s)
    (htotal : totalSize s.accepted + 16 < 2 ^ 64) : ∃ s', RingReachable (2 ^ 12) s' ∧ RingQuiet s' ∧
      totalSize s'.accepted = totalSize s.accepted + 16 := by
  have hs := h.ringInv (by omega)
  have h1 := h.step (.beginWrite [0]) (show _ = some (s.beginWrite (2 ^ 12) [0]) by simp [RingState.step, hq.locked])
  rw [hq.beginWrite hs] at h1
  obtain ⟨s2, h2, hl2, hr2, hp2, hrec2, hacc2⟩ := h1.finishWrite rfl hq.pending
  have htotal2 : totalSize s2.accepted = totalSize s.accepted + 16 := by
    rw [hacc2, totalSize_append, totalSize_byte]
  obtain ⟨s3, h3, hl3, hr3, hp3, hrec3, hacc3⟩ := h2.readRecord (by omega) (hr2.trans hq.reading) hp2
    (by rw [hacc2, hrec2, List.length_append, ← hq.received, List.length_singleton]; exact Nat.lt_succ_self _)
  have hs3 := h3.ringInv (by rw [hacc3]; omega)
  refine ⟨s3, h3, ⟨hl3.trans hl2, hr3, fun n => by rw [hp3, hp2], ?_⟩, by rw [hacc3, htotal2]⟩
  apply hs3.prefix_accepted.eq_of_length
  rw [hrec3, hacc3, hrec2, hacc2, List.length_append, ← hq.received, List.length_singleton]

theorem exists_ringQuiet (n : ℕ) (hn : 16 * n < 2 ^ 64) :
    ∃ s, RingReachable (2 ^ 12) s ∧ RingQuiet s ∧ totalSize s.accepted = 16 * n := by
  induction n with
  | zero => exact ⟨_, .init fun _ => 0, ⟨rfl, rfl, fun _ => rfl, rfl⟩, rfl⟩
  | succ n ih =>
    obtain ⟨s, h, hq, htotal⟩ := ih (by omega)
    obtain ⟨s', h', hq', htotal'⟩ := h.writeAndRead hq (by omega)
    exact ⟨s', h', hq', by omega⟩

/-- After `2 ^ 64` bytes the write position wraps to 0, below the read position. -/
theorem not_ringFifo_wrapped : ¬ ∀ k s, RingReachable (2 ^ k) s → RingFifo (2 ^ k) s := by
  intro hall
  obtain ⟨s, h, hq, htotal⟩ := exists_ringQuiet (2 ^ 60 - 1) (by decide)
  have hs := h.ringInv (by omega)
  have h1 := h.step (.beginWrite [0]) (show _ = some (s.beginWrite (2 ^ 12) [0]) by simp [RingState.step, hq.locked])
  rw [hq.beginWrite hs] at h1
  have h2 := (hall 12 _ (h1.step .advanceWritePos rfl)).readPos_le
  have hw : s.writePos = 2 ^ 64 - 16 := by
    rw [hs.writePos_eq, startPos_length, htotal]
    decide
  have hr : s.readPos = 2 ^ 64 - 16 := by
    rw [hs.readPos_eq, hq.received, startPos_length, htotal]
    decide
  change s.readPos ≤ (s.writePos + sizeWithHeader 1) % 2 ^ 64 at h2
  rw [hw, hr, sizeWithHeader_eq (by decide)] at h2
  revert h2
  decide

end LynxTrace.Profiling
