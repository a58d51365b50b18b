import LynxTrace.Profiling.SharedRingBuffer

/-!
# Profiling.RingRecords — where the records of a ring buffer lie

`startPos accepted n` is the position at which the `n`-th write begins: the records follow each other without gaps.
`RingInv` says what the memory holds of the records that have not been read yet.  It is the invariant of a run, as long
as the positions do not wrap.
-/

namespace LynxTrace.Profiling

open CyclicMemory

/-! ### Sizes and positions -/

theorem alignUp_eq {n : ℕ} (h : n + 7 < 2 ^ 64) : alignUp n = (n + 7) / 8 * 8 := by
  unfold alignUp kAlignment
  rw [show n + 8 - 1 = n + 7 by omega, Nat.mod_eq_of_lt h]

theorem sizeWithHeader_eq {n : ℕ} (h : n < 2 ^ 32) : sizeWithHeader n = (n + 15) / 8 * 8 := by
  unfold sizeWithHeader kHeaderSize kAlignment
  rw [alignUp_eq (by omega)]

theorem dvd_sizeWithHeader (n : ℕ) : 8 ∣ sizeWithHeader n := Nat.dvd_mul_left _ _

theorem add_le_sizeWithHeader {n : ℕ} (h : n < 2 ^ 32) : n + 8 ≤ sizeWithHeader n := by
  rw [sizeWithHeader_eq h]
  omega

/-- The bytes that these writes take in the ring. -/
def totalSize (payloads : List (List UInt8)) : ℕ := (payloads.map fun p => sizeWithHeader p.length).sum

/-- The position of the write of this number. -/
def startPos (accepted : List (List UInt8)) (n : ℕ) : ℕ := totalSize (accepted.take n)

section startPos

variable {accepted : List (List UInt8)} {n m : ℕ} {p : List UInt8}

theorem totalSize_append (ps qs : List (List UInt8)) : totalSize (ps ++ qs) = totalSize ps + totalSize qs := by
  simp [totalSize]

theorem startPos_length (accepted : List (List UInt8)) : startPos accepted accepted.length = totalSize accepted := by
  rw [startPos, List.take_length]

theorem startPos_succ (h : accepted[n]? = some p) :
    startPos accepted (n + 1) = startPos accepted n + sizeWithHeader p.length := by
  rw [startPos, List.take_add_one, h, totalSize_append]
  simp [totalSize, startPos]

theorem startPos_le (h : n ≤ m) : startPos accepted n ≤ startPos accepted m := by
  have h1 : accepted.take m = accepted.take n ++ (accepted.drop n).take (m - n) := by
    rw [← List.take_add, Nat.add_sub_cancel' h]
  rw [startPos, startPos, h1, totalSize_append]
  exact Nat.le_add_right _ _

/-- A record ends before the next one begins. -/
theorem startPos_add_le (h : accepted[n]? = some p) (hnm : n < m) :
    startPos accepted n + sizeWithHeader p.length ≤ startPos accepted m := by
  rw [← startPos_succ h]
  exact startPos_le hnm

/-- Two records do not overlap. -/
theorem startPos_apart {q : List UInt8} (hp : accepted[n]? = some p) (hq : accepted[m]? = some q) (hne : n ≠ m) :
    startPos accepted n + sizeWithHeader p.length ≤ startPos accepted m ∨
      startPos accepted m + sizeWithHeader q.length ≤ startPos accepted n := by
  rcases Nat.lt_or_gt_of_ne hne with h | h
  · exact Or.inl (startPos_add_le hp h)
  · exact Or.inr (startPos_add_le hq h)

theorem startPos_append (h : n ≤ accepted.length) (ps : List (List UInt8)) :
    startPos (accepted ++ ps) n = startPos accepted n := by
  rw [startPos, List.take_append_of_le_length h, startPos]

theorem dvd_startPos (accepted : List (List UInt8)) (n : ℕ) : 8 ∣ startPos accepted n := by
  unfold startPos totalSize
  apply List.dvd_sum
  intro x hx
  obtain ⟨p, -, rfl⟩ := List.mem_map.mp hx
  exact dvd_sizeWithHeader _

end startPos

variable {k : ℕ}

theorem atPos_eq (pos : ℕ) : atPos (2 ^ k) pos = pos % 2 ^ k := Nat.and_two_pow_sub_one_eq_mod pos k

variable {pos : PointerPositions}

theorem isCorrupt_eq_false {size : ℕ} : isCorrupt size pos = false ↔
    pos.readPos ≤ pos.writePos ∧ pos.writePos - pos.readPos ≤ size ∧ pos.writePos % 8 = 0 ∧ pos.readPos % 8 = 0 := by
  simp [isCorrupt, kAlignment, and_assoc]

/-! ### The invariant -/

/-- The buffer of the write of this number. -/
def IsBufferOf (size : ℕ) (accepted : List (List UInt8)) (n : ℕ) (buf : Buffer) : Prop :=
  buf.data = startPos accepted n % size + kHeaderSize ∧ (accepted[n]?).map List.length = some buf.size

structure RingInv (size : ℕ) (s : RingState) : Prop where
  prefix_accepted : s.received <+: s.accepted
  length_lt : ∀ p ∈ s.accepted, 0 < p.length ∧ p.length < 2 ^ 32
  readPos_eq : s.readPos = startPos s.accepted s.received.length
  writePos_eq : s.writePos = startPos s.accepted s.accepted.length
  window : s.writePos ≤ s.readPos + size
  pending : ∀ n w, s.pending n = some w → s.received.length ≤ n ∧ IsBufferOf size s.accepted n w.buf ∧
    s.accepted[n]? = some w.payload
  header : ∀ n p, s.received.length ≤ n → s.accepted[n]? = some p →
    loadU32 size s.mem (startPos s.accepted n) = if (s.pending n).isSome then 0 else p.length
  body : ∀ n p i b, s.received.length ≤ n → s.accepted[n]? = some p → p[i]? = some b →
    (∀ w, s.pending n = some w → i ∈ w.stored) → s.mem ((startPos s.accepted n + kHeaderSize + i) % size) = b
  reading : ∀ buf, s.reading = some buf → IsBufferOf size s.accepted s.received.length buf ∧
    s.pending s.received.length = none
  locked : ∀ buf payload, s.locked = some (buf, payload) → 0 < payload.length ∧ payload.length < 2 ^ 32 ∧
    s.writePos + sizeWithHeader payload.length ≤ s.readPos + size ∧ buf.data = s.writePos % size + kHeaderSize ∧
    buf.size = payload.length ∧ loadU32 size s.mem s.writePos = 0
  positions : ∀ pos, s.positions = some pos → s.reading = none ∧ pos.readPos = s.readPos ∧
    ∃ m, s.received.length ≤ m ∧ m ≤ s.accepted.length ∧ pos.writePos = startPos s.accepted m

namespace RingInv

variable {size : ℕ} {s : RingState} (hs : RingInv size s)

theorem init (mem : Memory) : RingInv size (.init mem) := by
  constructor <;> simp [RingState.init, startPos, totalSize]

include hs

theorem dvd_readPos : 8 ∣ s.readPos := by
  rw [hs.readPos_eq]
  exact dvd_startPos _ _

theorem dvd_writePos : 8 ∣ s.writePos := by
  rw [hs.writePos_eq]
  exact dvd_startPos _ _

theorem readPos_le : s.readPos ≤ s.writePos := by
  rw [hs.readPos_eq, hs.writePos_eq]
  exact startPos_le hs.prefix_accepted.length_le

/-- An unread record lies between the positions. -/
theorem record_le {n : ℕ} {p : List UInt8} (hn : s.received.length ≤ n) (hp : s.accepted[n]? = some p) :
    s.readPos ≤ startPos s.accepted n ∧ startPos s.accepted n + sizeWithHeader p.length ≤ s.writePos ∧
      p.length + kHeaderSize ≤ sizeWithHeader p.length := by
  have hlt : n < s.accepted.length := (List.getElem?_eq_some_iff.mp hp).1
  have hlen := hs.length_lt p (List.mem_of_getElem? hp)
  rw [hs.readPos_eq, hs.writePos_eq]
  exact ⟨startPos_le hn, startPos_add_le hp hlt, add_le_sizeWithHeader hlen.2⟩

/-- A store inside the window that stays off the header of an unread record. -/
theorem loadU32_store {q n : ℕ} {p bs : List UInt8} (hn : s.received.length ≤ n) (hp : s.accepted[n]? = some p)
    (hq : s.readPos ≤ q) (hq' : q + bs.length ≤ s.readPos + size)
    (h : q + bs.length ≤ startPos s.accepted n ∨ startPos s.accepted n + 4 ≤ q) :
    loadU32 size (store size s.mem q bs) (startPos s.accepted n) = loadU32 size s.mem (startPos s.accepted n) := by
  obtain ⟨h1, h2, h3⟩ := hs.record_le hn hp
  have h4 := hs.window
  unfold kHeaderSize kAlignment at h3
  exact loadU32_store_of_apart s.readPos hq hq' h1 (by omega) h

/-- A store inside the window that stays off a byte of the payload of an unread record. -/
theorem body_store {q n i : ℕ} {p bs : List UInt8} (hn : s.received.length ≤ n) (hp : s.accepted[n]? = some p)
    (hi : i < p.length) (hq : s.readPos ≤ q) (hq' : q + bs.length ≤ s.readPos + size)
    (h : startPos s.accepted n + kHeaderSize + i < q ∨ q + bs.length ≤ startPos s.accepted n + kHeaderSize + i) :
    store size s.mem q bs ((startPos s.accepted n + kHeaderSize + i) % size) =
      s.mem ((startPos s.accepted n + kHeaderSize + i) % size) := by
  obtain ⟨h1, h2, h3⟩ := hs.record_le hn hp
  have h4 := hs.window
  exact byte_store_of_apart s.readPos hq hq' (by omega) (by omega) h

theorem isCorrupt_eq : isCorrupt size s.pos = false := by
  have h1 := hs.readPos_le
  have h2 := hs.window
  refine isCorrupt_eq_false.mpr ⟨h1, ?_, Nat.mod_eq_zero_of_dvd hs.dvd_writePos, Nat.mod_eq_zero_of_dvd hs.dvd_readPos⟩
  show s.writePos - s.readPos ≤ size
  omega

/-- `BeginWrite` gives no buffer exactly when the record does not fit in the free space. -/
theorem beginWrite_eq (hk : size = 2 ^ k) {n : ℕ} (hn : n < 2 ^ 32) :
    Profiling.beginWrite size s.pos n = if size - (s.writePos - s.readPos) < sizeWithHeader n then .error .EAGAIN
      else .ok ⟨s.writePos % size + kHeaderSize, n, size - (s.writePos - s.readPos)⟩ := by
  have h1 := add_le_sizeWithHeader hn
  unfold Profiling.beginWrite getPointerPositions
  rw [if_neg (by rw [hs.isCorrupt_eq]; decide)]
  dsimp only
  rw [if_neg (by omega), hk, atPos_eq]
  rfl

end RingInv

/-! ### Steps -/

section steps

variable {size : ℕ} {s : RingState}

section

variable (hs : RingInv size s)

include hs

theorem RingInv.beginWrite (hk : size = 2 ^ k) {payload : List UInt8} (hpos : 0 < payload.length)
    (hlt : payload.length < 2 ^ 32) : RingInv size (s.beginWrite size payload) := by
  unfold RingState.beginWrite
  rw [hs.beginWrite_eq hk hlt]
  split_ifs with hfull
  · exact hs
  have hle := hs.readPos_le
  have hwin := hs.window
  have hadd := add_le_sizeWithHeader hlt
  have hmem : storeU32 size s.mem (s.writePos % size + kHeaderSize - kHeaderSize) 0 =
      store size s.mem s.writePos (Wire.leBytes 4 0) := by
    rw [Nat.add_sub_cancel, storeU32, store_mod]
  dsimp only
  rw [hmem]
  constructor
  · exact hs.prefix_accepted
  · exact hs.length_lt
  · exact hs.readPos_eq
  · exact hs.writePos_eq
  · exact hs.window
  · exact hs.pending
  · intro n p hn hp
    rw [← hs.header n p hn hp]
    obtain ⟨h1, h2, h3⟩ := hs.record_le hn hp
    unfold kHeaderSize kAlignment at h3
    exact hs.loadU32_store hn hp hle (by rw [Wire.length_leBytes]; omega) (Or.inr (by omega))
  · intro n p i b hn hp hb hst
    have hi : i < p.length := (List.getElem?_eq_some_iff.mp hb).1
    obtain ⟨h1, h2, h3⟩ := hs.record_le hn hp
    refine (hs.body_store hn hp hi hle (by rw [Wire.length_leBytes]; omega) (Or.inl ?_)).trans
      (hs.body n p i b hn hp hb hst)
    show startPos s.accepted n + kHeaderSize + i < s.writePos
    omega
  · exact hs.reading
  · intro buf payload' h
    simp only [Option.some.injEq, Prod.mk.injEq] at h
    obtain ⟨rfl, rfl⟩ := h
    refine ⟨hpos, hlt, ?_, rfl, rfl, ?_⟩
    · show s.writePos + sizeWithHeader payload.length ≤ s.readPos + size
      omega
    exact loadU32_storeU32_self (by decide) (by omega)
  · exact hs.positions

theorem RingInv.advanceWritePos {buf : Buffer} {payload : List UInt8} (hl : s.locked = some (buf, payload))
    (htotal : totalSize (s.accepted ++ [payload]) < 2 ^ 64) : RingInv size (s.advanceWritePos buf payload) := by
  obtain ⟨hpos, hlt, hfit, hdata, hsize, hheader⟩ := hs.locked buf payload hl
  have hlen := hs.prefix_accepted.length_le
  have hnew : (s.accepted ++ [payload])[s.accepted.length]? = some payload := List.getElem?_concat_length
  have hw : (s.writePos + sizeWithHeader buf.size) % 2 ^ 64 =
      startPos (s.accepted ++ [payload]) (s.accepted ++ [payload]).length := by
    rw [startPos_length, totalSize_append, hs.writePos_eq, startPos_length, hsize, Nat.mod_eq_of_lt]
    · simp [totalSize]
    · rw [totalSize_append] at htotal
      simpa [totalSize] using htotal
  have hw' : (s.writePos + sizeWithHeader buf.size) % 2 ^ 64 = s.writePos + sizeWithHeader payload.length := by
    rw [hw, List.length_append, List.length_singleton, startPos_succ hnew, startPos_append le_rfl, hs.writePos_eq]
  have hold : ∀ {n : ℕ} {p : List UInt8}, (s.accepted ++ [payload])[n]? = some p →
      (s.accepted[n]? = some p ∧ n < s.accepted.length) ∨ (n = s.accepted.length ∧ p = payload) := by
    intro n p hp
    rcases Nat.lt_trichotomy n s.accepted.length with h | rfl | h
    · rw [List.getElem?_append_left h] at hp
      exact Or.inl ⟨hp, h⟩
    · rw [hnew] at hp
      exact Or.inr ⟨rfl, (Option.some.inj hp).symm⟩
    · rw [List.getElem?_eq_none (by simpa using h)] at hp
      cases hp
  constructor
  · exact hs.prefix_accepted.trans (List.prefix_append _ _)
  · intro p hp
    rcases List.mem_append.mp hp with h | h
    · exact hs.length_lt p h
    · obtain rfl := List.mem_singleton.mp h
      exact ⟨hpos, hlt⟩
  · show s.readPos = startPos (s.accepted ++ [payload]) s.received.length
    rw [startPos_append hlen, hs.readPos_eq]
  · exact hw
  · show (s.writePos + sizeWithHeader buf.size) % 2 ^ 64 ≤ s.readPos + size
    omega
  · intro n w hn
    simp only [RingState.advanceWritePos, Function.update_apply] at hn ⊢
    split_ifs at hn with h
    · subst h
      obtain rfl := (Option.some.inj hn).symm
      refine ⟨hlen, ⟨?_, ?_⟩, hnew⟩
      · rw [startPos_append le_rfl, ← hs.writePos_eq, hdata]
      · rw [hnew, Option.map_some, hsize]
    · obtain ⟨h1, ⟨h2, h3⟩, h4⟩ := hs.pending n w hn
      have h5 : n < s.accepted.length := (List.getElem?_eq_some_iff.mp h4).1
      refine ⟨h1, ⟨?_, ?_⟩, ?_⟩
      · rw [startPos_append h5.le, h2]
      · rw [List.getElem?_append_left h5, h3]
      · rw [List.getElem?_append_left h5, h4]
  · intro n p hn hp
    rcases hold hp with ⟨h1, h2⟩ | ⟨rfl, rfl⟩
    · simp only [RingState.advanceWritePos, Function.update_of_ne h2.ne, startPos_append h2.le]
      exact hs.header n p hn h1
    · simp only [RingState.advanceWritePos, Function.update_self, startPos_append le_rfl, ← hs.writePos_eq]
      exact hheader
  · intro n p i b hn hp hb hst
    rcases hold hp with ⟨h1, h2⟩ | ⟨rfl, rfl⟩
    · simp only [RingState.advanceWritePos, Function.update_of_ne h2.ne, startPos_append h2.le] at hst ⊢
      exact hs.body n p i b hn h1 hb hst
    · have h1 := hst _ (Function.update_self _ _ _)
      cases h1
  · intro b hb
    obtain ⟨⟨h1, h2⟩, h3⟩ := hs.reading b hb
    have h5 : s.received.length < s.accepted.length := by
      by_contra h
      rw [List.getElem?_eq_none (by omega)] at h2
      cases h2
    simp only [RingState.advanceWritePos, Function.update_of_ne h5.ne]
    refine ⟨⟨?_, ?_⟩, h3⟩
    · rw [startPos_append h5.le, h1]
    · rw [List.getElem?_append_left h5, h2]
  · intro b q h
    cases h
  · intro pos hp
    obtain ⟨h1, h2, m, h3, h4, h5⟩ := hs.positions pos hp
    refine ⟨h1, h2, m, h3, ?_, ?_⟩
    · show m ≤ (s.accepted ++ [payload]).length
      rw [List.length_append]
      omega
    · show _ = startPos (s.accepted ++ [payload]) m
      rw [startPos_append h4, h5]

theorem RingInv.storePayload {n i : ℕ} {w : PendingWrite} {b : UInt8} (hw : s.pending n = some w)
    (hb : w.payload[i]? = some b) : RingInv size (s.storePayload size n w i b) := by
  obtain ⟨hn, ⟨hdata, -⟩, hacc⟩ := hs.pending n w hw
  obtain ⟨h1, h2, h3⟩ := hs.record_le hn hacc
  have hi : i < w.payload.length := (List.getElem?_eq_some_iff.mp hb).1
  have hwin := hs.window
  have hmem : store size s.mem (w.buf.data + i) [b] = store size s.mem (startPos s.accepted n + kHeaderSize + i) [b] := by
    rw [hdata, add_assoc, store_mod_add, ← add_assoc]
  have h8 : kHeaderSize = 8 := rfl
  unfold RingState.storePayload
  rw [hmem]
  constructor
  · exact hs.prefix_accepted
  · exact hs.length_lt
  · exact hs.readPos_eq
  · exact hs.writePos_eq
  · exact hs.window
  · intro m v hv
    simp only [Function.update_apply] at hv
    split_ifs at hv with h
    · subst h
      obtain rfl := (Option.some.inj hv).symm
      exact hs.pending m w hw
    · exact hs.pending m v hv
  · rintro m q (hm : s.received.length ≤ m) (hq : s.accepted[m]? = some q)
    have hheader := hs.header m q hm hq
    have hsome : (Function.update s.pending n (some { w with stored := i :: w.stored }) m).isSome =
        (s.pending m).isSome := by
      rw [Function.update_apply]
      split_ifs with h
      · rw [h, hw]
        rfl
      · rfl
    show loadU32 size (store size s.mem _ [b]) (startPos s.accepted m) = _
    rw [hs.loadU32_store hm hq (by omega) (by rw [List.length_singleton]; omega), hheader]
    · simp only [hsome]
    · rw [List.length_singleton]
      by_cases h : m = n
      · subst h
        omega
      · have h4 := startPos_apart hq hacc h
        have h5 := (hs.record_le hm hq).2.2
        omega
  · rintro m q j c (hm : s.received.length ≤ m) (hq : s.accepted[m]? = some q) hc hst
    have hj : j < q.length := (List.getElem?_eq_some_iff.mp hc).1
    show store size s.mem _ [b] ((startPos s.accepted m + kHeaderSize + j) % size) = c
    by_cases h : m = n
    · subst h
      obtain rfl := Option.some.inj (hq.symm.trans hacc)
      by_cases hij : j = i
      · subst hij
        obtain rfl := Option.some.inj (hc.symm.trans hb)
        exact Function.update_self _ _ _
      · rw [hs.body_store hm hq hj (by omega) (by rw [List.length_singleton]; omega)
          (by rw [List.length_singleton]; omega)]
        apply hs.body m _ j c hm hq hc
        intro v hv
        obtain rfl := Option.some.inj (hv.symm.trans hw)
        have := hst _ (Function.update_self _ _ _)
        exact (List.mem_cons.mp this).resolve_left hij
    · have h4 := startPos_apart hq hacc h
      have h5 := (hs.record_le hm hq).2.2
      rw [hs.body_store hm hq hj (by omega) (by rw [List.length_singleton]; omega)
        (by rw [List.length_singleton]; omega)]
      apply hs.body m q j c hm hq hc
      intro v hv
      exact hst v (by simpa only [Function.update_of_ne h] using hv)
  · intro buf hbuf
    obtain ⟨h4, h5⟩ := hs.reading buf hbuf
    refine ⟨h4, ?_⟩
    have hne : s.received.length ≠ n := by
      rintro rfl
      rw [hw] at h5
      cases h5
    simpa only [Function.update_of_ne hne] using h5
  · intro buf payload hl
    obtain ⟨h4, h5, h6, h7, h9, h10⟩ := hs.locked buf payload hl
    have h11 := add_le_sizeWithHeader h5
    refine ⟨h4, h5, h6, h7, h9, ?_⟩
    show loadU32 size (store size s.mem _ [b]) s.writePos = 0
    rw [loadU32_store_of_apart s.readPos (by omega) (by rw [List.length_singleton]; omega) hs.readPos_le (by omega)
      (by rw [List.length_singleton]; omega), h10]
  · exact hs.positions

theorem RingInv.endWrite {n : ℕ} {w : PendingWrite} (hw : s.pending n = some w)
    (hstored : ∀ i < w.payload.length, i ∈ w.stored) : RingInv size (s.endWrite size n w) := by
  obtain ⟨hn, ⟨hdata, hsize⟩, hacc⟩ := hs.pending n w hw
  obtain ⟨h1, h2, h3⟩ := hs.record_le hn hacc
  have hlen := hs.length_lt _ (List.mem_of_getElem? hacc)
  have hwin := hs.window
  have h8 : kHeaderSize = 8 := rfl
  rw [hacc, Option.map_some, Option.some.injEq] at hsize
  have hmem : storeU32 size s.mem (w.buf.data - kHeaderSize) (w.buf.size % 2 ^ 32) =
      store size s.mem (startPos s.accepted n) (Wire.leBytes 4 w.payload.length) := by
    rw [hdata, Nat.add_sub_cancel, storeU32, store_mod, ← hsize, Nat.mod_eq_of_lt hlen.2]
  have hbs : (Wire.leBytes 4 w.payload.length).length = 4 := Wire.length_leBytes 4 _
  unfold RingState.endWrite
  rw [hmem]
  constructor
  · exact hs.prefix_accepted
  · exact hs.length_lt
  · exact hs.readPos_eq
  · exact hs.writePos_eq
  · exact hs.window
  · intro m v hv
    simp only [Function.update_apply] at hv
    split_ifs at hv with h
    exact hs.pending m v hv
  · rintro m q (hm : s.received.length ≤ m) (hq : s.accepted[m]? = some q)
    show loadU32 size (store size s.mem _ _) (startPos s.accepted m) =
      if (Function.update s.pending n none m).isSome then 0 else q.length
    by_cases h : m = n
    · subst h
      obtain rfl := Option.some.inj (hq.symm.trans hacc)
      rw [Function.update_self]
      exact loadU32_storeU32_self hlen.2 (by omega)
    · have h4 := startPos_apart hq hacc h
      have h5 := (hs.record_le hm hq).2.2
      rw [hs.loadU32_store hm hq (by omega) (by omega) (by omega), hs.header m q hm hq, Function.update_of_ne h]
  · rintro m q j c (hm : s.received.length ≤ m) (hq : s.accepted[m]? = some q) hc hst
    have hj : j < q.length := (List.getElem?_eq_some_iff.mp hc).1
    show store size s.mem _ _ ((startPos s.accepted m + kHeaderSize + j) % size) = c
    by_cases h : m = n
    · subst h
      obtain rfl := Option.some.inj (hq.symm.trans hacc)
      rw [hs.body_store hm hq hj (by omega) (by omega) (by omega)]
      apply hs.body m _ j c hm hq hc
      intro v hv
      obtain rfl := Option.some.inj (hv.symm.trans hw)
      exact hstored j hj
    · have h4 := startPos_apart hq hacc h
      have h5 := (hs.record_le hm hq).2.2
      rw [hs.body_store hm hq hj (by omega) (by omega) (by omega)]
      apply hs.body m q j c hm hq hc
      intro v hv
      exact hst v (by simpa only [Function.update_of_ne h] using hv)
  · intro buf hbuf
    obtain ⟨h4, h5⟩ := hs.reading buf hbuf
    refine ⟨h4, ?_⟩
    show Function.update s.pending n none s.received.length = none
    rw [Function.update_apply]
    split_ifs
    · rfl
    · exact h5
  · intro buf payload hl
    obtain ⟨h4, h5, h6, h7, h9, h10⟩ := hs.locked buf payload hl
    have h11 := add_le_sizeWithHeader h5
    refine ⟨h4, h5, h6, h7, h9, ?_⟩
    show loadU32 size (store size s.mem _ _) s.writePos = 0
    rw [loadU32_store_of_apart s.readPos (by omega) (by omega) hs.readPos_le (by omega) (by omega), h10]
  · exact hs.positions

theorem RingInv.loadPositions (hr : s.reading = none) : RingInv size { s with positions := some s.pos } := by
  refine ⟨hs.prefix_accepted, hs.length_lt, hs.readPos_eq, hs.writePos_eq, hs.window, hs.pending, hs.header, hs.body,
    hs.reading, hs.locked, ?_⟩
  intro pos hp
  obtain rfl := (Option.some.inj hp).symm
  exact ⟨hr, rfl, s.accepted.length, hs.prefix_accepted.length_le, le_rfl, hs.writePos_eq⟩

/-- What `BeginRead` returns, when it has loaded the write position at which the `m`-th write began. -/
theorem RingInv.beginRead_eq (hk : size = 2 ^ k) {m : ℕ} (hread : pos.readPos = s.readPos) (hm : s.received.length ≤ m)
    (hm' : m ≤ s.accepted.length) (hwrite : pos.writePos = startPos s.accepted m) :
    Profiling.beginRead size s.mem pos =
      if m = s.received.length ∨ (s.pending s.received.length).isSome then .error .EAGAIN
      else .ok ⟨s.readPos % size + kHeaderSize, ((s.accepted[s.received.length]?).map List.length).getD 0,
        size - (pos.writePos - pos.readPos)⟩ := by
  have hwin := hs.window
  have hle : pos.writePos ≤ s.writePos := by
    rw [hwrite, hs.writePos_eq]
    exact startPos_le hm'
  have hge : s.readPos ≤ pos.writePos := by
    rw [hwrite, hs.readPos_eq]
    exact startPos_le hm
  have hcorrupt : isCorrupt size pos = false := by
    refine isCorrupt_eq_false.mpr ⟨by omega, by omega, ?_, ?_⟩
    · rw [hwrite]
      exact Nat.mod_eq_zero_of_dvd (dvd_startPos _ _)
    · rw [hread]
      exact Nat.mod_eq_zero_of_dvd hs.dvd_readPos
  have h8 : kHeaderSize = 8 := rfl
  unfold Profiling.beginRead getPointerPositions
  rw [hcorrupt, if_neg (by decide)]
  dsimp only
  rcases Nat.lt_or_eq_of_le hm with hlt | rfl
  · obtain ⟨p, hp⟩ : ∃ p, s.accepted[s.received.length]? = some p :=
      ⟨_, List.getElem?_eq_getElem (show s.received.length < s.accepted.length by omega)⟩
    have hlen := hs.length_lt p (List.mem_of_getElem? hp)
    have hadd := add_le_sizeWithHeader hlen.2
    have hrec := startPos_add_le hp hlt
    rw [← hs.readPos_eq, ← hwrite] at hrec
    have hheader := hs.header _ p le_rfl hp
    rw [← hs.readPos_eq] at hheader
    have hload : loadU32 size s.mem (atPos size pos.readPos) = loadU32 size s.mem s.readPos := by
      rw [hk, atPos_eq, loadU32, load_mod, hread, loadU32]
    rw [readAvail, if_neg (by omega), hload, hheader]
    by_cases hpend : (s.pending s.received.length).isSome
    · rw [if_pos hpend, if_pos rfl, if_pos (Or.inr hpend)]
    · have hnot : ¬ (m = s.received.length ∨ (s.pending s.received.length).isSome) := by
        rintro (h | h)
        · omega
        · exact hpend h
      rw [if_neg hpend, if_neg (by omega), if_neg (by omega), if_neg hnot, hk, atPos_eq, writeAvail, readAvail, hread, hp,
        Option.map_some, Option.getD_some]
  · rw [readAvail, if_pos (by rw [hread, hwrite, hs.readPos_eq]; omega), if_pos (Or.inl rfl)]

theorem RingInv.beginRead (hk : size = 2 ^ k) (hpos : s.positions = some pos) :
    RingInv size { s with reading := (Profiling.beginRead size s.mem pos).toOption, positions := none } := by
  obtain ⟨-, hread, m, hm, hm', hwrite⟩ := hs.positions pos hpos
  refine ⟨hs.prefix_accepted, hs.length_lt, hs.readPos_eq, hs.writePos_eq, hs.window, hs.pending, hs.header, hs.body,
    ?_, hs.locked, ?_⟩
  · rw [hs.beginRead_eq hk hread hm hm' hwrite]
    intro buf hbuf
    dsimp only at hbuf
    split_ifs at hbuf with h
    · cases hbuf
    · obtain rfl := (Option.some.inj hbuf).symm
      rw [not_or, Bool.not_eq_true, Option.isSome_eq_false_iff, Option.isNone_iff_eq_none] at h
      obtain ⟨p, hp⟩ : ∃ p, s.accepted[s.received.length]? = some p :=
        ⟨_, List.getElem?_eq_getElem (show s.received.length < s.accepted.length by omega)⟩
      refine ⟨⟨?_, ?_⟩, h.2⟩
      · rw [hs.readPos_eq]
      · rw [hp]
        rfl
  · intro p h
    cases h

/-- The bytes that the reader finds in its buffer are the payload of the next write. -/
theorem RingInv.load_reading {buf : Buffer} (hbuf : s.reading = some buf) :
    s.accepted[s.received.length]? = some (load size s.mem buf.data buf.size) := by
  obtain ⟨⟨hdata, hsize⟩, hpend⟩ := hs.reading buf hbuf
  obtain ⟨p, hp, hlen⟩ := Option.map_eq_some_iff.mp hsize
  rw [hp, hdata, load_mod_add, ← hlen]
  congr 1
  symm
  apply load_eq
  intro i hi
  apply hs.body _ p i _ le_rfl hp (List.getElem?_eq_getElem hi)
  intro w hw
  rw [hpend] at hw
  cases hw

theorem RingInv.endRead {buf : Buffer} (hbuf : s.reading = some buf) (htotal : totalSize s.accepted < 2 ^ 64) :
    RingInv size (s.endRead size buf) := by
  have hload := hs.load_reading hbuf
  obtain ⟨⟨hdata, hsize⟩, hpend⟩ := hs.reading buf hbuf
  obtain ⟨p, hp, hlen⟩ := Option.map_eq_some_iff.mp hsize
  obtain rfl := Option.some.inj (hp.symm.trans hload)
  obtain ⟨h1, h2, h3⟩ := hs.record_le le_rfl hp
  have hwin := hs.window
  have hpos : (s.readPos + sizeWithHeader buf.size) % 2 ^ 64 = startPos s.accepted (s.received.length + 1) := by
    rw [startPos_succ hp, ← hs.readPos_eq, hlen, Nat.mod_eq_of_lt]
    rw [hs.writePos_eq, startPos_length] at h2
    rw [hs.readPos_eq, ← hlen]
    omega
  have hle : startPos s.accepted (s.received.length + 1) = s.readPos +
      sizeWithHeader (load size s.mem buf.data buf.size).length := by
    rw [startPos_succ hp, hs.readPos_eq]
  have hlength : (s.received ++ [load size s.mem buf.data buf.size]).length = s.received.length + 1 := by
    rw [List.length_append, List.length_singleton]
  constructor
  · obtain ⟨rest, hrest⟩ := hs.prefix_accepted
    rw [← hrest, List.getElem?_append_right le_rfl, Nat.sub_self] at hp
    obtain ⟨tail, rfl⟩ : ∃ tail, rest = load size s.mem buf.data buf.size :: tail := by
      cases rest with
      | nil => cases hp
      | cons x tail => exact ⟨tail, by rw [Option.some.inj hp]⟩
    refine ⟨tail, ?_⟩
    show s.received ++ [load size s.mem buf.data buf.size] ++ tail = s.accepted
    rw [← hrest, List.append_assoc, List.singleton_append]
  · exact hs.length_lt
  · show _ = startPos s.accepted (s.received ++ _).length
    rw [hlength]
    exact hpos
  · exact hs.writePos_eq
  · show s.writePos ≤ (s.readPos + sizeWithHeader buf.size) % 2 ^ 64 + size
    omega
  · intro n w hw
    obtain ⟨h4, h5, h6⟩ := hs.pending n w hw
    refine ⟨?_, h5, h6⟩
    show (s.received ++ _).length ≤ n
    rw [hlength]
    refine Nat.lt_of_le_of_ne h4 ?_
    rintro rfl
    cases hpend.symm.trans hw
  · intro n q (hn : (s.received ++ _).length ≤ n) hq
    rw [hlength] at hn
    exact hs.header n q (by omega) hq
  · intro n q i b (hn : (s.received ++ _).length ≤ n) hq
    rw [hlength] at hn
    exact hs.body n q i b (by omega) hq
  · intro b h
    cases h
  · intro b q hl
    obtain ⟨h4, h5, h6, h7⟩ := hs.locked b q hl
    refine ⟨h4, h5, ?_, h7⟩
    show s.writePos + _ ≤ (s.readPos + sizeWithHeader buf.size) % 2 ^ 64 + size
    omega
  · intro pos hp
    have := (hs.positions pos hp).1
    rw [hbuf] at this
    cases this

/-- One step keeps the invariant, while the positions do not wrap. -/
theorem RingInv.step (hk : size = 2 ^ k) {s' : RingState} {st : RingStep} (h : s.step size st = some s')
    (htotal : totalSize s'.accepted < 2 ^ 64) : RingInv size s' := by
  cases st with
  | beginWrite payload =>
    simp only [RingState.step, Option.ite_none_right_eq_some, Option.some.injEq] at h
    obtain ⟨⟨-, hpos, hlt⟩, rfl⟩ := h
    exact hs.beginWrite hk hpos hlt
  | advanceWritePos =>
    simp only [RingState.step] at h
    split at h
    · cases h
    · rename_i buf payload hl
      obtain rfl := Option.some.inj h
      exact hs.advanceWritePos hl htotal
  | storePayload n i =>
    simp only [RingState.step] at h
    split at h
    · cases h
    · rename_i w hw
      obtain ⟨b, hb, rfl⟩ := Option.map_eq_some_iff.mp h
      exact hs.storePayload hw hb
  | endWrite n =>
    simp only [RingState.step] at h
    split at h
    · cases h
    · rename_i w hw
      rw [Option.ite_none_right_eq_some] at h
      obtain ⟨hst, h⟩ := h
      obtain rfl := Option.some.inj h
      exact hs.endWrite hw hst
  | loadPositions =>
    simp only [RingState.step, Option.ite_none_right_eq_some, Option.some.injEq] at h
    obtain ⟨hr, rfl⟩ := h
    exact hs.loadPositions (Option.isNone_iff_eq_none.mp hr)
  | beginRead =>
    simp only [RingState.step] at h
    split at h
    · cases h
    · rename_i pos hpos
      obtain rfl := Option.some.inj h
      exact hs.beginRead hk hpos
  | endRead =>
    simp only [RingState.step] at h
    split at h
    · cases h
    · rename_i buf hbuf
      obtain rfl := Option.some.inj h
      exact hs.endRead hbuf htotal

end

end steps

end LynxTrace.Profiling
