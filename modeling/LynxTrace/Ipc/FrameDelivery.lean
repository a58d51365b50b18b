import LynxTrace.Base.ExceptLists
import LynxTrace.Ipc.BufferedFrameDeserializer
import Mathlib.Tactic.SplitIfs

/-!
# Ipc.FrameDelivery — the frames of a stream, however it is received

What the buffer holds between two receives is what the framing has left of the stream so far (`Ready`).
-/

namespace LynxTrace.Ipc

/-! ### Headers -/

theorem readLittleEndian_littleEndian {n : ℕ} (h : n < 2 ^ 32) : readLittleEndian (littleEndian n) = n := by
  simp only [littleEndian, readLittleEndian, UInt8.toNat_ofNat']
  omega

/-! ### The framing -/

section Framing

variable (capacity : ℕ)

/-- The decision on the frame at the start of some data. -/
def nextFrame (data : List UInt8) : Outcome UInt8 (List UInt8) :=
  if data.length < kHeaderSize then .more
  else
    let payloadSize := readLittleEndian (slice data 0 kHeaderSize)
    if capacity < payloadSize + kHeaderSize then .fail []
    else if data.length < kHeaderSize + payloadSize then .more
    else .frame [slice data kHeaderSize payloadSize] (data.drop (kHeaderSize + payloadSize))

variable {capacity} {data more rest : List UInt8} {ms : List (List UInt8)}

theorem nextFrame_frame : nextFrame capacity data = .frame ms rest ↔
    ∃ n, n = readLittleEndian (slice data 0 kHeaderSize) ∧ n + kHeaderSize ≤ capacity ∧ kHeaderSize + n ≤ data.length ∧
      ms = [slice data kHeaderSize n] ∧ rest = data.drop (kHeaderSize + n) := by
  unfold nextFrame
  dsimp only
  constructor
  · intro h
    split_ifs at h with h1 h2 h3
    obtain ⟨rfl, rfl⟩ := Outcome.frame.inj h
    exact ⟨_, rfl, by omega, by omega, rfl, rfl⟩
  · rintro ⟨n, rfl, h1, h2, rfl, rfl⟩
    rw [if_neg (by omega), if_neg (by omega), if_neg (by omega)]

theorem nextFrame_fail : nextFrame capacity data = .fail ms ↔ ms = [] ∧ kHeaderSize ≤ data.length ∧
    capacity < readLittleEndian (slice data 0 kHeaderSize) + kHeaderSize := by
  unfold nextFrame
  dsimp only
  constructor
  · intro h
    split_ifs at h with h1 h2
    cases h
    exact ⟨rfl, by omega, h2⟩
  · rintro ⟨rfl, h1, h2⟩
    rw [if_neg (by omega), if_pos h2]

theorem nextFrame_more : nextFrame capacity data = .more ↔ data.length < kHeaderSize ∨
    (readLittleEndian (slice data 0 kHeaderSize) + kHeaderSize ≤ capacity ∧
      data.length < kHeaderSize + readLittleEndian (slice data 0 kHeaderSize)) := by
  unfold nextFrame
  dsimp only
  constructor
  · intro h
    split_ifs at h with h1 h2 h3
    · exact Or.inl h1
    · exact Or.inr ⟨by omega, h3⟩
  · intro h
    split_ifs with h1 h2 h3
    · rfl
    · omega
    · rfl
    · omega

theorem slice_append {i n : ℕ} (h : i + n ≤ data.length) : slice (data ++ more) i n = slice data i n := by
  rw [slice, slice, List.drop_append_of_le_length (by omega),
    List.take_append_of_le_length (by rw [List.length_drop]; omega)]

variable (capacity) in
/-- Payloads with their sizes before them, as frames of a stream. -/
def frames : Framing UInt8 (List UInt8) where
  next := nextFrame capacity
  shorter := by
    intro xs ms rest h
    obtain ⟨n, -, -, hlen, -, rfl⟩ := nextFrame_frame.mp h
    have : kHeaderSize = 4 := rfl
    rw [List.length_drop]
    omega
  frame_append := by
    intro xs ms rest ys h
    obtain ⟨n, hn, hmax, hlen, rfl, rfl⟩ := nextFrame_frame.mp h
    refine nextFrame_frame.mpr ⟨n, ?_, hmax, ?_, ?_, ?_⟩
    · rw [slice_append (by omega), hn]
    · rw [List.length_append]
      omega
    · rw [slice_append hlen]
    · rw [List.drop_append_of_le_length hlen]
  fail_append := by
    intro xs ms ys h
    obtain ⟨hms, hlen, hmax⟩ := nextFrame_fail.mp h
    refine nextFrame_fail.mpr ⟨hms, ?_, ?_⟩
    · rw [List.length_append]
      omega
    · rwa [slice_append (by omega)]

end Framing

namespace BufferedFrameDeserializer

variable {Frame : Type*} {parseFromArray : List UInt8 → Option Frame} {serializeAsArray : Frame → List UInt8}

/-! ### The loop -/

variable (parseFromArray) in
/-- The loop takes the frames off the data in the buffer. -/
theorem consumeFrames_spec {capacity size consumed : ℕ} {buf : List UInt8} (decoded : List Frame)
    (hcapacity : size ≤ capacity) (hbuf : size ≤ buf.length) (hconsumed : consumed ≤ size) :
    ∃ consumed', consumeFrames parseFromArray capacity size buf consumed decoded =
        (((frames capacity).drain (slice buf consumed (size - consumed))).2.isSome, consumed',
          decoded ++ ((frames capacity).drain (slice buf consumed (size - consumed))).1.filterMap
            (decodeFrame parseFromArray)) ∧
      consumed' ≤ size ∧ ∀ left, ((frames capacity).drain (slice buf consumed (size - consumed))).2 = some left →
        left = slice buf consumed' (size - consumed') := by
  induction hn : size - consumed using Nat.strongRecOn generalizing consumed decoded with
  | ind n ih =>
    have hheader : kHeaderSize = 4 := rfl
    have hlen : (slice buf consumed n).length = n := length_slice (by omega)
    rw [consumeFrames]
    split_ifs with h1
    · have hmore : nextFrame capacity (slice buf consumed n) = .more := nextFrame_more.mpr (Or.inl (by omega))
      rw [(frames capacity).drain_more hmore]
      refine ⟨consumed, ?_, hconsumed, ?_⟩
      · simp
      · intro left hleft
        rw [hn, ← Option.some.inj hleft]
    · have hread : slice (slice buf consumed n) 0 kHeaderSize = slice buf consumed kHeaderSize := by
        rw [slice_slice (by omega), Nat.add_zero]
      obtain ⟨payloadSize, hpayload⟩ : ∃ p, p = readLittleEndian (slice buf consumed kHeaderSize) := ⟨_, rfl⟩
      rw [← hpayload]
      dsimp only
      split_ifs with h2 h3
      · have hfail : nextFrame capacity (slice buf consumed n) = .fail [] := by
          refine nextFrame_fail.mpr ⟨rfl, by omega, ?_⟩
          rw [hread, ← hpayload]
          omega
        rw [(frames capacity).drain_fail hfail]
        exact ⟨consumed, by simp, hconsumed, fun left hleft => by cases hleft⟩
      · have hmore : nextFrame capacity (slice buf consumed n) = .more := by
          refine nextFrame_more.mpr (Or.inr ?_)
          rw [hread, ← hpayload]
          omega
        rw [(frames capacity).drain_more hmore]
        refine ⟨consumed, by simp, hconsumed, fun left hleft => ?_⟩
        rw [hn, ← Option.some.inj hleft]
      · have hframe : nextFrame capacity (slice buf consumed n) =
            .frame [slice buf (consumed + kHeaderSize) payloadSize]
              (slice buf (consumed + (kHeaderSize + payloadSize)) (n - (kHeaderSize + payloadSize))) := by
          refine nextFrame_frame.mpr ⟨payloadSize, by rw [hread, hpayload], by omega, by omega, ?_, ?_⟩
          · rw [slice_slice (by omega)]
          · rw [drop_slice]
        have hnext : min payloadSize capacity + kHeaderSize = kHeaderSize + payloadSize := by omega
        rw [(frames capacity).drain_frame hframe, hnext]
        obtain ⟨consumed', heq, hle, hleft⟩ := ih (n - (kHeaderSize + payloadSize)) (by omega)
          (decoded ++ (decodeFrame parseFromArray (slice buf (consumed + kHeaderSize) payloadSize)).toList)
          (show consumed + (kHeaderSize + payloadSize) ≤ size by omega) (by omega)
        refine ⟨consumed', ?_, hle, hleft⟩
        rw [heq, List.append_assoc, List.filterMap_append]
        congr 3

/-! ### A receive -/

/-- A deserializer between two receives: the buffer starts with what is left of the stream, and there is space. -/
structure Ready (s : BufferedFrameDeserializer Frame) (left : List UInt8) : Prop where
  page : 0 < s.pageSize
  large : kHeaderSize ≤ s.capacity
  size : s.size = left.length
  space : left.length < s.capacity
  popped : s.decodedFrames = []
  buffered : ∃ buf, s.allocate.buf = some buf ∧ buf.length = s.capacity ∧ slice buf 0 left.length = left

variable {s : BufferedFrameDeserializer Frame} {left data buf : List UInt8}

theorem length_adviseDontNeed {start : ℕ} (h : start ≤ buf.length) : (adviseDontNeed buf start).length = buf.length :=
  length_overwrite (by rw [List.length_replicate]; omega)

/-- What is before the pages given back stays. -/
theorem slice_adviseDontNeed {start n : ℕ} (hn : n ≤ start) (h : start ≤ buf.length) :
    slice (adviseDontNeed buf start) 0 n = slice buf 0 n := by
  refine slice_eq_of_getElem? fun j h1 h2 => ?_
  unfold adviseDontNeed
  rw [getElem?_overwrite (by rw [List.length_replicate]; omega), if_pos (by omega)]

theorem ready_new {pageSize capacity : ℕ} (h : new pageSize capacity = .ok s) : s.Ready [] ∧ s.capacity = capacity := by
  unfold new at h
  split_ifs at h with h1 h2
  cases h
  have hpage : 4096 ≤ pageSize := Nat.le_of_dvd (by omega) (Nat.dvd_of_mod_eq_zero (by omega))
  have hlarge : pageSize ≤ capacity := Nat.le_of_not_lt fun hlt => h2 (Or.inr hlt)
  have hheader : kHeaderSize = 4 := rfl
  have hlen : (List.replicate capacity (0 : UInt8)).length = capacity := List.length_replicate
  have hfirst : pageSize ≤ (List.replicate capacity (0 : UInt8)).length := hlen.symm ▸ hlarge
  refine ⟨⟨?_, ?_, rfl, ?_, rfl, _, rfl, ?_, rfl⟩, rfl⟩
  · show 0 < pageSize
    omega
  · show kHeaderSize ≤ capacity
    omega
  · show 0 < capacity
    omega
  · show (adviseDontNeed (List.replicate capacity 0) pageSize).length = capacity
    rw [length_adviseDontNeed hfirst, hlen]

theorem capacity_allocate (s : BufferedFrameDeserializer Frame) : s.allocate.capacity = s.capacity ∧
    s.allocate.pageSize = s.pageSize ∧ s.allocate.size = s.size ∧ s.allocate.decodedFrames = s.decodedFrames := by
  unfold allocate
  split
  · exact ⟨rfl, rfl, rfl, rfl⟩
  · exact ⟨rfl, rfl, rfl, rfl⟩

/-- Shifting out leaves the bytes that were not consumed at the front. -/
theorem shiftOut_spec {consumed : ℕ} (hpage : 0 < s.pageSize) (hbuf : s.buf = some buf) (hlen : buf.length = s.capacity)
    (hsize : s.size ≤ s.capacity) (hconsumed : consumed ≤ s.size) :
    ∃ s' buf', s.shiftOut consumed = .ok s' ∧ s'.capacity = s.capacity ∧ s'.pageSize = s.pageSize ∧
      s'.decodedFrames = s.decodedFrames ∧ s'.size = s.size - consumed ∧ s'.buf = some buf' ∧
      buf'.length = s.capacity ∧ slice buf' 0 s'.size = slice buf consumed (s.size - consumed) := by
  unfold shiftOut
  by_cases hzero : consumed = 0
  · subst hzero
    rw [if_pos rfl]
    exact ⟨s, buf, rfl, rfl, rfl, rfl, rfl, hbuf, hlen, by rw [Nat.sub_zero]⟩
  · have hpiece : (slice buf consumed (s.size - consumed)).length = s.size - consumed := length_slice (by omega)
    obtain ⟨moved, hmoved⟩ : ∃ moved, moved = if 0 < s.size - consumed then
        overwrite buf 0 (slice buf consumed (s.size - consumed)) else buf := ⟨_, rfl⟩
    have hmovedLen : moved.length = s.capacity := by
      rw [hmoved]
      split_ifs
      · rw [length_overwrite (by omega), hlen]
      · exact hlen
    have hfront : slice moved 0 (s.size - consumed) = slice buf consumed (s.size - consumed) := by
      rw [hmoved]
      split_ifs with hpos
      · have hself : slice (overwrite buf 0 (slice buf consumed (s.size - consumed))) 0 _ = _ :=
          slice_overwrite_self (by omega)
        rwa [hpiece] at hself
      · rw [Nat.eq_zero_of_not_pos hpos]
        rfl
    rw [if_neg hzero]
    dsimp only
    rw [if_neg (by omega), hbuf, Option.getD_some, ← hmoved]
    have hround : s.size - consumed < ((s.size - consumed) / s.pageSize + 1) * s.pageSize := by
      rw [Nat.mul_comm]
      exact Nat.lt_mul_div_succ _ hpage
    split_ifs with hlarge hcheck
    · omega
    · refine ⟨_, _, rfl, rfl, rfl, rfl, rfl, rfl, ?_, ?_⟩
      · rw [length_adviseDontNeed (by omega), hmovedLen]
      · rw [← hfront]
        exact slice_adviseDontNeed (show s.size - consumed ≤ _ from Nat.le_of_lt hround) (by omega)
    · exact ⟨_, _, rfl, rfl, rfl, rfl, rfl, rfl, hmovedLen, hfront⟩

variable (parseFromArray) in
/-- `EndReceive` takes the frames off the data in the buffer. -/
theorem endReceive_spec {stream : List UInt8} {n : ℕ} (hpage : 0 < s.pageSize) (hlarge : kHeaderSize ≤ s.capacity)
    (hbuf : s.buf = some buf) (hlen : buf.length = s.capacity) (hsize : s.size + n ≤ s.capacity)
    (hpopped : s.decodedFrames = []) (hstream : slice buf 0 (s.size + n) = stream) :
    ∃ s', s.endReceive parseFromArray n = .ok (((frames s.capacity).drain stream).2.isSome, s') ∧
      s'.capacity = s.capacity ∧
      s'.decodedFrames = ((frames s.capacity).drain stream).1.filterMap (decodeFrame parseFromArray) ∧
      ∀ left, ((frames s.capacity).drain stream).2 = some left → s'.popFrames.2.Ready left := by
  obtain ⟨consumed, hloop, hle, hrest⟩ := consumeFrames_spec parseFromArray [] hsize
    (hlen.symm ▸ hsize) (Nat.zero_le _)
  rw [Nat.sub_zero, hstream, List.nil_append] at hloop
  rw [Nat.sub_zero, hstream] at hrest
  unfold endReceive
  rw [if_neg (by omega)]
  dsimp only
  rw [hbuf, Option.getD_some, hpopped, hloop]
  dsimp only
  cases hleft : ((frames s.capacity).drain stream).2 with
  | none => exact ⟨_, rfl, rfl, rfl, fun left h => by cases h⟩
  | some left =>
    obtain ⟨s', buf', hshift, hcapacity', hpage', hdecoded, hsize', hbuf', hlen', hfront⟩ :=
      shiftOut_spec (s := { s with
        buf := some buf
        size := s.size + n
        decodedFrames := ((frames s.capacity).drain stream).1.filterMap (decodeFrame parseFromArray) })
        hpage rfl hlen hsize hle
    obtain rfl := hrest left hleft
    have hmore := ((frames s.capacity).drain_left hleft).2
    have hleftLen : (slice buf consumed (s.size + n - consumed)).length = s.size + n - consumed :=
      length_slice (by omega)
    rw [Option.isSome_some, if_pos rfl, hshift]
    refine ⟨s', rfl, hcapacity', hdecoded, ?_⟩
    rintro _ ⟨⟩
    refine ⟨hpage' ▸ hpage, hcapacity' ▸ hlarge, hsize'.trans hleftLen.symm, ?_, rfl, buf', ?_, ?_, ?_⟩
    · show _ < s'.capacity
      rw [hcapacity']
      rcases nextFrame_more.mp hmore with hshort | hshort
      · exact Nat.lt_of_lt_of_le hshort hlarge
      · show _ < s.capacity
        omega
    · show (allocate { s' with decodedFrames := [] }).buf = some buf'
      unfold allocate
      rw [hbuf']
    · exact hlen'.trans hcapacity'.symm
    · rw [hleftLen, ← hfront, hsize']

variable (parseFromArray) in
/-- A receive takes the frames of the data off. -/
theorem Ready.receive (h : s.Ready left) (hdata : data.length ≤ s.capacity - left.length) :
    ∃ s', s.receive parseFromArray data = .ok (((frames s.capacity).drain (left ++ data)).2.isSome,
        ((frames s.capacity).drain (left ++ data)).1.filterMap (decodeFrame parseFromArray), s') ∧
      s'.capacity = s.capacity ∧
      ∀ left', ((frames s.capacity).drain (left ++ data)).2 = some left' → s'.Ready left' := by
  obtain ⟨buf, hbuf, hlen, hleft⟩ := h.buffered
  obtain ⟨hcapacity, hpage, hsize, hdecoded⟩ := s.capacity_allocate
  have hspace := h.space
  have hsize' := h.size
  -- The received data is right behind what was left.
  have hstream : slice (overwrite buf s.size data) 0 (s.size + data.length) = left ++ data := by
    have happend := slice_overwrite_append (Nat.zero_le s.size) (show s.size + data.length ≤ buf.length by omega)
    rw [Nat.sub_zero, Nat.sub_zero] at happend
    rw [happend, hsize', hleft]
  obtain ⟨s', hend, hcapacity', hframes, hready⟩ := endReceive_spec parseFromArray
    (s := s.allocate.put s.size data) (hpage.symm ▸ h.page) (hcapacity.symm ▸ h.large)
    (show s.allocate.buf.map _ = some (overwrite buf s.size data) by rw [hbuf]; rfl)
    (show (overwrite buf s.size data).length = s.allocate.capacity by
      rw [length_overwrite (by omega), hlen, hcapacity])
    (show s.allocate.size + data.length ≤ s.allocate.capacity by omega) (hdecoded.trans h.popped)
    (show slice (overwrite buf s.size data) 0 (s.allocate.size + data.length) = left ++ data by rw [hsize, hstream])
  rw [show (s.allocate.put s.size data).capacity = s.capacity from hcapacity] at hend hcapacity' hframes hready
  refine ⟨s'.popFrames.2, ?_, hcapacity', hready⟩
  unfold BufferedFrameDeserializer.receive beginReceive
  dsimp only
  rw [hcapacity, hsize, if_neg (by omega)]
  dsimp only
  rw [if_neg (by omega), hend, ← hframes]
  rfl

/-- More than the offered space. -/
theorem Ready.receive_overrun (h : s.Ready left) (hdata : s.capacity - left.length < data.length) :
    s.receive parseFromArray data = .error .overrun := by
  obtain ⟨hcapacity, -, hsize, -⟩ := s.capacity_allocate
  have hspace := h.space
  have hsize' := h.size
  unfold BufferedFrameDeserializer.receive beginReceive
  dsimp only
  rw [hcapacity, hsize, if_neg (by omega)]
  dsimp only
  rw [if_pos (by omega)]

/-! ### Streams -/

variable (parseFromArray) in
/-- The receives of a stream, one after the other, as long as the caller respects the offered space. -/
theorem Ready.receiveAll (h : s.Ready left) (hmore : nextFrame s.capacity left = .more) {received : List (List UInt8)}
    (hrespects : s.receiveAll parseFromArray received ≠ .error .overrun) :
    ∃ s', s.receiveAll parseFromArray received =
        .ok (((frames s.capacity).drain (left ++ received.flatten)).2.isSome,
          ((frames s.capacity).drain (left ++ received.flatten)).1.filterMap (decodeFrame parseFromArray), s') ∧
      s'.capacity = s.capacity ∧
      ∀ left', ((frames s.capacity).drain (left ++ received.flatten)).2 = some left' → s'.Ready left' := by
  induction received generalizing s left with
  | nil =>
    have hdrain : (frames s.capacity).drain (left ++ [].flatten) = ([], some left) := by
      rw [List.flatten_nil, List.append_nil]
      exact (frames s.capacity).drain_more hmore
    rw [hdrain]
    refine ⟨s, rfl, rfl, ?_⟩
    rintro _ ⟨⟩
    exact h
  | cons data received ih =>
    rw [List.flatten_cons, ← List.append_assoc, (frames s.capacity).drain_append, Framing.feed]
    by_cases hdata : data.length ≤ s.capacity - left.length
    · obtain ⟨s₁, hfirst, hcapacity, hready⟩ := h.receive parseFromArray hdata
      rw [BufferedFrameDeserializer.receiveAll, hfirst] at hrespects ⊢
      cases hleft : ((frames s.capacity).drain (left ++ data)).2 with
      | none =>
        rw [hleft]
        exact ⟨s₁, rfl, hcapacity, fun left' h' => by cases h'⟩
      | some left₁ =>
        rw [hleft] at hrespects
        have hmore₁ := ((frames s.capacity).drain_left hleft).2
        obtain ⟨s₂, hrest, hcapacity₂, hready₂⟩ := ih (hready left₁ hleft) (hcapacity.symm ▸ hmore₁) (by
          intro hover
          apply hrespects
          dsimp only [Option.isSome]
          rw [hover]
          rfl)
        rw [hcapacity] at hrest hcapacity₂ hready₂
        refine ⟨s₂, ?_, hcapacity₂, hready₂⟩
        dsimp only [Option.isSome]
        rw [hrest, List.filterMap_append]
        rfl
    · exfalso
      apply hrespects
      rw [BufferedFrameDeserializer.receiveAll, h.receive_overrun (Nat.lt_of_not_le hdata)]

/-- A caller that receives no more than the capacity in all respects the offered space. -/
theorem Ready.receiveAll_fits (h : s.Ready left) {received : List (List UInt8)}
    (hfits : left.length + received.flatten.length ≤ s.capacity) :
    s.receiveAll parseFromArray received ≠ .error .overrun := by
  induction received generalizing s left with
  | nil => exact fun h => by cases h
  | cons data received ih =>
    rw [List.flatten_cons, List.length_append] at hfits
    obtain ⟨s₁, hfirst, hcapacity, hready⟩ :=
      h.receive parseFromArray (show data.length ≤ s.capacity - left.length by omega)
    rw [BufferedFrameDeserializer.receiveAll, hfirst]
    cases hleft : ((frames s.capacity).drain (left ++ data)).2 with
    | none => exact fun h => by cases h
    | some left₁ =>
      have hle := ((frames s.capacity).drain_left hleft).1
      rw [List.length_append] at hle
      have hrest := ih (hready left₁ hleft) (by omega)
      dsimp only [Option.isSome]
      cases hall : s₁.receiveAll parseFromArray received with
      | error fault =>
        rintro ⟨⟩
        exact hrest hall
      | ok r => exact fun h => by cases h

/-! ### Serialized frames -/

/-- What `Serialize` gives is a frame. -/
theorem nextFrame_serialize {capacity : ℕ} {frame : Frame} {text : List UInt8}
    (htext : serialize serializeAsArray frame = .ok text)
    (hmax : (serializeAsArray frame).length ≤ capacity - kHeaderSize) (hlarge : kHeaderSize ≤ capacity)
    (more : List UInt8) : nextFrame capacity (text ++ more) = .frame [serializeAsArray frame] more := by
  unfold serialize at htext
  dsimp only at htext
  split_ifs at htext with hlt
  obtain rfl := (Except.ok.inj htext).symm
  have hsmall : (serializeAsArray frame).length % 2 ^ 32 = (serializeAsArray frame).length :=
    Nat.le_antisymm (Nat.mod_le _ _) (Nat.le_of_not_lt hlt)
  have hheader : ∀ payload : List UInt8, slice (littleEndian (serializeAsArray frame).length ++ payload) 0 kHeaderSize =
      littleEndian (serializeAsArray frame).length := fun payload => rfl
  rw [hsmall, List.append_assoc]
  refine nextFrame_frame.mpr ⟨(serializeAsArray frame).length, ?_, by omega, ?_, ?_, ?_⟩
  · rw [hheader, readLittleEndian_littleEndian (by omega)]
  · simp only [List.length_append, littleEndian, List.length_cons, List.length_nil, kHeaderSize]
    omega
  · show [serializeAsArray frame] = [(serializeAsArray frame ++ more).take _]
    rw [List.take_left]
  · rw [← List.drop_drop]
    show more = (serializeAsArray frame ++ more).drop _
    rw [List.drop_left]

theorem drain_serialize {capacity : ℕ} (hlarge : kHeaderSize ≤ capacity) {fs : List Frame} {texts : List (List UInt8)}
    (htexts : mapExcept (serialize serializeAsArray) fs = .ok texts)
    (hmax : ∀ frame ∈ fs, (serializeAsArray frame).length ≤ capacity - kHeaderSize) :
    (frames capacity).drain texts.flatten = (fs.map serializeAsArray, some []) := by
  induction mapExcept_ok.mp htexts with
  | nil =>
    have hmore : nextFrame capacity [] = .more := nextFrame_more.mpr (Or.inl (by decide))
    exact (frames capacity).drain_more hmore
  | @cons frame text fs texts htext hrest ih =>
    have hframe := nextFrame_serialize htext (hmax frame List.mem_cons_self) hlarge texts.flatten
    rw [List.flatten_cons, (frames capacity).drain_frame hframe,
      ih (mapExcept_ok.mpr hrest) fun f hf => hmax f (List.mem_cons_of_mem _ hf)]
    rfl

/-- The empty payloads are dropped. -/
theorem filterMap_decodeFrame (hparse : ∀ frame, parseFromArray (serializeAsArray frame) = some frame)
    (fs : List Frame) : (fs.map serializeAsArray).filterMap (decodeFrame parseFromArray) =
      fs.filter fun frame => serializeAsArray frame ≠ [] := by
  induction fs with
  | nil => rfl
  | cons frame fs ih =>
    rw [List.map_cons, List.filterMap_cons, List.filter_cons, ih]
    unfold decodeFrame
    by_cases hempty : serializeAsArray frame = []
    · rw [if_pos (by rw [hempty]; rfl), if_neg (by simp [hempty])]
    · rw [if_neg (by rwa [List.length_eq_zero_iff]), if_pos (by simp [hempty]), hparse]

/-- A fault stays one when more is received. -/
theorem receiveAll_append_error {fault : Fault} {arrived : List (List UInt8)}
    (h : s.receiveAll parseFromArray arrived = .error fault) (rest : List (List UInt8)) :
    s.receiveAll parseFromArray (arrived ++ rest) = .error fault := by
  induction arrived generalizing s with
  | nil => cases h
  | cons data arrived ih =>
    rw [List.cons_append]
    unfold receiveAll at h ⊢
    split at h
    · exact h
    · cases h
    · rename_i s₁ _
      cases hall : s₁.receiveAll parseFromArray arrived with
      | error fault' =>
        rw [hall] at h
        cases h
        rw [ih hall]
        rfl
      | ok r =>
        rw [hall] at h
        cases h

/-- However a stream is received within the offered space: frames of at most `capacity - 4` bytes are all decoded but
the empty ones, `EndReceive` never returns false and there is space after every receive; and of any stream the frames
before the first header that is too large are decoded, `EndReceive` returning false as soon as that is complete. -/
theorem receiveAll_frames (hparse : ∀ frame, parseFromArray (serializeAsArray frame) = some frame)
    {pageSize capacity : ℕ} (hnew : new pageSize capacity = .ok s) :
    (∀ fs texts received, mapExcept (serialize serializeAsArray) fs = .ok texts →
      (∀ frame ∈ fs, (serializeAsArray frame).length ≤ capacity - kHeaderSize) → received.flatten = texts.flatten →
      s.receiveAll parseFromArray received ≠ .error .overrun →
      (∃ s', s.receiveAll parseFromArray received =
        .ok (true, fs.filter fun frame => serializeAsArray frame ≠ [], s')) ∧
      ∀ arrived, arrived <+: received → ∃ decoded s', s.receiveAll parseFromArray arrived = .ok (true, decoded, s') ∧
        s'.size < s'.capacity) ∧
    ∀ received, s.receiveAll parseFromArray received ≠ .error .overrun →
      ∃ s', s.receiveAll parseFromArray received = .ok (((frames capacity).drain received.flatten).2.isSome,
        ((frames capacity).drain received.flatten).1.filterMap (decodeFrame parseFromArray), s') := by
  obtain ⟨hready, rfl⟩ := ready_new hnew
  have hmore : nextFrame s.capacity [] = .more := nextFrame_more.mpr (Or.inl (by decide))
  refine ⟨?_, fun received hrespects => ?_⟩
  · intro fs texts received htexts hmax hflatten hrespects
    have hdrain := drain_serialize hready.large htexts hmax
    rw [← hflatten] at hdrain
    refine ⟨?_, fun arrived harrived => ?_⟩
    · obtain ⟨s', hall, -, -⟩ := hready.receiveAll parseFromArray hmore hrespects
      rw [List.nil_append, hdrain] at hall
      refine ⟨s', hall.trans ?_⟩
      rw [filterMap_decodeFrame hparse]
      rfl
    · obtain ⟨rest, rfl⟩ := harrived
      obtain ⟨s', hall, -, hleft⟩ := hready.receiveAll parseFromArray hmore
        fun hover => hrespects (receiveAll_append_error hover rest)
      rw [List.nil_append] at hall hleft
      rw [List.flatten_append, (frames s.capacity).drain_append, Framing.feed] at hdrain
      cases hsome : ((frames s.capacity).drain arrived.flatten).2 with
      | none =>
        rw [hsome] at hdrain
        dsimp only at hdrain
        rw [hdrain] at hsome
        cases hsome
      | some left =>
        rw [hsome, Option.isSome_some] at hall
        have hready' := hleft left hsome
        exact ⟨_, s', hall, hready'.size.symm ▸ hready'.space⟩
  · obtain ⟨s', hall, -, -⟩ := hready.receiveAll parseFromArray hmore hrespects
    exact ⟨s', hall⟩

/-- Three frames, one of them empty, cut inside headers and payloads. -/
theorem receiveAll_frames_cut : ∃ s' : BufferedFrameDeserializer (List UInt8),
    receiveAll some ⟨4096, 4096, none, 0, []⟩ [[1, 0, 0], [0, 7, 0, 0, 0, 0, 2, 0, 0, 0, 8], [9]] =
      .ok (true, [[7], [8, 9]], s') := by
  have hnew : new 4096 4096 = .ok (⟨4096, 4096, none, 0, []⟩ : BufferedFrameDeserializer (List UInt8)) := by rfl
  exact ((@receiveAll_frames _ some id _ (fun _ => rfl) _ _ hnew).1
    [[7], [], [8, 9]] [[1, 0, 0, 0, 7], [0, 0, 0, 0], [2, 0, 0, 0, 8, 9]] _ (by rfl) (by decide) (by rfl)
    ((ready_new hnew).1.receiveAll_fits (by decide))).1

end BufferedFrameDeserializer

end LynxTrace.Ipc
