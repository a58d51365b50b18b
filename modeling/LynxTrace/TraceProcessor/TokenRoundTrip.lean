import LynxTrace.TraceProcessor.TraceTokenBuffer

/-!
# TraceProcessor.TokenRoundTrip — what `Extract` returns of what `Append` took

Runs of `Append`, `Extract` and `FreeMemory` in any order.  The invariant of a run (`Consistent`) keeps the interning
tables beside the chunks of the allocator and every token not yet extracted in its chunk (`Stored`).
-/

namespace LynxTrace.TraceProcessor

/-! ### Words in memory -/

/-- The words are in memory from a place on. -/
def Holds (memory : ℕ → UInt64) (ptr : ℕ) (words : List UInt64) : Prop :=
  ∀ i (h : i < words.length), memory (ptr + i) = words[i]

variable {ptr q : ℕ} {words : List UInt64}

theorem Holds.cons {memory : ℕ → UInt64} {w : UInt64} (h : Holds memory ptr (w :: words)) :
    memory ptr = w ∧ Holds memory (ptr + 1) words := by
  refine ⟨h 0 (by simp), fun i hi => ?_⟩
  rw [Nat.add_assoc, Nat.add_comm 1 i]
  exact h (i + 1) (by simpa using hi)

theorem Chunk.write_holds (chunk : Chunk) (ptr : ℕ) (words : List UInt64) :
    Holds (chunk.write ptr words).allocation ptr words := by
  intro i hi
  have hge : ¬ptr + i < ptr := by omega
  simp [Chunk.write, hge, hi]

variable {chunk chunk' : Chunk}

theorem Holds.write {ptr' : ℕ} {words' : List UInt64} (h : Holds chunk.allocation ptr words)
    (hbelow : ptr + words.length ≤ ptr') : Holds (chunk.write ptr' words').allocation ptr words := by
  intro i hi
  have hlt : ptr + i < ptr' := by omega
  simp only [Chunk.write, if_pos hlt]
  exact h i hi

/-- Reading a word that may be there. -/
theorem extractIf_eq {memory : ℕ → UInt64} {o : Option UInt64} (h : Holds memory ptr (o.toList ++ words)) :
    TraceTokenBuffer.extractIf o.isSome memory ptr = (o, ptr + o.toList.length) ∧
      Holds memory (ptr + o.toList.length) words := by
  cases o with
  | none => exact ⟨rfl, h⟩
  | some w =>
    obtain ⟨hw, hrest⟩ := h.cons
    exact ⟨by simp [TraceTokenBuffer.extractIf, hw], hrest⟩

/-! ### Tokens in a chunk -/

/-- What is appended: the data of a track event, or an object of another type by its words. -/
inductive Token
  | trackEvent (ted : TrackEventData)
  | object (words : List UInt64) (nonempty : words ≠ [])
  deriving DecidableEq

namespace Token

/-- The bytes allocated for the token. -/
def size : Token → ℕ
  | trackEvent ted => (TrackEventDataDescriptor.ofData ted).getAllocSize
  | object words _ => words.length * 8

/-- The blob that the token refers to. -/
def blob : Token → Option ℕ
  | trackEvent ted => some ted.packet.blob
  | object _ _ => none

/-- The sequence state that the token refers to. -/
def seq : Token → Option ℕ
  | trackEvent ted => ted.sequenceState
  | object _ _ => none

end Token

/-- The descriptor with its places in the interning tables. -/
def descriptorAt (ted : TrackEventData) (blobIndex seqIndex blobOffset : ℕ) : TrackEventDataDescriptor :=
  { TrackEventDataDescriptor.ofData ted with
    internBlobOffset := .ofNat 25 blobOffset
    internBlobIndex := .ofNat 16 blobIndex
    internSeqIndex := .ofNat 16 seqIndex }

/-- The token is in the chunk, and what it refers to in the tables of the chunk. -/
def Stored (chunk : Chunk) (blobs : List BlobWithOffset) (seqs : List (Option ℕ)) (ptr : ℕ) : Token → Prop
  | .trackEvent ted => ∃ blobIndex seqIndex blobOffset bwo,
      Holds chunk.allocation ptr ((descriptorAt ted blobIndex seqIndex blobOffset).toWord :: ted.packet.length ::
        TraceTokenBuffer.optionalWords ted) ∧
      blobIndex < 2 ^ 16 ∧ seqIndex < 2 ^ 16 ∧ blobOffset < 2 ^ 25 ∧
      blobs[blobIndex]? = some bwo ∧ bwo.blob = ted.packet.blob ∧
      bwo.offsetInBlob + .ofNat blobOffset = ted.packet.offset ∧ seqs[seqIndex]? = some ted.sequenceState
  | .object words _ => Holds chunk.allocation ptr words

theorem countExtraCounterValues_le (ted : TrackEventData) : ted.countExtraCounterValues ≤ kMaxNumExtraCounters := by
  have hle : ted.extraCounterValues.toList.findIdx (·.isZero) ≤ ted.extraCounterValues.toList.length :=
    List.findIdx_le_length
  rwa [Vector.length_toList] at hle

@[simp] theorem ofData_extraCounterCount_toNat (ted : TrackEventData) :
    (TrackEventDataDescriptor.ofData ted).extraCounterCount.toNat = ted.countExtraCounterValues := by
  have hle := countExtraCounterValues_le ted
  rw [kMaxNumExtraCounters] at hle
  simp only [TrackEventDataDescriptor.ofData, BitVec.toNat_ofNat]
  omega

/-- The words of a token fill what is allocated for it. -/
theorem size_trackEvent (ted : TrackEventData) (w : UInt64) :
    (Token.trackEvent ted).size = (w :: ted.packet.length :: TraceTokenBuffer.optionalWords ted).length * 8 := by
  have hle := countExtraCounterValues_le ted
  have hsome (o : Option UInt64) : o.toList.length = o.isSome.toNat := by cases o <;> rfl
  have hcounter : (if ted.counterValue.isZero then none else some ted.counterValue.bits).isSome =
      !ted.counterValue.isZero := by cases ted.counterValue.isZero <;> rfl
  simp only [Token.size, TrackEventDataDescriptor.getAllocSize, ofData_extraCounterCount_toNat]
  simp only [TrackEventDataDescriptor.ofData, TraceTokenBuffer.optionalWords, List.length_cons, List.length_append,
    List.length_map, List.length_take, Vector.length_toList, hsome, Option.isSome_map, hcounter]
  omega

/-! ### Extracting a stored token -/

/-- What `Extract` makes of a token. -/
def restored (ted : TrackEventData) : TrackEventData :=
  { ted with
    packet := { ted.packet with length := ted.packet.length.toUInt32.toUInt64 }
    counterValue := if ted.counterValue.isZero then .zero else ted.counterValue
    extraCounterValues := .ofFn fun i =>
      if i < ted.countExtraCounterValues then ted.extraCounterValues[i] else .zero }

variable {b : TraceTokenBuffer} {id : AllocId} {blobs : List BlobWithOffset} {seqs : List (Option ℕ)}

theorem extract_stored {ted : TrackEventData} (hchunk : b.allocator.chunkOf id = some chunk)
    (hblobs : b.internedBlobs[b.getInternedIndex id]? = some blobs)
    (hseqs : b.internedSeqs[b.getInternedIndex id]? = some seqs)
    (h : Stored chunk blobs seqs (id.chunkOffset / 8) (.trackEvent ted)) :
    b.extract id = some (restored ted, { b with
      allocator := b.allocator.free id
      blobLeaks := fromReleasedUnsafe b.blobLeaks (some ted.packet.blob)
      seqLeaks := fromReleasedUnsafe b.seqLeaks ted.sequenceState }) := by
  obtain ⟨blobIndex, seqIndex, blobOffset, bwo, hwords, hbi, hsi, hbo, hbwo, hblob, hoffset, hseq⟩ := h
  have hholds : Holds (fun i => chunk.allocation (id.chunkOffset / 8 + i)) 0
      ((descriptorAt ted blobIndex seqIndex blobOffset).toWord :: ted.packet.length ::
        TraceTokenBuffer.optionalWords ted) := by
    intro i hi
    simpa using hwords i hi
  obtain ⟨hdesc, hholds⟩ := hholds.cons
  obtain ⟨hsize, hholds⟩ := hholds.cons
  obtain ⟨hinstr, hholds⟩ := extractIf_eq hholds
  obtain ⟨hts, hholds⟩ := extractIf_eq hholds
  obtain ⟨hcounter, hholds⟩ := extractIf_eq hholds
  have hcounterFlag : (if ted.counterValue.isZero then none else some ted.counterValue.bits).isSome =
      !ted.counterValue.isZero := by cases ted.counterValue.isZero <;> rfl
  rw [Option.isSome_map] at hinstr hts
  rw [hcounterFlag] at hcounter
  simp only [Nat.zero_add, Nat.add_zero, Nat.reduceAdd] at hdesc hsize hinstr hts hcounter hholds
  simp only [TraceTokenBuffer.extract, hchunk, Option.bind_eq_bind, Option.bind_some, hdesc, hsize, Nat.add_zero,
    TrackEventDataDescriptor.ofWord_toWord, hblobs, hseqs]
  simp only [descriptorAt, BitVec.toNat_ofNat, Nat.mod_eq_of_lt hbi, Nat.mod_eq_of_lt hsi, Nat.mod_eq_of_lt hbo, hbwo,
    hseq, Option.bind_some, ofData_extraCounterCount_toNat, hoffset, hblob]
  simp only [TrackEventDataDescriptor.ofData, hinstr, hts, hcounter, restored, Option.some.injEq, Prod.mk.injEq,
    and_true, TrackEventData.mk.injEq, true_and]
  refine ⟨?_, ?_, ?_, ?_⟩
  · cases ted.threadTimestamp <;> simp
  · cases ted.threadInstructionCount <;> simp
  · cases ted.counterValue.isZero <;> rfl
  · ext i hi
    simp only [Vector.getElem_ofFn]
    by_cases hlt : i < ted.countExtraCounterValues
    · have hword := hholds i (by
        simp only [List.length_map, List.length_take, Vector.length_toList]
        omega)
      rw [if_pos hlt, if_pos hlt]
      refine (congrArg Double.mk hword).trans ?_
      simp
    · rw [if_neg hlt, if_neg hlt]

/-- What holds of the tokens that come back: their packets are shorter than 4 GiB, and no value follows a zero in their
extra counter values. -/
structure TrackEventData.Restorable (ted : TrackEventData) : Prop where
  length_lt : ted.packet.length.toNat < 2 ^ 32
  zeros_last : ∀ i j (_ : i ≤ j) (h : j < kMaxNumExtraCounters), ted.extraCounterValues[i].isZero →
    ted.extraCounterValues[j].isZero

theorem countExtraCounterValues_le_iff (ted : TrackEventData) {j : ℕ} (hj : j < kMaxNumExtraCounters) :
    ted.countExtraCounterValues ≤ j ↔ ∃ i, ∃ (_ : i ≤ j), ted.extraCounterValues[i].isZero := by
  constructor
  · intro hle
    have hlt : ted.extraCounterValues.toList.findIdx (·.isZero) < ted.extraCounterValues.toList.length := by
      rw [Vector.length_toList]
      exact lt_of_le_of_lt hle hj
    refine ⟨ted.countExtraCounterValues, hle, ?_⟩
    have hzero := List.findIdx_getElem (w := hlt)
    simpa [TrackEventData.countExtraCounterValues] using hzero
  · rintro ⟨i, hij, hzero⟩
    refine le_trans ?_ hij
    by_contra hlt
    have hnot := List.not_of_lt_findIdx (not_le.mp hlt)
    simp [hzero] at hnot

/-- What comes back is equal exactly if the token is restorable. -/
theorem restored_same_iff (ted : TrackEventData) : (restored ted).Same ted ↔ ted.Restorable := by
  have hlength : ted.packet.length.toUInt32.toUInt64 = ted.packet.length ↔ ted.packet.length.toNat < 2 ^ 32 := by
    rw [← UInt64.toNat_inj]
    simp only [UInt32.toNat_toUInt64, UInt64.toNat_toUInt32]
    omega
  constructor
  · intro h
    refine ⟨hlength.mp (congrArg TraceBlobView.length h.packet), fun i j hij hj hzero => ?_⟩
    have hle := (countExtraCounterValues_le_iff ted hj).mpr ⟨i, hij, hzero⟩
    have hsame := h.extraCounterValues j hj
    simp only [restored, Vector.getElem_ofFn, if_neg (not_lt.mpr hle)] at hsame
    rcases hsame with heq | hsame
    · rw [← heq]
      rfl
    · exact hsame.2
  · intro h
    refine ⟨?_, rfl, rfl, rfl, ?_, fun j hj => ?_⟩
    · simp only [restored, hlength.mpr h.length_lt]
    · by_cases hzero : ted.counterValue.isZero
      · simp only [restored, if_pos hzero]
        exact .inr ⟨rfl, hzero⟩
      · simp only [restored, if_neg hzero]
        exact .inl rfl
    · simp only [restored, Vector.getElem_ofFn]
      by_cases hlt : j < ted.countExtraCounterValues
      · rw [if_pos hlt]
        exact .inl rfl
      · obtain ⟨i, hij, hzero⟩ := (countExtraCounterValues_le_iff ted hj).mp (not_lt.mp hlt)
        rw [if_neg hlt]
        exact .inr ⟨rfl, h.zeros_last i j hij hj hzero⟩

/-! ### Interning -/

theorem getElem?_append_of_eq {α : Type} {l l' : List α} {x : α} (h : l[q]? = some x) : (l ++ l')[q]? = some x := by
  rw [List.getElem?_append_left (List.getElem?_eq_some_iff.mp h).1, h]

theorem set_of_getElem? {α : Type} {l : List α} {x : α} (h : l[q]? = some x) : l.set q x = l := by
  obtain ⟨hq, rfl⟩ := List.getElem?_eq_some_iff.mp h
  exact List.set_getElem_self hq

namespace TraceTokenBuffer

theorem addTraceBlob_eq {tbv : TraceBlobView} (h : b.internedBlobs[q]? = some blobs) (hroom : blobs.length < 65535) :
    b.addTraceBlob q tbv = some (0, { b with
      internedBlobs := b.internedBlobs.set q (blobs ++ [⟨tbv.blob, tbv.offset⟩])
      blobLeaks := releaseUnsafe b.blobLeaks tbv.blob }) := by
  simp only [addTraceBlob, h, Option.bind_eq_bind, Option.bind_some]
  rw [if_pos (by simp only [List.length_append, List.length_singleton]; omega)]

/-- The last entry of the table is the blob at an offset that the relative offset leads on from. -/
theorem internTraceBlob_spec (tbv : TraceBlobView) (h : b.internedBlobs[q]? = some blobs) (hroom : blobs.length < 65535)
    :
    ∃ added off bwo, b.internTraceBlob q tbv = some (off, { b with
        internedBlobs := b.internedBlobs.set q (blobs ++ added)
        blobLeaks := releaseUnsafe b.blobLeaks tbv.blob }) ∧
      added.length ≤ 1 ∧ (blobs ++ added)[(blobs ++ added).length - 1]? = some bwo ∧ bwo.blob = tbv.blob ∧
      off < 2 ^ 25 ∧ bwo.offsetInBlob + .ofNat off = tbv.offset := by
  have hadd (heq : b.internTraceBlob q tbv = b.addTraceBlob q tbv) :
      ∃ added off bwo, b.internTraceBlob q tbv = some (off, { b with
          internedBlobs := b.internedBlobs.set q (blobs ++ added)
          blobLeaks := releaseUnsafe b.blobLeaks tbv.blob }) ∧
        added.length ≤ 1 ∧ (blobs ++ added)[(blobs ++ added).length - 1]? = some bwo ∧ bwo.blob = tbv.blob ∧
        off < 2 ^ 25 ∧ bwo.offsetInBlob + .ofNat off = tbv.offset := by
    rw [heq, addTraceBlob_eq h hroom]
    exact ⟨[⟨tbv.blob, tbv.offset⟩], 0, ⟨tbv.blob, tbv.offset⟩, rfl, by simp, by simp, rfl, by decide, by simp⟩
  rcases List.eq_nil_or_concat' blobs with rfl | ⟨front, lastBlob, rfl⟩
  · exact hadd (by simp [internTraceBlob, h])
  · by_cases hblob : lastBlob.blob = tbv.blob
    · by_cases hback : lastBlob.offsetInBlob > tbv.offset
      · exact hadd (by simp [internTraceBlob, h, hback])
      · by_cases hfar : (tbv.offset - lastBlob.offsetInBlob).toNat >
            TrackEventDataDescriptor.kMaxOffsetFromInternedBlob
        · exact hadd (by simp [internTraceBlob, h, hblob, hback, hfar])
        · refine ⟨[], (tbv.offset - lastBlob.offsetInBlob).toNat, lastBlob, ?_, by simp, by simp, hblob, ?_, ?_⟩
          · simp only [internTraceBlob, h, Option.bind_eq_bind, Option.bind_some, List.getLast?_concat, hblob, hback,
              hfar, ne_eq, not_true_eq_false, if_false, List.append_nil]
            rw [set_of_getElem? h]
          · rw [TrackEventDataDescriptor.kMaxOffsetFromInternedBlob] at hfar
            omega
          · rw [UInt64.ofNat_toNat]
            grind
    · exact hadd (by simp [internTraceBlob, h, hblob])

/-- The index leads to the sequence state. -/
theorem internSeqState_spec (ptr : Option ℕ) (h : b.internedSeqs[q]? = some seqs) (hroom : seqs.length < 65535) :
    ∃ added index, b.internSeqState q ptr = some (index, { b with
        internedSeqs := b.internedSeqs.set q (seqs ++ added)
        seqLeaks := releaseUnsafe b.seqLeaks ptr }) ∧
      added.length ≤ 1 ∧ index < 2 ^ 16 ∧ (seqs ++ added)[index]? = some ptr := by
  simp only [internSeqState, h, Option.bind_eq_bind, Option.bind_some]
  split
  · rename_i i hfind
    have hat := List.find?_some hfind
    refine ⟨[], seqs.length - 1 - i, ?_, by simp, by omega, by simpa using hat⟩
    rw [List.append_nil, set_of_getElem? h]
  · refine ⟨[ptr], seqs.length, ?_, by simp, by omega, by simp⟩
    rw [if_pos (by simp only [List.length_append, List.length_singleton]; omega)]
    simp

end TraceTokenBuffer

/-! ### Chunks and their tables -/

/-- A chunk and its interning tables. -/
structure Area (b : TraceTokenBuffer) (q : ℕ) (chunk : Chunk) (blobs : List BlobWithOffset)
    (seqs : List (Option ℕ)) : Prop where
  chunk_eq : b.allocator.chunks[q]? = some chunk
  blobs_eq : b.internedBlobs[q]? = some blobs
  seqs_eq : b.internedSeqs[q]? = some seqs

/-- As many tables as chunks. -/
structure InStep (b : TraceTokenBuffer) : Prop where
  blobs_length : b.internedBlobs.length = b.allocator.chunks.length
  seqs_length : b.internedSeqs.length = b.allocator.chunks.length

/-- The buffer with a chunk more. -/
def TraceTokenBuffer.grow (b : TraceTokenBuffer) : TraceTokenBuffer :=
  { b with
    allocator := b.allocator.addChunk
    internedBlobs := b.internedBlobs ++ [[]]
    internedSeqs := b.internedSeqs ++ [[]] }

/-- The buffer with another chunk and other tables at a place. -/
def TraceTokenBuffer.setArea (b : TraceTokenBuffer) (q : ℕ) (chunk : Chunk) (blobs : List BlobWithOffset)
    (seqs : List (Option ℕ)) : TraceTokenBuffer :=
  { b with
    allocator := { b.allocator with chunks := b.allocator.chunks.set q chunk }
    internedBlobs := b.internedBlobs.set q blobs
    internedSeqs := b.internedSeqs.set q seqs }

theorem InStep.grow (h : InStep b) : InStep b.grow :=
  ⟨by simp [TraceTokenBuffer.grow, h.blobs_length], by simp [TraceTokenBuffer.grow, h.seqs_length]⟩

theorem InStep.area (h : InStep b) (hchunk : b.allocator.chunks[q]? = some chunk) :
    ∃ blobs seqs, Area b q chunk blobs seqs := by
  obtain ⟨hq, -⟩ := List.getElem?_eq_some_iff.mp hchunk
  have hblobs : q < b.internedBlobs.length := h.blobs_length ▸ hq
  have hseqs : q < b.internedSeqs.length := h.seqs_length ▸ hq
  exact ⟨b.internedBlobs[q], b.internedSeqs[q], hchunk, List.getElem?_eq_getElem _, List.getElem?_eq_getElem _⟩

theorem Area.lt (h : Area b q chunk blobs seqs) : q < b.allocator.chunks.length :=
  (List.getElem?_eq_some_iff.mp h.chunk_eq).1

theorem Area.grow (h : Area b q chunk blobs seqs) : Area b.grow q chunk blobs seqs where
  chunk_eq := getElem?_append_of_eq h.chunk_eq
  blobs_eq := getElem?_append_of_eq h.blobs_eq
  seqs_eq := getElem?_append_of_eq h.seqs_eq

theorem Area.of_grow (hstep : InStep b) (h : Area b.grow q chunk blobs seqs) :
    Area b q chunk blobs seqs ∨ (q = b.allocator.chunks.length ∧ chunk = { } ∧ blobs = [] ∧ seqs = []) := by
  obtain ⟨hchunk, hblobs, hseqs⟩ := h
  simp only [TraceTokenBuffer.grow, BumpAllocator.addChunk_chunks] at hchunk hblobs hseqs
  rcases lt_or_ge q b.allocator.chunks.length with hlt | hge
  · rw [List.getElem?_append_left hlt] at hchunk
    rw [List.getElem?_append_left (hstep.blobs_length ▸ hlt)] at hblobs
    rw [List.getElem?_append_left (hstep.seqs_length ▸ hlt)] at hseqs
    exact .inl ⟨hchunk, hblobs, hseqs⟩
  · rw [List.getElem?_append_right hge, List.getElem?_singleton] at hchunk
    rw [List.getElem?_append_right (hstep.blobs_length ▸ hge), List.getElem?_singleton, hstep.blobs_length] at hblobs
    rw [List.getElem?_append_right (hstep.seqs_length ▸ hge), List.getElem?_singleton, hstep.seqs_length] at hseqs
    split at hchunk
    · rename_i hq
      rw [if_pos hq, Option.some.injEq] at hblobs hseqs
      rw [Option.some.injEq] at hchunk
      exact .inr ⟨by omega, hchunk.symm, hblobs.symm, hseqs.symm⟩
    · simp at hchunk

theorem Area.set_self (h : Area b q chunk blobs seqs) (chunk' : Chunk) (blobs' : List BlobWithOffset)
    (seqs' : List (Option ℕ)) : Area (b.setArea q chunk' blobs' seqs') q chunk' blobs' seqs' where
  chunk_eq := by simp [TraceTokenBuffer.setArea, (List.getElem?_eq_some_iff.mp h.chunk_eq).1]
  blobs_eq := by simp [TraceTokenBuffer.setArea, (List.getElem?_eq_some_iff.mp h.blobs_eq).1]
  seqs_eq := by simp [TraceTokenBuffer.setArea, (List.getElem?_eq_some_iff.mp h.seqs_eq).1]

theorem area_setArea_of_ne {q' : ℕ} (hne : q ≠ q') {blobs' : List BlobWithOffset} {seqs' : List (Option ℕ)} :
    Area (b.setArea q chunk' blobs' seqs') q' chunk blobs seqs ↔ Area b q' chunk blobs seqs := by
  constructor
  · rintro ⟨hchunk, hblobs, hseqs⟩
    simp only [TraceTokenBuffer.setArea, List.getElem?_set_ne hne] at hchunk hblobs hseqs
    exact ⟨hchunk, hblobs, hseqs⟩
  · rintro ⟨hchunk, hblobs, hseqs⟩
    constructor <;> simpa only [TraceTokenBuffer.setArea, List.getElem?_set_ne hne]

theorem Area.unique {blobs' : List BlobWithOffset} {seqs' : List (Option ℕ)} (h : Area b q chunk blobs seqs)
    (h' : Area b q chunk' blobs' seqs') : chunk' = chunk ∧ blobs' = blobs ∧ seqs' = seqs :=
  ⟨Option.some.inj (h'.chunk_eq.symm.trans h.chunk_eq), Option.some.inj (h'.blobs_eq.symm.trans h.blobs_eq),
    Option.some.inj (h'.seqs_eq.symm.trans h.seqs_eq)⟩

/-! ### Runs -/

namespace TraceTokenBuffer

/-- `Append` of either kind of token. -/
def appendToken (b : TraceTokenBuffer) : Token → Option (AllocId × TraceTokenBuffer)
  | .trackEvent ted => b.append ted
  | .object words _ => b.appendObject words

/-- `Extract` of a token of the same kind: the buffer that remains. -/
def extractToken (b : TraceTokenBuffer) (id : AllocId) : Token → Option TraceTokenBuffer
  | .trackEvent _ => (b.extract id).map (·.2)
  | .object words _ => (b.extractObject id words.length).map (·.2)

end TraceTokenBuffer

inductive TokenCall
  | append (t : Token)
  | extract (id : AllocId)
  | freeMemory

/-- The buffer, with the tokens not yet extracted. -/
structure TokenSystem where
  buffer : TraceTokenBuffer := { }
  live : List (AllocId × Token) := []

namespace TokenSystem

/-- A call.  Only the id of a token not yet extracted may be extracted. -/
def step (s : TokenSystem) : TokenCall → Option TokenSystem
  | .append t => (s.buffer.appendToken t).map fun (id, buffer) => ⟨buffer, (id, t) :: s.live⟩
  | .extract id => do
    let t ← s.live.lookup id
    let buffer ← s.buffer.extractToken id t
    some ⟨buffer, s.live.eraseP (·.1 = id)⟩
  | .freeMemory => some ⟨s.buffer.freeMemory, s.live⟩

def run (calls : List TokenCall) (s : TokenSystem) : Option TokenSystem := calls.foldlM step s

end TokenSystem

/-- Where a token not yet extracted lies. -/
structure Lies (b : TraceTokenBuffer) (e : AllocId × Token) (q : ℕ) (chunk : Chunk) (blobs : List BlobWithOffset)
    (seqs : List (Option ℕ)) : Prop where
  area : Area b q chunk blobs seqs
  chunkIndex : e.1.chunkIndex = b.allocator.erasedFrontChunksCount + q
  aligned : e.1.chunkOffset % 8 = 0
  below : e.1.chunkOffset + e.2.size ≤ chunk.bumpOffset
  stored : Stored chunk blobs seqs (e.1.chunkOffset / 8) e.2

/-- What holds of a chunk and its tables: the tables have no more entries than there are allocations. -/
structure AreaFits (chunk : Chunk) (blobs : List BlobWithOffset) (seqs : List (Option ℕ)) : Prop where
  aligned : chunk.bumpOffset % 8 = 0
  fits : chunk.bumpOffset ≤ kChunkSize
  blobs : 16 * blobs.length ≤ chunk.bumpOffset
  seqs : 16 * seqs.length ≤ chunk.bumpOffset

/-- The token was allocated in the chunk. -/
def inChunk (chunkIndex : ℕ) (e : AllocId × Token) : Bool := e.1.chunkIndex = chunkIndex

@[simp] theorem inChunk_iff {chunkIndex : ℕ} {e : AllocId × Token} :
    inChunk chunkIndex e ↔ e.1.chunkIndex = chunkIndex := by
  simp [inChunk]

/-- The invariant of a run. -/
structure Consistent (s : TokenSystem) : Prop where
  inStep : InStep s.buffer
  ids_nodup : (s.live.map Prod.fst).Nodup
  lies : ∀ e ∈ s.live, ∃ q chunk blobs seqs, Lies s.buffer e q chunk blobs seqs
  fits : ∀ q chunk blobs seqs, Area s.buffer q chunk blobs seqs → AreaFits chunk blobs seqs
  unfreed : ∀ q chunk, s.buffer.allocator.chunks[q]? = some chunk → chunk.unfreedAllocations =
    s.live.countP (inChunk (s.buffer.allocator.erasedFrontChunksCount + q))
  blobLeaks : ∀ p, s.buffer.blobLeaks p = s.live.countP (·.2.blob = some p)
  seqLeaks : ∀ p, s.buffer.seqLeaks p = s.live.countP (·.2.seq = some p)

/-! ### Appending keeps the invariant -/

theorem Token.size_ge (t : Token) : 8 ≤ t.size := by
  rcases t with ted | ⟨words, hne⟩
  · simp only [Token.size, TrackEventDataDescriptor.getAllocSize]
    omega
  · have hpos := List.length_pos_iff.mpr hne
    simp only [Token.size]
    omega

variable {s : TokenSystem}

/-- The places of a chunk say which live tokens lie in it. -/
theorem Consistent.countP_eq_zero (h : Consistent s) (hq : s.buffer.allocator.chunks.length ≤ q) :
    s.live.countP (inChunk (s.buffer.allocator.erasedFrontChunksCount + q)) = 0 := by
  rw [List.countP_eq_zero]
  intro e he
  obtain ⟨q', chunk, blobs, seqs, hlies⟩ := h.lies e he
  have hlt := hlies.area.lt
  have hindex := hlies.chunkIndex
  rw [inChunk_iff]
  omega

theorem Consistent.grow (h : Consistent s) : Consistent ⟨s.buffer.grow, s.live⟩ where
  inStep := h.inStep.grow
  ids_nodup := h.ids_nodup
  lies e he := by
    obtain ⟨q, chunk, blobs, seqs, hlies⟩ := h.lies e he
    exact ⟨q, chunk, blobs, seqs, hlies.area.grow, hlies.chunkIndex, hlies.aligned, hlies.below, hlies.stored⟩
  fits q chunk blobs seqs harea := by
    rcases harea.of_grow h.inStep with hold | ⟨-, rfl, rfl, rfl⟩
    · exact h.fits q chunk blobs seqs hold
    · exact ⟨rfl, by simp, by simp, by simp⟩
  unfreed q chunk hchunk := by
    obtain ⟨blobs, seqs, harea⟩ := h.inStep.grow.area hchunk
    rcases harea.of_grow h.inStep with hold | ⟨rfl, rfl, -, -⟩
    · exact h.unfreed q chunk hold.chunk_eq
    · exact (h.countP_eq_zero le_rfl).symm
  blobLeaks := h.blobLeaks
  seqLeaks := h.seqLeaks

theorem releaseUnsafe_apply (leaks : ℕ → ℕ) (ptr : Option ℕ) (p : ℕ) :
    releaseUnsafe leaks ptr p = leaks p + if ptr = some p then 1 else 0 := by
  cases ptr with
  | none => rfl
  | some p' =>
    by_cases heq : p' = p
    · simp [releaseUnsafe, heq]
    · have hne : p ≠ p' := fun h => heq h.symm
      simp [releaseUnsafe, heq, Function.update_of_ne hne]

variable {t : Token}

theorem Stored.mono {added : List BlobWithOffset} {added' : List (Option ℕ)} (h : Stored chunk blobs seqs ptr t)
    (hwords : ∀ words : List UInt64, words.length * 8 = t.size → Holds chunk.allocation ptr words →
      Holds chunk'.allocation ptr words) : Stored chunk' (blobs ++ added) (seqs ++ added') ptr t := by
  rcases t with ted | ⟨words, hne⟩
  · obtain ⟨blobIndex, seqIndex, blobOffset, bwo, hholds, hbi, hsi, hbo, hbwo, hblob, hoffset, hseq⟩ := h
    exact ⟨blobIndex, seqIndex, blobOffset, bwo, hwords _ (size_trackEvent ted _).symm hholds, hbi, hsi, hbo,
      getElem?_append_of_eq hbwo, hblob, hoffset, getElem?_append_of_eq hseq⟩
  · exact hwords words rfl h

/-- A token more in the last chunk. -/
theorem Consistent.appendAt (h : Consistent s) {added : List BlobWithOffset} {added' : List (Option ℕ)}
    (harea : Area s.buffer q chunk blobs seqs) (hwords : words.length * 8 = t.size)
    (hfits : chunk.bumpOffset + t.size ≤ kChunkSize) (hadded : 16 * added.length ≤ t.size)
    (hadded' : 16 * added'.length ≤ t.size) (hchunk' : chunk' = (chunk.bump t.size).write (chunk.bumpOffset / 8) words)
    (hstored : Stored chunk' (blobs ++ added) (seqs ++ added') (chunk.bumpOffset / 8) t) :
    Consistent ⟨{ s.buffer.setArea q chunk' (blobs ++ added) (seqs ++ added') with
      blobLeaks := releaseUnsafe s.buffer.blobLeaks t.blob
      seqLeaks := releaseUnsafe s.buffer.seqLeaks t.seq },
      (⟨s.buffer.allocator.erasedFrontChunksCount + q, chunk.bumpOffset⟩, t) :: s.live⟩ := by
  have hold := h.fits q chunk blobs seqs harea
  have hbump : chunk'.bumpOffset = chunk.bumpOffset + t.size := by rw [hchunk']; rfl
  have hnew := harea.set_self chunk' (blobs ++ added) (seqs ++ added')
  have hsize := t.size_ge
  refine ⟨⟨?_, ?_⟩, ?_, ?_, ?_, ?_, ?_, ?_⟩
  · simpa [TraceTokenBuffer.setArea] using h.inStep.blobs_length
  · simpa [TraceTokenBuffer.setArea] using h.inStep.seqs_length
  · simp only [List.map_cons, List.nodup_cons]
    refine ⟨fun hmem => ?_, h.ids_nodup⟩
    obtain ⟨e, he, heq⟩ := List.mem_map.mp hmem
    obtain ⟨q', chunk₁, blobs₁, seqs₁, hlies⟩ := h.lies e he
    -- a live token of this chunk ends below the new one
    have hindex := hlies.chunkIndex
    rw [heq] at hindex
    obtain rfl : q' = q := by simpa using hindex.symm
    obtain ⟨rfl, -, -⟩ := harea.unique hlies.area
    have hbelow := hlies.below
    have hpos := e.2.size_ge
    rw [heq] at hbelow
    dsimp only at hbelow
    omega
  · intro e he
    rcases List.mem_cons.mp he with rfl | he
    · refine ⟨q, chunk', _, _, ⟨hnew.chunk_eq, hnew.blobs_eq, hnew.seqs_eq⟩, rfl, hold.aligned, ?_, hstored⟩
      rw [hbump]
    · obtain ⟨q', chunk₁, blobs₁, seqs₁, hlies⟩ := h.lies e he
      by_cases hq : q = q'
      · subst hq
        obtain ⟨rfl, rfl, rfl⟩ := harea.unique hlies.area
        have hbelow := hlies.below
        refine ⟨q, chunk', _, _, ⟨hnew.chunk_eq, hnew.blobs_eq, hnew.seqs_eq⟩, hlies.chunkIndex, hlies.aligned, ?_, ?_⟩
        · rw [hbump]
          omega
        · refine hlies.stored.mono fun words₁ hlen hholds => ?_
          rw [hchunk']
          have hbumped : Holds (chunk₁.bump t.size).allocation (e.1.chunkOffset / 8) words₁ := hholds
          refine hbumped.write ?_
          have haligned := hlies.aligned
          have haligned' := hold.aligned
          omega
      · have hkeep : Area (s.buffer.setArea q chunk' (blobs ++ added) (seqs ++ added')) q' chunk₁ blobs₁ seqs₁ :=
          (area_setArea_of_ne hq).mpr hlies.area
        exact ⟨q', chunk₁, blobs₁, seqs₁, ⟨hkeep.chunk_eq, hkeep.blobs_eq, hkeep.seqs_eq⟩, hlies.chunkIndex,
          hlies.aligned, hlies.below, hlies.stored⟩
  · intro q' chunk₁ blobs₁ seqs₁ harea₁
    have harea₁ : Area (s.buffer.setArea q chunk' (blobs ++ added) (seqs ++ added')) q' chunk₁ blobs₁ seqs₁ :=
      ⟨harea₁.chunk_eq, harea₁.blobs_eq, harea₁.seqs_eq⟩
    by_cases hq : q = q'
    · subst hq
      obtain ⟨rfl, rfl, rfl⟩ := hnew.unique harea₁
      have hblobs := hold.blobs
      have hseqs := hold.seqs
      have haligned := hold.aligned
      have hsize8 : t.size % 8 = 0 := by omega
      constructor <;> rw [hbump]
      · omega
      · omega
      · rw [List.length_append]
        omega
      · rw [List.length_append]
        omega
    · exact h.fits q' chunk₁ blobs₁ seqs₁ ((area_setArea_of_ne hq).mp harea₁)
  · intro q' chunk₁ hchunk₁
    have hcount := h.unfreed
    rw [List.countP_cons]
    by_cases hq : q = q'
    · subst hq
      have heq : chunk₁ = chunk' := Option.some.inj (hchunk₁.symm.trans hnew.chunk_eq)
      have hunfreed : chunk'.unfreedAllocations = chunk.unfreedAllocations + 1 := by rw [hchunk']; rfl
      rw [heq, hunfreed, hcount q chunk harea.chunk_eq]
      simp [TraceTokenBuffer.setArea]
    · have hkeep : s.buffer.allocator.chunks[q']? = some chunk₁ := by
        simpa only [TraceTokenBuffer.setArea, List.getElem?_set_ne hq] using hchunk₁
      rw [hcount q' chunk₁ hkeep]
      simp [TraceTokenBuffer.setArea, hq]
  · intro p
    simp only [releaseUnsafe_apply, List.countP_cons, h.blobLeaks p, decide_eq_true_eq]
  · intro p
    simp only [releaseUnsafe_apply, List.countP_cons, h.seqLeaks p, decide_eq_true_eq]

theorem allocAndResize_cases {b₁ : TraceTokenBuffer} (hstep : InStep b) {size : ℕ}
    (h : b.allocAndResizeInternedVectors size = some (id, b₁)) :
    ∃ b₀ q chunk blobs seqs, (b₀ = b ∨ b₀ = b.grow) ∧ Area b₀ q chunk blobs seqs ∧
      q + 1 = b₀.allocator.chunks.length ∧ chunk.bumpOffset + size ≤ kChunkSize ∧ id = ⟨b₀.allocator.erasedFrontChunksCount + q, chunk.bumpOffset⟩ ∧
      b₁ = b₀.setArea q (chunk.bump size) blobs seqs := by
  simp only [TraceTokenBuffer.allocAndResizeInternedVectors, Option.bind_eq_bind] at h
  obtain ⟨⟨id', allocator⟩, halloc, hb⟩ := Option.bind_eq_some_iff.mp h
  rw [Option.some.injEq, Prod.mk.injEq] at hb
  obtain ⟨rfl, hb⟩ := hb
  obtain ⟨b₀, q, chunk, hb₀, hq, hchunk, hfits, rfl, rfl⟩ := BumpAllocator.alloc_cases halloc
  rcases hb₀ with rfl | rfl
  · have hadded : b.allocator.erasedFrontChunksCount + q - b.allocator.erasedFrontChunksCount + 1 -
        b.internedBlobs.length = 0 := by
      rw [hstep.blobs_length]
      omega
    obtain ⟨blobs, seqs, harea⟩ := hstep.area hchunk
    refine ⟨b, q, chunk, blobs, seqs, .inl rfl, harea, hq, hfits, rfl, ?_⟩
    rw [← hb, TraceTokenBuffer.setArea, set_of_getElem? harea.blobs_eq, set_of_getElem? harea.seqs_eq]
    simp only [hadded, List.replicate_zero, List.append_nil]
  · have hadded : b.allocator.erasedFrontChunksCount + q - b.allocator.erasedFrontChunksCount + 1 -
        b.internedBlobs.length = 1 := by
      rw [hstep.blobs_length, Nat.add_sub_cancel_left, hq]
      simp
    obtain ⟨blobs, seqs, harea⟩ := hstep.grow.area (b := b.grow) hchunk
    refine ⟨b.grow, q, chunk, blobs, seqs, .inr rfl, harea, hq, hfits, rfl, ?_⟩
    rw [← hb, TraceTokenBuffer.setArea, set_of_getElem? harea.blobs_eq, set_of_getElem? harea.seqs_eq]
    simp only [BumpAllocator.addChunk_erasedFrontChunksCount, hadded, List.replicate_one]
    rfl

/-- A token written to its chunk. -/
theorem store_setArea {chunk₀ : Chunk} {blobs₀ : List BlobWithOffset} {seqs₀ : List (Option ℕ)}
    (harea : Area b q chunk₀ blobs₀ seqs₀) (chunk : Chunk) (off : ℕ) (words : List UInt64) :
    ({ b.allocator with chunks := b.allocator.chunks.set q chunk } : BumpAllocator).store
        ⟨b.allocator.erasedFrontChunksCount + q, off⟩ words =
      { b.allocator with chunks := b.allocator.chunks.set q (chunk.write (off / 8) words) } := by
  have hq := harea.lt
  simp [BumpAllocator.store, BumpAllocator.queueIndex, List.modify_eq_set_getElem?, hq]

/-- What `Append` does once the memory is allocated. -/
theorem appendToken_eq {b₀ : TraceTokenBuffer} (harea : Area b₀ q chunk blobs seqs) (hfits : AreaFits chunk blobs seqs)
    (t : Token)
    (h : b.allocAndResizeInternedVectors t.size = some (⟨b₀.allocator.erasedFrontChunksCount + q, chunk.bumpOffset⟩,
      b₀.setArea q (chunk.bump t.size) blobs seqs)) :
    ∃ added added' words chunk', words.length * 8 = t.size ∧ 16 * added.length ≤ t.size ∧
      16 * added'.length ≤ t.size ∧ chunk' = (chunk.bump t.size).write (chunk.bumpOffset / 8) words ∧
      Stored chunk' (blobs ++ added) (seqs ++ added') (chunk.bumpOffset / 8) t ∧
      b.appendToken t = some (⟨b₀.allocator.erasedFrontChunksCount + q, chunk.bumpOffset⟩,
        { b₀.setArea q chunk' (blobs ++ added) (seqs ++ added') with
          blobLeaks := releaseUnsafe b₀.blobLeaks t.blob
          seqLeaks := releaseUnsafe b₀.seqLeaks t.seq }) := by
  rcases t with ted | ⟨words, hne⟩
  · have hroom := hfits.fits
    have hblobsRoom := hfits.blobs
    have hseqsRoom := hfits.seqs
    rw [kChunkSize] at hroom
    have hset := harea.set_self (chunk.bump (Token.trackEvent ted).size) blobs seqs
    obtain ⟨added, off, bwo, hintern, hadded, hbwo, hblob, hoff, hoffset⟩ :=
      TraceTokenBuffer.internTraceBlob_spec ted.packet hset.blobs_eq (by omega)
    obtain ⟨added', index, hinternSeq, hadded', hindex, hseq⟩ :=
      TraceTokenBuffer.internSeqState_spec (b := { b₀.setArea q (chunk.bump (Token.trackEvent ted).size) blobs seqs with
        internedBlobs := (b₀.internedBlobs.set q blobs).set q (blobs ++ added)
        blobLeaks := releaseUnsafe b₀.blobLeaks ted.packet.blob }) ted.sequenceState hset.seqs_eq (by omega)
    have hsize := size_trackEvent ted
      (descriptorAt ted ((blobs ++ added).length - 1) index off).toWord
    have hge : 16 ≤ (Token.trackEvent ted).size := by
      simp only [Token.size, TrackEventDataDescriptor.getAllocSize]
      omega
    refine ⟨added, added', _, _, hsize.symm, by omega, by omega, rfl, ?_, ?_⟩
    · refine ⟨(blobs ++ added).length - 1, index, off, bwo, Chunk.write_holds _ _ _, ?_, hindex, hoff, hbwo, hblob,
        hoffset, hseq⟩
      rw [List.length_append]
      omega
    · have hq := (List.getElem?_eq_some_iff.mp harea.blobs_eq).1
      have hindexOf : (b₀.setArea q (chunk.bump (Token.trackEvent ted).size) blobs seqs).getInternedIndex
          ⟨b₀.allocator.erasedFrontChunksCount + q, chunk.bumpOffset⟩ = q := by
        simp [TraceTokenBuffer.getInternedIndex, TraceTokenBuffer.setArea]
      simp only [TraceTokenBuffer.appendToken, TraceTokenBuffer.append]
      rw [show (TrackEventDataDescriptor.ofData ted).getAllocSize = (Token.trackEvent ted).size from rfl, h]
      simp only [Option.bind_eq_bind, Option.bind_some, hindexOf, hintern]
      simp only [TraceTokenBuffer.setArea] at hinternSeq ⊢
      simp only [List.set_set] at hinternSeq ⊢
      simp only [List.getElem?_set_self hq, Option.bind_some, hinternSeq, store_setArea harea]
      rfl
  · refine ⟨[], [], words, _, rfl, by simp, by simp, rfl, ?_, ?_⟩
    · exact Chunk.write_holds _ _ _
    · simp only [TraceTokenBuffer.appendToken, TraceTokenBuffer.appendObject]
      rw [show words.length * 8 = (Token.object words hne).size from rfl, h]
      simp only [Option.bind_eq_bind, Option.bind_some, List.append_nil]
      simp only [TraceTokenBuffer.setArea, store_setArea harea]
      rfl

/-- `Append` keeps the invariant, and the new id is after those of the tokens not yet extracted. -/
theorem Consistent.append (hs : Consistent s) (h : s.buffer.appendToken t = some (id, b)) :
    Consistent ⟨b, (id, t) :: s.live⟩ ∧ ∀ e ∈ s.live, e.1.lt id := by
  have halloc : ∃ r, s.buffer.allocAndResizeInternedVectors t.size = some r := by
    rcases halloc : s.buffer.allocAndResizeInternedVectors t.size with _ | r
    · rcases t with ted | ⟨words, hne⟩
      · rw [Token.size] at halloc
        simp [TraceTokenBuffer.appendToken, TraceTokenBuffer.append, halloc] at h
      · rw [Token.size] at halloc
        simp [TraceTokenBuffer.appendToken, TraceTokenBuffer.appendObject, halloc] at h
    · exact ⟨r, rfl⟩
  obtain ⟨⟨id', b₁⟩, halloc⟩ := halloc
  obtain ⟨b₀, q, chunk, blobs, seqs, hb₀, harea, hlast, hfits, rfl, rfl⟩ := allocAndResize_cases hs.inStep halloc
  have hs₀ : Consistent ⟨b₀, s.live⟩ := by
    rcases hb₀ with rfl | rfl
    · exact hs
    · exact hs.grow
  obtain ⟨added, added', words, chunk', hwords, hadded, hadded', hchunk', hstored, heq⟩ :=
    appendToken_eq harea (hs₀.fits q chunk blobs seqs harea) t halloc
  rw [heq, Option.some.injEq, Prod.mk.injEq] at h
  obtain ⟨rfl, rfl⟩ := h
  refine ⟨hs₀.appendAt harea hwords hfits hadded hadded' hchunk' hstored, fun e he => ?_⟩
  obtain ⟨q', chunk₁, blobs₁, seqs₁, hlies⟩ := hs₀.lies e he
  have hlt := hlies.area.lt
  have hindex := hlies.chunkIndex
  rcases Nat.lt_or_ge q' q with hbefore | hge
  · refine .inl ?_
    dsimp only at hindex ⊢
    omega
  · obtain rfl : q' = q := by
      dsimp only at hlt
      omega
    obtain ⟨rfl, -, -⟩ := harea.unique hlies.area
    have hbelow := hlies.below
    have hpos := e.2.size_ge
    refine .inr ⟨hindex, ?_⟩
    dsimp only
    omega

/-- `Append` succeeds where the memory can be allocated. -/
theorem Consistent.appendToken_isSome (hs : Consistent s) (h : (s.buffer.allocator.alloc t.size).isSome) :
    ∃ r, s.buffer.appendToken t = some r := by
  obtain ⟨⟨id, allocator⟩, hr⟩ := Option.isSome_iff_exists.mp h
  obtain ⟨⟨id', b₁⟩, halloc⟩ : ∃ r, s.buffer.allocAndResizeInternedVectors t.size = some r := by
    simp only [TraceTokenBuffer.allocAndResizeInternedVectors, hr]
    exact ⟨_, rfl⟩
  obtain ⟨b₀, q, chunk, blobs, seqs, hb₀, harea, -, -, rfl, rfl⟩ := allocAndResize_cases hs.inStep halloc
  have hs₀ : Consistent ⟨b₀, s.live⟩ := by
    rcases hb₀ with rfl | rfl
    · exact hs
    · exact hs.grow
  obtain ⟨_, _, _, _, _, _, _, _, _, hsome⟩ := appendToken_eq harea (hs₀.fits q chunk blobs seqs harea) t halloc
  exact ⟨_, hsome⟩

/-- `Append` fails only when the allocator has used up its chunks. -/
theorem append_eq_none (hs : Consistent s) {ted : TrackEventData} (h : s.buffer.append ted = none) :
    kMaxChunkCount ≤ s.buffer.allocator.erasedFrontChunksCount + s.buffer.allocator.chunks.length := by
  have hnone : s.buffer.allocator.alloc (Token.trackEvent ted).size = none := by
    by_contra hsome
    obtain ⟨r, hr⟩ := hs.appendToken_isSome (Option.isSome_iff_ne_none.mpr hsome)
    exact absurd (hr.symm.trans h) (Option.some_ne_none r)
  refine BumpAllocator.alloc_eq_none ?_ hnone
  have hcount := countExtraCounterValues_le ted
  rw [kMaxNumExtraCounters] at hcount
  have hbool (x : Bool) : x.toNat ≤ 1 := by cases x <;> decide
  have hinstr := hbool (TrackEventDataDescriptor.ofData ted).hasThreadInstructionCount
  have hts := hbool (TrackEventDataDescriptor.ofData ted).hasThreadTimestamp
  have hcounter := hbool (TrackEventDataDescriptor.ofData ted).hasCounterValue
  simp only [Token.size, TrackEventDataDescriptor.getAllocSize, ofData_extraCounterCount_toNat, kChunkSize]
  omega

/-! ### Extracting and freeing keep the invariant -/

theorem Lies.chunkOf {e : AllocId × Token} (h : Lies b e q chunk blobs seqs) :
    b.getInternedIndex e.1 = q ∧ b.allocator.chunkOf e.1 = some chunk := by
  have hindex : e.1.chunkIndex - b.allocator.erasedFrontChunksCount = q := by
    rw [h.chunkIndex]
    omega
  refine ⟨hindex, ?_⟩
  rw [BumpAllocator.chunkOf, BumpAllocator.queueIndex, hindex]
  exact h.area.chunk_eq

/-- A token not yet extracted comes back as `restored`. -/
theorem Consistent.extract (hs : Consistent s) {ted : TrackEventData} (he : (id, .trackEvent ted) ∈ s.live) :
    s.buffer.extract id = some (restored ted, { s.buffer with
      allocator := s.buffer.allocator.free id
      blobLeaks := fromReleasedUnsafe s.buffer.blobLeaks (some ted.packet.blob)
      seqLeaks := fromReleasedUnsafe s.buffer.seqLeaks ted.sequenceState }) := by
  obtain ⟨q, chunk, blobs, seqs, hlies⟩ := hs.lies _ he
  obtain ⟨hindex, hchunk⟩ := hlies.chunkOf
  refine extract_stored hchunk ?_ ?_ hlies.stored
  · rw [hindex]
    exact hlies.area.blobs_eq
  · rw [hindex]
    exact hlies.area.seqs_eq

/-- What `Extract` makes of either kind of token. -/
def restoredToken : Token → Token
  | .trackEvent ted => .trackEvent (restored ted)
  | .object words nonempty => .object words nonempty

theorem Consistent.extractObject (hs : Consistent s) {nonempty : words ≠ []}
    (he : (id, .object words nonempty) ∈ s.live) :
    s.buffer.extractObject id words.length =
      some (words, { s.buffer with allocator := s.buffer.allocator.free id }) := by
  obtain ⟨q, chunk, blobs, seqs, hlies⟩ := hs.lies _ he
  have hwords : ((List.range words.length).map fun i => chunk.allocation (id.chunkOffset / 8 + i)) = words := by
    refine List.ext_getElem (by simp) fun i hi _ => ?_
    rw [List.length_map, List.length_range] at hi
    rw [List.getElem_map, List.getElem_range]
    exact hlies.stored i hi
  simp only [TraceTokenBuffer.extractObject, hlies.chunkOf.2, Option.bind_eq_bind, Option.bind_some, hwords]

theorem Consistent.extractToken (hs : Consistent s) (he : (id, t) ∈ s.live) :
    s.buffer.extractToken id t = some { s.buffer with
      allocator := s.buffer.allocator.free id
      blobLeaks := fromReleasedUnsafe s.buffer.blobLeaks t.blob
      seqLeaks := fromReleasedUnsafe s.buffer.seqLeaks t.seq } := by
  rcases t with ted | ⟨words, hne⟩
  · simp only [TraceTokenBuffer.extractToken, hs.extract he, Option.map_some]
    rfl
  · simp only [TraceTokenBuffer.extractToken, hs.extractObject he, Option.map_some]
    rfl

theorem fromReleasedUnsafe_apply (leaks : ℕ → ℕ) (ptr : Option ℕ) (p : ℕ) :
    fromReleasedUnsafe leaks ptr p = leaks p - if ptr = some p then 1 else 0 := by
  cases ptr with
  | none => rfl
  | some p' =>
    by_cases heq : p' = p
    · simp [fromReleasedUnsafe, heq]
    · have hne : p ≠ p' := fun h => heq h.symm
      simp [fromReleasedUnsafe, heq, Function.update_of_ne hne]

theorem lookup_split {live : List (AllocId × Token)} (h : live.lookup id = some t) :
    ∃ front back, live = front ++ (id, t) :: back ∧ live.eraseP (·.1 = id) = front ++ back := by
  induction live with
  | nil => simp at h
  | cons e live ih =>
    obtain ⟨id', t'⟩ := e
    by_cases heq : id = id'
    · subst heq
      rw [List.lookup_cons_self, Option.some.injEq] at h
      subst h
      exact ⟨[], live, rfl, by simp⟩
    · rw [List.lookup_cons, beq_eq_false_iff_ne.mpr heq] at h
      obtain ⟨front, back, hlive, herase⟩ := ih h
      refine ⟨(id', t') :: front, back, by rw [hlive]; rfl, ?_⟩
      rw [List.eraseP_cons_of_neg (by simpa using fun h => heq h.symm), herase]
      rfl

theorem Consistent.free (hs : Consistent s) {front back : List (AllocId × Token)}
    (hlive : s.live = front ++ (id, t) :: back) :
    Consistent ⟨{ s.buffer with
      allocator := s.buffer.allocator.free id
      blobLeaks := fromReleasedUnsafe s.buffer.blobLeaks t.blob
      seqLeaks := fromReleasedUnsafe s.buffer.seqLeaks t.seq }, front ++ back⟩ := by
  have hmem : ∀ e ∈ front ++ back, e ∈ s.live := by
    intro e he
    rw [hlive]
    rcases List.mem_append.mp he with he | he
    · exact List.mem_append_left _ he
    · exact List.mem_append_right _ (List.mem_cons_of_mem _ he)
  have hcount (p : AllocId × Token → Bool) :
      (front ++ back).countP p = s.live.countP p - if p (id, t) then 1 else 0 := by
    rw [hlive, List.countP_append, List.countP_append, List.countP_cons]
    omega
  -- freeing touches nothing of a chunk but its count
  have hchunks : (s.buffer.allocator.free id).chunks = s.buffer.allocator.chunks.modify
      (s.buffer.allocator.queueIndex id) fun c => { c with unfreedAllocations := c.unfreedAllocations - 1 } := rfl
  have hback : ∀ q chunk, (s.buffer.allocator.free id).chunks[q]? = some chunk →
      ∃ old, s.buffer.allocator.chunks[q]? = some old ∧ chunk = if s.buffer.allocator.queueIndex id = q then
        { old with unfreedAllocations := old.unfreedAllocations - 1 } else old := by
    intro q chunk hq
    rw [hchunks, List.getElem?_modify] at hq
    obtain ⟨old, hold, rfl⟩ := Option.map_eq_some_iff.mp hq
    exact ⟨old, hold, rfl⟩
  refine ⟨⟨?_, ?_⟩, ?_, ?_, ?_, ?_, ?_, ?_⟩
  · simpa [hchunks] using hs.inStep.blobs_length
  · simpa [hchunks] using hs.inStep.seqs_length
  · refine hs.ids_nodup.sublist ?_
    rw [hlive]
    exact ((List.Sublist.refl front).append (List.sublist_cons_self _ _)).map _
  · intro e he
    obtain ⟨q, chunk, blobs, seqs, hlies⟩ := hs.lies e (hmem e he)
    obtain ⟨harea, hindex, haligned, hbelow, hstored⟩ := hlies
    have hq : (s.buffer.allocator.free id).chunks[q]? = some (if s.buffer.allocator.queueIndex id = q then
        { chunk with unfreedAllocations := chunk.unfreedAllocations - 1 } else chunk) := by
      rw [hchunks, List.getElem?_modify, harea.chunk_eq]
      rfl
    refine ⟨q, _, blobs, seqs, ⟨hq, harea.blobs_eq, harea.seqs_eq⟩, hindex, haligned, ?_, ?_⟩
    · split <;> exact hbelow
    · split
      · rcases e with ⟨id', ted | ⟨words, hne⟩⟩ <;> exact hstored
      · exact hstored
  · intro q chunk blobs seqs harea
    obtain ⟨old, hold, heq⟩ := hback q chunk harea.chunk_eq
    have hfits := hs.fits q old blobs seqs ⟨hold, harea.blobs_eq, harea.seqs_eq⟩
    rw [heq]
    split
    · exact ⟨hfits.aligned, hfits.fits, hfits.blobs, hfits.seqs⟩
    · exact hfits
  · intro q chunk hq
    obtain ⟨old, hold, heq⟩ := hback q chunk hq
    have hunfreed := hs.unfreed q old hold
    rw [hcount, heq]
    obtain ⟨q', chunk', blobs, seqs, hlies⟩ := hs.lies (id, t) (by simp [hlive])
    have hindex := hlies.chunkIndex
    have hqueue : s.buffer.allocator.queueIndex id = q' := hlies.chunkOf.1
    dsimp only at hindex
    rw [hqueue]
    by_cases hqq : q' = q
    · subst hqq
      rw [if_pos rfl]
      simp [hunfreed, hindex, BumpAllocator.free]
    · have hne : id.chunkIndex ≠ s.buffer.allocator.erasedFrontChunksCount + q := by omega
      rw [if_neg hqq]
      simp [hunfreed, hne, BumpAllocator.free]
  · intro p
    simp only [fromReleasedUnsafe_apply, hcount, hs.blobLeaks p, decide_eq_true_eq]
  · intro p
    simp only [fromReleasedUnsafe_apply, hcount, hs.seqLeaks p, decide_eq_true_eq]

theorem Consistent.freeMemory (hs : Consistent s) : Consistent ⟨s.buffer.freeMemory, s.live⟩ := by
  set erased := s.buffer.allocator.eraseFrontFreeChunks.1 with herased
  have hshift (q : ℕ) : s.buffer.freeMemory.allocator.chunks[q]? = s.buffer.allocator.chunks[erased + q]? := by
    exact List.getElem?_drop
  have harea {q : ℕ} {chunk : Chunk} {blobs : List BlobWithOffset} {seqs : List (Option ℕ)} :
      Area s.buffer.freeMemory q chunk blobs seqs ↔ Area s.buffer (erased + q) chunk blobs seqs := by
    constructor
    · rintro ⟨hchunk, hblobs, hseqs⟩
      refine ⟨(hshift q).symm.trans hchunk, ?_, ?_⟩
      · exact List.getElem?_drop.symm.trans hblobs
      · exact List.getElem?_drop.symm.trans hseqs
    · rintro ⟨hchunk, hblobs, hseqs⟩
      exact ⟨(hshift q).trans hchunk, List.getElem?_drop.trans hblobs, List.getElem?_drop.trans hseqs⟩
  refine ⟨⟨?_, ?_⟩, hs.ids_nodup, ?_, ?_, ?_, hs.blobLeaks, hs.seqLeaks⟩
  · simp [TraceTokenBuffer.freeMemory, BumpAllocator.eraseFrontFreeChunks, hs.inStep.blobs_length]
  · simp [TraceTokenBuffer.freeMemory, BumpAllocator.eraseFrontFreeChunks, hs.inStep.seqs_length]
  · intro e he
    obtain ⟨q, chunk, blobs, seqs, hlies⟩ := hs.lies e he
    have hge : erased ≤ q := by
      -- a chunk that is erased holds no live token
      by_contra hlt
      obtain ⟨chunk₁, hchunk₁, hfree⟩ := s.buffer.allocator.eraseFrontFreeChunks_free (not_le.mp hlt)
      rw [hs.unfreed q chunk₁ hchunk₁, List.countP_eq_zero] at hfree
      exact hfree e he (inChunk_iff.mpr hlies.chunkIndex)
    have hq : erased + (q - erased) = q := by omega
    refine ⟨q - erased, chunk, blobs, seqs, harea.mpr (by rw [hq]; exact hlies.area), ?_, hlies.aligned, hlies.below,
      hlies.stored⟩
    have hindex := hlies.chunkIndex
    change e.1.chunkIndex = s.buffer.allocator.erasedFrontChunksCount + erased + (q - erased)
    omega
  · intro q chunk blobs seqs h
    exact hs.fits (erased + q) chunk blobs seqs (harea.mp h)
  · intro q chunk hchunk
    rw [hs.unfreed (erased + q) chunk ((hshift q).symm.trans hchunk), ← Nat.add_assoc]
    rfl

/-! ### Live tokens as a whole -/

/-- The order of the tokens not yet extracted does not matter. -/
theorem Consistent.perm {live live' : List (AllocId × Token)} (hs : Consistent ⟨b, live⟩) (h : live.Perm live') :
    Consistent ⟨b, live'⟩ where
  inStep := hs.inStep
  ids_nodup := (h.map _).nodup hs.ids_nodup
  lies e he := hs.lies e (h.mem_iff.mpr he)
  fits := hs.fits
  unfreed q chunk hchunk := (hs.unfreed q chunk hchunk).trans (h.countP_eq _)
  blobLeaks p := (hs.blobLeaks p).trans (h.countP_eq _)
  seqLeaks p := (hs.seqLeaks p).trans (h.countP_eq _)

/-- The ids of the tokens not yet extracted are before the "past-the-end" id. -/
theorem Consistent.lt_pastTheEndId (hs : Consistent s) {e : AllocId × Token} (he : e ∈ s.live) :
    e.1.lt s.buffer.allocator.pastTheEndId := by
  obtain ⟨q, chunk, blobs, seqs, hlies⟩ := hs.lies e he
  have hlt := hlies.area.lt
  have hindex := hlies.chunkIndex
  have hbelow := hlies.below
  have hpos := e.2.size_ge
  unfold BumpAllocator.pastTheEndId BumpAllocator.lastChunkIndex AllocId.lt
  split
  · rename_i hnone
    rw [List.getLast?_eq_none_iff.mp hnone] at hlt
    simp at hlt
  · rename_i last hlast
    split
    · dsimp only
      omega
    · dsimp only
      rcases Nat.lt_or_ge q (s.buffer.allocator.chunks.length - 1) with hbefore | hge
      · omega
      · have hq : q = s.buffer.allocator.chunks.length - 1 := by omega
        rw [List.getLast?_eq_getElem?, ← hq, hlies.area.chunk_eq, Option.some.injEq] at hlast
        subst hlast
        omega

/-! ### Every run -/

theorem Consistent.step {s' : TokenSystem} (hs : Consistent s) {call : TokenCall} (h : s.step call = some s') :
    Consistent s' := by
  rcases call with t | id | _
  · obtain ⟨⟨id, b⟩, happend, rfl⟩ := Option.map_eq_some_iff.mp h
    exact (hs.append happend).1
  · simp only [TokenSystem.step, Option.bind_eq_bind] at h
    obtain ⟨t, ht, h⟩ := Option.bind_eq_some_iff.mp h
    obtain ⟨front, back, hlive, herase⟩ := lookup_split ht
    rw [hs.extractToken (t := t) (by simp [hlive]), Option.bind_some, Option.some.injEq, herase] at h
    rw [← h]
    exact hs.free hlive
  · rw [← Option.some.inj h]
    exact hs.freeMemory

theorem consistent_init : Consistent { } where
  inStep := ⟨rfl, rfl⟩
  ids_nodup := List.nodup_nil
  lies e he := by simp at he
  fits q chunk blobs seqs h := by simpa using h.lt
  unfreed q chunk h := by simp at h
  blobLeaks p := rfl
  seqLeaks p := rfl

theorem Consistent.run {calls : List TokenCall} {s' : TokenSystem} (hs : Consistent s) (h : s.run calls = some s') :
    Consistent s' := by
  induction calls generalizing s with
  | nil =>
    rw [← Option.some.inj h]
    exact hs
  | cons call calls ih =>
    obtain ⟨s₁, hstep, hrun⟩ := Option.bind_eq_some_iff.mp h
    exact ih (hs.step hstep) hrun

/-- After every run of the buffer, a token not yet extracted comes back equal exactly if it is restorable; each blob and
each sequence state has one reference for every token not yet extracted that refers to it; and a token can be appended
until the chunks are used up. -/
theorem roundTrips_iff {calls : List TokenCall} {s : TokenSystem} (h : TokenSystem.run calls { } = some s) :
    (∀ id ted, (id, Token.trackEvent ted) ∈ s.live →
      ((∃ out b, s.buffer.extract id = some (out, b) ∧ out.Same ted) ↔ ted.Restorable)) ∧
    (∀ p, s.buffer.blobLeaks p = s.live.countP (·.2.blob = some p)) ∧
    (∀ p, s.buffer.seqLeaks p = s.live.countP (·.2.seq = some p)) ∧
    ∀ ted, s.buffer.append ted = none →
      kMaxChunkCount ≤ s.buffer.allocator.erasedFrontChunksCount + s.buffer.allocator.chunks.length := by
  have hs := consistent_init.run h
  refine ⟨fun id ted he => ?_, hs.blobLeaks, hs.seqLeaks, fun ted => append_eq_none hs⟩
  rw [hs.extract he, ← restored_same_iff]
  constructor
  · rintro ⟨out, b, heq, hsame⟩
    rw [Option.some.injEq, Prod.mk.injEq] at heq
    rw [heq.1]
    exact hsame
  · intro hsame
    exact ⟨_, _, rfl, hsame⟩

/-- A track event whose second extra counter value is 0 and whose third is 5. -/
def gapInCounters : TrackEventData where
  packet := ⟨1, 0, 1234⟩
  sequenceState := some 1
  threadInstructionCount := some 123
  extraCounterValues := #v[⟨0x4024000000000000⟩, .zero, ⟨0x4014000000000000⟩, .zero, .zero, .zero, .zero, .zero]

theorem roundTrips_iff_append : ∃ s, TokenSystem.run
    [.append (.trackEvent ⟨⟨1, 8, 100⟩, some 1, some 7, none, .zero, .replicate _ .zero⟩), .freeMemory,
      .append (.trackEvent gapInCounters), .append (.object [1, 2] (List.cons_ne_nil _ _))] { } = some s ∧
    ∀ p, s.buffer.blobLeaks p = s.live.countP (·.2.blob = some p) := by
  obtain ⟨s, hs⟩ := Option.isSome_iff_exists.mp (by decide +kernel : (TokenSystem.run
    [.append (.trackEvent ⟨⟨1, 8, 100⟩, some 1, some 7, none, .zero, .replicate _ .zero⟩), .freeMemory,
      .append (.trackEvent gapInCounters), .append (.object [1, 2] (List.cons_ne_nil _ _))] { }).isSome)
  exact ⟨s, hs, (roundTrips_iff hs).2.1⟩

/-- The value behind the zero is lost. -/
theorem not_roundTrips_gap : ¬∀ calls s, TokenSystem.run calls { } = some s →
    ∀ id ted, (id, Token.trackEvent ted) ∈ s.live → ∃ out b, s.buffer.extract id = some (out, b) ∧ out.Same ted := by
  intro hall
  obtain ⟨s, hrun⟩ := Option.isSome_iff_exists.mp
    (by decide +kernel : (TokenSystem.run [.append (.trackEvent gapInCounters)] { }).isSome)
  have hbind := hrun
  rw [TokenSystem.run, List.foldlM_cons] at hbind
  obtain ⟨s₁, hstep, hs₁⟩ := Option.bind_eq_some_iff.mp hbind
  rw [TokenSystem.step] at hstep
  obtain ⟨⟨id, b⟩, -, rfl⟩ := Option.map_eq_some_iff.mp hstep
  obtain rfl := Option.some.inj hs₁
  have hlive : (id, Token.trackEvent gapInCounters) ∈ [(id, Token.trackEvent gapInCounters)] := by simp
  obtain ⟨out, b', hextract, hsame⟩ := hall _ _ hrun id gapInCounters hlive
  rw [(consistent_init.run hrun).extract hlive, Option.some.injEq, Prod.mk.injEq] at hextract
  rw [← hextract.1, restored_same_iff] at hsame
  exact absurd (hsame.zeros_last 1 2 (by decide) (by decide)) (by decide)

end LynxTrace.TraceProcessor
