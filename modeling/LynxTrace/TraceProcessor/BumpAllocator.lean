import Mathlib.Algebra.Order.Ring.Int
import Mathlib.Data.List.DropRight
import Mathlib.Data.List.TakeWhile
import Mathlib.Order.Basic

/-!
# TraceProcessor.BumpAllocator — `BumpAllocator` (src/trace_processor/util/bump_allocator.{h,cc})

The memory of a chunk holds 64-bit words, as all allocations are aligned to eight bytes.  `none` is a `PERFETTO_CHECK`
that fails.
-/

namespace LynxTrace.TraceProcessor

/-- 64KB. -/
def kChunkSize : ℕ := 64 * 1024

def kMaxChunkCount : ℕ := 2 ^ 58 / kChunkSize

structure AllocId where
  chunkIndex : ℕ
  chunkOffset : ℕ
  deriving DecidableEq, Repr

/-- The order of `std::tie(chunk_index, chunk_offset)`. -/
def AllocId.lt (a b : AllocId) : Prop :=
  a.chunkIndex < b.chunkIndex ∨ (a.chunkIndex = b.chunkIndex ∧ a.chunkOffset < b.chunkOffset)

instance (a b : AllocId) : Decidable (a.lt b) := inferInstanceAs (Decidable (_ ∨ _))

structure Chunk where
  /-- The word at a multiple of eight bytes. -/
  allocation : ℕ → UInt64 := fun _ => 0
  bumpOffset : ℕ := 0
  unfreedAllocations : ℕ := 0

/-- The chunk after an allocation in it. -/
def Chunk.bump (chunk : Chunk) (size : ℕ) : Chunk :=
  { chunk with bumpOffset := chunk.bumpOffset + size, unfreedAllocations := chunk.unfreedAllocations + 1 }

/-- The chunk with words stored from a place on. -/
def Chunk.write (chunk : Chunk) (ptr : ℕ) (words : List UInt64) : Chunk :=
  { chunk with allocation := fun i => if i < ptr then chunk.allocation i else words.getD (i - ptr) (chunk.allocation i) }

structure BumpAllocator where
  chunks : List Chunk := []
  erasedFrontChunksCount : ℕ := 0

namespace BumpAllocator

/-- `LastChunkIndex`. -/
def lastChunkIndex (b : BumpAllocator) : ℕ := b.erasedFrontChunksCount + (b.chunks.length - 1)

/-- `TryAllocInLastChunk`. -/
def tryAllocInLastChunk (b : BumpAllocator) (size : ℕ) : Option (AllocId × BumpAllocator) :=
  match b.chunks.getLast? with
  | none => none
  | some chunk =>
    if chunk.bumpOffset + size > kChunkSize then none
    else
      some (⟨b.lastChunkIndex, chunk.bumpOffset⟩, { b with chunks := b.chunks.dropLast ++ [chunk.bump size] })

/-- A new chunk behind the others. -/
def addChunk (b : BumpAllocator) : BumpAllocator :=
  { b with chunks := b.chunks ++ [({ } : Chunk)] }

/-- `Alloc`. -/
def alloc (b : BumpAllocator) (size : ℕ) : Option (AllocId × BumpAllocator) :=
  match b.tryAllocInLastChunk size with
  | some r => some r
  | none => if b.addChunk.lastChunkIndex < kMaxChunkCount then b.addChunk.tryAllocInLastChunk size else none

/-- The place of the chunk of an allocation in the queue of chunks. -/
def queueIndex (b : BumpAllocator) (id : AllocId) : ℕ := id.chunkIndex - b.erasedFrontChunksCount

/-- `Free`. -/
def free (b : BumpAllocator) (id : AllocId) : BumpAllocator :=
  { b with chunks := b.chunks.modify (b.queueIndex id) fun chunk =>
      { chunk with unfreedAllocations := chunk.unfreedAllocations - 1 } }

/-- The chunk `GetPointer` points into. -/
def chunkOf (b : BumpAllocator) (id : AllocId) : Option Chunk := b.chunks[b.queueIndex id]?

/-- Words stored from the pointer to an allocation on. -/
def store (b : BumpAllocator) (id : AllocId) (words : List UInt64) : BumpAllocator :=
  { b with chunks := b.chunks.modify (b.queueIndex id) (·.write (id.chunkOffset / 8) words) }

/-- `EraseFrontFreeChunks`: the number of chunks erased, and the rest. -/
def eraseFrontFreeChunks (b : BumpAllocator) : ℕ × BumpAllocator :=
  let toEraseChunks := (b.chunks.takeWhile (·.unfreedAllocations = 0)).length
  (toEraseChunks, ⟨b.chunks.drop toEraseChunks, b.erasedFrontChunksCount + toEraseChunks⟩)

/-- `PastTheEndId`. -/
def pastTheEndId (b : BumpAllocator) : AllocId :=
  match b.chunks.getLast? with
  | none => ⟨b.erasedFrontChunksCount, 0⟩
  | some chunk =>
    if chunk.bumpOffset = kChunkSize then ⟨b.lastChunkIndex + 1, 0⟩ else ⟨b.lastChunkIndex, chunk.bumpOffset⟩

/-! ### Allocating -/

@[simp] theorem addChunk_chunks (b : BumpAllocator) : b.addChunk.chunks = b.chunks ++ [({ } : Chunk)] := rfl

@[simp] theorem addChunk_erasedFrontChunksCount (b : BumpAllocator) :
    b.addChunk.erasedFrontChunksCount = b.erasedFrontChunksCount := rfl

theorem tryAllocInLastChunk_concat {b : BumpAllocator} {front : List Chunk} {chunk : Chunk}
    (hchunks : b.chunks = front ++ [chunk]) (size : ℕ) : b.tryAllocInLastChunk size =
      if chunk.bumpOffset + size > kChunkSize then none
      else some (⟨b.erasedFrontChunksCount + front.length, chunk.bumpOffset⟩,
        { b with chunks := front ++ [chunk.bump size] }) := by
  simp [tryAllocInLastChunk, lastChunkIndex, hchunks]

/-- What an allocation does: it goes to the end of the last chunk. -/
structure Allocates (b : BumpAllocator) (size q : ℕ) (chunk : Chunk) (id : AllocId) (b' : BumpAllocator) : Prop where
  last : q + 1 = b.chunks.length
  chunk_eq : b.chunks[q]? = some chunk
  fits : chunk.bumpOffset + size ≤ kChunkSize
  id_eq : id = ⟨b.erasedFrontChunksCount + q, chunk.bumpOffset⟩
  result_eq : b' = { b with chunks := b.chunks.set q (chunk.bump size) }

theorem tryAllocInLastChunk_cases {b b' : BumpAllocator} {size : ℕ} {id : AllocId}
    (h : b.tryAllocInLastChunk size = some (id, b')) : ∃ q chunk, b.Allocates size q chunk id b' := by
  rcases List.eq_nil_or_concat' b.chunks with hnil | ⟨front, chunk, hchunks⟩
  · simp [tryAllocInLastChunk, hnil] at h
  · rw [tryAllocInLastChunk_concat hchunks] at h
    split at h
    · simp at h
    · rename_i hfits
      rw [Option.some.injEq, Prod.mk.injEq] at h
      refine ⟨front.length, chunk, by simp [hchunks], by simp [hchunks], not_lt.mp hfits, h.1.symm, ?_⟩
      rw [← h.2, hchunks]
      simp

/-- An allocation is in the chunks there are, or in these with a new chunk behind them. -/
theorem alloc_cases {b b' : BumpAllocator} {size : ℕ} {id : AllocId} (h : b.alloc size = some (id, b')) :
    ∃ b₀ q chunk, (b₀ = b ∨ b₀ = b.addChunk) ∧ b₀.Allocates size q chunk id b' := by
  rw [alloc] at h
  split at h
  · rename_i hr
    rw [h] at hr
    obtain ⟨q, chunk, hq⟩ := tryAllocInLastChunk_cases hr
    exact ⟨b, q, chunk, .inl rfl, hq⟩
  · split at h
    · obtain ⟨q, chunk, hq⟩ := tryAllocInLastChunk_cases h
      exact ⟨b.addChunk, q, chunk, .inr rfl, hq⟩
    · simp at h

/-- An allocation of at most a chunk fails only when the chunks are used up. -/
theorem alloc_eq_none {b : BumpAllocator} {size : ℕ} (hsize : size ≤ kChunkSize) (h : b.alloc size = none) :
    kMaxChunkCount ≤ b.erasedFrontChunksCount + b.chunks.length := by
  rw [alloc] at h
  split at h
  · simp at h
  · have hlast : b.addChunk.lastChunkIndex = b.erasedFrontChunksCount + b.chunks.length := by simp [lastChunkIndex]
    have hempty : ¬({ } : Chunk).bumpOffset + size > kChunkSize := by simpa using hsize
    rw [hlast, tryAllocInLastChunk_concat rfl, if_neg hempty] at h
    split at h
    · simp at h
    · rename_i hcount
      exact not_lt.mp hcount

/-! ### Freeing chunks -/

/-- The chunks that go hold no unfreed allocation. -/
theorem eraseFrontFreeChunks_free (b : BumpAllocator) {q : ℕ} (hq : q < b.eraseFrontFreeChunks.1) :
    ∃ chunk, b.chunks[q]? = some chunk ∧ chunk.unfreedAllocations = 0 := by
  have hprefix := List.takeWhile_prefix (fun c : Chunk => decide (c.unfreedAllocations = 0)) (l := b.chunks)
  have hlen := hprefix.length_le
  have hq' : q < b.chunks.length := lt_of_lt_of_le hq hlen
  refine ⟨b.chunks[q], List.getElem?_eq_getElem hq', ?_⟩
  have hget := hprefix.getElem hq
  have hmem := List.mem_takeWhile_imp (List.getElem_mem hq)
  rw [← hget]
  simpa using hmem

end BumpAllocator

end LynxTrace.TraceProcessor
