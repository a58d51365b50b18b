import Mathlib.Data.Nat.Bitwise

/-!
# Base.MurmurHash — `MurmurHashCombiner` (include/perfetto/ext/base/murmur_hash.h)

64-bit words are natural numbers below `2 ^ 64`.
-/

namespace LynxTrace

/-- `MurmurHashMix`. -/
def murmurHashMix (h : ℕ) : ℕ :=
  let h := h ^^^ (h >>> 33)
  let h := h * 0xff51afd7ed558ccd % 2 ^ 64
  let h := h ^^^ (h >>> 33)
  let h := h * 0xc4ceb9fe1a85ec53 % 2 ^ 64
  h ^^^ (h >>> 33)

namespace MurmurHashCombiner

def kSeed : ℕ := 0xe17a1465

/-- `Update`. -/
def update (hash pieceHash : ℕ) : ℕ :=
  hash ^^^ ((pieceHash + 0x9e3779b9 + (hash <<< 6) % 2 ^ 64 + (hash >>> 2)) % 2 ^ 64)

/-- The digest after the integers have been combined one after the other. -/
def digest (values : List ℕ) : ℕ := values.foldl (fun hash v => update hash (murmurHashMix v)) kSeed

end MurmurHashCombiner

end LynxTrace
