import LynxTrace.Wire.Bytes

/-!
# Base.FnvHash — `FnvHasher` (include/perfetto/ext/base/fnv_hash.h)
-/

namespace LynxTrace.FnvHasher

open LynxTrace.Wire

def kFnv1a64OffsetBasis : ℕ := 0xcbf29ce484222325

def kFnv1a64Prime : ℕ := 0x100000001b3

/-- `Update` with a byte array. -/
def update (result : ℕ) (data : List UInt8) : ℕ :=
  data.foldl (fun result c => ((result ^^^ c.toNat) * kFnv1a64Prime) % 2 ^ 64) result

/-- The digest of a sequence of `uint32_t`, each hashed as its four bytes. -/
def digest (words : List ℕ) : ℕ := words.foldl (fun result word => update result (leBytes 4 word)) kFnv1a64OffsetBasis

end LynxTrace.FnvHasher
