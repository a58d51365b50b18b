import LynxTrace.Base.WordBits

/-!
# Core.BitVectorWords — `BitVector` word by word (src/trace_processor/core/util/bit_vector.h)

An access outside of the words, and a loop that does not end, is `none`.  Sums of sizes are `uint64_t`, the counts of
`CompactInPlace` and `ComputePrefixPopcount` are `uint32_t`.  What `FlexVector::resize` leaves in the words that it adds
is a parameter.
-/

namespace LynxTrace.TraceProcessor.Core.Words

abbrev Word := BitVec 64

structure BitVector where
  words : List Word := []
  size : ℕ := 0
  deriving DecidableEq

/-- `(size + 63) / 64` -/
def wordsFor (size : ℕ) : ℕ := (size + 63) % 2 ^ 64 / 64

/-- `(1ull << n) - 1` -/
def lowMask (n : ℕ) : Word := (1#64 <<< n) - 1#64

/-- `static_cast<uint64_t>(bit) << n` -/
def bitAtPlace (bit : Bool) (n : ℕ) : Word := if bit then 1#64 <<< n else 0

/-- `PERFETTO_POPCOUNT` -/
def popcount (word : Word) : ℕ := (positions word).length

namespace BitVector

variable (bv : BitVector)

/-- Assigns to `words_[i]`. -/
def modify (i : ℕ) (f : Word → Word) : Option BitVector :=
  bv.words[i]?.map fun word => { bv with words := bv.words.set i (f word) }

def createWithSize (size : ℕ) (value : Bool) : Option BitVector :=
  if size = 0 then some {} else
  let bv : BitVector := ⟨List.replicate (wordsFor size) (if value then BitVec.allOnes 64 else 0), size⟩
  if size % 64 ≠ 0 then bv.modify (wordsFor size - 1) (· &&& lowMask (size % 64)) else some bv

def pushBack (bit : Bool) : Option BitVector :=
  let words := if bv.size % 64 = 0 then bv.words ++ [0] else bv.words
  (modify ⟨words, bv.size⟩ (bv.size / 64) (· ||| bitAtPlace bit (bv.size % 64))).map fun bv =>
    { bv with size := bv.size + 1 }

def pushBackMultiple (bv : BitVector) (bit : Bool) : (count : ℕ) → Option BitVector
  | 0 => some bv
  | count + 1 => (bv.pushBack bit).bind fun bv => pushBackMultiple bv bit count

def change (i : ℕ) (bit : Bool) : Option BitVector :=
  bv.modify (i / 64) fun word => (word &&& ~~~(1#64 <<< (i % 64))) ||| bitAtPlace bit (i % 64)

def changeAssumeUnset (i : ℕ) (bit : Bool) : Option BitVector :=
  bv.modify (i / 64) (· ||| bitAtPlace bit (i % 64))

def set (i : ℕ) : Option BitVector := bv.modify (i / 64) (· ||| 1#64 <<< (i % 64))

/-- `clear(i)` -/
def clearBit (i : ℕ) : Option BitVector := bv.modify (i / 64) (· &&& ~~~(1#64 <<< (i % 64)))

def isSet (i : ℕ) : Option Bool := bv.words[i / 64]?.map fun (word : Word) => (word >>> (i % 64)).getLsbD 0

def countSetBitsUntilInWord (i : ℕ) : Option ℕ :=
  bv.words[i / 64]?.map fun word => popcount (word &&& lowMask (i % 64))

def countSetBitsInWord (i : ℕ) : Option ℕ := bv.words[i / 64]?.map popcount

/-- `PackLeft` over the array `mem`: reads from `source` on and writes from `out` on. -/
def packLeft (bv : BitVector) (invert : Bool) (mem : List ℕ) : (left source out : ℕ) → Option (List ℕ × ℕ)
  | 0, _, out => some (mem, out)
  | left + 1, source, out => do
    let s ← mem[source]?
    let res ← bv.isSet s
    let res := if invert then !res else res
    let _ ← mem[out]?
    packLeft bv invert (mem.set out s) left (source + 1) (if res then out + 1 else out)

/-- `ComputePrefixPopcount`: `i` and `accum` are `uint32_t`; the loop ends within `fuel` steps or not at all. -/
def computePrefixPopcount (bv : BitVector) : (fuel i accum : ℕ) → (out : List ℕ) → Option (List ℕ)
  | 0, _, _, _ => none
  | fuel + 1, i, accum, out =>
    if i < wordsFor bv.size then do
      let word ← bv.words[i]?
      computePrefixPopcount bv fuel ((i + 1) % 2 ^ 32) ((accum + popcount word) % 2 ^ 32) (out ++ [accum])
    else some out

def prefixPopcount : Option (List ℕ) := bv.computePrefixPopcount (wordsFor bv.size + 1) 0 0 []

def clone : Option BitVector :=
  if bv.size = 0 then some {}
  else if wordsFor bv.size ≤ bv.words.length then some ⟨bv.words.take (wordsFor bv.size), bv.size⟩ else none

/-- `clear()` -/
def clear (_ : BitVector) : BitVector := {}

def clearAllBits : BitVector := { bv with words := bv.words.map fun _ => 0 }

/-- `FlexVector::resize` -/
def resizeWords (fresh : ℕ → Word) (words : List Word) (newWords : ℕ) : List Word :=
  words.take newWords ++ (List.range (newWords - words.length)).map fresh

/-- The new bits of a `resize` that grows: whole words, then the rest of the last old word. -/
def fillNew (oldSize : ℕ) (value : Bool) : Option BitVector :=
  let fill : Word := if value then BitVec.allOnes 64 else 0
  let bv := { bv with words := bv.words.mapIdx fun i word => if wordsFor oldSize ≤ i then fill else word }
  if oldSize % 64 ≠ 0 then
    let mask := ~~~lowMask (oldSize % 64)
    bv.modify (oldSize / 64) fun word => if value then word ||| mask else word &&& ~~~mask
  else some bv

/-- The end of `resize`: no bit is left behind the new size in the last word. -/
def trim (newSize : ℕ) : Option BitVector :=
  if newSize % 64 ≠ 0 ∧ 0 < wordsFor newSize then bv.modify (wordsFor newSize - 1) (· &&& lowMask (newSize % 64))
  else some bv

def resize (fresh : ℕ → Word) (newSize : ℕ) (value : Bool) : Option BitVector :=
  let resized : BitVector := { bv with words := resizeWords fresh bv.words (wordsFor newSize) }
  (if bv.size < newSize then resized.fillNew bv.size value else some resized).bind fun filled =>
    (filled.trim newSize).map fun trimmed => { trimmed with size := newSize }

end BitVector

/-! ### `Compact` -/

/-- The loop of `PextSlow`. -/
def pextLoop (word mask bb result : Word) : Word :=
  if mask = 0 then result
  else pextLoop word (mask &&& (mask - 1#64)) (bb + bb) (if word &&& mask &&& -mask ≠ 0 then result ||| bb else result)
termination_by mask.toNat
decreasing_by exact and_sub_one_lt ‹_›

def pextSlow (word mask : Word) : Word :=
  if word = 0 ∨ mask = BitVec.allOnes 64 then word else pextLoop word mask 1#64 0

/-- `_pext_u64`, bit by bit: `m` goes over the mask, `k` over the result. -/
def pextU64Loop (word mask : Word) : (left m k : ℕ) → (result : Word) → Word
  | 0, _, _, result => result
  | left + 1, m, k, result =>
    if mask.getLsbD m then pextU64Loop word mask left (m + 1) (k + 1) (result ||| bitAtPlace (word.getLsbD m) k)
    else pextU64Loop word mask left (m + 1) k result

/-- `Pext`, with `PERFETTO_X64_CPU_OPT` or without. -/
def pext (cpuOpt : Bool) (word mask : Word) : Word :=
  if cpuOpt then pextU64Loop word mask 64 0 0 0 else pextSlow word mask

/-- The loop of `CompactInPlace`, with `total_kept` as its result. -/
def compactLoop (cpuOpt : Bool) (keep : List Word) : (left cur : ℕ) → (words : List Word) →
    (outWord outWordBits totalKept : ℕ) → Option (List Word × ℕ)
  | 0, _, words, _, _, totalKept => some (words, totalKept)
  | left + 1, cur, words, outWord, outWordBits, totalKept => do
    let word ← words[cur]?
    let mask ← keep[cur]?
    let ext := pext cpuOpt word mask
    let out ← words[outWord]?
    let words := words.set outWord (if outWordBits = 0 then ext else out ||| ext <<< outWordBits)
    let outWordBits' := outWordBits + popcount mask
    let totalKept := (totalKept + popcount mask) % 2 ^ 32
    let outWord := if 64 ≤ outWordBits' then outWord + 1 else outWord
    if 64 < outWordBits' then
      let _ ← words[outWord]?
      let words := words.set outWord (ext >>> (popcount mask - outWordBits' % 64))
      compactLoop cpuOpt keep left (cur + 1) words outWord (outWordBits' % 64) totalKept
    else compactLoop cpuOpt keep left (cur + 1) words outWord (outWordBits' % 64) totalKept

def BitVector.compact (cpuOpt : Bool) (bv keep : BitVector) : Option BitVector :=
  (compactLoop cpuOpt keep.words bv.words.length 0 bv.words 0 0 0).bind fun r =>
    BitVector.resize { bv with words := r.1 } (fun _ => 0) r.2 false

/-! ### Calls -/

/-- A call, on vectors by their numbers. -/
inductive Op
  | create (v size : ℕ) (value : Bool)
  | pushBack (v : ℕ) (bit : Bool)
  | pushBackMultiple (v : ℕ) (bit : Bool) (count : ℕ)
  | change (v i : ℕ) (bit : Bool)
  | changeAssumeUnset (v i : ℕ) (bit : Bool)
  | set (v i : ℕ)
  | clearBit (v i : ℕ)
  | clear (v : ℕ)
  | clearAllBits (v : ℕ)
  | resize (v newSize : ℕ) (value : Bool) (fresh : ℕ → Word)
  | clone (v source : ℕ)
  | compact (v keep : ℕ)
  | size (v : ℕ)
  | isSet (v i : ℕ)
  | countUntil (v i : ℕ)
  | countInWord (v i : ℕ)
  | prefixPopcount (v : ℕ)
  | packLeft (v : ℕ) (invert : Bool) (mem : List ℕ) (count source target : ℕ)

/-- What a call returns, but for vectors. -/
inductive Result
  | nothing
  | bit (value : Bool)
  | count (value : ℕ)
  | counts (values : List ℕ)
  | packed (values : List ℕ)
  deriving DecidableEq

abbrev Vectors := ℕ → BitVector

/-- A new value of a vector. -/
def Vectors.assign (vs : Vectors) (v : ℕ) (bv : Option BitVector) : Option (Vectors × Result) :=
  bv.map fun bv => (Function.update vs v bv, .nothing)

def step (cpuOpt : Bool) (vs : Vectors) : Op → Option (Vectors × Result)
  | .create v size value => vs.assign v (BitVector.createWithSize size value)
  | .pushBack v bit => vs.assign v ((vs v).pushBack bit)
  | .pushBackMultiple v bit count => vs.assign v ((vs v).pushBackMultiple bit count)
  | .change v i bit => vs.assign v ((vs v).change i bit)
  | .changeAssumeUnset v i bit => vs.assign v ((vs v).changeAssumeUnset i bit)
  | .set v i => vs.assign v ((vs v).set i)
  | .clearBit v i => vs.assign v ((vs v).clearBit i)
  | .clear v => vs.assign v (some (vs v).clear)
  | .clearAllBits v => vs.assign v (some (vs v).clearAllBits)
  | .resize v newSize value fresh => vs.assign v ((vs v).resize fresh newSize value)
  | .clone v source => vs.assign v (vs source).clone
  | .compact v keep => vs.assign v ((vs v).compact cpuOpt (vs keep))
  | .size v => some (vs, .count (vs v).size)
  | .isSet v i => ((vs v).isSet i).map fun b => (vs, .bit b)
  | .countUntil v i => ((vs v).countSetBitsUntilInWord i).map fun n => (vs, .count n)
  | .countInWord v i => ((vs v).countSetBitsInWord i).map fun n => (vs, .count n)
  | .prefixPopcount v => (vs v).prefixPopcount.map fun l => (vs, .counts l)
  | .packLeft v invert mem count source target =>
    ((vs v).packLeft invert mem count source target).map fun r => (vs, .packed ((r.1.take r.2).drop target))

def run (cpuOpt : Bool) (vs : Vectors) : List Op → Option (Vectors × List Result)
  | [] => some (vs, [])
  | op :: ops => do
    let (vs, result) ← step cpuOpt vs op
    let (vs, results) ← run cpuOpt vs ops
    return (vs, result :: results)

end LynxTrace.TraceProcessor.Core.Words
