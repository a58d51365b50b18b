import Mathlib.Data.List.TakeDrop
import Mathlib.Order.Basic
import Mathlib.Data.Nat.Notation

/-!
# Core.BitVector — `BitVector` (src/trace_processor/core/util/bit_vector.h)

The bits are a list.  No operation leaves a set bit behind the last one, so a word is the 64 bits it covers, or fewer
at the end.
-/

namespace LynxTrace.TraceProcessor.Core

structure BitVector where
  bits : List Bool := []
  deriving DecidableEq, Repr

namespace BitVector

variable (bv : BitVector)

def size : ℕ := bv.bits.length

/-- `is_set`; beyond the end it is not called. -/
def isSet (i : ℕ) : Bool := bv.bits.getD i false

def pushBack (bit : Bool) : BitVector := ⟨bv.bits ++ [bit]⟩

/-- `change`, `set` and `clear`. -/
def change (i : ℕ) (bit : Bool) : BitVector := ⟨bv.bits.set i bit⟩

/-- `resize`; new bits are unset. -/
def resize (newSize : ℕ) : BitVector := ⟨bv.bits.take newSize ++ List.replicate (newSize - bv.bits.length) false⟩

/-- The bits of the word of a position. -/
def wordOf (i : ℕ) : List Bool := (bv.bits.drop (64 * (i / 64))).take 64

/-- `count_set_bits_in_word`. -/
def countSetBitsInWord (i : ℕ) : ℕ := (bv.wordOf i).count true

/-- `count_set_bits_until_in_word`. -/
def countSetBitsUntilInWord (i : ℕ) : ℕ := ((bv.wordOf i).take (i % 64)).count true

/-- The loop of `ComputePrefixPopcount` over `words` words, from word `i` on. -/
def computePrefixPopcount (i accum : ℕ) : (words : ℕ) → List ℕ
  | 0 => []
  | words + 1 => accum :: computePrefixPopcount (i + 1) (accum + bv.countSetBitsInWord (64 * i)) words

/-- `PrefixPopcount`. -/
def prefixPopcount : List ℕ := bv.computePrefixPopcount 0 0 ((bv.size + 63) / 64)

/-- The set bits before a position. -/
def rank (i : ℕ) : ℕ := (bv.bits.take i).count true

/-! ### Ranks -/

theorem rank_add (i n : ℕ) : bv.rank (i + n) = bv.rank i + ((bv.bits.drop i).take n).count true := by
  rw [rank, List.take_add, List.count_append, rank]

theorem rank_word (i : ℕ) : bv.rank (64 * (i + 1)) = bv.rank (64 * i) + bv.countSetBitsInWord (64 * i) := by
  rw [Nat.mul_succ, rank_add, countSetBitsInWord, wordOf, Nat.mul_div_cancel_left _ (by decide)]

/-- **Ranks from words.**  The set bits before the word and those in it before the position. -/
theorem rank_eq (i : ℕ) : bv.rank i = bv.rank (64 * (i / 64)) + bv.countSetBitsUntilInWord i := by
  have hi : 64 * (i / 64) + i % 64 = i := Nat.div_add_mod i 64
  have hlt : i % 64 ≤ 64 := Nat.le_of_lt (Nat.mod_lt i (by decide))
  conv_lhs => rw [← hi, rank_add]
  rw [countSetBitsUntilInWord, wordOf, List.take_take, Nat.min_eq_left hlt]

theorem isSet_lt {bv : BitVector} {i : ℕ} (h : bv.isSet i = true) : i < bv.size := by
  by_contra hge
  rw [isSet, List.getD_eq_getElem?_getD, List.getElem?_eq_none (Nat.not_lt.mp hge)] at h
  exact Bool.false_ne_true h

theorem rank_succ (i : ℕ) : bv.rank (i + 1) = bv.rank i + if bv.isSet i then 1 else 0 := by
  rw [rank, rank, isSet, List.take_add_one, List.count_append, List.getD_eq_getElem?_getD]
  congr 1
  cases bv.bits[i]? with
  | none => rfl
  | some bit => cases bit <;> rfl

/-- The rank counts the positions with a set bit. -/
theorem rank_eq_length (n : ℕ) : bv.rank n = ((List.range n).filter bv.isSet).length := by
  induction n with
  | zero => rfl
  | succ n ih =>
    rw [rank_succ, List.range_succ, List.filter_append, List.length_append, ih, List.filter_cons]
    cases bv.isSet n <;> rfl

theorem computePrefixPopcount_getElem? {i words w : ℕ} (hw : w < words) :
    (bv.computePrefixPopcount i (bv.rank (64 * i)) words)[w]? = some (bv.rank (64 * (i + w))) := by
  induction words generalizing i w with
  | zero => exact absurd hw (Nat.not_lt_zero w)
  | succ words ih =>
    rw [computePrefixPopcount]
    cases w with
    | zero => rfl
    | succ w =>
      rw [List.getElem?_cons_succ, ← rank_word, ih (Nat.lt_of_succ_lt_succ hw), Nat.add_right_comm, Nat.add_assoc]

theorem length_computePrefixPopcount (i accum words : ℕ) : (bv.computePrefixPopcount i accum words).length = words := by
  induction words generalizing i accum with
  | zero => rfl
  | succ words ih => rw [computePrefixPopcount, List.length_cons, ih]

/-- The prefix count of a word is its rank. -/
theorem prefixPopcount_getElem? {w : ℕ} (hw : 64 * w < bv.size) : bv.prefixPopcount[w]? = some (bv.rank (64 * w)) := by
  have hzero : bv.rank (64 * 0) = 0 := rfl
  have hlt : w < (bv.size + 63) / 64 := by omega
  have h := bv.computePrefixPopcount_getElem? (i := 0) hlt
  rwa [hzero, Nat.zero_add] at h

/-- The rank of a position, as it is computed from the prefix counts. -/
theorem prefixPopcount_add {i : ℕ} (hi : i < bv.size) :
    bv.prefixPopcount.getD (i / 64) 0 + bv.countSetBitsUntilInWord i = bv.rank i := by
  have hw : 64 * (i / 64) < bv.size := by omega
  rw [List.getD_eq_getElem?_getD, prefixPopcount_getElem? bv hw, Option.getD_some, ← rank_eq]

end BitVector

end LynxTrace.TraceProcessor.Core
