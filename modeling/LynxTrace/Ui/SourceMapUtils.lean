import Mathlib.Tactic.Ring
import Mathlib.Tactic.SplitIfs
import Mathlib.Data.List.Nodup

/-!
# Ui.SourceMapUtils — source maps (ui/src/base/source_map_utils.ts)

`decodeVLQ`, `preprocessSourceMap` and `findOriginalPosition`.  Numbers are integers; where the source computes in 32
bits (`<<`, `>>=`) the model does.  A line of mappings is the list of its characters.
-/

namespace LynxTrace.Ui.SourceMaps

structure SourceMap where
  sources : List String
  names : List String
  mappings : String
  deriving DecidableEq, Repr

structure MappingSegment where
  genCol : ℤ
  sourceIndex : ℤ
  sourceLine : ℤ
  sourceCol : ℤ
  nameIndex : ℤ
  hasName : Bool
  deriving DecidableEq, Repr

structure ProcessedSourceMap where
  sourceMap : SourceMap
  lineSegments : List (List MappingSegment)
  deriving DecidableEq, Repr

structure MappedPosition where
  source : Option String := none
  line : Option ℤ := none
  column : Option ℤ := none
  name : Option String := none
  deriving DecidableEq, Repr

/-! ### Variable length quantities -/

def base64Chars : List Char := "ABCDEFGHIJKLMNOPQRSTUVWXYZabcdefghijklmnopqrstuvwxyz0123456789+/".toList

/-- The number as a signed 32-bit integer. -/
def toInt32 (x : ℤ) : ℤ := x.bmod (2 ^ 32)

/-- `a << shift`. -/
def shl32 (a shift : ℕ) : ℤ := toInt32 ((a * 2 ^ (shift % 32) : ℕ) : ℤ)

/-- The inner loop of `decodeVLQ`: the value it leaves, and the characters after it. -/
def decodeDigits : ℕ → ℤ → List Char → ℤ × List Char
  | _, value, [] => (value, [])
  | shift, value, c :: encoded =>
    match base64Chars.idxOf? c with
    -- an invalid character ends the number
    | none => (value, encoded)
    | some digit =>
      let value := value + shl32 (digit &&& 31) shift
      if digit &&& 32 ≠ 0 then decodeDigits (shift + 5) value encoded else (value, encoded)

/-- The sign is the lowest bit. -/
def decodeSign (value : ℤ) : ℤ :=
  let magnitude := toInt32 value / 2
  if toInt32 value % 2 = 1 then -magnitude else magnitude

/-- The outer loop of `decodeVLQ`; every round reads a character. -/
def decodeNumbers : ℕ → List Char → List ℤ
  | 0, _ => []
  | _, [] => []
  | rounds + 1, c :: encoded =>
    let r := decodeDigits 0 0 (c :: encoded)
    decodeSign r.1 :: decodeNumbers rounds r.2

def decodeVLQ (encoded : List Char) : List ℤ := decodeNumbers encoded.length encoded

/-! ### Processing a source map -/

/-- The indices that run on from line to line. -/
structure Running where
  sourceIndex : ℤ := 0
  sourceLine : ℤ := 0
  sourceCol : ℤ := 0
  nameIndex : ℤ := 0
  deriving DecidableEq, Repr

/-- The loop over the segments of a line. -/
def processSegments : Running → ℤ → List (List Char) → List MappingSegment × Running
  | running, _, [] => ([], running)
  | running, genCol, segment :: segments =>
    match decodeVLQ segment with
    | [] => processSegments running genCol segments
    | d0 :: d1 :: d2 :: d3 :: rest =>
      let running :=
        { running with
          sourceIndex := running.sourceIndex + d1
          sourceLine := running.sourceLine + d2
          sourceCol := running.sourceCol + d3 }
      let running :=
        match rest with
        | [] => running
        | d4 :: _ => { running with nameIndex := running.nameIndex + d4 }
      let r := processSegments running (genCol + d0) segments
      (⟨genCol + d0, running.sourceIndex, running.sourceLine, running.sourceCol, running.nameIndex, !rest.isEmpty⟩ :: r.1,
        r.2)
    | d0 :: _ => processSegments running (genCol + d0) segments

/-- The loop over the lines. -/
def processLines : Running → List (List Char) → List (List MappingSegment)
  | _, [] => []
  | running, line :: lines =>
    let r := processSegments running 0 (line.splitOn ',')
    r.1 :: processLines r.2 lines

def preprocessSourceMap (sourceMap : SourceMap) : ProcessedSourceMap :=
  ⟨sourceMap, processLines {} (sourceMap.mappings.toList.splitOn ';')⟩

/-! ### Lookup -/

/-- The loop of `binarySearchSegment`; `stop` is `right + 1`, and a round halves what is between. -/
def searchSegment (segments : List MappingSegment) (targetCol : ℤ) :
    ℕ → ℕ → ℕ → Option MappingSegment → Option MappingSegment
  | 0, _, _, bestMatch => bestMatch
  | rounds + 1, left, stop, bestMatch =>
    if left < stop then
      let mid := (left + (stop - 1)) / 2
      match segments[mid]? with
      | none => bestMatch
      | some segment =>
        if segment.genCol ≤ targetCol then searchSegment segments targetCol rounds (mid + 1) stop (some segment)
        else searchSegment segments targetCol rounds left mid bestMatch
    else bestMatch

def binarySearchSegment (segments : List MappingSegment) (targetCol : ℤ) : Option MappingSegment :=
  searchSegment segments targetCol segments.length 0 segments.length none

/-- The element at an index that is not before the list. -/
def atIndex {α : Type} (xs : List α) (i : ℤ) : Option α := if 0 ≤ i then xs[i.toNat]? else none

/-- `findOriginalPosition`, on a processed source map. -/
def findOriginalPosition (processed : ProcessedSourceMap) (line column : ℤ) : MappedPosition :=
  match atIndex processed.lineSegments (line - 1) with
  | none => {}
  | some segments =>
    match binarySearchSegment segments column with
    | none => {}
    | some bestMatch =>
      match atIndex processed.sourceMap.sources bestMatch.sourceIndex with
      | none => {}
      | some source =>
        { source := some source
          line := some (bestMatch.sourceLine + 1)
          column := some bestMatch.sourceCol
          name := if bestMatch.hasName then atIndex processed.sourceMap.names bestMatch.nameIndex else none }

/-! ### The standard encoding -/

def base64Char (digit : ℕ) : Char := base64Chars[digit]?.getD 'A'

/-- Five bits a digit, the lowest first; every digit but the last has the continuation bit. -/
def encodeDigits (v : ℕ) : List Char :=
  if v < 32 then [base64Char v] else base64Char (v % 32 + 32) :: encodeDigits (v / 32)
termination_by v
decreasing_by omega

def encodeVLQ (n : ℤ) : List Char := encodeDigits (2 * n.natAbs + if n < 0 then 1 else 0)

def encodeFields (fields : List ℤ) : List Char := fields.flatMap encodeVLQ

theorem idxOf?_base64Char : ∀ digit < 64, base64Chars.idxOf? (base64Char digit) = some digit := by decide +kernel

theorem toInt32_eq {x : ℤ} (h0 : 0 ≤ x) (h1 : x < 2 ^ 31) : toInt32 x = x := by
  unfold toInt32
  rw [Int.bmod_def, Int.emod_eq_of_lt h0 (by omega)]
  rw [if_pos (by omega)]

theorem shl32_eq {a shift : ℕ} (hshift : shift < 32) (h : a * 2 ^ shift < 2 ^ 31) : shl32 a shift = (a * 2 ^ shift : ℕ) := by
  unfold shl32
  rw [Nat.mod_eq_of_lt hshift]
  exact toInt32_eq (Int.natCast_nonneg _) (by exact_mod_cast h)

theorem digit_bits : ∀ digit < 64, digit &&& 31 = digit % 32 ∧ (digit &&& 32 ≠ 0 ↔ 32 ≤ digit) := by decide

/-- The digits of a value that fits are read back and added at their place. -/
theorem decodeDigits_encodeDigits {v shift : ℕ} (hshift : shift ≤ 30) (h : v * 2 ^ shift < 2 ^ 31) (value : ℤ)
    (rest : List Char) : decodeDigits shift value (encodeDigits v ++ rest) = (value + (v * 2 ^ shift : ℕ), rest) := by
  induction v using Nat.strongRecOn generalizing shift value with
  | ind v ih =>
    rw [encodeDigits]
    split_ifs with hlt
    · obtain ⟨hbits, hcont⟩ := digit_bits v (by omega)
      rw [List.singleton_append, decodeDigits, idxOf?_base64Char v (by omega)]
      dsimp only
      rw [if_neg (mt hcont.mp (by omega)), hbits, Nat.mod_eq_of_lt hlt, shl32_eq (by omega) h]
    · obtain ⟨hbits, hcont⟩ := digit_bits (v % 32 + 32) (by omega)
      have hpow : 32 * 2 ^ shift ≤ v * 2 ^ shift := Nat.mul_le_mul_right _ (by omega)
      have hroom : shift + 5 ≤ 30 := by
        by_contra hbig
        have hle : 2 ^ 26 ≤ 2 ^ shift := Nat.pow_le_pow_right (by omega) (by omega)
        omega
      have hsplit : v * 2 ^ shift = v % 32 * 2 ^ shift + v / 32 * 2 ^ (shift + 5) := by
        have hv : v = v % 32 + v / 32 * 32 := by omega
        have hpow5 : 2 ^ (shift + 5) = 32 * 2 ^ shift := by
          rw [Nat.pow_add]
          omega
        rw [hpow5, ← Nat.mul_assoc, ← Nat.add_mul, ← hv]
      rw [List.cons_append, decodeDigits, idxOf?_base64Char _ (by omega)]
      dsimp only
      have hdigit : (v % 32 + 32) % 32 = v % 32 := by omega
      rw [if_pos (hcont.mpr (by omega)), hbits, hdigit, shl32_eq (by omega) (by omega),
        ih (v / 32) (by omega) hroom (by omega), hsplit, Nat.cast_add, Int.add_assoc]

theorem encodeDigits_ne_nil (v : ℕ) : encodeDigits v ≠ [] := by
  rw [encodeDigits]
  split_ifs <;> exact List.cons_ne_nil _ _

theorem decodeSign_eq {n : ℤ} (h : |n| < 2 ^ 30) :
    decodeSign ((2 * n.natAbs + if n < 0 then 1 else 0 : ℕ) : ℤ) = n := by
  have hn := abs_lt.mp h
  unfold decodeSign
  rw [toInt32_eq (Int.natCast_nonneg _) (by split_ifs <;> omega)]
  dsimp only
  split_ifs <;> omega

/-- A number is read back, whatever follows it. -/
theorem decodeDigits_encodeVLQ {n : ℤ} (h : |n| < 2 ^ 30) (rest : List Char) :
    decodeSign (decodeDigits 0 0 (encodeVLQ n ++ rest)).1 = n ∧ (decodeDigits 0 0 (encodeVLQ n ++ rest)).2 = rest := by
  have hn := abs_lt.mp h
  unfold encodeVLQ
  rw [decodeDigits_encodeDigits (Nat.zero_le _) (by split_ifs <;> omega), Nat.pow_zero, Nat.mul_one, Int.zero_add]
  exact ⟨decodeSign_eq h, rfl⟩

theorem decodeNumbers_encodeFields {fields : List ℤ} (h : ∀ n ∈ fields, |n| < 2 ^ 30) {rounds : ℕ}
    (hrounds : (encodeFields fields).length ≤ rounds) : decodeNumbers rounds (encodeFields fields) = fields := by
  induction fields generalizing rounds with
  | nil => cases rounds <;> rfl
  | cons n fields ih =>
    have hcons : encodeFields (n :: fields) = encodeVLQ n ++ encodeFields fields := List.flatMap_cons
    obtain ⟨c, cs, hc⟩ := List.exists_cons_of_ne_nil (encodeDigits_ne_nil (2 * n.natAbs + if n < 0 then 1 else 0))
    have hcs : encodeVLQ n = c :: cs := hc
    obtain ⟨hsign, hrest⟩ := decodeDigits_encodeVLQ (h n List.mem_cons_self) (encodeFields fields)
    rw [hcons, hcs, List.cons_append, List.length_cons, List.length_append] at hrounds
    obtain ⟨rounds, rfl⟩ := Nat.exists_eq_succ_of_ne_zero (show rounds ≠ 0 by omega)
    rw [hcons, hcs, List.cons_append, decodeNumbers, ← List.cons_append, ← hcs, hsign, hrest,
      ih (fun m hm => h m (List.mem_cons_of_mem _ hm)) (by omega)]

/-- `decodeVLQ` reads the standard encoding of small numbers back. -/
theorem decodeVLQ_encodeFields {fields : List ℤ} (h : ∀ n ∈ fields, |n| < 2 ^ 30) :
    decodeVLQ (encodeFields fields) = fields :=
  decodeNumbers_encodeFields h (Nat.le_refl _)

end LynxTrace.Ui.SourceMaps
