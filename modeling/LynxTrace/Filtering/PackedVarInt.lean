import LynxTrace.Base.FnvHash
import LynxTrace.Protozero.Decoder

/-!
# Filtering.PackedVarInt — words as packed varints with a checksum

`PackedVarInt` writes the words, `PackedRepeatedFieldIterator<kVarInt, uint32_t>` reads them back.  A bytecode or an
overlay is such a sequence with the low half of the hash of the other words as its last word
(`parseAndVerifyChecksum_serializeWords`).
-/

namespace LynxTrace.Filtering

open LynxTrace.Wire LynxTrace.Protozero

/-- `PackedVarInt`: the words appended one after the other. -/
def packVarInts (words : List ℕ) : List UInt8 := words.flatMap (encodeVarint 10)

/-- The words a `PackedRepeatedFieldIterator` returns; `none` is a parse error.  The first argument is fuel, no more
than one unit for each byte. -/
def unpackVarInts : ℕ → List UInt8 → Option (List ℕ)
  | _, [] => some []
  | 0, _ :: _ => none
  | fuel + 1, b :: bs =>
    match parseVarInt (b :: bs) with
    | none => none
    | some (value, next) => (unpackVarInts fuel next).map (value % 2 ^ 32 :: ·)

/-- `static_cast<uint32_t>(hasher.digest())`. -/
def checksum (words : List ℕ) : ℕ := FnvHasher.digest words % 2 ^ 32

/-- The end of `Serialize`: the words and their checksum. -/
def serializeWords (words : List ℕ) : List UInt8 := packVarInts (words ++ [checksum words])

/-- `ParseAndVerifyChecksum`: the words without the checksum. -/
def parseAndVerifyChecksum (data : List UInt8) : Option (List ℕ) :=
  match unpackVarInts data.length data with
  | none => none
  | some all =>
    match all.getLast? with
    | none => none
    | some actual => if checksum all.dropLast = actual then some all.dropLast else none

/-! ### Round trip -/

theorem encodeVarint_isVarint64 {v : ℕ} (h : v < 2 ^ 32) : IsVarint64 (encodeVarint 10 v) v :=
  isVarint64_encode (h.trans (by norm_num))

theorem unpack_pack {words : List ℕ} (h : ∀ w ∈ words, w < 2 ^ 32) {fuel : ℕ} (hf : (packVarInts words).length ≤ fuel) :
    unpackVarInts fuel (packVarInts words) = some words := by
  induction words generalizing fuel with
  | nil => cases fuel <;> rfl
  | cons w words ih =>
    have hw : w < 2 ^ 32 := h w (by simp)
    have henc := encodeVarint_isVarint64 hw
    have hlen : 0 < (encodeVarint 10 w).length := List.length_pos_iff.mpr henc.ne_nil
    have hpack : packVarInts (w :: words) = encodeVarint 10 w ++ packVarInts words := by simp [packVarInts]
    rw [hpack, List.length_append] at hf
    obtain ⟨fuel, rfl⟩ : ∃ n, fuel = n + 1 := ⟨fuel - 1, by omega⟩
    have hparse := parseVarInt_append henc (packVarInts words)
    rw [hpack]
    cases hbytes : encodeVarint 10 w ++ packVarInts words with
    | nil => exact absurd (List.append_eq_nil_iff.mp hbytes).1 henc.ne_nil
    | cons b bs =>
      rw [hbytes] at hparse
      simp only [unpackVarInts, hparse, Nat.mod_eq_of_lt hw]
      rw [ih (fun w' hw' => h w' (by simp [hw'])) (by omega)]
      rfl

theorem checksum_lt (words : List ℕ) : checksum words < 2 ^ 32 := Nat.mod_lt _ (by norm_num)

/-- What was serialized is read back. -/
theorem parseAndVerifyChecksum_serializeWords {words : List ℕ} (h : ∀ w ∈ words, w < 2 ^ 32) :
    parseAndVerifyChecksum (serializeWords words) = some words := by
  have hall : ∀ w ∈ words ++ [checksum words], w < 2 ^ 32 := by
    intro w hw
    rcases List.mem_append.mp hw with hw | hw
    · exact h w hw
    · rw [List.mem_singleton.mp hw]
      exact checksum_lt words
  have hunpack : unpackVarInts (serializeWords words).length (serializeWords words) =
      some (words ++ [checksum words]) := unpack_pack hall le_rfl
  simp [parseAndVerifyChecksum, hunpack]

theorem serializeWords_ne_nil (words : List ℕ) : serializeWords words ≠ [] := by
  have henc := encodeVarint_isVarint64 (checksum_lt words)
  intro hnil
  rw [serializeWords, packVarInts, List.flatMap_append] at hnil
  have hlast := (List.append_eq_nil_iff.mp hnil).2
  rw [List.flatMap_singleton] at hlast
  exact henc.ne_nil hlast

end LynxTrace.Filtering
