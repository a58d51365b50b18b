import LynxTrace.Core.BitVector
import LynxTrace.Core.BitVectorWords

/-!
# Core.BitVectorRefinement — the words of a `BitVector` hold a list of booleans
-/

namespace LynxTrace.TraceProcessor.Core.Words

/-! ### Words as bits -/

/-- The bit at a position of the words, unset behind them. -/
def bitAt (words : List Word) (i : ℕ) : Bool := (words.getD (i / 64) 0).getLsbD (i % 64)

/-- The words have the bits of the list and nothing else. -/
structure Holds (bv : BitVector) (a : Core.BitVector) : Prop where
  fits : a.size + 63 < 2 ^ 64
  size : bv.size = a.size
  length : bv.words.length = (a.size + 63) / 64
  bits : ∀ i, bitAt bv.words i = a.isSet i

variable {n i : ℕ}

theorem wordsFor_of_fits (h : n + 63 < 2 ^ 64) : wordsFor n = (n + 63) / 64 := by
  rw [wordsFor, Nat.mod_eq_of_lt h]

variable {words : List Word}

theorem bitAt_of_le (h : words.length ≤ i / 64) : bitAt words i = false := by
  simp [bitAt, List.getElem?_eq_none h]

theorem bitAt_set {o : ℕ} (h : o < words.length) (word : Word) (i : ℕ) :
    bitAt (words.set o word) i = if i / 64 = o then word.getLsbD (i % 64) else bitAt words i := by
  by_cases hi : i / 64 = o
  · subst hi
    simp [bitAt, h]
  · rw [if_neg hi, bitAt, bitAt, List.getD_eq_getElem?_getD, List.getElem?_set_ne (Ne.symm hi),
      ← List.getD_eq_getElem?_getD]

theorem bitAt_concat_zero (words : List Word) (i : ℕ) : bitAt (words ++ [0]) i = bitAt words i := by
  by_cases hi : i / 64 < words.length
  · simp [bitAt, List.getD_eq_getElem?_getD, List.getElem?_append_left hi]
  · rw [bitAt_of_le (Nat.not_lt.mp hi), bitAt]
    rcases Nat.eq_or_lt_of_le (Nat.not_lt.mp hi) with heq | hlt
    · simp [heq.symm]
    · have hnone : (words ++ [(0 : Word)])[i / 64]? = none := List.getElem?_eq_none (by simpa using hlt)
      simp only [List.getD_eq_getElem?_getD, hnone]
      simp

theorem modify_eq {bv : BitVector} {o : ℕ} (h : o < bv.words.length) (f : Word → Word) :
    bv.modify o f = some { bv with words := bv.words.set o (f (bv.words.getD o 0)) } := by
  simp [BitVector.modify, h]

theorem getLsbD_lowMask_lt {k : ℕ} (hk : k < 64) (i : ℕ) : (lowMask k).getLsbD i = decide (i < k) :=
  getLsbD_lowMask hk i

theorem getLsbD_bitAtPlace (bit : Bool) (hi : i < 64) : (bitAtPlace bit n).getLsbD i = (bit && decide (i = n)) := by
  cases bit
  · simp [bitAtPlace]
  · simp only [bitAtPlace, if_true, Bool.true_and, ← BitVec.twoPow_eq, BitVec.getLsbD_twoPow]
    by_cases h : i = n
    · simp [h, h ▸ hi]
    · simp [h, Ne.symm h]

/-! ### The list of booleans -/

section

variable {a : Core.BitVector} {bv : BitVector}

theorem isSet_of_le (h : a.size ≤ i) : a.isSet i = false := by
  simp [Core.BitVector.isSet, List.getElem?_eq_none (show a.bits.length ≤ i from h)]

theorem isSet_change (hi : i < a.size) (bit : Bool) (j : ℕ) :
    (a.change i bit).isSet j = if j = i then bit else a.isSet j := by
  by_cases hj : j = i
  · subst hj
    simp [Core.BitVector.isSet, Core.BitVector.change, show j < a.bits.length from hi]
  · simp [Core.BitVector.isSet, Core.BitVector.change, List.getElem?_set_ne (Ne.symm hj), hj]

theorem isSet_pushBack (bit : Bool) (j : ℕ) :
    (a.pushBack bit).isSet j = if j = a.size then bit else a.isSet j := by
  rcases lt_trichotomy j a.size with hj | rfl | hj
  · have hlt : j < a.bits.length := hj
    simp [Core.BitVector.isSet, Core.BitVector.pushBack, hj.ne, List.getElem?_append_left hlt]
  · simp [Core.BitVector.isSet, Core.BitVector.pushBack, Core.BitVector.size]
  · rw [if_neg hj.ne', isSet_of_le hj.le, isSet_of_le]
    simpa [Core.BitVector.pushBack, Core.BitVector.size] using hj

/-! ### One bit -/

theorem Holds.word_lt (h : Holds bv a) (hi : i < a.size) : i / 64 < bv.words.length := by
  rw [h.length]
  omega

theorem Holds.word_bit (h : Holds bv a) (i : ℕ) : (bv.words.getD (i / 64) 0).getLsbD (i % 64) = a.isSet i := h.bits i

/-- An assignment to a word that changes one bit. -/
theorem Holds.modifyBit (h : Holds bv a) (hi : i < a.size) {f : Word → Word} {bit : Bool}
    (hf : ∀ j < 64, (f (bv.words.getD (i / 64) 0)).getLsbD j =
      if j = i % 64 then bit else (bv.words.getD (i / 64) 0).getLsbD j) :
    ∃ bv', bv.modify (i / 64) f = some bv' ∧ Holds bv' (a.change i bit) := by
  have hsize : (a.change i bit).size = a.size := List.length_set ..
  refine ⟨_, modify_eq (h.word_lt hi) f, hsize ▸ h.fits, hsize ▸ h.size, ?_, fun j => ?_⟩
  · rw [hsize, ← h.length]
    exact List.length_set ..
  · rw [isSet_change hi, bitAt_set (h.word_lt hi)]
    by_cases hword : j / 64 = i / 64
    · rw [if_pos hword, hf _ (Nat.mod_lt _ (by decide)), ← hword, h.word_bit j]
      by_cases hj : j = i
      · rw [if_pos (by rw [hj]), if_pos hj]
      · rw [if_neg (by omega), if_neg hj]
    · rw [if_neg hword, if_neg (by rintro rfl; exact hword rfl), h.bits]

theorem Holds.change (h : Holds bv a) (hi : i < a.size) (bit : Bool) :
    ∃ bv', bv.change i bit = some bv' ∧ Holds bv' (a.change i bit) := by
  refine h.modifyBit hi fun j hj => ?_
  rw [BitVec.getLsbD_or, BitVec.getLsbD_and, BitVec.getLsbD_not, ← BitVec.twoPow_eq, BitVec.getLsbD_twoPow,
    getLsbD_bitAtPlace bit hj]
  have hi64 : i % 64 < 64 := Nat.mod_lt _ (by decide)
  by_cases h : j = i % 64
  · simp [h, hi64]
  · simp [h, hj, Ne.symm h]

theorem Holds.changeAssumeUnset (h : Holds bv a) (hi : i < a.size) (hunset : a.isSet i = false) (bit : Bool) :
    ∃ bv', bv.changeAssumeUnset i bit = some bv' ∧ Holds bv' (a.change i bit) := by
  refine h.modifyBit hi fun j hj => ?_
  rw [BitVec.getLsbD_or, getLsbD_bitAtPlace bit hj]
  by_cases hplace : j = i % 64
  · subst hplace
    rw [h.word_bit, hunset]
    simp
  · simp [hplace]

theorem Holds.set (h : Holds bv a) (hi : i < a.size) : ∃ bv', bv.set i = some bv' ∧ Holds bv' (a.change i true) := by
  refine h.modifyBit hi fun j hj => ?_
  rw [BitVec.getLsbD_or, ← BitVec.twoPow_eq, BitVec.getLsbD_twoPow]
  have hi64 : i % 64 < 64 := Nat.mod_lt _ (by decide)
  by_cases h : j = i % 64
  · simp [h, hi64]
  · simp [h, Ne.symm h]

theorem Holds.clearBit (h : Holds bv a) (hi : i < a.size) :
    ∃ bv', bv.clearBit i = some bv' ∧ Holds bv' (a.change i false) := by
  refine h.modifyBit hi fun j hj => ?_
  rw [BitVec.getLsbD_and, BitVec.getLsbD_not, ← BitVec.twoPow_eq, BitVec.getLsbD_twoPow]
  have hi64 : i % 64 < 64 := Nat.mod_lt _ (by decide)
  by_cases h : j = i % 64
  · simp [h, hi64]
  · simp [h, hj, Ne.symm h]

theorem Holds.pushBack (h : Holds bv a) (hfits : a.size + 1 + 63 < 2 ^ 64) (bit : Bool) :
    ∃ bv', bv.pushBack bit = some bv' ∧ Holds bv' (a.pushBack bit) := by
  have hsize : (a.pushBack bit).size = a.size + 1 := by simp [Core.BitVector.pushBack, Core.BitVector.size]
  let words := if bv.size % 64 = 0 then bv.words ++ [0] else bv.words
  have hlength : words.length = (a.size + 1 + 63) / 64 := by
    show (if bv.size % 64 = 0 then bv.words ++ [0] else bv.words).length = _
    have hold := h.length
    have heq := h.size
    split_ifs with h0
    · rw [List.length_append, List.length_singleton]
      omega
    · omega
  have hbits : ∀ i, bitAt words i = a.isSet i := by
    intro i
    show bitAt (if bv.size % 64 = 0 then bv.words ++ [0] else bv.words) i = _
    split_ifs
    · rw [bitAt_concat_zero, h.bits]
    · exact h.bits i
  have hlt : a.size / 64 < words.length := by omega
  have hmod := @modify_eq ⟨words, bv.size⟩ (bv.size / 64) (by rw [h.size]; exact hlt)
    (· ||| bitAtPlace bit (bv.size % 64))
  refine ⟨_, by rw [BitVector.pushBack, hmod, Option.map_some], hsize ▸ hfits, ?_, ?_, fun j => ?_⟩
  · rw [hsize, h.size]
  · rw [hsize, ← hlength]
    exact List.length_set ..
  · rw [isSet_pushBack, h.size]
    dsimp only
    rw [bitAt_set hlt]
    have hj64 : j % 64 < 64 := Nat.mod_lt _ (by decide)
    by_cases hword : j / 64 = a.size / 64
    · have hbit : (words.getD (j / 64) 0).getLsbD (j % 64) = a.isSet j := hbits j
      rw [if_pos hword, BitVec.getLsbD_or, ← hword, hbit, getLsbD_bitAtPlace bit hj64]
      by_cases hj : j = a.size
      · simp [hj, isSet_of_le (le_refl a.size)]
      · have hne : ¬ j % 64 = a.size % 64 := by omega
        simp [hj, hne]
    · rw [if_neg hword, if_neg (by rintro rfl; exact hword rfl), hbits]

/-! ### Sizes -/

theorem getD_replicate (n : ℕ) (word : Word) (o : ℕ) :
    (List.replicate n word).getD o 0 = if o < n then word else 0 := by
  by_cases h : o < n <;> simp [h]

theorem getLsbD_fill (value : Bool) (hi : i < 64) :
    (if value then BitVec.allOnes 64 else 0 : Word).getLsbD i = value := by
  cases value with
  | false => simp
  | true => rw [if_pos rfl, BitVec.getLsbD_allOnes, decide_eq_true hi]

/-- The bits behind a size are cleared in its last word. -/
theorem modify_trim (hlen : bv.words.length = (n + 63) / 64) (hpart : n % 64 ≠ 0) :
    ∃ words, bv.modify ((n + 63) / 64 - 1) (· &&& lowMask (n % 64)) = some { bv with words := words } ∧
      words.length = bv.words.length ∧ ∀ i, bitAt words i = (decide (i < n) && bitAt bv.words i) := by
  have hlast : (n + 63) / 64 - 1 = n / 64 := by omega
  have hlt : n / 64 < bv.words.length := by omega
  rw [hlast]
  refine ⟨_, modify_eq hlt _, List.length_set .., fun i => ?_⟩
  rw [bitAt_set hlt]
  by_cases hword : i / 64 = n / 64
  · rw [if_pos hword, BitVec.getLsbD_and, getLsbD_lowMask_lt (Nat.mod_lt _ (by decide)), ← hword, Bool.and_comm]
    congr 1
    exact decide_eq_decide.mpr (by omega)
  · rw [if_neg hword]
    by_cases hi : i < n
    · simp [hi]
    · rw [bitAt_of_le (by omega), Bool.and_false]

theorem bitAt_whole (hlen : words.length = (n + 63) / 64) (hwhole : n % 64 = 0) (i : ℕ) :
    bitAt words i = (decide (i < n) && bitAt words i) := by
  by_cases hi : i < n
  · simp [hi]
  · rw [bitAt_of_le (by omega), Bool.and_false]

theorem holds_createWithSize (hn : n + 63 < 2 ^ 64) (value : Bool) :
    ∃ bv, BitVector.createWithSize n value = some bv ∧ Holds bv ⟨List.replicate n value⟩ := by
  have hsize : (⟨List.replicate n value⟩ : Core.BitVector).size = n := List.length_replicate
  by_cases h0 : n = 0
  · subst h0
    exact ⟨{}, rfl, by rw [hsize]; exact hn, rfl, by rw [hsize]; rfl, fun i => by simp [bitAt, Core.BitVector.isSet]⟩
  let bv : BitVector := ⟨List.replicate (wordsFor n) (if value then BitVec.allOnes 64 else 0), n⟩
  have hlen : bv.words.length = (n + 63) / 64 := by
    rw [← wordsFor_of_fits hn]
    exact List.length_replicate
  have hfill : ∀ i, (decide (i < n) && bitAt bv.words i) = (⟨List.replicate n value⟩ : Core.BitVector).isSet i := by
    intro i
    by_cases hi : i < n
    · have hword : i / 64 < wordsFor n := by
        rw [wordsFor_of_fits hn]
        omega
      rw [decide_eq_true hi, Bool.true_and, bitAt, getD_replicate, if_pos hword,
        getLsbD_fill value (Nat.mod_lt _ (by decide))]
      simp [Core.BitVector.isSet, hi]
    · rw [decide_eq_false hi, Bool.false_and, isSet_of_le]
      rw [hsize]
      exact Nat.not_lt.mp hi
  rw [BitVector.createWithSize, if_neg h0]
  by_cases hpart : n % 64 ≠ 0
  · obtain ⟨words, hmod, hwords, hbits⟩ := modify_trim hlen hpart
    refine ⟨⟨words, n⟩, (if_pos hpart).trans ?_, by rwa [hsize], hsize.symm, ?_, fun i => (hbits i).trans (hfill i)⟩
    · show bv.modify (wordsFor n - 1) _ = _
      rw [wordsFor_of_fits hn]
      exact hmod
    · rw [hsize, ← hlen]
      exact hwords
  · refine ⟨bv, if_neg hpart, by rwa [hsize], hsize.symm, by rwa [hsize], fun i => ?_⟩
    exact (bitAt_whole hlen (not_not.mp hpart) i).trans (hfill i)

theorem length_resizeWords (fresh : ℕ → Word) (words : List Word) (n : ℕ) :
    (BitVector.resizeWords fresh words n).length = n := by
  simp [BitVector.resizeWords]
  omega

theorem bitAt_resizeWords (fresh : ℕ → Word) (hn : i / 64 < n) (hi : i / 64 < words.length) :
    bitAt (BitVector.resizeWords fresh words n) i = bitAt words i := by
  have hget : (BitVector.resizeWords fresh words n)[i / 64]? = words[i / 64]? := by
    rw [BitVector.resizeWords, List.getElem?_append_left (by simp; omega), List.getElem?_take_of_lt hn]
  rw [bitAt, bitAt, List.getD_eq_getElem?_getD, hget, List.getD_eq_getElem?_getD]

/-- **The new bits** all have the value, whatever the memory held. -/
theorem fillNew_spec {oldSize : ℕ} (hold : oldSize + 63 < 2 ^ 64) (hlen : (oldSize + 63) / 64 ≤ bv.words.length)
    (value : Bool) : ∃ words, bv.fillNew oldSize value = some { bv with words := words } ∧
      words.length = bv.words.length ∧
      ∀ i, i / 64 < bv.words.length → bitAt words i = if i < oldSize then bitAt bv.words i else value := by
  let fill : Word := if value then BitVec.allOnes 64 else 0
  let words := bv.words.mapIdx fun i word => if wordsFor oldSize ≤ i then fill else word
  have hlength : words.length = bv.words.length := List.length_mapIdx
  have hwhole : ∀ i, i / 64 < bv.words.length →
      bitAt words i = if (oldSize + 63) / 64 ≤ i / 64 then value else bitAt bv.words i := by
    intro i hi
    have hget : words.getD (i / 64) 0 =
        if (oldSize + 63) / 64 ≤ i / 64 then fill else bv.words.getD (i / 64) 0 := by
      simp [words, hi, wordsFor_of_fits hold]
    rw [bitAt, hget]
    split_ifs
    · exact getLsbD_fill value (Nat.mod_lt _ (by decide))
    · rfl
  rw [BitVector.fillNew]
  by_cases hpart : oldSize % 64 ≠ 0
  · have hlt : oldSize / 64 < words.length := by omega
    refine ⟨_, (if_pos hpart).trans (@modify_eq ⟨words, bv.size⟩ _ hlt _), ?_, fun i hi => ?_⟩
    · rw [← hlength]
      exact List.length_set ..
    · dsimp only
      rw [bitAt_set hlt]
      by_cases hword : i / 64 = oldSize / 64
      · have hi64 : i % 64 < 64 := Nat.mod_lt _ (by decide)
        have hbit : (words.getD (i / 64) 0).getLsbD (i % 64) = bitAt bv.words i := by
          rw [← bitAt, hwhole i hi, if_neg (by omega)]
        have hmask := getLsbD_lowMask_lt (Nat.mod_lt oldSize (by decide)) (i % 64)
        have hiff : i % 64 < oldSize % 64 ↔ i < oldSize := by omega
        rw [if_pos hword]
        cases value with
        | true =>
          rw [if_pos rfl, BitVec.getLsbD_or, BitVec.getLsbD_not, hmask, ← hword, hbit]
          by_cases hlt : i < oldSize <;> simp [hlt, hiff, hi64]
        | false =>
          rw [if_neg (by simp), BitVec.getLsbD_and, BitVec.getLsbD_not, BitVec.getLsbD_not, hmask, ← hword, hbit]
          by_cases hlt : i < oldSize <;> simp [hlt, hiff, hi64]
      · rw [if_neg hword, hwhole i hi]
        by_cases hlt : i < oldSize
        · rw [if_neg (by omega), if_pos hlt]
        · rw [if_pos (by omega), if_neg hlt]
  · refine ⟨words, if_neg hpart, hlength, fun i hi => ?_⟩
    rw [hwhole i hi]
    by_cases hlt : i < oldSize
    · rw [if_neg (by omega), if_pos hlt]
    · rw [if_pos (by omega), if_neg hlt]

/-- `resize`, of a list of booleans. -/
def resizeBits (a : Core.BitVector) (n : ℕ) (value : Bool) : Core.BitVector :=
  ⟨a.bits.take n ++ List.replicate (n - a.size) value⟩

theorem size_resizeBits (a : Core.BitVector) (n : ℕ) (value : Bool) : (resizeBits a n value).size = n := by
  simp [resizeBits, Core.BitVector.size]
  omega

theorem isSet_resizeBits (a : Core.BitVector) (n : ℕ) (value : Bool) (i : ℕ) :
    (resizeBits a n value).isSet i = (decide (i < n) && if i < a.size then a.isSet i else value) := by
  by_cases hn : i < n
  · by_cases hi : i < a.bits.length
    · have hlt : i < a.size := hi
      simp [Core.BitVector.isSet, resizeBits, hlt, List.getElem?_append_left, hn, hi]
    · have hle : ¬ i < a.size := hi
      have hpast : (a.bits.take n).length ≤ i := by
        rw [List.length_take]
        omega
      have hplace : i - min n a.bits.length < n - a.size := by
        show _ < n - a.bits.length
        omega
      simp [Core.BitVector.isSet, resizeBits, hle, List.getElem?_append_right hpast, hn, hplace]
  · rw [isSet_of_le (by rw [size_resizeBits]; omega), decide_eq_false hn, Bool.false_and]

/-- What is left to do after the words have their number. -/
theorem trim_spec (hn : n + 63 < 2 ^ 64) (hlen : bv.words.length = (n + 63) / 64) :
    ∃ words, bv.trim n = some { bv with words := words } ∧ words.length = (n + 63) / 64 ∧
      ∀ i, bitAt words i = (decide (i < n) && bitAt bv.words i) := by
  rw [BitVector.trim, wordsFor_of_fits hn]
  by_cases hpart : n % 64 ≠ 0
  · obtain ⟨words, hmod, hwords, hbits⟩ := modify_trim hlen hpart
    exact ⟨words, (if_pos ⟨hpart, by omega⟩).trans hmod, hwords.trans hlen, hbits⟩
  · exact ⟨bv.words, if_neg fun h => hpart h.1, hlen, bitAt_whole hlen (not_not.mp hpart)⟩

theorem Holds.resize (h : Holds bv a) (fresh : ℕ → Word) (hn : n + 63 < 2 ^ 64) (value : Bool) :
    ∃ bv', bv.resize fresh n value = some bv' ∧ Holds bv' (resizeBits a n value) := by
  have hold := h.size
  have hlength := h.length
  let resized : BitVector := { bv with words := BitVector.resizeWords fresh bv.words (wordsFor n) }
  have hresized : resized.words.length = (n + 63) / 64 := by
    rw [← wordsFor_of_fits hn]
    exact length_resizeWords ..
  have hkept : ∀ i, i < n → i < a.size → bitAt resized.words i = a.isSet i := by
    intro i hi hia
    rw [← h.bits i]
    exact bitAt_resizeWords fresh (by rw [wordsFor_of_fits hn]; omega) (by omega)
  -- grown or not, the bits below the new size are right
  obtain ⟨filled, hfill, hfilled, hbits⟩ : ∃ filled : BitVector,
      (if bv.size < n then resized.fillNew bv.size value else some resized) = some filled ∧
      filled.words.length = (n + 63) / 64 ∧
      ∀ i < n, bitAt filled.words i = if i < a.size then a.isSet i else value := by
    by_cases hgrow : bv.size < n
    · obtain ⟨words, heq, hwords, hnew⟩ := @fillNew_spec resized bv.size (by rw [hold]; exact h.fits) (by omega) value
      refine ⟨_, (if_pos hgrow).trans heq, hwords.trans hresized, fun i hi => ?_⟩
      rw [hnew i (by omega), hold]
      by_cases hia : i < a.size
      · rw [if_pos hia, if_pos hia, hkept i hi hia]
      · rw [if_neg hia, if_neg hia]
    · refine ⟨resized, if_neg hgrow, hresized, fun i hi => ?_⟩
      have hia : i < a.size := by omega
      rw [if_pos hia, hkept i hi hia]
  obtain ⟨words, htrim, hwords, htrimmed⟩ := trim_spec hn hfilled
  refine ⟨⟨words, n⟩, ?_, ?_, ?_, ?_, fun i => ?_⟩
  · show ((if bv.size < n then resized.fillNew bv.size value else some resized).bind fun filled => _) = _
    rw [hfill, Option.bind_some, htrim, Option.map_some]
  · rwa [size_resizeBits]
  · rw [size_resizeBits]
  · rwa [size_resizeBits]
  · rw [htrimmed, isSet_resizeBits]
    by_cases hi : i < n
    · rw [hbits i hi]
    · simp [hi]

theorem Holds.pushBackMultiple (bit : Bool) {count : ℕ} : ∀ {bv : BitVector} {a : Core.BitVector}, Holds bv a →
    a.size + count + 63 < 2 ^ 64 →
    ∃ bv', bv.pushBackMultiple bit count = some bv' ∧ Holds bv' ⟨a.bits ++ List.replicate count bit⟩ := by
  induction count with
  | zero => exact fun {bv a} h _ => ⟨bv, rfl, by simpa using h⟩
  | succ count ih =>
    intro bv a h hfits
    obtain ⟨bv₁, hpush, h₁⟩ := h.pushBack (by omega) bit
    have hsize : (a.pushBack bit).size = a.size + 1 := by simp [Core.BitVector.pushBack, Core.BitVector.size]
    obtain ⟨bv₂, hrest, h₂⟩ := ih h₁ (by omega)
    refine ⟨bv₂, by rw [BitVector.pushBackMultiple, hpush, Option.bind_some, hrest], ?_⟩
    rw [List.replicate_succ, ← List.singleton_append, ← List.append_assoc]
    exact h₂

theorem Holds.clone (h : Holds bv a) : ∃ bv', bv.clone = some bv' ∧ Holds bv' a := by
  have hwords : wordsFor bv.size = bv.words.length := by
    rw [h.size, wordsFor_of_fits h.fits, h.length]
  rw [BitVector.clone]
  split_ifs with h0 hle
  · refine ⟨{}, rfl, h.fits, h0.symm.trans h.size, ?_, fun i => ?_⟩
    · rw [← h.size, h0]
      rfl
    · rw [isSet_of_le (by rw [← h.size, h0]; exact Nat.zero_le i)]
      exact bitAt_of_le (Nat.zero_le _)
  · refine ⟨_, rfl, h.fits, h.size, ?_, ?_⟩
    · rw [hwords, List.take_length, h.length]
    · rw [hwords, List.take_length]
      exact h.bits
  · exact absurd hwords.le hle

theorem holds_clear : Holds bv.clear ⟨[]⟩ :=
  ⟨by decide, rfl, rfl, fun i => by simp [BitVector.clear, bitAt, Core.BitVector.isSet]⟩

theorem Holds.clearAllBits (h : Holds bv a) : Holds bv.clearAllBits ⟨List.replicate a.size false⟩ := by
  have hsize : (⟨List.replicate a.size false⟩ : Core.BitVector).size = a.size := List.length_replicate
  refine ⟨by rw [hsize]; exact h.fits, by rw [hsize]; exact h.size, ?_, fun i => ?_⟩
  · rw [hsize, ← h.length]
    exact List.length_map ..
  · have hzero : bitAt (bv.words.map fun _ => (0 : Word)) i = false := by
      by_cases hi : i / 64 < bv.words.length <;> simp [bitAt, hi]
    rw [BitVector.clearAllBits, hzero]
    by_cases hi : i < a.size <;> simp [Core.BitVector.isSet, hi]

end

end LynxTrace.TraceProcessor.Core.Words
