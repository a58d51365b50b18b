import LynxTrace.Core.BitVectorRefinement

/-!
# Core.BitVectorCompact — `Compact` keeps the bits that the mask selects
-/

namespace LynxTrace.TraceProcessor.Core.Words

/-! ### One word -/

theorem twoPow_add_self (k : ℕ) : BitVec.twoPow 64 k + BitVec.twoPow 64 k = BitVec.twoPow 64 (k + 1) := by
  apply BitVec.eq_of_toNat_eq
  rw [BitVec.toNat_add, BitVec.toNat_twoPow, BitVec.toNat_twoPow, ← Nat.add_mod, pow_succ]
  congr 1
  omega

theorem getD_cons_sub {b : Bool} {l : List Bool} {k j : ℕ} :
    (decide (k ≤ j) && (b :: l).getD (j - k) false) =
      ((b && decide (j = k)) || (decide (k + 1 ≤ j) && l.getD (j - (k + 1)) false)) := by
  rcases lt_trichotomy j k with h | rfl | h
  · simp [h.ne, Nat.not_le.mpr h, show ¬ k + 1 ≤ j by omega]
  · simp
  · obtain ⟨d, rfl⟩ : ∃ d, j = k + 1 + d := ⟨j - (k + 1), by omega⟩
    simp [show k + 1 + d - k = d + 1 by omega, show k ≤ k + 1 + d by omega, show k + 1 + d ≠ k by omega]

/-- **The loop of `PextSlow`** adds the selected bits from place `k` on. -/
theorem getLsbD_pextLoop (word mask : Word) (k : ℕ) (result : Word) (j : ℕ)
    (hfit : k + (positions mask).length ≤ 64) :
    (pextLoop word mask (BitVec.twoPow 64 k) result).getLsbD j =
      (result.getLsbD j || (decide (k ≤ j) && (gather word mask).getD (j - k) false)) := by
  induction hn : mask.toNat using Nat.strong_induction_on generalizing mask k result with
  | _ n ih =>
    subst hn
    rw [pextLoop]
    split_ifs with hmask hbit
    · rw [hmask, gather, positions_zero]
      simp
    all_goals
      obtain ⟨low, hpos, hlow⟩ := positions_cons hmask
      have hlen : (positions mask).length = (positions (mask &&& (mask - 1#64))).length + 1 := by
        rw [hpos, List.length_cons]
      have hgather : gather word mask = word.getLsbD low :: gather word (mask &&& (mask - 1#64)) := by
        rw [gather, hpos, List.map_cons, gather]
      rw [twoPow_add_self, ih _ (and_sub_one_lt hmask) _ (k + 1) _ (by omega) rfl, hgather, getD_cons_sub]
    · rw [(hlow word).mp hbit, BitVec.getLsbD_or, BitVec.getLsbD_twoPow, Bool.or_assoc]
      by_cases hj : j = k
      · simp [hj, show k < 64 by omega]
      · simp [hj, Ne.symm hj]
    · rw [Bool.eq_false_iff.mpr fun h => hbit ((hlow word).mpr h)]
      simp

theorem getLsbD_pextSlow (word mask : Word) (j : ℕ) :
    (pextSlow word mask).getLsbD j = (gather word mask).getD j false := by
  rw [pextSlow]
  split_ifs with h
  · rcases h with rfl | rfl
    · by_cases hj : j < (positions mask).length <;> simp [gather, hj]
    · rw [gather, positions_allOnes]
      by_cases hj : j < 64
      · simp [hj]
      · rw [BitVec.getLsbD_of_ge _ _ (Nat.not_lt.mp hj)]
        simp [hj]
  · have hfit : 0 + (positions mask).length ≤ 64 := by
      rw [Nat.zero_add]
      exact length_positions_le mask
    simpa [BitVec.twoPow_eq] using getLsbD_pextLoop word mask 0 0 j hfit

theorem getLsbD_pextU64Loop (word mask : Word) {left m : ℕ} (k : ℕ) (result : Word) {j : ℕ} (hj : j < 64) :
    (pextU64Loop word mask left m k result).getLsbD j = (result.getLsbD j ||
      (decide (k ≤ j) && (((List.range' m left).filter mask.getLsbD).map word.getLsbD).getD (j - k) false)) := by
  induction left generalizing m k result with
  | zero => simp [pextU64Loop]
  | succ left ih =>
    rw [pextU64Loop, List.range'_succ]
    split_ifs with hset
    · rw [List.filter_cons_of_pos hset, List.map_cons, getD_cons_sub, ih, BitVec.getLsbD_or, getLsbD_bitAtPlace _ hj,
        Bool.or_assoc]
    · rw [List.filter_cons_of_neg hset, ih]

/-- **`Pext`**, by the instruction and by the loop. -/
theorem getLsbD_pext (cpuOpt : Bool) (word mask : Word) (j : ℕ) :
    (pext cpuOpt word mask).getLsbD j = (gather word mask).getD j false := by
  cases cpuOpt with
  | false => exact getLsbD_pextSlow word mask j
  | true =>
    by_cases hj : j < 64
    · have h := @getLsbD_pextU64Loop word mask 64 0 0 0 j hj
      simpa [pext, gather, positions, List.range_eq_range'] using h
    · have hlen : (gather word mask).length ≤ j := by
        rw [length_gather]
        exact (length_positions_le mask).trans (Nat.not_lt.mp hj)
      rw [BitVec.getLsbD_of_ge _ _ (Nat.not_lt.mp hj), List.getD_eq_getElem?_getD, List.getElem?_eq_none hlen]
      rfl

/-! ### All words -/

/-- The bits of `a` below `n` that `keep` selects, in order. -/
def keptBelow (a keep : Core.BitVector) (n : ℕ) : List Bool := ((List.range n).filter keep.isSet).map a.isSet

/-- `Compact`, of lists of booleans. -/
def compactBits (a keep : Core.BitVector) : Core.BitVector := ⟨keptBelow a keep keep.size⟩

theorem length_keptBelow_le (a keep : Core.BitVector) (n : ℕ) : (keptBelow a keep n).length ≤ n := by
  rw [keptBelow, List.length_map]
  exact (List.length_filter_le _ _).trans (by rw [List.length_range])

theorem keptBelow_add (a keep : Core.BitVector) (n m : ℕ) : keptBelow a keep (n + m) =
    keptBelow a keep n ++ ((List.range m).filter fun i => keep.isSet (n + i)).map fun i => a.isSet (n + i) := by
  rw [keptBelow, keptBelow, List.range_add, List.filter_append, List.map_append, List.filter_map, List.map_map]
  rfl

/-- Behind its end a mask selects nothing. -/
theorem keptBelow_of_size_le (a keep : Core.BitVector) {n : ℕ} (h : keep.size ≤ n) :
    keptBelow a keep n = (compactBits a keep).bits := by
  obtain ⟨m, rfl⟩ := Nat.exists_eq_add_of_le h
  have hnone : ((List.range m).filter fun i => keep.isSet (keep.size + i)) = [] := by
    rw [List.filter_eq_nil_iff]
    intro i _
    simp [isSet_of_le (Nat.le_add_right keep.size i)]
  rw [keptBelow_add, hnone, List.map_nil, List.append_nil]
  rfl

/-- The selected bits are as many as the mask has. -/
theorem size_compactBits (a keep : Core.BitVector) : (compactBits a keep).size = keep.rank keep.size := by
  rw [Core.BitVector.rank_eq_length]
  exact List.length_map ..

section

variable {a keep : Core.BitVector} {orig keepWords : List Word} {cpuOpt : Bool}

/-- One word more. -/
theorem keptBelow_word (horig : ∀ i, bitAt orig i = a.isSet i) (hkeep : ∀ i, bitAt keepWords i = keep.isSet i)
    {cur : ℕ} {word mask : Word} (hword : orig[cur]? = some word) (hmask : keepWords[cur]? = some mask) :
    keptBelow a keep (64 * (cur + 1)) = keptBelow a keep (64 * cur) ++ gather word mask := by
  have hplace : ∀ i < 64, (64 * cur + i) / 64 = cur ∧ (64 * cur + i) % 64 = i := by omega
  have hmaskBit : ∀ i < 64, keep.isSet (64 * cur + i) = mask.getLsbD i := by
    intro i hi
    rw [← hkeep, bitAt, (hplace i hi).1, (hplace i hi).2, List.getD_eq_getElem?_getD, hmask, Option.getD_some]
  have hwordBit : ∀ i < 64, a.isSet (64 * cur + i) = word.getLsbD i := by
    intro i hi
    rw [← horig, bitAt, (hplace i hi).1, (hplace i hi).2, List.getD_eq_getElem?_getD, hword, Option.getD_some]
  rw [show 64 * (cur + 1) = 64 * cur + 64 by omega, keptBelow_add, gather, positions]
  congr 1
  rw [List.filter_congr fun i hi => hmaskBit i (List.mem_range.mp hi)]
  exact List.map_congr_left fun i hi => hwordBit i (List.mem_range.mp (List.mem_filter.mp hi).1)

/-- **The loop invariant**: below `cur` the selected bits stand in front, packed; the words from `cur` on are not
touched yet. -/
structure Compacting (a keep : Core.BitVector) (orig : List Word) (cur : ℕ) (words : List Word)
    (outWord outWordBits total : ℕ) : Prop where
  length : words.length = orig.length
  rest : ∀ o, cur ≤ o → words[o]? = orig[o]?
  place : 64 * outWord + outWordBits = (keptBelow a keep (64 * cur)).length
  lt : outWordBits < 64
  bits : ∀ i, 64 * (i / 64) < (keptBelow a keep (64 * cur)).length →
    bitAt words i = (keptBelow a keep (64 * cur)).getD i false
  total : total = (keptBelow a keep (64 * cur)).length % 2 ^ 32

theorem getD_append_bits (l l' : List Bool) (i : ℕ) :
    (l ++ l').getD i false = if i < l.length then l.getD i false else l'.getD (i - l.length) false := by
  split_ifs with h
  · simp [List.getElem?_append_left h]
  · simp [List.getElem?_append_right (Nat.not_lt.mp h)]

/-- The first assignment of a step fills the word at `out_word`. -/
theorem Compacting.fill {cur outWord outWordBits total : ℕ} {words : List Word} {ext out : Word} {more : List Bool}
    (h : Compacting a keep orig cur words outWord outWordBits total) (hcur : cur < orig.length)
    (hext : ∀ j, ext.getLsbD j = more.getD j false) (hout : words[outWord]? = some out) {i : ℕ}
    (hi : i / 64 ≤ outWord) :
    bitAt (words.set outWord (if outWordBits = 0 then ext else out ||| ext <<< outWordBits)) i =
      (keptBelow a keep (64 * cur) ++ more).getD i false := by
  have hplace := h.place
  have hle := length_keptBelow_le a keep (64 * cur)
  have hlt := h.lt
  have hlen := h.length
  rw [bitAt_set (by omega), getD_append_bits]
  rcases Nat.lt_or_eq_of_le hi with hbefore | hhere
  · rw [if_neg hbefore.ne, if_pos (by omega), h.bits i (by omega)]
  · rw [if_pos hhere]
    have hmod : i % 64 < 64 := Nat.mod_lt _ (by decide)
    by_cases h0 : outWordBits = 0
    · rw [if_pos h0, if_neg (by omega), hext]
      congr 1
      omega
    · have hold : out.getLsbD (i % 64) = (keptBelow a keep (64 * cur)).getD i false := by
        rw [← h.bits i (by omega), bitAt, hhere, List.getD_eq_getElem?_getD, hout, Option.getD_some]
      rw [if_neg h0, BitVec.getLsbD_or, BitVec.getLsbD_shiftLeft, hold, hext]
      by_cases hi' : i < (keptBelow a keep (64 * cur)).length
      · rw [if_pos hi', decide_eq_true (show i % 64 < outWordBits by omega)]
        simp
      · rw [if_neg hi', List.getD_eq_getElem?_getD, List.getElem?_eq_none (Nat.not_lt.mp hi'),
          decide_eq_false (show ¬ i % 64 < outWordBits by omega), decide_eq_true hmod,
          show i % 64 - outWordBits = i - (keptBelow a keep (64 * cur)).length by omega]
        simp

/-- **`CompactInPlace`** goes over all words. -/
theorem compactLoop_spec (horig : ∀ i, bitAt orig i = a.isSet i) (hkeep : ∀ i, bitAt keepWords i = keep.isSet i)
    (hlen : keepWords.length = orig.length) {left cur outWord outWordBits total : ℕ} {words : List Word}
    (h : Compacting a keep orig cur words outWord outWordBits total) (hleft : cur + left = orig.length) :
    ∃ words' outWord' outWordBits' total',
      compactLoop cpuOpt keepWords left cur words outWord outWordBits total = some (words', total') ∧
      Compacting a keep orig orig.length words' outWord' outWordBits' total' := by
  induction left generalizing cur words outWord outWordBits total with
  | zero =>
    obtain rfl : cur = orig.length := by omega
    exact ⟨words, outWord, outWordBits, total, rfl, h⟩
  | succ left ih =>
    have hcur : cur < orig.length := by omega
    have hplace := h.place
    have hlt := h.lt
    have hle := length_keptBelow_le a keep (64 * cur)
    obtain ⟨word, hword⟩ : ∃ word, orig[cur]? = some word := ⟨_, List.getElem?_eq_getElem hcur⟩
    obtain ⟨mask, hmask⟩ : ∃ mask, keepWords[cur]? = some mask := ⟨_, List.getElem?_eq_getElem (hlen ▸ hcur)⟩
    obtain ⟨out, hout⟩ : ∃ out, words[outWord]? = some out :=
      ⟨_, List.getElem?_eq_getElem (show outWord < words.length by rw [h.length]; omega)⟩
    have hnext := keptBelow_word horig hkeep hword hmask
    have hcount : popcount mask = (gather word mask).length := (length_gather word mask).symm
    have hpop : popcount mask ≤ 64 := length_positions_le mask
    have hlength : (keptBelow a keep (64 * (cur + 1))).length =
        64 * outWord + (outWordBits + popcount mask) := by
      rw [hnext, List.length_append, hcount]
      omega
    have hle' := length_keptBelow_le a keep (64 * (cur + 1))
    set ext := pext cpuOpt word mask with hextDef
    have hext : ∀ j, ext.getLsbD j = (gather word mask).getD j false := getLsbD_pext cpuOpt word mask
    set words₁ := words.set outWord (if outWordBits = 0 then ext else out ||| ext <<< outWordBits) with hwords₁
    have hfill : ∀ i, i / 64 ≤ outWord → bitAt words₁ i = (keptBelow a keep (64 * (cur + 1))).getD i false := by
      intro i hi
      rw [hnext]
      exact h.fill hcur hext hout hi
    have hlen₁ : words₁.length = orig.length := (List.length_set ..).trans h.length
    have hrest₁ : ∀ o, cur + 1 ≤ o → words₁[o]? = orig[o]? := by
      intro o ho
      rw [hwords₁, List.getElem?_set_ne (by omega), h.rest o (by omega)]
    have htotal : (total + popcount mask) % 2 ^ 32 = (keptBelow a keep (64 * (cur + 1))).length % 2 ^ 32 := by
      rw [hlength, h.total, Nat.mod_add_mod, ← hplace]
      congr 1
      omega
    rw [compactLoop, h.rest cur le_rfl]
    simp only [hword, hmask, hout, Option.bind_eq_bind, Option.bind_some, ← hextDef, ← hwords₁]
    by_cases hspill : 64 < outWordBits + popcount mask
    · have hto : outWord + 1 < words₁.length := by omega
      rw [if_pos hspill, if_pos (by omega), List.getElem?_eq_getElem hto, Option.bind_some]
      refine ih ⟨(List.length_set ..).trans hlen₁, fun o ho => ?_, ?_, ?_, fun i hi => ?_, htotal⟩ (by omega)
      · rw [List.getElem?_set_ne (by omega), hrest₁ o ho]
      · omega
      · omega
      · rw [bitAt_set hto]
        by_cases hhere : i / 64 = outWord + 1
        · rw [if_pos hhere, BitVec.getLsbD_ushiftRight, hext, hnext, getD_append_bits, if_neg (by omega)]
          congr 1
          omega
        · rw [if_neg hhere]
          exact hfill i (by omega)
    · rw [if_neg hspill]
      by_cases hfull : 64 ≤ outWordBits + popcount mask
      · rw [if_pos hfull]
        exact ih ⟨hlen₁, hrest₁, by omega, by omega, fun i hi => hfill i (by omega), htotal⟩ (by omega)
      · rw [if_neg hfull]
        exact ih ⟨hlen₁, hrest₁, by omega, by omega, fun i hi => hfill i (by omega), htotal⟩ (by omega)

/-- A `resize` that does not grow. -/
theorem resize_shrink {bv : BitVector} {n : ℕ} (hn : n + 63 < 2 ^ 64) (hle : n ≤ bv.size)
    (hwords : (n + 63) / 64 ≤ bv.words.length) (fresh : ℕ → Word) (value : Bool) :
    ∃ words, bv.resize fresh n value = some ⟨words, n⟩ ∧ words.length = (n + 63) / 64 ∧
      ∀ i, bitAt words i = (decide (i < n) && bitAt bv.words i) := by
  let resized : BitVector := { bv with words := BitVector.resizeWords fresh bv.words (wordsFor n) }
  have hresized : resized.words.length = (n + 63) / 64 := by
    rw [← wordsFor_of_fits hn]
    exact length_resizeWords ..
  obtain ⟨words, htrim, hlength, hbits⟩ := trim_spec hn hresized
  refine ⟨words, ?_, hlength, fun i => ?_⟩
  · show ((if bv.size < n then resized.fillNew bv.size value else some resized).bind fun filled => _) = _
    rw [if_neg (Nat.not_lt.mpr hle), Option.bind_some, htrim, Option.map_some]
  · rw [hbits]
    by_cases hi : i < n
    · have hkept : bitAt resized.words i = bitAt bv.words i :=
        bitAt_resizeWords fresh (by rw [wordsFor_of_fits hn]; omega) (by omega)
      rw [hkept]
    · rw [decide_eq_false hi, Bool.false_and, Bool.false_and]

/-- **`Compact`**, with its count of kept bits in 32 bits. -/
theorem Holds.compact {bv kv : BitVector} (h : Holds bv a) (hk : Holds kv keep) (hsize : a.size = keep.size) :
    ∃ bv', bv.compact cpuOpt kv = some bv' ∧ bv'.size = (compactBits a keep).size % 2 ^ 32 ∧
      ((compactBits a keep).size < 2 ^ 32 → Holds bv' (compactBits a keep)) := by
  have hfits := h.fits
  have hwords := h.length
  have hkwords := hk.length
  have hbvsize := h.size
  have hstart : Compacting a keep bv.words 0 bv.words 0 0 0 :=
    ⟨rfl, fun _ _ => rfl, rfl, by decide, fun i hi => absurd hi (Nat.not_lt_zero _), rfl⟩
  obtain ⟨words, outWord, outWordBits, total, hloop, hend⟩ :=
    @compactLoop_spec a keep bv.words kv.words cpuOpt h.bits hk.bits (by omega) _ 0 _ _ _ _ hstart (Nat.zero_add _)
  have hall : keptBelow a keep (64 * bv.words.length) = (compactBits a keep).bits :=
    keptBelow_of_size_le a keep (by omega)
  have hkept : (compactBits a keep).size ≤ a.size := by
    rw [hsize]
    exact length_keptBelow_le a keep keep.size
  have htotal : total = (compactBits a keep).size % 2 ^ 32 := by
    rw [hend.total, hall]
    rfl
  have hmod := Nat.mod_le (compactBits a keep).size (2 ^ 32)
  have hlength := hend.length
  obtain ⟨trimmed, hresize, htrimmed, hbits⟩ := @resize_shrink { bv with words := words } total (by omega)
    (by dsimp only; omega) (by dsimp only; omega) (fun _ => 0) false
  refine ⟨⟨trimmed, total⟩, ?_, htotal, fun hsmall => ?_⟩
  · rw [BitVector.compact, hloop, Option.bind_some, hresize]
  · rw [Nat.mod_eq_of_lt hsmall] at htotal
    refine ⟨by omega, htotal, by rw [← htotal]; exact htrimmed, fun i => ?_⟩
    rw [hbits]
    by_cases hi : i < total
    · have hplace : 64 * (i / 64) < (keptBelow a keep (64 * bv.words.length)).length := by
        rw [hall]
        show _ < (compactBits a keep).size
        omega
      have hbit := hend.bits i hplace
      rw [hall] at hbit
      rw [decide_eq_true hi, Bool.true_and]
      exact hbit
    · rw [decide_eq_false hi, Bool.false_and, isSet_of_le (by omega)]

end

end LynxTrace.TraceProcessor.Core.Words
