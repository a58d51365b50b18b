import Mathlib.Data.List.Basic
import Mathlib.Data.List.Range
import Mathlib.Data.Nat.Bitwise
import Mathlib.Tactic.Common
import Mathlib.Tactic.IntervalCases

/-!
# Containers.ControlGroup — groups of control bytes (include/perfetto/ext/base/flat_hash_map.h)

`Group.sse` compares 16 control bytes at once, `Group.swar` eight of them in a word of 64 bits.  A tag may match a full
slot with another tag, but no other slot (`Group.Lawful`).
-/

namespace LynxTrace.FlatHashMap

/-! ### The source -/

def kFreeSlot : UInt8 := 0x80

def kTombstone : UInt8 := 0xFE

/-- The places that each iterator goes through, from the lowest set bit of its mask to the highest one. -/
structure Group where
  kSize : ℕ
  matchTag : List UInt8 → UInt8 → List ℕ
  matchEmpty : List UInt8 → List ℕ
  matchEmptyOrDeleted : List UInt8 → List ℕ

/-- `_mm_sign_epi8` of a byte with itself: a negative number is negated, in eight bits. -/
def signed (b : UInt8) : UInt8 := if b < 0x80 then b else 0 - b

/-- The bytes with the most significant bit set, which `_mm_movemask_epi8` collects. -/
def movemask (g : List UInt8) : List ℕ := (List.range g.length).filter fun i => 0x80 ≤ g.getD i 0

/-- The group for x64. -/
def Group.sse : Group where
  kSize := 16
  matchTag g h2 := movemask (g.map fun b => if b = h2 then 0xFF else 0)
  matchEmpty g := movemask (g.map signed)
  matchEmptyOrDeleted g := movemask g

/-- Eight bytes of the memory as a word, the first one the least significant. -/
def word : List UInt8 → ℕ
  | [] => 0
  | b :: g => b.toNat + 256 * word g

def kLsbs : BitVec 64 := 0x0101010101010101#64

def kMsbs : BitVec 64 := 0x8080808080808080#64

/-- `CountTrailZeros(mask) >> 3` of each set bit. -/
def places (mask : BitVec 64) : List ℕ := ((List.range 64).filter mask.getLsbD).map (· / 8)

/-- The group for other platforms. -/
def Group.swar : Group where
  kSize := 8
  matchTag g h2 :=
    let x := BitVec.ofNat 64 (word g) ^^^ kLsbs * BitVec.ofNat 64 h2.toNat
    places ((x - kLsbs) &&& ~~~x &&& kMsbs)
  matchEmpty g :=
    let ctrl := BitVec.ofNat 64 (word g)
    places (ctrl &&& ~~~(ctrl <<< 6) &&& kMsbs)
  matchEmptyOrDeleted g :=
    let ctrl := BitVec.ofNat 64 (word g)
    places (ctrl &&& ~~~(ctrl <<< 7) &&& kMsbs)

/-! ### What a table relies on -/

/-- A control byte: a tag, or one of the two marks. -/
def IsCtrl (b : UInt8) : Prop := b < 0x80 ∨ b = kFreeSlot ∨ b = kTombstone

structure Group.Lawful (G : Group) : Prop where
  kSize : ∃ k ≤ 4, G.kSize = 2 ^ k
  tag_of_eq : ∀ {g h2 i}, g.length = G.kSize → h2 < 0x80 → g[i]? = some h2 → i ∈ G.matchTag g h2
  full_of_tag : ∀ {g h2 i}, g.length = G.kSize → h2 < 0x80 → i ∈ G.matchTag g h2 → ∃ b, g[i]? = some b ∧ b < 0x80
  empty_iff : ∀ {g i}, g.length = G.kSize → (∀ b ∈ g, IsCtrl b) → (i ∈ G.matchEmpty g ↔ g[i]? = some kFreeSlot)
  free_iff : ∀ {g i}, g.length = G.kSize → (∀ b ∈ g, IsCtrl b) →
    (i ∈ G.matchEmptyOrDeleted g ↔ g[i]? = some kFreeSlot ∨ g[i]? = some kTombstone)

theorem not_isCtrl_lt {b : UInt8} (h : IsCtrl b) (hge : ¬ b < 0x80) : b = kFreeSlot ∨ b = kTombstone :=
  h.resolve_left hge

/-! ### Sixteen bytes -/

variable {g : List UInt8}

theorem mem_movemask {i : ℕ} : i ∈ movemask g ↔ ∃ b, g[i]? = some b ∧ ¬ b < 0x80 := by
  simp only [movemask, List.mem_filter, List.mem_range, decide_eq_true_eq, UInt8.not_lt]
  constructor
  · rintro ⟨hi, hb⟩
    rw [List.getD_eq_getElem?_getD, List.getElem?_eq_getElem hi, Option.getD_some] at hb
    exact ⟨_, List.getElem?_eq_getElem hi, hb⟩
  · rintro ⟨b, hb, hge⟩
    exact ⟨(List.getElem?_eq_some_iff.mp hb).1, by rwa [List.getD_eq_getElem?_getD, hb]⟩

theorem lawful_sse : Group.sse.Lawful where
  kSize := ⟨4, Nat.le_refl 4, rfl⟩
  tag_of_eq := by
    intro g h2 i _ _ hi
    refine mem_movemask.mpr ⟨0xFF, ?_, by decide⟩
    rw [List.getElem?_map, hi, Option.map_some, if_pos rfl]
  full_of_tag := by
    intro g h2 i _ hh2 hi
    obtain ⟨b, hb, hge⟩ := mem_movemask.mp hi
    rw [List.getElem?_map, Option.map_eq_some_iff] at hb
    obtain ⟨c, hc, rfl⟩ := hb
    by_cases heq : c = h2
    · exact ⟨c, hc, heq ▸ hh2⟩
    · rw [if_neg heq] at hge
      exact absurd (by decide) hge
  empty_iff := by
    intro g i _ hctrl
    refine mem_movemask.trans ⟨?_, fun hi => ⟨signed kFreeSlot, ?_, by decide⟩⟩
    · rintro ⟨b, hb, hge⟩
      rw [List.getElem?_map, Option.map_eq_some_iff] at hb
      obtain ⟨c, hc, rfl⟩ := hb
      rcases hctrl c (List.mem_of_getElem? hc) with hlt | rfl | rfl
      · rw [signed, if_pos hlt] at hge
        exact absurd hlt hge
      · exact hc
      · exact absurd (by decide) hge
    · rw [List.getElem?_map, hi, Option.map_some]
  free_iff := by
    intro g i _ hctrl
    refine mem_movemask.trans ⟨?_, ?_⟩
    · rintro ⟨b, hb, hge⟩
      rcases not_isCtrl_lt (hctrl b (List.mem_of_getElem? hb)) hge with rfl | rfl
      · exact Or.inl hb
      · exact Or.inr hb
    · rintro (hi | hi)
      · exact ⟨_, hi, by decide⟩
      · exact ⟨_, hi, by decide⟩

/-! ### Eight bytes in a word -/

variable {q : ℕ}

/-- The bits of a byte of the word. -/
theorem testBit_word {b : UInt8} (hb : g[q]? = some b) {j : ℕ} (hj : j < 8) :
    (word g).testBit (8 * q + j) = b.toNat.testBit j := by
  induction g generalizing q with
  | nil => cases hb
  | cons c g ih =>
    have hc : c.toNat < 2 ^ 8 := UInt8.toNat_lt c
    rw [word, Nat.add_comm, show 256 = 2 ^ 8 from rfl, Nat.testBit_two_pow_mul_add _ hc]
    cases q with
    | zero =>
      obtain rfl := Option.some.inj hb
      rw [Nat.mul_zero, Nat.zero_add, if_pos hj]
    | succ q =>
      rw [if_neg (by omega), show 8 * (q + 1) + j - 8 = 8 * q + j by omega]
      exact ih hb

/-- The mask has the most significant bits of its places. -/
theorem mem_places {mask : BitVec 64} : q ∈ places (mask &&& kMsbs) ↔ q < 8 ∧ mask.getLsbD (8 * q + 7) = true := by
  have hmsb : ∀ i < 64, kMsbs.getLsbD i = decide (i % 8 = 7) := by decide
  simp only [places, List.mem_map, List.mem_filter, List.mem_range, BitVec.getLsbD_and, Bool.and_eq_true]
  constructor
  · rintro ⟨i, ⟨hi, hmask, hk⟩, rfl⟩
    rw [hmsb i hi, decide_eq_true_eq] at hk
    refine ⟨by omega, ?_⟩
    rwa [show 8 * (i / 8) + 7 = i by omega]
  · rintro ⟨hq, hmask⟩
    refine ⟨8 * q + 7, ⟨by omega, hmask, ?_⟩, by omega⟩
    rw [hmsb _ (by omega), decide_eq_true_eq]
    omega

theorem getLsbD_word {b : UInt8} (hlength : g.length = 8) (hb : g[q]? = some b) {j : ℕ} (hj : j < 8) :
    (BitVec.ofNat 64 (word g)).getLsbD (8 * q + j) = b.toNat.testBit j := by
  have hq := (List.getElem?_eq_some_iff.mp hb).1
  rw [BitVec.getLsbD_ofNat, testBit_word hb hj, decide_eq_true (by omega), Bool.true_and]

theorem testBit_seven (b : UInt8) : b.toNat.testBit 7 = decide (¬ b < 0x80) := by
  have hb : b.toNat < 256 := UInt8.toNat_lt b
  rw [Nat.testBit_eq_decide_div_mod_eq, decide_eq_decide, UInt8.lt_iff_toNat_lt]
  show b.toNat / 128 % 2 = 1 ↔ ¬ b.toNat < 128
  omega

/-- A bit of the word shifted by less than a byte, at the top of a byte. -/
theorem getLsbD_shift_top {b : UInt8} (hlength : g.length = 8) (hb : g[q]? = some b) {s : ℕ} (hs : s ≤ 7) :
    (BitVec.ofNat 64 (word g) <<< s).getLsbD (8 * q + 7) = b.toNat.testBit (7 - s) := by
  have hq := (List.getElem?_eq_some_iff.mp hb).1
  rw [BitVec.getLsbD_shiftLeft, show 8 * q + 7 - s = 8 * q + (7 - s) by omega,
    getLsbD_word hlength hb (by omega), decide_eq_true (by omega), decide_eq_false (by omega)]
  rfl

/-- Both marks have the top bit, only the free one has the bit 1 clear. -/
theorem mem_swar_marks {s : ℕ} (hlength : g.length = 8) (hs : s ≤ 7) :
    q ∈ places (BitVec.ofNat 64 (word g) &&& ~~~(BitVec.ofNat 64 (word g) <<< s) &&& kMsbs) ↔
      ∃ b, g[q]? = some b ∧ ¬ b < 0x80 ∧ b.toNat.testBit (7 - s) = false := by
  rw [mem_places]
  constructor
  · rintro ⟨hq, hmask⟩
    have hb := List.getElem?_eq_getElem (l := g) (i := q) (by omega)
    rw [BitVec.getLsbD_and, BitVec.getLsbD_not, getLsbD_word hlength hb (by decide), testBit_seven,
      getLsbD_shift_top hlength hb hs] at hmask
    simp only [Bool.and_eq_true, decide_eq_true_eq, Bool.not_eq_true'] at hmask
    exact ⟨_, hb, hmask.1, hmask.2.2⟩
  · rintro ⟨b, hb, hge, hbit⟩
    have hq := (List.getElem?_eq_some_iff.mp hb).1
    refine ⟨by omega, ?_⟩
    rw [BitVec.getLsbD_and, BitVec.getLsbD_not, getLsbD_word hlength hb (by decide), testBit_seven,
      getLsbD_shift_top hlength hb hs, hbit]
    simp only [Bool.and_eq_true, decide_eq_true_eq, Bool.not_false, and_true]
    exact ⟨hge, by omega⟩

/-- A byte 0 in a word: less 1 in every byte it has the top bit. -/
theorem testBit_sub_lsbs {x : BitVec 64} (hq : q < 8) (hx : x.toNat / 256 ^ q % 256 = 0) :
    (x - kLsbs).getLsbD (8 * q + 7) = true := by
  have hlt := x.isLt
  rw [BitVec.getLsbD, BitVec.toNat_sub, Nat.testBit_eq_decide_div_mod_eq, decide_eq_true_eq]
  have hl : kLsbs.toNat = 0x0101010101010101 := rfl
  rw [hl]
  generalize x.toNat = n at *
  interval_cases q <;> omega

/-- The word with every byte compared to the tag. -/
theorem xor_tag_byte {b h2 : UInt8} (hlength : g.length = 8) (hb : g[q]? = some b) {j : ℕ} (hj : j < 8) :
    (BitVec.ofNat 64 (word g) ^^^ kLsbs * BitVec.ofNat 64 h2.toNat).getLsbD (8 * q + j) =
      (b.toNat.testBit j ^^ h2.toNat.testBit j) := by
  have hq := (List.getElem?_eq_some_iff.mp hb).1
  have hh2 : h2.toNat < 256 := UInt8.toNat_lt h2
  have hrep : kLsbs * BitVec.ofNat 64 h2.toNat = BitVec.ofNat 64 (word (List.replicate 8 h2)) := by
    apply BitVec.eq_of_toNat_eq
    have hl : kLsbs.toNat = 0x0101010101010101 := rfl
    rw [BitVec.toNat_mul, BitVec.toNat_ofNat, BitVec.toNat_ofNat, hl]
    simp only [List.replicate, word]
    omega
  rw [BitVec.getLsbD_xor, getLsbD_word hlength hb hj, hrep,
    getLsbD_word (b := h2) List.length_replicate (by rw [List.getElem?_replicate, if_pos (by omega)]) hj]

theorem lawful_swar : Group.swar.Lawful where
  kSize := ⟨3, by decide, rfl⟩
  tag_of_eq := by
    intro g h2 i hlength hh2 hi
    have hlength : g.length = 8 := hlength
    have hq : i < 8 := by rw [← hlength]; exact (List.getElem?_eq_some_iff.mp hi).1
    refine mem_places.mpr ⟨hq, ?_⟩
    rw [BitVec.getLsbD_and, BitVec.getLsbD_not, xor_tag_byte hlength hi (by decide), Bool.xor_self, Bool.not_false,
      testBit_sub_lsbs hq ?_, decide_eq_true (by omega)]
    · rfl
    · -- all bits of the byte are clear
      refine Nat.eq_of_testBit_eq fun j => ?_
      rw [Nat.zero_testBit, show 256 = 2 ^ 8 from rfl, ← Nat.pow_mul, Nat.testBit_mod_two_pow,
        Nat.testBit_div_two_pow]
      by_cases hj : j < 8
      · have := @xor_tag_byte _ _ _ h2 hlength hi _ hj
        rw [BitVec.getLsbD, Bool.xor_self, Nat.add_comm] at this
        rw [this, Bool.and_false]
      · simp [hj]
  full_of_tag := by
    intro g h2 i hlength hh2 hi
    obtain ⟨hq, hmask⟩ := mem_places.mp hi
    have hb := List.getElem?_eq_getElem (l := g) (i := i) (by rw [hlength]; exact hq)
    rw [BitVec.getLsbD_and, BitVec.getLsbD_not, xor_tag_byte hlength hb (by decide), testBit_seven, testBit_seven,
      decide_eq_false (p := ¬ h2 < 0x80) (fun h => h hh2)] at hmask
    simp only [Bool.xor_false, Bool.and_eq_true, Bool.not_eq_true', decide_eq_false_iff_not, not_not] at hmask
    exact ⟨_, hb, hmask.2.2⟩
  empty_iff := by
    intro g i hlength hctrl
    refine (mem_swar_marks hlength (by decide)).trans ⟨?_, fun hi => ⟨_, hi, by decide, by decide⟩⟩
    rintro ⟨b, hb, hge, hbit⟩
    rcases not_isCtrl_lt (hctrl b (List.mem_of_getElem? hb)) hge with rfl | rfl
    · exact hb
    · exact absurd hbit (by decide)
  free_iff := by
    intro g i hlength hctrl
    refine (mem_swar_marks hlength (by decide)).trans ⟨?_, ?_⟩
    · rintro ⟨b, hb, hge, -⟩
      rcases not_isCtrl_lt (hctrl b (List.mem_of_getElem? hb)) hge with rfl | rfl
      · exact Or.inl hb
      · exact Or.inr hb
    · rintro (hi | hi)
      · exact ⟨_, hi, by decide, by decide⟩
      · exact ⟨_, hi, by decide, by decide⟩

end LynxTrace.FlatHashMap
