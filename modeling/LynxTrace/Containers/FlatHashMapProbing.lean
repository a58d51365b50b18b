import LynxTrace.Containers.FlatHashMap
import Mathlib.Data.Nat.Find

/-!
# Containers.FlatHashMapProbing — what the probe loops find

`Holds` is a table of `2 ^ a` slots with no empty slot before an entry on its probe sequence.  One slot is always empty,
and every probe sequence comes to it.
-/

namespace LynxTrace.FlatHashMap

open Table

variable {K V : Type*} {G : Group} {hash : K → ℕ}

/-- The place `j` of the group that is probed in a round. -/
def probePlace (G : Group) (a start round j : ℕ) : ℕ := (start + G.kSize * triangular round + j) % 2 ^ a

theorem probePlace_lt (G : Group) (a start round j : ℕ) : probePlace G a start round j < 2 ^ a :=
  Nat.mod_lt _ (Nat.two_pow_pos a)

/-- The group of a round has no empty slot. -/
def NoFree (G : Group) (a : ℕ) (t : Table K V) (start round : ℕ) : Prop :=
  ∀ j < G.kSize, t.ctrl[probePlace G a start round j]? ≠ some kFreeSlot

/-- A place that a probe sequence comes to without passing an empty slot. -/
def Reached (G : Group) (a : ℕ) (t : Table K V) (start place : ℕ) : Prop :=
  ∃ round, (∃ j < G.kSize, probePlace G a start round j = place) ∧ ∀ q < round, NoFree G a t start q

theorem Reached.lt {a : ℕ} {t : Table K V} {start place : ℕ} (h : Reached G a t start place) : place < 2 ^ a := by
  obtain ⟨round, ⟨j, _, rfl⟩, _⟩ := h
  exact probePlace_lt G a start round j

/-- The slots that hold entries, and those that held one. -/
def fullSlots (t : Table K V) : ℕ := (t.ctrl.take t.capacity).countP (· < 0x80)

def tombstones (t : Table K V) : ℕ := (t.ctrl.take t.capacity).count kTombstone

def loadLimit (t : Table K V) : ℕ := t.capacity * t.loadLimitPercent / 100

/-- The slot holds the entry. -/
def Live (t : Table K V) (i : ℕ) (key : K) (value : V) : Prop := t.slots[i]? = some (some (key, value))

structure Holds (G : Group) (hash : K → ℕ) (a : ℕ) (t : Table K V) : Prop where
  lawful : G.Lawful
  seven_le : 7 ≤ a
  capacity : t.capacity = 2 ^ a
  percent : 0 < t.loadLimitPercent ∧ t.loadLimitPercent < 100
  ctrl_length : t.ctrl.length = 2 ^ a + kNumClones G
  slots_length : t.slots.length = 2 ^ a
  clone : ∀ i < kNumClones G, t.ctrl[2 ^ a + i]? = t.ctrl[i]?
  isCtrl : ∀ b ∈ t.ctrl, IsCtrl b
  live_of_full : ∀ i < 2 ^ a, ∀ b, t.ctrl[i]? = some b → b < 0x80 → ∃ key value, Live t i key value
  tag : ∀ i key value, Live t i key value → t.ctrl[i]? = some (h2 (hash key))
  distinct : ∀ i j key v v', Live t i key v → Live t j key v' → i = j
  reached : ∀ i key v, Live t i key v → Reached G a t (h1 (hash key)) i
  size : t.size = fullSlots t
  growth : fullSlots t + tombstones t + t.growthLeft = loadLimit t
  noTombstones : t.hasTombstones = false → tombstones t = 0

theorem h2_lt (keyHash : ℕ) : h2 keyHash < 0x80 := by
  have h : keyHash &&& 0x7F < 128 := Nat.lt_of_le_of_lt Nat.and_le_right (by decide)
  rw [UInt8.lt_iff_toNat_lt, h2, UInt8.toNat_ofNat', Nat.mod_eq_of_lt (by omega)]
  exact h

section

variable {a : ℕ} {t : Table K V}

section

variable (h : Holds G hash a t)

include h

theorem Holds.kSize_pos : 0 < G.kSize ∧ G.kSize ≤ 16 ∧ 128 ≤ 2 ^ a := by
  obtain ⟨k, hk, heq⟩ := h.lawful.kSize
  refine ⟨heq ▸ Nat.two_pow_pos k, ?_, Nat.pow_le_pow_right (show 0 < 2 by decide) h.seven_le⟩
  rw [heq]
  exact Nat.pow_le_pow_right (show 0 < 2 by decide) hk

theorem Holds.wrap (i : ℕ) : t.wrap i = i % 2 ^ a := by
  rw [Table.wrap, h.capacity, Nat.and_two_pow_sub_one_eq_mod]

theorem Holds.lt_of_live {i : ℕ} {key : K} {value : V} (hi : Live t i key value) : i < 2 ^ a :=
  h.slots_length ▸ (List.getElem?_eq_some_iff.mp hi).1

/-- A group at a place of the table, over its end through the clones. -/
theorem Holds.groupAt {offset : ℕ} (hoffset : offset < 2 ^ a) :
    ∃ g, t.groupAt G offset = some g ∧ g.length = G.kSize ∧ (∀ b ∈ g, IsCtrl b) ∧
      ∀ j < G.kSize, g[j]? = t.ctrl[(offset + j) % 2 ^ a]? := by
  obtain ⟨hpos, hle, hcap⟩ := h.kSize_pos
  have hlength : ((t.ctrl.drop offset).take G.kSize).length = G.kSize := by
    rw [List.length_take, List.length_drop, h.ctrl_length]
    unfold kNumClones
    omega
  refine ⟨_, if_pos hlength, hlength, fun b hb => h.isCtrl b (List.mem_of_mem_drop (List.mem_of_mem_take hb)), ?_⟩
  intro j hj
  rw [List.getElem?_take, if_pos hj, List.getElem?_drop]
  by_cases hwrap : offset + j < 2 ^ a
  · rw [Nat.mod_eq_of_lt hwrap]
  · -- a place over the end is read from the clones
    have hclone : offset + j - 2 ^ a < kNumClones G := by
      unfold kNumClones
      omega
    have hback : 2 ^ a + (offset + j - 2 ^ a) = offset + j := by omega
    rw [Nat.mod_eq_sub_mod (Nat.not_lt.mp hwrap), Nat.mod_eq_of_lt (by omega), ← h.clone _ hclone, hback]

/-- The place and the distance of a round. -/
theorem Holds.offset_succ (start round : ℕ) :
    t.wrap ((start + G.kSize * triangular round) % 2 ^ a + (G.kSize * round + G.kSize)) =
      (start + G.kSize * triangular (round + 1)) % 2 ^ a := by
  rw [h.wrap, Nat.mod_add_mod, triangular_succ, ← Nat.mul_succ, Nat.mul_add, Nat.add_assoc]

theorem Holds.wrap_place (start round j : ℕ) :
    t.wrap ((start + G.kSize * triangular round) % 2 ^ a + j) = probePlace G a start round j := by
  rw [h.wrap, Nat.mod_add_mod, probePlace]

/-- The group of a round. -/
theorem Holds.groupOf (start round : ℕ) :
    ∃ g, t.groupAt G ((start + G.kSize * triangular round) % 2 ^ a) = some g ∧ g.length = G.kSize ∧
      (∀ b ∈ g, IsCtrl b) ∧ ∀ j < G.kSize, g[j]? = t.ctrl[probePlace G a start round j]? := by
  obtain ⟨g, hg, hlength, hctrl, hget⟩ := h.groupAt (Nat.mod_lt (start + G.kSize * triangular round)
    (Nat.two_pow_pos a))
  refine ⟨g, hg, hlength, hctrl, fun j hj => ?_⟩
  rw [hget j hj, Nat.mod_add_mod, probePlace]

/-! ### One slot stays empty -/

theorem Holds.limit : 0 < loadLimit t ∧ loadLimit t < 2 ^ a := by
  obtain ⟨_, _, hcap⟩ := h.kSize_pos
  obtain ⟨hpos, hlt⟩ := h.percent
  unfold loadLimit
  rw [h.capacity]
  constructor
  · refine Nat.div_pos ?_ (by decide)
    exact Nat.le_trans (by omega) (Nat.le_mul_of_pos_right _ hpos)
  · rw [Nat.div_lt_iff_lt_mul (by decide)]
    exact Nat.mul_lt_mul_of_pos_left hlt (by omega)

end

/-- The control bytes without the clones, by kind. -/
theorem count_kinds {l : List UInt8} (h : ∀ b ∈ l, IsCtrl b) :
    l.countP (· < 0x80) + l.count kTombstone + l.count kFreeSlot = l.length := by
  induction l with
  | nil => rfl
  | cons b l ih =>
    have ih := ih fun c hc => h c (List.mem_cons_of_mem _ hc)
    rcases h b List.mem_cons_self with hlt | rfl | rfl
    · have hfree : b ≠ kFreeSlot := by rintro rfl; exact absurd hlt (by decide)
      have htomb : b ≠ kTombstone := by rintro rfl; exact absurd hlt (by decide)
      rw [List.countP_cons_of_pos (by simpa using hlt), List.count_cons_of_ne hfree, List.count_cons_of_ne htomb,
        List.length_cons]
      omega
    · rw [List.countP_cons_of_neg (by decide), List.count_cons_of_ne (by decide), List.count_cons_self,
        List.length_cons]
      omega
    · rw [List.countP_cons_of_neg (by decide), List.count_cons_self, List.count_cons_of_ne (by decide),
        List.length_cons]
      omega

section

variable (h : Holds G hash a t)

include h

/-- **An empty slot** is left. -/
theorem Holds.exists_free : ∃ place < 2 ^ a, t.ctrl[place]? = some kFreeSlot := by
  have hkinds := count_kinds fun b hb => h.isCtrl b (List.mem_of_mem_take (i := t.capacity) hb)
  have hgrowth := h.growth
  have hlimit := h.limit.2
  have hlength : (t.ctrl.take t.capacity).length = 2 ^ a := by
    rw [List.length_take, h.capacity, h.ctrl_length]
    omega
  unfold fullSlots tombstones at hgrowth
  have hpos : 0 < (t.ctrl.take t.capacity).count kFreeSlot := by omega
  obtain ⟨place, hplace⟩ := List.mem_iff_getElem?.mp (List.count_pos_iff.mp hpos)
  have hlt := (List.getElem?_eq_some_iff.mp hplace).1
  rw [List.getElem?_take, h.capacity, if_pos (by omega)] at hplace
  exact ⟨place, by omega, hplace⟩

/-- **Every probe sequence comes to an empty slot**, before it has gone round the table. -/
theorem Holds.exists_round (start : ℕ) : ∃ round, G.kSize * round < 2 ^ a ∧ ¬ NoFree G a t start round := by
  obtain ⟨place, hplace, hfree⟩ := h.exists_free
  obtain ⟨k, hk, heq⟩ := h.lawful.kSize
  have hka : k ≤ a := Nat.le_trans hk (Nat.le_trans (by decide) h.seven_le)
  obtain ⟨round, hround, j, hj, hprobe⟩ := exists_probe hka start hplace
  refine ⟨round, ?_, fun hno => ?_⟩
  · calc G.kSize * round = 2 ^ k * round := by rw [heq]
      _ < 2 ^ k * 2 ^ (a - k) := Nat.mul_lt_mul_of_pos_left hround (Nat.two_pow_pos k)
      _ = 2 ^ a := by rw [← Nat.pow_add, Nat.add_sub_cancel' hka]
  · have hcontra := hno j (heq ▸ hj)
    rw [probePlace, heq, hprobe] at hcontra
    exact hcontra hfree

/-- The rounds that a loop needs. -/
theorem Holds.round_lt {round : ℕ} (hround : G.kSize * round < 2 ^ a) : round < 0 + (2 ^ a + 1) := by
  have hle := Nat.le_mul_of_pos_left round h.kSize_pos.1
  omega

/-! ### The loops -/

theorem Holds.ctrl_ne_nil : t.ctrl ≠ [] := by
  refine List.ne_nil_of_length_pos ?_
  rw [h.ctrl_length]
  have := Nat.two_pow_pos a
  omega

theorem Holds.start (key : K) : t.wrap (h1 (hash key)) = (h1 (hash key) + G.kSize * triangular 0) % 2 ^ a := by
  rw [h.wrap, triangular_zero, Nat.mul_zero, Nat.add_zero]

theorem Holds.findFirstLoop {start last : ℕ} (hlast : ¬ NoFree G a t start last) {rounds : ℕ} :
    ∀ {round : ℕ}, round ≤ last → last < round + rounds →
      ∃ stop i, round ≤ stop ∧ (∃ j < G.kSize, probePlace G a start stop j = i) ∧
        (t.ctrl[i]? = some kFreeSlot ∨ t.ctrl[i]? = some kTombstone) ∧
        (∀ q, round ≤ q → q < stop → NoFree G a t start q) ∧
        t.findFirstLoop G rounds ((start + G.kSize * triangular round) % 2 ^ a) (G.kSize * round) = some i := by
  induction rounds with
  | zero =>
    intro round hle hlt
    omega
  | succ rounds ih =>
    intro round hle hlt
    obtain ⟨g, hg, hlength, hctrl, hget⟩ := h.groupOf start round
    rw [Table.findFirstLoop, hg, Option.bind_some]
    cases hempty : G.matchEmptyOrDeleted g with
    | cons j rest =>
      have hj := (h.lawful.free_iff hlength hctrl).mp (hempty ▸ List.mem_cons_self)
      have hjlt : j < G.kSize := by
        rcases hj with hj | hj
        · exact hlength ▸ (List.getElem?_eq_some_iff.mp hj).1
        · exact hlength ▸ (List.getElem?_eq_some_iff.mp hj).1
      dsimp only
      rw [h.wrap_place]
      rw [hget j hjlt] at hj
      exact ⟨round, _, Nat.le_refl _, ⟨j, hjlt, rfl⟩, hj, fun q h1 h2 => by omega, rfl⟩
    | nil =>
      have hno : NoFree G a t start round := by
        intro j hj hfree
        have := (h.lawful.free_iff hlength hctrl).mpr (Or.inl ((hget j hj).trans hfree))
        rw [hempty] at this
        cases this
      have hne : round ≠ last := by
        rintro rfl
        exact hlast hno
      dsimp only
      rw [h.offset_succ, ← Nat.mul_succ]
      obtain ⟨stop, i, hstop, hplace, hfree, hnos, hrun⟩ := ih (show round + 1 ≤ last by omega) (by omega)
      refine ⟨stop, i, by omega, hplace, hfree, fun q h1 h2 => ?_, hrun⟩
      rcases Nat.lt_or_eq_of_le h1 with h1 | rfl
      · exact hnos q h1 h2
      · exact hno

/-- **The first slot that can be used**, with no empty slot before its group. -/
theorem Holds.findFirst (key : K) :
    ∃ i, t.findFirstEmptyOrTombstone G (hash key) = some i ∧
      (t.ctrl[i]? = some kFreeSlot ∨ t.ctrl[i]? = some kTombstone) ∧ Reached G a t (h1 (hash key)) i := by
  obtain ⟨last, hlast, hfree⟩ := h.exists_round (h1 (hash key))
  have hrun := h.findFirstLoop hfree (Nat.zero_le last) (h.round_lt hlast)
  rw [Nat.mul_zero] at hrun
  obtain ⟨stop, i, _, hplace, hfree', hno, hrun⟩ := hrun
  rw [findFirstEmptyOrTombstone, h.start, h.capacity]
  exact ⟨i, hrun, hfree', stop, hplace, fun q hq => hno q (Nat.zero_le q) hq⟩

end

variable [DecidableEq K]

theorem findMatch_spec {key : K} {l : List ℕ} (hlive : ∀ i ∈ l, ∃ k v, Live t i k v) :
    (∃ i ∈ l, ∃ v, Live t i key v ∧ t.findMatch key l = some (some i)) ∨
      ((∀ i ∈ l, ∀ v, ¬ Live t i key v) ∧ t.findMatch key l = some none) := by
  induction l with
  | nil => exact Or.inr ⟨nofun, rfl⟩
  | cons i l ih =>
    obtain ⟨k, v, hi⟩ := hlive i List.mem_cons_self
    have hread : (t.slots[i]?.bind id) = some (k, v) := by rw [show t.slots[i]? = _ from hi]; rfl
    rw [findMatch, hread, Option.bind_some]
    dsimp only
    by_cases hk : k = key
    · subst hk
      rw [if_pos rfl]
      exact Or.inl ⟨i, List.mem_cons_self, v, hi, rfl⟩
    · rw [if_neg hk]
      rcases ih fun i hi => hlive i (List.mem_cons_of_mem _ hi) with ⟨j, hj, v', hjl, hrun⟩ | ⟨hnone, hrun⟩
      · exact Or.inl ⟨j, List.mem_cons_of_mem _ hj, v', hjl, hrun⟩
      · refine Or.inr ⟨fun j hj v' hjl => ?_, hrun⟩
        rcases List.mem_cons.mp hj with rfl | hj
        · exact hk (Prod.mk.inj (Option.some.inj (Option.some.inj (hi.symm.trans hjl)))).1
        · exact hnone j hj v' hjl

/-- The matches of a group: the key is found, or is not in the group. -/
theorem Holds.matchGroup (h : Holds G hash a t) (key : K) {start round : ℕ} {g : List UInt8}
    (hlength : g.length = G.kSize)
    (hget : ∀ j < G.kSize, g[j]? = t.ctrl[probePlace G a start round j]?) :
    (∃ i v, Live t i key v ∧ t.findMatch key ((G.matchTag g (h2 (hash key))).map fun i =>
        t.wrap ((start + G.kSize * triangular round) % 2 ^ a + i)) = some (some i)) ∨
      ((∀ j < G.kSize, ∀ v, ¬ Live t (probePlace G a start round j) key v) ∧
        t.findMatch key ((G.matchTag g (h2 (hash key))).map fun i =>
          t.wrap ((start + G.kSize * triangular round) % 2 ^ a + i)) = some none) := by
  simp only [h.wrap_place]
  have hlive : ∀ i ∈ (G.matchTag g (h2 (hash key))).map (probePlace G a start round), ∃ k v, Live t i k v := by
    intro i hi
    obtain ⟨j, hj, rfl⟩ := List.mem_map.mp hi
    obtain ⟨b, hb, hlt⟩ := h.lawful.full_of_tag hlength (h2_lt _) hj
    have hjlt : j < G.kSize := hlength ▸ (List.getElem?_eq_some_iff.mp hb).1
    exact h.live_of_full _ (probePlace_lt G a start round j) b ((hget j hjlt).symm.trans hb) hlt
  rcases @findMatch_spec _ _ t _ key _ hlive with ⟨i, _, v, hi, hrun⟩ | ⟨hnone, hrun⟩
  · exact Or.inl ⟨i, v, hi, hrun⟩
  · refine Or.inr ⟨fun j hj v hlive => ?_, hrun⟩
    have htag := h.tag _ _ _ hlive
    exact hnone _ (List.mem_map.mpr ⟨j, h.lawful.tag_of_eq hlength (h2_lt _) ((hget j hj).trans htag), rfl⟩) v hlive

/-- The loop ends where it finds the key or an empty slot. -/
theorem Holds.findSlotLoop (h : Holds G hash a t) (key : K) {start last : ℕ} (hlast : ¬ NoFree G a t start last)
    {rounds : ℕ} : ∀ {round : ℕ}, round ≤ last → last < round + rounds →
      (∃ i v, Live t i key v ∧ t.findSlotLoop G key (h2 (hash key)) rounds
          ((start + G.kSize * triangular round) % 2 ^ a) (G.kSize * round) = some (.found i)) ∨
      ∃ stop i, round ≤ stop ∧ (∃ j < G.kSize, probePlace G a start stop j = i) ∧ t.ctrl[i]? = some kFreeSlot ∧
        (∀ q, round ≤ q → q < stop → NoFree G a t start q) ∧
        (∀ q, round ≤ q → q ≤ stop → ∀ j < G.kSize, ∀ v, ¬ Live t (probePlace G a start q j) key v) ∧
        t.findSlotLoop G key (h2 (hash key)) rounds ((start + G.kSize * triangular round) % 2 ^ a)
          (G.kSize * round) = some (.needsInsert i) := by
  induction rounds with
  | zero =>
    intro round hle hlt
    omega
  | succ rounds ih =>
    intro round hle hlt
    obtain ⟨g, hg, hlength, hctrl, hget⟩ := h.groupOf start round
    rw [Table.findSlotLoop, hg, Option.bind_some]
    rcases h.matchGroup key hlength hget with ⟨i, v, hi, hrun⟩ | ⟨hnone, hrun⟩
    · rw [hrun, Option.bind_some]
      exact Or.inl ⟨i, v, hi, rfl⟩
    · rw [hrun, Option.bind_some]
      dsimp only
      cases hempty : G.matchEmpty g with
      | cons j rest =>
        have hj := (h.lawful.empty_iff hlength hctrl).mp (hempty ▸ List.mem_cons_self)
        have hjlt : j < G.kSize := hlength ▸ (List.getElem?_eq_some_iff.mp hj).1
        dsimp only
        rw [h.wrap_place]
        refine Or.inr ⟨round, _, Nat.le_refl _, ⟨j, hjlt, rfl⟩, (hget j hjlt).symm.trans hj, fun q h1 h2 => by omega,
          fun q h1 h2 => ?_, rfl⟩
        obtain rfl := Nat.le_antisymm h2 h1
        exact hnone
      | nil =>
        have hno : NoFree G a t start round := by
          intro j hj hfree
          have := (h.lawful.empty_iff hlength hctrl).mpr ((hget j hj).trans hfree)
          rw [hempty] at this
          cases this
        have hne : round ≠ last := by
          rintro rfl
          exact hlast hno
        dsimp only
        rw [h.offset_succ, ← Nat.mul_succ]
        rcases ih (show round + 1 ≤ last by omega) (by omega) with hfound | ⟨stop, i, hstop, hplace, hfree, hnos, hkeys,
          hrun'⟩
        · exact Or.inl hfound
        · refine Or.inr ⟨stop, i, by omega, hplace, hfree, fun q h1 h2 => ?_, fun q h1 h2 => ?_, hrun'⟩
          · rcases Nat.lt_or_eq_of_le h1 with h1 | rfl
            · exact hnos q h1 h2
            · exact hno
          · rcases Nat.lt_or_eq_of_le h1 with h1 | rfl
            · exact hkeys q h1 h2
            · exact hnone

/-- **A key that is there is found.** -/
theorem Holds.findSlot_of_live (h : Holds G hash a t) {i : ℕ} {key : K} {v : V} (hi : Live t i key v) :
    t.findSlotIgnoringTombstones G hash key = some (.found i) := by
  obtain ⟨last, hlast, hfree⟩ := h.exists_round (h1 (hash key))
  rw [findSlotIgnoringTombstones, if_neg h.ctrl_ne_nil, h.start, h.capacity]
  have hrun := h.findSlotLoop key hfree (Nat.zero_le last) (h.round_lt hlast)
  rw [Nat.mul_zero] at hrun
  rcases hrun with ⟨i', v', hi', hrun⟩ | ⟨stop, _, _, ⟨j, hj, hplace⟩, hfree', _, hkeys, _⟩
  · rw [hrun, h.distinct i' i key v' v hi' hi]
  · -- an empty slot before the group of the key, or the key in a group without it
    obtain ⟨round, ⟨j', hj', rfl⟩, hno⟩ := h.reached i key v hi
    rcases Nat.lt_or_ge stop round with hlt | hge
    · exact absurd (hplace ▸ hfree') (hno stop hlt j hj)
    · exact absurd hi (hkeys round (Nat.zero_le _) hge j' hj' v)

/-- **A key that is not there** leads to the first empty slot. -/
theorem Holds.findSlot_of_absent (h : Holds G hash a t) {key : K} (hnone : ∀ i v, ¬ Live t i key v) :
    ∃ i, t.findSlotIgnoringTombstones G hash key = some (.needsInsert i) ∧ t.ctrl[i]? = some kFreeSlot ∧
      Reached G a t (h1 (hash key)) i := by
  obtain ⟨last, hlast, hfree⟩ := h.exists_round (h1 (hash key))
  rw [findSlotIgnoringTombstones, if_neg h.ctrl_ne_nil, h.start, h.capacity]
  have hrun := h.findSlotLoop key hfree (Nat.zero_le last) (h.round_lt hlast)
  rw [Nat.mul_zero] at hrun
  rcases hrun with ⟨i, v, hi, _⟩ | ⟨stop, i, _, hplace, hfree', hno, _, hrun⟩
  · exact absurd hi (hnone i v)
  · exact ⟨i, hrun, hfree', stop, hplace, fun q hq => hno q (Nat.zero_le q) hq⟩

end

end LynxTrace.FlatHashMap
