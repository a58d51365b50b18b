import LynxTrace.Containers.FlatHashMapProbing
import Mathlib.Data.Nat.Bitwise

/-!
# Containers.FlatHashMapWrites — what one operation does to a table
-/

namespace LynxTrace.FlatHashMap

open Table

variable {K V : Type*} {G : Group} {hash : K → ℕ}

/-- A slot and its control byte are written, and nothing else in the memory. -/
structure Writes (G : Group) (t u : Table K V) (i : ℕ) (b : UInt8) (entry : Option (K × V)) : Prop where
  capacity : u.capacity = t.capacity
  percent : u.loadLimitPercent = t.loadLimitPercent
  ctrl : u.ctrl = (t.setCtrl G i b).ctrl
  slots : u.slots = t.slots.set i entry

section

variable {a : ℕ} {t u : Table K V} {i : ℕ} {b : UInt8} {entry : Option (K × V)}

theorem Holds.kNumClones_lt (h : Holds G hash a t) : kNumClones G < 2 ^ a := by
  obtain ⟨_, hle, hcap⟩ := h.kSize_pos
  unfold kNumClones
  omega

section

variable (w : Writes G t u i b entry)

include w

theorem Writes.length : u.ctrl.length = t.ctrl.length := by
  rw [w.ctrl, setCtrl]
  dsimp only
  split_ifs
  · rw [List.length_set, List.length_set]
  · rw [List.length_set]

/-- The control byte, its clone, and the others. -/
theorem Writes.getElem? (h : Holds G hash a t) (hi : i < 2 ^ a) (j : ℕ) :
    u.ctrl[j]? = if j = i ∨ (i < kNumClones G ∧ j = 2 ^ a + i) then some b else t.ctrl[j]? := by
  have hlength := h.ctrl_length
  rw [w.ctrl, setCtrl]
  dsimp only
  by_cases hclone : i < kNumClones G
  · have hin : 2 ^ a + i < t.ctrl.length := by omega
    have hin' : i < t.ctrl.length := by omega
    rw [if_pos hclone, h.capacity, List.getElem?_set, List.length_set, List.getElem?_set, if_pos hin, if_pos hin']
    by_cases hj : 2 ^ a + i = j
    · rw [if_pos hj, if_pos (Or.inr ⟨hclone, hj.symm⟩)]
    · rw [if_neg hj]
      by_cases hj' : i = j
      · rw [if_pos hj', if_pos (Or.inl hj'.symm)]
      · rw [if_neg hj', if_neg (by omega)]
  · have hin : i < t.ctrl.length := by omega
    rw [if_neg hclone, List.getElem?_set, if_pos hin]
    by_cases hj : i = j
    · rw [if_pos hj, if_pos (Or.inl hj.symm)]
    · rw [if_neg hj, if_neg (by omega)]

/-- A control byte of the table itself. -/
theorem Writes.getElem?_of_lt (h : Holds G hash a t) (hi : i < 2 ^ a) {j : ℕ} (hj : j < 2 ^ a) :
    u.ctrl[j]? = if j = i then some b else t.ctrl[j]? := by
  rw [w.getElem? h hi]
  by_cases heq : j = i
  · rw [if_pos heq, if_pos (Or.inl heq)]
  · rw [if_neg heq, if_neg (by omega)]

theorem Writes.live_iff (h : Holds G hash a t) (hi : i < 2 ^ a) {j : ℕ} {key : K} {value : V} :
    Live u j key value ↔ (j = i ∧ entry = some (key, value)) ∨ (j ≠ i ∧ Live t j key value) := by
  unfold Live
  rw [w.slots, List.getElem?_set, h.slots_length, if_pos hi]
  by_cases heq : i = j
  · subst heq
    rw [if_pos rfl]
    exact ⟨fun hentry => Or.inl ⟨rfl, Option.some.inj hentry⟩,
      fun hor => hor.elim (fun hentry => congrArg some hentry.2) fun hne => absurd rfl hne.1⟩
  · rw [if_neg heq]
    exact ⟨fun hlive => Or.inr ⟨Ne.symm heq, hlive⟩,
      fun hor => hor.elim (fun hentry => absurd hentry.1.symm heq) And.right⟩

/-- The control bytes of a kind, before and after. -/
theorem Writes.countP (h : Holds G hash a t) (hi : i < 2 ^ a) {c : UInt8} (hc : t.ctrl[i]? = some c) (p : UInt8 → Bool) :
    (u.ctrl.take u.capacity).countP p + (if p c then 1 else 0) =
      (t.ctrl.take t.capacity).countP p + if p b then 1 else 0 := by
  have htake : u.ctrl.take u.capacity = (t.ctrl.take t.capacity).set i b := by
    refine List.ext_getElem? fun j => ?_
    rw [w.capacity, h.capacity, List.getElem?_take, List.getElem?_set, List.length_take, List.getElem?_take,
      h.ctrl_length]
    by_cases hj : j < 2 ^ a
    · rw [if_pos hj, if_pos hj, w.getElem?_of_lt h hi hj]
      by_cases heq : i = j
      · rw [if_pos heq, if_pos heq.symm, if_pos (by omega)]
      · rw [if_neg heq, if_neg (Ne.symm heq)]
    · rw [if_neg hj, if_neg hj, if_neg (by omega)]
  have hlt : i < (t.ctrl.take t.capacity).length := by
    rw [List.length_take, h.capacity, h.ctrl_length]
    omega
  have hget : (t.ctrl.take t.capacity)[i] = c := by
    rw [List.getElem_take]
    exact (List.getElem?_eq_some_iff.mp hc).2
  have hle : (if p c then 1 else 0) ≤ (t.ctrl.take t.capacity).countP p := by
    split_ifs with hp
    · exact List.countP_pos_iff.mpr ⟨c, hget ▸ List.getElem_mem hlt, hp⟩
    · exact Nat.zero_le _
  rw [htake, List.countP_set hlt, hget]
  omega

/-- A place that was reached still is. -/
theorem Writes.reached (h : Holds G hash a t) (hi : i < 2 ^ a) (hb : b ≠ kFreeSlot) {start place : ℕ}
    (hreach : Reached G a t start place) : Reached G a u start place := by
  obtain ⟨round, hplace, hno⟩ := hreach
  refine ⟨round, hplace, fun q hq j hj hfree => hno q hq j hj ?_⟩
  rw [w.getElem?_of_lt h hi (probePlace_lt G a start q j)] at hfree
  split_ifs at hfree with heq
  · exact absurd (Option.some.inj hfree) hb
  · exact hfree

end

/-- **The table holds after a write** of an entry that its probe sequence reaches, or of a tombstone. -/
theorem Holds.of_writes (h : Holds G hash a t) (w : Writes G t u i b entry) (hi : i < 2 ^ a)
    (hentry : (b = kTombstone ∧ entry = none) ∨ ∃ key value, entry = some (key, value) ∧ b = h2 (hash key) ∧
      (∀ j v, Live t j key v → j = i) ∧ Reached G a t (h1 (hash key)) i)
    (hsize : u.size = fullSlots u) (hgrowth : fullSlots u + tombstones u + u.growthLeft = loadLimit u)
    (hno : u.hasTombstones = false → tombstones u = 0) : Holds G hash a u where
  lawful := h.lawful
  seven_le := h.seven_le
  capacity := w.capacity.trans h.capacity
  percent := w.percent ▸ h.percent
  ctrl_length := w.length.trans h.ctrl_length
  slots_length := by rw [w.slots, List.length_set, h.slots_length]
  clone := by
    intro j hj
    have hlt := h.kNumClones_lt
    rw [w.getElem? h hi, w.getElem? h hi]
    by_cases heq : j = i
    · rw [if_pos (Or.inr ⟨heq ▸ hj, by rw [heq]⟩), if_pos (Or.inl heq)]
    · rw [if_neg (by omega), if_neg (by omega)]
      exact h.clone j hj
  isCtrl := by
    intro c hc
    obtain ⟨j, hj⟩ := List.mem_iff_getElem?.mp hc
    rw [w.getElem? h hi] at hj
    split_ifs at hj with heq
    · obtain rfl := Option.some.inj hj
      rcases hentry with ⟨hb, _⟩ | ⟨key, _, _, hb, _⟩
      · exact hb ▸ Or.inr (Or.inr rfl)
      · exact hb ▸ Or.inl (h2_lt _)
    · exact h.isCtrl c (List.mem_of_getElem? hj)
  live_of_full := by
    intro j hj c hc hlt
    rw [w.getElem?_of_lt h hi hj] at hc
    split_ifs at hc with heq
    · obtain rfl := Option.some.inj hc
      rcases hentry with ⟨rfl, _⟩ | ⟨key, value, hentry, _⟩
      · exact absurd hlt (by decide)
      · exact ⟨key, value, (w.live_iff h hi).mpr (Or.inl ⟨heq, hentry⟩)⟩
    · obtain ⟨key, value, hlive⟩ := h.live_of_full j hj c hc hlt
      exact ⟨key, value, (w.live_iff h hi).mpr (Or.inr ⟨heq, hlive⟩)⟩
  tag := by
    intro j key value hlive
    rcases (w.live_iff h hi).mp hlive with ⟨rfl, hnew⟩ | ⟨hne, hold⟩
    · rw [w.getElem?_of_lt h hi hi, if_pos rfl]
      rcases hentry with ⟨_, hnone⟩ | ⟨key', value', hsome, hb, _⟩
      · cases hnone.symm.trans hnew
      · cases hsome.symm.trans hnew
        rw [hb]
    · rw [w.getElem?_of_lt h hi (h.lt_of_live hold), if_neg hne]
      exact h.tag j key value hold
  distinct := by
    intro j j' key v v' hlive hlive'
    have hold : ∀ {j v}, entry = some (key, v) → ∀ v', Live t j key v' → j = i := by
      intro j v hnew v' hlive
      rcases hentry with ⟨_, hnone⟩ | ⟨key', value', hsome, _, honly, _⟩
      · cases hnone.symm.trans hnew
      · cases hsome.symm.trans hnew
        exact honly j v' hlive
    rcases (w.live_iff h hi).mp hlive with ⟨rfl, hnew⟩ | ⟨hne, hlive⟩
    · rcases (w.live_iff h hi).mp hlive' with ⟨rfl, _⟩ | ⟨hne', hlive'⟩
      · rfl
      · exact absurd (hold hnew v' hlive') hne'
    · rcases (w.live_iff h hi).mp hlive' with ⟨rfl, hnew⟩ | ⟨_, hlive'⟩
      · exact absurd (hold hnew v hlive) hne
      · exact h.distinct j j' key v v' hlive hlive'
  reached := by
    intro j key v hlive
    have hb : b ≠ kFreeSlot := by
      rcases hentry with ⟨rfl, _⟩ | ⟨key', _, _, rfl, _⟩
      · decide
      · intro heq
        exact absurd (heq ▸ h2_lt (hash key')) (by decide)
    refine w.reached h hi hb ?_
    rcases (w.live_iff h hi).mp hlive with ⟨rfl, hnew⟩ | ⟨hne, hold⟩
    · rcases hentry with ⟨_, hnone⟩ | ⟨key', value', hsome, _, _, hreach⟩
      · cases hnone.symm.trans hnew
      · cases hsome.symm.trans hnew
        exact hreach
    · exact h.reached j key v hold
  size := hsize
  growth := hgrowth
  noTombstones := hno

/-! ### Operations on one slot -/

/-- The control byte of a slot that holds nothing. -/
theorem Holds.not_live (h : Holds G hash a t) (hfree : t.ctrl[i]? = some kFreeSlot ∨ t.ctrl[i]? = some kTombstone)
    (key : K) (value : V) : ¬ Live t i key value := by
  intro hlive
  have htag := h.tag i key value hlive
  have hlt := h2_lt (hash key)
  rcases hfree with hfree | hfree
  · rw [← Option.some.inj (hfree.symm.trans htag)] at hlt
    exact absurd hlt (by decide)
  · rw [← Option.some.inj (hfree.symm.trans htag)] at hlt
    exact absurd hlt (by decide)

theorem fullSlots_set (w : Writes G t u i b entry) (h : Holds G hash a t) (hi : i < 2 ^ a) {c : UInt8}
    (hc : t.ctrl[i]? = some c) :
    fullSlots u + (if c < 0x80 then 1 else 0) = fullSlots t + if b < 0x80 then 1 else 0 := by
  have hcount := w.countP h hi hc (· < 0x80)
  simp only [decide_eq_true_eq] at hcount
  exact hcount

theorem tombstones_set (w : Writes G t u i b entry) (h : Holds G hash a t) (hi : i < 2 ^ a) {c : UInt8}
    (hc : t.ctrl[i]? = some c) :
    tombstones u + (if c = kTombstone then 1 else 0) = tombstones t + if b = kTombstone then 1 else 0 := by
  have hcount := w.countP h hi hc (· == kTombstone)
  simp only [beq_iff_eq] at hcount
  exact hcount

theorem Writes.loadLimit (w : Writes G t u i b entry) : loadLimit u = FlatHashMap.loadLimit t := by
  rw [FlatHashMap.loadLimit, w.capacity, w.percent, FlatHashMap.loadLimit]

/-- **A new entry** is put into a slot that its probe sequence reaches. -/
theorem Holds.putEntry (h : Holds G hash a t) {key : K} (value : V) {c : UInt8} (hc : t.ctrl[i]? = some c)
    (hkind : c = kFreeSlot ∨ c = kTombstone) (hroom : 0 < t.growthLeft) (habsent : ∀ j v, ¬ Live t j key v)
    (hreach : Reached G a t (h1 (hash key)) i) :
    let u := t.putEntry G hash i key value (decide (c ≠ kTombstone))
    Holds G hash a u ∧ (∀ j k v, Live u j k v ↔ (j = i ∧ k = key ∧ v = value) ∨ Live t j k v) ∧
      fullSlots u = fullSlots t + 1 ∧ u.capacity = t.capacity ∧ u.loadLimitPercent = t.loadLimitPercent ∧
      u.hasTombstones = t.hasTombstones := by
  intro u
  have hi := hreach.lt
  have w : Writes G t u i (h2 (hash key)) (some (key, value)) := ⟨rfl, rfl, rfl, rfl⟩
  have hfree : t.ctrl[i]? = some kFreeSlot ∨ t.ctrl[i]? = some kTombstone := by
    rcases hkind with rfl | rfl
    · exact Or.inl hc
    · exact Or.inr hc
  have hlt := h2_lt (hash key)
  have hfull := fullSlots_set w h hi hc
  have htomb := tombstones_set w h hi hc
  have hneTomb : h2 (hash key) ≠ kTombstone := fun heq => absurd (heq ▸ hlt) (by decide)
  have hcge : ¬ c < 0x80 := by
    rcases hkind with rfl | rfl
    · decide
    · decide
  rw [if_neg hcge, if_pos hlt, Nat.add_zero] at hfull
  rw [if_neg hneTomb, Nat.add_zero] at htomb
  have hgrowth := h.growth
  refine ⟨h.of_writes w hi (Or.inr ⟨key, value, rfl, rfl, fun j v hj => absurd hj (habsent j v), hreach⟩) ?_ ?_ ?_,
    fun j k v => ?_, hfull, rfl, rfl, rfl⟩
  · rw [hfull, ← h.size]
    rfl
  · -- a tombstone is used up, or one of the slots that are left
    rw [w.loadLimit, ← hgrowth, hfull]
    by_cases heq : c = kTombstone
    · rw [if_pos heq] at htomb
      have hleft : u.growthLeft = t.growthLeft := if_neg (by rw [decide_eq_true_eq]; exact fun hne => hne heq)
      omega
    · rw [if_neg heq] at htomb
      have hleft : u.growthLeft = t.growthLeft - 1 :=
        (if_pos (decide_eq_true heq)).trans (if_neg (Nat.ne_of_gt hroom))
      omega
  · intro hno
    have := h.noTombstones hno
    omega
  · rw [w.live_iff h hi]
    constructor
    · rintro (⟨rfl, hnew⟩ | ⟨_, hold⟩)
      · cases hnew
        exact Or.inl ⟨rfl, rfl, rfl⟩
      · exact Or.inr hold
    · rintro (⟨rfl, rfl, rfl⟩ | hold)
      · exact Or.inl ⟨rfl, rfl⟩
      · refine Or.inr ⟨?_, hold⟩
        rintro rfl
        exact h.not_live hfree k v hold

/-- **A value** is written through the pointer to it. -/
theorem Holds.assign (h : Holds G hash a t) {key : K} {old : V} (hlive : Live t i key old) (value : V) :
    Holds G hash a (t.setSlot i (some (key, value))) ∧
      ∀ j k v, Live (t.setSlot i (some (key, value))) j k v ↔
        (j = i ∧ k = key ∧ v = value) ∨ (j ≠ i ∧ Live t j k v) := by
  have hi := h.lt_of_live hlive
  have htag := h.tag i key old hlive
  have hself : t.ctrl = (t.setCtrl G i (h2 (hash key))).ctrl := by
    have w : Writes G t ((t.setSlot i none).setCtrl G i (h2 (hash key))) i (h2 (hash key)) none := ⟨rfl, rfl, rfl, rfl⟩
    refine List.ext_getElem? fun j => ((w.getElem? h hi j).trans ?_).symm
    split_ifs with heq
    · rcases heq with rfl | ⟨hclone, rfl⟩
      · exact htag.symm
      · rw [h.clone i hclone, htag]
    · rfl
  have w : Writes G t (t.setSlot i (some (key, value))) i (h2 (hash key)) (some (key, value)) := ⟨rfl, rfl, hself, rfl⟩
  refine ⟨h.of_writes w hi (Or.inr ⟨key, value, rfl, rfl, fun j v hj => h.distinct j i key v old hj hlive,
    h.reached i key old hlive⟩) h.size h.growth h.noTombstones, fun j k v => ?_⟩
  rw [w.live_iff h hi, Option.some.injEq, Prod.mk.injEq, eq_comm (a := key), eq_comm (a := value)]

end

/-! ### A table without entries -/

theorem reset_holds (hash : K → ℕ) (hG : G.Lawful) {t : Table K V} (hpct : 0 < t.loadLimitPercent ∧ t.loadLimitPercent < 100) {n : ℕ}
    (hn : n &&& (n - 1) = 0) : ∃ a u, t.reset G n = some u ∧ max n 128 = 2 ^ a ∧ Holds G hash a u ∧
      (∀ i k v, ¬ Live u i k v) ∧ fullSlots u = 0 ∧ u.hasTombstones = false ∧
      u.loadLimitPercent = t.loadLimitPercent := by
  obtain ⟨a, ha⟩ : ∃ a, max n 128 = 2 ^ a := by
    by_cases hzero : n = 0
    · exact ⟨7, by rw [hzero]; rfl⟩
    · obtain ⟨k, rfl⟩ := (Nat.and_sub_one_eq_zero_iff_isPowerOfTwo hzero).mp hn
      by_cases hle : k ≤ 7
      · exact ⟨7, Nat.max_eq_right (Nat.pow_le_pow_right (by decide) hle)⟩
      · exact ⟨k, Nat.max_eq_left (Nat.pow_le_pow_right (show 0 < 2 by decide) (show 7 ≤ k by omega))⟩
  have hseven : 7 ≤ a := by
    by_contra hlt
    have hpow : 2 ^ a ≤ 2 ^ 6 := Nat.pow_le_pow_right (by decide) (by omega)
    have hmax := Nat.le_max_right n 128
    omega
  have hnone : ∀ i k v, ¬ Live ({ t with slots := List.replicate (2 ^ a) none } : Table K V) i k v := by
    intro i k v hlive
    cases List.eq_of_mem_replicate (List.mem_of_getElem? hlive)
  have hkind : ∀ p : UInt8 → Bool, p kFreeSlot = false →
      ((List.replicate (2 ^ a + kNumClones G) kFreeSlot).take (2 ^ a)).countP p = 0 := by
    intro p hp
    rw [List.countP_eq_zero]
    intro b hb
    rw [List.eq_of_mem_replicate (List.mem_of_mem_take hb), hp]
    exact Bool.false_ne_true
  refine ⟨a, _, if_pos hn, ha, ?_, ?_, ?_, rfl, rfl⟩
  · rw [ha]
    exact {
      lawful := hG
      seven_le := hseven
      capacity := rfl
      percent := hpct
      ctrl_length := List.length_replicate
      slots_length := List.length_replicate
      clone := by
        intro i hi
        rw [List.getElem?_replicate, List.getElem?_replicate, if_pos (by omega), if_pos (by omega)]
      isCtrl := fun b hb => Or.inr (Or.inl (List.eq_of_mem_replicate hb))
      live_of_full := by
        intro i _ b hb hlt
        rw [List.eq_of_mem_replicate (List.mem_of_getElem? hb)] at hlt
        exact absurd hlt (by decide)
      tag := fun i k v hlive => absurd hlive (hnone i k v)
      distinct := fun i _ k v _ hlive => absurd hlive (hnone i k v)
      reached := fun i k v hlive => absurd hlive (hnone i k v)
      size := (hkind _ (by decide)).symm
      growth := by
        rw [fullSlots, tombstones, List.count, hkind _ (by decide), hkind _ (by decide)]
        exact Nat.zero_add _
      noTombstones := fun _ => hkind _ (by decide) }
  · rw [ha]
    exact hnone
  · rw [ha]
    exact hkind _ (by decide)

/-! ### Insert, erase and rehash -/

section

variable {a : ℕ} {t : Table K V}

/-- **`Insert` where there is room**, at the empty slot that the key was looked for up to. -/
theorem Holds.insertAt (h : Holds G hash a t) {key : K} (value : V) {idx : ℕ} (hidx : t.ctrl[idx]? = some kFreeSlot)
    (hreach : Reached G a t (h1 (hash key)) idx) (hroom : 0 < t.growthLeft) (habsent : ∀ j v, ¬ Live t j key v) :
    ∃ u i, t.insertAt G hash idx key value = some (u, i, true) ∧ Holds G hash a u ∧
      (∀ j k v, Live u j k v ↔ (j = i ∧ k = key ∧ v = value) ∨ Live t j k v) ∧ fullSlots u = fullSlots t + 1 ∧
      u.capacity = t.capacity ∧ u.loadLimitPercent = t.loadLimitPercent ∧ u.hasTombstones = t.hasTombstones := by
  cases htomb : t.hasTombstones with
  | false =>
    have hput := h.putEntry value hidx (Or.inl rfl) hroom habsent hreach
    rw [htomb] at hput
    exact ⟨_, idx, by rw [Table.insertAt, htomb]; rfl, hput⟩
  | true =>
    obtain ⟨i, hrun, hfree, hreach'⟩ := h.findFirst key
    obtain ⟨c, hc, hkind⟩ : ∃ c, t.ctrl[i]? = some c ∧ (c = kFreeSlot ∨ c = kTombstone) := by
      rcases hfree with hfree | hfree
      · exact ⟨_, hfree, Or.inl rfl⟩
      · exact ⟨_, hfree, Or.inr rfl⟩
    have hput := h.putEntry value hc hkind hroom habsent hreach'
    rw [htomb] at hput
    refine ⟨_, i, ?_, hput⟩
    rw [Table.insertAt, htomb, if_pos rfl, hrun, Option.bind_some, hc]
    rfl

/-- A slot whose entry is moved. -/
def Moved (old : Table K V) (i : ℕ) : Bool :=
  ¬ (old.ctrl.getD i kFreeSlot = kFreeSlot ∨ old.ctrl.getD i kFreeSlot = kTombstone)

theorem Holds.moved_iff (h : Holds G hash a t) {i : ℕ} (hi : i < 2 ^ a) :
    Moved t i = true ↔ ∃ key value, Live t i key value := by
  have hin : i < t.ctrl.length := by
    rw [h.ctrl_length]
    omega
  have hget : t.ctrl[i]? = some t.ctrl[i] := List.getElem?_eq_getElem hin
  rw [Moved, List.getD_eq_getElem?_getD, hget, Option.getD_some, decide_eq_true_eq]
  constructor
  · intro hkind
    exact h.live_of_full i hi _ hget ((h.isCtrl _ (List.getElem_mem hin)).resolve_right hkind)
  · rintro ⟨key, value, hlive⟩ hkind
    refine h.not_live ?_ key value hlive
    rw [hget]
    exact hkind.imp (congrArg some) (congrArg some)

theorem Moved.eq_lt (h : Holds G hash a t) {i : ℕ} (hi : i < 2 ^ a) :
    Moved t i = decide (t.ctrl.getD i kFreeSlot < 0x80) := by
  have hin : i < t.ctrl.length := by
    rw [h.ctrl_length]
    omega
  have hkind := h.isCtrl _ (List.getElem_mem hin)
  rw [Moved, List.getD_eq_getElem?_getD, List.getElem?_eq_getElem hin, Option.getD_some, decide_eq_decide]
  constructor
  · exact hkind.resolve_right
  · rintro hlt (heq | heq)
    · exact absurd (heq ▸ hlt) (by decide)
    · exact absurd (heq ▸ hlt) (by decide)

/-- The slots to move are the full ones. -/
theorem Holds.countP_moved (h : Holds G hash a t) : (List.range t.capacity).countP (Moved t) = fullSlots t := by
  have htake : (List.range t.capacity).map (fun i => t.ctrl.getD i kFreeSlot) = t.ctrl.take t.capacity := by
    refine List.ext_getElem? fun i => ?_
    rw [List.getElem?_map, List.getElem?_take, h.capacity]
    by_cases hi : i < 2 ^ a
    · have hin : i < t.ctrl.length := by
        rw [h.ctrl_length]
        omega
      rw [if_pos hi, List.getElem?_range hi, Option.map_some, List.getD_eq_getElem?_getD, List.getElem?_eq_getElem hin,
        Option.getD_some]
    · rw [if_neg hi, List.getElem?_eq_none (by rw [List.length_range]; omega), Option.map_none]
  rw [fullSlots, ← htake, List.countP_map]
  refine List.countP_congr fun i hi => ?_
  rw [List.mem_range, h.capacity] at hi
  rw [Moved.eq_lt h hi]
  rfl

variable [DecidableEq K]

/-- **`Erase`** leaves a tombstone. -/
theorem Holds.erase_of_live (h : Holds G hash a t) {i : ℕ} {key : K} {value : V} (hlive : Live t i key value) :
    ∃ u, t.erase G hash key = some (u, true) ∧ Holds G hash a u ∧
      (∀ j k v, Live u j k v ↔ k ≠ key ∧ Live t j k v) := by
  have hi := h.lt_of_live hlive
  have htag := h.tag i key value hlive
  have hlt := h2_lt (hash key)
  have w : Writes G t { (t.setCtrl G i kTombstone).setSlot i none with size := t.size - 1, hasTombstones := true } i
    kTombstone none := ⟨rfl, rfl, rfl, rfl⟩
  have hfull := fullSlots_set w h hi htag
  have htomb := tombstones_set w h hi htag
  have hneTomb : h2 (hash key) ≠ kTombstone := fun heq => absurd (heq ▸ hlt) (by decide)
  rw [if_pos hlt, if_neg (by decide), Nat.add_zero] at hfull
  rw [if_neg hneTomb, if_pos rfl, Nat.add_zero] at htomb
  have hgrowth := h.growth
  refine ⟨_, by rw [Table.erase, h.findSlot_of_live hlive]; rfl, h.of_writes w hi (Or.inl ⟨rfl, rfl⟩) ?_ ?_ nofun,
    fun j k v => ?_⟩
  · have hsize := h.size
    show t.size - 1 = _
    omega
  · rw [w.loadLimit, ← hgrowth]
    show _ + _ + t.growthLeft = _
    omega
  · rw [w.live_iff h hi]
    constructor
    · rintro (⟨_, hnone⟩ | ⟨hne, hold⟩)
      · cases hnone
      · exact ⟨fun hk => hne (h.distinct j i key v value (hk ▸ hold) hlive), hold⟩
    · rintro ⟨hk, hold⟩
      refine Or.inr ⟨?_, hold⟩
      rintro rfl
      exact hk (Prod.mk.inj (Option.some.inj (Option.some.inj (hold.symm.trans hlive)))).1

/-- **The loop of the rehash**: as many inserts as the old table has entries, all of them with room. -/
theorem Holds.rehashLoop {old : Table K V} {b : ℕ} (hold : Holds G hash b old) :
    ∀ (l : List ℕ) {t : Table K V}, Holds G hash a t → (∀ i ∈ l, i < 2 ^ b) → l.Nodup → t.hasTombstones = false →
      fullSlots t + l.countP (Moved old) < loadLimit t → (∀ j k v, Live t j k v → ∃ i ∉ l, Live old i k v) →
      ∃ u, Table.rehashLoop G hash old t (fullSlots t) l = some u ∧ Holds G hash a u ∧ 0 < u.growthLeft ∧
        u.hasTombstones = false ∧
        ∀ k v, (∃ j, Live u j k v) ↔ (∃ j, Live t j k v) ∨ ∃ i ∈ l, Live old i k v
  | [], t, h, _, _, htomb, hlimit, _ => by
    have hno := h.noTombstones htomb
    have hgrowth := h.growth
    have hself : { t with size := fullSlots t } = t := by rw [← h.size]
    refine ⟨t, congrArg some hself, h, ?_, htomb, fun k v => ?_⟩
    · rw [List.countP_nil] at hlimit
      omega
    · exact ⟨Or.inl, fun hor => hor.elim id fun ⟨_, hmem, _⟩ => nomatch hmem⟩
  | i :: l, t, h, hlt, hnodup, htomb, hlimit, hfrom => by
    have hi := hlt i List.mem_cons_self
    have hlt' : ∀ i ∈ l, i < 2 ^ b := fun j hj => hlt j (List.mem_cons_of_mem _ hj)
    have hnodup' := (List.nodup_cons.mp hnodup).2
    have hnotin := (List.nodup_cons.mp hnodup).1
    rw [List.countP_cons] at hlimit
    rw [Table.rehashLoop]
    by_cases hkind : old.ctrl.getD i kFreeSlot = kFreeSlot ∨ old.ctrl.getD i kFreeSlot = kTombstone
    · have hmoved : ¬ Moved old i = true := by
        rw [Moved, decide_eq_true_eq]
        exact fun hnot => hnot hkind
      rw [if_neg hmoved] at hlimit
      have hfrom' : ∀ j k v, Live t j k v → ∃ i ∉ l, Live old i k v := by
        intro j k v hj
        obtain ⟨i', hi', hlive⟩ := hfrom j k v hj
        exact ⟨i', fun hmem => hi' (List.mem_cons_of_mem _ hmem), hlive⟩
      obtain ⟨u, hrun, hu, hroom, hnone, hentries⟩ := hold.rehashLoop l h hlt' hnodup' htomb hlimit hfrom'
      rw [if_pos hkind]
      refine ⟨u, hrun, hu, hroom, hnone, fun k v => (hentries k v).trans ⟨?_, ?_⟩⟩
      · exact Or.imp id fun ⟨j, hj, hlive⟩ => ⟨j, List.mem_cons_of_mem _ hj, hlive⟩
      · rintro (hnew | ⟨j, hj, hlive⟩)
        · exact Or.inl hnew
        · rcases List.mem_cons.mp hj with rfl | hj
          · exact absurd ((hold.moved_iff hi).mpr ⟨k, v, hlive⟩) hmoved
          · exact Or.inr ⟨j, hj, hlive⟩
    · have hmoved : Moved old i = true := by
        rw [Moved, decide_eq_true_eq]
        exact hkind
      obtain ⟨key, value, hlive⟩ := (hold.moved_iff hi).mp hmoved
      have hread : (old.slots[i]?.bind id) = some (key, value) := by rw [show old.slots[i]? = _ from hlive]; rfl
      rw [if_pos hmoved] at hlimit
      have habsent : ∀ j v, ¬ Live t j key v := by
        intro j v hj
        obtain ⟨i', hi', hlive'⟩ := hfrom j key v hj
        exact hi' (hold.distinct i' i key v value hlive' hlive ▸ List.mem_cons_self)
      have hno := h.noTombstones htomb
      have hgrowth := h.growth
      have hroom : 0 < t.growthLeft := by omega
      obtain ⟨idx, hfind, hidx, hreach⟩ := h.findSlot_of_absent habsent
      obtain ⟨u, i', hins, hu, hentries, hfull, hcap, hpct, htomb'⟩ := h.insertAt value hidx hreach hroom habsent
      have hloadLimit : loadLimit u = loadLimit t := by rw [loadLimit, hcap, hpct, loadLimit]
      have hfrom' : ∀ j k v, Live u j k v → ∃ i ∉ l, Live old i k v := by
        intro j k v hj
        rcases (hentries j k v).mp hj with ⟨_, rfl, rfl⟩ | hj
        · exact ⟨i, hnotin, hlive⟩
        · obtain ⟨i', hi', hlive'⟩ := hfrom j k v hj
          exact ⟨i', fun hmem => hi' (List.mem_cons_of_mem _ hmem), hlive'⟩
      obtain ⟨w, hrun, hw, hroom', hnone, hentries'⟩ := hold.rehashLoop l hu hlt' hnodup' (htomb'.trans htomb)
        (by rw [hloadLimit, hfull]; omega) hfrom'
      rw [if_neg hkind, hread, Option.bind_some]
      refine ⟨w, ?_, hw, hroom', hnone, fun k v => (hentries' k v).trans ⟨?_, ?_⟩⟩
      · dsimp only
        rw [insertWith, hfind, Option.bind_some]
        dsimp only
        rw [if_neg (Nat.ne_of_gt hroom), hins, Option.bind_some, ← hfull]
        exact hrun
      · rintro (⟨j, hj⟩ | ⟨j, hj, hold'⟩)
        · rcases (hentries j k v).mp hj with ⟨_, rfl, rfl⟩ | hj
          · exact Or.inr ⟨i, List.mem_cons_self, hlive⟩
          · exact Or.inl ⟨j, hj⟩
        · exact Or.inr ⟨j, List.mem_cons_of_mem _ hj, hold'⟩
      · rintro (⟨j, hj⟩ | ⟨j, hj, hold'⟩)
        · exact Or.inl ⟨j, (hentries j k v).mpr (Or.inr hj)⟩
        · rcases List.mem_cons.mp hj with rfl | hj
          · obtain ⟨rfl, rfl⟩ := Prod.mk.inj (Option.some.inj (Option.some.inj (hlive.symm.trans hold')))
            exact Or.inl ⟨i', (hentries i' key value).mpr (Or.inl ⟨rfl, rfl, rfl⟩)⟩
          · exact Or.inr ⟨j, hj, hold'⟩

/-- **`GrowAndRehash`** keeps the entries and makes room. -/
theorem Holds.growAndRehash (h : Holds G hash a t) :
    ∃ b u, t.growAndRehash G hash = some u ∧ Holds G hash b u ∧ 0 < u.growthLeft ∧ u.hasTombstones = false ∧
      ∀ k v, (∃ j, Live u j k v) ↔ ∃ i, Live t i k v := by
  have hpow : (t.capacity * 2) &&& (t.capacity * 2 - 1) = 0 := by
    rw [h.capacity, ← Nat.pow_succ, Nat.and_two_pow_sub_one_eq_mod, Nat.mod_self]
  obtain ⟨b, new, hreset, hcap, hnew, hnone, hzero, htomb, hpct⟩ := reset_holds hash h.lawful h.percent hpow
  obtain ⟨_, _, hge⟩ := h.kSize_pos
  -- the new limit is twice the old one, which is at least one
  have hlimit : fullSlots new + (List.range t.capacity).countP (Moved t) < loadLimit new := by
    have hgrowth := h.growth
    have hpos := h.limit.1
    have hcap' : new.capacity = t.capacity * 2 := by
      rw [hnew.capacity, ← hcap, Nat.max_eq_left]
      rw [h.capacity]
      omega
    have hdouble : loadLimit new = t.capacity * t.loadLimitPercent * 2 / 100 := by
      rw [loadLimit, hcap', hpct, Nat.mul_right_comm]
    rw [hzero, h.countP_moved, hdouble]
    unfold loadLimit at hgrowth hpos
    omega
  obtain ⟨u, hrun, hu, hroom, hnoTomb, hentries⟩ := h.rehashLoop (List.range t.capacity) hnew
    (fun i hi => h.capacity ▸ List.mem_range.mp hi) List.nodup_range htomb hlimit
    (fun j k v hj => absurd hj (hnone j k v))
  refine ⟨b, u, ?_, hu, hroom, hnoTomb, fun k v => (hentries k v).trans ⟨?_, ?_⟩⟩
  · rw [Table.growAndRehash, hreset, Option.bind_some, ← hzero]
    exact hrun
  · rintro (⟨j, hj⟩ | ⟨i, _, hi⟩)
    · exact absurd hj (hnone j k v)
    · exact ⟨i, hi⟩
  · rintro ⟨i, hi⟩
    exact Or.inr ⟨i, List.mem_range.mpr (h.capacity ▸ h.lt_of_live hi), hi⟩

end

end LynxTrace.FlatHashMap
