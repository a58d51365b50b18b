import LynxTrace.Containers.FlatHashMapWrites
import Mathlib.Logic.Function.Basic

/-!
# Containers.FlatHashMapRefinement — the table is a finite map

* `Op`, `apply` : the operations of a map, with what the caller writes through the pointers, and what they do to a
  partial function.
* `step_spec` : an operation has the result that it has on the function that the table means.
* `run_finiteMap` : so has every sequence of them, for every hash and for the groups of both platforms.
-/

namespace LynxTrace.FlatHashMap

open Table

variable {K V : Type*}

/-! ### A finite map -/

/-- Through the pointer that `Find` and `operator[]` return, a value may be written. -/
inductive Op (K V : Type*)
  | insert (key : K) (value : V)
  | subscript (key : K) (write : Option V)
  | find (key : K) (write : Option V)
  | erase (key : K)
  | clear
  deriving DecidableEq, Repr

inductive Result (V : Type*)
  | inserted (value : V) (isNew : Bool)
  | reference (value : V)
  | found (value : Option V)
  | erased (wasThere : Bool)
  | cleared
  deriving DecidableEq, Repr

section

variable [DecidableEq K] [Inhabited V]

/-- What an operation does to a partial function. -/
def Op.apply (m : K → Option V) : Op K V → (K → Option V) × Result V
  | .insert key value =>
    match m key with
    | some old => (m, .inserted old false)
    | none => (Function.update m key (some value), .inserted value true)
  | .subscript key write =>
    (Function.update m key (some (write.getD ((m key).getD default))), .reference ((m key).getD default))
  | .find key write =>
    match m key with
    | some old => (Function.update m key (some (write.getD old)), .found (some old))
    | none => (m, .found none)
  | .erase key => (Function.update m key none, .erased (m key).isSome)
  | .clear => (fun _ => none, .cleared)

def applyAll (m : K → Option V) : List (Op K V) → (K → Option V) × List (Result V)
  | [] => (m, [])
  | op :: ops => ((applyAll (op.apply m).1 ops).1, (op.apply m).2 :: (applyAll (op.apply m).1 ops).2)

/-! ### The operations of the table -/

variable (G : Group) (hash : K → ℕ)

/-- The value behind a pointer, and what is written there. -/
def Table.access (t : Table K V) (idx : ℕ) (write : Option V) : Option (Table K V × V) :=
  (t.slots[idx]?.bind id).map fun (key, value) =>
    match write with
    | some new => (t.setSlot idx (some (key, new)), value)
    | none => (t, value)

def step (t : Table K V) : Op K V → Option (Table K V × Result V)
  | .insert key value =>
    (t.insert G hash key value).bind fun (t, idx, isNew) =>
      (t.access idx none).map fun (t, value) => (t, .inserted value isNew)
  | .subscript key write =>
    (t.insert G hash key default).bind fun (t, idx, _) =>
      (t.access idx write).map fun (t, value) => (t, .reference value)
  | .find key write =>
    (t.find G hash key).bind fun
      | some idx => (t.access idx write).map fun (t, value) => (t, .found (some value))
      | none => some (t, .found none)
  | .erase key => (t.erase G hash key).map fun (t, wasThere) => (t, .erased wasThere)
  | .clear => (t.clear G).map fun t => (t, .cleared)

def run (t : Table K V) : List (Op K V) → Option (Table K V × List (Result V))
  | [] => some (t, [])
  | op :: ops =>
    (step G hash t op).bind fun (t, result) => (run t ops).map fun (t, results) => (t, result :: results)

end

/-! ### What a table means -/

/-- A map without a table, or with one. -/
inductive Valid (G : Group) (hash : K → ℕ) (t : Table K V) : Prop
  | fresh (loadLimitPercent : ℕ) (hpct : 0 < loadLimitPercent ∧ loadLimitPercent < 100)
    (heq : t = empty loadLimitPercent)
  | table (a : ℕ) (h : Holds G hash a t)

def Means (t : Table K V) (m : K → Option V) : Prop := ∀ key value, m key = some value ↔ ∃ i, Live t i key value

section

variable {G : Group} {hash : K → ℕ} {a : ℕ} {t : Table K V} {m : K → Option V}

theorem Means.live {key : K} {value : V} (hm : Means t m) (hkey : m key = some value) : ∃ i, Live t i key value :=
  (hm key value).mp hkey

theorem Means.absent {key : K} (hm : Means t m) (hkey : m key = none) (i : ℕ) (value : V) : ¬ Live t i key value := by
  intro hlive
  rw [(hm key value).mpr ⟨i, hlive⟩] at hkey
  cases hkey

theorem not_live_empty (loadLimitPercent i : ℕ) (key : K) (value : V) :
    ¬ Live (empty loadLimitPercent) i key value := nofun

/-- After a rehash the first slot that can be used is empty. -/
theorem Holds.findFirst_empty (h : Holds G hash a t) (htomb : t.hasTombstones = false) (key : K) :
    ∃ i, t.findFirstEmptyOrTombstone G (hash key) = some i ∧ t.ctrl[i]? = some kFreeSlot ∧
      Reached G a t (h1 (hash key)) i := by
  obtain ⟨i, hrun, hfree, hreach⟩ := h.findFirst key
  refine ⟨i, hrun, hfree.resolve_right fun hc => ?_, hreach⟩
  have hmem : kTombstone ∈ t.ctrl.take t.capacity := by
    refine List.mem_of_getElem? (i := i) ?_
    rw [List.getElem?_take, h.capacity, if_pos hreach.lt]
    exact hc
  exact absurd (h.noTombstones htomb) (Nat.ne_of_gt (List.count_pos_iff.mpr hmem))

theorem Valid.clear (hG : G.Lawful) (h : Valid G hash t) :
    ∃ u, t.clear G = some u ∧ Valid G hash u ∧ Means u fun _ => none := by
  cases h with
  | fresh pct hpct heq =>
    subst heq
    exact ⟨_, rfl, .fresh pct hpct rfl, fun k v => ⟨nofun, fun ⟨i, hi⟩ => absurd hi (not_live_empty pct i k v)⟩⟩
  | table a h =>
    have hpow : t.capacity &&& (t.capacity - 1) = 0 := by
      rw [h.capacity, Nat.and_two_pow_sub_one_eq_mod, Nat.mod_self]
    have hpos := Nat.two_pow_pos a
    obtain ⟨b, u, hreset, _, hu, hnone, _⟩ := reset_holds hash hG h.percent hpow
    refine ⟨u, ?_, .table b hu, fun k v => ⟨nofun, fun ⟨i, hi⟩ => absurd hi (hnone i k v)⟩⟩
    rw [Table.clear, if_neg (by rw [h.capacity]; omega)]
    exact hreset

/-- What the iterator gives of a slot. -/
theorem Holds.entry_iff (h : Holds G hash a t) {i : ℕ} (hi : i < 2 ^ a) {key : K} {value : V} :
    (if t.ctrl.getD i kFreeSlot = kFreeSlot ∨ t.ctrl.getD i kFreeSlot = kTombstone then none
      else t.slots[i]?.bind id) = some (key, value) ↔ Live t i key value := by
  have hmoved := h.moved_iff hi
  rw [Moved, decide_eq_true_eq] at hmoved
  constructor
  · intro hentry
    split_ifs at hentry with hkind
    obtain ⟨k, v, hlive⟩ := hmoved.mp hkind
    rw [show t.slots[i]? = _ from hlive] at hentry
    cases Option.some.inj hentry
    exact hlive
  · intro hlive
    rw [if_neg (hmoved.mpr ⟨key, value, hlive⟩), show t.slots[i]? = _ from hlive]
    rfl

/-- **The iterator** gives every entry once. -/
theorem Holds.entries (h : Holds G hash a t) (hm : Means t m) :
    (t.entries.map Prod.fst).Nodup ∧ ∀ key value, (key, value) ∈ t.entries ↔ m key = some value := by
  constructor
  · rw [Table.entries, List.map_filterMap, List.nodup_iff_pairwise_ne, List.pairwise_filterMap]
    refine (List.nodup_iff_pairwise_ne.mp List.nodup_range).imp_of_mem fun {i j} hi hj hne k hk k' hk' heq => hne ?_
    obtain ⟨⟨_, v⟩, hentry, rfl⟩ := Option.map_eq_some_iff.mp hk
    obtain ⟨⟨_, v'⟩, hentry', rfl⟩ := Option.map_eq_some_iff.mp hk'
    obtain rfl : _ = _ := heq
    have hlive := (h.entry_iff (h.capacity ▸ List.mem_range.mp hi)).mp hentry
    exact h.distinct i j _ v v' hlive ((h.entry_iff (h.capacity ▸ List.mem_range.mp hj)).mp hentry')
  · intro key value
    rw [hm key value, Table.entries, List.mem_filterMap]
    constructor
    · rintro ⟨i, hi, hentry⟩
      exact ⟨i, (h.entry_iff (h.capacity ▸ List.mem_range.mp hi)).mp hentry⟩
    · rintro ⟨i, hlive⟩
      have hi := h.lt_of_live hlive
      exact ⟨i, List.mem_range.mpr (h.capacity ▸ hi), (h.entry_iff hi).mpr hlive⟩

variable [DecidableEq K]

/-- A value is read, and written or not. -/
theorem Holds.access (h : Holds G hash a t) (hm : Means t m) {idx : ℕ} {key : K} {old : V}
    (hlive : Live t idx key old) (write : Option V) :
    ∃ u, t.access idx write = some (u, old) ∧ Holds G hash a u ∧
      Means u (Function.update m key (some (write.getD old))) := by
  have hread : (t.slots[idx]?.bind id) = some (key, old) := by rw [show t.slots[idx]? = _ from hlive]; rfl
  cases write with
  | none =>
    refine ⟨t, by rw [Table.access, hread]; rfl, h, ?_⟩
    rw [Option.getD_none, ← (hm key old).mpr ⟨idx, hlive⟩, Function.update_eq_self]
    exact hm
  | some new =>
    obtain ⟨hu, hentries⟩ := h.assign hlive new
    refine ⟨_, by rw [Table.access, hread]; rfl, hu, fun k v => ?_⟩
    rw [Option.getD_some, Function.update_apply]
    by_cases hk : k = key
    · subst hk
      rw [if_pos rfl, Option.some.injEq]
      constructor
      · rintro rfl
        exact ⟨idx, (hentries idx k new).mpr (Or.inl ⟨rfl, rfl, rfl⟩)⟩
      · rintro ⟨j, hj⟩
        rcases (hentries j k v).mp hj with ⟨_, _, heq⟩ | ⟨hne, hold⟩
        · exact heq.symm
        · exact absurd (h.distinct j idx k v old hold hlive) hne
    · rw [if_neg hk, hm k v]
      constructor
      · rintro ⟨j, hj⟩
        refine ⟨j, (hentries j k v).mpr (Or.inr ⟨?_, hj⟩)⟩
        rintro rfl
        exact hk (Prod.mk.inj (Option.some.inj (Option.some.inj (hj.symm.trans hlive)))).1
      · rintro ⟨j, hj⟩
        rcases (hentries j k v).mp hj with ⟨_, hk', _⟩ | ⟨_, hold⟩
        · exact absurd hk' hk
        · exact ⟨j, hold⟩

/-- Room is made, from nothing or from a full table. -/
theorem Valid.growAndRehash (hG : G.Lawful) (h : Valid G hash t) :
    ∃ b u, t.growAndRehash G hash = some u ∧ Holds G hash b u ∧ 0 < u.growthLeft ∧ u.hasTombstones = false ∧
      ∀ k v, (∃ j, Live u j k v) ↔ ∃ i, Live t i k v := by
  cases h with
  | fresh pct hpct heq =>
    subst heq
    obtain ⟨b, new, hreset, _, hnew, hnone, hzero, htomb, _⟩ := reset_holds hash hG
      (show 0 < (empty pct : Table K V).loadLimitPercent ∧ (empty pct : Table K V).loadLimitPercent < 100 from hpct)
      (show 0 &&& (0 - 1) = 0 from rfl)
    have hself : { new with size := 0 } = new := by rw [← hzero, ← hnew.size]
    refine ⟨b, new, ?_, hnew, ?_, htomb, fun k v => ⟨fun ⟨j, hj⟩ => absurd hj (hnone j k v),
      fun ⟨i, hi⟩ => absurd hi (not_live_empty pct i k v)⟩⟩
    · rw [Table.growAndRehash]
      show ((empty pct).reset G 0).bind _ = _
      rw [hreset, Option.bind_some]
      exact congrArg some hself
    · have hgrowth := hnew.growth
      have hlimit := hnew.limit.1
      have hno := hnew.noTombstones htomb
      omega
  | table a h => exact h.growAndRehash

theorem Valid.findSlot_of_absent (h : Valid G hash t) {key : K} (hnone : ∀ i v, ¬ Live t i key v) :
    ∃ i, t.findSlotIgnoringTombstones G hash key = some (.needsInsert i) ∧
      ∀ a, Holds G hash a t → t.ctrl[i]? = some kFreeSlot ∧ Reached G a t (h1 (hash key)) i := by
  cases h with
  | fresh pct hpct heq =>
    subst heq
    exact ⟨_, rfl, fun a h => absurd rfl h.ctrl_ne_nil⟩
  | table a h =>
    obtain ⟨i, hrun, hfree, hreach⟩ := h.findSlot_of_absent hnone
    refine ⟨i, hrun, fun b hb => ⟨hfree, ?_⟩⟩
    rwa [Nat.pow_right_injective (Nat.le_refl 2) (hb.capacity.symm.trans h.capacity)]

/-- **`Insert`** finds the key, or gives it a slot. -/
theorem Valid.insert (hG : G.Lawful) (h : Valid G hash t) (hm : Means t m) (key : K) (value : V) :
    ∃ b u i, t.insert G hash key value = some (u, i, (m key).isNone) ∧ Holds G hash b u ∧
      Live u i key ((m key).getD value) ∧ Means u (Function.update m key (some ((m key).getD value))) := by
  cases hkey : m key with
  | some old =>
    obtain ⟨i, hlive⟩ := hm.live hkey
    cases h with
    | fresh pct hpct heq =>
      subst heq
      exact absurd hlive (not_live_empty pct i key old)
    | table a h =>
      refine ⟨a, t, i, ?_, h, hlive, ?_⟩
      · rw [Table.insert, insertWith, h.findSlot_of_live hlive]
        rfl
      · rw [Option.getD_some, ← hkey, Function.update_eq_self]
        exact hm
  | none =>
    have habsent := hm.absent hkey
    obtain ⟨idx, hfind, hidx⟩ := h.findSlot_of_absent habsent
    have hins : ∃ b u i, t.insert G hash key value = some (u, i, true) ∧ Holds G hash b u ∧
        Live u i key value ∧ ∀ k v, (∃ j, Live u j k v) ↔ (k = key ∧ v = value) ∨ ∃ j, Live t j k v := by
      rw [Table.insert, insertWith, hfind, Option.bind_some]
      dsimp only
      by_cases hroom : t.growthLeft = 0
      · obtain ⟨b, new, hgrow, hnew, hleft, htomb, hentries⟩ := h.growAndRehash hG
        obtain ⟨i, hfirst, hfree, hreach⟩ := hnew.findFirst_empty htomb key
        obtain ⟨u, i', hrun, hu, hall, _⟩ := hnew.insertAt value hfree hreach hleft fun j v hj =>
          (hentries key v).mp ⟨j, hj⟩ |>.elim fun i hi => habsent i v hi
        rw [if_pos hroom, hgrow, Option.bind_some, hfirst, Option.bind_some]
        refine ⟨b, u, i', hrun, hu, (hall i' key value).mpr (Or.inl ⟨rfl, rfl, rfl⟩), fun k v => ?_⟩
        rw [← hentries k v]
        constructor
        · rintro ⟨j, hj⟩
          exact ((hall j k v).mp hj).imp And.right fun hold => ⟨j, hold⟩
        · rintro (⟨rfl, rfl⟩ | ⟨j, hj⟩)
          · exact ⟨i', (hall i' k v).mpr (Or.inl ⟨rfl, rfl, rfl⟩)⟩
          · exact ⟨j, (hall j k v).mpr (Or.inr hj)⟩
      · cases h with
        | fresh pct hpct heq =>
          subst heq
          exact absurd rfl hroom
        | table a h =>
          obtain ⟨u, i', hrun, hu, hall, _⟩ := h.insertAt value (hidx a h).1 (hidx a h).2 (Nat.pos_of_ne_zero hroom)
            habsent
          rw [if_neg hroom]
          refine ⟨a, u, i', hrun, hu, (hall i' key value).mpr (Or.inl ⟨rfl, rfl, rfl⟩), fun k v => ?_⟩
          constructor
          · rintro ⟨j, hj⟩
            exact ((hall j k v).mp hj).imp And.right fun hold => ⟨j, hold⟩
          · rintro (⟨rfl, rfl⟩ | ⟨j, hj⟩)
            · exact ⟨i', (hall i' k v).mpr (Or.inl ⟨rfl, rfl, rfl⟩)⟩
            · exact ⟨j, (hall j k v).mpr (Or.inr hj)⟩
    obtain ⟨b, u, i, hrun, hu, hlive, hall⟩ := hins
    refine ⟨b, u, i, hrun, hu, hlive, fun k v => ?_⟩
    rw [hall k v, Option.getD_none, Function.update_apply]
    by_cases hk : k = key
    · rw [if_pos hk, Option.some.injEq]
      constructor
      · exact fun heq => Or.inl ⟨hk, heq.symm⟩
      · rintro (⟨_, heq⟩ | ⟨j, hj⟩)
        · exact heq.symm
        · exact absurd (hk ▸ hj) (habsent j v)
    · rw [if_neg hk, hm k v]
      exact ⟨Or.inr, fun hor => hor.resolve_left fun hboth => hk hboth.1⟩

theorem Valid.find (h : Valid G hash t) (hm : Means t m) (key : K) :
    (m key = none ∧ t.find G hash key = some none) ∨
      ∃ a i old, m key = some old ∧ t.find G hash key = some (some i) ∧ Holds G hash a t ∧ Live t i key old := by
  cases hkey : m key with
  | none =>
    obtain ⟨idx, hfind, _⟩ := h.findSlot_of_absent (hm.absent hkey)
    exact Or.inl ⟨rfl, by rw [Table.find, hfind]; rfl⟩
  | some old =>
    obtain ⟨i, hlive⟩ := hm.live hkey
    cases h with
    | fresh pct hpct heq =>
      subst heq
      exact absurd hlive (not_live_empty pct i key old)
    | table a h => exact Or.inr ⟨a, i, old, rfl, by rw [Table.find, h.findSlot_of_live hlive]; rfl, h, hlive⟩

theorem Valid.erase (h : Valid G hash t) (hm : Means t m) (key : K) :
    ∃ u, t.erase G hash key = some (u, (m key).isSome) ∧ Valid G hash u ∧ Means u (Function.update m key none) := by
  cases hkey : m key with
  | none =>
    obtain ⟨idx, hfind, _⟩ := h.findSlot_of_absent (hm.absent hkey)
    refine ⟨t, by rw [Table.erase, hfind]; rfl, h, ?_⟩
    rw [← hkey, Function.update_eq_self]
    exact hm
  | some old =>
    obtain ⟨i, hlive⟩ := hm.live hkey
    cases h with
    | fresh pct hpct heq =>
      subst heq
      exact absurd hlive (not_live_empty pct i key old)
    | table a h =>
      obtain ⟨u, hrun, hu, hall⟩ := h.erase_of_live hlive
      refine ⟨u, hrun, .table a hu, fun k v => ?_⟩
      simp only [hall]
      rw [Function.update_apply]
      by_cases hk : k = key
      · rw [if_pos hk]
        constructor
        · intro hnone
          cases hnone
        · rintro ⟨_, hne, _⟩
          exact absurd hk hne
      · rw [if_neg hk, hm k v]
        exact exists_congr fun j => (and_iff_right hk).symm

variable [Inhabited V]

/-- **One operation** has the result that it has on the function. -/
theorem step_spec (hG : G.Lawful) (h : Valid G hash t) (hm : Means t m) (op : Op K V) :
    ∃ u, step G hash t op = some (u, (op.apply m).2) ∧ Valid G hash u ∧ Means u (op.apply m).1 := by
  cases op with
  | insert key value =>
    obtain ⟨b, u, i, hrun, hu, hlive, hm'⟩ := h.insert hG hm key value
    obtain ⟨w, haccess, hw, hm''⟩ := hu.access hm' hlive none
    rw [Option.getD_none, Function.update_idem] at hm''
    refine ⟨w, ?_, .table b hw, ?_⟩
    · rw [step, hrun, Option.bind_some]
      dsimp only
      rw [haccess, Op.apply]
      cases m key with
      | none => rfl
      | some old => rfl
    · rw [Op.apply]
      cases hkey : m key with
      | none => rwa [hkey] at hm''
      | some old =>
        rw [hkey, Option.getD_some, ← hkey, Function.update_eq_self] at hm''
        exact hm''
  | subscript key write =>
    obtain ⟨b, u, i, hrun, hu, hlive, hm'⟩ := h.insert hG hm key default
    obtain ⟨w, haccess, hw, hm''⟩ := hu.access hm' hlive write
    rw [Function.update_idem] at hm''
    refine ⟨w, ?_, .table b hw, hm''⟩
    rw [step, hrun, Option.bind_some]
    dsimp only
    rw [haccess]
    rfl
  | find key write =>
    rcases h.find hm key with ⟨hkey, hrun⟩ | ⟨a, i, old, hkey, hrun, ht, hlive⟩
    · exact ⟨t, by rw [step, hrun, Op.apply, hkey]; rfl, h, by rw [Op.apply, hkey]; exact hm⟩
    · obtain ⟨w, haccess, hw, hm'⟩ := ht.access hm hlive write
      refine ⟨w, ?_, .table a hw, by rw [Op.apply, hkey]; exact hm'⟩
      rw [step, hrun, Option.bind_some]
      dsimp only
      rw [haccess, Op.apply, hkey]
      rfl
  | erase key =>
    obtain ⟨u, hrun, hu, hm'⟩ := h.erase hm key
    exact ⟨u, by rw [step, hrun]; rfl, hu, hm'⟩
  | clear =>
    obtain ⟨u, hrun, hu, hm'⟩ := h.clear hG
    exact ⟨u, by rw [step, hrun]; rfl, hu, hm'⟩

/-- **A sequence of operations** has the results that it has on the function. -/
theorem run_refines (hG : G.Lawful) (ops : List (Op K V)) : ∀ {t : Table K V} {m : K → Option V}, Valid G hash t →
    Means t m → ∃ u, run G hash t ops = some (u, (applyAll m ops).2) ∧ Valid G hash u ∧ Means u (applyAll m ops).1 := by
  induction ops with
  | nil => exact fun h hm => ⟨_, rfl, h, hm⟩
  | cons op ops ih =>
    intro t m h hm
    obtain ⟨u, hstep, hu, hm'⟩ := step_spec hG h hm op
    obtain ⟨w, hrun, hw, hm''⟩ := ih hu hm'
    refine ⟨w, ?_, hw, hm''⟩
    rw [run, hstep, Option.bind_some]
    dsimp only
    rw [hrun]
    rfl

/-- **The table is a finite map**: for every hash, both groups of control bytes and every load limit from 1 to 99
percent, a sequence of operations has the results that it has on a partial function.  At the end (and so after every
operation) the iterator gives every entry once; full slots and tombstones together are within the load limit, and every
probe sequence has come to an empty slot before it has gone once round the table. -/
theorem run_finiteMap (hG : G = .sse ∨ G = .swar) (hash : K → ℕ) {loadLimitPercent : ℕ} (hpct : 0 < loadLimitPercent)
    (hpct' : loadLimitPercent < 100) {initialCapacity : ℕ} (hpow : initialCapacity &&& (initialCapacity - 1) = 0)
    (ops : List (Op K V)) :
    ∃ t u, construct G initialCapacity loadLimitPercent = some t ∧
      run G hash t ops = some (u, (applyAll (fun _ => none) ops).2) ∧
      (u.entries.map Prod.fst).Nodup ∧
      (∀ key value, (key, value) ∈ u.entries ↔ (applyAll (fun _ => none) ops).1 key = some value) ∧
      fullSlots u + tombstones u ≤ loadLimit u ∧
      (u.ctrl ≠ [] → ∀ start, ∃ round, G.kSize * round < u.capacity ∧ ∃ j < G.kSize,
        u.ctrl[(start + G.kSize * triangular round + j) % u.capacity]? = some kFreeSlot) := by
  have hlawful : G.Lawful := by
    rcases hG with rfl | rfl
    · exact lawful_sse
    · exact lawful_swar
  obtain ⟨t, hconstruct, ht, hm⟩ : ∃ t : Table K V, construct G initialCapacity loadLimitPercent = some t ∧
      Valid G hash t ∧ Means t fun _ => none := by
    rw [construct]
    split_ifs with hpos
    · obtain ⟨a, t, hreset, _, ht, hnone, _⟩ := reset_holds hash hlawful
        (show 0 < (empty loadLimitPercent : Table K V).loadLimitPercent ∧ _ from ⟨hpct, hpct'⟩) hpow
      exact ⟨t, hreset, .table a ht, fun k v => ⟨nofun, fun ⟨i, hi⟩ => absurd hi (hnone i k v)⟩⟩
    · exact ⟨_, rfl, .fresh loadLimitPercent ⟨hpct, hpct'⟩ rfl,
        fun k v => ⟨nofun, fun ⟨i, hi⟩ => absurd hi (not_live_empty loadLimitPercent i k v)⟩⟩
  obtain ⟨u, hrun, hu, hmeans⟩ := run_refines hlawful ops ht hm
  refine ⟨t, u, hconstruct, hrun, ?_⟩
  cases hu with
  | fresh pct _ heq =>
    subst heq
    refine ⟨List.nodup_nil, fun key value => ⟨nofun, fun hkey => ?_⟩, Nat.zero_le _, fun hne => absurd rfl hne⟩
    obtain ⟨i, hi⟩ := (hmeans key value).mp hkey
    exact absurd hi (not_live_empty pct i key value)
  | table a h =>
    have hgrowth := h.growth
    refine ⟨(h.entries hmeans).1, (h.entries hmeans).2, by omega, fun _ start => ?_⟩
    obtain ⟨round, hround, hfree⟩ := h.exists_round start
    unfold NoFree at hfree
    push Not at hfree
    rw [h.capacity]
    exact ⟨round, hround, hfree⟩

/-- Three keys of one hash, one of them erased and inserted again. -/
theorem run_collisions : ∃ t u, construct .swar 0 75 = some t ∧
    run .swar (fun _ : ℕ => 5) t
        [.insert 1 10, .insert 2 20, .erase 1, .subscript 3 (some 30), .insert 1 11, .find 2 none] =
      some (u, [.inserted 10 true, .inserted 20 true, .erased true, .reference 0, .inserted 11 true,
        .found (some 20)]) ∧
    (u.entries.map Prod.fst).Nodup := by
  obtain ⟨t, u, ht, hu, hentries, _⟩ := run_finiteMap (Or.inr rfl) (fun _ : ℕ => 5) (show 0 < 75 by decide) (by decide)
    (show 0 &&& (0 - 1) = 0 from rfl)
    [.insert 1 10, .insert 2 20, .erase 1, .subscript 3 (some 30), .insert 1 11, .find 2 none]
  exact ⟨t, u, ht, hu, hentries⟩

/-- With a load limit of 0 percent the first insert is over the limit, and the number of slots that are left wraps: the
table of 128 slots fills up, and the probe loop of one more insert does not end. -/
theorem run_zeroPercent :
    ((construct .sse 0 0).bind fun t => (run .sse (fun _ : ℕ => 0) t [.insert 1 1]).map fun (u, _) =>
      decide (fullSlots u + tombstones u ≤ loadLimit u)) = some false ∧
    ((construct .sse 0 0).bind fun t =>
      run .sse (fun key : ℕ => 129 * key) t ((List.range 129).map fun key => .insert key key)) = none := by
  constructor
  · decide +kernel
  · rw [← Option.isNone_iff_eq_none]
    decide +kernel

end

end LynxTrace.FlatHashMap
