import Mathlib.Data.List.Nodup
import Mathlib.Data.List.Induction

/-!
# Base.OrderedMap — maps whose keys stay in the order of their first insertion
-/

namespace LynxTrace

/-- The entries of a map, oldest key first. -/
structure OrderedMap (K V : Type*) where
  entries : List (K × V)
  nodup : (entries.map Prod.fst).Nodup

namespace OrderedMap

variable {K V A : Type*} [DecidableEq K]

def empty : OrderedMap K V := ⟨[], List.nodup_nil⟩

def keys (m : OrderedMap K V) : List K := m.entries.map Prod.fst

def values (m : OrderedMap K V) : List V := m.entries.map Prod.snd

def get? (m : OrderedMap K V) (k : K) : Option V := (m.entries.find? fun e => e.1 = k).map Prod.snd

/-- A key that is there keeps its place. -/
def setEntries (k : K) (v : V) (es : List (K × V)) : List (K × V) :=
  if k ∈ es.map Prod.fst then es.map fun e => if e.1 = k then (k, v) else e else es ++ [(k, v)]

theorem map_replace_fst (k : K) (v : V) (es : List (K × V)) :
    (es.map fun e => if e.1 = k then (k, v) else e).map Prod.fst = es.map Prod.fst := by
  rw [List.map_map]
  refine List.map_congr_left fun e _ => ?_
  show (if e.1 = k then (k, v) else e).1 = e.1
  split_ifs with h
  · exact h.symm
  · rfl

variable {es : List (K × V)}

theorem nodup_setEntries {k : K} {v : V} (h : (es.map Prod.fst).Nodup) : ((setEntries k v es).map Prod.fst).Nodup := by
  rw [setEntries]
  split_ifs with hk
  · rwa [map_replace_fst]
  · rw [List.map_append]
    refine List.nodup_append.mpr ⟨h, List.nodup_singleton _, ?_⟩
    rintro a ha b hb rfl
    rw [List.mem_singleton.mp hb] at ha
    exact hk ha

def set (m : OrderedMap K V) (k : K) (v : V) : OrderedMap K V := ⟨setEntries k v m.entries, nodup_setEntries m.nodup⟩

/-- All of `m'` set in `m`, in the order of `m'`. -/
def assign (m m' : OrderedMap K V) : OrderedMap K V := m'.entries.foldl (fun acc e => acc.set e.1 e.2) m

/-- The entries of `m'` whose keys `m` does not have yet. -/
def assignNew (m m' : OrderedMap K V) : OrderedMap K V :=
  m'.entries.foldl (fun acc e => if acc.get? e.1 = none then acc.set e.1 e.2 else acc) m

/-- The entries whose keys pass. -/
def filterKeys (p : K → Bool) (m : OrderedMap K V) : OrderedMap K V where
  entries := m.entries.filter fun e => p e.1
  nodup := m.nodup.sublist (List.filter_sublist.map _)

/-- The elements of a list by their keys, each key's in the order of the list. -/
def groupBy (key : A → K) (l : List A) : OrderedMap K (List A) :=
  l.foldl (fun m a => m.set (key a) ((m.get? (key a)).getD [] ++ [a])) empty

/-! ### Lookups -/

@[simp] theorem get?_empty (k : K) : (empty : OrderedMap K V).get? k = none := rfl

omit [DecidableEq K] in
theorem eq_of_mem_of_fst_eq (h : (es.map Prod.fst).Nodup) {k : K} {v v' : V} (h1 : (k, v) ∈ es) (h2 : (k, v') ∈ es) :
    v = v' :=
  congrArg Prod.snd (List.inj_on_of_nodup_map h h1 h2 rfl)

theorem get?_eq_some {m : OrderedMap K V} {k : K} {v : V} : m.get? k = some v ↔ (k, v) ∈ m.entries := by
  rw [get?, Option.map_eq_some_iff]
  constructor
  · rintro ⟨⟨k', v'⟩, h1, rfl⟩
    have h2 : decide (k' = k) = true := @List.find?_some _ (fun e => decide (e.1 = k)) (k', v') _ h1
    obtain rfl := of_decide_eq_true h2
    exact List.mem_of_find?_eq_some h1
  · intro h
    obtain ⟨⟨k', v'⟩, h1⟩ : ∃ e, m.entries.find? (fun e => e.1 = k) = some e :=
      Option.isSome_iff_exists.mp (List.find?_isSome.mpr ⟨_, h, decide_eq_true rfl⟩)
    have h2 : decide (k' = k) = true := @List.find?_some _ (fun e => decide (e.1 = k)) (k', v') _ h1
    obtain rfl := of_decide_eq_true h2
    exact ⟨_, h1, eq_of_mem_of_fst_eq m.nodup (List.mem_of_find?_eq_some h1) h⟩

theorem get?_eq_none {m : OrderedMap K V} {k : K} : m.get? k = none ↔ k ∉ m.keys := by
  rw [Option.eq_none_iff_forall_ne_some, keys, List.mem_map]
  constructor
  · rintro h ⟨⟨k', v⟩, h1, rfl⟩
    exact h v (get?_eq_some.mpr h1)
  · intro h v h1
    exact h ⟨(k, v), get?_eq_some.mp h1, rfl⟩

theorem get?_filterKeys (p : K → Bool) (m : OrderedMap K V) (k : K) :
    (m.filterKeys p).get? k = if p k then m.get? k else none := by
  ext v
  rw [get?_eq_some, filterKeys, List.mem_filter]
  split_ifs with h
  · rw [get?_eq_some]
    exact and_iff_left h
  · simp [h]

theorem entries_eq_nil {m : OrderedMap K V} : m.entries = [] ↔ ∀ k, m.get? k = none := by
  simp only [get?_eq_none, keys, List.eq_nil_iff_forall_not_mem]
  constructor
  · rintro h k hk
    obtain ⟨e, he, -⟩ := List.mem_map.mp hk
    exact h e he
  · exact fun h e he => h e.1 (List.mem_map_of_mem he)

theorem mem_setEntries {k k' : K} {v v' : V} :
    (k', v') ∈ setEntries k v es ↔ k' = k ∧ v' = v ∨ k' ≠ k ∧ (k', v') ∈ es := by
  rw [setEntries]
  split_ifs with hk
  · rw [List.mem_map]
    constructor
    · rintro ⟨e, he, h1⟩
      split_ifs at h1 with h2
      · exact Or.inl ⟨(congrArg Prod.fst h1).symm, (congrArg Prod.snd h1).symm⟩
      · subst h1
        exact Or.inr ⟨h2, he⟩
    · rintro (⟨rfl, rfl⟩ | ⟨h1, h2⟩)
      · obtain ⟨e, he, h1⟩ := List.mem_map.mp hk
        exact ⟨e, he, if_pos h1⟩
      · exact ⟨_, h2, if_neg h1⟩
  · rw [List.mem_append, List.mem_singleton, Prod.mk.injEq]
    constructor
    · rintro (h1 | h1)
      · refine Or.inr ⟨?_, h1⟩
        rintro rfl
        exact hk (List.mem_map_of_mem h1)
      · exact Or.inl h1
    · rintro (h1 | ⟨-, h1⟩)
      · exact Or.inr h1
      · exact Or.inl h1

theorem get?_set (m : OrderedMap K V) (k k' : K) (v : V) :
    (m.set k v).get? k' = if k' = k then some v else m.get? k' := by
  ext v'
  rw [get?_eq_some, set, mem_setEntries]
  split_ifs with h
  · simp [h, eq_comm]
  · simp [h, get?_eq_some]

/-! ### Assignments -/

theorem get?_assign_entries (hnodup : (es.map Prod.fst).Nodup) (m : OrderedMap K V) (k : K) :
    (es.foldl (fun acc e => acc.set e.1 e.2) m).get? k = (get? ⟨es, hnodup⟩ k).or (m.get? k) := by
  induction es generalizing m with
  | nil => rfl
  | cons e es ih =>
    obtain ⟨hnotMem, htail⟩ := List.nodup_cons.mp hnodup
    rw [List.foldl_cons, ih htail, get?_set]
    by_cases h : e.1 = k
    · have hnone : get? ⟨es, htail⟩ k = none := get?_eq_none.mpr (h ▸ hnotMem)
      have hsome : get? ⟨e :: es, hnodup⟩ k = some e.2 := get?_eq_some.mpr (h ▸ List.mem_cons_self)
      rw [hnone, hsome, if_pos h.symm]
      rfl
    · have htl : get? ⟨e :: es, hnodup⟩ k = get? ⟨es, htail⟩ k := by
        rw [get?, get?]
        exact congrArg _ (List.find?_cons_of_neg (by simpa using h))
      rw [htl, if_neg (Ne.symm h)]

theorem get?_assign (m m' : OrderedMap K V) (k : K) : (m.assign m').get? k = (m'.get? k).or (m.get? k) :=
  get?_assign_entries m'.nodup m k

theorem get?_assignNew_entries (hnodup : (es.map Prod.fst).Nodup) (m : OrderedMap K V) (k : K) :
    (es.foldl (fun acc e => if acc.get? e.1 = none then acc.set e.1 e.2 else acc) m).get? k =
      (m.get? k).or (get? ⟨es, hnodup⟩ k) := by
  induction es generalizing m with
  | nil => exact (Option.or_none).symm
  | cons e es ih =>
    obtain ⟨hnotMem, htail⟩ := List.nodup_cons.mp hnodup
    rw [List.foldl_cons, ih htail]
    by_cases h : e.1 = k
    · have hsome : get? ⟨e :: es, hnodup⟩ k = some e.2 := get?_eq_some.mpr (h ▸ List.mem_cons_self)
      have hnone : get? ⟨es, htail⟩ k = none := get?_eq_none.mpr (h ▸ hnotMem)
      rw [hsome, hnone, Option.or_none, h]
      split_ifs with h1
      · rw [get?_set, if_pos rfl, h1]
        rfl
      · obtain ⟨v, hv⟩ := Option.ne_none_iff_exists'.mp h1
        rw [hv]
        rfl
    · have htl : get? ⟨e :: es, hnodup⟩ k = get? ⟨es, htail⟩ k := by
        rw [get?, get?]
        exact congrArg _ (List.find?_cons_of_neg (by simpa using h))
      rw [htl]
      split_ifs with h1
      · rw [get?_set, if_neg (Ne.symm h)]
      · rfl

theorem get?_assignNew (m m' : OrderedMap K V) (k : K) : (m.assignNew m').get? k = (m.get? k).or (m'.get? k) :=
  get?_assignNew_entries m'.nodup m k

/-! ### Groups -/

theorem groupBy_concat (key : A → K) (l : List A) (a : A) :
    groupBy key (l ++ [a]) = (groupBy key l).set (key a) (((groupBy key l).get? (key a)).getD [] ++ [a]) := by
  rw [groupBy, List.foldl_append]
  rfl

theorem get?_groupBy (key : A → K) (l : List A) (k : K) :
    ((groupBy key l).get? k).getD [] = l.filter (key · = k) ∧
      ∀ g, (groupBy key l).get? k = some g → g ≠ [] := by
  induction l using List.reverseRecOn with
  | nil => exact ⟨rfl, nofun⟩
  | append_singleton l a ih =>
    rw [groupBy_concat, get?_set, List.filter_append]
    split_ifs with h
    · subst h
      rw [ih.1]
      refine ⟨by simp, ?_⟩
      rintro g ⟨⟩
      exact List.append_ne_nil_of_right_ne_nil _ (List.cons_ne_nil _ _)
    · rw [List.filter_cons_of_neg (by simpa using Ne.symm h), List.filter_nil, List.append_nil]
      exact ih

/-- A group is what has its key. -/
theorem mem_groupBy {key : A → K} {l : List A} {g : List A} (h : g ∈ (groupBy key l).values) :
    g ≠ [] ∧ ∃ k, g = l.filter (key · = k) := by
  obtain ⟨⟨k, g'⟩, h1, rfl⟩ := List.mem_map.mp h
  have h2 := get?_eq_some.mpr h1
  obtain ⟨h3, h4⟩ := get?_groupBy key l k
  refine ⟨h4 _ h2, k, ?_⟩
  rw [← h3, h2]
  rfl

/-- The groups hold what the list holds. -/
theorem exists_mem_groupBy {key : A → K} {l : List A} {a : A} :
    (∃ g ∈ (groupBy key l).values, a ∈ g) ↔ a ∈ l := by
  constructor
  · rintro ⟨g, hg, ha⟩
    obtain ⟨-, k, rfl⟩ := mem_groupBy hg
    exact List.mem_of_mem_filter ha
  · intro ha
    have h1 := (get?_groupBy key l (key a)).1
    have h2 : a ∈ l.filter (key · = key a) := List.mem_filter.mpr ⟨ha, decide_eq_true rfl⟩
    rw [← h1] at h2
    cases h3 : (groupBy key l).get? (key a) with
    | none =>
      rw [h3] at h2
      cases h2
    | some g =>
      rw [h3] at h2
      exact ⟨g, List.mem_map_of_mem (get?_eq_some.mp h3), h2⟩

end OrderedMap

end LynxTrace
