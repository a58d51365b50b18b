import LynxTrace.ProtoVm.Place
import LynxTrace.ProtoVm.MergeLaw

/-!
# ProtoVm.Elements — the elements of a field, whatever its node looks like

A field of a message is a single node, an indexed repeated field or a mapped one; `elementsOf` is the list of values
these stand for.
-/

namespace LynxTrace.ProtoVm

open LynxTrace.Protozero IntrusiveTree

/-- The values of the entries, in the order of their keys. -/
def nodeValues (m : NodeMap) : List NodeValue := m.map fun e => e.2.value

/-- The elements a field's node stands for. -/
def elementsOf : Option NodeValue → List NodeValue
  | none => []
  | some .empty => []
  | some (.indexedRepeatedField m _) => nodeValues m
  | some (.mappedRepeatedField m) => nodeValues m
  | some (.bytes data) => [.bytes data]
  | some (.message m) => [.message m]
  | some (.scalar s) => [.scalar s]

/-- The elements of a field of a message. -/
def elements (fieldId : ℕ) : NodeValue → List NodeValue
  | .bytes data => (occurrencesIn fieldId (readFields data)).map fieldValue
  | .message m => elementsOf (slot m fieldId)
  | _ => []

theorem elementsOf_fieldValue (f : Field) : elementsOf (some (fieldValue f)) = [fieldValue f] := by
  unfold fieldValue
  split_ifs <;> rfl

theorem nodeValues_insert {m : NodeMap} {key : ℕ} (h : find m key = none) (n : Node) :
    (nodeValues (insert m key n)).Perm (n.value :: nodeValues m) := (insert_perm h n).map _

/-- What a field's node serializes to are its elements. -/
theorem serializeSlot_elementsOf (id : ℕ) (o : Option NodeValue) :
    serializeSlot id o = (elementsOf o).flatMap (serializeField id) := by
  have hmap : ∀ m : NodeMap, serializeElements id m = (nodeValues m).flatMap (serializeField id) := fun m => by
    rw [serializeElements_eq, nodeValues, List.flatMap_map]
  cases o with
  | none => rfl
  | some v =>
    cases v with
    | empty => rfl
    | indexedRepeatedField m b => exact hmap m
    | mappedRepeatedField m => exact hmap m
    | bytes data | message m | scalar s => exact (List.append_nil _).symm

/-! ### Operations that succeed -/

variable {al : Allocator}

theorem mapInsert_ok {m : NodeMap} {key : ℕ} {n : Node} (h : (mapInsert m key n al).status = .kOk) :
    find m key = none ∧ (mapInsert m key n al).map = insert m key n := by
  unfold mapInsert at h ⊢
  cases hal : al.createNode with
  | none =>
    rw [hal] at h
    exact absurd h (by simp)
  | some p =>
    rw [hal] at h
    dsimp only at h ⊢
    cases hfind : find m key with
    | none => exact ⟨rfl, rfl⟩
    | some a =>
      rw [hfind] at h
      exact absurd h (by simp)

variable {v : NodeValue}

theorem moveIntoMap_ok {key : ℕ} {wrap : NodeMap → NodeValue} (h : (moveIntoMap key v al wrap).status = .kOk) :
    ∃ id, (moveIntoMap key v al wrap).value = wrap [(key, ⟨id, v⟩)] := by
  unfold moveIntoMap at h ⊢
  cases hal : al.createNode with
  | none =>
    rw [hal] at h
    exact absurd h (by simp)
  | some p =>
    rw [hal] at h
    obtain ⟨-, hmap⟩ := mapInsert_ok h
    exact ⟨p.1, congrArg wrap hmap⟩

theorem createNodeFromField_value {f : Field} {al' : Allocator} {nd : Node}
    (h : createNodeFromField f al = (some nd, al')) : nd.value = fieldValue f := by
  unfold createNodeFromField at h
  unfold fieldValue
  split_ifs at h ⊢ with htype
  · split at h
    · simp at h
    · split at h
      · simp at h
      · obtain ⟨h1, -⟩ := Prod.mk.inj h
        rw [← Option.some.inj h1]
  · split at h
    · simp at h
    · obtain ⟨h1, -⟩ := Prod.mk.inj h
      rw [← Option.some.inj h1]

/-- A node that becomes an indexed repeated field keeps its elements, under the keys from 0 on. -/
theorem convertToIndexed_elements (h : (convertToIndexedRepeatedFieldIfNeeded v al).status = .kOk) :
    ∃ m b, (convertToIndexedRepeatedFieldIfNeeded v al).value = .indexedRepeatedField m b ∧
      nodeValues m = elementsOf (some v) ∧
      (v = .indexedRepeatedField m b ∨ b = false ∧ m.map Prod.fst = List.range m.length) := by
  have hmove : ∀ v, (moveIntoMap 0 v al fun m => .indexedRepeatedField m false).status = .kOk →
      ∃ m b, (moveIntoMap 0 v al fun m => .indexedRepeatedField m false).value = .indexedRepeatedField m b ∧
        nodeValues m = [v] ∧
        (v = .indexedRepeatedField m b ∨ b = false ∧ m.map Prod.fst = List.range m.length) := by
    intro v h
    obtain ⟨id, hvalue⟩ := moveIntoMap_ok h
    exact ⟨_, false, hvalue, rfl, .inr ⟨rfl, rfl⟩⟩
  cases v with
  | bytes data => exact hmove _ h
  | message m => exact hmove _ h
  | scalar s => exact hmove _ h
  | empty => exact ⟨[], false, rfl, rfl, .inr ⟨rfl, rfl⟩⟩
  | indexedRepeatedField m b => exact ⟨m, b, rfl, rfl, .inl rfl⟩
  | mappedRepeatedField m => exact absurd h (by simp [convertToIndexedRepeatedFieldIfNeeded])

/-! ### Decomposing a blob -/

/-- What is under an id whose occurrences are these fields. -/
def Occupies (fs : List Field) (o : Option NodeValue) : Prop :=
  match fs with
  | [] => o = none
  | [f] => o = some (fieldValue f)
  | _ :: _ :: _ => ∃ m, o = some (.indexedRepeatedField m false) ∧ nodeValues m = fs.map fieldValue ∧
      m.map Prod.fst = List.range m.length

variable {fs : List Field}

theorem Occupies.elementsOf_eq {o : Option NodeValue} (h : Occupies fs o) : elementsOf o = fs.map fieldValue := by
  match fs, h with
  | [], h =>
    obtain rfl : o = none := h
    rfl
  | [f], h =>
    obtain rfl : o = some (fieldValue f) := h
    exact elementsOf_fieldValue f
  | f :: g :: fs, h =>
    obtain ⟨m, rfl, hvalues, -⟩ := h
    exact hvalues

theorem Occupies.eq_nil (h : Occupies fs none) : fs = [] := by
  match fs, h with
  | [], _ => rfl
  | [f], h => exact absurd h (by simp [Occupies])
  | f :: g :: fs, h =>
    obtain ⟨m, hm, -⟩ := h
    exact absurd hm (by simp)

theorem occupies_concat (hne : fs ≠ []) (f : Field) (o : Option NodeValue) :
    Occupies (fs ++ [f]) o ↔ ∃ m, o = some (.indexedRepeatedField m false) ∧
      nodeValues m = (fs ++ [f]).map fieldValue ∧ m.map Prod.fst = List.range m.length := by
  match fs with
  | [g] => exact Iff.rfl
  | g :: g' :: fs => exact Iff.rfl

theorem lt_length_of_range {m : NodeMap} (h : m.map Prod.fst = List.range m.length) : ∀ e ∈ m, e.1 < m.length := by
  intro e he
  have hmem : e.1 ∈ List.range m.length := h ▸ List.mem_map_of_mem he
  exact List.mem_range.mp hmem

/-- A further occurrence is appended. -/
theorem appendOccurrence_occupies {f : Field} {nd : Node} (hv : Occupies fs (some v)) (hn : nd.value = fieldValue f)
    (h : (appendOccurrence v nd al).status = .kOk) : Occupies (fs ++ [f]) (some (appendOccurrence v nd al).value) := by
  have hne : fs ≠ [] := by
    rintro rfl
    exact absurd hv (by simp [Occupies])
  unfold appendOccurrence at h ⊢
  dsimp only at h ⊢
  split_ifs at h ⊢ with hok
  · obtain ⟨m, b, hvalue, helements, hkeys⟩ := convertToIndexed_elements hok
    have hrange : b = false ∧ m.map Prod.fst = List.range m.length := by
      rcases hkeys with rfl | hkeys
      · match fs, hv with
        | [g], hv => exact absurd (Option.some.inj hv).symm (fieldValue_ne_indexed g m b)
        | g :: g' :: fs, hv =>
          obtain ⟨m', hm', -, hrange⟩ := hv
          obtain ⟨rfl, rfl⟩ := NodeValue.indexedRepeatedField.inj (Option.some.inj hm')
          exact ⟨rfl, hrange⟩
      · exact hkeys
    obtain ⟨rfl, hrange⟩ := hrange
    rw [hvalue] at h ⊢
    obtain ⟨-, hmap⟩ := mapInsert_ok h
    rw [occupies_concat hne]
    refine ⟨_, rfl, ?_, ?_⟩
    · rw [hmap, insert_last (lt_length_of_range hrange), nodeValues, List.map_append, ← nodeValues, helements,
        hv.elementsOf_eq, List.map_append]
      simp [hn]
    · rw [hmap, insert_last (lt_length_of_range hrange), List.map_append, hrange, List.length_append,
        List.length_singleton, List.range_succ]
      rfl
  · exact absurd h hok

theorem addOccurrence_occupies {done : List Field} {message : NodeMap} {f : Field} {nd : Node}
    (hd : ∀ id, Occupies (occurrencesIn id done) (slot message id)) (hn : nd.value = fieldValue f)
    (h : (addOccurrence message f.id nd al).status = .kOk) (id : ℕ) :
    Occupies (occurrencesIn id (done ++ [f])) (slot (addOccurrence message f.id nd al).map id) := by
  rw [occurrencesIn_append, occurrencesIn_singleton]
  have hslot := hd f.id
  unfold addOccurrence at h ⊢
  cases hfind : find message f.id with
  | none =>
    rw [hfind] at h
    obtain ⟨-, hmap⟩ := mapInsert_ok h
    dsimp only
    rw [hmap]
    by_cases hid : f.id = id
    · subst hid
      rw [slot, hfind] at hslot
      rw [if_pos rfl, slot_insert_self hfind, hslot.eq_nil, hn]
      rfl
    · rw [if_neg hid, slot_insert_ne hid, List.append_nil]
      exact hd id
  | some it =>
    rw [hfind] at h
    dsimp only at h ⊢
    by_cases hid : f.id = id
    · subst hid
      rw [slot, hfind] at hslot
      rw [if_pos rfl, slot_set_self hfind]
      exact appendOccurrence_occupies hslot hn h
    · rw [if_neg hid, slot_set_ne hid, List.append_nil]
      exact hd id

/-- What decomposing puts under every id are the occurrences of the id. -/
theorem decompose_occupies {fields done : List Field} {message : NodeMap}
    (hd : ∀ id, Occupies (occurrencesIn id done) (slot message id)) (h : (decompose fields message al).status = .kOk)
    (id : ℕ) : Occupies (occurrencesIn id (done ++ fields)) (slot (decompose fields message al).map id) := by
  induction fields generalizing done message al with
  | nil =>
    rw [List.append_nil]
    exact hd id
  | cons f fields ih =>
    rw [decompose] at h ⊢
    rcases hnode : createNodeFromField f al with ⟨_ | nd, al'⟩
    · rw [hnode] at h
      exact absurd h (by simp)
    · rw [hnode] at h
      dsimp only at h ⊢
      split_ifs at h ⊢ with hok
      · have hadd := addOccurrence_occupies hd (createNodeFromField_value hnode) hok
        have hrest := ih hadd h
        rwa [List.append_assoc] at hrest
      · exact absurd h hok

/-- A blob that becomes a message keeps the elements of its fields. -/
theorem convertToMessage_elements (h : (convertToMessageIfNeeded v al).status = .kOk) :
    ∃ m, (convertToMessageIfNeeded v al).value = .message m ∧ (∀ id, elementsOf (slot m id) = elements id v) ∧
      (v = .message m ∨ v = .empty ∧ m = [] ∨
        ∃ data, v = .bytes data ∧ ∀ id, Occupies (occurrencesIn id (readFields data)) (slot m id)) := by
  cases v with
  | message m => exact ⟨m, rfl, fun _ => rfl, .inl rfl⟩
  | empty => exact ⟨[], rfl, fun _ => rfl, .inr (.inl ⟨rfl, rfl⟩)⟩
  | bytes data =>
    unfold convertToMessageIfNeeded at h ⊢
    dsimp only at h ⊢
    split_ifs at h ⊢ with hok
    · have hnil : ∀ id, Occupies (occurrencesIn id []) (slot [] id) := fun _ => rfl
      have hocc := decompose_occupies hnil hok
      rw [List.nil_append] at hocc
      exact ⟨_, rfl, fun id => (hocc id).elementsOf_eq, .inr (.inr ⟨data, rfl, hocc⟩)⟩
    · exact absurd h hok
  | indexedRepeatedField m b | mappedRepeatedField m | scalar s => exact absurd h (by simp [convertToMessageIfNeeded])

/-! ### Keys -/

/-- The scalar in the key field of an element, which occurs once. -/
def keyOf (mapKeyFieldId : ℕ) : NodeValue → Option ℕ
  | .bytes data =>
    match occurrencesIn mapKeyFieldId (readFields data) with
    | [f] => if f.type = .kLengthDelimited then none else some f.intValue
    | _ => none
  | .message m =>
    match slot m mapKeyFieldId with
    | some (.scalar s) => some s.value
    | _ => none
  | _ => none

/-- Elements with pairwise distinct keys. -/
structure Keyed (mapKeyFieldId : ℕ) (es : List NodeValue) : Prop where
  all : ∀ e ∈ es, ∃ key, keyOf mapKeyFieldId e = some key
  nodup : (es.map (keyOf mapKeyFieldId)).Nodup

variable {mapKeyFieldId : ℕ}

/-- The key of an element is what the code reads. -/
theorem readScalarField_of_keyOf {key : ℕ} (h : keyOf mapKeyFieldId v = some key) :
    readScalarField v mapKeyFieldId = some key := by
  cases v with
  | bytes data =>
    unfold keyOf at h
    dsimp only at h
    split at h
    · rename_i f hocc
      have hfind : (readFields data).find? (fun f => decide (f.id = mapKeyFieldId)) = some f := by
        rw [← List.head?_filter]
        exact congrArg List.head? hocc
      unfold readScalarField
      dsimp only
      rw [hfind]
      exact h
    · exact absurd h (by simp)
  | message m =>
    unfold keyOf slot at h
    unfold readScalarField
    dsimp only at h ⊢
    cases hfind : find m mapKeyFieldId with
    | none =>
      rw [hfind] at h
      exact absurd h (by simp)
    | some n =>
      obtain ⟨id, v⟩ := n
      rw [hfind] at h
      cases v with
      | scalar s => exact h
      | _ => exact absurd h (by simp)
  | _ => exact absurd h (by simp [keyOf])

theorem Keyed.eq_of_keyOf {es : List NodeValue} (h : Keyed mapKeyFieldId es) {v' : NodeValue} (hv : v ∈ es)
    (hv' : v' ∈ es) (heq : keyOf mapKeyFieldId v = keyOf mapKeyFieldId v') :
    v = v' := List.inj_on_of_nodup_map h.nodup hv hv' heq

/-- Re-keying elements with distinct keys loses none of them. -/
theorem rekey_keyed (b : Bool) {entries acc : NodeMap} (h : Keyed mapKeyFieldId (nodeValues entries))
    (hacc : ∀ e ∈ nodeValues entries, ∀ key, keyOf mapKeyFieldId e = some key → find acc key = none) :
    ∃ m, rekey mapKeyFieldId b entries acc = (.kOk, .mappedRepeatedField m) ∧
      (nodeValues m).Perm (nodeValues acc ++ nodeValues entries) ∧
      ∀ e ∈ m, e ∈ acc ∨ keyOf mapKeyFieldId e.2.value = some e.1 := by
  induction entries generalizing acc with
  | nil => exact ⟨acc, rfl, by rw [nodeValues, nodeValues, List.map_nil, List.append_nil], fun e he => .inl he⟩
  | cons e entries ih =>
    obtain ⟨i, n⟩ := e
    have hvalues : nodeValues ((i, n) :: entries) = n.value :: nodeValues entries := rfl
    rw [hvalues] at h hacc
    obtain ⟨key, hkey⟩ := h.all n.value (List.mem_cons_self ..)
    obtain ⟨hhead, htail⟩ := List.nodup_cons.mp (show (keyOf mapKeyFieldId n.value ::
      (nodeValues entries).map (keyOf mapKeyFieldId)).Nodup from h.nodup)
    have hfree := hacc n.value (List.mem_cons_self ..) key hkey
    have hrest : Keyed mapKeyFieldId (nodeValues entries) := ⟨fun e he => h.all e (List.mem_cons_of_mem _ he), htail⟩
    have hfree' : ∀ e ∈ nodeValues entries, ∀ key', keyOf mapKeyFieldId e = some key' →
        find (insert acc key n) key' = none := by
      intro e he key' hkey'
      have hne : key ≠ key' := by
        rintro rfl
        exact hhead (List.mem_map.mpr ⟨e, he, hkey'.trans hkey.symm⟩)
      rw [find_insert_ne hne]
      exact hacc e (List.mem_cons_of_mem _ he) key' hkey'
    obtain ⟨m, hm, hperm, hkeys⟩ := ih hrest hfree'
    refine ⟨m, ?_, ?_, fun e he => ?_⟩
    · rw [rekey, readScalarField_of_keyOf hkey]
      exact hm
    · refine hperm.trans (((nodeValues_insert hfree n).append_right _).trans ?_)
      rw [hvalues]
      exact List.perm_middle.symm
    · rcases hkeys e he with hmem | hkey'
      · rcases mem_insert hmem with rfl | hmem
        · exact .inr hkey
        · exact .inl hmem
      · exact .inr hkey'

/-- A node that becomes a mapped repeated field keeps its elements, each under its key. -/
theorem convertToMapped_elements (hkeyed : Keyed mapKeyFieldId (elementsOf (some v)))
    (h : (convertToMappedRepeatedFieldIfNeeded v mapKeyFieldId al).status = .kOk) :
    ∃ m, (convertToMappedRepeatedFieldIfNeeded v mapKeyFieldId al).value = .mappedRepeatedField m ∧
      (nodeValues m).Perm (elementsOf (some v)) ∧
      (v = .mappedRepeatedField m ∨
        (∀ m', v ≠ .mappedRepeatedField m') ∧ ∀ e ∈ m, keyOf mapKeyFieldId e.2.value = some e.1) := by
  have hmove : ∀ {v : NodeValue} {key : ℕ}, keyOf mapKeyFieldId v = some key →
      (moveIntoMap key v al .mappedRepeatedField).status = .kOk →
        ∃ m, (moveIntoMap key v al .mappedRepeatedField).value = .mappedRepeatedField m ∧ (nodeValues m).Perm [v] ∧
          ∀ e ∈ m, keyOf mapKeyFieldId e.2.value = some e.1 := by
    intro v key hkey hok
    obtain ⟨id, hvalue⟩ := moveIntoMap_ok hok
    refine ⟨_, hvalue, List.Perm.refl _, fun e he => ?_⟩
    rw [List.mem_singleton.mp he]
    exact hkey
  unfold convertToMappedRepeatedFieldIfNeeded at h ⊢
  cases v with
  | bytes data | message m =>
    obtain ⟨key, hkey⟩ := hkeyed.all _ (List.mem_singleton_self _)
    dsimp only at h ⊢
    rw [readScalarField_of_keyOf hkey] at h ⊢
    obtain ⟨m, hvalue, hperm, hkeys⟩ := hmove hkey h
    exact ⟨m, hvalue, hperm, .inr ⟨by simp, hkeys⟩⟩
  | empty => exact ⟨[], rfl, List.Perm.refl _, .inr ⟨by simp, by simp⟩⟩
  | mappedRepeatedField m => exact ⟨m, rfl, List.Perm.refl _, .inl rfl⟩
  | scalar s => exact absurd h (by simp)
  | indexedRepeatedField entries b =>
    obtain ⟨m, hm, hperm, hkeys⟩ := rekey_keyed b hkeyed fun _ _ _ _ => find_nil _
    dsimp only
    rw [hm]
    exact ⟨m, rfl, hperm, .inr ⟨by simp, fun e he => (hkeys e he).resolve_left (by simp)⟩⟩

end LynxTrace.ProtoVm
