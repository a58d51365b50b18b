import LynxTrace.ProtoVm.Elements
import LynxTrace.ProtoVm.Parser

/-!
# ProtoVm.KeyedSelection — selecting an element of a repeated field by its key

* `filed` — the element a key selects in the representation the field has: under the key of a mapped field, else the
  one with that key.
* `enterByKey_spec` — what `EnterRepeatedFieldByKey` does to the message and which node it enters.
* `keyedSelection_iff` — exactly when a selection by the value of a register selects the element with that key.
-/

namespace LynxTrace.ProtoVm

open LynxTrace.Protozero IntrusiveTree

variable {l : Ledger} {mapKeyFieldId fieldId : ℕ}

/-! ### What a key selects -/

/-- The element a key selects in a field's node. -/
def filedIn (mapKeyFieldId key : ℕ) : Option NodeValue → Option NodeValue
  | some (.mappedRepeatedField m) => slot m key
  | o => (elementsOf o).find? fun e => keyOf mapKeyFieldId e = some key

/-- The element a key selects in a field of a message. -/
def filed (mapKeyFieldId fieldId key : ℕ) : NodeValue → Option NodeValue
  | .message m => filedIn mapKeyFieldId key (slot m fieldId)
  | v => (elements fieldId v).find? fun e => keyOf mapKeyFieldId e = some key

/-- Whether a message has a field. -/
def hasFieldIn (fieldId : ℕ) : NodeValue → Bool
  | .message m => (slot m fieldId).isSome
  | v => elements fieldId v ≠ []

/-- A node that is a message, or becomes one when it is entered. -/
def MessageNode : NodeValue → Prop
  | .empty => True
  | .bytes _ => True
  | .message m => MessageOk m
  | _ => False

theorem filedIn_of_elements {o : Option NodeValue} (ho : ∀ m, o ≠ some (.mappedRepeatedField m)) (key : ℕ) :
    filedIn mapKeyFieldId key o = (elementsOf o).find? fun e => keyOf mapKeyFieldId e = some key := by
  unfold filedIn
  split
  · rename_i m
    exact absurd rfl (ho m)
  · rfl

variable {m : NodeMap}

/-- In a mapped field whose elements are under their keys, a key selects the element with that key. -/
theorem slot_of_keys {es : List NodeValue} (hkeyed : Keyed mapKeyFieldId es) (hperm : (nodeValues m).Perm es)
    (hkeys : ∀ e ∈ m, keyOf mapKeyFieldId e.2.value = some e.1) (key : ℕ) :
    slot m key = es.find? fun e => keyOf mapKeyFieldId e = some key := by
  unfold slot
  cases hfind : find m key with
  | none =>
    refine (List.find?_eq_none.mpr fun v hv hkey => ?_).symm
    obtain ⟨e, he, rfl⟩ := List.mem_map.mp (hperm.mem_iff.mpr hv)
    have heq : e.1 = key := Option.some.inj ((hkeys e he).symm.trans (of_decide_eq_true hkey))
    exact find_eq_none_iff.mp hfind e he heq
  | some n =>
    have hmem := find_mem hfind
    have hin : n.value ∈ es := hperm.mem_iff.mp (List.mem_map_of_mem (f := fun e : ℕ × Node => e.2.value) hmem)
    have hkey : keyOf mapKeyFieldId n.value = some key := hkeys _ hmem
    obtain ⟨v, hv⟩ : ∃ v, es.find? (fun e => keyOf mapKeyFieldId e = some key) = some v := by
      refine Option.isSome_iff_exists.mp (List.find?_isSome.mpr ⟨_, hin, ?_⟩)
      exact decide_eq_true hkey
    have hvkey : keyOf mapKeyFieldId v = some key := by simpa using List.find?_some hv
    rw [hv, Option.map_some, hkeyed.eq_of_keyOf (List.mem_of_find?_eq_some hv) hin (hvkey.trans hkey.symm)]

/-! ### Enough memory -/

variable {al : Allocator} {key n : ℕ}

theorem Fits.insertEmpty (h : Fits al (2 * sizeofNode + n)) (hf : find m key = none) :
    ∃ id al', insertEmpty m key al = ⟨.kOk, insert m key ⟨id, .empty⟩, al'⟩ ∧ Fits al' n := by
  obtain ⟨id, al₁, h₁, hfit₁⟩ := (h.mono (by omega) : Fits al (sizeofNode + (sizeofNode + n))).createNode
  obtain ⟨al₂, h₂, hfit₂⟩ := hfit₁.mapInsert ⟨id, .empty⟩ hf
  exact ⟨id, al₂, by simp only [ProtoVm.insertEmpty, h₁, h₂], hfit₂⟩

variable {v : NodeValue}

theorem Fits.moveIntoMap {wrap : NodeMap → NodeValue} (h : Fits al (2 * sizeofNode + n)) :
    (moveIntoMap key v al wrap).status = .kOk ∧ Fits (moveIntoMap key v al wrap).alloc n := by
  obtain ⟨id, al₁, h₁, hfit₁⟩ := (h.mono (by omega) : Fits al (sizeofNode + (sizeofNode + n))).createNode
  obtain ⟨al₂, h₂, hfit₂⟩ := hfit₁.mapInsert ⟨id, v⟩ (find_nil key)
  simp only [ProtoVm.moveIntoMap, h₁, h₂]
  exact ⟨trivial, hfit₂⟩

theorem Fits.convertToMapped (h : Fits al (2 * sizeofNode + n)) (hkeyed : Keyed mapKeyFieldId (elementsOf (some v))) :
    (convertToMappedRepeatedFieldIfNeeded v mapKeyFieldId al).status = .kOk ∧
      Fits (convertToMappedRepeatedFieldIfNeeded v mapKeyFieldId al).alloc n := by
  have hsame : Fits al n := h.mono (Nat.le_add_left _ _)
  unfold convertToMappedRepeatedFieldIfNeeded
  cases v with
  | bytes data | message m =>
    obtain ⟨key, hkey⟩ := hkeyed.all _ (List.mem_singleton_self _)
    dsimp only
    rw [readScalarField_of_keyOf hkey]
    exact h.moveIntoMap
  | empty => exact ⟨rfl, hsame⟩
  | mappedRepeatedField m => exact ⟨rfl, hsame⟩
  | scalar s =>
    obtain ⟨key, hkey⟩ := hkeyed.all _ (List.mem_singleton_self _)
    exact absurd hkey (by simp [keyOf])
  | indexedRepeatedField entries b =>
    obtain ⟨m, hm, -⟩ := rekey_keyed b hkeyed fun _ _ _ _ => find_nil _
    dsimp only
    rw [hm]
    exact ⟨rfl, hsame⟩

/-! ### Entering by key -/

/-- What `EnterRepeatedFieldByKey` does to the node of the cursor. -/
def enterByKey (fieldId mapKeyFieldId key : ℕ) (v : NodeValue) (al : Allocator) : NodeResult :=
  ((findOrCreateMessageField v fieldId al).andThen
    (onField fieldId fun v al => convertToMappedRepeatedFieldIfNeeded v mapKeyFieldId al)).andThen
    (onField fieldId fun v al => findOrCreateMappedRepeatedField v key al)

/-- The field is there after `FindOrCreateMessageField`, and has the elements it had. -/
theorem Fits.findOrCreateMessageField (hm : MessageOk m) (hfield : fieldId < 2 ^ 32) (h : Fits al (2 * sizeofNode + n))
    :
    ∃ m' al' child, findOrCreateMessageField (.message m) fieldId al = ⟨.kOk, .message m', al'⟩ ∧ Fits al' n ∧
      MessageOk m' ∧ find m' fieldId = some child ∧ elementsOf (some child.value) = elementsOf (slot m fieldId) ∧
      (∀ mapKeyFieldId key,
        filedIn mapKeyFieldId key (some child.value) = filedIn mapKeyFieldId key (slot m fieldId)) ∧
      ∀ id, id ≠ fieldId → slot m' id = slot m id := by
  unfold ProtoVm.findOrCreateMessageField convertToMessageIfNeeded
  dsimp only
  rw [if_pos rfl]
  cases hfind : find m fieldId with
  | some child =>
    have hslot : slot m fieldId = some child.value := by rw [slot, hfind, Option.map_some]
    refine ⟨m, al, child, rfl, h.mono (Nat.le_add_left _ _), hm, hfind, ?_, ?_, fun _ _ => rfl⟩ <;> rw [hslot]
    intro _ key
    rfl
  | none =>
    have hslot : slot m fieldId = none := by rw [slot, hfind, Option.map_none]
    obtain ⟨id, al', hinsert, hfit⟩ := h.insertEmpty hfind
    dsimp only
    rw [hinsert]
    refine ⟨_, al', ⟨id, .empty⟩, rfl, hfit, hm.insert hfield _, find_insert_self hfind _, ?_, ?_, ?_⟩
    · rw [hslot]
      rfl
    · intro _ key
      rw [hslot]
      rfl
    · exact fun id' hne => slot_insert_ne hne.symm _ _

/-- The element selected by the key is entered, or a new one under the key; the others stay. -/
theorem enterByKey_spec (key : ℕ) (hm : MessageOk m) (hfield : fieldId < 2 ^ 32)
    (hkeyed : Keyed mapKeyFieldId (elementsOf (slot m fieldId))) (h : Fits al (6 * sizeofNode + n)) :
    ∃ m' es nd al', enterByKey fieldId mapKeyFieldId key (.message m) al = ⟨.kOk, .message m', al'⟩ ∧ MessageOk m' ∧
      slot m' fieldId = some (.mappedRepeatedField es) ∧ find es key = some nd ∧
      (∀ id, id ≠ fieldId → slot m' id = slot m id) ∧
      match filedIn mapKeyFieldId key (slot m fieldId) with
      | some e => nd.value = e ∧ (nodeValues es).Perm (elementsOf (slot m fieldId))
      | none => nd.value = .empty ∧ (nodeValues es).Perm (.empty :: elementsOf (slot m fieldId)) := by
  obtain ⟨m₁, al₁, child, hfound, hfit₁, hm₁, hchild, helements, hfiled, hother⟩ :=
    Fits.findOrCreateMessageField hm hfield (h.mono (by omega) : Fits al (2 * sizeofNode + (4 * sizeofNode + n)))
  rw [← helements] at hkeyed ⊢
  obtain ⟨hok, hfit₂⟩ :=
    (hfit₁.mono (by omega) : Fits al₁ (2 * sizeofNode + (2 * sizeofNode + n))).convertToMapped hkeyed
  obtain ⟨mm, hvalue, hperm, hcase⟩ := convertToMapped_elements hkeyed hok
  have hslot : filedIn mapKeyFieldId key (slot m fieldId) = slot mm key := by
    rw [← hfiled]
    rcases hcase with hmapped | ⟨hnot, hkeys⟩
    · rw [hmapped]
      rfl
    · rw [filedIn_of_elements fun m' h => hnot m' (Option.some.inj h)]
      exact (slot_of_keys hkeyed hperm hkeys key).symm
  set r := convertToMappedRepeatedFieldIfNeeded child.value mapKeyFieldId al₁ with hr
  set m₂ := set m₁ fieldId ⟨child.id, .mappedRepeatedField mm⟩ with hm₂
  have hchild₂ : find m₂ fieldId = some ⟨child.id, .mappedRepeatedField mm⟩ := find_set_self hchild _
  have hsecond : onField fieldId (fun v al => convertToMappedRepeatedFieldIfNeeded v mapKeyFieldId al) (.message m₁) al₁ =
      ⟨.kOk, .message m₂, r.alloc⟩ := by
    unfold onField
    simp only [NodeValue.entries, hchild, ← hr, hok, hvalue, NodeValue.setEntries, ← hm₂]
  have hresult : enterByKey fieldId mapKeyFieldId key (.message m) al =
      onField fieldId (fun v al => findOrCreateMappedRepeatedField v key al) (.message m₂) r.alloc := by
    unfold enterByKey NodeResult.andThen
    simp only [hfound, if_true, hsecond]
  have hset : ∀ w : Node, MessageOk (set m₂ fieldId w) ∧ slot (set m₂ fieldId w) fieldId = some w.value ∧
      ∀ id, id ≠ fieldId → slot (set m₂ fieldId w) id = slot m id := by
    intro w
    refine ⟨(hm₁.of_keys (keys_set _ _ _)).of_keys (keys_set _ _ _), slot_set_self hchild₂ w, fun id hne => ?_⟩
    rw [slot_set_ne hne.symm, hm₂, slot_set_ne hne.symm, hother id hne]
  rw [hslot, hresult]
  unfold onField ProtoVm.findOrCreateMappedRepeatedField slot
  simp only [NodeValue.entries, hchild₂]
  cases hfind : find mm key with
  | some nd =>
    obtain ⟨hok', hslot', hother'⟩ := hset ⟨child.id, .mappedRepeatedField mm⟩
    exact ⟨_, mm, nd, _, rfl, hok', hslot', hfind, hother', rfl, hperm⟩
  | none =>
    obtain ⟨id, al', hinsert, -⟩ := hfit₂.insertEmpty hfind
    obtain ⟨hok', hslot', hother'⟩ := hset ⟨child.id, .mappedRepeatedField (insert mm key ⟨id, .empty⟩)⟩
    simp only [hinsert]
    exact ⟨_, _, _, _, rfl, hok', hslot', find_insert_self hfind _, hother', rfl,
      (nodeValues_insert hfind _).trans (hperm.cons _)⟩

/-! ### The state -/

/-- The value of the node a cursor is at. -/
def RwState.valueAt (st : RwState) (c : RwProtoCursor) : Option NodeValue := (c.node.bind st.root.deref).map Node.value

theorem find_of_slot {id : ℕ} (h : slot m id = some v) : ∃ n, find m id = some n ∧ n.value = v :=
  Option.map_eq_some_iff.mp h

/-- `EnterRepeatedFieldByKey` from a message leaves the cursor at the entered element. -/
theorem enterRepeatedFieldByKey_spec {st : RwState} {c : RwProtoCursor} {p : NodePtr} {n : Node} {m' es : NodeMap}
    {nd : Node} {al' : Allocator} (hc : c.node = some p) (hn : st.root.deref p = some n) (hv : n.value = .message m)
    (henter : enterByKey fieldId mapKeyFieldId key (.message m) st.alloc =
      ⟨.kOk, .message m', al'⟩)
    (hes : slot m' fieldId = some (.mappedRepeatedField es)) (hnd : find es key = some nd) :
    (st.enterRepeatedFieldByKey c fieldId mapKeyFieldId key).1 = .kOk ∧
      (st.enterRepeatedFieldByKey c fieldId mapKeyFieldId key).2.2.root = st.root.setValue (.message m') p.path ∧
      (st.enterRepeatedFieldByKey c fieldId mapKeyFieldId key).2.2.valueAt
        (st.enterRepeatedFieldByKey c fieldId mapKeyFieldId key).2.1 = some nd.value := by
  have hnode := RwState.onNode_eq hc hn (enterByKey fieldId mapKeyFieldId key)
  rw [hv, henter] at hnode
  obtain ⟨hget, -⟩ := Node.deref_iff.mp hn
  obtain ⟨child, hchild, hvalue⟩ := find_of_slot hes
  have hget' : (st.root.setValue (.message m') p.path).get (p.path ++ [fieldId]) = some child := by
    rw [Node.get_concat, Node.get_setValue hget, Option.bind_some]
    exact hchild
  have hpath : c.path = p.path := by
    unfold RwProtoCursor.path
    rw [hc]
    rfl
  have hentry : find child.value.entries key = some nd := by
    rw [hvalue]
    exact hnd
  have hresult : st.enterRepeatedFieldByKey c fieldId mapKeyFieldId key =
      RwState.moveTo { st.record (.use c.binding) with root := st.root.setValue (.message m') p.path, alloc := al' } c
        (p.path ++ [fieldId]) key := by
    have hunfold : st.enterRepeatedFieldByKey c fieldId mapKeyFieldId key =
        if (st.onNode c (enterByKey fieldId mapKeyFieldId key)).1 = .kOk then
          (st.onNode c (enterByKey fieldId mapKeyFieldId key)).2.moveTo c (c.path ++ [fieldId]) key
        else ((st.onNode c (enterByKey fieldId mapKeyFieldId key)).1, c,
          (st.onNode c (enterByKey fieldId mapKeyFieldId key)).2) := rfl
    rw [hunfold, hnode, ← hpath]
    rfl
  have hbind : RwState.bindEntry
      { st.record (.use c.binding) with root := st.root.setValue (.message m') p.path, alloc := al' }
      (p.path ++ [fieldId]) key =
        some ⟨some ⟨p.path ++ [fieldId] ++ [key], nd.id⟩, some (⟨p.path ++ [fieldId], child.id⟩, key), st.nextBinding⟩ := by
    unfold RwState.bindEntry
    dsimp only
    rw [hget']
    dsimp only
    rw [hentry]
    rfl
  rw [hresult]
  unfold RwState.moveTo
  rw [hbind]
  refine ⟨rfl, rfl, ?_⟩
  have hderef : (st.root.setValue (.message m') p.path).deref ⟨p.path ++ [fieldId] ++ [key], nd.id⟩ = some nd := by
    refine Node.deref_iff.mpr ⟨?_, rfl⟩
    rw [Node.get_concat, hget', Option.bind_some]
    exact hentry
  unfold RwState.valueAt
  dsimp only
  rw [Option.bind_some, hderef]
  rfl

/-! ### What a message serializes to -/

/-- What a message serializes to under every id are the elements of the field. -/
theorem held_elements (hv : MessageNode v) :
    ∃ out, serialize v = some out ∧ ∀ id, held id out = (elements id v).flatMap (serializeField id) := by
  cases v with
  | empty => exact ⟨[], rfl, fun _ => rfl⟩
  | bytes data =>
    refine ⟨[.raw data], rfl, fun id => ?_⟩
    show (occurrencesIn id (readFields data)).map appendedField ++ [] = _
    rw [List.append_nil, elements, List.flatMap_map, List.map_eq_flatMap]
    refine List.flatMap_congr fun f hf => ?_
    have hf' := readFields_wellTyped (List.mem_filter.mp hf).1
    rw [← serializeField_fieldValue hf', occurrencesIn_id hf]
  | message m => exact ⟨serializeMessage m, rfl, fun id => by rw [held_serializeMessage hv, serializeSlot_elementsOf, elements]⟩
  | _ => exact hv.elim

/-- The fields of a message are unchanged, whatever their order. -/
def SameSerialized (v v' : NodeValue) : Prop :=
  ∃ before after, serialize v = some before ∧ serialize v' = some after ∧ ∀ id, held id after = held id before

theorem sameSerialized_of_elements {v' : NodeValue} (hv : MessageNode v) (hv' : MessageNode v')
    (h : ∀ id, elements id v' = elements id v) : SameSerialized v v' := by
  obtain ⟨before, hbefore, hheld⟩ := held_elements hv
  obtain ⟨after, hafter, hheld'⟩ := held_elements hv'
  exact ⟨before, after, hbefore, hafter, fun id => by rw [hheld, hheld', h]⟩

/-! ### Selecting by key -/

/-- A selection by the value of a register. -/
def keyedSelect (fieldId mapKeyFieldId reg : ℕ) (vm : VmState) : Status × VmState :=
  VmState.parseSelectRec (fun vm => (.kOk, vm))
    [{ fieldId := some fieldId }, { mapKeyFieldId := some mapKeyFieldId, registerToMatch := some reg }] vm

/-- The selection from a message works: it enters the element with the key if there is one; else, if it may create
elements, it enters a new one; else it ends with an error.  The other elements and the other fields stay. -/
structure SelectsByKey (fieldId mapKeyFieldId key : ℕ) (vm : VmState) (p : NodePtr) (v : NodeValue)
    (r : Status × VmState) (v' : NodeValue) : Prop where
  root : r.2.rw.root = vm.rw.root.setValue v' p.path
  others : ∀ id, id ≠ fieldId → elements id v' = elements id v
  found : (∃ e ∈ elements fieldId v, keyOf mapKeyFieldId e = some key) → r.1 = .kOk ∧
    (∃ e, r.2.rw.valueAt r.2.cursors.dst = some e ∧ keyOf mapKeyFieldId e = some key) ∧
    (elements fieldId v').Perm (elements fieldId v)
  created : (¬ ∃ e ∈ elements fieldId v, keyOf mapKeyFieldId e = some key) → vm.cursors.createIfNotExist → r.1 = .kOk ∧
    r.2.rw.valueAt r.2.cursors.dst = some .empty ∧ (elements fieldId v').Perm (.empty :: elements fieldId v)
  error : (¬ ∃ e ∈ elements fieldId v, keyOf mapKeyFieldId e = some key) → ¬ vm.cursors.createIfNotExist →
    r.1 = .kError ∧ elements fieldId v' = elements fieldId v ∧ SameSerialized v v'

/-- What the low 32 bits of a key select is the element with the key, or nothing if there is none; and if it may not be
created, the field is absent. -/
structure KeyReached (fieldId mapKeyFieldId key : ℕ) (create : Bool) (v : NodeValue) : Prop where
  found : (∃ e ∈ elements fieldId v, keyOf mapKeyFieldId e = some key) →
    ∃ e, filed mapKeyFieldId fieldId (key % 2 ^ 32) v = some e ∧ keyOf mapKeyFieldId e = some key
  created : (¬ ∃ e ∈ elements fieldId v, keyOf mapKeyFieldId e = some key) → create →
    filed mapKeyFieldId fieldId (key % 2 ^ 32) v = none
  absent : (¬ ∃ e ∈ elements fieldId v, keyOf mapKeyFieldId e = some key) → ¬ create → ¬ hasFieldIn fieldId v

/-- With enough memory a node becomes a message with the same fields. -/
theorem Fits.messageOf (hv : MessageNode v) (hcost : v.cost ≤ al.usedMemoryBytes) (h : Fits al (dstNeed v + n)) :
    ∃ m al', convertToMessageIfNeeded v al = ⟨.kOk, .message m, al'⟩ ∧ Fits al' n ∧
      MessageOk m ∧ (∀ id, elementsOf (slot m id) = elements id v) ∧
      (∀ fieldId mapKeyFieldId key,
        filedIn mapKeyFieldId key (slot m fieldId) = filed mapKeyFieldId fieldId key v) ∧
      ∀ fieldId, (find m fieldId).isSome = hasFieldIn fieldId v := by
  cases v with
  | empty => exact ⟨[], al, rfl, h.mono (Nat.le_add_left _ _), MessageOk.nil, fun _ => rfl, fun _ _ _ => rfl, fun _ => rfl⟩
  | message m =>
    refine ⟨m, al, rfl, h.mono (Nat.le_add_left _ _), hv, fun _ => rfl, fun _ _ _ => rfl, fun fieldId => ?_⟩
    rw [hasFieldIn, slot, Option.isSome_map]
  | bytes data =>
    have hb : Balanced ⟨al.memoryLimitBytes, False⟩ (al.usedMemoryBytes - (NodeValue.bytes data).cost +
        (NodeValue.bytes data).cost) al := by
      obtain ⟨h1, h2⟩ := h
      exact ⟨by omega, rfl, by omega, by omega, False.elim⟩
    obtain ⟨m, al', hconv, hdst, hfit, -⟩ := Fits.convertToMessage (show MergeDst (.bytes data) from trivial) h hb
    obtain ⟨m', hm', helements, hcase⟩ := convertToMessage_elements (show
      (convertToMessageIfNeeded (.bytes data) al).status = .kOk by rw [hconv])
    rw [hconv] at hm'
    obtain rfl := NodeValue.message.inj hm'
    have hocc : ∀ id, Occupies (occurrencesIn id (readFields data)) (slot m id) := by
      rcases hcase with hcase | ⟨hcase, -⟩ | ⟨data', hdata, hocc⟩
      · exact absurd hcase (by simp)
      · exact absurd hcase (by simp)
      · obtain rfl := NodeValue.bytes.inj hdata
        exact hocc
    refine ⟨m, al', hconv, hfit, Decomposing.ok hdst, helements, fun fieldId mapKeyFieldId key => ?_, fun fieldId => ?_⟩
    · rw [filedIn_of_elements, helements]
      · rfl
      · intro es hes
        exact hdst.not_mapped (show MergeDst (.bytes data) from trivial) fieldId es hes
    · have hiff : (find m fieldId).isSome = (slot m fieldId).isSome := by rw [slot, Option.isSome_map]
      have hocc' := hocc fieldId
      rw [hiff]
      show _ = decide ((occurrencesIn fieldId (readFields data)).map fieldValue ≠ [])
      cases hslot : slot m fieldId with
      | none =>
        rw [hslot] at hocc'
        rw [hocc'.eq_nil]
        rfl
      | some w =>
        have hne : occurrencesIn fieldId (readFields data) ≠ [] := by
          intro hnil
          rw [hnil, hslot] at hocc'
          exact absurd hocc' (by simp [Occupies])
        simp [hne]
  | _ => exact hv.elim

/-- What the code does when the register is set: the field is looked for first. -/
theorem keyedSelect_eq {vm : VmState} {reg : ℕ} (hsel : vm.cursors.selected ≠ .src) (hreg : reg < 2 ^ 8)
    (hkey : vm.readRegister reg = some key) : keyedSelect fieldId mapKeyFieldId reg vm =
      vm.enterIfExists fieldId fun rw => rw.enterRepeatedFieldByKey vm.cursors.dst fieldId mapKeyFieldId (key % 2 ^ 32) := by
  have hstep : keyedSelect fieldId mapKeyFieldId reg vm =
      VmState.andThen (vm.enterRepeatedFieldByKey fieldId mapKeyFieldId (key % 2 ^ 32)) fun vm => (.kOk, vm) := by
    unfold keyedSelect
    rw [VmState.parseSelectRec]
    simp only [Bool.false_eq_true, if_false]
    rw [Nat.mod_eq_of_lt hreg, hkey]
    rfl
  have hsame : ∀ r : Status × VmState, VmState.andThen r (fun vm => (.kOk, vm)) = r := by
    intro r
    unfold VmState.andThen
    split_ifs with hok
    · rw [← hok]
    · rfl
  rw [hstep, hsame, VmState.enterRepeatedFieldByKey, if_neg hsel]

/-- `HasField` from a message. -/
theorem enterIfExists_eq {vm : VmState} {p : NodePtr} {n : Node} (hc : vm.cursors.dst.node = some p)
    (hn : vm.rw.root.deref p = some n) (hconv : convertToMessageIfNeeded n.value vm.rw.alloc = ⟨.kOk, .message m, al⟩)
    (enter : RwState → Status × RwProtoCursor × RwState) :
    ∃ rw : RwState, rw.root = vm.rw.root.setValue (.message m) p.path ∧ rw.alloc = al ∧
      vm.enterIfExists fieldId enter =
        if !(find m fieldId).isSome && !vm.cursors.createIfNotExist then (.kError, vm.setDst vm.cursors.dst rw)
        else (vm.setDst vm.cursors.dst rw).onDst (enter rw) := by
  have hnode := RwState.onNode_eq hc hn convertToMessageIfNeeded
  rw [hconv] at hnode
  have hpath : vm.cursors.dst.path = p.path := by
    unfold RwProtoCursor.path
    rw [hc]
    rfl
  refine ⟨(vm.rw.onNode vm.cursors.dst convertToMessageIfNeeded).2, by rw [hnode], by rw [hnode], ?_⟩
  have hfield : vm.rw.hasField vm.cursors.dst fieldId =
      (.kOk, (find m fieldId).isSome, (vm.rw.onNode vm.cursors.dst convertToMessageIfNeeded).2) := by
    unfold RwState.hasField
    rw [hnode, hpath]
    dsimp only
    rw [Node.get_setValue (Node.deref_iff.mp hn).1]
    rfl
  unfold VmState.enterIfExists
  rw [hfield]
  rfl

/-- With enough memory, selecting from a message by the value of a register works if and only if the low 32 bits of the
value select what the value should. -/
theorem keyedSelection_iff {vm : VmState} {p : NodePtr} {n : Node} {reg key : ℕ} (hsel : vm.cursors.selected ≠ .src)
    (hc : vm.cursors.dst.node = some p) (hn : vm.rw.root.deref p = some n) (hv : MessageNode n.value)
    (hkeyed : Keyed mapKeyFieldId (elements fieldId n.value)) (hfield : fieldId < 2 ^ 32) (hreg : reg < 2 ^ 8)
    (hkey : vm.readRegister reg = some key) (hcost : n.value.cost ≤ vm.rw.alloc.usedMemoryBytes)
    (hfit : Fits vm.rw.alloc (dstNeed n.value + 6 * sizeofNode)) :
    (∃ v', SelectsByKey fieldId mapKeyFieldId key vm p n.value (keyedSelect fieldId mapKeyFieldId reg vm) v') ↔
      KeyReached fieldId mapKeyFieldId key vm.cursors.createIfNotExist n.value := by
  obtain ⟨m, al, hconv, hfit₁, hm, helements, hfiled, hhas⟩ := Fits.messageOf hv hcost hfit
  obtain ⟨rw₁, hroot₁, halloc₁, henterIf⟩ := @enterIfExists_eq fieldId _ _ _ _ _ hc hn hconv
    fun rw => rw.enterRepeatedFieldByKey vm.cursors.dst fieldId mapKeyFieldId (key % 2 ^ 32)
  rw [keyedSelect_eq hsel hreg hkey, henterIf]
  by_cases herror : (!(find m fieldId).isSome && !vm.cursors.createIfNotExist) = true
  · rw [if_pos herror]
    obtain ⟨hnone, hcreate⟩ : (find m fieldId).isSome = false ∧ vm.cursors.createIfNotExist = false := by simpa using herror
    have hempty : elements fieldId n.value = [] := by
      have hfind : find m fieldId = none := Option.not_isSome_iff_eq_none.mp (by rw [hnone]; simp)
      rw [← helements, slot, hfind]
      rfl
    have hnomatch : ¬ ∃ e ∈ elements fieldId n.value, keyOf mapKeyFieldId e = some key := by
      rw [hempty]
      simp
    refine iff_of_true ⟨.message m, hroot₁, fun id _ => helements id, fun h => absurd h hnomatch, fun _ h => ?_, fun _ _ => ?_⟩
      ⟨fun h => absurd h hnomatch, fun _ h => ?_, fun _ _ => ?_⟩
    · exact absurd h (by rw [hcreate]; simp)
    · exact ⟨rfl, helements fieldId, sameSerialized_of_elements hv hm helements⟩
    · exact absurd h (by rw [hcreate]; simp)
    · rw [← hhas, hnone]
      simp
  · rw [if_neg herror]
    rw [← helements] at hkeyed
    have hfit₂ : Fits rw₁.alloc (6 * sizeofNode + 0) := by rwa [halloc₁]
    obtain ⟨m', es, nd, al', henter, hm', hes, hnd, hother, hcase⟩ :=
      enterByKey_spec (key % 2 ^ 32) hm hfield hkeyed hfit₂
    have hn₁ : rw₁.root.deref p = some ⟨n.id, .message m⟩ := by
      rw [hroot₁]
      exact Node.deref_setValue hn _
    obtain ⟨hok, hroot, hvalue⟩ := enterRepeatedFieldByKey_spec hc hn₁ rfl henter hes hnd
    have hroot' : (rw₁.enterRepeatedFieldByKey vm.cursors.dst fieldId mapKeyFieldId (key % 2 ^ 32)).2.2.root =
        vm.rw.root.setValue (.message m') p.path := by
      rw [hroot, hroot₁, Node.setValue_setValue (Node.deref_iff.mp hn).1]
    have helements' : elements fieldId (.message m') = nodeValues es := by
      rw [elements, hes]
      rfl
    have hothers : ∀ id, id ≠ fieldId → elements id (.message m') = elements id n.value := by
      intro id hne
      rw [elements, hother id hne, helements]
    rw [hfiled, helements] at hcase
    rw [helements] at hkeyed
    -- Without an error the field was there, or may be created.
    have hpresent : ¬ vm.cursors.createIfNotExist → hasFieldIn fieldId n.value := by
      intro hcreate
      rw [← hhas]
      by_contra hnone
      exact herror (by simp [hnone, hcreate])
    cases hfile : filed mapKeyFieldId fieldId (key % 2 ^ 32) n.value with
    | some e =>
      rw [hfile] at hcase
      obtain ⟨rfl, hperm⟩ := hcase
      have hmem : nd.value ∈ elements fieldId n.value :=
        hperm.mem_iff.mp (List.mem_map_of_mem (f := fun e : ℕ × Node => e.2.value) (find_mem hnd))
      obtain ⟨key', hkey'⟩ := hkeyed.all _ hmem
      constructor
      · rintro ⟨v', hselects⟩
        refine ⟨fun hmatch => ?_, fun hno hcreate => ?_, fun hno hcreate => ?_⟩
        · obtain ⟨-, ⟨e, he, hekey⟩, -⟩ := hselects.found hmatch
          obtain rfl := Option.some.inj (hvalue.symm.trans he)
          exact ⟨_, hfile, hekey⟩
        · obtain ⟨-, he, -⟩ := hselects.created hno hcreate
          have hempty := Option.some.inj (hvalue.symm.trans he)
          rw [hempty] at hkey'
          exact absurd hkey' (by simp [keyOf])
        · obtain ⟨hstatus, -⟩ := hselects.error hno hcreate
          exact absurd (hok.symm.trans hstatus) (by simp)
      · intro hreached
        refine ⟨.message m', hroot', hothers, fun hmatch => ⟨hok, ?_, ?_⟩, fun hno hcreate => ?_, fun hno hcreate => ?_⟩
        · obtain ⟨e, he, hekey⟩ := hreached.found hmatch
          obtain rfl := Option.some.inj (hfile.symm.trans he)
          exact ⟨_, hvalue, hekey⟩
        · rw [helements']
          exact hperm
        · exact absurd (hfile.symm.trans (hreached.created hno hcreate)) (by simp)
        · exact absurd (hpresent hcreate) (hreached.absent hno hcreate)
    | none =>
      rw [hfile] at hcase
      obtain ⟨hnd', hperm⟩ := hcase
      rw [hnd'] at hvalue
      constructor
      · rintro ⟨v', hselects⟩
        refine ⟨fun hmatch => ?_, fun _ _ => hfile, fun hno hcreate => ?_⟩
        · obtain ⟨-, ⟨e, he, hekey⟩, -⟩ := hselects.found hmatch
          obtain rfl := Option.some.inj (hvalue.symm.trans he)
          exact absurd hekey (by simp [keyOf])
        · obtain ⟨hstatus, -⟩ := hselects.error hno hcreate
          exact absurd (hok.symm.trans hstatus) (by simp)
      · intro hreached
        refine ⟨.message m', hroot', hothers, fun hmatch => ?_, fun _ _ => ⟨hok, hvalue, ?_⟩, fun hno hcreate => ?_⟩
        · obtain ⟨e, he, -⟩ := hreached.found hmatch
          exact absurd (hfile.symm.trans he) (by simp)
        · rw [helements']
          exact hperm
        · exact absurd (hpresent hcreate) (hreached.absent hno hcreate)

/-- A state with one element in field 1, which has the key 5, a cursor at its root and a key in the first register. -/
def oneElement (key : ℕ) : VmState where
  rw := { root := ⟨0, .bytes [0x0A, 2, 8, 5]⟩, alloc := { memoryLimitBytes := 4096, usedMemoryBytes := 4 }, nextBinding := 1 }
  cursors := { src := .bytes [], dst := ⟨some ⟨[], 0⟩, none, 0⟩, selected := .dst, createIfNotExist := false }
  registers := [some key]

theorem elements_oneElement : elements 1 (.bytes [0x0A, 2, 8, 5]) = [.bytes [8, 5]] := rfl

/-- A state as `oneElement`, with two elements, of the keys 6 and 5. -/
def twoElements (key : ℕ) : VmState where
  rw := { root := ⟨0, .bytes [0x0A, 2, 8, 6, 0x0A, 2, 8, 5]⟩, alloc := { memoryLimitBytes := 4096, usedMemoryBytes := 8 }, nextBinding := 1 }
  cursors := (oneElement key).cursors
  registers := [some key]

/-- The key 5 selects the second element. -/
theorem keyedSelection_five :
    (∃ v', SelectsByKey 1 1 5 (twoElements 5) ⟨[], 0⟩ (.bytes [0x0A, 2, 8, 6, 0x0A, 2, 8, 5])
      (keyedSelect 1 1 0 (twoElements 5)) v') ↔ KeyReached 1 1 5 false (.bytes [0x0A, 2, 8, 6, 0x0A, 2, 8, 5]) := by
  have hkeyed : Keyed 1 (elements 1 (.bytes [0x0A, 2, 8, 6, 0x0A, 2, 8, 5])) := by
    have helements : elements 1 (.bytes [0x0A, 2, 8, 6, 0x0A, 2, 8, 5]) = [.bytes [8, 6], .bytes [8, 5]] := rfl
    rw [helements]
    refine ⟨fun e he => ?_, by decide⟩
    rcases List.mem_pair.mp he with rfl | rfl
    exacts [⟨6, rfl⟩, ⟨5, rfl⟩]
  have hcursor : (twoElements 5).cursors.dst.node = some ⟨[], 0⟩ := rfl
  have hnode : (twoElements 5).rw.root.deref ⟨[], 0⟩ = some ⟨0, .bytes [0x0A, 2, 8, 6, 0x0A, 2, 8, 5]⟩ := rfl
  exact keyedSelection_iff (by decide) hcursor hnode trivial hkeyed (by decide) (by decide) rfl (by decide)
    ⟨by decide, by decide⟩

/-- No element has the key 7 and none may be created; the selection creates one. -/
theorem not_selectsByKey : ¬ ∃ v', SelectsByKey 1 1 7 (oneElement 7) ⟨[], 0⟩ (.bytes [0x0A, 2, 8, 5])
    (keyedSelect 1 1 0 (oneElement 7)) v' := by
  rintro ⟨v', h⟩
  have hnomatch : ¬ ∃ e ∈ elements 1 (.bytes [0x0A, 2, 8, 5]), keyOf 1 e = some 7 := by
    rw [elements_oneElement]
    rintro ⟨e, he, hkey⟩
    rw [List.mem_singleton.mp he] at hkey
    exact absurd (show some 5 = some 7 from hkey) (by decide)
  obtain ⟨hstatus, -⟩ := h.error hnomatch (by decide)
  exact absurd (show Status.kOk = Status.kError from hstatus) (by decide)

end LynxTrace.ProtoVm
