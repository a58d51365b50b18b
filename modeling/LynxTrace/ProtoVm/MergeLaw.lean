import LynxTrace.ProtoVm.Accounting
import LynxTrace.ProtoVm.RwProto

/-!
# ProtoVm.MergeLaw — what `Merge` makes of a message

* `Fits al n` — `n` more bytes can be allocated; with enough of them no step of `Merge` runs out of memory.
* `DecomposedTo` — what `ConvertToMessageIfNeeded` puts under a field id, given the occurrences of the id.
* `MergedTo` — what the loop of `Merge` puts under a field id, given what was there and the occurrences.
* `merge_law_iff` — `Merge` writes the occurrences of every id of the source exactly when every id that occurs
  more than once is a repeated field of the destination already, ready to be merged.
-/

namespace LynxTrace.ProtoVm

open LynxTrace.Wire LynxTrace.Protozero IntrusiveTree

variable {l : Ledger}

/-! ### Enough memory -/

/-- `n` more bytes can be allocated. -/
def Fits (al : Allocator) (n : ℕ) : Prop :=
  al.usedMemoryBytes + n ≤ al.memoryLimitBytes ∧ al.usedMemoryBytes + n ≤ addressSpace

variable {al : Allocator} {n x id : ℕ}

theorem Fits.reserve {size : ℕ} (h : Fits al (size + n)) :
    ∃ al', al.reserve size = some al' ∧ Fits al' n ∧ al'.usedMemoryBytes = al.usedMemoryBytes + size := by
  obtain ⟨hlim, hspace⟩ := h
  have hg : al.grown size = al.usedMemoryBytes + size := by
    unfold Allocator.grown addressSpace at *
    omega
  refine ⟨{ al with usedMemoryBytes := al.usedMemoryBytes + size }, ?_, ⟨?_, ?_⟩, rfl⟩
  · unfold Allocator.reserve
    rw [hg, if_neg (by omega), if_neg (by omega)]
  · dsimp only
    omega
  · dsimp only
    omega

theorem Fits.createNode (h : Fits al (sizeofNode + n)) : ∃ id al', al.createNode = some (id, al') ∧ Fits al' n := by
  obtain ⟨al₁, h₁, hf, -⟩ := h.reserve
  exact ⟨al₁.nextId, { al₁ with nextId := al₁.nextId + 1 }, by rw [Allocator.createNode, h₁]; rfl, hf⟩

variable {m message m₀ : NodeMap}

theorem Fits.mapInsert {key : ℕ} (nd : Node) (h : Fits al (sizeofNode + n)) (hf : find m key = none) :
    ∃ al', mapInsert m key nd al = ⟨.kOk, insert m key nd, al'⟩ ∧ Fits al' n := by
  obtain ⟨id, al₁, h₁, hfit⟩ := h.createNode
  exact ⟨al₁, by simp only [ProtoVm.mapInsert, h₁, hf], hfit⟩

/-- The value of a node made from a field. -/
def fieldValue (f : Field) : NodeValue :=
  if f.type = .kLengthDelimited then .bytes f.data else .scalar ⟨f.type, f.intValue⟩

theorem Fits.createNodeFromField (f : Field) (h : Fits al (f.data.length + sizeofNode + n)) :
    ∃ nd al', createNodeFromField f al = (some nd, al') ∧ nd.value = fieldValue f ∧ Fits al' n := by
  unfold ProtoVm.createNodeFromField fieldValue Allocator.allocateAndCopyBytes
  by_cases ht : f.type = .kLengthDelimited
  · rw [Nat.add_assoc] at h
    obtain ⟨al₁, h₁, hfit₁, -⟩ := h.reserve
    obtain ⟨id, al₂, h₂, hfit₂⟩ := hfit₁.createNode
    exact ⟨⟨id, .bytes f.data⟩, al₂, by simp only [if_pos ht, h₁, h₂], by rw [if_pos ht], hfit₂⟩
  · have h' : Fits al (sizeofNode + n) := ⟨by have := h.1; omega, by have := h.2; omega⟩
    obtain ⟨id, al₁, h₁, hfit₁⟩ := h'.createNode
    exact ⟨⟨id, .scalar ⟨f.type, f.intValue⟩⟩, al₁, by simp only [if_neg ht, h₁], by rw [if_neg ht], hfit₁⟩

theorem Fits.mono {m : ℕ} (h : Fits al n) (hle : m ≤ n) : Fits al m :=
  ⟨(Nat.add_le_add_left hle _).trans h.1, (Nat.add_le_add_left hle _).trans h.2⟩

theorem Fits.lessened (h : Fits al n) (size : ℕ) : Fits (al.lessened size) n := by
  obtain ⟨h1, h2⟩ := h
  unfold Fits Allocator.lessened at *
  dsimp only
  omega

variable {v : NodeValue}

theorem Fits.deleteReferencedData (h : Fits al n) (hb : Balanced l (x + v.cost) al) :
    Fits (al.deleteReferencedData v) n := by
  have hc := hb.covers
  rw [Allocator.deleteReferencedData_eq v (by omega) hb.space]
  exact h.lessened _

theorem Fits.delete {nd : Node} (h : Fits al n) (hb : Balanced l (x + nd.cost) al) : Fits (al.delete nd) n := by
  rw [Node.cost, ← Nat.add_assoc] at hb
  have hfit : Fits (al.deleteReferencedData nd.value) n := h.deleteReferencedData hb
  have hb' : Balanced l (x + sizeofNode) (al.deleteReferencedData nd.value) := hb.deleteReferencedData nd.value
  have hc := hb'.covers
  rw [Allocator.delete, Allocator.release_eq (by omega) hb'.space]
  exact hfit.lessened _

/-! ### Slots -/

theorem slot_insert_self (h : find m id = none) (n : Node) :
    slot (insert m id n) id = some n.value := by rw [slot, find_insert_self h, Option.map_some]

theorem slot_insert_ne {id' : ℕ} (hne : id ≠ id') (m : NodeMap) (n : Node) :
    slot (insert m id n) id' = slot m id' := by rw [slot, find_insert_ne hne, slot]

theorem slot_set_self {a : Node} (h : find m id = some a) (n : Node) :
    slot (set m id n) id = some n.value := by rw [slot, find_set_self h, Option.map_some]

theorem slot_set_ne {id' : ℕ} (hne : id ≠ id') (m : NodeMap) (n : Node) :
    slot (set m id n) id' = slot m id' := by rw [slot, find_set_ne hne, slot]

variable {f : Field}

theorem serializeField_fieldValue (h : f.WellTyped) : serializeField f.id (fieldValue f) = [appendedField f] := by
  unfold fieldValue appendedField
  by_cases ht : f.type = .kLengthDelimited
  · rw [if_pos ht, ht, serializeField]
  · rw [if_neg ht, serializeField, serializeScalar]
    cases hty : f.type with
    | kFixed32 => simp only [Nat.mod_eq_of_lt (h.fixed32_lt hty)]
    | kFixed64 => rfl
    | kVarInt => rfl
    | kLengthDelimited => exact absurd hty ht

theorem occurrencesIn_append (id : ℕ) (a b : List Field) :
    occurrencesIn id (a ++ b) = occurrencesIn id a ++ occurrencesIn id b := List.filter_append a b

theorem occurrencesIn_singleton (id : ℕ) (f : Field) :
    occurrencesIn id [f] = if f.id = id then [f] else [] := by
  simp [occurrencesIn, List.filter_cons]

theorem occurrencesIn_id {fields : List Field} (h : f ∈ occurrencesIn id fields) :
    f.id = id := by simpa using (List.mem_filter.mp h).2

/-! ### Decomposing a blob -/

/-- An indexed repeated field that holds the fields of a list, in order. -/
structure Listed (id : ℕ) (fs : List Field) (m : NodeMap) : Prop where
  serialized : serializeElements id m = fs.map appendedField
  length : m.length = fs.length
  key_lt : ∀ e ∈ m, e.1 < m.length

variable {fs done : List Field}

theorem Listed.find_length (h : Listed id fs m) :
    find m m.length = none := find_eq_none_iff.mpr fun e he => (h.key_lt e he).ne

theorem Listed.append (h : Listed id fs m) (hf : f.WellTyped) (hid : f.id = id) {n : Node} (hn : n.value = fieldValue f)
    :
    Listed id (fs ++ [f]) (insert m m.length n) := by
  rw [insert_last h.key_lt]
  refine ⟨?_, by simp [h.length], fun e he => ?_⟩
  · have hs := h.serialized
    rw [serializeElements_eq] at hs ⊢
    rw [List.flatMap_append, hs, List.map_append]
    simp [hn, ← hid, serializeField_fieldValue hf]
  · rw [List.length_append, List.length_singleton]
    rcases List.mem_append.mp he with he | he
    · exact (h.key_lt e he).trans (Nat.lt_succ_self _)
    · obtain rfl := List.mem_singleton.mp he
      exact Nat.lt_succ_self _

/-- What `ConvertToMessageIfNeeded` puts under an id whose occurrences are the fields of the list. -/
def DecomposedTo (id : ℕ) : List Field → Option NodeValue → Prop
  | [], o => o = none
  | [f], o => o = some (fieldValue f)
  | f :: g :: fs, o => ∃ m, o = some (.indexedRepeatedField m false) ∧ Listed id (f :: g :: fs) m

theorem listed_singleton (hf : f.WellTyped) (hid : f.id = id) (nid : ℕ) : Listed id [f] [(0, ⟨nid, fieldValue f⟩)] := by
  refine ⟨?_, rfl, by simp⟩
  rw [serializeElements_eq]
  simp [← hid, serializeField_fieldValue hf]

/-- The second occurrence turns a single field into a repeated one. -/
theorem Fits.convertSingle (f : Field) (h : Fits al (2 * sizeofNode + n)) :
    ∃ nid al', convertToIndexedRepeatedFieldIfNeeded (fieldValue f) al =
      ⟨.kOk, .indexedRepeatedField [(0, ⟨nid, fieldValue f⟩)] false, al'⟩ ∧ Fits al' n := by
  have hmove : ∃ nid al', moveIntoMap 0 (fieldValue f) al (fun m => .indexedRepeatedField m false) =
      ⟨.kOk, .indexedRepeatedField [(0, ⟨nid, fieldValue f⟩)] false, al'⟩ ∧ Fits al' n := by
    obtain ⟨nid, al₁, h₁, hfit₁⟩ := (h.mono (by omega) : Fits al (sizeofNode + (sizeofNode + n))).createNode
    obtain ⟨al₂, h₂, hfit₂⟩ := hfit₁.mapInsert ⟨nid, fieldValue f⟩ (find_nil 0)
    exact ⟨nid, al₂, by simp only [moveIntoMap, h₁, h₂]; rfl, hfit₂⟩
  unfold fieldValue at hmove ⊢
  by_cases ht : f.type = .kLengthDelimited
  · simp only [if_pos ht] at hmove ⊢
    exact hmove
  · simp only [if_neg ht] at hmove ⊢
    exact hmove

theorem Fits.appendOccurrence {nd : Node} (h : Fits al (3 * sizeofNode + n)) (hne : fs ≠ [])
    (hwt : ∀ g ∈ fs, g.WellTyped) (hids : ∀ g ∈ fs, g.id = id) (hv : DecomposedTo id fs (some v)) (hf : f.WellTyped)
    (hid : f.id = id) (hn : nd.value = fieldValue f) :
    ∃ w al', appendOccurrence v nd al = ⟨.kOk, w, al'⟩ ∧ DecomposedTo id (fs ++ [f]) (some w) ∧ Fits al' n := by
  -- append to the indexed repeated field the conversion has left
  have happend : ∀ {gs : List Field} {m : NodeMap} {al₁ : Allocator}, gs ≠ [] → Listed id gs m →
      Fits al₁ (sizeofNode + n) → convertToIndexedRepeatedFieldIfNeeded v al =
        ⟨.kOk, .indexedRepeatedField m false, al₁⟩ →
      ∃ w al', ProtoVm.appendOccurrence v nd al = ⟨.kOk, w, al'⟩ ∧ DecomposedTo id (gs ++ [f]) (some w) ∧
        Fits al' n := by
    intro gs m al₁ hgs hl hfit hconv
    obtain ⟨al₂, h₂, hfit₂⟩ := hfit.mapInsert nd hl.find_length
    refine ⟨.indexedRepeatedField (insert m m.length nd) false, al₂, ?_, ?_, hfit₂⟩
    · simp only [ProtoVm.appendOccurrence, hconv, if_true, h₂]
    · obtain ⟨g, gs, rfl⟩ := List.exists_cons_of_ne_nil hgs
      cases gs with
      | nil | cons g' gs => exact ⟨_, rfl, hl.append hf hid hn⟩
  match fs, hne with
  | [g], _ =>
    have hv' : v = fieldValue g := Option.some.inj hv
    obtain ⟨nid, al₁, h₁, hfit₁⟩ :=
      Fits.convertSingle g (h.mono (by omega) : Fits al (2 * sizeofNode + (sizeofNode + n)))
    rw [← hv'] at h₁
    refine happend (by simp) ?_ hfit₁ h₁
    rw [hv']
    exact listed_singleton (hwt g (by simp)) (hids g (by simp)) nid
  | g :: g' :: gs, _ =>
    obtain ⟨m, hm, hl⟩ := hv
    have hv' : v = .indexedRepeatedField m false := Option.some.inj hm
    refine happend (by simp) hl (h.mono (by omega)) ?_
    rw [hv']
    rfl

/-- Memory that decomposing the fields takes at most: a field that turns out to be repeated brings the nodes of
the repeated field with it. -/
def decomposeNeed (fields : List Field) : ℕ := (fields.map fun f => f.data.length + 4 * sizeofNode).sum

/-- The local message holds every field read so far. -/
structure Decomposing (done : List Field) (message : NodeMap) : Prop where
  ok : MessageOk message
  slots : ∀ id, DecomposedTo id (occurrencesIn id done) (slot message id)

theorem Decomposing.nil : Decomposing [] [] := ⟨MessageOk.nil, fun _ => rfl⟩

theorem DecomposedTo.eq_nil (h : DecomposedTo id fs none) : fs = [] := by
  match fs with
  | [] => rfl
  | [f] => simp [DecomposedTo] at h
  | f :: g :: fs => simp [DecomposedTo] at h

theorem Fits.addOccurrence {nd : Node} (h : Fits al (3 * sizeofNode + n)) (hd : Decomposing done message)
    (hwt : ∀ g ∈ done, g.WellTyped) (hf : f.WellTyped) (hn : nd.value = fieldValue f) :
    ∃ message' al', addOccurrence message f.id nd al = ⟨.kOk, message', al'⟩ ∧
      Decomposing (done ++ [f]) message' ∧ Fits al' n := by
  unfold ProtoVm.addOccurrence
  have hother : ∀ {message' : NodeMap} {id : ℕ}, f.id ≠ id → slot message' id = slot message id →
      DecomposedTo id (occurrencesIn id (done ++ [f])) (slot message' id) := by
    intro message' id hne hs
    rw [occurrencesIn_append, occurrencesIn_singleton, if_neg hne, List.append_nil, hs]
    exact hd.slots id
  have hslot := hd.slots f.id
  cases hfind : find message f.id with
  | none =>
    rw [slot, hfind] at hslot
    obtain ⟨al₁, h₁, hfit⟩ := (h.mono (by omega) : Fits al (sizeofNode + n)).mapInsert nd hfind
    refine ⟨insert message f.id nd, al₁, by simp only [h₁], ⟨hd.ok.insert hf.id_lt nd, fun id => ?_⟩, hfit⟩
    by_cases hid : f.id = id
    · subst hid
      rw [slot_insert_self hfind, occurrencesIn_append, hslot.eq_nil, occurrencesIn_singleton, if_pos rfl, hn]
      rfl
    · exact hother hid (slot_insert_ne hid _ _)
  | some it =>
    rw [slot, hfind] at hslot
    have hne : occurrencesIn f.id done ≠ [] := by
      intro hnil
      rw [hnil] at hslot
      cases hslot
    obtain ⟨w, al₁, h₁, hw, hfit⟩ := h.appendOccurrence hne
      (fun g hg => hwt g (List.mem_filter.mp hg).1) (fun g hg => occurrencesIn_id hg) hslot hf rfl hn
    refine ⟨set message f.id ⟨it.id, w⟩, al₁, by simp only [h₁], ⟨hd.ok.of_keys (keys_set _ _ _), fun id => ?_⟩,
      hfit⟩
    by_cases hid : f.id = id
    · subst hid
      rw [slot_set_self hfind, occurrencesIn_append, occurrencesIn_singleton, if_pos rfl]
      exact hw
    · exact hother hid (slot_set_ne hid _ _)

theorem Fits.decompose {fields : List Field} (h : Fits al (decomposeNeed fields + n)) (hd : Decomposing done message)
    (hdone : ∀ g ∈ done, g.WellTyped) (hwt : ∀ g ∈ fields, g.WellTyped) :
    ∃ message' al', decompose fields message al = ⟨.kOk, message', al'⟩ ∧
      Decomposing (done ++ fields) message' ∧ Fits al' n := by
  induction fields generalizing done message al with
  | nil =>
    refine ⟨message, al, rfl, ?_, h.mono (Nat.le_add_left _ _)⟩
    rw [List.append_nil]
    exact hd
  | cons f fields ih =>
    have hneed : decomposeNeed (f :: fields) = f.data.length + 4 * sizeofNode + decomposeNeed fields := by
      simp [decomposeNeed]
    rw [hneed] at h
    obtain ⟨nd, al₁, h₁, hnd, hfit₁⟩ := Fits.createNodeFromField f
      (h.mono (by omega) : Fits al (f.data.length + sizeofNode + (3 * sizeofNode + (decomposeNeed fields + n))))
    obtain ⟨message₁, al₂, h₂, hd₂, hfit₂⟩ := hfit₁.addOccurrence hd hdone (hwt f (by simp)) hnd
    have hdone' : ∀ g ∈ done ++ [f], g.WellTyped := by
      intro g hg
      rcases List.mem_append.mp hg with hg | hg
      · exact hdone g hg
      · rw [List.mem_singleton.mp hg]
        exact hwt f (by simp)
    obtain ⟨message', al', h₃, hd₃, hfit₃⟩ := ih hfit₂ hd₂ hdone' fun g hg => hwt g (by simp [hg])
    refine ⟨message', al', ?_, ?_, hfit₃⟩
    · rw [ProtoVm.decompose]
      simp only [h₁, h₂, if_true]
      exact h₃
    · rw [List.append_assoc, List.singleton_append] at hd₃
      exact hd₃

variable {o : Option NodeValue}

/-- What decomposing puts under an id serializes to the occurrences of the id. -/
theorem DecomposedTo.serializeSlot (h : DecomposedTo id fs o) (hwt : ∀ f ∈ fs, f.WellTyped) (hids : ∀ f ∈ fs, f.id = id)
    :
    serializeSlot id o = fs.map appendedField := by
  match fs with
  | [] =>
    rw [show o = none from h]
    rfl
  | [f] =>
    rw [show o = some (fieldValue f) from h]
    have hs := serializeField_fieldValue (hwt f (by simp))
    rw [hids f (by simp)] at hs
    simpa [ProtoVm.serializeSlot] using hs
  | f :: g :: fs =>
    obtain ⟨m, rfl, hl⟩ := h
    exact hl.serialized

/-! ### Appending to a repeated field -/

/-- The map after the loop of `Merge` has appended nodes made from the fields, each under the size of the map. -/
inductive Grown (m₀ : NodeMap) : List Field → NodeMap → Prop
  | nil : Grown m₀ [] m₀
  | snoc {fs : List Field} {m : NodeMap} {f : Field} {n : Node} (h : Grown m₀ fs m)
      (hf : find m m.length = none) (hn : n.value = fieldValue f) : Grown m₀ (fs ++ [f]) (insert m m.length n)

theorem Grown.length (h : Grown m₀ fs m) : m.length = m₀.length + fs.length := by
  induction h with
  | nil => simp
  | snoc h hf hn ih =>
    rw [length_insert hf, ih, List.length_append, List.length_singleton]
    omega

/-- Above the size of the map it still has the entries it started with. -/
theorem Grown.find_ge (h : Grown m₀ fs m) {j : ℕ} (hj : m.length ≤ j) : find m j = find m₀ j := by
  induction h with
  | nil => rfl
  | @snoc fs m f n h hf hn ih =>
    rw [length_insert hf] at hj
    rw [find_insert_ne (by omega)]
    exact ih (by omega)

theorem Grown.sorted (h : Grown m₀ fs m) (hs : Sorted m₀) : Sorted m := by
  induction h with
  | nil => exact hs
  | snoc h hf hn ih => exact ih.insert _ _

/-- Every appended node serializes to one more occurrence. -/
theorem Grown.count (h : Grown m₀ fs m) (hwt : ∀ f ∈ fs, f.WellTyped) (hids : ∀ f ∈ fs, f.id = id) :
    (serializeElements id m).length = (serializeElements id m₀).length + fs.length := by
  have hweight : ∀ m : NodeMap, (serializeElements id m).length =
      weight (fun n : Node => (serializeField id n.value).length) m := fun m => by
    rw [serializeElements_eq, List.length_flatMap, weight]
  induction h with
  | nil => rfl
  | @snoc fs m f n h hf hn ih =>
    have hone : serializeField id n.value = [appendedField f] := by
      rw [hn, ← hids f (by simp), serializeField_fieldValue (hwt f (by simp))]
    have hrec := ih (fun g hg => hwt g (by simp [hg])) (fun g hg => hids g (by simp [hg]))
    rw [hweight, weight_insert _ hf, ← hweight, hrec, hone, List.length_append, List.length_singleton,
      List.length_singleton]
    omega

/-- Appended to a map that serializes to nothing, the nodes serialize to the fields in order. -/
theorem Grown.serialized (h : Grown m₀ fs m) (hs : Sorted m₀) (hnil : serializeElements id m₀ = [])
    (hwt : ∀ f ∈ fs, f.WellTyped) (hids : ∀ f ∈ fs, f.id = id) :
    serializeElements id m = fs.map appendedField ∧
      ∀ e ∈ m, e.1 < m.length ∨ serializeField id e.2.value = [] := by
  induction h with
  | nil =>
    refine ⟨hnil, fun e he => Or.inr ?_⟩
    rw [serializeElements_eq] at hnil
    exact List.flatMap_eq_nil_iff.mp hnil e he
  | @snoc fs m f n h hf hn ih =>
    have hone : serializeField id n.value = [appendedField f] := by
      rw [hn, ← hids f (by simp), serializeField_fieldValue (hwt f (by simp))]
    obtain ⟨hser, hkeys⟩ := ih (fun g hg => hwt g (by simp [hg])) (fun g hg => hids g (by simp [hg]))
    rw [serializeElements_eq] at hser
    constructor
    · have hlast := flatMap_insert_last (fun n : Node => serializeField id n.value) (h.sorted hs) hf
        (fun e he hlt => (hkeys e he).resolve_left (by omega)) n
      rw [serializeElements_eq, hlast, hser, hone, List.map_append, List.map_singleton]
    · intro e he
      rw [length_insert hf]
      rcases mem_insert he with rfl | he
      · exact Or.inl (Nat.lt_succ_self _)
      · exact (hkeys e he).imp_left fun hlt => hlt.trans (Nat.lt_succ_self _)

/-! ### The loop of `Merge` -/

/-- What the loop of `Merge` puts under an id that had `o`, after the occurrences `fs`. -/
def MergedTo (o : Option NodeValue) (fs : List Field) (o' : Option NodeValue) : Prop :=
  match fs.getLast? with
  | none => o' = o
  | some f =>
    match o with
    | some (.indexedRepeatedField es merged) =>
      ∃ m, o' = some (.indexedRepeatedField m true) ∧ Grown (if merged then es else []) fs m
    | _ => o' = some (fieldValue f)

theorem MergedTo.nil (o : Option NodeValue) : MergedTo o [] o := rfl

theorem mergedTo_snoc (o : Option NodeValue) (fs : List Field) (f : Field) (o' : Option NodeValue) :
    MergedTo o (fs ++ [f]) o' ↔
      match o with
      | some (.indexedRepeatedField es merged) =>
        ∃ m, o' = some (.indexedRepeatedField m true) ∧ Grown (if merged then es else []) (fs ++ [f]) m
      | _ => o' = some (fieldValue f) := by
  unfold MergedTo
  rw [List.getLast?_concat]

theorem fieldValue_ne_indexed (f : Field) (m : NodeMap) (b : Bool) :
    fieldValue f ≠ .indexedRepeatedField m b := by
  unfold fieldValue
  split_ifs <;> simp

theorem fieldValue_ne_mapped (f : Field) (m : NodeMap) : fieldValue f ≠ .mappedRepeatedField m := by
  unfold fieldValue
  split_ifs <;> simp

/-- A slot that holds a repeated field held one from the start. -/
theorem MergedTo.indexed {b : Bool} (h : MergedTo o fs (some (.indexedRepeatedField m b))) :
    ∃ es merged, o = some (.indexedRepeatedField es merged) ∧
      Grown (if merged then es else []) fs (if b then m else []) := by
  rcases List.eq_nil_or_concat' fs with rfl | ⟨fs, f, rfl⟩
  · exact ⟨m, b, Eq.symm h, .nil⟩
  · rw [mergedTo_snoc] at h
    cases o with
    | none => exact absurd (Option.some.inj h).symm (fieldValue_ne_indexed f m b)
    | some v =>
      cases v with
      | indexedRepeatedField es merged =>
        obtain ⟨m', hm', hg⟩ := h
        cases Option.some.inj hm'
        exact ⟨es, merged, rfl, hg⟩
      | _ => exact absurd (Option.some.inj h).symm (fieldValue_ne_indexed f m b)

/-- A slot without repeated field held none from the start. -/
theorem MergedTo.not_indexed {o' : Option NodeValue} (h : MergedTo o fs o')
    (ho : ∀ m b, o' ≠ some (.indexedRepeatedField m b)) (es : NodeMap) (merged : Bool) :
    o ≠ some (.indexedRepeatedField es merged) := by
  rintro rfl
  rcases List.eq_nil_or_concat' fs with rfl | ⟨fs, f, rfl⟩
  · exact ho es merged h
  · rw [mergedTo_snoc] at h
    obtain ⟨m, hm, -⟩ := h
    exact ho m true hm

theorem MergedTo.not_mapped {o' : Option NodeValue} (h : MergedTo o fs o') (ho : ∀ m, o ≠ some (.mappedRepeatedField m))
    (m : NodeMap) : o' ≠ some (.mappedRepeatedField m) := by
  rintro rfl
  rcases List.eq_nil_or_concat' fs with rfl | ⟨fs, f, rfl⟩
  · exact ho m (Eq.symm h)
  · rw [mergedTo_snoc] at h
    cases o with
    | none => exact fieldValue_ne_mapped f m (Option.some.inj h).symm
    | some v =>
      cases v with
      | indexedRepeatedField es merged =>
        obtain ⟨m', hm', -⟩ := h
        cases hm'
      | _ => exact fieldValue_ne_mapped f m (Option.some.inj h).symm

theorem MergedTo.replaced (ho : ∀ es merged, o ≠ some (.indexedRepeatedField es merged)) (fs : List Field) (f : Field) :
    MergedTo o (fs ++ [f]) (some (fieldValue f)) := by
  rw [mergedTo_snoc]
  cases o with
  | none => rfl
  | some v =>
    cases v with
    | indexedRepeatedField es merged => exact absurd rfl (ho es merged)
    | _ => rfl

/-- The map of a repeated field has an entry at one of the next `n` keys that appending uses. -/
def Collides (m₀ : NodeMap) (n : ℕ) : Prop := ∃ i < n, find m₀ (m₀.length + i) ≠ none

/-- The message under `Merge` after the fields `done`. -/
structure Merging (m₀ : NodeMap) (done : List Field) (message : NodeMap) : Prop where
  ok : MessageOk message
  slots : ∀ id, MergedTo (slot m₀ id) (occurrencesIn id done) (slot message id)

theorem Merging.nil (h : MessageOk m₀) : Merging m₀ [] m₀ := ⟨h, fun _ => MergedTo.nil _⟩

/-- Only the slot of the field changes. -/
theorem Merging.snoc {message' : NodeMap} (h : Merging m₀ done message) (hok : MessageOk message')
    (hne : ∀ id, f.id ≠ id → slot message' id = slot message id)
    (hs : MergedTo (slot m₀ f.id) (occurrencesIn f.id done ++ [f]) (slot message' f.id)) :
    Merging m₀ (done ++ [f]) message' := by
  refine ⟨hok, fun id => ?_⟩
  rw [occurrencesIn_append, occurrencesIn_singleton]
  by_cases hid : f.id = id
  · subst hid
    rw [if_pos rfl]
    exact hs
  · rw [if_neg hid, List.append_nil, hne id hid]
    exact h.slots id

/-- One turn of the loop with enough memory: the slot of the field takes the node, unless its key is taken. -/
theorem Merging.mergeField {nd : Node} (h : Merging m₀ done message) (hfit : Fits al (sizeofNode + n))
    (hb : Balanced l (x + entriesCost message + nd.cost) al) (hm : ∀ m, slot m₀ f.id ≠ some (.mappedRepeatedField m))
    (hid : f.id < 2 ^ 32) (hn : nd.value = fieldValue f) :
    (∃ message' al', mergeField f.id nd false message al = ⟨.kOk, message', al'⟩ ∧
      Merging m₀ (done ++ [f]) message' ∧ Fits al' n) ∨
    ((mergeField f.id nd false message al).status = .nullNode ∧ ∃ es merged,
      slot m₀ f.id = some (.indexedRepeatedField es merged) ∧
        find (if merged then es else []) ((if merged then es else []).length + (occurrencesIn f.id done).length) ≠
          none) := by
  have hslot := h.slots f.id
  unfold ProtoVm.mergeField
  cases hfind : find message f.id with
  | none =>
    left
    have hnone : slot message f.id = none := by rw [slot, hfind, Option.map_none]
    rw [hnone] at hslot
    obtain ⟨al₁, h₁, hfit₁⟩ := hfit.mapInsert nd hfind
    refine ⟨insert message f.id nd, al₁, by simp only [h₁], h.snoc (h.ok.insert hid nd)
      (fun id hne => slot_insert_ne hne _ _) ?_, hfit₁⟩
    rw [slot_insert_self hfind, hn]
    exact MergedTo.replaced (hslot.not_indexed (by simp)) _ f
  | some it =>
    have hsome : slot message f.id = some it.value := by rw [slot, hfind, Option.map_some]
    rw [hsome] at hslot
    have hset : ∀ w : Node, Merging m₀ (done ++ [f]) (set message f.id w) ↔
        MergedTo (slot m₀ f.id) (occurrencesIn f.id done ++ [f]) (some w.value) := fun w => by
      rw [← slot_set_self hfind w]
      constructor
      · intro hw
        have hs := hw.slots f.id
        rw [occurrencesIn_append, occurrencesIn_singleton, if_pos rfl] at hs
        exact hs
      · exact fun hs => h.snoc (h.ok.of_keys (keys_set _ _ _)) (fun id hne => slot_set_ne hne _ _) hs
    have hreplace : (∀ m b, it.value ≠ .indexedRepeatedField m b) →
        Merging m₀ (done ++ [f]) (set message f.id nd) := fun hv => by
      rw [hset, hn]
      exact MergedTo.replaced (hslot.not_indexed fun m b he => hv m b (Option.some.inj he)) _ f
    have hdel : Fits (al.delete it) n := by
      have hc := entriesCost_set hfind ⟨it.id, .empty⟩
      have hit : Balanced l (x + entriesCost (set message f.id ⟨it.id, .empty⟩) + nd.cost - sizeofNode + it.cost) al := by
        convert hb using 1
        simp only [Node.cost, NodeValue.cost] at hc ⊢
        have : sizeofNode ≤ nd.cost := Nat.le_add_right _ _
        omega
      exact Fits.delete (hfit.mono (Nat.le_add_left _ _)) hit
    simp only [Bool.false_and, Bool.false_eq_true, if_false]
    cases hv : it.value with
    | mappedRepeatedField m => exact absurd (by rw [hv]) (hslot.not_mapped hm m)
    | bytes d | empty | message m | scalar s => exact Or.inl ⟨_, _, rfl, hreplace (by simp [hv]), hdel⟩
    | indexedRepeatedField m b =>
      rw [hv] at hslot
      obtain ⟨es, merged, ho, hg⟩ := hslot.indexed
      dsimp only
      set cleared := if b then m else [] with hcleared
      set al₀ := if b then al else al.deleteReferencedData (.indexedRepeatedField m b) with hal₀
      have hfit₀ : Fits al₀ (sizeofNode + n) := by
        cases b with
        | true => exact hfit
        | false =>
          have hc := entriesCost_set hfind ⟨it.id, .empty⟩
          have hit : Balanced l (x + entriesCost (set message f.id ⟨it.id, .empty⟩) + nd.cost - sizeofNode +
              sizeofNode + it.value.cost) al := by
            convert hb using 1
            simp only [Node.cost, NodeValue.cost] at hc ⊢
            omega
          rw [hv] at hit
          exact hfit.deleteReferencedData hit
      cases hfree : find cleared cleared.length with
      | none =>
        left
        obtain ⟨al₁, h₁, hfit₁⟩ := hfit₀.mapInsert nd hfree
        refine ⟨_, al₁, by simp only [h₁]; rfl, ?_, hfit₁⟩
        rw [hset, mergedTo_snoc, ho]
        exact ⟨_, rfl, hg.snoc hfree hn⟩
      | some taken =>
        right
        obtain ⟨nid, al₁, h₁, -⟩ := hfit₀.createNode
        refine ⟨by simp only [ProtoVm.mapInsert, h₁, hfree, if_true], es, merged, ho, ?_⟩
        rw [← hg.length, ← hg.find_ge le_rfl, hfree]
        simp

/-- Memory that the loop of `Merge` takes at most. -/
def mergeFieldsNeed (fields : List Field) : ℕ := (fields.map fun f => f.data.length + 2 * sizeofNode).sum

/-- With enough memory the loop of `Merge` gets through, unless a key it appends under is taken. -/
theorem Merging.mergeFields {fields : List Field} (h : Merging m₀ done message)
    (hfit : Fits al (mergeFieldsNeed fields + n)) (hb : Balanced l (x + entriesCost message) al)
    (hm : ∀ id m, slot m₀ id ≠ some (.mappedRepeatedField m)) (hid : ∀ f ∈ fields, f.id < 2 ^ 32) :
    (∃ message' al', mergeFields false fields message al = ⟨.kOk, message', al'⟩ ∧
      Merging m₀ (done ++ fields) message') ∨
    ((mergeFields false fields message al).status = .nullNode ∧ ∃ f ∈ fields, ∃ es merged,
      slot m₀ f.id = some (.indexedRepeatedField es merged) ∧
        Collides (if merged then es else []) (occurrencesIn f.id (done ++ fields)).length) := by
  induction fields generalizing done message al with
  | nil =>
    left
    refine ⟨message, al, rfl, ?_⟩
    rw [List.append_nil]
    exact h
  | cons f fields ih =>
    have hneed : mergeFieldsNeed (f :: fields) = f.data.length + 2 * sizeofNode + mergeFieldsNeed fields := by
      simp [mergeFieldsNeed]
    rw [hneed] at hfit
    obtain ⟨nd, al₁, h₁, hnd, hfit₁⟩ := Fits.createNodeFromField f
      (hfit.mono (by omega) : Fits al (f.data.length + sizeofNode + (sizeofNode + (mergeFieldsNeed fields + n))))
    have hb₁ : Balanced l (x + entriesCost message + nd.cost) al₁ := by
      have hcf := Balanced.createNodeFromField hb f
      rw [h₁] at hcf
      exact hcf
    set e := NodeEvent.mergeField (((find message f.id).map Node.value).getD .empty) with he
    have hfit₂ : Fits (al₁.record e) (sizeofNode + (mergeFieldsNeed fields + n)) := hfit₁
    have hassoc : done ++ f :: fields = done ++ [f] ++ fields := by simp
    rw [ProtoVm.mergeFields]
    simp only [h₁, ← he]
    have hmapped : ∀ it m, find message f.id = some it → it.value ≠ .mappedRepeatedField m := fun it m hit hv => by
      refine absurd ?_ ((h.slots f.id).not_mapped (hm f.id) m)
      rw [slot, hit, Option.map_some, hv]
    have hben : e.Benign := fun m hv => by
      cases hf : find message f.id with
      | none => simp [hf] at hv
      | some it => exact hmapped it m hf (by simpa [hf] using hv)
    rcases h.mergeField hfit₂ (hb₁.record hben) (hm f.id) (hid f (by simp)) hnd with
      ⟨message₂, al₂, h₂, hmerging, hfit₃⟩ | ⟨hnull, es, merged, hslot, htaken⟩
    · have hb₂ : Balanced l (x + entriesCost message₂) al₂ := by
        have hstep := Balanced.mergeField (hb₁.record hben) hmapped (by rw [h₂]; simp)
        rw [h₂] at hstep
        exact hstep
      simp only [h₂, if_true, hassoc]
      refine (ih hmerging hfit₃ hb₂ fun g hg => hid g (by simp [hg])).imp_right ?_
      rintro ⟨hs, g, hg, hrest⟩
      exact ⟨hs, g, by simp [hg], hrest⟩
    · right
      rw [if_neg (by rw [hnull]; decide)]
      refine ⟨hnull, f, by simp, es, merged, hslot, (occurrencesIn f.id done).length, ?_, htaken⟩
      rw [hassoc, occurrencesIn_append, occurrencesIn_append, occurrencesIn_singleton, if_pos rfl]
      simp only [List.length_append, List.length_singleton]
      omega

theorem Grown.not_collides (h : Grown m₀ fs m) : ¬ Collides m₀ fs.length := by
  induction h with
  | nil => simp [Collides]
  | @snoc fs m f n h hf hn ih =>
    rintro ⟨i, hi, htaken⟩
    rw [List.length_append, List.length_singleton] at hi
    by_cases hlt : i < fs.length
    · exact ih ⟨i, hlt, htaken⟩
    · rw [show i = fs.length by omega, ← h.length, ← h.find_ge le_rfl] at htaken
      exact htaken hf

/-! ### The destination -/

/-- A destination `Merge` works on: empty, a blob, or a message whose maps are search trees and that has no mapped
repeated field. -/
def MergeDst : NodeValue → Prop
  | .empty => True
  | .bytes _ => True
  | .message m => MessageOk m ∧ ∀ e ∈ m, (∀ es, e.2.value ≠ .mappedRepeatedField es) ∧
      ∀ es b, e.2.value = .indexedRepeatedField es b → Sorted es
  | _ => False

/-- The fields of the destination once it is a message. -/
def DstMap : NodeValue → NodeMap → Prop
  | .bytes data, m => Decomposing (readFields data) m
  | .message m', m => m = m'
  | _, m => m = []

/-- Memory that making the destination a message takes at most. -/
def dstNeed : NodeValue → ℕ
  | .bytes data => decomposeNeed (readFields data)
  | _ => 0

theorem Fits.convertToMessage (hv : MergeDst v) (h : Fits al (dstNeed v + n)) (hb : Balanced l (x + v.cost) al) :
    ∃ m al', convertToMessageIfNeeded v al = ⟨.kOk, .message m, al'⟩ ∧ DstMap v m ∧ Fits al' n ∧
      Balanced l (x + entriesCost m) al' := by
  have hkeep := convertToMessageIfNeeded_keeps v al x hb
  cases v with
  | empty => exact ⟨[], al, rfl, rfl, h.mono (Nat.le_add_left _ _), hb⟩
  | message m => exact ⟨m, al, rfl, rfl, h.mono (Nat.le_add_left _ _), hb⟩
  | bytes data =>
    obtain ⟨m, al₁, h₁, hd, hfit₁⟩ := Fits.decompose h Decomposing.nil (by simp) fun g => readFields_wellTyped
    have hb₁ : Balanced l (x + entriesCost m + (NodeValue.bytes data).cost) al₁ := by
      have hdec : (ProtoVm.decompose (readFields data) [] al).status ≠ .nullNode →
          Balanced l (x + (NodeValue.bytes data).cost + entriesCost (ProtoVm.decompose (readFields data) [] al).map)
            (ProtoVm.decompose (readFields data) [] al).alloc := Balanced.decompose hb
      rw [h₁] at hdec
      rw [Nat.add_right_comm]
      exact hdec (by simp)
    have heq : convertToMessageIfNeeded (.bytes data) al =
        ⟨.kOk, .message m, al₁.deleteReferencedData (.bytes data)⟩ := by
      simp only [convertToMessageIfNeeded, h₁, if_true]
    refine ⟨m, _, heq, hd, hfit₁.deleteReferencedData hb₁, ?_⟩
    rw [heq] at hkeep
    exact hkeep (by simp)
  | _ => exact hv.elim

theorem DstMap.messageOk (h : DstMap v m) (hv : MergeDst v) : MessageOk m := by
  cases v with
  | empty =>
    rw [show m = [] from h]
    exact MessageOk.nil
  | message m' =>
    rw [show m = m' from h]
    exact hv.1
  | bytes data => exact Decomposing.ok h
  | _ => exact hv.elim

theorem decomposedTo_not_mapped (h : DecomposedTo id fs o) (m : NodeMap) : o ≠ some (.mappedRepeatedField m) := by
  match fs with
  | [] => simp [show o = none from h]
  | [f] =>
    rw [show o = some (fieldValue f) from h]
    exact fun he => fieldValue_ne_mapped f m (Option.some.inj he)
  | f :: g :: fs =>
    obtain ⟨m', rfl, -⟩ := h
    simp

theorem slot_eq_some (h : slot m id = some v) : ∃ nid, (id, (⟨nid, v⟩ : Node)) ∈ m := by
  obtain ⟨⟨nid, w⟩, hn, rfl⟩ := Option.map_eq_some_iff.mp h
  exact ⟨nid, find_mem hn⟩

theorem DstMap.not_mapped (h : DstMap v m) (hv : MergeDst v) (id : ℕ) (es : NodeMap) :
    slot m id ≠ some (.mappedRepeatedField es) := by
  cases v with
  | empty => simp [show m = [] from h, slot]
  | message m' =>
    rw [show m = m' from h]
    intro hs
    obtain ⟨nid, hmem⟩ := slot_eq_some hs
    exact (hv.2 _ hmem).1 es rfl
  | bytes data => exact decomposedTo_not_mapped (Decomposing.slots h id) es
  | _ => exact hv.elim

/-- What the destination serializes to under an id is what its slot serializes to. -/
theorem DstMap.held (h : DstMap v m) (hv : MergeDst v) :
    ∃ before, serialize v = some before ∧ ∀ id, held id before = serializeSlot id (slot m id) := by
  cases v with
  | empty =>
    rw [show m = [] from h]
    exact ⟨[], rfl, fun id => rfl⟩
  | message m' =>
    rw [show m = m' from h]
    exact ⟨_, rfl, held_serializeMessage hv.1⟩
  | bytes data =>
    refine ⟨_, rfl, fun id => ?_⟩
    have hs := (Decomposing.slots h id).serializeSlot
      (fun f hf => readFields_wellTyped (List.mem_filter.mp hf).1) fun f hf => occurrencesIn_id hf
    rw [hs]
    simp [ProtoVm.held, Appended.heldUnder]
  | _ => exact hv.elim

/-! ### The law -/

/-- The slot is ready for `n` occurrences: a repeated field takes any number, unless an aborted merge has left
elements in it or holes under the keys it will use; anything else takes one. -/
def SlotReady (id : ℕ) (o : Option NodeValue) (n : ℕ) : Prop :=
  match o with
  | some (.indexedRepeatedField es merged) => merged = true → serializeElements id es = [] ∧ ¬ Collides es n
  | _ => n ≤ 1

theorem serializeSlot_resetMerged (m : NodeMap) (id : ℕ) :
    serializeSlot id (slot (m.map fun e => (e.1, (⟨e.2.id, e.2.value.resetMerged⟩ : Node))) id) =
      serializeSlot id (slot m id) := by
  induction m with
  | nil => rfl
  | cons e m ih =>
    obtain ⟨key, nid, v⟩ := e
    rw [slot, slot, List.map_cons, find_cons, find_cons]
    by_cases hk : key = id
    · rw [if_pos hk, if_pos hk]
      cases v <;> rfl
    · rw [if_neg hk, if_neg hk]
      exact ih

/-- What a slot serializes to after the loop, and whether that is the occurrences of the source. -/
theorem MergedTo.serializeSlot_iff {o' : Option NodeValue} (h : MergedTo o fs o') (hne : fs ≠ [])
    (hwt : ∀ f ∈ fs, f.WellTyped) (hids : ∀ f ∈ fs, f.id = id)
    (hsorted : ∀ es, o = some (.indexedRepeatedField es true) → Sorted es) :
    serializeSlot id o' = fs.map appendedField ↔ SlotReady id o fs.length := by
  obtain ⟨gs, f, rfl⟩ := (List.eq_nil_or_concat' fs).resolve_left hne
  have hsingle : o' = some (fieldValue f) →
      (serializeSlot id o' = (gs ++ [f]).map appendedField ↔ (gs ++ [f]).length ≤ 1) := by
    rintro rfl
    have hs : serializeSlot id (some (fieldValue f)) = [appendedField f] := by
      rw [← hids f (by simp)]
      exact serializeField_fieldValue (hwt f (by simp))
    rw [hs]
    constructor
    · intro he
      have hlen := congrArg List.length he
      rw [List.length_map] at hlen
      exact hlen.ge
    · intro hle
      have hnil : gs = [] := by
        rw [List.length_append, List.length_singleton] at hle
        exact List.eq_nil_of_length_eq_zero (by omega)
      rw [hnil]
      rfl
  rw [mergedTo_snoc] at h
  unfold SlotReady
  cases o with
  | none => exact hsingle h
  | some v =>
    cases v with
    | indexedRepeatedField es merged =>
      obtain ⟨m, rfl, hg⟩ := h
      show serializeElements id m = _ ↔ _
      cases merged with
      | false => exact iff_of_true (hg.serialized Sorted.nil rfl hwt hids).1 (by simp)
      | true =>
        constructor
        · intro he _
          have hcount := hg.count hwt hids
          rw [he, List.length_map, if_pos rfl] at hcount
          exact ⟨List.eq_nil_of_length_eq_zero (by omega), hg.not_collides⟩
        · exact fun hr => (hg.serialized (hsorted es rfl) (hr rfl).1 hwt hids).1
    | _ => exact hsingle h

/-- `Merge` worked: for every id of the source the destination holds its occurrences in the source, for every
other id what it held before. -/
def MergeWorks (v : NodeValue) (occurrences : ℕ → List Appended) (r : NodeResult) : Prop :=
  r.status = .kOk ∧ ∃ before after, serialize v = some before ∧ serialize r.value = some after ∧
    ∀ id, held id after = if occurrences id = [] then held id before else occurrences id

theorem mergeMessage_works_iff {src : List UInt8} {al₁ : Allocator} (hne : src ≠ []) (hv : MergeDst v)
    (hconv : convertToMessageIfNeeded v al = ⟨.kOk, .message m₀, al₁⟩) (hdst : DstMap v m₀)
    (hsorted : ∀ id es, slot m₀ id = some (.indexedRepeatedField es true) → Sorted es)
    (hfit : Fits al₁ (mergeFieldsNeed (readFields src) + n)) (hb : Balanced l (x + entriesCost m₀) al₁) :
    MergeWorks v (fun id => (occurrencesIn id (readFields src)).map appendedField) (mergeMessage v src false al) ↔
      ∀ id, occurrencesIn id (readFields src) ≠ [] →
        SlotReady id (slot m₀ id) (occurrencesIn id (readFields src)).length := by
  have hm₀ := hdst.messageOk hv
  have hwt : ∀ {id f}, f ∈ occurrencesIn id (readFields src) → f.WellTyped := fun hf =>
    readFields_wellTyped (List.mem_filter.mp hf).1
  have hready : ∀ {id}, occurrencesIn id (readFields src) ≠ [] → ∀ {o'},
      MergedTo (slot m₀ id) (occurrencesIn id (readFields src)) o' →
      (serializeSlot id o' = (occurrencesIn id (readFields src)).map appendedField ↔
        SlotReady id (slot m₀ id) (occurrencesIn id (readFields src)).length) := fun hocc _ hmt =>
    hmt.serializeSlot_iff hocc (fun f hf => hwt hf) (fun f hf => occurrencesIn_id hf) (hsorted _)
  obtain ⟨before, hbefore, hheld⟩ := hdst.held hv
  unfold mergeMessage
  simp only [if_neg hne, hconv, if_true]
  rcases (Merging.nil hm₀).mergeFields hfit hb (hdst.not_mapped hv) fun f hf => (readFields_wellTyped hf).id_lt with
    ⟨m, al₂, hloop, hmerging⟩ | ⟨hnull, f, hf, es, merged, hslot, hcol⟩
  · rw [List.nil_append] at hmerging
    simp only [hloop, if_true]
    have hok : MessageOk (m.map fun e => (e.1, (⟨e.2.id, e.2.value.resetMerged⟩ : Node))) :=
      hmerging.ok.of_keys (by simp)
    have hafter : ∀ id, held id (serializeMessage (m.map fun e => (e.1, (⟨e.2.id, e.2.value.resetMerged⟩ : Node)))) =
        serializeSlot id (slot m id) := fun id => by rw [held_serializeMessage hok, serializeSlot_resetMerged]
    constructor
    · rintro ⟨-, before', after', hb', ha', hlaw⟩ id hocc
      cases ha'
      have hid := hlaw id
      rw [if_neg (by simpa using hocc), hafter] at hid
      exact (hready hocc (hmerging.slots id)).mp hid
    · intro hall
      refine ⟨rfl, before, _, hbefore, rfl, fun id => ?_⟩
      rw [hafter]
      by_cases hocc : occurrencesIn id (readFields src) = []
      · have hslot := hmerging.slots id
        rw [hocc] at hslot
        rw [if_pos (by simpa using hocc), hheld, show slot m id = slot m₀ id from hslot]
      · rw [if_neg (by simpa using hocc)]
        exact (hready hocc (hmerging.slots id)).mpr (hall id hocc)
  · rw [List.nil_append] at hcol
    constructor
    · rintro ⟨hstatus, -⟩
      rw [if_neg (by rw [hnull]; decide)] at hstatus
      rw [hnull] at hstatus
      cases hstatus
    · intro hall
      have hocc : occurrencesIn f.id (readFields src) ≠ [] :=
        List.ne_nil_of_mem (List.mem_filter.mpr ⟨hf, by simp⟩)
      have hr := hall f.id hocc
      rw [hslot] at hr
      cases merged with
      | true => exact absurd hcol (hr rfl).2
      | false =>
        obtain ⟨i, -, htaken⟩ := hcol
        exact absurd rfl htaken

/-- The occurrences of an id in a source message. -/
def wireOccurrences (fs : List WireField) (id : ℕ) : List Appended := (fs.filter (·.id = id)).map appendedWire

/-- Whether the destination holds an id in a form that takes `n` occurrences of it: a repeated field, or two
occurrences in a blob. -/
def RepeatedInDst (v : NodeValue) (id n : ℕ) : Prop :=
  match v with
  | .bytes data => n ≤ 1 ∨ 2 ≤ (occurrencesIn id (readFields data)).length
  | .message m => SlotReady id (slot m id) n
  | _ => n ≤ 1

/-- Memory that merging takes at most. -/
def mergeNeed (v : NodeValue) (src : List UInt8) : ℕ := dstNeed v + mergeFieldsNeed (readFields src)

/-- A field a decoder returns, with an id and a length in its range. -/
structure Readable (f : WireField) : Prop where
  id_pos : 0 < f.id
  id_le : f.id ≤ Field.kMaxId
  length_le : ∀ b, f.value = .bytes b → b.length ≤ kMaxMessageLength

theorem Readable.id_lt {f : WireField} (h : Readable f) : f.id < 2 ^ 32 := by
  have hle := h.id_le
  unfold Field.kMaxId at hle
  omega

theorem Readable.accepted {f : WireField} (h : Readable f) : Field.Accepted f := by
  refine ⟨by rw [Nat.mod_eq_of_lt h.id_lt]; exact h.id_le, ?_⟩
  unfold Field.ofWire
  cases hv : f.value with
  | bytes b => exact h.length_le b hv
  | _ => exact Nat.zero_le _

theorem Readable.appended {f : WireField} (h : Readable f) : appendedField (Field.ofWire f) = appendedWire f := by
  unfold Field.ofWire appendedWire appendedField
  rw [Nat.mod_eq_of_lt h.id_lt]
  cases f.value <;> rfl

theorem occurrences_encoded {src : List UInt8} {fs : List WireField} (hsrc : EncodesMessage src fs)
    (hfs : ∀ f ∈ fs, Readable f) (id : ℕ) :
    occurrencesIn id (readFields src) = (fs.filter (·.id = id)).map Field.ofWire := by
  have hread : readFields src = fs.map Field.ofWire := by
    refine readFields_encoded hsrc (fun f hf => ?_) fun f hf => (hfs f hf).accepted
    rw [Nat.mod_eq_of_lt (hfs f hf).id_lt]
    exact (hfs f hf).id_pos.ne'
  rw [hread, occurrencesIn, List.filter_map]
  congr 1
  refine List.filter_congr fun f hf => ?_
  rw [Function.comp_apply, Field.ofWire_id, Nat.mod_eq_of_lt (hfs f hf).id_lt]

theorem slotReady_decomposed (h : DecomposedTo id fs o) (n : ℕ) : SlotReady id o n ↔ n ≤ 1 ∨ 2 ≤ fs.length := by
  match fs with
  | [] => simp [show o = none from h, SlotReady]
  | [f] =>
    rw [show o = some (fieldValue f) from h]
    unfold SlotReady fieldValue
    split_ifs <;> simp
  | f :: g :: fs =>
    obtain ⟨m, rfl, -⟩ := h
    simp [SlotReady]

theorem DstMap.slotReady_iff (h : DstMap v m) (hv : MergeDst v) (id n : ℕ) :
    SlotReady id (slot m id) n ↔ RepeatedInDst v id n := by
  cases v with
  | empty => simp [show m = [] from h, slot, SlotReady, RepeatedInDst]
  | message m' => rw [show m = m' from h, RepeatedInDst]
  | bytes data => exact slotReady_decomposed (Decomposing.slots h id) n
  | _ => exact hv.elim

theorem DstMap.sorted (h : DstMap v m) (hv : MergeDst v) {es : NodeMap}
    (hs : slot m id = some (.indexedRepeatedField es true)) : Sorted es := by
  cases v with
  | empty => simp [show m = [] from h, slot] at hs
  | message m' =>
    rw [show m = m' from h] at hs
    obtain ⟨nid, hmem⟩ := slot_eq_some hs
    exact (hv.2 _ hmem).2 es true rfl
  | bytes data =>
    have hd := Decomposing.slots h id
    rw [hs] at hd
    rcases hocc : occurrencesIn id (readFields data) with _ | ⟨f, _ | ⟨g, fs⟩⟩
    · simp [hocc, DecomposedTo] at hd
    · rw [hocc] at hd
      exact absurd (Option.some.inj hd).symm (fieldValue_ne_indexed f es true)
    · rw [hocc] at hd
      obtain ⟨m', hm', -⟩ := hd
      cases hm'
  | _ => exact hv.elim

theorem encodesMessage_nil {fs : List WireField} (h : EncodesMessage [] fs) : fs = [] := by
  generalize hbs : ([] : List UInt8) = bs at h
  cases h with
  | nil => rfl
  | cons hf _ => exact absurd (List.append_eq_nil_iff.mp hbs.symm).1 hf.ne_nil

/-- With enough memory, `Merge` writes exactly the source's occurrences of every id of the source and leaves every
other id alone if and only if every id of the source is ready in the destination: it occurs once, or is a
repeated field there. -/
theorem merge_law_iff {v : NodeValue} {src : List UInt8} {fs : List WireField} {al : Allocator}
    (hsrc : EncodesMessage src fs) (hfs : ∀ f ∈ fs, Readable f) (hv : MergeDst v)
    (hcost : v.cost ≤ al.usedMemoryBytes) (hfit : Fits al (mergeNeed v src)) :
    MergeWorks v (wireOccurrences fs) (merge v src false al) ↔
      ∀ f ∈ fs, RepeatedInDst v f.id (wireOccurrences fs f.id).length := by
  have hb : Balanced ⟨al.memoryLimitBytes, False⟩ (al.usedMemoryBytes - v.cost + v.cost) al := by
    obtain ⟨h1, h2⟩ := hfit
    exact ⟨by omega, rfl, by omega, by omega, False.elim⟩
  obtain ⟨m₀, al₁, hconv, hdst, hfit₁, hb₁⟩ := Fits.convertToMessage hv hfit hb
  have hmerge : merge v src false al = mergeMessage v src false al := by
    cases v with
    | empty => rfl
    | bytes d => rfl
    | message m => rfl
    | _ => exact hv.elim
  have hocc : ∀ id, (occurrencesIn id (readFields src)).map appendedField = wireOccurrences fs id := fun id => by
    rw [occurrences_encoded hsrc hfs, List.map_map, wireOccurrences]
    exact List.map_congr_left fun f hf => (hfs f (List.mem_filter.mp hf).1).appended
  rw [hmerge]
  by_cases hne : src = []
  · subst hne
    obtain rfl := encodesMessage_nil hsrc
    obtain ⟨before, hbefore, -⟩ := hdst.held hv
    refine iff_of_true ⟨by simp [mergeMessage], before, before, hbefore, ?_, fun id => ?_⟩ (by simp)
    · simpa [mergeMessage] using hbefore
    · simp [wireOccurrences]
  have hfit₂ : Fits al₁ (mergeFieldsNeed (readFields src) + 0) := hfit₁
  have hworks := mergeMessage_works_iff hne hv hconv hdst (fun id es => hdst.sorted hv) hfit₂ hb₁
  rw [show (fun id => (occurrencesIn id (readFields src)).map appendedField) = wireOccurrences fs from
    funext hocc] at hworks
  rw [hworks]
  have hlen : ∀ id, (occurrencesIn id (readFields src)).length = (wireOccurrences fs id).length := fun id => by
    rw [← hocc, List.length_map]
  constructor
  · intro h f hf
    rw [← hdst.slotReady_iff hv, ← hlen]
    refine h f.id ?_
    rw [occurrences_encoded hsrc hfs]
    exact List.ne_nil_of_mem (List.mem_map_of_mem (List.mem_filter.mpr ⟨hf, by simp⟩))
  · intro h id hne
    rw [occurrences_encoded hsrc hfs] at hne
    have hfilter : fs.filter (fun f => decide (f.id = id)) ≠ [] := fun hnil => hne (by rw [hnil, List.map_nil])
    obtain ⟨f, hf⟩ := List.exists_mem_of_ne_nil _ hfilter
    obtain ⟨hf, hid⟩ := List.mem_filter.mp hf
    have hr := h f hf
    rw [show f.id = id by simpa using hid] at hr
    rw [hdst.slotReady_iff hv, hlen]
    exact hr

/-- Two occurrences of field 1 merged into an empty node. -/
def twiceField : List WireField := [⟨1, .varint 1⟩, ⟨1, .varint 2⟩]

theorem encodes_twiceField : EncodesMessage [8, 1, 8, 2] twiceField := by
  have h1 : EncodesField ([8] ++ [1]) ⟨1, .varint 1⟩ := .mk ⟨8, rfl, rfl⟩ (.varint ⟨1, rfl, rfl⟩)
  have h2 : EncodesField ([8] ++ [2]) ⟨1, .varint 2⟩ := .mk ⟨8, rfl, rfl⟩ (.varint ⟨2, rfl, rfl⟩)
  exact EncodesMessage.cons h1 (EncodesMessage.cons h2 .nil)

theorem readable_twiceField : ∀ f ∈ twiceField, Readable f := by
  intro f hf
  have hv : f = ⟨1, .varint 1⟩ ∨ f = ⟨1, .varint 2⟩ := by simpa [twiceField] using hf
  rcases hv with rfl | rfl
  · exact ⟨by decide, by decide, by simp⟩
  · exact ⟨by decide, by decide, by simp⟩

/-- A destination that holds field 1 as a repeated field takes both occurrences. -/
theorem merge_repeatedField : MergeWorks (.message [(1, ⟨0, .indexedRepeatedField [(0, ⟨1, .empty⟩)] false⟩)])
    (wireOccurrences twiceField)
    (merge (.message [(1, ⟨0, .indexedRepeatedField [(0, ⟨1, .empty⟩)] false⟩)]) [8, 1, 8, 2] false
      { memoryLimitBytes := 4096, usedMemoryBytes := 224 }) := by
  set v : NodeValue := .message [(1, ⟨0, .indexedRepeatedField [(0, ⟨1, .empty⟩)] false⟩)] with hv
  set al : Allocator := { memoryLimitBytes := 4096, usedMemoryBytes := 224 }
  have hdst : MergeDst v := by
    refine ⟨⟨by simp [Sorted], by simp⟩, fun e he => ?_⟩
    obtain rfl := List.mem_singleton.mp he
    refine ⟨by simp, fun es b he => ?_⟩
    cases he
    simp [Sorted]
  have hcost : v.cost ≤ al.usedMemoryBytes := by decide
  have hfit : Fits al (mergeNeed v [8, 1, 8, 2]) := ⟨by decide, by decide⟩
  refine (merge_law_iff encodes_twiceField readable_twiceField hdst hcost hfit).mpr fun f hf => ?_
  have hid : f.id = 1 := by
    have hor : f = ⟨1, .varint 1⟩ ∨ f = ⟨1, .varint 2⟩ := by simpa [twiceField] using hf
    rcases hor with rfl | rfl <;> rfl
  rw [hid, hv]
  exact fun hmerged => absurd hmerged (by simp)

/-- The first occurrence is lost. -/
theorem merge_drops_occurrence : EncodesMessage [8, 1, 8, 2] twiceField ∧ MergeDst .empty ∧
    serialize (merge .empty [8, 1, 8, 2] false { memoryLimitBytes := 4096 }).value = some [.varInt 1 2] ∧
    ¬ MergeWorks .empty (wireOccurrences twiceField)
      (merge .empty [8, 1, 8, 2] false { memoryLimitBytes := 4096 }) := by
  have hser : serialize (merge .empty [8, 1, 8, 2] false { memoryLimitBytes := 4096 }).value =
      some [.varInt 1 2] := by rfl
  refine ⟨encodes_twiceField, trivial, hser, ?_⟩
  rintro ⟨-, before, after, -, hafter, hlaw⟩
  rw [hser] at hafter
  cases hafter
  have h1 := hlaw 1
  simp [wireOccurrences, twiceField, appendedWire, held, Appended.heldUnder] at h1

end LynxTrace.ProtoVm
