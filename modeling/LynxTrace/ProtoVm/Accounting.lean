import LynxTrace.ProtoVm.NodeOps

/-!
# ProtoVm.Accounting — the counter of the allocator and what a node operation owns

`Balanced l x al` says that the counter covers `x` bytes and stays within its bounds.  Every operation is given a
rule in terms of it: what it allocates is added to `x`, what it deletes is taken off, so that an operation on a
node is balanced if it turns `Balanced l (x + v.cost) al` into `Balanced l (x + v'.cost) al'` for any `x` the rest
of the tree may cost.  The counter is exactly `x` as long as no recorded event drops a node
(`NodeEvent.Benign`), and above `x` from the first one that does.
-/

namespace LynxTrace.ProtoVm

open LynxTrace.Protozero IntrusiveTree

/-- The node operation keeps hold of all it had in hand. -/
def NodeEvent.Benign : NodeEvent → Prop
  | .resetUnheld v => v.cost = 0
  | .rekey mapKeyFieldId entries =>
    ∃ keys : List ℕ, entries.map (fun e => readScalarField e.2.value mapKeyFieldId) = keys.map some ∧ keys.Nodup
  | .mergeField dst => ∀ m, dst ≠ .mappedRepeatedField m

/-- What is known of an allocator from its past: its limit, and whether its log tells all that has been dropped. -/
structure Ledger where
  memoryLimitBytes : ℕ
  logged : Prop

/-- The counter covers `x`, within its bounds; with a complete log, it is `x` unless an event has dropped something. -/
structure Balanced (l : Ledger) (x : ℕ) (al : Allocator) : Prop where
  covers : x ≤ al.usedMemoryBytes
  limitBytes : al.memoryLimitBytes = l.memoryLimitBytes
  limit : al.usedMemoryBytes ≤ al.memoryLimitBytes
  space : al.usedMemoryBytes ≤ addressSpace
  exact : l.logged → (al.usedMemoryBytes = x ↔ ∀ e ∈ al.trace, e.Benign)

variable {l : Ledger}

/-! ### Allocator rules -/

variable {size x key : ℕ} {al al' : Allocator}

theorem Allocator.reserve_eq_some (h : al.reserve size = some al') :
    al' = { al with usedMemoryBytes := al.usedMemoryBytes + size } ∧
      al.usedMemoryBytes + size ≤ al.memoryLimitBytes ∧ al.usedMemoryBytes + size ≤ addressSpace := by
  unfold Allocator.reserve at h
  by_cases h1 : al.grown size > al.memoryLimitBytes
  · simp [h1] at h
  rw [if_neg h1] at h
  by_cases h2 : al.usedMemoryBytes + size > addressSpace
  · simp [h2] at h
  rw [if_neg h2] at h
  cases h
  have hg : al.grown size = al.usedMemoryBytes + size := by
    unfold Allocator.grown addressSpace at *
    omega
  rw [hg] at h1 ⊢
  exact ⟨rfl, by omega, by omega⟩

/-- The allocator after giving back bytes that are on its counter. -/
def Allocator.lessened (al : Allocator) (size : ℕ) : Allocator :=
  { al with usedMemoryBytes := al.usedMemoryBytes - size }

@[simp] theorem Allocator.lessened_used (al : Allocator) (size : ℕ) :
    (al.lessened size).usedMemoryBytes = al.usedMemoryBytes - size := rfl

theorem Allocator.lessened_lessened (al : Allocator) (m n : ℕ) :
    (al.lessened m).lessened n = al.lessened (m + n) := by
  unfold lessened
  rw [Nat.sub_sub]

theorem Allocator.release_eq (hc : size ≤ al.usedMemoryBytes) (hs : al.usedMemoryBytes ≤ addressSpace) :
    al.release size = al.lessened size := by
  unfold Allocator.release lessened addressSpace at *
  congr 1
  omega

mutual

/-- Deleting what a value refers to takes its cost off the counter and changes nothing else. -/
theorem Allocator.deleteReferencedData_eq : (v : NodeValue) → ∀ {al : Allocator},
    v.cost ≤ al.usedMemoryBytes → al.usedMemoryBytes ≤ addressSpace →
    al.deleteReferencedData v = al.lessened v.cost
  | .bytes _, _, hc, hs => release_eq hc hs
  | .empty, _, _, _ => rfl
  | .indexedRepeatedField m _, _, hc, hs => Allocator.deleteEntries_eq m hc hs
  | .mappedRepeatedField m, _, hc, hs => Allocator.deleteEntries_eq m hc hs
  | .message m, _, hc, hs => Allocator.deleteEntries_eq m hc hs
  | .scalar _, _, _, _ => rfl

theorem Allocator.deleteEntries_eq : (m : List (ℕ × Node)) → ∀ {al : Allocator},
    entriesCost m ≤ al.usedMemoryBytes → al.usedMemoryBytes ≤ addressSpace →
    al.deleteEntries m = al.lessened (entriesCost m)
  | [], _, _, _ => rfl
  | (k, ⟨id, v⟩) :: m, al, hc, hs => by
    rw [entriesCost] at hc
    have h₁ := Allocator.deleteReferencedData_eq v (show v.cost ≤ al.usedMemoryBytes by omega) hs
    have h₂ : (al.lessened v.cost).release sizeofNode = (al.lessened v.cost).lessened sizeofNode :=
      release_eq (by rw [lessened_used]; omega) (by rw [lessened_used]; omega)
    have h₃ : (al.lessened (v.cost + sizeofNode)).release sizeofNode =
        (al.lessened (v.cost + sizeofNode)).lessened sizeofNode :=
      release_eq (by rw [lessened_used]; omega) (by rw [lessened_used]; omega)
    have h₄ : (al.lessened (v.cost + sizeofNode + sizeofNode)).deleteEntries m =
        (al.lessened (v.cost + sizeofNode + sizeofNode)).lessened (entriesCost m) :=
      Allocator.deleteEntries_eq m (by rw [lessened_used]; omega) (by rw [lessened_used]; omega)
    rw [Allocator.deleteEntries, h₁, h₂, lessened_lessened, h₃, lessened_lessened, h₄, lessened_lessened,
      entriesCost]
    congr 1
    omega

end

theorem Balanced.reserve (h : Balanced l x al) (hr : al.reserve size = some al') : Balanced l (x + size) al' := by
  obtain ⟨rfl, hlim, hspace⟩ := Allocator.reserve_eq_some hr
  exact ⟨Nat.add_le_add_right h.covers size, h.limitBytes, hlim, hspace, fun hp => Nat.add_right_cancel_iff.trans (h.exact hp)⟩

/-- Taking a part of what the counter covers off the counter. -/
theorem Balanced.sub (h : Balanced l (x + size) al) : Balanced l x (al.lessened size) := by
  have hc := h.covers
  have hl := h.limit
  have hs := h.space
  refine ⟨?_, h.limitBytes, ?_, ?_, fun hp => Iff.trans ?_ (h.exact hp)⟩
  · show x ≤ al.usedMemoryBytes - size
    omega
  · show al.usedMemoryBytes - size ≤ al.memoryLimitBytes
    omega
  · show al.usedMemoryBytes - size ≤ addressSpace
    omega
  · show al.usedMemoryBytes - size = x ↔ al.usedMemoryBytes = x + size
    omega

theorem Balanced.release (h : Balanced l (x + size) al) : Balanced l x (al.release size) := by
  have hc := h.covers
  rw [Allocator.release_eq (by omega) h.space]
  exact h.sub

theorem Balanced.deleteReferencedData (v : NodeValue) (h : Balanced l (x + v.cost) al) :
    Balanced l x (al.deleteReferencedData v) := by
  have hc := h.covers
  rw [Allocator.deleteReferencedData_eq v (by omega) h.space]
  exact h.sub

theorem Balanced.deleteEntries (m : NodeMap) (h : Balanced l (x + entriesCost m) al) :
    Balanced l x (al.deleteEntries m) := by
  have hc := h.covers
  rw [Allocator.deleteEntries_eq m (by omega) h.space]
  exact h.sub

theorem Balanced.record (h : Balanced l x al) {e : NodeEvent} (he : e.Benign) : Balanced l x (al.record e) :=
  ⟨h.covers, h.limitBytes, h.limit, h.space, fun hp => (h.exact hp).trans (by simp [Allocator.record, he])⟩

/-- What an event drops stays on the counter, which is above what it covers from then on. -/
theorem Balanced.drop {y : ℕ} (h : Balanced l y al) (hlt : x < y) {e : NodeEvent} (he : ¬ e.Benign) :
    Balanced l x (al.record e) := by
  have hc := h.covers
  refine ⟨hlt.le.trans hc, h.limitBytes, h.limit, h.space, fun _ => ⟨fun heq => ?_, fun hb => absurd (hb e List.mem_cons_self) he⟩⟩
  have hx : al.usedMemoryBytes = x := heq
  omega

theorem Balanced.createNode {id : ℕ} (h : Balanced l x al) (hc : al.createNode = some (id, al')) :
    Balanced l (x + sizeofNode) al' := by
  unfold Allocator.createNode at hc
  obtain ⟨al₁, h₁, heq⟩ := Option.map_eq_some_iff.mp hc
  cases heq
  have h' : Balanced l (x + sizeofNode) al₁ := h.reserve h₁
  exact ⟨h'.covers, h'.limitBytes, h'.limit, h'.space, h'.exact⟩

variable {n : Node}

theorem Balanced.delete (h : Balanced l (x + n.cost) al) : Balanced l x (al.delete n) := by
  rw [Node.cost, ← Nat.add_assoc] at h
  exact (Balanced.deleteReferencedData n.value h).release

theorem Balanced.deleteEntry (h : Balanced l (x + entryCost n) al) : Balanced l x (al.deleteEntry n) := by
  rw [entryCost, ← Nat.add_assoc] at h
  exact h.delete.release

/-! ### Map operations -/

variable {m message : NodeMap}

theorem entriesCost_insert (h : find m key = none) (n : Node) :
    entriesCost (insert m key n) = entriesCost m + entryCost n := by
  rw [entriesCost_eq, entriesCost_eq, weight_insert entryCost h]

theorem entriesCost_set (h : find m key = some n) (n' : Node) :
    entriesCost (set m key n') + n.cost = entriesCost m + n'.cost := by
  have hw := weight_set entryCost h n'
  rw [entriesCost_eq, entriesCost_eq]
  unfold entryCost at hw ⊢
  omega

theorem entriesCost_remove (h : find m key = some n) : entriesCost (remove m key) + entryCost n = entriesCost m := by
  rw [entriesCost_eq, entriesCost_eq]
  exact weight_remove entryCost h

/-- `MapInsert` takes over the value node: it is in the map or deleted. -/
theorem Balanced.mapInsert (h : Balanced l (x + entriesCost m + n.cost) al)
    (hs : (mapInsert m key n al).status ≠ .nullNode) :
    Balanced l (x + entriesCost (mapInsert m key n al).map) (mapInsert m key n al).alloc := by
  unfold ProtoVm.mapInsert at hs ⊢
  cases hc : al.createNode with
  | none => exact h.delete
  | some r =>
    obtain ⟨id, al'⟩ := r
    cases hf : find m key with
    | some n' => simp [hc, hf] at hs
    | none =>
      have h' := h.createNode hc
      simp only [entriesCost_insert hf]
      unfold entryCost
      convert h' using 1
      omega

theorem Balanced.createNodeFromField (h : Balanced l x al) (field : Field) :
    Balanced l (x + ((createNodeFromField field al).1.map Node.cost).getD 0) (createNodeFromField field al).2 := by
  unfold ProtoVm.createNodeFromField Allocator.allocateAndCopyBytes
  by_cases ht : field.type = .kLengthDelimited
  · simp only [if_pos ht]
    cases hr : al.reserve field.data.length with
    | none => exact h
    | some al₁ =>
      have h₁ := h.reserve hr
      simp only
      cases hc : al₁.createNode with
      | none => exact h₁.release
      | some r =>
        obtain ⟨id, al₂⟩ := r
        have h₂ := h₁.createNode hc
        simp only [Option.map_some, Option.getD_some, Node.cost_mk, NodeValue.cost]
        convert h₂ using 1
        omega
  · simp only [if_neg ht]
    cases hc : al.createNode with
    | none => exact h
    | some r =>
      obtain ⟨id, al₂⟩ := r
      exact h.createNode hc

/-! ### Conversions -/

/-- The operation keeps the counter in step with what the node refers to, whatever the rest of the tree costs. -/
def NodeResult.Keeps (l : Ledger) (r : NodeResult) (v : NodeValue) (al : Allocator) : Prop :=
  ∀ x, Balanced l (x + v.cost) al → r.status ≠ .nullNode → Balanced l (x + r.value.cost) r.alloc

theorem NodeResult.Keeps.same {s : OpStatus} (v : NodeValue) (al : Allocator) :
    (NodeResult.mk s v al).Keeps l v al := fun _ h _ => h

theorem moveIntoMap_keeps (key : ℕ) (v : NodeValue) (al : Allocator) {wrap : NodeMap → NodeValue}
    (hw : ∀ m, (wrap m).cost = entriesCost m) : (moveIntoMap key v al wrap).Keeps l v al := by
  intro x h hs
  unfold moveIntoMap at hs ⊢
  cases hc : al.createNode with
  | none => exact h
  | some r =>
    obtain ⟨id, al₁⟩ := r
    simp only [hc, hw] at hs ⊢
    have h₁ : Balanced l (x + entriesCost [] + (Node.mk id v).cost) al₁ := by
      convert h.createNode hc using 1
      rw [entriesCost, Node.cost_mk]
      omega
    exact h₁.mapInsert hs

theorem convertToIndexedRepeatedFieldIfNeeded_keeps (v : NodeValue) (al : Allocator) :
    (convertToIndexedRepeatedFieldIfNeeded v al).Keeps l v al := by
  cases v with
  | indexedRepeatedField m b => exact .same _ al
  | mappedRepeatedField m => exact .same _ al
  | empty => exact fun x h _ => h
  | bytes d | message m | scalar s => exact moveIntoMap_keeps 0 _ al fun m => rfl

/-- Rewriting one entry of a map is balanced if it is on the value of the entry. -/
theorem Balanced.set {extra : ℕ} {it : Node} {w : NodeValue} (hf : find m key = some it)
    (h : Balanced l (x + entriesCost m + extra) al)
    (hop : ∀ y, Balanced l (y + it.value.cost + extra) al → Balanced l (y + w.cost) al') :
    Balanced l (x + entriesCost (set m key ⟨it.id, w⟩)) al' := by
  have hset := entriesCost_set hf ⟨it.id, w⟩
  have hle := entriesCost_set hf ⟨it.id, .empty⟩
  simp only [Node.cost, NodeValue.cost] at hset hle
  obtain ⟨c, hc⟩ : ∃ c, entriesCost m = c + it.value.cost :=
    Nat.exists_eq_add_of_le' (by omega)
  have hy := hop (x + c) (by
    convert h using 1
    omega)
  convert hy using 1
  omega

theorem Balanced.appendOccurrence {v : NodeValue} (h : Balanced l (x + v.cost + n.cost) al)
    (hs : (appendOccurrence v n al).status ≠ .nullNode) :
    Balanced l (x + (appendOccurrence v n al).value.cost) (appendOccurrence v n al).alloc := by
  unfold ProtoVm.appendOccurrence at hs ⊢
  have hk := convertToIndexedRepeatedFieldIfNeeded_keeps v al (x + n.cost) (by
    convert h using 1
    omega)
  set r := convertToIndexedRepeatedFieldIfNeeded v al
  by_cases hok : r.status = .kOk
  · have hk := hk (by rw [hok]; decide)
    simp only [if_pos hok] at hs ⊢
    cases hv : r.value with
    | indexedRepeatedField m b =>
      simp only [hv] at hs hk ⊢
      refine Balanced.mapInsert ?_ hs
      convert hk using 1
      simp only [NodeValue.cost]
      omega
    | _ => simp [hv] at hs
  · simp only [if_neg hok] at hs ⊢
    have hk := hk hs
    refine Balanced.delete ?_
    convert hk using 1
    omega

theorem Balanced.addOccurrence {fieldId : ℕ} (h : Balanced l (x + entriesCost message + n.cost) al)
    (hs : (addOccurrence message fieldId n al).status ≠ .nullNode) :
    Balanced l (x + entriesCost (addOccurrence message fieldId n al).map)
      (addOccurrence message fieldId n al).alloc := by
  unfold ProtoVm.addOccurrence at hs ⊢
  cases hfind : find message fieldId with
  | none =>
    simp only [hfind] at hs ⊢
    exact Balanced.mapInsert h hs
  | some it =>
    simp only [hfind] at hs ⊢
    exact Balanced.set hfind h fun y hy => Balanced.appendOccurrence hy hs

theorem decompose_map_of_not_ok {fields : List Field} (h : (decompose fields message al).status ≠ .kOk) :
    (decompose fields message al).map = [] := by
  induction fields generalizing message al with
  | nil => exact absurd rfl h
  | cons field fields ih =>
    rw [decompose] at h ⊢
    rcases hcf : createNodeFromField field al with ⟨_ | mapValue, al₁⟩
    · rfl
    simp only [hcf] at h ⊢
    by_cases hok : (addOccurrence message field.id mapValue al₁).status = .kOk
    · rw [if_pos hok] at h ⊢
      exact ih h
    · rw [if_neg hok]

/-- The local message of `ConvertToMessageIfNeeded` owns what was decomposed so far. -/
theorem Balanced.decompose {fields : List Field} (h : Balanced l (x + entriesCost message) al)
    (hs : (decompose fields message al).status ≠ .nullNode) :
    Balanced l (x + entriesCost (decompose fields message al).map) (decompose fields message al).alloc := by
  induction fields generalizing message al with
  | nil => exact h
  | cons field fields ih =>
    rw [ProtoVm.decompose] at hs ⊢
    have hf := Balanced.createNodeFromField h field
    rcases hcf : ProtoVm.createNodeFromField field al with ⟨_ | mapValue, al₁⟩
    · rw [hcf] at hf
      exact Balanced.deleteEntries message hf
    rw [hcf] at hf
    simp only [hcf] at hs ⊢
    by_cases hok : (ProtoVm.addOccurrence message field.id mapValue al₁).status = .kOk
    · rw [if_pos hok] at hs ⊢
      exact ih (Balanced.addOccurrence hf (by rw [hok]; decide)) hs
    · rw [if_neg hok] at hs ⊢
      exact Balanced.deleteEntries _ (Balanced.addOccurrence hf hs)

theorem convertToMessageIfNeeded_keeps (v : NodeValue) (al : Allocator) :
    (convertToMessageIfNeeded v al).Keeps l v al := by
  cases v with
  | message m => exact .same _ al
  | empty => exact fun x h _ => h
  | indexedRepeatedField m b => exact .same _ al
  | mappedRepeatedField m => exact .same _ al
  | scalar s => exact .same _ al
  | bytes data =>
    intro x h hs
    unfold convertToMessageIfNeeded at hs ⊢
    simp only at hs ⊢
    have hd : (decompose (readFields data) [] al).status ≠ .nullNode →
        Balanced l (x + data.length + entriesCost (decompose (readFields data) [] al).map)
          (decompose (readFields data) [] al).alloc := Balanced.decompose h
    by_cases hok : (decompose (readFields data) [] al).status = .kOk
    · simp only [if_pos hok]
      refine Balanced.deleteReferencedData (.bytes data) ?_
      convert hd (by rw [hok]; decide) using 1
      simp only [NodeValue.cost]
      omega
    · simp only [if_neg hok] at hs ⊢
      rw [decompose_map_of_not_ok hok] at hd
      exact hd hs

/-! ### Re-keying -/

/-- With readable and distinct keys every entry moves over to the mapped repeated field. -/
theorem rekey_cost (mapKeyFieldId : ℕ) (b : Bool) {entries : NodeMap} {keys : List ℕ}
    (hkeys : entries.map (fun e => readScalarField e.2.value mapKeyFieldId) = keys.map some)
    (hnodup : keys.Nodup) {acc : NodeMap} (hacc : ∀ k ∈ keys, find acc k = none) :
    (rekey mapKeyFieldId b entries acc).2.cost = entriesCost entries + entriesCost acc := by
  induction entries generalizing keys acc with
  | nil => simp [rekey, NodeValue.cost, entriesCost]
  | cons e entries ih =>
    obtain ⟨k, n⟩ := e
    cases keys with
    | nil => simp at hkeys
    | cons key keys =>
      obtain ⟨hkey, hrest⟩ := List.cons.inj hkeys
      obtain ⟨hnew, hnodup⟩ := List.nodup_cons.mp hnodup
      have hfree : find acc key = none := hacc key (by simp)
      have hkey' : readScalarField n.value mapKeyFieldId = some key := hkey
      simp only [rekey, hkey']
      rw [ih hrest hnodup, entriesCost_insert hfree]
      · obtain ⟨id, v⟩ := n
        rw [entriesCost, entryCost, Node.cost_mk]
        omega
      · intro k' hk'
        have hne : key ≠ k' := fun heq => hnew (heq ▸ hk')
        rw [find_insert_ne hne]
        exact hacc k' (by simp [hk'])

theorem rekey_cost_le (mapKeyFieldId : ℕ) (b : Bool) (entries acc : NodeMap) :
    (rekey mapKeyFieldId b entries acc).2.cost ≤ entriesCost entries + entriesCost acc := by
  induction entries generalizing acc with
  | nil => simp [rekey, NodeValue.cost]
  | cons e entries ih =>
    obtain ⟨k, id, v⟩ := e
    rw [entriesCost, rekey]
    cases readScalarField v mapKeyFieldId with
    | none =>
      simp only [NodeValue.cost]
      omega
    | some key =>
      refine (ih _).trans ?_
      have hi : entriesCost (insert acc key ⟨id, v⟩) ≤ entriesCost acc + entryCost ⟨id, v⟩ := by
        rw [entriesCost_eq, entriesCost_eq]
        exact weight_insert_le entryCost acc key _
      rw [entryCost, Node.cost_mk] at hi
      omega

/-- Nothing is lost on the way only if the keys are readable and distinct. -/
theorem keys_of_rekey_cost (mapKeyFieldId : ℕ) (b : Bool) {entries acc : NodeMap} (hacc : Sorted acc)
    (h : (rekey mapKeyFieldId b entries acc).2.cost = entriesCost entries + entriesCost acc) :
    ∃ keys : List ℕ, entries.map (fun e => readScalarField e.2.value mapKeyFieldId) = keys.map some ∧ keys.Nodup ∧
      ∀ k ∈ keys, find acc k = none := by
  induction entries generalizing acc with
  | nil => exact ⟨[], rfl, List.nodup_nil, by simp⟩
  | cons e entries ih =>
    obtain ⟨k, id, v⟩ := e
    rw [entriesCost, rekey] at h
    cases hread : readScalarField v mapKeyFieldId with
    | none =>
      simp only [hread, NodeValue.cost, sizeofNode] at h
      omega
    | some key =>
      simp only [hread] at h
      have hle := rekey_cost_le mapKeyFieldId b entries (insert acc key ⟨id, v⟩)
      cases hf : find acc key with
      | some n =>
        -- an entry whose key is taken is lost
        rw [hacc.insert_of_find hf] at h hle
        rw [sizeofNode] at h
        omega
      | none =>
        have hins := entriesCost_insert hf ⟨id, v⟩
        rw [entryCost, Node.cost_mk] at hins
        obtain ⟨keys, hkeys, hnodup, hfree⟩ := ih (hacc.insert key ⟨id, v⟩) (by omega)
        have hne : ∀ k' ∈ keys, key ≠ k' := by
          rintro k' hk' rfl
          have hk := hfree key hk'
          rw [find_insert_self hf] at hk
          cases hk
        refine ⟨key :: keys, by simp [hread, hkeys], List.nodup_cons.mpr ⟨fun hk => hne key hk rfl, hnodup⟩, ?_⟩
        intro k' hk'
        rcases List.mem_cons.mp hk' with rfl | hk'
        · exact hf
        · have hk := hfree k' hk'
          rwa [find_insert_ne (hne k' hk')] at hk

theorem rekey_benign_iff (mapKeyFieldId : ℕ) (b : Bool) (m : NodeMap) :
    (rekey mapKeyFieldId b m []).2.cost = entriesCost m ↔ (NodeEvent.rekey mapKeyFieldId m).Benign := by
  constructor
  · intro h
    obtain ⟨keys, hkeys, hnodup, -⟩ := keys_of_rekey_cost mapKeyFieldId b (Sorted.nil : Sorted ([] : NodeMap)) h
    exact ⟨keys, hkeys, hnodup⟩
  · rintro ⟨keys, hkeys, hnodup⟩
    exact rekey_cost mapKeyFieldId b hkeys hnodup fun k _ => find_nil k

theorem movedUnderKey_keeps (v : NodeValue) (mapKeyFieldId : ℕ) (al : Allocator) :
    NodeResult.Keeps l (match readScalarField v mapKeyFieldId with
      | none => ⟨.kAbort, v, al⟩
      | some key => moveIntoMap key v al .mappedRepeatedField) v al := by
  cases readScalarField v mapKeyFieldId with
  | none => exact .same v al
  | some key => exact moveIntoMap_keeps key v al fun m => rfl

theorem convertToMappedRepeatedFieldIfNeeded_keeps (v : NodeValue) (mapKeyFieldId : ℕ) (al : Allocator) :
    (convertToMappedRepeatedFieldIfNeeded v mapKeyFieldId al).Keeps l v al := by
  have hmessage := fun v => movedUnderKey_keeps (l := l) v mapKeyFieldId al
  cases v with
  | mappedRepeatedField m => exact .same _ al
  | empty => exact fun x h _ => h
  | bytes d => exact hmessage (.bytes d)
  | message m => exact hmessage (.message m)
  | scalar s => exact .same _ al
  | indexedRepeatedField m b =>
    intro x h _
    have hle : (rekey mapKeyFieldId b m []).2.cost ≤ entriesCost m := rekey_cost_le mapKeyFieldId b m []
    have hiff := rekey_benign_iff mapKeyFieldId b m
    simp only [convertToMappedRepeatedFieldIfNeeded]
    by_cases hcost : (rekey mapKeyFieldId b m []).2.cost = entriesCost m
    · rw [hcost]
      exact Balanced.record h (hiff.mp hcost)
    · exact Balanced.drop h (Nat.add_lt_add_left (lt_of_le_of_ne hle hcost) x) fun hben => hcost (hiff.mpr hben)

/-! ### Entering fields -/

theorem Balanced.insertEmpty (h : Balanced l (x + entriesCost m) al) (hs : (insertEmpty m key al).status ≠ .nullNode) :
    Balanced l (x + entriesCost (insertEmpty m key al).map) (insertEmpty m key al).alloc := by
  unfold ProtoVm.insertEmpty at hs ⊢
  cases hc : al.createNode with
  | none => exact h
  | some r =>
    obtain ⟨id, al₁⟩ := r
    simp only [hc] at hs ⊢
    exact Balanced.mapInsert (h.createNode hc) hs

theorem findOrCreateMessageField_keeps (v : NodeValue) (fieldId : ℕ) (al : Allocator) :
    (findOrCreateMessageField v fieldId al).Keeps l v al := by
  intro x h hs
  have hk := convertToMessageIfNeeded_keeps v al x h
  unfold findOrCreateMessageField at hs ⊢
  by_cases hok : (convertToMessageIfNeeded v al).status = .kOk
  · have hbal := hk (by rw [hok]; decide)
    simp only [if_pos hok] at hs ⊢
    cases hv : (convertToMessageIfNeeded v al).value with
    | message m =>
      simp only [hv] at hs hbal ⊢
      cases hf : find m fieldId with
      | some n =>
        simp only [hv]
        exact hbal
      | none =>
        simp only [hf] at hs ⊢
        exact Balanced.insertEmpty hbal hs
    | _ => simp [hv] at hs
  · simp only [if_neg hok] at hs ⊢
    exact hk hs

theorem findOrCreateIndexedRepeatedField_keeps (v : NodeValue) (index : ℕ) (al : Allocator) :
    (findOrCreateIndexedRepeatedField v index al).Keeps l v al := by
  intro x h hs
  cases v with
  | indexedRepeatedField m b =>
    unfold findOrCreateIndexedRepeatedField at hs ⊢
    cases hf : find m index with
    | some n =>
      simp only [hf]
      exact h
    | none =>
      simp only [hf] at hs ⊢
      by_cases hlen : index > m.length
      · rw [if_pos hlen]
        exact h
      · rw [if_neg hlen] at hs ⊢
        exact Balanced.insertEmpty h hs
  | _ => exact absurd rfl hs

theorem findOrCreateMappedRepeatedField_keeps (v : NodeValue) (key : ℕ) (al : Allocator) :
    (findOrCreateMappedRepeatedField v key al).Keeps l v al := by
  intro x h hs
  cases v with
  | mappedRepeatedField m =>
    unfold findOrCreateMappedRepeatedField at hs ⊢
    cases hf : find m key with
    | some n =>
      simp only [hf]
      exact h
    | none =>
      simp only [hf] at hs ⊢
      exact Balanced.insertEmpty h hs
  | _ => exact absurd rfl hs

/-! ### Writing the node under the cursor -/

theorem replacedBytes_keeps (v : NodeValue) (data : List UInt8) (al : Allocator) :
    NodeResult.Keeps l (match al.allocateAndCopyBytes data.length with
      | none => ⟨.kAbort, v, al⟩
      | some al => ⟨.kOk, .bytes data, al.deleteReferencedData v⟩) v al := by
  intro x h _
  unfold Allocator.allocateAndCopyBytes
  cases hr : al.reserve data.length with
  | none => exact h
  | some al₁ =>
    refine Balanced.deleteReferencedData v ?_
    convert h.reserve hr using 1
    simp only [NodeValue.cost]
    omega

theorem setBytes_keeps (v : NodeValue) (data : List UInt8) (al : Allocator) :
    (setBytes v data al).Keeps l v al := by
  have hreplace := replacedBytes_keeps (l := l) v data al
  cases v with
  | empty => exact hreplace
  | bytes d => exact hreplace
  | message m => exact hreplace
  | indexedRepeatedField m b => exact .same _ al
  | mappedRepeatedField m => exact .same _ al
  | scalar s => exact .same _ al

theorem setScalar_keeps (v : NodeValue) (scalar : Scalar) (al : Allocator) :
    (setScalar v scalar al).Keeps l v al := by
  cases v with
  | empty => exact fun x h _ => h
  | scalar s => exact fun x h _ => h
  | bytes d => exact .same _ al
  | message m => exact .same _ al
  | indexedRepeatedField m b => exact .same _ al
  | mappedRepeatedField m => exact .same _ al

/-- A field merged into a node that is no mapped repeated field is put into the message or deleted. -/
theorem Balanced.mergeField {fieldId : ℕ} {skip : Bool} (h : Balanced l (x + entriesCost message + n.cost) al)
    (hm : ∀ it m, find message fieldId = some it → it.value ≠ .mappedRepeatedField m)
    (hs : (mergeField fieldId n skip message al).status ≠ .nullNode) :
    Balanced l (x + entriesCost (mergeField fieldId n skip message al).map)
      (mergeField fieldId n skip message al).alloc := by
  unfold ProtoVm.mergeField at hs ⊢
  cases hf : find message fieldId with
  | none =>
    simp only [hf] at hs ⊢
    exact Balanced.mapInsert h hs
  | some it =>
    simp only [hf] at hs ⊢
    by_cases hskip : (skip && it.value.isMessage) = true
    · rw [if_pos hskip]
      exact h.delete
    rw [if_neg hskip] at hs ⊢
    have hreplace : Balanced l (x + entriesCost (IntrusiveTree.set message fieldId n)) (al.delete it) := by
      refine Balanced.delete ?_
      convert h using 1
      have hc := entriesCost_set hf n
      omega
    cases hv : it.value with
    | mappedRepeatedField m => exact absurd hv (hm it m hf)
    | bytes d => exact hreplace
    | empty => exact hreplace
    | message m => exact hreplace
    | scalar s => exact hreplace
    | indexedRepeatedField m b =>
      simp only [hv] at hs ⊢
      refine Balanced.set hf h fun y hy => ?_
      rw [hv] at hy
      refine Balanced.mapInsert ?_ fun hnull => hs (by simp [hnull])
      cases b with
      | true => exact hy
      | false =>
        refine Balanced.deleteReferencedData (.indexedRepeatedField m false) ?_
        convert hy using 1
        simp [NodeValue.cost, entriesCost]
        omega

/-- One turn of the loop, with its event: a node made for a mapped repeated field is dropped. -/
theorem Balanced.mergeTurn {fieldId : ℕ} {skip : Bool} (h : Balanced l (x + entriesCost message + n.cost) al) :
    let e := NodeEvent.mergeField (((find message fieldId).map Node.value).getD .empty)
    let r := ProtoVm.mergeField fieldId n skip message (al.record e)
    r.status ≠ .nullNode → Balanced l (x + entriesCost r.map) r.alloc := by
  intro e r hs
  by_cases hben : e.Benign
  · refine Balanced.mergeField (h.record hben) (fun it m hit hv => hben m ?_) hs
    simp [hit, hv]
  · have hmapped : ∃ it m, find message fieldId = some it ∧ it.value = .mappedRepeatedField m := by
      by_contra hnone
      refine hben fun m hm => hnone ?_
      cases hf : find message fieldId with
      | none => simp [hf] at hm
      | some it => exact ⟨it, m, rfl, by simpa [hf] using hm⟩
    obtain ⟨it, m, hf, hv⟩ := hmapped
    have hr : r = ⟨.kAbort, message, al.record e⟩ := by
      simp [r, ProtoVm.mergeField, hf, hv, NodeValue.isMessage]
    rw [hr]
    exact h.drop (Nat.lt_add_of_pos_right (by simp [Node.cost, sizeofNode])) hben

theorem Balanced.mergeFields {skip : Bool} {fields : List Field} (h : Balanced l (x + entriesCost message) al)
    (hs : (mergeFields skip fields message al).status ≠ .nullNode) :
    Balanced l (x + entriesCost (mergeFields skip fields message al).map)
      (mergeFields skip fields message al).alloc := by
  induction fields generalizing message al with
  | nil => exact h
  | cons field fields ih =>
    rw [ProtoVm.mergeFields] at hs ⊢
    have hf := Balanced.createNodeFromField h field
    rcases hcf : ProtoVm.createNodeFromField field al with ⟨_ | mapValue, al₁⟩
    · rw [hcf] at hf
      exact hf
    rw [hcf] at hf
    simp only [hcf] at hs ⊢
    have hstep := @Balanced.mergeTurn l x al₁ mapValue message field.id skip hf
    dsimp only at hstep
    set e := NodeEvent.mergeField (((find message field.id).map Node.value).getD .empty)
    by_cases hok : (ProtoVm.mergeField field.id mapValue skip message (al₁.record e)).status = .kOk
    · rw [if_pos hok] at hs ⊢
      exact ih (hstep (by rw [hok]; decide)) hs
    · rw [if_neg hok] at hs ⊢
      exact hstep hs

theorem resetMerged_cost (v : NodeValue) : v.resetMerged.cost = v.cost := by cases v <;> rfl

theorem entriesCost_resetMerged (m : NodeMap) :
    entriesCost (m.map fun e => (e.1, (⟨e.2.id, e.2.value.resetMerged⟩ : Node))) = entriesCost m := by
  rw [entriesCost_eq, entriesCost_eq]
  simp [weight, entryCost, Node.cost, resetMerged_cost, Function.comp_def]

theorem merge_keeps (v : NodeValue) (data : List UInt8) (skip : Bool) (al : Allocator) :
    (merge v data skip al).Keeps l v al := by
  have hmerge : ∀ x, Balanced l (x + v.cost) al → (mergeMessage v data skip al).status ≠ .nullNode →
      Balanced l (x + (mergeMessage v data skip al).value.cost) (mergeMessage v data skip al).alloc := by
    intro x h hs
    unfold mergeMessage at hs ⊢
    by_cases hnil : data = []
    · rw [if_pos hnil]
      exact h
    rw [if_neg hnil] at hs ⊢
    have hk := convertToMessageIfNeeded_keeps v al x h
    by_cases hok : (convertToMessageIfNeeded v al).status = .kOk
    · have hbal := hk (by rw [hok]; decide)
      simp only [if_pos hok] at hs ⊢
      cases hv : (convertToMessageIfNeeded v al).value with
      | message m =>
        simp only [hv] at hs hbal ⊢
        set r := mergeFields skip (readFields data) m (convertToMessageIfNeeded v al).alloc with hr
        have hm : r.status ≠ .nullNode → Balanced l (x + entriesCost r.map) r.alloc := Balanced.mergeFields hbal
        by_cases hok2 : r.status = .kOk
        · simp only [if_pos hok2, NodeValue.cost, entriesCost_resetMerged]
          exact hm (by rw [hok2]; decide)
        · simp only [if_neg hok2] at hs ⊢
          exact hm hs
      | _ => simp [hv] at hs
    · simp only [if_neg hok] at hs ⊢
      exact hk hs
  cases v with
  | empty => exact hmerge
  | message m => exact hmerge
  | bytes d => exact hmerge
  | indexedRepeatedField m b => exact .same _ al
  | mappedRepeatedField m => exact .same _ al
  | scalar s => exact .same _ al

end LynxTrace.ProtoVm
