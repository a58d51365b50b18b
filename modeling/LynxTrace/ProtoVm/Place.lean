import LynxTrace.ProtoVm.Cursor

/-!
# ProtoVm.Place — what an operation leaves in place

Two trees agree at a place when the node found there, if any, is the same.  An operation on a node only changes the
tree strictly below the node; removing an entry only changes it at the entry and below.
-/

namespace LynxTrace.ProtoVm

open IntrusiveTree

/-- The identity of the node at a place. -/
def Node.idAt (root : Node) (path : List ℕ) : Option ℕ := (root.get path).map Node.id

@[simp] theorem Node.idAt_nil (root : Node) : root.idAt [] = some root.id := rfl

theorem Node.get_cons (root : Node) (key : ℕ) (path : List ℕ) :
    root.get (key :: path) = (find root.value.entries key).bind (Node.get path) := by
  rw [Node.get]
  cases find root.value.entries key <;> rfl

theorem Node.idAt_cons (root : Node) (key : ℕ) (path : List ℕ) :
    root.idAt (key :: path) = (find root.value.entries key).bind (·.idAt path) := by
  rw [idAt, Node.get_cons]
  cases find root.value.entries key <;> rfl

theorem Node.get_append (root : Node) (path rest : List ℕ) :
    root.get (path ++ rest) = (root.get path).bind (Node.get rest) := by
  induction path generalizing root with
  | nil => rfl
  | cons key path ih =>
    rw [List.cons_append, Node.get_cons, Node.get_cons, Option.bind_assoc]
    exact Option.bind_congr fun child _ => ih child

/-- The node of an entry, through the node whose map holds it. -/
theorem Node.get_concat (root : Node) (path : List ℕ) (key : ℕ) :
    root.get (path ++ [key]) = (root.get path).bind fun o => find o.value.entries key := by
  rw [Node.get_append]
  refine Option.bind_congr fun o _ => ?_
  rw [Node.get_cons]
  cases find o.value.entries key <;> rfl

variable {n root : Node}

theorem Node.deref_eq_some {p : NodePtr} (hn : root.get p.path = some n) (hid : n.id = p.id) :
    root.deref p = some n := by
  simp [Node.deref, hn, hid]

theorem Node.deref_iff {p : NodePtr} : root.deref p = some n ↔ root.get p.path = some n ∧ n.id = p.id := by
  unfold Node.deref
  rw [Option.filter_eq_some_iff, decide_eq_true_eq]

/-! ### Agreement -/

/-- Strictly below a place. -/
def Below (p q : List ℕ) : Prop := p <+: q ∧ q ≠ p

/-- The trees have the same node, or none, at each of the places. -/
def Agree (places : List ℕ → Prop) (root root' : Node) : Prop := ∀ q, places q → root'.idAt q = root.idAt q

theorem Agree.refl (places : List ℕ → Prop) (root : Node) : Agree places root root := fun _ _ => rfl

theorem Agree.trans {places : List ℕ → Prop} {r₁ r₂ r₃ : Node} (h₁ : Agree places r₁ r₂) (h₂ : Agree places r₂ r₃) :
    Agree places r₁ r₃ := fun q hq => (h₂ q hq).trans (h₁ q hq)

theorem Agree.mono {places places' : List ℕ → Prop} {root' : Node} (h : Agree places root root')
    (hle : ∀ q, places' q → places q) : Agree places' root root' := fun q hq => h q (hle q hq)

theorem below_concat (p : List ℕ) (key : ℕ) : Below p (p ++ [key]) := ⟨List.prefix_append p [key], by simp⟩

theorem Below.of_prefix {p q r : List ℕ} (h : Below p q) (hr : q <+: r) : Below p r := by
  refine ⟨h.1.trans hr, fun heq => h.2 ?_⟩
  rw [heq] at hr
  exact hr.eq_of_length_le h.1.length_le

theorem NodeValue.entries_setEntries {v : NodeValue} {key : ℕ} (h : find v.entries key = some n) (m : NodeMap) :
    (v.setEntries m).entries = m := by
  cases v with
  | indexedRepeatedField m' b => rfl
  | mappedRepeatedField m' => rfl
  | message m' => rfl
  | _ => cases h

theorem NodeValue.entries_remove (v : NodeValue) (key : ℕ) :
    (v.setEntries (remove v.entries key)).entries = remove v.entries key := by
  cases v <;> rfl

theorem NodeValue.setEntries_setEntries (v : NodeValue) (m m' : NodeMap) :
    (v.setEntries m).setEntries m' = v.setEntries m' := by cases v <;> rfl

theorem Node.setValue_cons {child : Node} {key : ℕ} (h : find root.value.entries key = some child) (v : NodeValue)
    (path : List ℕ) : root.setValue v (key :: path) =
      ⟨root.id, root.value.setEntries (set root.value.entries key (child.setValue v path))⟩ := by rw [Node.setValue, h]

/-- A node whose value has been assigned to. -/
theorem Node.get_setValue {path : List ℕ} (h : root.get path = some n) (v : NodeValue) :
    (root.setValue v path).get path = some ⟨n.id, v⟩ := by
  induction path generalizing root with
  | nil =>
    obtain rfl := Option.some.inj h
    rfl
  | cons key path ih =>
    rw [Node.get_cons] at h
    obtain ⟨child, hfind, hget⟩ := Option.bind_eq_some_iff.mp h
    rw [Node.get_cons, Node.setValue_cons hfind]
    dsimp only
    rw [NodeValue.entries_setEntries hfind, find_set_self hfind, Option.bind_some]
    exact ih hget

/-- The last of two assignments to a node stands. -/
theorem Node.setValue_setValue {path : List ℕ} (h : root.get path = some n) (v w : NodeValue) :
    (root.setValue v path).setValue w path = root.setValue w path := by
  induction path generalizing root with
  | nil => rfl
  | cons key path ih =>
    rw [Node.get_cons] at h
    obtain ⟨child, hfind, hget⟩ := Option.bind_eq_some_iff.mp h
    rw [Node.setValue_cons hfind, Node.setValue_cons hfind]
    have hfind' : find (root.value.setEntries (set root.value.entries key (child.setValue v path))).entries key =
        some (child.setValue v path) := by rw [NodeValue.entries_setEntries hfind, find_set_self hfind]
    refine (Node.setValue_cons hfind' w path).trans ?_
    dsimp only
    rw [NodeValue.entries_setEntries hfind, NodeValue.setEntries_setEntries, set_set, ih hget]

theorem Node.deref_setValue {p : NodePtr} (h : root.deref p = some n) (v : NodeValue) :
    (root.setValue v p.path).deref p = some ⟨n.id, v⟩ := by
  obtain ⟨hget, hid⟩ := Node.deref_iff.mp h
  exact Node.deref_iff.mpr ⟨Node.get_setValue hget v, hid⟩

/-- An operation on a cursor whose node is in the tree. -/
theorem RwState.onNode_eq {st : RwState} {c : RwProtoCursor} {p : NodePtr} (hc : c.node = some p)
    (hn : st.root.deref p = some n) (op : NodeValue → Allocator → NodeResult) : st.onNode c op =
      ((op n.value st.alloc).status.toStatus, { st.record (.use c.binding) with
        root := st.root.setValue (op n.value st.alloc).value p.path, alloc := (op n.value st.alloc).alloc }) := by
  unfold RwState.onNode
  rw [hc]
  dsimp only
  rw [show (st.record (.use c.binding)).root.deref p = some n from hn]
  rfl

/-- Assigning to a node leaves every place that is not strictly below it. -/
theorem agree_setValue (root : Node) (v : NodeValue) (path : List ℕ) :
    Agree (fun q => ¬ Below path q) root (root.setValue v path) := by
  induction path generalizing root with
  | nil =>
    intro q hq
    cases q with
    | nil => rfl
    | cons key q => exact absurd ⟨List.nil_prefix, by simp⟩ hq
  | cons key path ih =>
    intro q hq
    rw [Node.setValue]
    cases hf : find root.value.entries key with
    | none => rfl
    | some child =>
      cases q with
      | nil => rfl
      | cons key' q =>
        simp only [Node.idAt_cons, NodeValue.entries_setEntries hf]
        by_cases hk : key = key'
        · subst hk
          rw [find_set_self hf, hf]
          refine ih child q fun hb => hq ⟨List.cons_prefix_cons.mpr ⟨rfl, hb.1⟩, fun heq => hb.2 ?_⟩
          exact (List.cons.inj heq).2
        · rw [find_set_ne hk]

/-- Removing an entry leaves every place that is not the entry's or below. -/
theorem agree_remove {o : Node} {path : List ℕ} (ho : root.get path = some o) (key : ℕ) :
    Agree (fun q => ¬ path ++ [key] <+: q) root
      (root.setValue (o.value.setEntries (remove o.value.entries key)) path) := by
  induction path generalizing root with
  | nil =>
    cases ho
    intro q hq
    cases q with
    | nil => rfl
    | cons key' q =>
      have hk : key ≠ key' := fun heq => hq (by simp [heq])
      rw [Node.setValue, Node.idAt_cons, Node.idAt_cons, NodeValue.entries_remove, find_remove_ne hk]
  | cons k path ih =>
    intro q hq
    rw [Node.get_cons] at ho
    obtain ⟨child, hf, ho⟩ := Option.bind_eq_some_iff.mp ho
    rw [Node.setValue, hf]
    cases q with
    | nil => rfl
    | cons key' q =>
      simp only [Node.idAt_cons, NodeValue.entries_setEntries hf]
      by_cases hk : k = key'
      · subst hk
        rw [find_set_self hf, hf]
        exact ih ho q fun hp => hq (List.cons_prefix_cons.mpr ⟨rfl, hp⟩)
      · rw [find_set_ne hk]

end LynxTrace.ProtoVm
