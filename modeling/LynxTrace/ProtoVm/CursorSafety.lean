import LynxTrace.ProtoVm.Parser
import LynxTrace.ProtoVm.Place

/-!
# ProtoVm.CursorSafety — which nodes the cursors of a running program denote

* `Respecting` — no cursor is used after a `del` went through it or through a copy of it.
* `Valid` — the cursor's node is in the tree at the cursor's place, and so is the node that holds it.
* `Step c st st'` — what code that works through the cursor `c` may do: it changes the tree at the place of `c` and
  below, strictly below unless `c` is deleted.
* `applyPatch_safe` — a respecting run never dereferences a pointer to a node that has left the tree.

A cursor that is saved while code runs below it is at a place above; `Step` leaves it valid.
-/

namespace LynxTrace.ProtoVm

open IntrusiveTree

/-! ### The log -/

/-- No cursor is used after it has been deleted.  The newest event comes first. -/
def Respecting : List CursorEvent → Prop
  | [] => True
  | .use b :: trace => .del b ∉ trace ∧ Respecting trace
  | .del _ :: trace => Respecting trace

theorem Respecting.of_cons {e : CursorEvent} {trace : List CursorEvent} (h : Respecting (e :: trace)) :
    Respecting trace := by
  cases e with
  | use b => exact h.2
  | del b => exact h

theorem Respecting.of_suffix {trace trace' : List CursorEvent} (h : Respecting trace') (hs : trace <:+ trace') :
    Respecting trace := by
  obtain ⟨new, rfl⟩ := hs
  induction new with
  | nil => exact h
  | cons e new ih => exact ih h.of_cons

/-! ### Valid cursors -/

/-- Where the cursor's node is, or was before it was deleted. -/
def RwProtoCursor.place (c : RwProtoCursor) : List ℕ :=
  match c.holding with
  | some (owner, key) => owner.path ++ [key]
  | none => c.path

structure Valid (root : Node) (c : RwProtoCursor) : Prop where
  node : ∃ id, c.node = some ⟨c.place, id⟩ ∧ root.idAt c.place = some id
  owner : ∀ o key, c.holding = some (o, key) → root.idAt o.path = some o.id

variable {c c' : RwProtoCursor}

theorem Valid.path_eq {root : Node} (h : Valid root c) : c.path = c.place := by
  obtain ⟨id, hn, -⟩ := h.node
  rw [RwProtoCursor.path, hn]
  rfl

theorem Valid.of_agree {root root' : Node} (h : Valid root c) (ha : Agree (fun q => ¬ Below c.place q) root root') :
    Valid root' c := by
  refine ⟨?_, fun o key ho => ?_⟩
  · obtain ⟨id, hn, hid⟩ := h.node
    exact ⟨id, hn, (ha _ fun hb => hb.2 rfl).trans hid⟩
  · refine (ha _ fun hb => ?_).trans (h.owner o key ho)
    have hle := hb.1.length_le
    simp only [RwProtoCursor.place, ho, List.length_append, List.length_singleton] at hle
    omega

/-- The cursor is valid, unless it has been deleted. -/
def Live (st : RwState) (c : RwProtoCursor) : Prop := .del c.binding ∈ st.trace ∨ Valid st.root c

/-- A cursor and a state it can be used on. -/
structure Sound (st : RwState) (c : RwProtoCursor) : Prop where
  live : Live st c
  bound : c.binding < st.nextBinding
  dels : ∀ b, .del b ∈ st.trace → b < st.nextBinding

variable {st st₁ st₂ st' : RwState}

theorem Sound.valid (h : Sound st c) (hd : .del c.binding ∉ st.trace) :
    Valid st.root c := h.live.resolve_left hd

/-! ### Steps -/

/-- What code that works through a cursor may do to the state. -/
structure Step (c : RwProtoCursor) (st st' : RwState) : Prop where
  trace : st.trace <:+ st'.trace
  next : st.nextBinding ≤ st'.nextBinding
  dels : ∀ b, .del b ∈ st'.trace → .del b ∈ st.trace ∨ (b = c.binding ∧ c.holding.isSome) ∨
    (st.nextBinding ≤ b ∧ b < st'.nextBinding)
  outside : Agree (fun q => ¬ c.place <+: q) st.root st'.root
  inside : .del c.binding ∉ st'.trace → Agree (fun q => ¬ Below c.place q) st.root st'.root

theorem Step.refl (c : RwProtoCursor) (st : RwState) : Step c st st :=
  ⟨List.suffix_rfl, le_rfl, fun _ h => .inl h, .refl _ _, fun _ => .refl _ _⟩

theorem Step.trans {st₃ : RwState} (h₁ : Step c st₁ st₂) (h₂ : Step c st₂ st₃) : Step c st₁ st₃ where
  trace := h₁.trace.trans h₂.trace
  next := h₁.next.trans h₂.next
  dels b hb := by
    have hn₁ := h₁.next
    have hn₂ := h₂.next
    rcases h₂.dels b hb with hb | hb | hb
    · rcases h₁.dels b hb with hb | hb | hb
      · exact .inl hb
      · exact .inr (.inl hb)
      · exact .inr (.inr ⟨hb.1, hb.2.trans_le hn₂⟩)
    · exact .inr (.inl hb)
    · exact .inr (.inr ⟨hn₁.trans hb.1, hb.2⟩)
  outside := h₁.outside.trans h₂.outside
  inside hd := (h₁.inside fun hb => hd (h₂.trace.subset hb)).trans (h₂.inside hd)

/-- A step of a cursor below, which came into being since. -/
theorem Step.of_below {d : RwProtoCursor} {st₃ : RwState} (h₁ : Step c st₁ st₂) (h₂ : Step d st₂ st₃)
    (hb : Below c.place d.place) (hnew : st₁.nextBinding ≤ d.binding) (hold : d.binding < st₂.nextBinding) :
    Step c st₁ st₃ where
  trace := h₁.trace.trans h₂.trace
  next := h₁.next.trans h₂.next
  dels b hdel := by
    have hn₁ := h₁.next
    have hn₂ := h₂.next
    rcases h₂.dels b hdel with hdel | ⟨rfl, -⟩ | hdel
    · rcases h₁.dels b hdel with hdel | hdel | hdel
      · exact .inl hdel
      · exact .inr (.inl hdel)
      · exact .inr (.inr ⟨hdel.1, hdel.2.trans_le hn₂⟩)
    · exact .inr (.inr ⟨hnew, hold.trans_le hn₂⟩)
    · exact .inr (.inr ⟨hn₁.trans hdel.1, hdel.2⟩)
  outside := h₁.outside.trans (h₂.outside.mono fun q hq hp => hq (hb.1.trans hp))
  inside hd := (h₁.inside fun hdel => hd (h₂.trace.subset hdel)).trans
    (h₂.outside.mono fun q hq hp => hq (hb.of_prefix hp))

theorem Step.dels_lt (h : Step c st st') (hs : Sound st c) (b : ℕ) (hb : .del b ∈ st'.trace) : b < st'.nextBinding := by
  have hn := h.next
  rcases h.dels b hb with hb | ⟨rfl, -⟩ | hb
  · exact (hs.dels b hb).trans_le hn
  · exact hs.bound.trans_le hn
  · exact hb.2

/-- A step leaves its own cursor sound. -/
theorem Step.sound (h : Step c st st') (hs : Sound st c) : Sound st' c := by
  refine ⟨?_, hs.bound.trans_le h.next, h.dels_lt hs⟩
  by_cases hd : .del c.binding ∈ st'.trace
  · exact .inl hd
  · exact .inr ((hs.valid fun hb => hd (h.trace.subset hb)).of_agree (h.inside hd))

/-! ### Operations through a cursor -/

/-- The operation uses the cursor; respecting the log it is safe and a step of the cursor. -/
structure Uses (c : RwProtoCursor) (st : RwState) (status : Status) (st' : RwState) : Prop where
  trace : st.trace <:+ st'.trace
  sound : Sound st c → Respecting st'.trace → status ≠ .danglingCursor ∧ Step c st st'

theorem OpStatus.toStatus_ne (s : OpStatus) : s.toStatus ≠ .danglingCursor := by cases s <;> simp [toStatus]

theorem onNode_trace (st : RwState) (c : RwProtoCursor) (op : NodeValue → Allocator → NodeResult) :
    (st.onNode c op).2.trace = .use c.binding :: st.trace := by
  unfold RwState.onNode
  cases c.node with
  | none => rfl
  | some p =>
    simp only [RwState.record]
    cases st.root.deref p <;> rfl

/-- A cursor that has just been used has not been deleted. -/
theorem not_deleted {b : ℕ} {trace : List CursorEvent} (h : Respecting (.use b :: trace)) :
    .del b ∉ CursorEvent.use b :: trace := by
  simp only [List.mem_cons, reduceCtorEq, false_or]
  exact h.1

theorem onNode_uses (st : RwState) (c : RwProtoCursor) (op : NodeValue → Allocator → NodeResult) :
    Uses c st (st.onNode c op).1 (st.onNode c op).2 := by
  have htrace := onNode_trace st c op
  refine ⟨htrace ▸ List.suffix_cons _ _, fun hs hr => ?_⟩
  rw [htrace] at hr
  have hv := hs.valid hr.1
  obtain ⟨id, hn, hid⟩ := hv.node
  obtain ⟨n, hget, rfl⟩ := Option.map_eq_some_iff.mp hid
  have hd : st.root.deref ⟨c.place, n.id⟩ = some n := Node.deref_eq_some hget rfl
  have heq : st.onNode c op = ((op n.value st.alloc).status.toStatus,
      { st.record (.use c.binding) with
        root := st.root.setValue (op n.value st.alloc).value c.place, alloc := (op n.value st.alloc).alloc }) := by
    simp only [RwState.onNode, hn, RwState.record, hd]
  rw [heq]
  have ha := agree_setValue st.root (op n.value st.alloc).value c.place
  refine ⟨OpStatus.toStatus_ne _, List.suffix_cons _ _, le_rfl, fun b hb => ?_, ?_, fun _ => ha⟩
  · have hmem : CursorEvent.del b ∈ CursorEvent.use c.binding :: st.trace := hb
    simp only [List.mem_cons, reduceCtorEq, false_or] at hmem
    exact .inl hmem
  · exact ha.mono fun q hq hp => hq hp.1

/-- The cursor is the same afterwards, or has lost its node and is on record as deleted. -/
def Kept (st' : RwState) (c c' : RwProtoCursor) : Prop :=
  c' = c ∨ (c' = { c with node := none } ∧ c.holding.isSome ∧ .del c.binding ∈ st'.trace)

theorem Kept.refl (st' : RwState) (c : RwProtoCursor) : Kept st' c c := .inl rfl

theorem Kept.binding (h : Kept st' c c') : c'.binding = c.binding := by
  rcases h with rfl | ⟨rfl, -⟩ <;> rfl

theorem Kept.holding (h : Kept st' c c') : c'.holding = c.holding := by
  rcases h with rfl | ⟨rfl, -⟩ <;> rfl

theorem Kept.place (h : Kept st' c c') : c'.place = c.place := by
  rcases h with rfl | ⟨rfl, hh, -⟩
  · rfl
  · obtain ⟨⟨o, key⟩, ho⟩ := Option.isSome_iff_exists.mp hh
    simp [RwProtoCursor.place, ho]

theorem Kept.mono (h : Kept st₁ c c') (hs : st₁.trace <:+ st₂.trace) :
    Kept st₂ c c' := h.imp_right fun ⟨h₁, h₂, h₃⟩ => ⟨h₁, h₂, hs.subset h₃⟩

theorem Kept.trans {c₁ c₂ c₃ : RwProtoCursor} (h₁ : Kept st₁ c₁ c₂) (h₂ : Kept st₂ c₂ c₃) (hs : st₁.trace <:+ st₂.trace) :
    Kept st₂ c₁ c₃ := by
  rcases h₂ with rfl | ⟨rfl, hh, hd⟩
  · exact h₁.mono hs
  · rw [h₁.holding] at hh
    rw [h₁.binding] at hd
    refine .inr ⟨?_, hh, hd⟩
    rcases h₁ with rfl | ⟨rfl, -⟩ <;> rfl

theorem Step.of_kept (hk : Kept st c c') (h : Step c' st₁ st₂) : Step c st₁ st₂ where
  trace := h.trace
  next := h.next
  dels := by rw [← hk.binding, ← hk.holding]; exact h.dels
  outside := by rw [← hk.place]; exact h.outside
  inside := by rw [← hk.place, ← hk.binding]; exact h.inside

/-- A kept cursor is sound where the cursor is. -/
theorem Sound.of_kept (h : Sound st c) (hk : Kept st c c') : Sound st c' := by
  refine ⟨?_, hk.binding ▸ h.bound, h.dels⟩
  rcases hk with rfl | ⟨rfl, -, hd⟩
  · exact h.live
  · exact .inl hd

theorem delete_trace (st : RwState) (c : RwProtoCursor) :
    .use c.binding :: st.trace <:+ (st.delete c).2.2.trace := by
  unfold RwState.delete RwState.onNode
  cases c.holding with
  | none =>
    cases c.node with
    | none => exact List.suffix_rfl
    | some p =>
      simp only [RwState.record]
      cases st.root.deref p <;> exact List.suffix_rfl
  | some oh =>
    obtain ⟨o, key⟩ := oh
    cases c.node with
    | none => exact List.suffix_rfl
    | some p =>
      simp only [RwState.record]
      cases st.root.deref p with
      | none => exact List.suffix_rfl
      | some n =>
        cases st.root.deref o with
        | none => exact List.suffix_rfl
        | some o' =>
          simp only
          cases find o'.value.entries key with
          | none => exact List.suffix_rfl
          | some n' => exact List.suffix_cons _ _

theorem delete_kept (st : RwState) (c : RwProtoCursor) : Kept (st.delete c).2.2 c (st.delete c).2.1 := by
  unfold RwState.delete
  cases hh : c.holding with
  | none => exact .inl rfl
  | some oh =>
    obtain ⟨o, key⟩ := oh
    cases c.node with
    | none => exact .inl rfl
    | some p =>
      simp only [RwState.record]
      cases st.root.deref p with
      | none => exact .inl rfl
      | some n =>
        cases st.root.deref o with
        | none => exact .inl rfl
        | some o' =>
          simp only
          cases find o'.value.entries key with
          | none => exact .inl rfl
          | some n' => exact .inr ⟨by rw [hh], by rw [hh]; rfl, List.mem_cons_self⟩

/-- `Delete` through a valid cursor with a holding map. -/
theorem delete_valid (hv : Valid st.root c) {o : NodePtr} {key : ℕ} (hh : c.holding = some (o, key)) :
    ∃ o' n, st.root.get o.path = some o' ∧
      st.delete c = (.kOk, { c with node := none },
        { (st.record (.use c.binding)).record (.del c.binding) with
          root := st.root.setValue (o'.value.setEntries (remove o'.value.entries key)) o.path
          alloc := st.alloc.deleteEntry n }) := by
  have hplace : c.place = o.path ++ [key] := by rw [RwProtoCursor.place, hh]
  obtain ⟨id, hn, hid⟩ := hv.node
  obtain ⟨n, hget, rfl⟩ := Option.map_eq_some_iff.mp hid
  obtain ⟨o', ho', hoid⟩ := Option.map_eq_some_iff.mp (hv.owner o key hh)
  have hfind : find o'.value.entries key = some n := by
    rw [hplace, Node.get_concat, ho'] at hget
    exact hget
  have hd : st.root.deref ⟨c.place, n.id⟩ = some n := Node.deref_eq_some hget rfl
  have hdo : st.root.deref o = some o' := Node.deref_eq_some ho' hoid
  refine ⟨o', n, ho', ?_⟩
  simp only [RwState.delete, hh, hn, RwState.record, hd, hdo, hfind]

theorem delete_uses (st : RwState) (c : RwProtoCursor) : Uses c st (st.delete c).1 (st.delete c).2.2 := by
  refine ⟨(List.suffix_cons _ _).trans (delete_trace st c), fun hs hr => ?_⟩
  have hv := hs.valid (hr.of_suffix (delete_trace st c)).1
  cases hh : c.holding with
  | none =>
    have heq : ((st.delete c).1, (st.delete c).2.2) =
        st.onNode c fun v al => ⟨.kOk, .empty, al.record (.resetUnheld v)⟩ := by
      simp only [RwState.delete, hh]
    have hu := onNode_uses st c fun v al => ⟨.kOk, .empty, al.record (.resetUnheld v)⟩
    rw [← heq] at hu
    exact hu.sound hs hr
  | some oh =>
    obtain ⟨o, key⟩ := oh
    obtain ⟨o', n, ho', heq⟩ := delete_valid hv hh
    have hplace : c.place = o.path ++ [key] := by rw [RwProtoCursor.place, hh]
    rw [heq] at hr ⊢
    refine ⟨by simp, (List.suffix_cons _ _).trans (List.suffix_cons _ _), le_rfl, fun b hb => ?_, ?_, fun hd => ?_⟩
    · have hmem : CursorEvent.del b ∈ CursorEvent.del c.binding :: CursorEvent.use c.binding :: st.trace := hb
      simp only [List.mem_cons, CursorEvent.del.injEq, reduceCtorEq, false_or] at hmem
      rcases hmem with rfl | hmem
      · exact .inr (.inl ⟨rfl, by simp [hh]⟩)
      · exact .inl hmem
    · rw [hplace]
      exact agree_remove ho' key
    · exact absurd List.mem_cons_self hd

/-! ### Moving a cursor -/

/-- The operation moves the cursor to a node below, or leaves it where it is. -/
structure Enters (c : RwProtoCursor) (st : RwState) (e : Status × RwProtoCursor × RwState) : Prop where
  uses : Uses c st e.1 e.2.2
  moved : Sound st c → Respecting e.2.2.trace → e.1 = .kOk → Below c.place e.2.1.place ∧
    st.nextBinding ≤ e.2.1.binding ∧ e.2.1.binding < e.2.2.nextBinding ∧ Valid e.2.2.root e.2.1

theorem Uses.of_step {s₁ s₂ : Status} (h₁ : Uses c st s₁ st₁) (h₂ : Uses c st₁ s₂ st₂) : Uses c st s₂ st₂ := by
  refine ⟨h₁.trace.trans h₂.trace, fun hs hr => ?_⟩
  obtain ⟨-, hstep₁⟩ := h₁.sound hs (hr.of_suffix h₂.trace)
  obtain ⟨hne, hstep₂⟩ := h₂.sound (hstep₁.sound hs) hr
  exact ⟨hne, hstep₁.trans hstep₂⟩

variable {s : Status}

/-- A status that is no dangling cursor, without a change of the state. -/
theorem Uses.same (c : RwProtoCursor) (st : RwState) (hs : s ≠ .danglingCursor) : Uses c st s st :=
  ⟨List.suffix_rfl, fun _ _ => ⟨hs, .refl c st⟩⟩

theorem Uses.enters (h : Uses c st s st') (hs : s ≠ .kOk) :
    Enters c st (s, c, st') := ⟨h, fun _ _ hok => absurd hok hs⟩

theorem Uses.enters_of_step (h₁ : Uses c st s st₁) {e : Status × RwProtoCursor × RwState} (h₂ : Enters c st₁ e) :
    Enters c st e := by
  refine ⟨h₁.of_step h₂.uses, fun hs hr hok => ?_⟩
  obtain ⟨-, hstep⟩ := h₁.sound hs (hr.of_suffix h₂.uses.trace)
  obtain ⟨hb, hnew, hold, hv⟩ := h₂.moved (hstep.sound hs) hr hok
  exact ⟨hb, hstep.next.trans hnew, hold, hv⟩

theorem moveTo_enters {owner : List ℕ} {key : ℕ} (hb : Below c.place (owner ++ [key])) :
    Enters c st (st.moveTo c owner key) := by
  unfold RwState.moveTo RwState.bindEntry
  cases ho : st.root.get owner with
  | none => exact (Uses.same c st (by simp)).enters (by simp)
  | some o =>
    cases hf : find o.value.entries key with
    | none =>
      simp only [hf]
      exact (Uses.same c st (by simp)).enters (by simp)
    | some n =>
      simp only [hf]
      refine ⟨⟨List.suffix_rfl, fun _ _ => ⟨by simp, ?_⟩⟩, fun _ _ _ => ⟨hb, le_rfl, Nat.lt_succ_self _, ?_⟩⟩
      · exact ⟨List.suffix_rfl, Nat.le_succ _, fun b hb => .inl hb, .refl _ _, fun _ => .refl _ _⟩
      · have hget : st.root.get (owner ++ [key]) = some n := by
          rw [Node.get_concat, ho]
          exact hf
        refine ⟨⟨n.id, rfl, ?_⟩, fun o' key' heq => ?_⟩
        · exact congrArg (Option.map Node.id) hget
        · cases heq
          exact congrArg (Option.map Node.id) ho

theorem moveTo_trace (st : RwState) (c : RwProtoCursor) (owner : List ℕ) (key : ℕ) :
    (st.moveTo c owner key).2.2.trace = st.trace := by
  unfold RwState.moveTo
  cases st.bindEntry owner key <;> rfl

/-- An operation on the node under the cursor, then a move if it succeeds. -/
theorem enters_of_onNode (op : NodeValue → Allocator → NodeResult) (move : RwState → Status × RwProtoCursor × RwState)
    (ht : ∀ st, (move st).2.2.trace = st.trace) (hmove : c.path = c.place → ∀ st, Enters c st (move st)) :
    let r := st.onNode c op
    Enters c st (if r.1 = .kOk then move r.2 else (r.1, c, r.2)) := by
  intro r
  have hu : Uses c st r.1 r.2 := onNode_uses st c op
  by_cases hok : r.1 = .kOk
  · rw [if_pos hok]
    have hpath : Sound st c → Respecting (move r.2).2.2.trace → c.path = c.place := fun hs hr => by
      have htr : r.2.trace = .use c.binding :: st.trace := onNode_trace st c op
      rw [ht, htr] at hr
      obtain ⟨-, hstep⟩ := hu.sound hs (htr ▸ hr)
      exact ((hstep.sound hs).valid (htr ▸ not_deleted hr)).path_eq
    have henters : Sound st c → Respecting (move r.2).2.2.trace → Enters c st (move r.2) := fun hs hr =>
      hu.enters_of_step (hmove (hpath hs hr) r.2)
    refine ⟨⟨?_, fun hs hr => (henters hs hr).uses.sound hs hr⟩, fun hs hr hok => (henters hs hr).moved hs hr hok⟩
    rw [ht]
    exact hu.trace
  · rw [if_neg hok]
    exact hu.enters hok

theorem enterField_enters (st : RwState) (c : RwProtoCursor) (fieldId : ℕ) :
    Enters c st (st.enterField c fieldId) := by
  refine enters_of_onNode (fun v al => findOrCreateMessageField v fieldId al)
    (fun st => st.moveToField c fieldId) (fun st' => ?_) (fun hpath st' => ?_) <;> unfold RwState.moveToField
  · cases st'.root.get (c.path ++ [fieldId]) with
    | none => rfl
    | some n =>
      simp only
      split_ifs
      · rfl
      · exact moveTo_trace st' c _ _
  · cases st'.root.get (c.path ++ [fieldId]) with
    | none => exact (Uses.same c st' (by simp)).enters (by simp)
    | some n =>
      simp only
      split_ifs
      · exact (Uses.same c st' (by simp)).enters (by simp)
      · exact moveTo_enters (hpath ▸ below_concat c.place fieldId)

theorem Below.concat {p q : List ℕ} (h : Below p q) (key : ℕ) : Below p (q ++ [key]) :=
  h.of_prefix (List.prefix_append q [key])

theorem enterRepeatedFieldAt_enters (st : RwState) (c : RwProtoCursor) (fieldId index : ℕ) :
    Enters c st (st.enterRepeatedFieldAt c fieldId index) :=
  enters_of_onNode _ (fun st => st.moveTo c (c.path ++ [fieldId]) index) (fun st' => moveTo_trace st' c _ _)
    fun hpath _ => moveTo_enters (hpath ▸ (below_concat c.place fieldId).concat index)

theorem enterRepeatedFieldByKey_enters (st : RwState) (c : RwProtoCursor) (fieldId mapKeyFieldId key : ℕ) :
    Enters c st (st.enterRepeatedFieldByKey c fieldId mapKeyFieldId key) :=
  enters_of_onNode _ (fun st => st.moveTo c (c.path ++ [fieldId]) key) (fun st' => moveTo_trace st' c _ _)
    fun hpath _ => moveTo_enters (hpath ▸ (below_concat c.place fieldId).concat key)

/-! ### Programs -/

/-- Running code from a state: it uses the `dst` cursor, and keeps it if it restores the cursors or if the selected
cursor is the other one. -/
structure Runs (restores : Prop) (vm : VmState) (r : Status × VmState) : Prop where
  uses : Uses vm.cursors.dst vm.rw r.1 r.2.rw
  kept : restores ∨ vm.cursors.selected = .src → Kept r.2.rw vm.cursors.dst r.2.cursors.dst
  selected : r.1 = .kOk ∨ r.1 = .kError → r.2.cursors.selected = vm.cursors.selected

theorem Uses.of_kept (hk : Kept st c c') (h : Uses c' st s st') : Uses c st s st' :=
  ⟨h.trace, fun hs hr => (h.sound (hs.of_kept hk) hr).imp_right (Step.of_kept hk)⟩

namespace Runs

open VmState

variable {restores : Prop} {vm : VmState} {r : Status × VmState}

theorem mono (h : Runs True vm r) : Runs restores vm r :=
  ⟨h.uses, fun _ => h.kept (.inl trivial), h.selected⟩

theorem of_src (h : Runs restores vm r) (hsrc : vm.cursors.selected = .src) :
    Runs True vm r := ⟨h.uses, fun _ => h.kept (.inr hsrc), h.selected⟩

/-- The state and the `dst` cursor are untouched. -/
theorem same (hs : r.1 ≠ .danglingCursor) (hrw : r.2.rw = vm.rw) (hdst : r.2.cursors.dst = vm.cursors.dst)
    (hsel : r.1 = .kOk ∨ r.1 = .kError → r.2.cursors.selected = vm.cursors.selected) : Runs restores vm r :=
  ⟨hrw ▸ Uses.same _ _ hs, fun _ => hdst ▸ .refl _ _, hsel⟩

theorem trans {r' : Status × VmState} (h : Runs True vm r) (hs : r.1 = .kOk ∨ r.1 = .kError) (h' : Runs restores r.2 r') :
    Runs restores vm r' where
  uses := h.uses.of_step (h'.uses.of_kept (h.kept (.inl trivial)))
  kept hk := by
    rw [← h.selected hs] at hk
    exact (h.kept (.inl trivial)).trans (h'.kept hk) h'.uses.trace
  selected hs' := (h'.selected hs').trans (h.selected hs)

theorem andThen {next : VmState → Status × VmState} (hr : Runs True vm r) (hnext : ∀ vm, Runs restores vm (next vm)) :
    Runs restores vm (VmState.andThen r next) := by
  unfold VmState.andThen
  by_cases hok : r.1 = .kOk
  · rw [if_pos hok]
    exact hr.trans (.inl hok) (hnext r.2)
  · rw [if_neg hok]
    exact hr.mono

theorem afterInstruction_eq_none {abortLevel : Option AbortLevel} (h : afterInstruction s abortLevel = none) :
    s = .kOk ∨ s = .kError := by
  cases s with
  | kOk => exact .inl rfl
  | kError => exact .inr rfl
  | _ => cases h

/-- The status with which a list of instructions stops. -/
theorem afterInstruction_eq_some {s' : Status} {abortLevel : Option AbortLevel}
    (h : afterInstruction s abortLevel = some s') : (s' ≠ .kOk) ∧ (s' = .kError → s = .kError) ∧
      (s ≠ .danglingCursor → s' ≠ .danglingCursor) := by
  cases s with
  | kOk => cases h
  | kError =>
    unfold afterInstruction at h
    cases hl : abortLevel.getD .skipCurrentInstructionAndBreakOuter with
    | skipCurrentInstruction => simp [hl] at h
    | skipCurrentInstructionAndBreakOuter | abort =>
      simp only [hl, Option.some.injEq] at h
      subst h
      simp
  | kAbort =>
    cases h
    simp
  | danglingCursor =>
    cases h
    simp
  | nullNode =>
    cases h
    simp

theorem thenNext {next : VmState → Status × VmState} (abortLevel : Option AbortLevel) (hr : Runs True vm r)
    (hnext : ∀ vm, Runs True vm (next vm)) : Runs True vm (VmState.thenNext r abortLevel next) := by
  unfold VmState.thenNext
  cases ha : afterInstruction r.1 abortLevel with
  | none => exact hr.trans (afterInstruction_eq_none ha) (hnext r.2)
  | some s =>
    obtain ⟨hok, herr, hdangling⟩ := afterInstruction_eq_some ha
    refine ⟨⟨hr.uses.trace, fun hs hrsp => ?_⟩, hr.kept, fun h => hr.selected (.inr (herr (h.resolve_left hok)))⟩
    exact (hr.uses.sound hs hrsp).imp_left hdangling

variable {body : VmState → Status × VmState}

/-- The loop over the elements of a repeated field of the patch. -/
theorem forEachSrc (hbody : ∀ vm, Runs False vm (body vm)) (items : List RoCursor) (hsrc : vm.cursors.selected = .src) :
    Runs True vm (VmState.forEach (fun src vm => body (vm.setSrc src)) items vm) := by
  induction items generalizing vm with
  | nil => exact same (by simp [VmState.forEach]) rfl rfl fun _ => rfl
  | cons src items ih =>
    have hfirst : Runs True vm (body (vm.setSrc src)) :=
      have h := (hbody (vm.setSrc src)).of_src hsrc
      ⟨h.uses, h.kept, h.selected⟩
    rw [VmState.forEach, VmState.andThen]
    by_cases hok : (body (vm.setSrc src)).1 = .kOk
    · rw [if_pos hok]
      exact hfirst.trans (.inl hok) (ih ((hfirst.selected (.inl hok)).trans hsrc))
    · rw [if_neg hok]
      exact hfirst

/-! ### Entering the state -/

/-- The rest of a path from the node the cursor has entered. -/
theorem enter {e : Status × RwProtoCursor × RwState} (he : Enters vm.cursors.dst vm.rw e)
    (hsel : vm.cursors.selected ≠ .src) (hbody : ∀ vm, Runs False vm (body vm)) :
    Runs False vm (VmState.andThen (vm.onDst e) body) := by
  have hnot : ¬ (False ∨ vm.cursors.selected = .src) := fun h => h.elim id hsel
  unfold VmState.andThen
  by_cases hok : e.1 = .kOk
  · rw [if_pos (show (vm.onDst e).1 = .kOk from hok)]
    have hb := hbody (vm.onDst e).2
    refine ⟨⟨he.uses.trace.trans hb.uses.trace, fun hs hr => ?_⟩, fun h => absurd h hnot, hb.selected⟩
    have hr₁ : Respecting e.2.2.trace := hr.of_suffix hb.uses.trace
    obtain ⟨-, hstep⟩ := he.uses.sound hs hr₁
    obtain ⟨hbelow, hnew, hold, hv⟩ := he.moved hs hr₁ hok
    have hs₁ : Sound e.2.2 e.2.1 := ⟨.inr hv, hold, hstep.dels_lt hs⟩
    obtain ⟨hne, hstep₁⟩ := hb.uses.sound hs₁ hr
    exact ⟨hne, hstep.of_below hstep₁ hbelow hnew hold⟩
  · rw [if_neg (show (vm.onDst e).1 ≠ .kOk from hok)]
    exact ⟨he.uses, fun h => absurd h hnot, fun _ => rfl⟩

/-- `HasField` before the cursor enters a field. -/
theorem enterIfExists_enters (vm : VmState) (fieldId : ℕ) {enter : RwState → Status × RwProtoCursor × RwState}
    (henter : ∀ st, Enters vm.cursors.dst st (enter st)) : ∃ e, Enters vm.cursors.dst vm.rw e ∧
      vm.enterIfExists fieldId enter = vm.onDst e := by
  have hu : Uses vm.cursors.dst vm.rw (vm.rw.hasField vm.cursors.dst fieldId).1
      (vm.rw.hasField vm.cursors.dst fieldId).2.2 := onNode_uses _ _ _
  unfold VmState.enterIfExists
  by_cases hok : (vm.rw.hasField vm.cursors.dst fieldId).1 = .kOk
  · simp only [if_pos hok]
    split_ifs
    · exact ⟨(.kError, vm.cursors.dst, _), hu.enters_of_step ((Uses.same _ _ (by simp)).enters (by simp)), rfl⟩
    · exact ⟨_, hu.enters_of_step (henter _), rfl⟩
  · simp only [if_neg hok]
    exact ⟨(_, vm.cursors.dst, _), hu.enters hok, rfl⟩

theorem src_enterField_ne (src : RoCursor) (fieldId : ℕ) : (src.enterField fieldId).1 ≠ .danglingCursor := by
  unfold RoCursor.enterField
  cases src.getBytes with
  | none => simp
  | some data =>
    simp only
    cases occurrencesIn fieldId (Protozero.readFields data) <;> simp

theorem src_enterRepeatedFieldAt_ne (src : RoCursor) (fieldId index : ℕ) :
    (src.enterRepeatedFieldAt fieldId index).1 ≠ .danglingCursor := by
  unfold RoCursor.enterRepeatedFieldAt
  cases src.getBytes with
  | none => simp
  | some data =>
    simp only
    cases (occurrencesIn fieldId (Protozero.readFields data))[index]? <;> simp

theorem enterField (vm : VmState) (fieldId : ℕ) (hbody : ∀ vm, Runs False vm (body vm)) :
    Runs False vm (VmState.andThen (vm.enterField fieldId) body) := by
  unfold VmState.enterField
  split_ifs with hsel
  · exact andThen (same (src_enterField_ne _ _) rfl rfl fun _ => rfl) hbody
  · obtain ⟨e, he, heq⟩ := enterIfExists_enters vm fieldId fun st => enterField_enters st vm.cursors.dst fieldId
    rw [heq]
    exact enter he hsel hbody

theorem enterRepeatedFieldAt (vm : VmState) (fieldId index : ℕ) (hbody : ∀ vm, Runs False vm (body vm)) :
    Runs False vm (VmState.andThen (vm.enterRepeatedFieldAt fieldId index) body) := by
  unfold VmState.enterRepeatedFieldAt
  split_ifs with hsel
  · exact andThen (same (src_enterRepeatedFieldAt_ne _ _ _) rfl rfl fun _ => rfl) hbody
  · exact enter (enterRepeatedFieldAt_enters _ _ fieldId index) hsel hbody

theorem enterRepeatedFieldByKey (vm : VmState) (fieldId mapKeyFieldId key : ℕ) (hbody : ∀ vm, Runs False vm (body vm)) :
    Runs False vm (VmState.andThen (vm.enterRepeatedFieldByKey fieldId mapKeyFieldId key) body) := by
  unfold VmState.enterRepeatedFieldByKey
  split_ifs with hsel
  · exact andThen (same (by simp) rfl rfl fun _ => rfl) hbody
  · obtain ⟨e, he, heq⟩ := enterIfExists_enters vm fieldId fun st =>
      enterRepeatedFieldByKey_enters st vm.cursors.dst fieldId mapKeyFieldId key
    rw [heq]
    exact enter he hsel hbody

/-! ### Elements of a repeated field -/

theorem not_below_sibling (field : List ℕ) (key key' : ℕ) : ¬ Below (field ++ [key]) (field ++ [key']) := by
  rintro ⟨hp, hne⟩
  exact hne (hp.eq_of_length (by simp)).symm

section

variable (hbody : ∀ vm, Runs False vm (body vm))

include hbody

theorem atElement_trace (field : List ℕ) (key : ℕ) (vm : VmState) :
    vm.rw.trace <:+ (atElement body field key vm).2.rw.trace := by
  unfold atElement RwState.elementCursor
  cases vm.rw.root.get (field ++ [key]) with
  | none => exact List.suffix_rfl
  | some n =>
    exact (hbody (vm.setDst ⟨some ⟨field ++ [key], n.id⟩, none, vm.rw.nextBinding⟩
      { vm.rw with nextBinding := vm.rw.nextBinding + 1 })).uses.trace

/-- Running the code at an element that is there leaves the elements where they are: the cursor of an element has no
map to be deleted from. -/
theorem atElement_step {field : List ℕ} {key : ℕ} (hs : Sound vm.rw c) (hb : Below c.place (field ++ [key]))
    (hkey : (vm.rw.root.idAt (field ++ [key])).isSome) (hr : Respecting (atElement body field key vm).2.rw.trace) :
    (atElement body field key vm).1 ≠ .danglingCursor ∧ Step c vm.rw (atElement body field key vm).2.rw ∧
      Agree (fun q => ¬ Below (field ++ [key]) q) vm.rw.root (atElement body field key vm).2.rw.root := by
  obtain ⟨id, hid⟩ := Option.isSome_iff_exists.mp hkey
  obtain ⟨n, hget, rfl⟩ := Option.map_eq_some_iff.mp hid
  unfold atElement RwState.elementCursor at hr ⊢
  simp only [hget] at hr ⊢
  set e : RwProtoCursor := ⟨some ⟨field ++ [key], n.id⟩, none, vm.rw.nextBinding⟩
  set st : RwState := { vm.rw with nextBinding := vm.rw.nextBinding + 1 }
  have hu := (hbody (vm.setDst e st)).uses
  have hse : Sound st e := by
    refine ⟨.inr ⟨⟨n.id, rfl, hid⟩, fun o k ho => by cases ho⟩, Nat.lt_succ_self _, fun b hd => ?_⟩
    exact (hs.dels b hd).trans (Nat.lt_succ_self _)
  obtain ⟨hne, hstep⟩ := hu.sound hse hr
  have hfirst : Step c vm.rw st :=
    ⟨List.suffix_rfl, Nat.le_succ _, fun b hd => .inl hd, .refl _ _, fun _ => .refl _ _⟩
  refine ⟨hne, hfirst.of_below hstep hb le_rfl (Nat.lt_succ_self _), hstep.inside fun hd => ?_⟩
  rcases hstep.dels _ hd with hd | ⟨-, hh⟩ | hd
  · exact absurd (hs.dels _ hd) (lt_irrefl _)
  · cases hh
  · exact absurd hd.1 (Nat.not_succ_le_self _)

theorem forEach_trace (field keys : List ℕ) (vm : VmState) :
    vm.rw.trace <:+ (forEach (atElement body field) keys vm).2.rw.trace := by
  induction keys generalizing vm with
  | nil => exact List.suffix_rfl
  | cons key keys ih =>
    have hfirst := atElement_trace hbody field key vm
    rw [forEach, VmState.andThen]
    split_ifs
    · exact hfirst.trans (ih _)
    · exact hfirst

/-- The loop over elements that are there, as a step of the cursor at their message. -/
theorem forEach_step {field : List ℕ} (hb : ∀ key, Below c.place (field ++ [key])) (keys : List ℕ) (hs : Sound vm.rw c)
    (hkeys : ∀ key ∈ keys, (vm.rw.root.idAt (field ++ [key])).isSome)
    (hr : Respecting (forEach (atElement body field) keys vm).2.rw.trace) :
    (forEach (atElement body field) keys vm).1 ≠ .danglingCursor ∧
      Step c vm.rw (forEach (atElement body field) keys vm).2.rw := by
  induction keys generalizing vm with
  | nil => exact ⟨by simp [forEach], .refl c vm.rw⟩
  | cons key keys ih =>
    rw [forEach, VmState.andThen] at hr ⊢
    have hstep := atElement_step hbody hs (hb key) (hkeys key List.mem_cons_self)
    by_cases hok : (atElement body field key vm).1 = .kOk
    · rw [if_pos hok] at hr ⊢
      obtain ⟨-, hfirst, hkeep⟩ := hstep (hr.of_suffix (forEach_trace hbody field keys _))
      have hthere : ∀ key' ∈ keys, ((atElement body field key vm).2.rw.root.idAt (field ++ [key'])).isSome := by
        intro key' hk'
        rw [hkeep _ (not_below_sibling field key key')]
        exact hkeys key' (List.mem_cons_of_mem _ hk')
      obtain ⟨hne, hrest⟩ := ih (hfirst.sound hs) hthere hr
      exact ⟨hne, hfirst.trans hrest⟩
    · rw [if_neg hok] at hr ⊢
      obtain ⟨hne, hfirst, -⟩ := hstep hr
      exact ⟨hne, hfirst⟩

theorem forEach_selected (field keys : List ℕ)
    (hs : (forEach (atElement body field) keys vm).1 = .kOk ∨
      (forEach (atElement body field) keys vm).1 = .kError) :
    (forEach (atElement body field) keys vm).2.cursors.selected = vm.cursors.selected := by
  have hfirst : ∀ (key : ℕ) (vm : VmState), (atElement body field key vm).1 = .kOk ∨
      (atElement body field key vm).1 = .kError →
      (atElement body field key vm).2.cursors.selected = vm.cursors.selected := fun key vm => by
    unfold atElement
    cases vm.rw.elementCursor field key with
    | none => simp
    | some e => exact fun h => (hbody _).selected h
  induction keys generalizing vm with
  | nil => rfl
  | cons key keys ih =>
    rw [forEach, VmState.andThen] at hs ⊢
    by_cases hok : (atElement body field key vm).1 = .kOk
    · rw [if_pos hok] at hs ⊢
      exact (ih hs).trans (hfirst key vm (.inl hok))
    · rw [if_neg hok] at hs ⊢
      exact hfirst key vm hs

end

/-- The keys `IterateRepeatedField` returns are the ones of elements that are there. -/
theorem iterateRepeatedField_keys (st : RwState) (c : RwProtoCursor) (fieldId : ℕ) :
    ∀ key ∈ (st.iterateRepeatedField c fieldId).2.1,
      ((st.iterateRepeatedField c fieldId).2.2.root.idAt (c.path ++ [fieldId] ++ [key])).isSome := by
  intro key hkey
  unfold RwState.iterateRepeatedField at hkey ⊢
  simp only at hkey ⊢
  rw [Node.idAt, Option.isSome_map, Node.get_concat]
  cases hget : Node.get (c.path ++ [fieldId]) _ with
  | none => simp [hget] at hkey
  | some o =>
    simp only [hget] at hkey
    obtain ⟨e, he, rfl⟩ := List.mem_map.mp hkey
    cases hf : find o.value.entries e.1 with
    | none => exact absurd rfl (find_eq_none_iff.mp hf e he)
    | some n => simp [hf]

theorem forEachElement (vm : VmState) (fieldId : ℕ) (hbody : ∀ vm, Runs False vm (body vm))
    (hsel : vm.cursors.selected = .dst) : Runs False vm (VmState.forEachElement body fieldId vm) := by
  set c := vm.cursors.dst with hc
  have hnot : ¬ (False ∨ vm.cursors.selected = .src) := by simp [hsel]
  have hu : Uses c vm.rw (vm.rw.iterateRepeatedField c fieldId).1 (vm.rw.iterateRepeatedField c fieldId).2.2 :=
    onNode_uses _ _ _
  have htrace : (vm.rw.iterateRepeatedField c fieldId).2.2.trace = .use c.binding :: vm.rw.trace := onNode_trace _ _ _
  have hkeys := iterateRepeatedField_keys vm.rw c fieldId
  unfold VmState.forEachElement
  simp only [← hc]
  set it := vm.rw.iterateRepeatedField c fieldId
  set field := c.path ++ [fieldId] with hfield
  rw [VmState.andThen]
  by_cases hok : it.1 = .kOk
  · simp only [if_pos hok]
    have hsuffix := forEach_trace hbody field it.2.1 (vm.setDst c it.2.2)
    refine ⟨⟨hu.trace.trans hsuffix, fun hs hr => ?_⟩, fun h => absurd h hnot, fun h => ?_⟩
    · have hr₁ : Respecting it.2.2.trace := hr.of_suffix hsuffix
      obtain ⟨-, hstep⟩ := hu.sound hs hr₁
      have hs₁ : Sound it.2.2 c := hstep.sound hs
      have hpath : c.path = c.place := (hs₁.valid (by rw [htrace] at hr₁ ⊢; exact not_deleted hr₁)).path_eq
      have hb : ∀ key, Below c.place (field ++ [key]) := fun key => by
        rw [hfield, hpath]
        exact (below_concat c.place fieldId).concat key
      obtain ⟨hne, hloop⟩ := @forEach_step c (vm.setDst c it.2.2) body hbody field hb it.2.1 hs₁ hkeys hr
      exact ⟨hne, hstep.trans hloop⟩
    · exact forEach_selected hbody field it.2.1 h
  · simp only [if_neg hok]
    exact ⟨hu, fun h => absurd h hnot, fun _ => rfl⟩

/-! ### Instructions -/

theorem parseRegLoad (vm : VmState) (regLoad : RegLoad) : Runs True vm (vm.parseRegLoad regLoad) := by
  have hu : Uses vm.cursors.dst vm.rw (vm.rw.getScalar vm.cursors.dst).1 (vm.rw.getScalar vm.cursors.dst).2.2 :=
    onNode_uses _ _ _
  unfold VmState.parseRegLoad writeRegister
  by_cases hid : regLoad.dstRegister % 2 ^ 8 ≥ kNumRegisters
  · rw [if_pos hid]
    exact same (by simp) rfl rfl fun _ => rfl
  rw [if_neg hid]
  by_cases hsrc : cursorOf regLoad.cursor = .src
  · rw [if_pos hsrc]
    cases vm.cursors.src.getScalar with
    | none | some s => exact same (by simp) rfl rfl fun _ => rfl
  · rw [if_neg hsrc]
    dsimp only
    cases (vm.rw.getScalar vm.cursors.dst).2.1 with
    | none => exact ⟨hu, fun _ => .refl _ _, fun _ => rfl⟩
    | some s =>
      by_cases hok : (vm.rw.getScalar vm.cursors.dst).1 = .kOk
      · simp only [if_pos hok]
        exact ⟨hok ▸ hu, fun _ => .refl _ _, fun _ => rfl⟩
      · simp only [if_neg hok]
        exact ⟨hu, fun _ => .refl _ _, fun _ => rfl⟩

theorem onDstNode (vm : VmState) (op : NodeValue → Allocator → NodeResult) : Runs True vm (vm.onDstNode op) :=
  ⟨onNode_uses _ _ op, fun _ => .refl _ _, fun _ => rfl⟩

theorem merge (vm : VmState) (skip : Bool) : Runs True vm (vm.merge skip) := by
  unfold VmState.merge
  cases vm.cursors.src.getBytes with
  | none => exact same (by simp) rfl rfl fun _ => rfl
  | some data => exact onDstNode vm _

theorem set (vm : VmState) : Runs True vm vm.set := by
  unfold VmState.set
  cases vm.cursors.src.getScalar with
  | some s => exact onDstNode vm _
  | none =>
    cases vm.cursors.src.getBytes with
    | none => exact same (by simp) rfl rfl fun _ => rfl
    | some data => exact onDstNode vm _

theorem delete (vm : VmState) : Runs True vm vm.delete :=
  ⟨delete_uses _ _, fun _ => delete_kept _ _, fun _ => rfl⟩

/-- Every program runs safely from a sound cursor while the log is respected. -/
theorem programRules : ProgramRules (Runs True) (Runs False) where
  ok _ := same (by simp) rfl rfl fun _ => rfl
  abort _ := same (by simp) rfl rfl fun _ => rfl
  thenNext abortLevel hr hnext := hr.thenNext abortLevel hnext
  select _ hr := ⟨hr.uses, fun _ => .refl _ _, fun _ => rfl⟩
  badSelect _ _ := same (by simp) rfl rfl (by simp)
  instructions hr := hr.mono
  forEachSrc items hbody hsel := (forEachSrc hbody items hsel).mono
  forEachElement vm fieldId hbody hsel := forEachElement vm fieldId hbody hsel
  enterField := enterField
  enterRepeatedFieldAt := enterRepeatedFieldAt
  enterRepeatedFieldByKey := enterRepeatedFieldByKey
  regLoad vm regLoad hbody := (parseRegLoad vm regLoad).andThen hbody
  delete vm hbody := (delete vm).andThen hbody
  merge vm skip hbody := (merge vm skip).andThen hbody
  set vm hbody := (set vm).andThen hbody

end Runs

/-! ### Runs -/

/-- Only cursors that exist already are on record as deleted. -/
def Vm.DelsOld (vm : Vm) : Prop := ∀ b, .del b ∈ vm.state.rw.trace → b < vm.state.rw.nextBinding

theorem applyPatch_runs (vm : Vm) (packet : List UInt8) :
    vm.state.rw.trace <:+ (vm.applyPatch packet).2.state.rw.trace ∧
      (vm.DelsOld → Respecting (vm.applyPatch packet).2.state.rw.trace →
        (vm.applyPatch packet).1 ≠ .danglingCursor ∧ (vm.applyPatch packet).2.DelsOld) := by
  set st : RwState := { vm.state.rw with nextBinding := vm.state.rw.nextBinding + 1 } with hst
  set state : VmState := { vm.state with
    rw := st
    cursors := { vm.state.cursors with src := .bytes packet, dst := vm.state.rw.rootCursor } } with hstate
  have hu := (Runs.programRules.parseInstructions vm.program state).uses
  refine ⟨hu.trace, fun hdels hr => ?_⟩
  have hs : Sound st vm.state.rw.rootCursor := by
    refine ⟨.inr ⟨⟨_, rfl, rfl⟩, fun o key ho => by cases ho⟩, Nat.lt_succ_self _, fun b hb => ?_⟩
    exact (hdels b hb).trans (Nat.lt_succ_self _)
  obtain ⟨hne, hstep⟩ := hu.sound hs hr
  exact ⟨hne, hstep.dels_lt hs⟩

theorem applyPatches_runs {vm vm' : Vm} {packets : List (List UInt8)} (hrun : vm.applyPatches packets = some vm') :
    vm.state.rw.trace <:+ vm'.state.rw.trace ∧ (vm.DelsOld → Respecting vm'.state.rw.trace → vm'.DelsOld) := by
  induction packets generalizing vm with
  | nil =>
    cases hrun
    exact ⟨List.suffix_rfl, fun h _ => h⟩
  | cons packet packets ih =>
    obtain ⟨hsuffix, hstep⟩ := applyPatch_runs vm packet
    have hrest : (vm.applyPatch packet).2.applyPatches packets = some vm' := by
      rw [Vm.applyPatches] at hrun
      cases hs : (vm.applyPatch packet).1 <;> simp [hs] at hrun <;> exact hrun
    obtain ⟨hsuffix', hrest⟩ := ih hrest
    exact ⟨hsuffix.trans hsuffix', fun hd hr => hrest (hstep hd (hr.of_suffix hsuffix')).2 hr⟩

theorem delsOld_new (program : List Instruction) (memoryLimitBytes : ℕ) (initial : Option (List UInt8)) :
    (Vm.new program memoryLimitBytes initial).DelsOld := by
  intro b hb
  cases initial with
  | none => cases hb
  | some data =>
    have htrace := onNode_trace { root := ⟨0, .empty⟩, alloc := { memoryLimitBytes, nextId := 1 }, nextBinding := 1 }
      ⟨some ⟨[], 0⟩, none, 0⟩ fun v al => setBytes v data al
    have hmem : CursorEvent.del b ∈ [CursorEvent.use 0] := by
      rw [← htrace]
      exact hb
    simp at hmem

/-- As long as no cursor is used after a `del` went through it, no run of a program dereferences a pointer that
denotes no node of the tree. -/
theorem applyPatch_safe (program : List Instruction) (memoryLimitBytes : ℕ) (initial : Option (List UInt8))
    (packets : List (List UInt8)) (vm : Vm)
    (hrun : (Vm.new program memoryLimitBytes initial).applyPatches packets = some vm) (packet : List UInt8)
    (hr : Respecting (vm.applyPatch packet).2.state.rw.trace) : (vm.applyPatch packet).1 ≠ .danglingCursor := by
  obtain ⟨hsuffix, hstep⟩ := applyPatch_runs vm packet
  obtain ⟨-, hold⟩ := applyPatches_runs hrun
  exact (hstep (hold (delsOld_new program memoryLimitBytes initial) (hr.of_suffix hsuffix)) hr).1

/-- A program that enters field 1 of the state and deletes it, then goes on in the nested instructions. -/
def deleteField (nested : List Instruction) : List Instruction :=
  [.mk (some { cursor := some .dst, relativePath := [{ fieldId := some 1 }] }) none false none false none
    [.mk none none true none false none nested]]

theorem deleteField_safe : ((Vm.new (deleteField []) 4096 (some [8, 1])).applyPatch []).1 ≠ .danglingCursor := by
  have hrun : (Vm.new (deleteField []) 4096 (some [8, 1])).applyPatches [] =
      some (Vm.new (deleteField []) 4096 (some [8, 1])) := rfl
  have htrace : ((Vm.new (deleteField []) 4096 (some [8, 1])).applyPatch []).2.state.rw.trace =
      [.del 2, .use 2, .use 1, .use 1, .use 0] := rfl
  refine applyPatch_safe _ _ _ [] _ hrun [] ?_
  rw [htrace]
  simp [Respecting]

/-- A `merge` nested in a `del` works on the cursor the `del` has nulled. -/
theorem deleteField_merge_dangles :
    ((Vm.new (deleteField [.mk none none false (some false) false none []]) 4096 (some [8, 1])).applyPatch []).1 =
      .danglingCursor := rfl

end LynxTrace.ProtoVm
