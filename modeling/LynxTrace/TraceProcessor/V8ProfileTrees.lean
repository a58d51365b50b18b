import LynxTrace.TraceProcessor.LegacyV8CpuProfileTracker
import Mathlib.Data.List.Nodup

/-!
# TraceProcessor.V8ProfileTrees — the call trees that the callsites of V8 profiles spell
-/

namespace LynxTrace.TraceProcessor.V8Profile

/-! ### Profiles -/

/-- The parent of a node among the nodes that are there. -/
def parentOf (nodes : List Node) (n : Node) : Option ℕ :=
  match n.parent with
  | some parent => some parent
  | none => (nodes.find? (n.id ∈ ·.children)).map (·.id)

/-- The nodes have distinct ids and form a forest; a parent that a child names is sent first. -/
structure IsForest (nodes : List Node) : Prop where
  distinct : (nodes.map (·.id)).Nodup
  parentFirst : ∀ before n after p, nodes = before ++ n :: after → n.parent = some p → ∃ q ∈ before, q.id = p
  listedOnce : (nodes.flatMap (·.children)).Nodup
  agree : ∀ n ∈ nodes, ∀ q ∈ nodes, ∀ p, n.parent = some p → n.id ∈ q.children → q.id = p
  acyclic : ∃ rank : ℕ → ℕ, ∀ n ∈ nodes, ∀ p, parentOf nodes n = some p → rank p < rank n.id

/-- A node that got its parent after it had come. -/
def Late (nodes : List Node) (c : Node) : Prop :=
  ∃ before q after, nodes = before ++ q :: after ∧ c ∈ before ∧ c.id ∈ q.children

/-- What a node must find so that nothing is disturbed. -/
structure Undisturbed (nodes : List Node) (node : Node) : Prop where
  leaf : ∀ c ∈ nodes, c.id ∈ node.children → ∀ d ∈ nodes, parentOf nodes d ≠ some c.id
  alone : ∀ c ∈ nodes, c.id ∈ node.children → ∀ d ∈ nodes, parentOf nodes d = none → d.key = c.key →
    d.id ∈ node.children
  fresh : parentOf (nodes ++ [node]) node = none → ∀ c ∈ nodes, Late (nodes ++ [node]) c → c.key ≠ node.key

theorem Late.append {nodes : List Node} {c : Node} (h : Late nodes c) (more : List Node) : Late (nodes ++ more) c := by
  obtain ⟨before, q, after, rfl, hc, hq⟩ := h
  exact ⟨before, q, after ++ more, by rw [List.append_assoc]; rfl, hc, hq⟩

section

variable {nodes : List Node} {node : Node}

theorem parentOf_concat_of_some {n : Node} {p : ℕ} (h : parentOf nodes n = some p) :
    parentOf (nodes ++ [node]) n = some p := by
  unfold parentOf at h ⊢
  cases hparent : n.parent with
  | some q =>
    rw [hparent] at h
    exact h
  | none =>
    rw [hparent] at h
    dsimp only at h ⊢
    obtain ⟨q, hq, rfl⟩ := Option.map_eq_some_iff.mp h
    rw [List.find?_append, hq]
    rfl

/-- A node that the new one does not name keeps its parent. -/
theorem parentOf_concat_of_not_mem {n : Node} (h : n.id ∉ node.children) :
    parentOf (nodes ++ [node]) n = parentOf nodes n := by
  unfold parentOf
  cases n.parent with
  | some _ => rfl
  | none => simp [List.find?_append, h]

theorem IsForest.of_concat (h : IsForest (nodes ++ [node])) : IsForest nodes where
  distinct := (List.nodup_append.mp (by simpa using h.distinct)).1
  parentFirst before n after p hsplit hparent :=
    h.parentFirst before n (after ++ [node]) p (by rw [hsplit, List.append_assoc]; rfl) hparent
  listedOnce := by
    have := h.listedOnce
    rw [List.flatMap_append] at this
    exact (List.nodup_append.mp this).1
  agree n hn q hq := h.agree n (List.mem_append_left _ hn) q (List.mem_append_left _ hq)
  acyclic := by
    obtain ⟨rank, hrank⟩ := h.acyclic
    exact ⟨rank, fun n hn p hp => hrank n (List.mem_append_left _ hn) p (parentOf_concat_of_some hp)⟩

theorem IsForest.not_mem (h : IsForest (nodes ++ [node])) {n : Node} (hn : n ∈ nodes) : n.id ≠ node.id := by
  have := h.distinct
  rw [List.map_append, List.map_singleton, List.nodup_append] at this
  exact this.2.2 n.id (List.mem_map.mpr ⟨n, hn, rfl⟩) node.id (List.mem_singleton.mpr rfl)

/-- Nodes that name no parent themselves. -/
theorem IsForest.of_noParent (hroot : ∀ n ∈ nodes, n.parent = none) (hdistinct : (nodes.map (·.id)).Nodup)
    (hlisted : (nodes.flatMap (·.children)).Nodup)
    (hacyclic : ∃ rank : ℕ → ℕ, ∀ n ∈ nodes, ∀ p, parentOf nodes n = some p → rank p < rank n.id) :
    IsForest nodes where
  distinct := hdistinct
  parentFirst before n after p hsplit hp := by
    rw [hroot n (by rw [hsplit]; simp)] at hp
    cases hp
  listedOnce := hlisted
  agree n hn q hq p hp := by
    rw [hroot n hn] at hp
    cases hp
  acyclic := hacyclic

theorem IsForest.eq_of_id (h : IsForest nodes) {n m : Node} (hn : n ∈ nodes) (hm : m ∈ nodes) (heq : n.id = m.id) :
    n = m := List.inj_on_of_nodup_map h.distinct hn hm heq

/-- The parent of a node is a node. -/
theorem IsForest.exists_parent (h : IsForest nodes) {n : Node} (hn : n ∈ nodes) {p : ℕ}
    (hp : parentOf nodes n = some p) : ∃ q ∈ nodes, q.id = p := by
  unfold parentOf at hp
  cases hparent : n.parent with
  | some q =>
    rw [hparent] at hp
    obtain rfl := Option.some.inj hp
    obtain ⟨before, after, rfl⟩ := List.append_of_mem hn
    obtain ⟨q', hq', heq⟩ := h.parentFirst before n after _ rfl hparent
    exact ⟨q', List.mem_append_left _ hq', heq⟩
  | none =>
    rw [hparent] at hp
    obtain ⟨q, hq, rfl⟩ := Option.map_eq_some_iff.mp hp
    exact ⟨q, List.mem_of_find?_eq_some hq, rfl⟩

/-- No two nodes name one child. -/
theorem IsForest.not_listed (h : IsForest (nodes ++ [node])) {q : Node} (hq : q ∈ nodes) {c : ℕ}
    (hc : c ∈ q.children) : c ∉ node.children := by
  intro hcn
  have := h.listedOnce
  rw [List.flatMap_append, List.nodup_append] at this
  exact this.2.2 c (List.mem_flatMap.mpr ⟨q, hq, hc⟩) c (by simpa using hcn) rfl

/-- The new node names a node that is there: that one has had no parent, and gets the new one. -/
theorem IsForest.parentOf_child (h : IsForest (nodes ++ [node])) {n : Node} (hn : n ∈ nodes)
    (hchild : n.id ∈ node.children) :
    parentOf nodes n = none ∧ parentOf (nodes ++ [node]) n = some node.id ∧ Late (nodes ++ [node]) n := by
  have hfield : n.parent = none := by
    cases hparent : n.parent with
    | none => rfl
    | some p =>
      have heq := h.agree n (List.mem_append_left _ hn) node (by simp) p hparent hchild
      obtain ⟨before, after, rfl⟩ := List.append_of_mem hn
      obtain ⟨q, hq, hqp⟩ := h.of_concat.parentFirst before n after p rfl hparent
      exact absurd (hqp.trans heq.symm) (h.not_mem (List.mem_append_left _ hq))
  have hunlisted : nodes.find? (n.id ∈ ·.children) = none := by
    rw [List.find?_eq_none]
    exact fun q hq hlisted => h.not_listed hq (by simpa using hlisted) hchild
  refine ⟨?_, ?_, nodes, node, [], rfl, hn, hchild⟩
  · rw [parentOf, hfield, hunlisted]
    rfl
  · rw [parentOf, hfield, List.find?_append, hunlisted]
    simp [hchild]

theorem IsForest.not_self (h : IsForest (nodes ++ [node])) : node.id ∉ node.children := by
  intro hself
  obtain ⟨rank, hrank⟩ := h.acyclic
  have hloop : parentOf (nodes ++ [node]) node = some node.id := by
    unfold parentOf
    cases hparent : node.parent with
    | some p => exact congrArg some (h.agree node (by simp) node (by simp) p hparent hself).symm
    | none =>
      cases hfind : nodes.find? (node.id ∈ ·.children) with
      | none => simp [List.find?_append, hfind, hself]
      | some q =>
        exact absurd hself (h.not_listed (List.mem_of_find?_eq_some hfind) (by simpa using List.find?_some hfind))
  exact absurd (hrank node (by simp) _ hloop) (Nat.lt_irrefl _)

end

/-! ### The tables -/

/-- The frame has the function and the url. -/
def HasFrame (s : Storage) (frameId : ℕ) (key : FrameKey) : Prop :=
  ∃ mapping symbolSetId, s.frames[frameId]? = some ⟨key.1, mapping, some symbolSetId⟩ ∧
    ⟨symbolSetId, key.1, key.2⟩ ∈ s.symbols ∧
    ∀ row ∈ s.symbols, row.symbolSetId = symbolSetId → row = ⟨symbolSetId, key.1, key.2⟩

/-- A row has the parent, and its depth. -/
def Linked (rows : List CallsiteRow) (callsites : ℕ → Option ℕ) (row : CallsiteRow) : Option ℕ → Prop
  | none => row.parentId = none ∧ row.depth = 0
  | some p => ∃ rp rowp, callsites p = some rp ∧ rows[rp]? = some rowp ∧ row.parentId = some rp ∧
      row.depth = rowp.depth + 1

/-- The rows of a profile. -/
structure ProfileHolds (rows : List CallsiteRow) (state : State) (nodes : List Node) : Prop where
  callsites : ∀ id, (state.callsites id).isSome ↔ ∃ n ∈ nodes, n.id = id
  inferred : ∀ c p, state.callsiteInferredParents c = some p ↔ ∃ q ∈ nodes, q.id = p ∧ c ∈ q.children
  row : ∀ n ∈ nodes, ∃ r row, state.callsites n.id = some r ∧ rows[r]? = some row ∧
    state.mapping.internedDummyFrames n.key = some row.frameId ∧ Linked rows state.callsites row (parentOf nodes n)

/-- The frame of a node whose row, interned without a parent, has got one. -/
def Stale (states : ProfileId → Option State) (nodes : ProfileId → List Node) (frameId : ℕ) : Prop :=
  ∃ profile state c, states profile = some state ∧ c ∈ nodes profile ∧ Late (nodes profile) c ∧
    state.mapping.internedDummyFrames c.key = some frameId

/-- Such a frame stays one, as the mappings keep their frames and the profiles their nodes. -/
theorem Stale.mono {states states' : ProfileId → Option State} {nodes nodes' : ProfileId → List Node} {f : ℕ}
    (h : Stale states nodes f)
    (hstates : ∀ profile state, states profile = some state → ∃ state', states' profile = some state' ∧
      ∀ key, state.mapping.internedDummyFrames key = some f → state'.mapping.internedDummyFrames key = some f)
    (hnodes : ∀ profile, ∃ more, nodes' profile = nodes profile ++ more) : Stale states' nodes' f := by
  obtain ⟨profile, state, c, hstate, hc, hlate, hf⟩ := h
  obtain ⟨state', hstate', hkeep⟩ := hstates profile state hstate
  obtain ⟨more, hmore⟩ := hnodes profile
  refine ⟨profile, state', c, hstate', ?_, ?_, hkeep _ hf⟩
  · exact hmore ▸ List.mem_append_left _ hc
  · exact hmore ▸ hlate.append more

/-- The tables after the nodes of each profile have been added. -/
structure Holds (s : Storage) (states : ProfileId → Option State) (nodes : ProfileId → List Node) : Prop where
  symbols : ∀ row ∈ s.symbols, row.symbolSetId < s.symbols.length
  frame : ∀ profile state key f, states profile = some state → state.mapping.internedDummyFrames key = some f →
    HasFrame s f key
  frameUnique : ∀ profile profile' state state' key key' f, states profile = some state →
    states profile' = some state' → state.mapping.internedDummyFrames key = some f →
    state'.mapping.internedDummyFrames key' = some f → profile = profile' ∧ key = key'
  absent : ∀ profile, states profile = none → nodes profile = []
  profile : ∀ profile state, states profile = some state → ProfileHolds s.callsites state (nodes profile)
  index : ∀ key r, s.callsiteUniqueRowIndex key = some r → ∃ row, s.callsites[r]? = some row ∧
    (row = key ∨ key.parentId = none ∧ key.depth = 0 ∧ Stale states nodes key.frameId)
  indexUnique : ∀ key key' r, s.callsiteUniqueRowIndex key = some r → s.callsiteUniqueRowIndex key' = some r →
    key = key'

theorem Holds.init : Holds init.storage init.stateBySessionAndPid fun _ => [] where
  symbols _ h := nomatch h
  frame _ _ _ _ h := nomatch h
  frameUnique _ _ _ _ _ _ _ h := nomatch h
  absent _ _ := rfl
  profile _ _ h := nomatch h
  index _ _ h := nomatch h
  indexUnique _ _ _ h := nomatch h

theorem update_eq_some {α β : Type*} [DecidableEq α] {f : α → Option β} {a x : α} {b y : β}
    (h : Function.update f a (some b) x = some y) : x = a ∧ b = y ∨ x ≠ a ∧ f x = some y := by
  by_cases hx : x = a
  · subst hx
    rw [Function.update_self, Option.some.injEq] at h
    exact Or.inl ⟨rfl, h⟩
  · rw [Function.update_of_ne hx] at h
    exact Or.inr ⟨hx, h⟩

theorem update_eq_none {α β : Type*} [DecidableEq α] {f : α → Option β} {a x : α} {b : β}
    (h : Function.update f a (some b) x = none) : x ≠ a ∧ f x = none := by
  by_cases hx : x = a
  · subst hx
    rw [Function.update_self] at h
    cases h
  · rw [Function.update_of_ne hx] at h
    exact ⟨hx, h⟩

/-- `rows'` has all of `rows`. -/
def Extends (rows rows' : List CallsiteRow) : Prop :=
  ∀ (r : ℕ) (row : CallsiteRow), rows[r]? = some row → rows'[r]? = some row

theorem Linked.mono {rows rows' : List CallsiteRow} {callsites : ℕ → Option ℕ} {row : CallsiteRow}
    {p : Option ℕ} (h : Linked rows callsites row p) (hext : Extends rows rows') : Linked rows' callsites row p := by
  cases p with
  | none => exact h
  | some p =>
    obtain ⟨rp, rowp, hp, hrow, hlink⟩ := h
    exact ⟨rp, rowp, hp, hext _ _ hrow, hlink⟩

/-- A row without a parent is that of a node without one. -/
theorem Linked.eq_none {rows : List CallsiteRow} {callsites : ℕ → Option ℕ} {row : CallsiteRow} {p : Option ℕ}
    (h : Linked rows callsites row p) (hparent : row.parentId = none) : p = none := by
  cases p with
  | none => rfl
  | some p =>
    obtain ⟨_, _, _, _, hlink, _⟩ := h
    rw [hparent] at hlink
    cases hlink

theorem ProfileHolds.mono {rows rows' : List CallsiteRow} {state : State} {nodes : List Node}
    (h : ProfileHolds rows state nodes) (hext : Extends rows rows') : ProfileHolds rows' state nodes where
  callsites := h.callsites
  inferred := h.inferred
  row n hn := by
    obtain ⟨r, row, hr, hrow, hframe, hlink⟩ := h.row n hn
    exact ⟨r, row, hr, hext _ _ hrow, hframe, hlink.mono hext⟩

variable {s : Storage} {states : ProfileId → Option State} {nodes : ProfileId → List Node}

/-- A state whose mapping has been replaced. -/
theorem ProfileHolds.setMapping {rows : List CallsiteRow} {state : State} {nodes : List Node} {m : Mapping}
    (h : ProfileHolds rows state nodes)
    (hm : ∀ key f, state.mapping.internedDummyFrames key = some f → m.internedDummyFrames key = some f) :
    ProfileHolds rows { state with mapping := m } nodes where
  callsites := h.callsites
  inferred := h.inferred
  row n hn := by
    obtain ⟨r, row, hr, hrow, hframe, hlink⟩ := h.row n hn
    exact ⟨r, row, hr, hrow, hm _ _ hframe, hlink⟩

theorem HasFrame.lt {f : ℕ} {key : FrameKey} (h : HasFrame s f key) : f < s.frames.length := by
  obtain ⟨_, _, hf, _⟩ := h
  exact (List.getElem?_eq_some_iff.mp hf).1

/-- **A frame is interned**: the tables hold, and the frame has the key. -/
theorem Holds.internDummyFrame (h : Holds s states nodes) {profile : ProfileId} {state : State}
    (hstate : states profile = some state) (key : FrameKey) :
    ∃ s' m f, internDummyFrame s state.mapping key = (s', m, f) ∧ s'.callsites = s.callsites ∧
      m.internedDummyFrames key = some f ∧
      (∀ key' f', state.mapping.internedDummyFrames key' = some f' → m.internedDummyFrames key' = some f') ∧
      Holds s' (Function.update states profile (some { state with mapping := m })) nodes := by
  unfold V8Profile.internDummyFrame
  cases hknown : state.mapping.internedDummyFrames key with
  | some f =>
    refine ⟨s, state.mapping, f, rfl, rfl, hknown, fun _ _ => id, ?_⟩
    rw [← hstate, Function.update_eq_self]
    exact h
  | none =>
    set m : Mapping := { state.mapping with
      internedDummyFrames := Function.update state.mapping.internedDummyFrames key (some s.frames.length) } with hm
    have hself : m.internedDummyFrames key = some s.frames.length := Function.update_self _ _ _
    have hkeep : ∀ key' f', state.mapping.internedDummyFrames key' = some f' →
        m.internedDummyFrames key' = some f' := by
      intro key' f' hf'
      have hne : key' ≠ key := by
        rintro rfl
        rw [hknown] at hf'
        cases hf'
      exact (Function.update_of_ne hne _ _).trans hf'
    refine ⟨_, m, s.frames.length, rfl, rfl, hself, hkeep, ?_⟩
    -- a state of the new trackers is an old one, but for the new frame
    have hold : ∀ {p st k f}, Function.update states profile (some { state with mapping := m }) p = some st →
        st.mapping.internedDummyFrames k = some f →
        (p = profile ∧ k = key ∧ f = s.frames.length) ∨
          ∃ st', states p = some st' ∧ st'.mapping.internedDummyFrames k = some f := by
      intro p st k f hst hf
      rcases update_eq_some hst with ⟨rfl, rfl⟩ | ⟨-, hst⟩
      · rcases update_eq_some hf with ⟨rfl, rfl⟩ | ⟨-, hf⟩
        · exact Or.inl ⟨rfl, rfl, rfl⟩
        · exact Or.inr ⟨state, hstate, hf⟩
      · exact Or.inr ⟨st, hst, hf⟩
    constructor
    · intro row hrow
      rw [List.length_append, List.length_singleton]
      rcases List.mem_append.mp hrow with hrow | hrow
      · exact Nat.lt_succ_of_lt (h.symbols row hrow)
      · rw [List.mem_singleton.mp hrow]
        exact Nat.lt_succ_self _
    · intro p st k f hst hf
      rcases hold hst hf with ⟨rfl, rfl, rfl⟩ | ⟨st', hst', hf'⟩
      · refine ⟨state.mapping.id, s.symbols.length, List.getElem?_concat_length, by simp, fun row hrow hid => ?_⟩
        rcases List.mem_append.mp hrow with hrow | hrow
        · exact absurd (h.symbols row hrow) (by omega)
        · exact List.mem_singleton.mp hrow
      · obtain ⟨mapping, sym, hframe, hsym, honly⟩ := h.frame p st' k f hst' hf'
        refine ⟨mapping, sym, ?_, List.mem_append_left _ hsym, fun row hrow hid => ?_⟩
        · rw [List.getElem?_append_left (List.getElem?_eq_some_iff.mp hframe).1, hframe]
        · rcases List.mem_append.mp hrow with hrow | hrow
          · exact honly row hrow hid
          · rw [List.mem_singleton.mp hrow] at hid
            exact absurd (h.symbols _ hsym) (by dsimp only at hid ⊢; omega)
    · intro p p' st st' k k' f hst hst' hf hf'
      rcases hold hst hf with ⟨rfl, rfl, rfl⟩ | ⟨old, hold1, hf1⟩
      · rcases hold hst' hf' with ⟨rfl, rfl, _⟩ | ⟨old', hold2, hf2⟩
        · exact ⟨rfl, rfl⟩
        · exact absurd (h.frame _ _ _ _ hold2 hf2).lt (Nat.lt_irrefl _)
      · rcases hold hst' hf' with ⟨rfl, rfl, rfl⟩ | ⟨old', hold2, hf2⟩
        · exact absurd (h.frame _ _ _ _ hold1 hf1).lt (Nat.lt_irrefl _)
        · exact h.frameUnique _ _ _ _ _ _ _ hold1 hold2 hf1 hf2
    · exact fun p hp => h.absent p (update_eq_none hp).2
    · intro p st hst
      rcases update_eq_some hst with ⟨rfl, rfl⟩ | ⟨-, hst⟩
      · exact (h.profile p state hstate).setMapping hkeep
      · exact h.profile p st hst
    · intro k r hk
      obtain ⟨row, hrow, hright⟩ := h.index k r hk
      refine ⟨row, hrow, hright.imp id fun ⟨hparent, hdepth, hold⟩ => ⟨hparent, hdepth, hold.mono (fun p st hst => ?_)
        fun p => ⟨[], (List.append_nil _).symm⟩⟩⟩
      by_cases heq : p = profile
      · subst heq
        obtain rfl := Option.some.inj (hstate.symm.trans hst)
        exact ⟨_, Function.update_self _ _ _, fun k => hkeep k _⟩
      · exact ⟨st, (Function.update_of_ne heq _ _).trans hst, fun _ => id⟩
    · exact h.indexUnique

/-- **A callsite is interned**, if no row that has moved stands for it. -/
theorem Holds.internCallsite (h : Holds s states nodes) (parent : Option ℕ) (frameId depth : ℕ)
    (hfresh : parent = none → ¬ Stale states nodes frameId) :
    ∃ s' id, internCallsite s parent frameId depth = (s', id) ∧ Extends s.callsites s'.callsites ∧
      s'.callsites[id]? = some ⟨depth, parent, frameId⟩ ∧ Holds s' states nodes := by
  rcases internCallsite_cases s parent frameId depth with ⟨id, hid, hcall⟩ | ⟨hnone, hcall⟩
  · refine ⟨s, id, hcall, fun _ _ hrow => hrow, ?_, h⟩
    obtain ⟨row, hrow, hright⟩ := h.index _ id hid
    rcases hright with rfl | ⟨hparent, _, hstale⟩
    · exact hrow
    · exact absurd hstale (hfresh hparent)
  · have hext : Extends s.callsites (s.callsites ++ [⟨depth, parent, frameId⟩]) := fun r row hr => by
      rw [List.getElem?_append_left (List.getElem?_eq_some_iff.mp hr).1, hr]
    refine ⟨_, s.callsites.length, hcall, hext, List.getElem?_concat_length, ?_⟩
    constructor
    · exact h.symbols
    · exact h.frame
    · exact h.frameUnique
    · exact h.absent
    · exact fun p st hst => (h.profile p st hst).mono hext
    · intro k r hk
      rcases update_eq_some hk with ⟨rfl, rfl⟩ | ⟨-, hk⟩
      · exact ⟨_, List.getElem?_concat_length, Or.inl rfl⟩
      · obtain ⟨row, hrow, hright⟩ := h.index k r hk
        exact ⟨row, hext _ _ hrow, hright⟩
    · -- the new row has no other key
      have hlt : ∀ k r, s.callsiteUniqueRowIndex k = some r → r ≠ s.callsites.length := by
        intro k r hk heq
        obtain ⟨row, hrow, _⟩ := h.index k r hk
        exact absurd (List.getElem?_eq_some_iff.mp hrow).1 (by omega)
      intro k k' r hk hk'
      rcases update_eq_some hk with ⟨rfl, rfl⟩ | ⟨-, hk⟩ <;> rcases update_eq_some hk' with ⟨rfl, hr⟩ | ⟨-, hk'⟩
      · rfl
      · exact absurd rfl (hlt k' _ hk')
      · exact absurd hr.symm (hlt k r hk)
      · exact h.indexUnique k k' r hk hk'

/-! ### A node is added -/

/-- A node whose row `row` is at `callsiteId`, and the rows after those of its children have changed. -/
structure Adding (s : Storage) (states : ProfileId → Option State) (nodes : ProfileId → List Node)
    (profile : ProfileId) (state : State) (node : Node) (row : CallsiteRow) (callsiteId : ℕ)
    (rows : List CallsiteRow) : Prop where
  holds : Holds s states nodes
  known : states profile = some state
  forest : IsForest (nodes profile ++ [node])
  undisturbed : Undisturbed (nodes profile) node
  frame : state.mapping.internedDummyFrames node.key = some row.frameId
  placed : s.callsites[callsiteId]? = some row
  linked : Linked s.callsites state.callsites row (parentOf (nodes profile ++ [node]) node)
  adopted : Adopted state.callsites node.children row.depth callsiteId s.callsites rows

section

variable {profile : ProfileId} {state : State} {node : Node} {row : CallsiteRow} {callsiteId : ℕ}
  {rows : List CallsiteRow}

section

variable (h : Adding s states nodes profile state node row callsiteId rows)
include h

/-- A row that changes belongs to a child that had no parent. -/
theorem Adding.child {c r : ℕ} (hc : c ∈ node.children) (hr : state.callsites c = some r) :
    ∃ n ∈ nodes profile, n.id = c ∧ parentOf (nodes profile) n = none ∧ ∃ f, s.callsites[r]? = some ⟨0, none, f⟩ ∧
      state.mapping.internedDummyFrames n.key = some f := by
  have hp := h.holds.profile profile state h.known
  obtain ⟨n, hn, rfl⟩ := (hp.callsites c).mp (by rw [hr]; rfl)
  obtain ⟨r', ⟨d, parent, f⟩, hr', hrow, hframe, hlink⟩ := hp.row n hn
  obtain rfl := Option.some.inj (hr.symm.trans hr')
  have hnone := (h.forest.parentOf_child hn hc).1
  rw [hnone] at hlink
  obtain ⟨rfl, rfl⟩ := hlink
  exact ⟨n, hn, rfl, hnone, f, hrow, hframe⟩

/-- The row of a node that is not a child stays as it is. -/
theorem Adding.unchanged {n : Node} {r : ℕ} (hn : n ∈ nodes profile) (hnot : n.id ∉ node.children)
    (hr : state.callsites n.id = some r) :
    rows[r]? = s.callsites[r]? := by
  refine h.adopted.other r fun c hc hcr => hnot ?_
  obtain ⟨c', hc', rfl, _, f, hrow, hframe⟩ := h.child hc hcr
  obtain ⟨r', row', hr', hrow', hframe', hlink⟩ := (h.holds.profile profile state h.known).row n hn
  obtain rfl := Option.some.inj (hr.symm.trans hr')
  obtain rfl := Option.some.inj (hrow.symm.trans hrow')
  have hkey := (h.holds.frameUnique _ _ _ _ _ _ _ h.known h.known hframe' hframe).2
  exact h.undisturbed.alone c' hc' hc n hn (hlink.eq_none rfl) hkey

/-- The row of the new node stays as it is. -/
theorem Adding.unchanged_self : rows[callsiteId]? = some row := by
  rw [h.adopted.other callsiteId fun c hc hcr => ?_, h.placed]
  obtain ⟨c', hc', rfl, _, f, hrow, hframe⟩ := h.child hc hcr
  obtain rfl := Option.some.inj (h.placed.symm.trans hrow)
  have hkey := (h.holds.frameUnique _ _ _ _ _ _ _ h.known h.known hframe h.frame).2
  exact h.undisturbed.fresh (h.linked.eq_none rfl) c' hc' (h.forest.parentOf_child hc' hc).2.2 hkey

/-- The rows of other profiles stay as they are. -/
theorem Adding.unchanged_other {other : ProfileId} {state' : State} (hne : other ≠ profile)
    (hstate' : states other = some state') {id r : ℕ} (hr : state'.callsites id = some r) : rows[r]? = s.callsites[r]? := by
  refine h.adopted.other r fun c hc hcr => hne ?_
  have hp := h.holds.profile other state' hstate'
  obtain ⟨n, hn, rfl⟩ := (hp.callsites id).mp (by rw [hr]; rfl)
  obtain ⟨r', row', hr', hrow', hframe', _⟩ := hp.row n hn
  obtain rfl := Option.some.inj (hr.symm.trans hr')
  obtain ⟨c', _, rfl, _, f, hrow, hframe⟩ := h.child hc hcr
  obtain rfl := Option.some.inj (hrow.symm.trans hrow')
  exact (h.holds.frameUnique _ _ _ _ _ _ _ hstate' h.known hframe' hframe).1

/-- A link to a parent that is not a child of the new node is still one. -/
theorem Adding.relink {row' : CallsiteRow} {p : Option ℕ} (hlink : Linked s.callsites state.callsites row' p)
    (hnot : ∀ q, p = some q → q ∉ node.children) :
    Linked rows (Function.update state.callsites node.id (some callsiteId)) row' p := by
  cases p with
  | none => exact hlink
  | some q =>
    obtain ⟨rp, rowp, hq, hrowp, hparent, hdepth⟩ := hlink
    obtain ⟨n, hn, rfl⟩ := ((h.holds.profile profile state h.known).callsites q).mp (by rw [hq]; rfl)
    refine ⟨rp, rowp, ?_, ?_, hparent, hdepth⟩
    · rw [Function.update_of_ne (h.forest.not_mem hn), hq]
    · rw [h.unchanged hn (hnot _ rfl) hq, hrowp]

/-- The profile of the new node. -/
theorem Adding.profileHolds :
    ProfileHolds rows
      (nameChildren { state with callsites := Function.update state.callsites node.id (some callsiteId) } node.id
        node.children) (nodes profile ++ [node]) := by
  have hp := h.holds.profile profile state h.known
  constructor
  · intro id
    simp only [nameChildren, List.mem_append, List.mem_singleton]
    by_cases hid : id = node.id
    · subst hid
      rw [Function.update_self]
      exact ⟨fun _ => ⟨node, Or.inr rfl, rfl⟩, fun _ => rfl⟩
    · rw [Function.update_of_ne hid, hp.callsites]
      constructor
      · rintro ⟨n, hn, heq⟩
        exact ⟨n, Or.inl hn, heq⟩
      · rintro ⟨n, hn | rfl, rfl⟩
        · exact ⟨n, hn, rfl⟩
        · exact absurd rfl hid
  · intro c p
    simp only [nameChildren, List.mem_append, List.mem_singleton]
    by_cases hc : c ∈ node.children
    · rw [if_pos hc, Option.some.injEq]
      constructor
      · rintro rfl
        exact ⟨node, Or.inr rfl, rfl, hc⟩
      · rintro ⟨q, hq | rfl, rfl, hcq⟩
        · exact absurd hc (h.forest.not_listed hq hcq)
        · rfl
    · rw [if_neg hc, hp.inferred]
      constructor
      · rintro ⟨q, hq, heq⟩
        exact ⟨q, Or.inl hq, heq⟩
      · rintro ⟨q, hq | rfl, heq, hcq⟩
        · exact ⟨q, hq, heq, hcq⟩
        · exact absurd hcq hc
  · intro n hn
    simp only [nameChildren]
    rcases List.mem_append.mp hn with hn | hn
    · obtain ⟨r, row', hr, hrow', hframe, hlink⟩ := hp.row n hn
      have hr' : Function.update state.callsites node.id (some callsiteId) n.id = some r := by
        rw [Function.update_of_ne (h.forest.not_mem hn), hr]
      by_cases hc : n.id ∈ node.children
      · refine ⟨r, _, hr', h.adopted.adopted r row' hrow' ⟨n.id, hc, hr⟩, hframe, ?_⟩
        rw [(h.forest.parentOf_child hn hc).2.1]
        exact ⟨callsiteId, row, Function.update_self _ _ _, h.unchanged_self, rfl, rfl⟩
      · refine ⟨r, row', hr', by rw [h.unchanged hn hc hr, hrow'], hframe, ?_⟩
        rw [parentOf_concat_of_not_mem hc]
        refine h.relink hlink fun q hq hqc => ?_
        obtain ⟨p, hpn, rfl⟩ := h.forest.of_concat.exists_parent hn hq
        exact h.undisturbed.leaf p hpn hqc n hn hq
    · have hnode := hn
      obtain rfl := List.mem_singleton.mp hn
      have hn := List.mem_append_right (nodes profile) hnode
      refine ⟨callsiteId, row, Function.update_self _ _ _, h.unchanged_self, h.frame, ?_⟩
      refine h.relink h.linked fun q hq hqc => ?_
      -- a child of the node would be its parent
      obtain ⟨rank, hrank⟩ := h.forest.acyclic
      have hup := hrank n hn q hq
      obtain ⟨p, hpn, rfl⟩ := h.forest.exists_parent hn hq
      rcases List.mem_append.mp hpn with hpn | hpn
      · have hdown := hrank p (List.mem_append_left _ hpn) n.id (h.forest.parentOf_child hpn hqc).2.1
        omega
      · rw [List.mem_singleton.mp hpn] at hup
        omega

/-- **The tables hold** with the new node. -/
theorem Adding.holds' :
    Holds { s with callsites := rows }
      (Function.update states profile (some (nameChildren
        { state with callsites := Function.update state.callsites node.id (some callsiteId) } node.id node.children)))
      (Function.update nodes profile (nodes profile ++ [node])) := by
  set state' := nameChildren { state with callsites := Function.update state.callsites node.id (some callsiteId) }
    node.id node.children with hstate'
  -- the mappings are as they were
  have hold : ∀ {p st}, Function.update states profile (some state') p = some st →
      ∃ st', states p = some st' ∧ st'.mapping = st.mapping := by
    intro p st hst
    rcases update_eq_some hst with ⟨rfl, rfl⟩ | ⟨-, hst⟩
    · exact ⟨state, h.known, rfl⟩
    · exact ⟨st, hst, rfl⟩
  have hstale : ∀ {f}, Stale states nodes f → Stale (Function.update states profile (some state'))
      (Function.update nodes profile (nodes profile ++ [node])) f := fun hf => by
    refine hf.mono (fun p st hst => ?_) fun p => ?_
    · by_cases hp : p = profile
      · subst hp
        obtain rfl := Option.some.inj (h.known.symm.trans hst)
        exact ⟨state', Function.update_self _ _ _, fun _ => id⟩
      · exact ⟨st, (Function.update_of_ne hp _ _).trans hst, fun _ => id⟩
    · by_cases hp : p = profile
      · subst hp
        exact ⟨[node], Function.update_self _ _ _⟩
      · exact ⟨[], by rw [Function.update_of_ne hp, List.append_nil]⟩
  constructor
  · exact h.holds.symbols
  · intro p st key f hst hf
    obtain ⟨st', hst', hm⟩ := hold hst
    exact h.holds.frame p st' key f hst' (hm ▸ hf)
  · intro p p' st st' key key' f hst hst' hf hf'
    obtain ⟨old, hold1, hm⟩ := hold hst
    obtain ⟨old', hold2, hm'⟩ := hold hst'
    exact h.holds.frameUnique p p' old old' key key' f hold1 hold2 (hm ▸ hf) (hm' ▸ hf')
  · intro p hp
    obtain ⟨heq, hp⟩ := update_eq_none hp
    rw [Function.update_of_ne heq]
    exact h.holds.absent p hp
  · intro p st hst
    rcases update_eq_some hst with ⟨rfl, rfl⟩ | ⟨heq, hst⟩
    · rw [Function.update_self]
      exact h.profileHolds
    · rw [Function.update_of_ne heq]
      have hp := h.holds.profile p st hst
      refine ⟨hp.callsites, hp.inferred, fun n hn => ?_⟩
      obtain ⟨r, row', hr, hrow', hframe, hlink⟩ := hp.row n hn
      refine ⟨r, row', hr, by rw [← hrow']; exact h.unchanged_other heq hst hr, hframe, ?_⟩
      cases hparent : parentOf (nodes p) n with
      | none => rwa [hparent] at hlink
      | some q =>
        rw [hparent] at hlink
        obtain ⟨rp, rowp, hq, hrowp, hlink⟩ := hlink
        exact ⟨rp, rowp, hq, by rw [← hrowp]; exact h.unchanged_other heq hst hq, hlink⟩
  · intro key r hkey
    obtain ⟨row', hrow', hright⟩ := h.holds.index key r hkey
    by_cases hadopted : ∃ c ∈ node.children, state.callsites c = some r
    · refine ⟨_, h.adopted.adopted r row' hrow' hadopted, Or.inr ?_⟩
      obtain ⟨c, hc, hcr⟩ := hadopted
      obtain ⟨n, hn, rfl, _, f, hrow, hframe⟩ := h.child hc hcr
      obtain rfl := Option.some.inj (hrow.symm.trans hrow')
      rcases hright with rfl | ⟨hparent, hdepth, hold⟩
      · refine ⟨rfl, rfl, profile, _, n, Function.update_self _ _ _, ?_, ?_, hframe⟩
        · rw [Function.update_self]
          exact List.mem_append_left _ hn
        · rw [Function.update_self]
          exact (h.forest.parentOf_child hn hc).2.2
      · exact ⟨hparent, hdepth, hstale hold⟩
    · refine ⟨row', ?_, hright.imp id fun ⟨hparent, hdepth, hold⟩ => ⟨hparent, hdepth, hstale hold⟩⟩
      rw [← hrow']
      exact h.adopted.other r fun c hc hcr => hadopted ⟨c, hc, hcr⟩
  · exact h.holds.indexUnique

end

/-- The rows of the other profiles are the same. -/
def Untouched (rows rows' : List CallsiteRow) (states : ProfileId → Option State) (profile : ProfileId) : Prop :=
  ∀ other, other ≠ profile → ∀ state, states other = some state → ∀ id r, state.callsites id = some r →
    rows'[r]? = rows[r]?

theorem Holds.exists_row (h : Holds s states nodes) (hknown : states profile = some state) {id r : ℕ}
    (hr : state.callsites id = some r) : ∃ row, s.callsites[r]? = some row := by
  obtain ⟨n, hn, rfl⟩ := ((h.profile profile state hknown).callsites id).mp (by rw [hr]; rfl)
  obtain ⟨r', row, hr', hrow, _⟩ := (h.profile profile state hknown).row n hn
  exact ⟨row, Option.some.inj (hr.symm.trans hr') ▸ hrow⟩

/-- The frame of a node without a parent is not that of a row that has moved. -/
theorem Holds.not_stale (h : Holds s states nodes) (hknown : states profile = some state)
    (hundisturbed : Undisturbed (nodes profile) node) {f : ℕ}
    (hframe : state.mapping.internedDummyFrames node.key = some f)
    (hroot : parentOf (nodes profile ++ [node]) node = none) : ¬ Stale states nodes f := by
  rintro ⟨p, st, c, hst, hc, hlate, hf⟩
  obtain ⟨rfl, hkey⟩ := h.frameUnique _ _ _ _ _ _ _ hst hknown hf hframe
  exact hundisturbed.fresh hroot c hc (hlate.append _) hkey

/-- **The callsite and the children of a node**, once its frame and its parent are known. -/
theorem Holds.addNode (h : Holds s states nodes) (hknown : states profile = some state)
    (hforest : IsForest (nodes profile ++ [node])) (hundisturbed : Undisturbed (nodes profile) node)
    {frameId depth : ℕ} {parentRow : Option ℕ}
    (hframe : state.mapping.internedDummyFrames node.key = some frameId)
    (hlink : Linked s.callsites state.callsites ⟨depth, parentRow, frameId⟩
      (parentOf (nodes profile ++ [node]) node)) :
    ∃ s' state', addNode s state node frameId parentRow depth = some (s', state', .ok) ∧
      Holds s' (Function.update states profile (some state'))
        (Function.update nodes profile (nodes profile ++ [node])) ∧
      Untouched s.callsites s'.callsites states profile := by
  have hfresh : parentRow = none → ¬ Stale states nodes frameId := by
    rintro rfl
    exact h.not_stale hknown hundisturbed hframe (hlink.eq_none rfl)
  obtain ⟨s', id, hintern, hext, hrow, h'⟩ := h.internCallsite parentRow frameId depth hfresh
  have hlisted := hforest.listedOnce
  rw [List.flatMap_append, List.nodup_append] at hlisted
  have hcallsites : ∀ c ∈ node.children,
      Function.update state.callsites node.id (some id) c = state.callsites c := fun c hc =>
    Function.update_of_ne (fun heq : c = node.id => hforest.not_self (heq ▸ hc)) _ _
  obtain ⟨rows, hrun, hadopted⟩ := addChildren_spec node.id id depth s'
    { state with callsites := Function.update state.callsites node.id (some id) }
    (by simpa using hlisted.2.1)
    (fun c hc => by
      cases hinferred : state.callsiteInferredParents c with
      | none => rfl
      | some p =>
        obtain ⟨q, hq, _, hcq⟩ := ((h.profile profile state hknown).inferred c p).mp hinferred
        exact absurd hc (hforest.not_listed hq hcq))
    (fun c hc r hr => by
      dsimp only at hr
      rw [hcallsites c hc] at hr
      obtain ⟨row, hrow⟩ := h'.exists_row hknown hr
      exact (List.getElem?_eq_some_iff.mp hrow).1)
  have hadding : Adding s' states nodes profile state node ⟨depth, parentRow, frameId⟩ id rows := by
    refine ⟨h', hknown, hforest, hundisturbed, hframe, hrow, hlink.mono hext, hadopted.length, ?_, ?_⟩
    · rintro r row hr ⟨c, hc, hcr⟩
      exact hadopted.adopted r row hr ⟨c, hc, (hcallsites c hc).trans hcr⟩
    · exact fun r hr => hadopted.other r fun c hc hcr => hr c hc ((hcallsites c hc).symm.trans hcr)
  refine ⟨_, _, ?_, hadding.holds', fun other hne st hst i r hr => ?_⟩
  · rw [V8Profile.addNode, hintern]
    exact hrun
  · obtain ⟨row, hold⟩ := h.exists_row hst hr
    exact (hadding.unchanged_other hne hst hr).trans ((hext _ _ hold).trans hold.symm)

/-- What the state knows as the parent of the new node is its parent. -/
theorem ProfileHolds.knownParent {rows : List CallsiteRow} {ns : List Node} (h : ProfileHolds rows state ns)
    (hforest : IsForest (ns ++ [node])) : knownParent state node = parentOf (ns ++ [node]) node := by
  unfold V8Profile.knownParent parentOf
  cases node.parent with
  | some p => rfl
  | none =>
    dsimp only
    have hself : [node].find? (node.id ∈ ·.children) = none := by simp [hforest.not_self]
    rw [List.find?_append, hself, Option.or_none]
    cases hfind : ns.find? (node.id ∈ ·.children) with
    | none =>
      cases hinferred : state.callsiteInferredParents node.id with
      | none => rfl
      | some p =>
        obtain ⟨q, hq, _, hc⟩ := (h.inferred node.id p).mp hinferred
        exact absurd hc (by simpa using List.find?_eq_none.mp hfind q hq)
    | some q =>
      exact (h.inferred node.id q.id).mpr
        ⟨q, List.mem_of_find?_eq_some hfind, rfl, by simpa using List.find?_some hfind⟩

/-- **A node is added.** -/
theorem Holds.addToProfile (h : Holds s states nodes) (hknown : states profile = some state)
    (hforest : IsForest (nodes profile ++ [node])) (hundisturbed : Undisturbed (nodes profile) node) :
    ∃ s' state', addToProfile s state node = some (s', state', .ok) ∧
      Holds s' (Function.update states profile (some state'))
        (Function.update nodes profile (nodes profile ++ [node])) ∧
      Untouched s.callsites s'.callsites states profile := by
  have hnew : ¬ (state.callsites node.id).isSome := by
    rw [(h.profile profile state hknown).callsites]
    rintro ⟨n, hn, heq⟩
    exact hforest.not_mem hn heq
  obtain ⟨s₁, m, f, hintern, hrows, hframe, hkeep, h₁⟩ := h.internDummyFrame hknown node.key
  have hknown₁ : Function.update states profile (some { state with mapping := m }) profile =
      some { state with mapping := m } := Function.update_self _ _ _
  have hparent := (h₁.profile profile _ hknown₁).knownParent hforest
  have huntouched : ∀ {rows}, Untouched s₁.callsites rows
      (Function.update states profile (some { state with mapping := m })) profile →
      Untouched s.callsites rows states profile := by
    intro rows hrows' other hne st hst
    rw [← hrows]
    exact hrows' other hne st (by rw [Function.update_of_ne hne, hst])
  rw [V8Profile.addToProfile, if_neg hnew, hintern]
  dsimp only
  rw [hparent]
  cases hp : parentOf (nodes profile ++ [node]) node with
  | none =>
    obtain ⟨s', state', hadd, h', hsame⟩ := @Holds.addNode _ _ _ _ _ _ h₁ hknown₁ hforest hundisturbed
      _ 0 none hframe (by rw [hp]; exact ⟨rfl, rfl⟩)
    rw [Function.update_idem] at h'
    exact ⟨s', state', hadd, h', huntouched hsame⟩
  | some p =>
    obtain ⟨n, hn, rfl⟩ := hforest.exists_parent (List.mem_append_right _ (List.mem_singleton.mpr rfl)) hp
    have hmem : n ∈ nodes profile := by
      rcases List.mem_append.mp hn with hn | hn
      · exact hn
      · obtain ⟨rank, hrank⟩ := hforest.acyclic
        have := hrank node (by simp) n.id hp
        rw [List.mem_singleton.mp hn] at this
        exact absurd this (Nat.lt_irrefl _)
    obtain ⟨r, row, hr, hrow, _⟩ := (h₁.profile profile _ hknown₁).row n hmem
    obtain ⟨s', state', hadd, h', hsame⟩ := @Holds.addNode _ _ _ _ _ _ h₁ hknown₁ hforest
      hundisturbed _ (row.depth + 1) (some r) hframe (by rw [hp]; exact ⟨r, row, hr, hrow, rfl, rfl⟩)
    rw [Function.update_idem] at h'
    dsimp only at hr ⊢
    rw [hr]
    dsimp only
    rw [hrow, Option.bind_some]
    exact ⟨s', state', hadd, h', huntouched hsame⟩

end

/-! ### The trees -/

/-- The frames from a node up to its root. -/
inductive PathOf (nodes : List Node) : Node → List FrameKey → Prop
  | root {n : Node} : n ∈ nodes → parentOf nodes n = none → PathOf nodes n [n.key]
  | child {n p : Node} {path : List FrameKey} : n ∈ nodes → parentOf nodes n = some p.id → PathOf nodes p path →
      PathOf nodes n (n.key :: path)

/-- The links from a row up spell the frames, and its depth is the number of the links. -/
inductive Spells (s : Storage) : ℕ → List FrameKey → Prop
  | root {r frameId : ℕ} {key : FrameKey} : s.callsites[r]? = some ⟨0, none, frameId⟩ → HasFrame s frameId key →
      Spells s r [key]
  | child {r rp frameId : ℕ} {key : FrameKey} {path : List FrameKey} :
      s.callsites[r]? = some ⟨path.length, some rp, frameId⟩ → HasFrame s frameId key → Spells s rp path →
      Spells s r (key :: path)

/-- Every node of the profile maps to a row that spells its frames. -/
def Rebuilt (t : Tracker) (profile : ProfileId) (nodes : List Node) : Prop :=
  ∃ state, t.stateBySessionAndPid profile = some state ∧ ∀ n ∈ nodes, ∃ path, PathOf nodes n path ∧
    ∃ r, state.callsites n.id = some r ∧ Spells t.storage r path

theorem Spells.depth {s : Storage} {r : ℕ} {path : List FrameKey} (h : Spells s r path) :
    ∃ row, s.callsites[r]? = some row ∧ row.depth + 1 = path.length := by
  cases h with
  | root hrow _ => exact ⟨_, hrow, rfl⟩
  | child hrow _ _ => exact ⟨_, hrow, rfl⟩

theorem Holds.rebuilt {t : Tracker} (h : Holds t.storage t.stateBySessionAndPid nodes) {profile : ProfileId}
    {state : State} (hknown : t.stateBySessionAndPid profile = some state) (hforest : IsForest (nodes profile)) :
    Rebuilt t profile (nodes profile) := by
  have hp := h.profile profile state hknown
  obtain ⟨rank, hrank⟩ := hforest.acyclic
  refine ⟨state, hknown, fun n hn => ?_⟩
  induction hr : rank n.id using Nat.strongRecOn generalizing n with
  | ind k ih =>
    obtain ⟨r, ⟨depth, parentId, frameId⟩, hrow, hget, hframe, hlink⟩ := hp.row n hn
    have hhas := h.frame profile state n.key frameId hknown hframe
    cases hparent : parentOf (nodes profile) n with
    | none =>
      rw [hparent] at hlink
      obtain ⟨rfl, rfl⟩ := hlink
      exact ⟨_, .root hn hparent, r, hrow, .root hget hhas⟩
    | some p =>
      rw [hparent] at hlink
      obtain ⟨rp, rowp, hrp, hgetp, rfl, rfl⟩ := hlink
      obtain ⟨q, hq, rfl⟩ := hforest.exists_parent hn hparent
      obtain ⟨path, hpath, rq, hrq, hspells⟩ := ih (rank q.id) (hr ▸ hrank n hn q.id hparent) q hq rfl
      obtain rfl := Option.some.inj (hrp.symm.trans hrq)
      obtain ⟨row, hgetq, hdepth⟩ := hspells.depth
      obtain rfl := Option.some.inj (hgetp.symm.trans hgetq)
      exact ⟨_, .child hn hparent hpath, r, hrow, .child (hdepth ▸ hget) hhas hspells⟩

/-! ### Runs -/

/-- The nodes that have been added to a profile. -/
def nodesOf (calls : List Call) (profile : ProfileId) : List Node :=
  calls.filterMap fun
    | .add other node => if other = profile then some node else none
    | .start _ => none

/-- A profile is started before its nodes come, and its nodes form a forest. -/
structure WellFormed (calls : List Call) : Prop where
  started : ∀ before profile node after, calls = before ++ .add profile node :: after → .start profile ∈ before
  forest : ∀ profile, IsForest (nodesOf calls profile)

/-- No node disturbs those of its profile that came before it. -/
def NoneDisturbed (calls : List Call) : Prop :=
  ∀ before profile node after, calls = before ++ .add profile node :: after → Undisturbed (nodesOf before profile) node

theorem nodesOf_concat_start (calls : List Call) (profile : ProfileId) :
    nodesOf (calls ++ [.start profile]) = nodesOf calls := by
  funext other
  simp [nodesOf]

theorem nodesOf_concat_add (calls : List Call) (profile : ProfileId) (node : Node) :
    nodesOf (calls ++ [.add profile node]) =
      Function.update (nodesOf calls) profile (nodesOf calls profile ++ [node]) := by
  funext other
  by_cases h : other = profile
  · subst h
    simp [nodesOf]
  · rw [Function.update_of_ne h]
    simp [nodesOf, Ne.symm h]

theorem WellFormed.of_concat {calls : List Call} {call : Call} (h : WellFormed (calls ++ [call])) :
    WellFormed calls where
  started before profile node after hsplit :=
    h.started before profile node (after ++ [call]) (by rw [hsplit, List.append_assoc]; rfl)
  forest profile := by
    have := h.forest profile
    cases call with
    | start other => rwa [nodesOf_concat_start] at this
    | add other node =>
      rw [nodesOf_concat_add] at this
      by_cases heq : profile = other
      · subst heq
        rw [Function.update_self] at this
        exact this.of_concat
      · rwa [Function.update_of_ne heq] at this

theorem NoneDisturbed.of_concat {calls : List Call} {call : Call} (h : NoneDisturbed (calls ++ [call])) :
    NoneDisturbed calls := fun before profile node after hsplit =>
  h before profile node (after ++ [call]) (by rw [hsplit, List.append_assoc]; rfl)

theorem run_concat (calls : List Call) (call : Call) :
    run (calls ++ [call]) = (run calls).bind fun (t, statuses) =>
      match call with
      | .start profile => some (setStartTs t profile, statuses)
      | .add profile node => (addCallsite t profile node).map fun (t, status) => (t, statuses ++ [status]) := by
  rw [run, List.foldlM_append]
  congr 1
  funext ⟨t, statuses⟩
  rw [List.foldlM_cons]
  cases call with
  | start profile => rfl
  | add profile node => exact bind_pure _

/-- A profile is started. -/
theorem Holds.setStartTs {t : Tracker} (h : Holds t.storage t.stateBySessionAndPid nodes) (profile : ProfileId) :
    Holds (setStartTs t profile).storage (setStartTs t profile).stateBySessionAndPid nodes ∧
      ((setStartTs t profile).stateBySessionAndPid profile).isSome ∧
      ∀ other, (t.stateBySessionAndPid other).isSome →
        (setStartTs t profile).stateBySessionAndPid other = t.stateBySessionAndPid other := by
  unfold V8Profile.setStartTs
  cases hknown : t.stateBySessionAndPid profile with
  | some state => exact ⟨h, by rw [hknown]; rfl, fun _ _ => rfl⟩
  | none =>
    have hempty := h.absent profile hknown
    have hne : ∀ {p st key f}, Function.update t.stateBySessionAndPid profile
        (some ⟨fun _ => none, fun _ => none, ⟨t.storage.mappingCount, fun _ => none⟩⟩) p = some st →
        st.mapping.internedDummyFrames key = some f → t.stateBySessionAndPid p = some st := by
      intro p st key f hst hf
      rcases update_eq_some hst with ⟨rfl, rfl⟩ | ⟨-, hst⟩
      · cases hf
      · exact hst
    dsimp only
    refine ⟨⟨h.symbols, ?_, ?_, ?_, ?_, ?_, h.indexUnique⟩, ?_, ?_⟩
    · exact fun p st key f hst hf => h.frame p st key f (hne hst hf) hf
    · exact fun p p' st st' key key' f hst hst' hf hf' =>
        h.frameUnique p p' st st' key key' f (hne hst hf) (hne hst' hf') hf hf'
    · exact fun p hp => h.absent p (update_eq_none hp).2
    · intro p st hst
      rcases update_eq_some hst with ⟨rfl, rfl⟩ | ⟨-, hst⟩
      · rw [hempty]
        refine ⟨fun id => ?_, fun c p => ?_, fun n hn => nomatch hn⟩
        · simp
        · simp
      · exact h.profile p st hst
    · intro key r hkey
      obtain ⟨row, hrow, hright⟩ := h.index key r hkey
      refine ⟨row, hrow, hright.imp id fun ⟨hparent, hdepth, hold⟩ => ⟨hparent, hdepth, hold.mono (fun p st hst => ?_)
        fun p => ⟨[], (List.append_nil _).symm⟩⟩⟩
      have heq : p ≠ profile := by
        rintro rfl
        rw [hknown] at hst
        cases hst
      exact ⟨st, (Function.update_of_ne heq _ _).trans hst, fun _ => id⟩
    · rw [Function.update_self]
      rfl
    · intro other hother
      refine Function.update_of_ne (fun heq => ?_) _ _
      rw [heq, hknown] at hother
      cases hother

theorem addCallsite_of_known {t : Tracker} {profile : ProfileId} {state : State} (node : Node)
    (hknown : t.stateBySessionAndPid profile = some state) :
    addCallsite t profile node = (addToProfile t.storage state node).map fun (s, state, status) =>
      (⟨s, Function.update t.stateBySessionAndPid profile (some state)⟩, status) := by
  simp only [addCallsite, hknown]

/-- What any calls lead to. -/
theorem run_holds (calls : List Call) (hwell : WellFormed calls) (hnone : NoneDisturbed calls) :
    ∃ t statuses, run calls = some (t, statuses) ∧ (∀ status ∈ statuses, status = .ok) ∧
      Holds t.storage t.stateBySessionAndPid (nodesOf calls) ∧
      ∀ profile, .start profile ∈ calls → (t.stateBySessionAndPid profile).isSome := by
  induction calls using List.reverseRecOn with
  | nil => exact ⟨init, [], rfl, nofun, .init, nofun⟩
  | append_singleton calls call ih =>
    obtain ⟨t, statuses, hrun, hok, h, hstarted⟩ := ih hwell.of_concat hnone.of_concat
    rw [run_concat, hrun, Option.bind_some]
    cases call with
    | start profile =>
      obtain ⟨h', hnew, hother⟩ := h.setStartTs profile
      rw [nodesOf_concat_start]
      refine ⟨_, statuses, rfl, hok, h', fun other hother' => ?_⟩
      rcases List.mem_append.mp hother' with hmem | hmem
      · rw [hother other (hstarted other hmem)]
        exact hstarted other hmem
      · obtain rfl := Call.start.inj (List.mem_singleton.mp hmem)
        exact hnew
    | add profile node =>
      have hforest := hwell.forest profile
      rw [nodesOf_concat_add, Function.update_self] at hforest
      obtain ⟨state, hknown⟩ := Option.isSome_iff_exists.mp (hstarted profile (hwell.started calls profile node [] rfl))
      obtain ⟨s', state', hadd, h', _⟩ := h.addToProfile hknown hforest (hnone calls profile node [] rfl)
      refine ⟨⟨s', Function.update t.stateBySessionAndPid profile (some state')⟩, statuses ++ [.ok], ?_, ?_, ?_, ?_⟩
      · dsimp only
        rw [addCallsite_of_known node hknown, hadd, Option.map_some, Option.map_some]
      · intro status hstatus
        rcases List.mem_append.mp hstatus with hstatus | hstatus
        · exact hok status hstatus
        · exact List.mem_singleton.mp hstatus
      · rw [nodesOf_concat_add]
        exact h'
      · intro other hother
        dsimp only
        by_cases heq : other = profile
        · subst heq
          rw [Function.update_self]
          rfl
        · rw [Function.update_of_ne heq]
          rcases List.mem_append.mp hother with hmem | hmem
          · exact hstarted other hmem
          · cases List.mem_singleton.mp hmem

/-- A leaf, and after it the node that names it. -/
def leafFirst : List Call :=
  [.start (1, 2), .add (1, 2) ⟨2, none, ("leaf", none), []⟩, .add (1, 2) ⟨1, none, ("root", some "a.js"), [2]⟩]

theorem wellFormed_leafFirst : WellFormed leafFirst where
  started before profile node after hsplit := by
    rcases before with _ | ⟨c, before⟩
    · cases hsplit
    · obtain ⟨rfl, hrest⟩ := List.cons.inj hsplit
      have hmem : Call.add profile node ∈ leafFirst.tail := by
        show _ ∈ List.tail (_ :: _)
        rw [List.tail_cons, hrest]
        simp
      have hprofile : profile = (1, 2) := by
        simp [leafFirst] at hmem
        rcases hmem with ⟨h, _⟩ | ⟨h, _⟩ <;> exact h
      rw [hprofile]
      exact List.mem_cons_self
  forest profile := by
    by_cases hprofile : profile = (1, 2)
    · have hnodes : nodesOf leafFirst profile =
          [⟨2, none, ("leaf", none), []⟩, ⟨1, none, ("root", some "a.js"), [2]⟩] := by
        rw [hprofile]
        rfl
      rw [hnodes]
      exact .of_noParent (by simp) (by decide) (by decide) ⟨id, by decide⟩
    · have hnodes : nodesOf leafFirst profile = [] := by
        simp [nodesOf, leafFirst, Ne.symm hprofile]
      rw [hnodes]
      exact ⟨List.nodup_nil, fun _ _ _ _ h => by simp at h, List.nodup_nil, nofun, id, nofun⟩

theorem noneDisturbed_leafFirst : NoneDisturbed leafFirst := by
  intro before profile node after hsplit
  rcases before with _ | ⟨_, _ | ⟨_, _ | ⟨_, before⟩⟩⟩
  · cases hsplit
  · simp only [leafFirst, List.cons_append, List.nil_append, List.cons.injEq, Call.add.injEq] at hsplit
    obtain ⟨rfl, ⟨rfl, rfl⟩, _⟩ := hsplit
    exact ⟨nofun, nofun, fun _ => nofun⟩
  · simp only [leafFirst, List.cons_append, List.nil_append, List.cons.injEq, Call.add.injEq] at hsplit
    obtain ⟨rfl, rfl, ⟨rfl, rfl⟩, _⟩ := hsplit
    have hnodes : nodesOf [.start (1, 2), .add (1, 2) ⟨2, none, ("leaf", none), []⟩] (1, 2) =
        [⟨2, none, ("leaf", none), []⟩] := rfl
    rw [hnodes]
    refine ⟨by decide, by decide, fun _ c hc _ => ?_⟩
    rw [List.mem_singleton.mp hc]
    decide
  · simp [leafFirst] at hsplit

/-! ### Nodes from the leaf up -/

/-- A chain of three nodes, the leaf first. -/
def bottomUp : List Call :=
  [.start (1, 2), .add (1, 2) ⟨3, none, ("c", none), []⟩, .add (1, 2) ⟨2, none, ("b", none), [3]⟩,
    .add (1, 2) ⟨1, none, ("a", none), [2]⟩]

theorem PathOf.mem {nodes : List Node} {n : Node} {path : List FrameKey} (h : PathOf nodes n path) : n ∈ nodes := by
  cases h with
  | root hn _ => exact hn
  | child hn _ _ => exact hn

theorem isForest_bottomUp : IsForest (nodesOf bottomUp (1, 2)) := by
  have hnodes : nodesOf bottomUp (1, 2) =
      [⟨3, none, ("c", none), []⟩, ⟨2, none, ("b", none), [3]⟩, ⟨1, none, ("a", none), [2]⟩] := rfl
  rw [hnodes]
  exact .of_noParent (by simp) (by decide) (by decide) ⟨id, by decide⟩

end LynxTrace.TraceProcessor.V8Profile
