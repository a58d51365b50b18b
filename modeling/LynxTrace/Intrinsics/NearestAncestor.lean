import LynxTrace.Base.Preorder
import LynxTrace.Intrinsics.StructuralTreePartition

/-!
# NearestAncestor — what `structural_tree_partition` outputs for a tree
-/

namespace LynxTrace.TraceProcessor.Intrinsics.StructuralTreePartition

/-- The row that `a` names as its parent. -/
def parentIn (rows : List Node) (a : Node) : Option Node := a.parentId.bind fun p => rows.find? (·.id = p)

theorem parentIn_some {rows : List Node} {a p : Node} (h : parentIn rows a = some p) :
    p ∈ rows ∧ a.parentId = some p.id := by
  obtain ⟨i, hi, hp⟩ := Option.bind_eq_some_iff.mp h
  have hid := List.find?_some hp
  simp only [decide_eq_true_eq] at hid
  exact ⟨List.mem_of_find?_eq_some hp, hid ▸ hi⟩

structure RootedTree where
  rows : List Node
  root : Node
  nodup_ids : (rows.map (·.id)).Nodup
  root_mem : root ∈ rows
  root_iff : ∀ a ∈ rows, a.parentId = none ↔ a = root
  parent_mem : ∀ a ∈ rows, ∀ p ∈ a.parentId, p ∈ rows.map (·.id)
  acyclic : WellFounded (IsParent (parentIn rows))

namespace RootedTree

variable (t : RootedTree)

def forest : Forest Node := ⟨parentIn t.rows, t.acyclic⟩

/-- The nearest proper ancestor of the same group. -/
noncomputable def nearest (a : Node) : Option Node := (t.forest.ancestors a).find? (·.group = a.group)

/-- The output row the tree defines for a node. -/
noncomputable def expected (a : Node) : ℤ × Option ℤ × ℤ :=
  (a.id.toInt, (t.nearest a).map (·.id.toInt), a.group.toInt)

/-- All ids and groups are below the greatest `uint32_t`. -/
def Fits : Prop := ∀ a ∈ t.rows, InRange a.id ∧ InRange a.group

end RootedTree

def PartitionRow.toInts (e : PartitionRow) : ℤ × Option ℤ × ℤ := (e.node, e.parentNode.map Nat.cast, e.group)

/-- The table has each node of the tree once, with its own group and its nearest ancestor of that group. -/
def RootedTree.Partitioned (t : RootedTree) (table : List PartitionRow) : Prop :=
  (table.map PartitionRow.toInts).Perm (t.rows.map t.expected)

namespace RootedTree

variable {t : RootedTree}

/-! ### The tree -/

theorem eq_of_id_eq {a b : Node} (ha : a ∈ t.rows) (hb : b ∈ t.rows) (h : a.id = b.id) : a = b :=
  List.inj_on_of_nodup_map t.nodup_ids ha hb h

theorem parent_iff {a p : Node} (hp : p ∈ t.rows) : parentIn t.rows a = some p ↔ a.parentId = some p.id := by
  refine ⟨fun h => (parentIn_some h).2, fun h => ?_⟩
  obtain ⟨q, hq⟩ := Option.isSome_iff_exists.mp
    (List.find?_isSome (p := fun b : Node => decide (b.id = p.id)).mpr ⟨p, hp, by simp⟩)
  have hid := List.find?_some hq
  simp only [decide_eq_true_eq] at hid
  rw [parentIn, h, Option.bind_some, hq, eq_of_id_eq (List.mem_of_find?_eq_some hq) hp hid]

theorem parent_none_iff {a : Node} (ha : a ∈ t.rows) : parentIn t.rows a = none ↔ a = t.root := by
  rw [← t.root_iff a ha]
  refine ⟨fun h => ?_, fun h => by rw [parentIn, h, Option.bind_none]⟩
  cases hp : a.parentId with
  | none => rfl
  | some p =>
    obtain ⟨b, hb, rfl⟩ := List.mem_map.mp (t.parent_mem a ha p hp)
    rw [(parent_iff hb).mpr hp] at h
    cases h

/-- The children of a node, those on top of the stack first. -/
def children (t : RootedTree) (p : Node) : List Node := (t.rows.filter fun a => parentIn t.rows a = some p).reverse

theorem mem_children {p c : Node} : c ∈ t.children p ↔ c ∈ t.rows ∧ parentIn t.rows c = some p := by
  simp [children]

theorem walkOrder_perm (t : RootedTree) : (Forest.preorder t.children t.rows.length t.root).Perm t.rows := by
  have hnodup : t.rows.Nodup := t.nodup_ids.of_map _
  exact t.forest.preorder_perm hnodup (fun p c => mem_children) (fun p => List.nodup_reverse.mpr (hnodup.filter _))
    (fun c p _ hp => (parentIn_some hp).1) (fun c hc => parent_none_iff hc) t.root_mem

theorem Fits.parent_inRange (h : t.Fits) {a : Node} (ha : a ∈ t.rows) : ∀ p ∈ a.parentId, InRange p := by
  intro p hp
  obtain ⟨b, hb, rfl⟩ := List.mem_map.mp (t.parent_mem a ha p hp)
  exact (h b hb).1

theorem Fits.length_le (h : t.Fits) : t.rows.length ≤ 2 ^ 32 - 1 := by
  have hnodup : (t.rows.map fun a => toUint32 a.id).Nodup := by
    refine List.Nodup.map_on (fun a ha b hb hab => ?_) (t.nodup_ids.of_map _)
    exact eq_of_id_eq ha hb (((h a ha).1.toUint32_inj (h b hb).1).mp hab)
  have hsub : (t.rows.map fun a => toUint32 a.id) ⊆ List.range (2 ^ 32 - 1) := fun x hx => by
    obtain ⟨a, ha, rfl⟩ := List.mem_map.mp hx
    exact List.mem_range.mpr (h a ha).1.toUint32_lt
  have hle := (List.subperm_of_subset hnodup hsub).length_le
  rwa [List.length_map, List.length_range] at hle

/-! ### The walk -/

/-- The row that the walk inserts for a node. -/
noncomputable def entry (t : RootedTree) (a : Node) : PartitionRow :=
  ⟨toUint32 a.id, (t.nearest a).map fun b => toUint32 b.id, toUint32 a.group⟩

/-- The vector holds, for every group of the tree, the nearest ancestor of `a` that has the group. -/
def Above (t : RootedTree) (ancestorIdForGroup : List (Option ℕ)) (a : Node) : Prop :=
  ∀ b ∈ t.rows, ancestorIdForGroup[toUint32 b.group]? =
    some (((t.forest.ancestors a).find? (·.group = b.group)).map fun c => toUint32 c.id)

theorem Above.root (t : RootedTree) {n : ℕ} (hn : ∀ a ∈ t.rows, toUint32 a.group < n) :
    t.Above (List.replicate n none) t.root := by
  intro b hb
  rw [t.forest.ancestors_none ((parent_none_iff t.root_mem).mpr rfl), List.getElem?_replicate, if_pos (hn b hb)]
  rfl

/-- Below a node its groups name the node. -/
theorem Above.child (hfits : t.Fits) {anc : List (Option ℕ)} {a c : Node} (h : t.Above anc a) (ha : a ∈ t.rows)
    (hc : parentIn t.rows c = some a) : t.Above (anc.set (toUint32 a.group) (some (toUint32 a.id))) c := by
  intro b hb
  rw [t.forest.ancestors_some hc]
  by_cases hgroup : a.group = b.group
  · have hlength := (List.getElem?_eq_some_iff.mp (h b hb)).1
    rw [hgroup, List.getElem?_set_self hlength, List.find?_cons_of_pos (by simpa using hgroup)]
    rfl
  · have hne : toUint32 a.group ≠ toUint32 b.group := fun heq =>
      hgroup (((hfits a ha).2.toUint32_inj (hfits b hb).2).mp heq)
    rw [List.getElem?_set_ne hne, List.find?_cons_of_neg (by simpa using hgroup)]
    exact h b hb

theorem foldl_push (f : Row → StackState) (rows : List Row) (stack : List StackState) :
    rows.foldl (fun stack row => f row :: stack) stack = rows.reverse.map f ++ stack := by
  induction rows generalizing stack with
  | nil => rfl
  | cons row rows ih => simp [ih]

/-- A frame that was not looked at yet. -/
def frame (a : Node) : StackState := ⟨a.row, none, false⟩

variable {helper : LookupHelper}

/-- **The walk over a subtree** adds the rows of its nodes and leaves the stack and the vector as they were. -/
theorem walk_subtree (hfits : t.Fits)
    (hhelper : ∀ a ∈ t.rows, helper.childrenForId (toUint32 a.id) = .ok ((t.children a).reverse.map Node.row)) (k : ℕ) :
    ∀ a ∈ t.rows, t.forest.depth a + k = t.rows.length → ∀ anc, t.Above anc a → ∀ rounds stack table,
      walk helper (2 * (Forest.preorder t.children k a).length + rounds) (frame a :: stack) anc table =
        walk helper rounds stack anc (table ++ (Forest.preorder t.children k a).map t.entry) := by
  induction k with
  | zero =>
    intro a ha hdepth
    have := t.forest.depth_lt_length (fun c p _ hp => (parentIn_some hp).1) ha
    omega
  | succ k ih =>
    intro a ha hdepth anc hanc rounds stack table
    -- the children one after the other, from the top of the stack
    have hlist : ∀ cs : List Node, cs ⊆ t.children a → ∀ anc', (∀ c ∈ cs, t.Above anc' c) → ∀ rounds stack table,
        walk helper (2 * (cs.flatMap (Forest.preorder t.children k)).length + rounds) (cs.map frame ++ stack) anc'
          table =
          walk helper rounds stack anc' (table ++ (cs.flatMap (Forest.preorder t.children k)).map t.entry) := by
      intro cs
      induction cs with
      | nil => intro _ anc' _ rounds stack table; simp
      | cons c cs ihcs =>
        intro hsub anc' habove rounds stack table
        obtain ⟨hc, hcs⟩ := List.cons_subset.mp hsub
        obtain ⟨hmem, hparent⟩ := mem_children.mp hc
        have hdepthc : t.forest.depth c + k = t.rows.length := by
          rw [t.forest.depth_some hparent]
          omega
        rw [List.flatMap_cons, List.length_append, Nat.mul_add, Nat.add_assoc, List.map_cons, List.cons_append,
          ih c hmem hdepthc anc' (habove c List.mem_cons_self),
          ihcs hcs anc' (fun d hd => habove d (List.mem_cons_of_mem _ hd)), List.map_append, List.append_assoc]
    have hget : anc[a.row.group]? = some ((t.nearest a).map fun b => toUint32 b.id) := hanc a ha
    have hlength := (List.getElem?_eq_some_iff.mp hget).1
    have hrounds : 2 * (Forest.preorder t.children (k + 1) a).length + rounds =
        2 * ((t.children a).flatMap (Forest.preorder t.children k)).length + (rounds + 1) + 1 := by
      rw [Forest.preorder, List.length_cons]
      omega
    have hfirst : walk helper (2 * ((t.children a).flatMap (Forest.preorder t.children k)).length + (rounds + 1) + 1)
        (frame a :: stack) anc table =
        walk helper (2 * ((t.children a).flatMap (Forest.preorder t.children k)).length + (rounds + 1))
          ((t.children a).map frame ++ ⟨a.row, (t.nearest a).map fun b => toUint32 b.id, true⟩ :: stack)
          (anc.set a.row.group (some (toUint32 a.id))) (table ++ [t.entry a]) := by
      rw [walk]
      simp only [frame, hget, Bool.false_eq_true, if_false, show a.row.id = toUint32 a.id from rfl, hhelper a ha]
      rw [foldl_push (fun row => ⟨row, none, false⟩), ← List.map_reverse, List.reverse_reverse, List.map_map]
      rfl
    rw [hrounds, hfirst, hlist (t.children a) (List.Subset.refl _) (anc.set a.row.group (some (toUint32 a.id)))
      (fun c hc => hanc.child hfits ha (mem_children.mp hc).2)]
    -- the node again: its group gets back the ancestor it had
    have hrestore : anc.set a.row.group ((t.nearest a).map fun b => toUint32 b.id) = anc := by
      rw [← (List.getElem?_eq_some_iff.mp hget).2, List.set_getElem_self]
    rw [walk]
    simp only [List.getElem?_set_self hlength, if_true, List.set_set, hrestore]
    rw [Forest.preorder, List.map_cons, List.append_assoc, List.singleton_append]

/-! ### The whole run -/

/-- Where the numbers fit, the output is the walk over the whole tree. -/
theorem treePartition_eq (hfits : t.Fits) : treePartition (t.rows.map Node.argv) =
    .ok ((Forest.preorder t.children t.rows.length t.root).map t.entry) := by
  have hlength := hfits.length_le
  have hnodup : t.rows.Nodup := t.nodup_ids.of_map _
  have hroot : t.rows.Pairwise fun a b => a.parentId = none → b.parentId ≠ none := by
    refine List.Pairwise.imp_of_mem ?_ hnodup
    intro a b ha hb hne hnone hnone'
    exact hne (((t.root_iff a ha).mp hnone).trans ((t.root_iff b hb).mp hnone').symm)
  obtain ⟨ctx, hsteps, hctx⟩ := @Collected.steps [] t.rows {} .start hlength
    (fun a ha => ⟨(hfits a ha).1, (hfits a ha).2, hfits.parent_inRange ha⟩) hroot
  rw [List.nil_append] at hctx
  have hinput : ctx.input.length + 1 = t.rows.length := by
    have hone : t.rows.countP (·.parentId.isNone) = 1 := by
      rw [← List.count_eq_one_of_mem hnodup t.root_mem, List.count]
      refine List.countP_congr fun a ha => ?_
      rw [Option.isNone_iff_eq_none, t.root_iff a ha, beq_iff_eq]
    have hsplit := List.length_eq_countP_add_countP (fun a : Node => a.parentId.isNone) (l := t.rows)
    rw [hctx.input, List.length_map, ← List.countP_eq_length_filter, hsplit, hone, Nat.add_comm]
    refine congrArg (1 + ·) (List.countP_congr fun a _ => ?_)
    cases a.parentId <;> simp
  have hctxRoot : ctx.root = some t.root.row := by
    rw [hctx.root]
    cases hfind : t.rows.find? (·.parentId.isNone) with
    | none =>
      have := List.find?_eq_none.mp hfind t.root t.root_mem
      simp [(t.root_iff t.root t.root_mem).mpr rfl] at this
    | some a =>
      have hnone := List.find?_some hfind
      rw [Option.isNone_iff_eq_none, t.root_iff a (List.mem_of_find?_eq_some hfind)] at hnone
      rw [hnone]
      rfl
  obtain ⟨sums, sorted, hplace, hchildren⟩ := childrenOf_sorted (by omega) hctx.length hctx.parents hctx.counts
  have hhelper : ∀ a ∈ t.rows, LookupHelper.childrenForId ⟨sorted, sums⟩ (toUint32 a.id) =
      .ok ((t.children a).reverse.map Node.row) := by
    intro a ha
    rw [hchildren _ (hctx.indexed a ha), hctx.input, List.filter_map, List.filter_filter, children,
      List.reverse_reverse]
    refine congrArg (fun l => Except.ok (List.map Node.row l)) (List.filter_congr fun b hb => ?_)
    have hiff : (b.row.parentId = toUint32 a.id ∧ b.parentId.isSome) ↔ parentIn t.rows b = some a := by
      rw [parent_iff ha, Node.row]
      rcases hp : b.parentId with _ | p
      · simp
      · simp only [Option.elim_some, Option.isSome_some, and_true, Option.some_inj]
        exact (hfits.parent_inRange hb p hp).toUint32_inj (hfits a ha).1
    rw [Bool.eq_iff_iff]
    simp only [Function.comp_apply, Bool.and_eq_true, decide_eq_true_eq]
    exact hiff
  have hgroup : (ctx.maxGroup + 1) % 2 ^ 32 = ctx.maxGroup + 1 := Nat.mod_eq_of_lt (by
    have := hctx.maxGroup
    omega)
  have habove := Above.root t (n := ctx.maxGroup + 1) fun a ha => Nat.lt_succ_of_le (hctx.groups a ha)
  have hdepth : t.forest.depth t.root + t.rows.length = t.rows.length := by
    rw [Forest.depth, t.forest.ancestors_none ((parent_none_iff t.root_mem).mpr rfl), List.length_nil, Nat.zero_add]
  have hwalk := walk_subtree hfits hhelper t.rows.length t.root t.root_mem hdepth _ habove 1 [] []
  have hne : (t.rows.map Node.argv).isEmpty = false := by
    rw [List.isEmpty_eq_false_iff_exists_mem]
    exact ⟨_, List.mem_map_of_mem t.root_mem⟩
  rw [treePartition, hne, hsteps]
  simp only [Bool.false_eq_true, if_false, final, hctxRoot, hplace, hgroup, hinput]
  rw [(walkOrder_perm t).length_eq] at hwalk
  exact hwalk

theorem toInts_entry (hfits : t.Fits) {a : Node} (ha : a ∈ t.rows) : (t.entry a).toInts = t.expected a := by
  have hnearest : ∀ b ∈ t.nearest a, b ∈ t.rows := fun b hb =>
    t.forest.line_subset (fun c p _ hp => (parentIn_some hp).1) ha (List.mem_cons_of_mem _ (List.mem_of_find?_eq_some hb))
  rw [PartitionRow.toInts, entry, expected, (hfits a ha).1.toUint32_eq, (hfits a ha).2.toUint32_eq, Option.map_map]
  refine congrArg (fun p => (a.id.toInt, p, a.group.toInt)) (Option.map_congr fun b hb => ?_)
  exact (hfits b (hnearest b hb)).1.toUint32_eq

/-! ### Numbers that do not fit -/

theorem length_reserveId_lt {v : List ℕ} (hv : v.length < 2 ^ 32) (id : ℕ) : (reserveId v id).length < 2 ^ 32 := by
  have hmod := Nat.mod_lt (id + 1) (show 2 ^ 32 > 0 by decide)
  unfold reserveId resize
  split
  · rw [List.length_append, List.length_take, List.length_replicate]
    omega
  · exact hv

theorem step_length {ctx ctx' : AggCtx} {argv : List (Option Int64)} (h : step ctx argv = .ok ctx')
    (hctx : ctx.childCountById.length < 2 ^ 32) : ctx'.childCountById.length < 2 ^ 32 := by
  unfold step at h
  split at h
  · split at h
    · split at h
      · cases h
      · cases h
        exact length_reserveId_lt hctx _
    · simp only at h
      split at h
      · cases h
      · cases h
        rw [List.length_set]
        exact length_reserveId_lt hctx _
  · cases h

theorem steps_length {rows : List (List (Option Int64))} {ctx ctx' : AggCtx} (h : rows.foldlM step ctx = .ok ctx')
    (hctx : ctx.childCountById.length < 2 ^ 32) : ctx'.childCountById.length < 2 ^ 32 := by
  induction rows generalizing ctx with
  | nil => cases h; exact hctx
  | cons argv rows ih =>
    rw [List.foldlM_cons] at h
    cases hstep : step ctx argv with
    | error e => rw [hstep] at h; cases h
    | ok next =>
      rw [hstep] at h
      exact ih h (step_length hstep hctx)

theorem placeRows_length {rows : List Row} {sums sums' : List ℕ} {sorted sorted' : List Row}
    (h : placeRows sums sorted rows = .ok (sums', sorted')) : sums'.length = sums.length := by
  induction rows generalizing sums' sorted' with
  | nil => cases h; rfl
  | cons row rows ih =>
    rw [placeRows] at h
    cases hrest : placeRows sums sorted rows with
    | error e => rw [hrest] at h; cases h
    | ok r =>
      obtain ⟨sums₁, sorted₁⟩ := r
      rw [hrest] at h
      change placeRow sums₁ sorted₁ row = _ at h
      unfold placeRow at h
      split at h
      · cases h
      · simp only at h
        split at h
        · cases h
          rw [List.length_set, ih hrest]
        · cases h

/-- Whatever the walk inserts was found in both vectors. -/
theorem walk_bounds {rounds : ℕ} {stack : List StackState} {anc : List (Option ℕ)} {table table' : List PartitionRow}
    (h : walk helper rounds stack anc table = .ok table')
    (htable : ∀ e ∈ table, e.node < helper.childCountById.length ∧ e.group < anc.length) :
    ∀ e ∈ table', e.node < helper.childCountById.length ∧ e.group < anc.length := by
  induction rounds generalizing stack anc table with
  | zero => cases h
  | succ rounds ih =>
    cases stack with
    | nil => cases h; exact htable
    | cons ss stack =>
      rw [walk] at h
      cases hget : anc[ss.row.group]? with
      | none => rw [hget] at h; cases h
      | some ancestor =>
        simp only [hget] at h
        cases hdone : ss.firstPassDone with
        | true =>
          simp only [hdone, if_true] at h
          have := ih h
          rw [List.length_set] at this
          exact this htable
        | false =>
          simp only [hdone, Bool.false_eq_true, if_false] at h
          cases hchildren : helper.childrenForId ss.row.id with
          | error e => rw [hchildren] at h; cases h
          | ok children =>
            simp only [hchildren] at h
            have hid : ss.row.id < helper.childCountById.length := by
              by_contra hge
              rw [LookupHelper.childrenForId, List.getElem?_eq_none (Nat.not_lt.mp hge)] at hchildren
              cases hchildren
            have := ih h
            rw [List.length_set] at this
            refine this fun e he => ?_
            rcases List.mem_append.mp he with he | he
            · exact htable e he
            · rw [List.mem_singleton.mp he]
              exact ⟨hid, (List.getElem?_eq_some_iff.mp hget).1⟩

/-- No table holds the greatest `uint32_t` as an id or a group. -/
theorem treePartition_bounds {rows : List (List (Option Int64))} {table : List PartitionRow}
    (h : treePartition rows = .ok table) : ∀ e ∈ table, e.node < 2 ^ 32 - 1 ∧ e.group < 2 ^ 32 - 1 := by
  unfold treePartition at h
  split at h
  · cases h
    simp
  · cases hsteps : rows.foldlM step {} with
    | error e => rw [hsteps] at h; cases h
    | ok ctx =>
      have hctx := steps_length hsteps (by decide)
      simp only [hsteps, final] at h
      cases hroot : ctx.root with
      | none => rw [hroot] at h; cases h
      | some root =>
        simp only [hroot] at h
        cases hplace : placeRows (partialSum 0 ctx.childCountById) (List.replicate ctx.input.length default)
            ctx.input with
        | error e => rw [hplace] at h; cases h
        | ok r =>
          obtain ⟨sums, sorted⟩ := r
          simp only [hplace] at h
          have hsums : sums.length = ctx.childCountById.length := by
            rw [placeRows_length hplace, length_partialSum]
          have hgroup := Nat.mod_lt (ctx.maxGroup + 1) (show 2 ^ 32 > 0 by decide)
          intro e he
          obtain ⟨hid, hg⟩ := walk_bounds h (by simp) e he
          rw [List.length_replicate] at hg
          change e.node < sums.length at hid
          omega

/-- **The output is the partition of the tree exactly if all ids and groups are below the greatest `uint32_t`.** -/
theorem treePartition_iff (t : RootedTree) :
    (∃ table, treePartition (t.rows.map Node.argv) = .ok table ∧ t.Partitioned table) ↔ t.Fits := by
  constructor
  · rintro ⟨table, htable, hpartitioned⟩ a ha
    obtain ⟨e, he, heq⟩ := List.mem_map.mp (hpartitioned.mem_iff.mpr (List.mem_map_of_mem ha))
    obtain ⟨hid, hgroup⟩ := treePartition_bounds htable e he
    simp only [PartitionRow.toInts, expected, Prod.mk.injEq] at heq
    obtain ⟨heqId, -, heqGroup⟩ := heq
    exact ⟨⟨by omega, by omega⟩, ⟨by omega, by omega⟩⟩
  · intro hfits
    refine ⟨_, treePartition_eq hfits, ?_⟩
    rw [Partitioned, List.map_map]
    have hperm := (walkOrder_perm t).map (PartitionRow.toInts ∘ t.entry)
    refine hperm.trans (List.Perm.of_eq (List.map_congr_left fun a ha => ?_))
    exact toInts_entry hfits ha

/-- Where parents have smaller ids there is no cycle. -/
theorem acyclic_of_lt {rows : List Node} (h : ∀ a ∈ rows, ∀ p ∈ a.parentId, p < a.id) :
    WellFounded (IsParent (parentIn rows)) := by
  have hrow : ∀ n : ℕ, ∀ a ∈ rows, (a.id.toInt + 2 ^ 63).toNat < n → Acc (IsParent (parentIn rows)) a := by
    intro n
    induction n with
    | zero => exact fun _ _ hn => absurd hn (Nat.not_lt_zero _)
    | succ n ih =>
      intro a ha hn
      refine ⟨_, fun p hp => ?_⟩
      obtain ⟨hmem, hparent⟩ := parentIn_some hp
      have hlt := Int64.lt_iff_toInt_lt.mp (h a ha p.id hparent)
      have hmin := p.id.le_toInt
      exact ih p hmem (by omega)
  exact ⟨fun a => ⟨_, fun p hp => hrow _ p (parentIn_some hp).1 (Nat.lt_succ_self _)⟩⟩

/-- The groups 1 and 2 in turn on the way down from the root. -/
def interleaved : RootedTree where
  rows := [⟨2, some 1, 1⟩, ⟨0, none, 1⟩, ⟨1, some 0, 2⟩, ⟨4, some 2, 2⟩, ⟨3, some 1, 2⟩]
  root := ⟨0, none, 1⟩
  nodup_ids := by decide
  root_mem := by decide
  root_iff := by decide
  parent_mem := by simp
  acyclic := acyclic_of_lt (by simp)

theorem treePartition_interleaved :
    (∃ table, treePartition (interleaved.rows.map Node.argv) = .ok table ∧ interleaved.Partitioned table) ∧
      interleaved.Fits := by
  have hfits : interleaved.Fits := by
    unfold Fits InRange
    decide
  exact ⟨(treePartition_iff interleaved).mpr hfits, hfits⟩

/-- A tree of one node, in the group that the value -1 is cast to. -/
def lastGroup : RootedTree where
  rows := [⟨0, none, -1⟩]
  root := ⟨0, none, -1⟩
  nodup_ids := by decide
  root_mem := by decide
  root_iff := by decide
  parent_mem := by simp
  acyclic := acyclic_of_lt (by simp)

theorem not_treePartition_lastGroup : treePartition (lastGroup.rows.map Node.argv) = .error .outOfBounds ∧
    ¬ ∃ table, treePartition (lastGroup.rows.map Node.argv) = .ok table ∧ lastGroup.Partitioned table := by
  have hrun : treePartition (lastGroup.rows.map Node.argv) = .error .outOfBounds := by decide
  refine ⟨hrun, ?_⟩
  rintro ⟨table, h, -⟩
  rw [hrun] at h
  cases h

end RootedTree

end LynxTrace.TraceProcessor.Intrinsics.StructuralTreePartition
