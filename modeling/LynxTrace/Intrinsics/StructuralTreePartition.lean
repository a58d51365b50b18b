import Mathlib.Algebra.Order.Ring.Int
import Mathlib.Data.List.Induction
import Mathlib.Tactic.Common

/-!
# StructuralTreePartition — the rows of `structural_tree_partition` sorted by parent

`step`, `final` and `treePartition` follow `structural_tree_partition.cc`.  The `uint32_t` numbers wrap around; a read
or a write past the end of a vector stops the run with `Stop.outOfBounds`.
-/

namespace LynxTrace.TraceProcessor.Intrinsics.StructuralTreePartition

/-! ### The source -/

/-- How a run ends without a table. -/
inductive Stop
  | outOfBounds
  | unfinished
  | error (message : String)
  deriving DecidableEq, Repr

def kNullParentId : ℕ := 2 ^ 32 - 1

/-- `static_cast<uint32_t>` of a 64-bit SQL value. -/
def toUint32 (v : Int64) : ℕ := (v.toInt % 2 ^ 32).toNat

structure Row where
  id : ℕ
  parentId : ℕ
  group : ℕ
  deriving DecidableEq, Repr

instance : Inhabited Row := ⟨⟨0, 0, 0⟩⟩

structure AggCtx where
  input : List Row := []
  childCountById : List ℕ := []
  root : Option Row := none
  maxGroup : ℕ := 0
  deriving DecidableEq, Repr

/-- `std::vector::resize`. -/
def resize (v : List ℕ) (n : ℕ) : List ℕ := v.take n ++ List.replicate (n - v.length) 0

/-- `resize(id + 1)` where `id` is not an index yet; the sum is a `uint32_t`. -/
def reserveId (v : List ℕ) (id : ℕ) : List ℕ := if v.length ≤ id then resize v ((id + 1) % 2 ^ 32) else v

/-- One row of arguments, `none` for an SQL null; the value of a null read as a number is 0. -/
def step (ctx : AggCtx) (argv : List (Option Int64)) : Except Stop AggCtx :=
  match argv with
  | [id, parentId, group] =>
    let id := toUint32 (id.getD 0)
    let group := toUint32 (group.getD 0)
    let maxGroup := max ctx.maxGroup group
    match parentId with
    | none =>
      if ctx.root.isSome then
        .error (.error ("tree_partition: multiple NULL parent_ids. Only one root (i.e. one " ++
          "NULL parent_id) expected."))
      else
        .ok { ctx with
          maxGroup := maxGroup
          root := some ⟨id, kNullParentId, group⟩
          childCountById := reserveId ctx.childCountById id }
    | some parentId =>
      let parentId := toUint32 parentId
      let childCountById := reserveId ctx.childCountById (max id parentId)
      match childCountById[parentId]? with
      | none => .error .outOfBounds
      | some count =>
        .ok { ctx with
          maxGroup := maxGroup
          childCountById := childCountById.set parentId ((count + 1) % 2 ^ 32)
          input := ctx.input ++ [⟨id, parentId, group⟩] }
  | _ => .error (.error "tree_partition_arg: incorrect number of arguments")

/-- `std::partial_sum` of `uint32_t` numbers, after numbers that add up to `sum`. -/
def partialSum (sum : ℕ) : List ℕ → List ℕ
  | [] => []
  | count :: counts => (sum + count) % 2 ^ 32 :: partialSum ((sum + count) % 2 ^ 32) counts

/-- One row of the counting sort. -/
def placeRow (sums : List ℕ) (sorted : List Row) (row : Row) : Except Stop (List ℕ × List Row) :=
  match sums[row.parentId]? with
  | none => .error .outOfBounds
  | some sum =>
    let index := (sum + 2 ^ 32 - 1) % 2 ^ 32
    if index < sorted.length then .ok (sums.set row.parentId index, sorted.set index row) else .error .outOfBounds

/-- The counting sort, which takes the rows last to first. -/
def placeRows (sums : List ℕ) (sorted : List Row) : List Row → Except Stop (List ℕ × List Row)
  | [] => .ok (sums, sorted)
  | row :: rows => do
    let (sums, sorted) ← placeRows sums sorted rows
    placeRow sums sorted row

structure LookupHelper where
  rows : List Row
  childCountById : List ℕ
  deriving DecidableEq, Repr

/-- The rows between `ChildrenForIdBegin` and `ChildrenForIdEnd`. -/
def LookupHelper.childrenForId (helper : LookupHelper) (id : ℕ) : Except Stop (List Row) :=
  match helper.childCountById[id]? with
  | none => .error .outOfBounds
  | some start =>
    if (id + 1) % 2 ^ 32 = helper.childCountById.length then
      if start ≤ helper.rows.length then .ok (helper.rows.drop start) else .error .outOfBounds
    else
      match helper.childCountById[(id + 1) % 2 ^ 32]? with
      | none => .error .outOfBounds
      | some stop =>
        if start ≤ stop ∧ stop ≤ helper.rows.length then .ok ((helper.rows.drop start).take (stop - start))
        else .error .outOfBounds

/-- A row of the output table. -/
structure PartitionRow where
  node : ℕ
  parentNode : Option ℕ
  group : ℕ
  deriving DecidableEq, Repr

structure StackState where
  row : Row
  prevAncestorIdForGroup : Option ℕ
  firstPassDone : Bool
  deriving DecidableEq, Repr

/-- The loop of `Final` for a number of rounds; the back of the stack is the head of the list. -/
def walk (helper : LookupHelper) : ℕ → List StackState → List (Option ℕ) → List PartitionRow →
    Except Stop (List PartitionRow)
  | 0, _, _, _ => .error .unfinished
  | _ + 1, [], _, table => .ok table
  | rounds + 1, ss :: stack, ancestorIdForGroup, table =>
    match ancestorIdForGroup[ss.row.group]? with
    | none => .error .outOfBounds
    | some ancestor =>
      if ss.firstPassDone then
        walk helper rounds stack (ancestorIdForGroup.set ss.row.group ss.prevAncestorIdForGroup) table
      else
        match helper.childrenForId ss.row.id with
        | .error e => .error e
        | .ok children =>
          walk helper rounds
            (children.foldl (fun stack row => ⟨row, none, false⟩ :: stack) (⟨ss.row, ancestor, true⟩ :: stack))
            (ancestorIdForGroup.set ss.row.group (some ss.row.id))
            (table ++ [⟨ss.row.id, ancestor, ss.row.group⟩])

/-- `Final`; `none` is the context of a query without rows. -/
def final (ctx : Option AggCtx) : Except Stop (List PartitionRow) :=
  match ctx with
  | none => .ok []
  | some ctx =>
    match ctx.root with
    | none => .error (.error "tree_partition: no root in tree")
    | some root =>
      match placeRows (partialSum 0 ctx.childCountById) (List.replicate ctx.input.length default) ctx.input with
      | .error e => .error e
      | .ok (sums, sorted) =>
        walk ⟨sorted, sums⟩ (2 * (ctx.input.length + 1) + 1) [⟨root, none, false⟩]
          (List.replicate ((ctx.maxGroup + 1) % 2 ^ 32) none) []

/-- The aggregate function over rows of arguments. -/
def treePartition (rows : List (List (Option Int64))) : Except Stop (List PartitionRow) :=
  if rows.isEmpty then final none
  else
    match rows.foldlM step {} with
    | .error e => .error e
    | .ok ctx => final (some ctx)

/-! ### Trees -/

/-- A row of the tree that the query gives. -/
structure Node where
  id : Int64
  parentId : Option Int64
  group : Int64
  deriving DecidableEq, Repr

def Node.argv (a : Node) : List (Option Int64) := [some a.id, a.parentId, some a.group]

def Node.row (a : Node) : Row := ⟨toUint32 a.id, a.parentId.elim kNullParentId toUint32, toUint32 a.group⟩

/-- A number below the greatest `uint32_t`. -/
def InRange (v : Int64) : Prop := 0 ≤ v.toInt ∧ v.toInt < 2 ^ 32 - 1

theorem InRange.toUint32_eq {v : Int64} (h : InRange v) : (toUint32 v : ℤ) = v.toInt := by
  obtain ⟨h₀, h₁⟩ := h
  unfold toUint32
  omega

theorem InRange.toUint32_lt {v : Int64} (h : InRange v) : toUint32 v < 2 ^ 32 - 1 := by
  have heq := h.toUint32_eq
  have := h.2
  omega

theorem InRange.toUint32_inj {v w : Int64} (hv : InRange v) (hw : InRange w) : toUint32 v = toUint32 w ↔ v = w := by
  refine ⟨fun h => Int64.toInt_inj.mp ?_, congrArg _⟩
  rw [← hv.toUint32_eq, ← hw.toUint32_eq, h]

/-! ### Collecting the rows -/

theorem length_reserveId (v : List ℕ) {id : ℕ} (hid : id < 2 ^ 32 - 1) :
    (reserveId v id).length = max v.length (id + 1) := by
  have hmod : (id + 1) % 2 ^ 32 = id + 1 := Nat.mod_eq_of_lt (by omega)
  unfold reserveId resize
  rw [hmod]
  split
  · rw [List.length_append, List.length_take, List.length_replicate]
    omega
  · omega

theorem getElem?_reserveId {v : List ℕ} {id p c : ℕ} (hid : id < 2 ^ 32 - 1) (h : (reserveId v id)[p]? = some c) :
    v[p]? = some c ∨ v.length ≤ p ∧ c = 0 := by
  have hmod : (id + 1) % 2 ^ 32 = id + 1 := Nat.mod_eq_of_lt (by omega)
  unfold reserveId resize at h
  rw [hmod] at h
  split at h
  · rename_i hle
    rw [List.take_of_length_le (by omega)] at h
    by_cases hp : p < v.length
    · rw [List.getElem?_append_left hp] at h
      exact .inl h
    · rw [List.getElem?_append_right (by omega)] at h
      exact .inr ⟨by omega, (List.mem_replicate.mp (List.mem_of_getElem? h)).2⟩
  · exact .inl h

/-- The context holds what the steps over `nodes` gave it. -/
structure Collected (nodes : List Node) (ctx : AggCtx) : Prop where
  input : ctx.input = (nodes.filter (·.parentId.isSome)).map Node.row
  root : ctx.root = (nodes.find? (·.parentId.isNone)).map Node.row
  length : ctx.childCountById.length < 2 ^ 32
  indexed : ∀ a ∈ nodes, toUint32 a.id < ctx.childCountById.length
  parents : ∀ r ∈ ctx.input, r.parentId < ctx.childCountById.length
  counts : ∀ p c, ctx.childCountById[p]? = some c → c = ctx.input.countP (·.parentId = p)
  maxGroup : ctx.maxGroup < 2 ^ 32 - 1
  groups : ∀ a ∈ nodes, toUint32 a.group ≤ ctx.maxGroup

theorem Collected.start : Collected [] {} where
  input := rfl
  root := rfl
  length := by decide
  indexed := by simp
  parents := by simp
  counts := by simp
  maxGroup := by decide
  groups := by simp

/-- One more row of a tree whose numbers are in range. -/
theorem Collected.step {nodes : List Node} {ctx : AggCtx} (h : Collected nodes ctx) {a : Node}
    (hrows : nodes.length < 2 ^ 32 - 1) (hid : InRange a.id) (hgroup : InRange a.group)
    (hparent : ∀ p ∈ a.parentId, InRange p) (hroot : a.parentId = none → ∀ b ∈ nodes, b.parentId ≠ none) :
    ∃ ctx', StructuralTreePartition.step ctx a.argv = .ok ctx' ∧ Collected (nodes ++ [a]) ctx' := by
  have hmax : max ctx.maxGroup (toUint32 a.group) < 2 ^ 32 - 1 := Nat.max_lt.mpr ⟨h.maxGroup, hgroup.toUint32_lt⟩
  have hgroups : ∀ b ∈ nodes ++ [a], toUint32 b.group ≤ max ctx.maxGroup (toUint32 a.group) := by
    intro b hb
    rcases List.mem_append.mp hb with hb | hb
    · exact Nat.le_trans (h.groups b hb) (Nat.le_max_left _ _)
    · rw [List.mem_singleton.mp hb]
      exact Nat.le_max_right _ _
  cases hp : a.parentId with
  | none =>
    have hnoroot : nodes.find? (·.parentId.isNone) = none :=
      List.find?_eq_none.mpr fun b hb => by simpa using hroot hp b hb
    have hlength := length_reserveId ctx.childCountById hid.toUint32_lt
    refine ⟨_, by simp only [Node.argv, StructuralTreePartition.step, hp, h.root, hnoroot, Option.getD_some]; rfl, ?_⟩
    refine ⟨?_, ?_, ?_, fun b hb => ?_, fun r hr => ?_, fun p c hc => ?_, hmax, hgroups⟩
    · simp [h.input, hp]
    · simp [hnoroot, hp, Node.row]
    · show (reserveId _ _).length < _
      have := hid.toUint32_lt
      have := h.length
      omega
    · show _ < (reserveId _ _).length
      rw [hlength]
      rcases List.mem_append.mp hb with hb | hb
      · exact Nat.lt_of_lt_of_le (h.indexed b hb) (Nat.le_max_left _ _)
      · rw [List.mem_singleton.mp hb]
        omega
    · show _ < (reserveId _ _).length
      rw [hlength]
      exact Nat.lt_of_lt_of_le (h.parents r hr) (Nat.le_max_left _ _)
    · rcases getElem?_reserveId hid.toUint32_lt hc with hc | ⟨hlen, rfl⟩
      · exact h.counts p c hc
      · refine (List.countP_eq_zero.mpr fun r hr => ?_).symm
        have := h.parents r hr
        simp only [decide_eq_true_eq]
        omega
  | some p =>
    have hpr : InRange p := hparent p hp
    have hbig : max (toUint32 a.id) (toUint32 p) < 2 ^ 32 - 1 := Nat.max_lt.mpr ⟨hid.toUint32_lt, hpr.toUint32_lt⟩
    have hlength := length_reserveId ctx.childCountById hbig
    have hpl : toUint32 p < (reserveId ctx.childCountById (max (toUint32 a.id) (toUint32 p))).length := by omega
    have hcount : (reserveId ctx.childCountById (max (toUint32 a.id) (toUint32 p)))[toUint32 p]? =
        some (ctx.input.countP (·.parentId = toUint32 p)) := by
      rw [List.getElem?_eq_getElem hpl]
      rcases getElem?_reserveId hbig (List.getElem?_eq_getElem hpl) with hc | ⟨hlen, hc⟩
      · rw [h.counts _ _ hc]
      · rw [hc]
        refine congrArg some (List.countP_eq_zero.mpr fun r hr => ?_).symm
        have := h.parents r hr
        simp only [decide_eq_true_eq]
        omega
    refine ⟨_, by simp only [Node.argv, StructuralTreePartition.step, hp, Option.getD_some, hcount]; rfl, ?_⟩
    have hsmall : ctx.input.countP (·.parentId = toUint32 p) < 2 ^ 32 - 1 := by
      refine Nat.lt_of_le_of_lt List.countP_le_length ?_
      rw [h.input, List.length_map]
      exact Nat.lt_of_le_of_lt (List.length_filter_le _ _) hrows
    refine ⟨?_, ?_, ?_, fun b hb => ?_, fun r hr => ?_, fun q c hc => ?_, hmax, hgroups⟩
    · simp [h.input, hp, Node.row]
    · simp [h.root, hp]
    · rw [List.length_set]
      have := h.length
      omega
    · rw [List.length_set, hlength]
      rcases List.mem_append.mp hb with hb | hb
      · exact Nat.lt_of_lt_of_le (h.indexed b hb) (Nat.le_max_left _ _)
      · rw [List.mem_singleton.mp hb]
        omega
    · rw [List.length_set, hlength]
      rcases List.mem_append.mp hr with hr | hr
      · exact Nat.lt_of_lt_of_le (h.parents r hr) (Nat.le_max_left _ _)
      · rw [List.mem_singleton.mp hr]
        show toUint32 p < _
        omega
    · rw [List.countP_append]
      by_cases hq : toUint32 p = q
      · subst hq
        rw [List.getElem?_set_self hpl, Option.some_inj] at hc
        rw [← hc, Nat.mod_eq_of_lt (by omega)]
        simp
      · rw [List.getElem?_set_ne hq] at hc
        have hzero : [(⟨toUint32 a.id, toUint32 p, toUint32 a.group⟩ : Row)].countP (·.parentId = q) = 0 :=
          List.countP_eq_zero.mpr fun r hr => by
            rw [List.mem_singleton.mp hr]
            simpa using hq
        rw [hzero, Nat.add_zero]
        rcases getElem?_reserveId hbig hc with hc | ⟨hlen, rfl⟩
        · exact h.counts q c hc
        · refine (List.countP_eq_zero.mpr fun r hr => ?_).symm
          have := h.parents r hr
          simp only [decide_eq_true_eq]
          omega

/-- All rows of a tree, one step each. -/
theorem Collected.steps {nodes rest : List Node} {ctx : AggCtx} (h : Collected nodes ctx)
    (hrows : (nodes ++ rest).length ≤ 2 ^ 32 - 1)
    (hrange : ∀ a ∈ rest, InRange a.id ∧ InRange a.group ∧ ∀ p ∈ a.parentId, InRange p)
    (hroot : (nodes ++ rest).Pairwise fun a b => a.parentId = none → b.parentId ≠ none) :
    ∃ ctx', (rest.map Node.argv).foldlM StructuralTreePartition.step ctx = .ok ctx' ∧ Collected (nodes ++ rest) ctx' := by
  induction rest generalizing nodes ctx with
  | nil => exact ⟨ctx, rfl, by rwa [List.append_nil]⟩
  | cons a rest ih =>
    obtain ⟨⟨hid, hgroup, hparent⟩, hrest⟩ := List.forall_mem_cons.mp hrange
    obtain ⟨-, -, hbefore⟩ := List.pairwise_append.mp hroot
    obtain ⟨ctx', hstep, hctx'⟩ := h.step (by simp at hrows; omega) hid hgroup hparent
      fun hnone b hb hb' => hbefore b hb a List.mem_cons_self hb' hnone
    rw [List.append_cons] at hrows hroot ⊢
    obtain ⟨last, hlast, hcollected⟩ := ih hctx' hrows hrest hroot
    refine ⟨last, ?_, hcollected⟩
    rw [List.map_cons, List.foldlM_cons, hstep]
    exact hlast

/-! ### The counting sort -/

/-- The number of rows whose parent is below `p`. -/
def below (rows : List Row) (p : ℕ) : ℕ := rows.countP (·.parentId < p)

theorem below_zero (rows : List Row) : below rows 0 = 0 := by simp [below]

theorem below_succ (rows : List Row) (p : ℕ) : below rows (p + 1) = below rows p + rows.countP (·.parentId = p) := by
  unfold below
  induction rows with
  | nil => rfl
  | cons r rows ih =>
    simp only [List.countP_cons, ih, decide_eq_true_eq]
    split_ifs <;> omega

theorem below_mono (rows : List Row) {p q : ℕ} (h : p ≤ q) : below rows p ≤ below rows q :=
  List.countP_mono_left fun r _ hr => by
    simp only [decide_eq_true_eq] at hr ⊢
    omega

theorem below_le (rows : List Row) (p : ℕ) : below rows p ≤ rows.length := List.countP_le_length

theorem below_eq_length {rows : List Row} {n : ℕ} (h : ∀ r ∈ rows, r.parentId < n) : below rows n = rows.length :=
  List.countP_eq_length.mpr fun r hr => by simpa using h r hr

theorem length_partialSum (sum : ℕ) (counts : List ℕ) : (partialSum sum counts).length = counts.length := by
  induction counts generalizing sum with
  | nil => rfl
  | cons count counts ih => rw [partialSum, List.length_cons, List.length_cons, ih]

theorem getElem?_partialSum {rows : List Row} (hrows : rows.length < 2 ^ 32) {counts : List ℕ} {q : ℕ}
    (hcounts : ∀ i c, counts[i]? = some c → c = rows.countP (·.parentId = q + i)) {i : ℕ} (hi : i < counts.length) :
    (partialSum (below rows q) counts)[i]? = some (below rows (q + i + 1)) := by
  induction counts generalizing q i with
  | nil => simp at hi
  | cons count counts ih =>
    have hsum : (below rows q + count) % 2 ^ 32 = below rows (q + 1) := by
      rw [hcounts 0 count rfl, Nat.add_zero, ← below_succ]
      exact Nat.mod_eq_of_lt (Nat.lt_of_le_of_lt (below_le rows _) hrows)
    rw [partialSum, hsum]
    cases i with
    | zero => rfl
    | succ i =>
      rw [List.getElem?_cons_succ, ih (fun j c hj => ?_) (Nat.lt_of_succ_lt_succ hi)]
      · rw [Nat.add_right_comm q 1 i, ← Nat.add_assoc q i 1]
      · rw [hcounts (j + 1) c hj, Nat.add_right_comm, Nat.add_assoc]

/-- The rows after `pre` are placed, those of each parent from the back of its range. -/
structure Sorting (all pre : List Row) (n : ℕ) (sums : List ℕ) (sorted : List Row) : Prop where
  length_sums : sums.length = n
  length_sorted : sorted.length = all.length
  sums : ∀ p < n, sums[p]? = some (below all p + pre.countP (·.parentId = p))
  placed : ∀ p k r, pre.countP (·.parentId = p) ≤ k → (all.filter (·.parentId = p))[k]? = some r →
    sorted[below all p + k]? = some r

theorem Sorting.placeRow {all pre suf : List Row} {row : Row} {n : ℕ} {sums : List ℕ} {sorted : List Row}
    (h : Sorting all (pre ++ [row]) n sums sorted) (hall : all = pre ++ row :: suf) (hrows : all.length < 2 ^ 32)
    (hn : row.parentId < n) : ∃ sums' sorted', StructuralTreePartition.placeRow sums sorted row = .ok (sums', sorted') ∧
      Sorting all pre n sums' sorted' := by
  have hcount : (pre ++ [row]).countP (·.parentId = row.parentId) = pre.countP (·.parentId = row.parentId) + 1 := by
    simp
  have hother : ∀ p ≠ row.parentId, (pre ++ [row]).countP (·.parentId = p) = pre.countP (·.parentId = p) := by
    intro p hp
    simp [Ne.symm hp]
  have hsum := h.sums row.parentId hn
  rw [hcount] at hsum
  have hkth : (all.filter (·.parentId = row.parentId))[pre.countP (·.parentId = row.parentId)]? = some row := by
    rw [hall, List.filter_append, List.countP_eq_length_filter,
      List.getElem?_append_right (Nat.le_refl _), Nat.sub_self, List.filter_cons_of_pos (by simp)]
    rfl
  have hbound : ∀ {p k : ℕ} {r : Row}, (all.filter (·.parentId = p))[k]? = some r →
      below all p + k < below all (p + 1) := by
    intro p k r hr
    have hk := (List.getElem?_eq_some_iff.mp hr).1
    rw [← List.countP_eq_length_filter] at hk
    rw [below_succ]
    omega
  have hindex := hbound hkth
  have hindexLength := Nat.lt_of_lt_of_le hindex (below_le all _)
  have hmod : (below all row.parentId + (pre.countP (·.parentId = row.parentId) + 1) + 2 ^ 32 - 1) % 2 ^ 32 =
      below all row.parentId + pre.countP (·.parentId = row.parentId) := by omega
  refine ⟨_, _, by simp only [StructuralTreePartition.placeRow, hsum, hmod, h.length_sorted, if_pos hindexLength]; rfl, ?_⟩
  refine ⟨by rw [List.length_set, h.length_sums], by rw [List.length_set, h.length_sorted], fun p hp => ?_,
    fun p k r hk hr => ?_⟩
  · by_cases heq : row.parentId = p
    · subst heq
      rw [List.getElem?_set_self (by rw [h.length_sums]; exact hn)]
    · rw [List.getElem?_set_ne heq, h.sums p hp, hother p (Ne.symm heq)]
  · by_cases heq : row.parentId = p
    · subst heq
      by_cases hlast : k = pre.countP (·.parentId = row.parentId)
      · subst hlast
        rw [hkth] at hr
        rw [List.getElem?_set_self (by rw [h.length_sorted]; exact hindexLength), hr]
      · rw [List.getElem?_set_ne (by omega)]
        exact h.placed _ k r (by rw [hcount]; omega) hr
    · have hne : below all row.parentId + pre.countP (·.parentId = row.parentId) ≠ below all p + k := by
        have hpk := hbound hr
        rcases Nat.lt_or_gt_of_ne heq with hlt | hlt
        · have := below_mono all (Nat.succ_le_of_lt hlt)
          simp only [Nat.succ_eq_add_one] at this
          omega
        · have := below_mono all (Nat.succ_le_of_lt hlt)
          simp only [Nat.succ_eq_add_one] at this
          omega
      rw [List.getElem?_set_ne hne]
      exact h.placed p k r (by rw [hother p (Ne.symm heq)]; exact hk) hr

theorem Sorting.placeRows {all : List Row} {n : ℕ} (hrows : all.length < 2 ^ 32) (hn : ∀ r ∈ all, r.parentId < n)
    {suf : List Row} : ∀ {pre : List Row} {sums : List ℕ} {sorted : List Row}, all = pre ++ suf →
      Sorting all all n sums sorted → ∃ sums' sorted', StructuralTreePartition.placeRows sums sorted suf = .ok (sums', sorted') ∧
        Sorting all pre n sums' sorted' := by
  induction suf with
  | nil =>
    intro pre sums sorted hall h
    rw [List.append_nil] at hall
    exact ⟨sums, sorted, rfl, hall ▸ h⟩
  | cons row suf ih =>
    intro pre sums sorted hall h
    obtain ⟨sums₁, sorted₁, hrest, h₁⟩ := ih (hall.trans (List.append_cons pre row suf)) h
    obtain ⟨sums₂, sorted₂, hrow, h₂⟩ := h₁.placeRow hall hrows
      (hn row (hall ▸ List.mem_append_right _ List.mem_cons_self))
    refine ⟨sums₂, sorted₂, ?_, h₂⟩
    rw [StructuralTreePartition.placeRows, hrest]
    exact hrow

/-- **The sorted rows of an id are its children**, in the order of the input. -/
theorem childrenOf_sorted {all : List Row} {counts : List ℕ} (hrows : all.length < 2 ^ 32)
    (hlength : counts.length < 2 ^ 32) (hn : ∀ r ∈ all, r.parentId < counts.length)
    (hcounts : ∀ p c, counts[p]? = some c → c = all.countP (·.parentId = p)) :
    ∃ sums sorted, placeRows (partialSum 0 counts) (List.replicate all.length default) all = .ok (sums, sorted) ∧
      ∀ p < counts.length, LookupHelper.childrenForId ⟨sorted, sums⟩ p = .ok (all.filter (·.parentId = p)) := by
  have hstart : Sorting all all counts.length (partialSum 0 counts) (List.replicate all.length default) := by
    refine ⟨length_partialSum _ _, List.length_replicate, fun p hp => ?_, fun p k r hk hr => ?_⟩
    · have := getElem?_partialSum hrows (q := 0) (fun i c hc => by rw [Nat.zero_add]; exact hcounts i c hc) hp
      rwa [below_zero, Nat.zero_add, below_succ] at this
    · rw [List.countP_eq_length_filter] at hk
      exact absurd (List.getElem?_eq_some_iff.mp hr).1 (Nat.not_lt.mpr hk)
  obtain ⟨sums, sorted, hplace, h⟩ := @Sorting.placeRows all counts.length hrows hn all [] _ _ rfl hstart
  refine ⟨sums, sorted, hplace, fun p hp => ?_⟩
  have hsum := h.sums p hp
  rw [List.countP_nil, Nat.add_zero] at hsum
  have hmod : (p + 1) % 2 ^ 32 = p + 1 := Nat.mod_eq_of_lt (by omega)
  have hsucc := below_succ all p
  have hle := below_le all (p + 1)
  have hlist : (sorted.drop (below all p)).take (below all (p + 1) - below all p) = all.filter (·.parentId = p) := by
    refine List.ext_getElem? fun k => ?_
    by_cases hk : k < all.countP (·.parentId = p)
    · have hk' := hk
      rw [List.countP_eq_length_filter] at hk'
      rw [List.getElem?_take, if_pos (by omega), List.getElem?_drop, List.getElem?_eq_getElem hk']
      exact h.placed p k _ (by rw [List.countP_nil]; exact Nat.zero_le k) (List.getElem?_eq_getElem hk')
    · rw [List.getElem?_take, if_neg (by omega), List.getElem?_eq_none]
      rw [← List.countP_eq_length_filter]
      omega
  simp only [LookupHelper.childrenForId, hsum, hmod, h.length_sums, h.length_sorted]
  by_cases hlast : p + 1 = counts.length
  · have hall : below all (p + 1) = all.length := by rw [hlast, below_eq_length hn]
    rw [if_pos hlast, if_pos (by omega), ← hlist, List.take_of_length_le]
    exact Nat.le_of_eq (by rw [List.length_drop, h.length_sorted, hall])
  · have hnext := h.sums (p + 1) (by omega)
    rw [List.countP_nil] at hnext
    simp only [if_neg hlast, hnext, Nat.add_zero, hlist]
    rw [if_pos ⟨by omega, hle⟩]

end LynxTrace.TraceProcessor.Intrinsics.StructuralTreePartition
