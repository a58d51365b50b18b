import LynxTrace.Core.TreeLayout
import LynxTrace.Core.TreeSemantics

/-!
# Core.TreeSteps — one tree operation on a state that holds some rows of a forest

`Holds` says which rows are left and that the parent array gives each its nearest ancestor that is left.  Filtering
keeps it for the rows kept, and the columns keep their cells; propagating fills a column with the folds.
-/

namespace LynxTrace.TraceProcessor.Core

/-! ### Rows by their position -/

def rowAt (rows : List ℕ) (k : ℕ) : ℕ := rows.getD k 0

section RowAt

variable {rows : List ℕ}

theorem getElem?_eq_rowAt {k : ℕ} (hk : k < rows.length) : rows[k]? = some (rowAt rows k) := by
  simp [rowAt, hk]

theorem rowAt_of_getElem? {k r : ℕ} (h : rows[k]? = some r) : rowAt rows k = r := by
  simp [rowAt, List.getD_eq_getElem?_getD, h]

theorem rowAt_mem {k : ℕ} (hk : k < rows.length) : rowAt rows k ∈ rows := List.mem_of_getElem? (getElem?_eq_rowAt hk)

theorem rowAt_idxOf {r : ℕ} (hr : r ∈ rows) : rowAt rows (rows.idxOf r) = r :=
  rowAt_of_getElem? (List.getElem?_idxOf hr)

theorem idxOf_rowAt (hrows : rows.Nodup) {k : ℕ} (hk : k < rows.length) : rows.idxOf (rowAt rows k) = k := by
  have hget : rows[k] = rowAt rows k := Option.some.inj ((List.getElem?_eq_getElem hk).symm.trans (getElem?_eq_rowAt hk))
  rw [← hget]
  exact hrows.idxOf_getElem k hk

theorem map_rowAt_range (rows : List ℕ) : (List.range rows.length).map (rowAt rows) = rows := by
  refine List.ext_getElem? fun k => ?_
  rw [List.getElem?_map]
  rcases Nat.lt_or_ge k rows.length with hk | hk
  · rw [List.getElem?_range hk, Option.map_some, getElem?_eq_rowAt hk]
  · rw [List.getElem?_eq_none_iff.mpr (by simpa using hk), List.getElem?_eq_none_iff.mpr hk]
    rfl

/-- Keeping positions keeps the rows at them. -/
theorem map_rowAt_keptBelow (q : ℕ → Bool) :
    (keptBelow (fun k => q (rowAt rows k)) rows.length).map (rowAt rows) = rows.filter q := by
  conv_rhs => rw [← map_rowAt_range rows]
  rw [List.filter_map]
  rfl

end RowAt

theorem rowForest_parent_mem {F : Forest ℕ} {rows : List ℕ} {c p : ℕ} (h : (rowForest F rows).parent c = some p) :
    p ∈ rows := by
  simpa using List.find?_some h

/-! ### Nearest surviving ancestors -/

section Surviving

variable {G : Forest ℕ} {n : ℕ} {p2c : P2C}

/-- **The surviving ancestor** of a node is the node or its nearest ancestor that is kept. -/
theorem survivingAncestor_eq (h : Links G (List.range n) p2c.roots p2c.childrenOf) (keep : ℕ → Bool) {k : ℕ}
    (hk : k < n) :
    survivingAncestor n p2c keep k = ((k :: G.ancestors k).find? keep).getD kNullParent := by
  set A : ℕ → ℕ := fun k => ((k :: G.ancestors k).find? keep).getD kNullParent with hA
  set atRoots : ℕ → ℕ := p2c.roots.foldl (fun a root => if keep root then Function.update a root root else a)
    fun _ => kNullParent with hatRoots
  set visit : (ℕ → ℕ) → ℕ → ℕ → ℕ := fun a node =>
    (p2c.childrenOf node).foldl
      (fun acc child => Function.update acc child (if keep child then child else a node)) a with hvisit
  obtain ⟨queue, hrun, hperm, hfirst⟩ := breadthFirst_spec h visit atRoots
  have hroots : ∀ l : List ℕ, ∀ a : ℕ → ℕ, ∀ c,
      l.foldl (fun a root => if keep root then Function.update a root root else a) a c =
        if c ∈ l ∧ keep c then c else a c := by
    intro l
    induction l with
    | nil => simp
    | cons r l ih =>
      intro a c
      rw [List.foldl_cons, ih]
      by_cases hl : c ∈ l ∧ keep c
      · simp [hl]
      · by_cases hr : keep r <;> by_cases hc : c = r <;> simp_all
  have hchild : ∀ c p, G.parent c = some p → A c = if keep c then c else A p := by
    intro c p hp
    simp only [hA, G.ancestors_some hp]
    by_cases hc : keep c <;> simp [hc]
  -- the nodes in the queue have their surviving ancestor
  have hprefix : ∀ i ≤ queue.length, ∀ c, (c ∈ p2c.roots ∨ ∃ p ∈ queue.take i, c ∈ p2c.childrenOf p) →
      (queue.take i).foldl visit atRoots c = A c := by
    intro i
    induction i with
    | zero =>
      intro _ c hc
      have hcroot : c ∈ p2c.roots := by simpa using hc
      rw [List.take_zero, List.foldl_nil, hatRoots, hroots]
      simp only [hcroot, true_and, hA, G.ancestors_none ((h.mem_roots c).mp hcroot).2]
      by_cases hkeep : keep c <;> simp [hkeep]
    | succ i ih =>
      intro hi c hc
      obtain ⟨node, hnode⟩ : ∃ node, queue[i]? = some node := ⟨_, List.getElem?_eq_getElem (by omega)⟩
      have hin : node ∈ List.range n := hperm.subset (List.mem_of_getElem? hnode)
      have hbefore : (queue.take i).foldl visit atRoots node = A node := by
        refine ih (by omega) node ?_
        rcases hp : G.parent node with _ | p
        · exact .inl ((h.mem_roots node).mpr ⟨hin, hp⟩)
        · exact .inr ⟨p, hfirst i node p hnode hp, (h.mem_children p (h.closed node hin p hp) node).mpr ⟨hin, hp⟩⟩
      rw [List.take_add_one, hnode, Option.toList_some, List.foldl_append, List.foldl_cons, List.foldl_nil]
      have hset : visit ((queue.take i).foldl visit atRoots) node c =
          if c ∈ p2c.childrenOf node then (if keep c then c else A node)
          else (queue.take i).foldl visit atRoots c := by
        rw [← hbefore]
        exact foldl_update (fun child => if keep child then child else (queue.take i).foldl visit atRoots node) c _ _
      rw [hset]
      split
      · rename_i hcn
        exact (hchild c node ((h.mem_children node hin c).mp hcn).2).symm
      · rename_i hcn
        refine ih (by omega) c ?_
        rcases hc with hr | ⟨p, hp, hcp⟩
        · exact .inl hr
        · rw [List.take_add_one, hnode, Option.toList_some, List.mem_append, List.mem_singleton] at hp
          rcases hp with hp | rfl
          · exact .inr ⟨p, hp, hcp⟩
          · exact absurd hcp hcn
  have hmem : k ∈ List.range n := List.mem_range.mpr hk
  have hall := hprefix queue.length le_rfl k (by
    rcases hp : G.parent k with _ | p
    · exact .inl ((h.mem_roots k).mpr ⟨hmem, hp⟩)
    · have hpn := h.closed k hmem p hp
      exact .inr ⟨p, by simpa using hperm.symm.subset hpn, (h.mem_children p hpn k).mpr ⟨hmem, hp⟩⟩)
  rw [List.take_length] at hall
  rw [List.length_range] at hrun
  rw [survivingAncestor]
  exact (congrFun (congrArg Prod.snd hrun) k).trans hall

end Surviving

/-! ### The state of a tree -/

theorem toParentId_eq_some {p j : ℕ} : toParentId p = some j ↔ p = j ∧ j ≠ kNullParent := by
  rw [toParentId]
  split
  · rename_i h
    simp only [reduceCtorEq, false_iff, not_and, not_not]
    rintro rfl
    exact h
  · rename_i h
    rw [Option.some_inj]
    constructor
    · rintro rfl
      exact ⟨rfl, h⟩
    · exact And.left

theorem toParentId_eq_none {p : ℕ} : toParentId p = none ↔ p = kNullParent := by
  simp [toParentId]

/-- The state holds these rows of the forest, each with its nearest ancestor among them as parent. -/
structure TreeState.Holds (F : Forest ℕ) (n : ℕ) (ts : TreeState) (rows : List ℕ) : Prop where
  lt : n < 2 ^ 32
  rowCount : ts.rowCount = rows.length
  nodup : rows.Nodup
  length_le : rows.length ≤ n
  parent_length : ts.parent.length = n
  parent : ∀ k < rows.length,
    toParentId (ts.parentAt k) = ((rowForest F rows).parent (rowAt rows k)).map rows.idxOf
  originalRows_length : ts.originalRows.length = n
  originalRows : ∀ k < rows.length, ts.originalRows[k]? = rows[k]?
  p2c : ∀ p, ts.p2c = some p → p = buildP2C ts.rowCount ts.parentAt

namespace TreeState.Holds

variable {F : Forest ℕ} {n : ℕ} {ts : TreeState} {rows : List ℕ}

/-- The parent array as a forest on the positions. -/
noncomputable def positions (h : ts.Holds F n rows) : Forest ℕ :=
  (rowForest F rows).comap (rowAt rows) (fun k => if k < rows.length then toParentId (ts.parentAt k) else none) <| by
    intro k p hp
    split at hp
    · rename_i hk
      rw [h.parent k hk] at hp
      obtain ⟨r, hr, rfl⟩ := Option.map_eq_some_iff.mp hp
      rw [rowAt_idxOf (rowForest_parent_mem hr), hr]
    · cases hp

section

variable (h : ts.Holds F n rows)

include h

theorem positions_parent {k : ℕ} (hk : k < rows.length) :
    h.positions.parent k = toParentId (ts.parentAt k) := if_pos hk

theorem parentAt_lt {k p : ℕ} (hk : k < rows.length) (hp : toParentId (ts.parentAt k) = some p) : p < rows.length := by
  rw [h.parent k hk] at hp
  obtain ⟨r, hr, rfl⟩ := Option.map_eq_some_iff.mp hp
  exact List.idxOf_lt_length_of_mem (rowForest_parent_mem hr)

theorem parentAt_bound {k : ℕ} (hk : k < rows.length) : ts.parentAt k = kNullParent ∨ ts.parentAt k < rows.length := by
  rcases hp : toParentId (ts.parentAt k) with _ | p
  · exact .inl (toParentId_eq_none.mp hp)
  · rw [(toParentId_eq_some.mp hp).1]
    exact .inr (h.parentAt_lt hk hp)

theorem length_le_kNullParent : rows.length ≤ kNullParent := by
  have hlt := h.lt
  have hle := h.length_le
  rw [kNullParent]
  omega

/-- The ancestors of a position are at the positions of the ancestors that are left. -/
theorem map_positions_ancestors {k : ℕ} (hk : k < rows.length) :
    (h.positions.ancestors k).map (rowAt rows) =
      (F.ancestors (rowAt rows k)).filter fun row => decide (row ∈ rows) := by
  rw [← F.restrict_ancestors]
  refine Forest.map_ancestors (rowForest F rows) (D := (· < rows.length)) (fun b hb => ?_) (fun b p hb hp => ?_) hk
  · rw [h.positions_parent hb, h.parent b hb, Option.map_map]
    rcases hp : (rowForest F rows).parent (rowAt rows b) with _ | r
    · rfl
    · exact congrArg some (rowAt_idxOf (rowForest_parent_mem hp))
  · rw [h.positions_parent hb] at hp
    exact h.parentAt_lt hb hp

theorem buildP2C_eq : ts.buildP2CFromTreeState = buildP2C rows.length ts.parentAt := by
  rw [TreeState.buildP2CFromTreeState]
  rcases hp : ts.p2c with _ | p
  · rw [Option.getD_none, h.rowCount]
  · rw [Option.getD_some, h.p2c p hp, h.rowCount]

/-- The parent-to-children arrays link the positions. -/
theorem links :
    Links h.positions (List.range rows.length) ts.buildP2CFromTreeState.roots ts.buildP2CFromTreeState.childrenOf := by
  obtain ⟨hroots, hchildren⟩ := buildP2C_spec h.length_le_kNullParent fun i hi => h.parentAt_bound hi
  rw [h.buildP2C_eq, hroots]
  have hkNull := h.length_le_kNullParent
  refine ⟨List.nodup_range, fun c hc p hp => ?_, ?_, fun c => ?_, fun p hp => ?_, fun p hp c => ?_⟩
  · rw [List.mem_range] at hc ⊢
    exact h.parentAt_lt hc (h.positions_parent hc ▸ hp)
  · exact List.nodup_range.filter _
  · rw [mem_kids, List.mem_range]
    refine and_congr_right fun hc => ?_
    rw [h.positions_parent hc, toParentId_eq_none]
  · rw [hchildren p (List.mem_range.mp hp)]
    exact List.nodup_range.filter _
  · rw [hchildren p (List.mem_range.mp hp), mem_kids, List.mem_range]
    refine and_congr_right fun hc => ?_
    rw [h.positions_parent hc, toParentId_eq_some]
    have hpn := List.mem_range.mp hp
    exact (and_iff_left (by omega)).symm

theorem positions_ancestors_lt {k j : ℕ} (hk : k < rows.length) (hj : j ∈ h.positions.ancestors k) :
    j < rows.length := by
  revert hk
  refine h.positions.induction (motive := fun k => j ∈ h.positions.ancestors k → k < rows.length → j < rows.length)
    ?_ ?_ k hj
  · intro c hc hj
    rw [h.positions.ancestors_none hc] at hj
    cases hj
  · intro c p hp ih hj hc
    have hpn := h.parentAt_lt hc (h.positions_parent hc ▸ hp)
    rw [h.positions.ancestors_some hp] at hj
    rcases List.mem_cons.mp hj with rfl | hj
    · exact hpn
    · exact ih hj hpn

end

end TreeState.Holds

/-! ### Filtering -/

section Filtering

variable {F : Forest ℕ} {n : ℕ} {ts : TreeState} {rows : List ℕ} (q : ℕ → Bool)

/-- The positions of the rows kept. -/
def keptPositions (rows : List ℕ) : List ℕ := keptBelow (fun k => q (rowAt rows k)) rows.length

variable {q}

theorem keepBits_keptPositions (k : ℕ) :
    keepBits (keptPositions q rows) k = decide (k < rows.length ∧ q (rowAt rows k)) := by
  rw [keepBits_eq, keptPositions]
  simp only [mem_keptBelow]

theorem keptBelow_keepBits {i : ℕ} (hi : i ≤ rows.length) :
    keptBelow (keepBits (keptPositions q rows)) i = keptBelow (fun k => q (rowAt rows k)) i := by
  refine List.filter_congr fun k hk => ?_
  have hlt : k < rows.length := (List.mem_range.mp hk).trans_le hi
  rw [keepBits_keptPositions]
  simp [hlt]

theorem getElem?_filter_rows {k i : ℕ} (h : (keptPositions q rows)[k]? = some i) :
    (rows.filter q)[k]? = some (rowAt rows i) := by
  rw [← map_rowAt_keptBelow, List.getElem?_map]
  exact congrArg (Option.map (rowAt rows)) h

theorem length_keptPositions (q : ℕ → Bool) (rows : List ℕ) : (keptPositions q rows).length = (rows.filter q).length := by
  rw [← map_rowAt_keptBelow, List.length_map, keptPositions]

theorem idxOf_filter_rows (hrows : rows.Nodup) {i : ℕ} (hi : i < rows.length) (hq : q (rowAt rows i)) :
    (rows.filter q).idxOf (rowAt rows i) = (keptBelow (fun k => q (rowAt rows k)) i).length := by
  have hget := getElem?_filter_rows (q := q) (getElem?_keptBelow hi hq)
  obtain ⟨hlt, -⟩ := List.getElem?_eq_some_iff.mp hget
  rw [← rowAt_of_getElem? hget]
  exact idxOf_rowAt (hrows.filter _) hlt

/-- The rows that are left of those that are left. -/
theorem rowForest_filter_parent (r : ℕ) :
    (rowForest F (rows.filter q)).parent r = ((F.ancestors r).filter fun row => decide (row ∈ rows)).find? q := by
  rw [rowForest, Forest.restrict_parent, List.find?_filter]
  refine congrArg (fun p => (F.ancestors r).find? p) (funext fun row => ?_)
  rw [Bool.eq_iff_iff]
  simp [List.mem_filter]

/-- The new parent of a kept position is the place of its nearest kept ancestor. -/
theorem TreeState.Holds.reparent_eq (h : ts.Holds F n rows) {i : ℕ} (hi : i < rows.length) :
    toParentId (reparent
        (survivingAncestor rows.length ts.buildP2CFromTreeState (keepBits (keptPositions q rows)))
        (numberKept (keepBits (keptPositions q rows)) rows.length).2 (ts.parentAt i)) =
      ((rowForest F (rows.filter q)).parent (rowAt rows i)).map (rows.filter q).idxOf := by
  set keep := keepBits (keptPositions q rows) with hkeep
  have hkeepq : ∀ j, j < rows.length → keep j = q (rowAt rows j) := fun j hj => by
    rw [hkeep, keepBits_keptPositions]
    simp [hj]
  have hkNull := h.length_le_kNullParent
  -- left: the nearest kept ancestor among the positions, renumbered
  have hleft : toParentId (reparent (survivingAncestor rows.length ts.buildP2CFromTreeState keep)
      (numberKept keep rows.length).2 (ts.parentAt i)) =
      ((h.positions.ancestors i).find? keep).map fun j => (keptBelow (fun k => q (rowAt rows k)) j).length := by
    rcases hp : toParentId (ts.parentAt i) with _ | p
    · rw [h.positions.ancestors_none ((h.positions_parent hi).trans hp), toParentId_eq_none.mp hp]
      simp [reparent, toParentId]
    · have hpn := h.parentAt_lt hi hp
      rw [h.positions.ancestors_some ((h.positions_parent hi).trans hp), (toParentId_eq_some.mp hp).1, reparent,
        if_neg (toParentId_eq_some.mp hp).2, survivingAncestor_eq h.links keep hpn]
      rcases hfind : (p :: h.positions.ancestors p).find? keep with _ | j
      · simp [toParentId]
      · have hj : j < rows.length := by
          rcases List.mem_cons.mp (List.mem_of_find?_eq_some hfind) with rfl | hin
          · exact hpn
          · exact h.positions_ancestors_lt hpn hin
        have hle := keptBelow_length_le (fun k => q (rowAt rows k)) j
        rw [Option.getD_some, if_neg (by omega), numberKept_eq, Option.map_some, toParentId_eq_some]
        simp only [hj, List.find?_some hfind, and_self, if_true]
        rw [hkeep, keptBelow_keepBits hj.le]
        exact ⟨rfl, by omega⟩
  rw [hleft, rowForest_filter_parent, ← h.map_positions_ancestors hi, List.find?_map, Option.map_map]
  have hfind : (h.positions.ancestors i).find? keep = (h.positions.ancestors i).find? (q ∘ rowAt rows) := by
    rw [← List.head?_filter, ← List.head?_filter]
    exact congrArg List.head? (List.filter_congr fun j hj => hkeepq j (h.positions_ancestors_lt hi hj))
  rw [hfind]
  rcases hj : (h.positions.ancestors i).find? (q ∘ rowAt rows) with _ | j
  · rfl
  · have hjn := h.positions_ancestors_lt hi (List.mem_of_find?_eq_some hj)
    have hqj : (q ∘ rowAt rows) j := List.find?_some hj
    exact congrArg some (idxOf_filter_rows h.nodup hjn hqj).symm

/-- What `FilterTreeState` leaves of a column. -/
def compactedColumn (q : ℕ → Bool) (rows : List ℕ) (col : ColumnStorage) : ColumnStorage :=
  { col with
    data := compactInPlace (keepBits (keptPositions q rows)) (numberKept (keepBits (keptPositions q rows)) rows.length).2
      id rows.length col.data }

def compactedBits (q : ℕ → Bool) (rows : List ℕ) (bits : List Bool) : List Bool :=
  if bits.length = 0 then bits else compactBits (keepBits (keptPositions q rows)) bits

/-- The tree after all rows have been filtered out. -/
def emptiedTree (q : ℕ → Bool) (rows : List ℕ) (ts : TreeState) : TreeState :=
  { ts with
    originalRows := compactInPlace (keepBits (keptPositions q rows))
      (numberKept (keepBits (keptPositions q rows)) rows.length).2 id rows.length ts.originalRows
    rowCount := 0
    p2c := none }

/-- The tree after some rows have been filtered out. -/
def compactedTree (q : ℕ → Bool) (rows : List ℕ) (ts : TreeState) : TreeState :=
  { emptiedTree q rows ts with
    parent := compactInPlace (keepBits (keptPositions q rows))
      (numberKept (keepBits (keptPositions q rows)) rows.length).2
      (reparent (survivingAncestor rows.length ts.buildP2CFromTreeState (keepBits (keptPositions q rows)))
        (numberKept (keepBits (keptPositions q rows)) rows.length).2) rows.length ts.parent
    columns := ts.columns.map (compactedColumn q rows)
    nullBitvectors := ts.nullBitvectors.map (compactedBits q rows)
    rowCount := (rows.filter q).length }

/-- A kept position is renumbered by the kept positions before it. -/
theorem numberKept_keptPositions (q : ℕ → Bool) (rows : List ℕ) : ∀ i < rows.length,
    keepBits (keptPositions q rows) i →
      (numberKept (keepBits (keptPositions q rows)) rows.length).2 i =
        (keptBelow (keepBits (keptPositions q rows)) i).length := by
  intro i hi hkeep
  rw [numberKept_eq]
  simp [hi, hkeep]

/-- **`FilterTreeState`** on the positions of some of the rows keeps these rows: either all of them, or none, or the
columns are compacted. -/
theorem TreeState.Holds.filterTreeState (h : ts.Holds F n rows) (q : ℕ → Bool) :
    ∃ ts', filterTreeState ts (keptPositions q rows) = (ts', List.range (rows.filter q).length) ∧
      ts'.Holds F n (rows.filter q) ∧ ts'.propagateDownSpecs = ts.propagateDownSpecs ∧
      ((ts'.columns = ts.columns ∧ ts'.nullBitvectors = ts.nullBitvectors ∧
          (rows.filter q = rows ∨ rows.filter q = [])) ∨
        (ts'.columns = ts.columns.map (compactedColumn q rows) ∧
          ts'.nullBitvectors = ts.nullBitvectors.map (compactedBits q rows) ∧ rows.filter q ≠ [])) := by
  have hkeptlen := length_keptPositions q rows
  by_cases hall : (rows.filter q).length = rows.length
  · -- nothing is filtered out
    have hrows : rows.filter q = rows := List.filter_eq_self.mpr (List.length_filter_eq_length_iff.mp hall)
    have hkept : keptPositions q rows = List.range rows.length := by
      refine List.filter_eq_self.mpr fun k hk => ?_
      exact List.filter_eq_self.mp hrows _ (rowAt_mem (List.mem_range.mp hk))
    refine ⟨ts, ?_, hrows.symm ▸ h, rfl, .inl ⟨rfl, rfl, .inl hrows⟩⟩
    rw [Core.filterTreeState, if_pos (by simp [h.rowCount, hkeptlen, hall]), hkept, hall]
  · have hne : ¬ (ts.rowCount = 0 || (keptPositions q rows).length = ts.rowCount) = true := by
      simp only [h.rowCount, hkeptlen, hall, decide_false, Bool.or_false, decide_eq_true_eq]
      intro h0
      exact hall (by rw [List.length_eq_zero_iff.mp h0]; rfl)
    have hcount : (numberKept (keepBits (keptPositions q rows)) rows.length).1 = (rows.filter q).length := by
      rw [numberKept_eq, keptBelow_keepBits le_rfl, ← hkeptlen]
      rfl
    have hnew := numberKept_keptPositions q rows
    have hlen_le : (rows.filter q).length ≤ n := (List.length_filter_le _ _).trans h.length_le
    obtain ⟨horiglen, horig, -⟩ := compactInPlace_spec id ts.originalRows hnew
      (by rw [h.originalRows_length]; exact h.length_le)
    obtain ⟨hparlen, hpar, -⟩ := compactInPlace_spec
      (reparent (survivingAncestor rows.length ts.buildP2CFromTreeState (keepBits (keptPositions q rows)))
        (numberKept (keepBits (keptPositions q rows)) rows.length).2) ts.parent hnew
      (by rw [h.parent_length]; exact h.length_le)
    -- the position that comes to a new place
    have hat : ∀ k < (rows.filter q).length, ∃ i < rows.length,
        (keptBelow (keepBits (keptPositions q rows)) rows.length)[k]? = some i ∧
          (rows.filter q)[k]? = some (rowAt rows i) := by
      intro k hk
      rw [← hkeptlen] at hk
      have hget : (keptPositions q rows)[k]? = some (keptPositions q rows)[k] := List.getElem?_eq_getElem hk
      have hi : (keptPositions q rows)[k] < rows.length := (mem_keptBelow.mp (List.getElem_mem hk)).1
      exact ⟨_, hi, by rw [keptBelow_keepBits le_rfl]; exact hget, getElem?_filter_rows hget⟩
    have horiginal : ∀ k < (rows.filter q).length,
        (compactInPlace (keepBits (keptPositions q rows))
          (numberKept (keepBits (keptPositions q rows)) rows.length).2 id rows.length ts.originalRows)[k]? =
            (rows.filter q)[k]? := by
      intro k hk
      obtain ⟨i, hi, hki, hrow⟩ := hat k hk
      rw [horig k i hki, h.originalRows i hi, getElem?_eq_rowAt hi, hrow]
      rfl
    by_cases hnone : (rows.filter q).length = 0
    · have hnil := List.length_eq_zero_iff.mp hnone
      refine ⟨emptiedTree q rows ts, ?_, ?_, rfl, .inl ⟨rfl, rfl, .inr hnil⟩⟩
      · rw [Core.filterTreeState, if_neg hne]
        simp only [h.rowCount, hcount, hnone, if_true]
        rfl
      · rw [hnil]
        exact {
          lt := h.lt
          rowCount := rfl
          nodup := List.nodup_nil
          length_le := Nat.zero_le _
          parent_length := h.parent_length
          parent := fun k hk => absurd hk (Nat.not_lt_zero k)
          originalRows_length := horiglen.trans h.originalRows_length
          originalRows := fun k hk => absurd hk (Nat.not_lt_zero k)
          p2c := fun p hp => by cases hp }
    · refine ⟨compactedTree q rows ts, ?_, ?_, rfl, .inr ⟨rfl, rfl, fun hnil => hnone (by rw [hnil]; rfl)⟩⟩
      · rw [Core.filterTreeState, if_neg hne]
        simp only [h.rowCount, hcount, hnone, if_false]
        rfl
      · exact {
          lt := h.lt
          rowCount := rfl
          nodup := h.nodup.filter _
          length_le := hlen_le
          parent_length := hparlen.trans h.parent_length
          parent := by
            intro k hk
            obtain ⟨i, hi, hki, hrow⟩ := hat k hk
            have hget : ts.parent[i]? = some (ts.parentAt i) := by
              rw [TreeState.parentAt, List.getD_eq_getElem?_getD,
                List.getElem?_eq_getElem (by rw [h.parent_length]; exact hi.trans_le h.length_le)]
              rfl
            have hpk : (compactedTree q rows ts).parent[k]? = _ := hpar k i hki
            rw [hget, Option.map_some] at hpk
            rw [rowAt_of_getElem? hrow, ← h.reparent_eq hi, TreeState.parentAt, List.getD_eq_getElem?_getD, hpk]
            rfl
          originalRows_length := horiglen.trans h.originalRows_length
          originalRows := horiginal
          p2c := fun p hp => by cases hp }

end Filtering

end LynxTrace.TraceProcessor.Core
