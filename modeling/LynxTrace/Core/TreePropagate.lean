import LynxTrace.Core.TreeSteps

/-!
# Core.TreePropagate — the columns of a tree state, through filtering and propagating

`ColumnHolds` relates the first entries of a column and its null bits to the cells of the rows that are left.
-/

namespace LynxTrace.TraceProcessor.Core

/-! ### Columns -/

/-- A column and its null bits hold the cells of these rows. -/
inductive ColumnHolds (n : ℕ) (rows : List ℕ) : ColumnStorage → List Bool → CellColumn → Prop
  | intro {t : StorageType} {data : List t.Elem} {bits : List Bool} {name : String} {cell : ℕ → Option t.Elem}
      (data_length : data.length = n)
      (bits_length : bits.length = 0 ∨ rows = [] ∨ bits.length = rows.length)
      (cells : ∀ k < rows.length,
        (if bits.length = 0 ∨ bits[k]? = some true then data[k]? else none) = cell (rowAt rows k)) :
      ColumnHolds n rows ⟨t, data⟩ bits ⟨name, t, decide (bits.length ≠ 0), cell⟩

namespace ColumnHolds

variable {n : ℕ} {rows : List ℕ} {cs : ColumnStorage} {bits : List Bool} {col : CellColumn}

theorem emptied (h : ColumnHolds n rows cs bits col) : ColumnHolds n [] cs bits col := by
  cases h with
  | intro hdata _ _ => exact .intro hdata (.inr (.inl rfl)) fun k hk => absurd hk (Nat.not_lt_zero k)

/-- Compacting a column keeps the cells of the rows kept. -/
theorem compacted (h : ColumnHolds n rows cs bits col) {q : ℕ → Bool} (hn : rows.length ≤ n)
    (hne : rows.filter q ≠ []) :
    ColumnHolds n (rows.filter q) (compactedColumn q rows cs) (compactedBits q rows bits) col := by
  cases h with
  | @intro t data bits name cell hdata hbits hcells =>
    have hrows : rows ≠ [] := fun hnil => hne (by rw [hnil]; rfl)
    obtain ⟨hlen, hget, -⟩ := compactInPlace_spec id data (numberKept_keptPositions q rows) (by omega)
    have hkeptlen := length_keptPositions q rows
    have hbitslen : bits.length ≠ 0 → compactedBits q rows bits = (keptPositions q rows).filterMap (bits[·]?) := by
      intro h0
      have hl : bits.length = rows.length := by simpa [h0, hrows] using hbits
      rw [compactedBits, if_neg h0, compactBits_eq, hl, keptBelow_keepBits le_rfl]
      rfl
    -- all positions kept have a bit
    have hbitsmap : bits.length ≠ 0 → ∀ k i : ℕ, (keptPositions q rows)[k]? = some i →
        (compactedBits q rows bits)[k]? = bits[i]? := by
      intro h0 k i hk
      have hl : bits.length = rows.length := by simpa [h0, hrows] using hbits
      have hmap : (keptPositions q rows).filterMap (bits[·]?) = (keptPositions q rows).map fun i => bits.getD i false := by
        rw [← List.filterMap_eq_map]
        refine List.filterMap_congr fun j hj => ?_
        have hjlt : j < bits.length := hl ▸ (mem_keptBelow.mp hj).1
        simp [hjlt]
      have hilt : i < bits.length := hl ▸ (mem_keptBelow.mp (List.mem_of_getElem? hk)).1
      rw [hbitslen h0, hmap, List.getElem?_map, hk]
      simp [hilt]
    have hflag : decide (bits.length ≠ 0) = decide ((compactedBits q rows bits).length ≠ 0) := by
      by_cases h0 : bits.length = 0
      · simp [compactedBits, h0]
      · have hpos : 0 < (rows.filter q).length := List.length_pos_iff.mpr hne
        rw [← hkeptlen] at hpos
        have hl : bits.length = rows.length := by simpa [h0, hrows] using hbits
        have hsome := hbitsmap h0 0 _ (List.getElem?_eq_getElem hpos)
        have hilt : (keptPositions q rows)[0] < bits.length := hl ▸ (mem_keptBelow.mp (List.getElem_mem hpos)).1
        rw [List.getElem?_eq_getElem hilt] at hsome
        have := (List.getElem?_eq_some_iff.mp hsome).1
        simp only [ne_eq, h0, not_false_eq_true, decide_true]
        exact (decide_eq_true (by omega)).symm
    rw [hflag]
    refine .intro (hlen.trans hdata) ?_ fun k hk => ?_
    · by_cases h0 : bits.length = 0
      · exact .inl (by rw [compactedBits, if_pos h0, h0])
      · have hl : bits.length = rows.length := by simpa [h0, hrows] using hbits
        refine .inr (.inr ?_)
        rw [compactedBits, if_neg h0, compactBits_eq, hl, keptBelow_keepBits le_rfl, ← hkeptlen, keptPositions,
          List.length_filterMap_eq_countP]
        refine List.countP_eq_length.mpr fun i hi => ?_
        have hilt : i < bits.length := hl ▸ (mem_keptBelow.mp hi).1
        simp [hilt]
    · rw [← hkeptlen] at hk
      have hki : (keptPositions q rows)[k]? = some (keptPositions q rows)[k] := List.getElem?_eq_getElem hk
      have hi : (keptPositions q rows)[k] < rows.length := (mem_keptBelow.mp (List.getElem_mem hk)).1
      have hdatak := hget k _ ((congrArg (·[k]?) (keptBelow_keepBits (q := q) le_rfl)).trans hki)
      rw [rowAt_of_getElem? (getElem?_filter_rows hki), ← hcells _ hi]
      by_cases h0 : bits.length = 0
      · have hsame : compactedBits q rows bits = bits := if_pos h0
        simp only [hsame, h0, true_or, if_true]
        exact hdatak.trans (by simp)
      · have hsize : (compactedBits q rows bits).length ≠ 0 := by
          have := (decide_eq_decide.mp hflag).mp h0
          exact this
        simp only [h0, hsize, false_or, hbitsmap h0 k _ hki]
        split
        · exact hdatak.trans (by simp)
        · rfl

end ColumnHolds

/-! ### One pass from the roots down -/

theorem foldValues_concat {α : Type} {combine : α → α → α} {l : List α} {v : α} (h : foldValues combine l = some v)
    (x : α) : foldValues combine (l ++ [x]) = some (combine v x) := by
  cases l with
  | nil => cases h
  | cons y l =>
    rw [foldValues, Option.some_inj] at h
    rw [List.cons_append, foldValues, List.foldl_append, h]
    rfl

/-- A fold that takes the last value. -/
theorem foldValues_last {α : Type} {combine : α → α → α} (hlast : ∀ a b, combine a b = b) (l : List α) (x : α) :
    foldValues combine (l ++ [x]) = some x := by
  rcases hl : foldValues combine l with _ | v
  · cases l with
    | nil => rfl
    | cons y l => cases hl
  · rw [foldValues_concat hl, hlast]

/-- **The breadth-first pass** leaves in each node the fold of the values from the root down to it. -/
theorem propagateDownBfs_spec {α : Type} (combine : α → α → α) {parent : ℕ → ℕ} {G : Forest ℕ} {n : ℕ}
    {queue : List ℕ} {d : List α} {x : ℕ → α} (hparent : ∀ k < n, G.parent k = toParentId (parent k))
    (hclosed : ∀ k < n, ∀ p, G.parent k = some p → p < n) (hperm : queue.Perm (List.range n))
    (hfirst : ParentsFirst G.parent queue) (hd : ∀ k < n, d[k]? = some (x k)) :
    ∃ d', propagateDownBfs combine parent queue d = some d' ∧ d'.length = d.length ∧
      ∀ k < n, d'[k]? = foldValues combine ((G.path k).map x) := by
  have hnodup : queue.Nodup := hperm.nodup_iff.mpr List.nodup_range
  have hmem : ∀ k, k ∈ queue ↔ k < n := fun k => hperm.mem_iff.trans List.mem_range
  have hprefix : ∀ i ≤ queue.length, ∃ d', propagateDownBfs combine parent (queue.take i) d = some d' ∧
      d'.length = d.length ∧
      ∀ k < n, d'[k]? = if k ∈ queue.take i then foldValues combine ((G.path k).map x) else some (x k) := by
    intro i
    induction i with
    | zero =>
      intro _
      exact ⟨d, rfl, rfl, fun k hk => by simpa using hd k hk⟩
    | succ i ih =>
      intro hi
      obtain ⟨d₁, hrun, hlen, hval⟩ := ih (by omega)
      obtain ⟨node, hnode⟩ : ∃ node, queue[i]? = some node := ⟨_, List.getElem?_eq_getElem (by omega)⟩
      have hnlt : node < n := (hmem node).mp (List.mem_of_getElem? hnode)
      have htake : queue.take (i + 1) = queue.take i ++ [node] := by
        rw [List.take_add_one, hnode]
        rfl
      -- the node itself has not been visited yet
      have hfresh : node ∉ queue.take i := by
        have hn := hnodup.sublist (List.take_sublist (i + 1) queue)
        rw [htake, List.nodup_append] at hn
        exact fun hin => hn.2.2 node hin node (List.mem_singleton_self _) rfl
      have hold : d₁[node]? = some (x node) := by rw [hval node hnlt, if_neg hfresh]
      have hstep : propagateDownBfs combine parent (queue.take (i + 1)) d =
          propagateDownBfs combine parent [node] d₁ := by
        rw [htake, propagateDownBfs, List.foldlM_append]
        rw [propagateDownBfs] at hrun
        rw [hrun]
        rfl
      have hone : ∃ y, foldValues combine ((G.path node).map x) = some y ∧
          propagateDownBfs combine parent [node] d₁ = some (d₁.set node y) := by
        rcases hp : G.parent node with _ | p
        · refine ⟨x node, by rw [G.path_none hp]; rfl, ?_⟩
          have hroot : parent node = kNullParent := toParentId_eq_none.mp ((hparent node hnlt).symm.trans hp)
          have hset : d₁.set node (x node) = d₁ := by
            refine List.ext_getElem? fun k => ?_
            by_cases hk : k = node
            · subst hk
              rw [List.getElem?_set_self (List.getElem?_eq_some_iff.mp hold).1, hold]
            · rw [List.getElem?_set_ne (Ne.symm hk)]
          simp [propagateDownBfs, hroot, hset]
        · obtain ⟨hpar, hne⟩ := toParentId_eq_some.mp ((hparent node hnlt).symm.trans hp)
          have hpval : d₁[p]? = foldValues combine ((G.path p).map x) := by
            rw [hval p (hclosed node hnlt p hp), if_pos (hfirst i node p hnode hp)]
          obtain ⟨y, hy⟩ : ∃ y, foldValues combine ((G.path p).map x) = some y := by
            obtain ⟨z, l, hl⟩ : ∃ z l, (G.path p).map x = z :: l := by
              rw [Forest.path, List.map_append]
              rcases (G.ancestors p).reverse.map x with _ | ⟨z, l⟩
              · exact ⟨_, _, rfl⟩
              · exact ⟨_, _, rfl⟩
            exact ⟨_, by rw [hl]; rfl⟩
          refine ⟨combine y (x node), ?_, ?_⟩
          · rw [G.path_some hp, List.map_append]
            exact foldValues_concat hy (x node)
          · rw [hy] at hpval
            simp [propagateDownBfs, hpar, hne, hpval, hold]
      obtain ⟨y, hy, hrun₁⟩ := hone
      refine ⟨d₁.set node y, hstep.trans hrun₁, by rw [List.length_set, hlen], fun k hk => ?_⟩
      rw [htake]
      by_cases hkn : k = node
      · subst hkn
        rw [List.getElem?_set_self (List.getElem?_eq_some_iff.mp hold).1, if_pos (by simp), hy]
      · rw [List.getElem?_set_ne (Ne.symm hkn), hval k hk]
        simp [hkn]
  obtain ⟨d', hrun, hlen, hval⟩ := hprefix queue.length le_rfl
  rw [List.take_length] at hrun hval
  exact ⟨d', hrun, hlen, fun k hk => by rw [hval k hk, if_pos ((hmem k).mpr hk)]⟩

theorem PropagateAggOp.combine_last {t : StorageType} {c : t.Elem → t.Elem → t.Elem}
    (h : PropagateAggOp.last.combine t = some c) (a b : t.Elem) : c a b = b := by
  cases t with
  | uint32 | int32 | int64 | double =>
    cases h
    rfl
  | id | string => cases h

/-- A change of the columns or of the cached arrays leaves the tree as it is. -/
theorem TreeState.Holds.congr {F : Forest ℕ} {n : ℕ} {ts ts' : TreeState} {rows : List ℕ} (h : ts.Holds F n rows)
    (hparent : ts'.parent = ts.parent) (hrowCount : ts'.rowCount = ts.rowCount)
    (horiginal : ts'.originalRows = ts.originalRows)
    (hp2c : ∀ p, ts'.p2c = some p → p = buildP2C ts.rowCount ts.parentAt) : ts'.Holds F n rows where
  lt := h.lt
  rowCount := hrowCount.trans h.rowCount
  nodup := h.nodup
  length_le := h.length_le
  parent_length := hparent ▸ h.parent_length
  parent k hk := by
    rw [TreeState.parentAt, hparent]
    exact h.parent k hk
  originalRows_length := horiginal ▸ h.originalRows_length
  originalRows := horiginal ▸ h.originalRows
  p2c p hp := by
    rw [hp2c p hp, hrowCount]
    exact congrArg (buildP2C ts.rowCount) (funext fun k => by rw [TreeState.parentAt, TreeState.parentAt, hparent])

/-- The way down to a row is at the positions of the way down to its position. -/
theorem TreeState.Holds.map_positions_path {F : Forest ℕ} {n : ℕ} {ts : TreeState} {rows : List ℕ}
    (h : ts.Holds F n rows) {k : ℕ} (hk : k < rows.length) :
    (h.positions.path k).map (rowAt rows) = (rowForest F rows).path (rowAt rows k) := by
  rw [Forest.path, Forest.path, List.map_append, List.map_reverse, h.map_positions_ancestors hk, rowForest,
    Forest.restrict_ancestors]
  rfl

/-- **One propagation.**  A source without nulls gives the column of its folds. -/
theorem propagateSpec_spec {F : Forest ℕ} {n : ℕ} {ts : TreeState} {v : RowTree} (h : ts.Holds F n v.rows)
    {queue : List ℕ} (hperm : queue.Perm (List.range v.rows.length)) (hfirst : ParentsFirst h.positions.parent queue)
    {spec : PropagateSpec} {src dest : ℕ} {sourceCs destCs : ColumnStorage} {bits : List Bool} {source : CellColumn}
    (hsource : ts.columns[src]? = some sourceCs) (hdest : ts.columns[dest]? = some destCs)
    (hcol : ColumnHolds n v.rows sourceCs bits source) (htype : destCs.type = source.type)
    (hlen : destCs.data.length = n) (hfilled : ∀ row ∈ v.rows, (source.cell row).isSome)
    {combine : source.type.Elem → source.type.Elem → source.type.Elem}
    (hcombine : spec.aggOp.combine source.type = some combine) :
    ∃ cs, propagateSpec queue ts ⟨spec.aggOp, src, dest⟩ = some { ts with columns := ts.columns.set dest cs } ∧
      ColumnHolds n v.rows cs [] (v.propagatedColumn F spec source combine) := by
  cases hcol with
  | @intro t data bits name cell hdata hbits hcells =>
    obtain ⟨dt, ddata⟩ := destCs
    simp only at htype hlen hfilled hcombine
    subst htype
    have hn := h.length_le
    -- the cells are the elements of the column
    have hget : ∀ k < v.rows.length, data[k]? = cell (rowAt v.rows k) := by
      intro k hk
      have hk' := hcells k hk
      obtain ⟨e, he⟩ := Option.isSome_iff_exists.mp (hfilled _ (rowAt_mem hk))
      rw [he] at hk' ⊢
      split at hk'
      · exact hk'
      · cases hk'
    let x : ℕ → dt.Elem := fun k => (cell (rowAt v.rows k)).getD dt.uninitialized
    have hx : ∀ k < v.rows.length, cell (rowAt v.rows k) = some (x k) := fun k hk => by
      obtain ⟨e, he⟩ := Option.isSome_iff_exists.mp (hfilled _ (rowAt_mem hk))
      simp [x, he]
    set copied : List dt.Elem := data.take v.rows.length ++ ddata.drop v.rows.length with hcopied
    have hcopylen : copied.length = n := by
      rw [hcopied, List.length_append, List.length_take, List.length_drop]
      omega
    have hcopy : ∀ k < v.rows.length, copied[k]? = some (x k) := by
      intro k hk
      rw [hcopied, List.getElem?_append_left (by rw [List.length_take]; omega), List.getElem?_take_of_lt hk, hget k hk,
        hx k hk]
    have hcopyFrom : ColumnStorage.copyFrom ⟨dt, ddata⟩ ⟨dt, data⟩ ts.rowCount = some ⟨dt, copied⟩ := by
      rw [ColumnStorage.copyFrom, dif_pos rfl, h.rowCount]
      have hcast : (data.take v.rows.length).map (cast (congrArg StorageType.Elem (rfl : dt = dt))) =
          data.take v.rows.length := by
        exact List.map_id _
      simp only [hcopied]
      rw [hcast]
    -- the folds along the positions are those along the rows
    have hfold : ∀ k < v.rows.length, foldValues combine ((h.positions.path k).map x) =
        (v.propagatedColumn F spec ⟨name, dt, decide (bits.length ≠ 0), cell⟩ combine).cell (rowAt v.rows k) := by
      intro k hk
      have hpath : ∀ j ∈ h.positions.path k, j < v.rows.length := by
        intro j hj
        rw [Forest.path, List.mem_append, List.mem_reverse, List.mem_singleton] at hj
        rcases hj with hj | rfl
        · exact h.positions_ancestors_lt hk hj
        · exact hk
      change _ = foldValues combine (((v.forest F).path (rowAt v.rows k)).filterMap cell)
      rw [RowTree.forest, ← h.map_positions_path hk, List.filterMap_map, ← List.filterMap_eq_map]
      refine congrArg (foldValues combine) (List.filterMap_congr fun j hj => ?_)
      exact (hx j (hpath j hj)).symm
    have hdone : ∃ d', propagateDownColumn spec.aggOp ts.parentAt queue ⟨dt, copied⟩ = some ⟨dt, d'⟩ ∧
        d'.length = n ∧ ∀ k < v.rows.length, d'[k]? = foldValues combine ((h.positions.path k).map x) := by
      by_cases hlast : spec.aggOp = .last
      · refine ⟨copied, ?_, hcopylen, fun k hk => ?_⟩
        · rw [propagateDownColumn, hcombine]
          simp [hlast]
        · rw [hlast] at hcombine
          rw [hcopy k hk, Forest.path, List.map_append]
          exact (foldValues_last (fun a b => PropagateAggOp.combine_last hcombine a b) _ _).symm
      · obtain ⟨d', hrun, hlen', hval⟩ := propagateDownBfs_spec combine
          (fun k hk => h.positions_parent hk)
          (fun k hk p hp => h.parentAt_lt hk (h.positions_parent hk ▸ hp)) hperm hfirst hcopy
        refine ⟨d', ?_, hlen'.trans hcopylen, hval⟩
        rw [propagateDownColumn, hcombine]
        simp [hlast, hrun]
    obtain ⟨d', hrun, hlen', hval⟩ := hdone
    refine ⟨⟨dt, d'⟩, ?_, ?_⟩
    · simp only [propagateSpec, hsource, hdest, hcopyFrom, hrun, Option.bind_eq_bind, Option.bind_some, Option.pure_def]
    · refine .intro hlen' (.inl rfl) fun k hk => ?_
      simp only [List.length_nil, true_or, if_true]
      rw [hval k hk, hfold k hk]
      rfl

end LynxTrace.TraceProcessor.Core
