import LynxTrace.Core.TreeRuns

/-!
# Core.TreeResults — the dataframe that a run of calls gives

The tree before the calls, the dataframe that is read off the last state, and the run from the one to the other
(`runCalls_shows`).
-/

namespace LynxTrace.TraceProcessor.Core

variable {pool : StringPool} {m : Matchers} {F : Forest ℕ} {n : ℕ}

/-! ### The tree before the calls -/

@[simp] theorem TreeTransformer.create_cols (c : TreeColumns) : (create c).cols = c := by
  rw [create]
  split <;> rfl

theorem TreeTransformer.create_hasOperations (c : TreeColumns) : (create c).hasOperations = false := by
  rw [create]
  split <;> rfl

section Initial

variable {c : TreeColumns}

theorem TreeColumns.toRowTree_getElem? {i : ℕ} {col : CellColumn} (h : c.toRowTree.columns[i]? = some col) :
    ∃ name tc, c.names[i]? = some name ∧ c.columns[i]? = some tc ∧ col = tc.toCells name := by
  obtain ⟨name, tc, hname, htc, hcol⟩ := List.getElem?_zipWith_eq_some.mp h
  exact ⟨name, tc, hname, htc, hcol.symm⟩

theorem TreeColumns.mem_toRowTree {col : CellColumn} (h : col ∈ c.toRowTree.columns) :
    ∃ name, ∃ tc ∈ c.columns, col = tc.toCells name := by
  obtain ⟨i, hi⟩ := List.mem_iff_getElem?.mp h
  obtain ⟨name, tc, -, htc, hcol⟩ := c.toRowTree_getElem? hi
  exact ⟨name, tc, List.mem_of_getElem? htc, hcol⟩

theorem TreeColumns.Valid.toRowTree_ok (h : c.Valid pool) : c.toRowTree.Ok pool where
  not_id col hcol := by
    obtain ⟨name, tc, htc, rfl⟩ := TreeColumns.mem_toRowTree hcol
    exact h.not_id tc htc
  strings col hcol row id hvalue := by
    obtain ⟨name, tc, htc, rfl⟩ := TreeColumns.mem_toRowTree hcol
    obtain ⟨e, he, hid⟩ := Option.map_eq_some_iff.mp hvalue
    simp only [TreeColumn.toCells] at he
    split at he
    · rename_i hset
      exact h.strings tc htc row id (by rw [he, ← hid]; rfl) hset
    · cases he
  filled col hcol hnull row hrow := by
    obtain ⟨name, tc, htc, rfl⟩ := TreeColumns.mem_toRowTree hcol
    have h0 : tc.nullBv.length = 0 := by simpa [TreeColumn.toCells] using hnull
    have hlt : row < tc.data.length := by
      rw [h.data_length tc htc]
      exact List.mem_range.mp hrow
    simp [TreeColumn.toCells, h0, hlt]

theorem TreeColumns.Valid.names_eq (h : c.Valid pool) : c.names = c.toRowTree.columns.map (·.name) := by
  change c.names = (List.zipWith TreeColumn.toCells c.names c.columns).map (·.name)
  rw [← List.map_uncurry_zip_eq_zipWith, List.map_map]
  exact (List.map_fst_zip h.names_length.le).symm

theorem TreeColumns.Valid.create_emitted (h : c.Valid pool) (hn : c.rowCount ≠ 0) :
    Emitted c.rowCount (TreeTransformer.create c) c.toRowTree := by
  rw [TreeTransformer.create, if_neg hn]
  refine ⟨rfl, h.names_eq, ?_, fun i col hcol => ?_, rfl, rfl, le_rfl,
    ⟨rfl, List.nodup_nil, fun _ hri => by cases hri⟩⟩
  · simp [TreeColumns.toRowTree, h.names_length]
  · obtain ⟨name, tc, -, htc, rfl⟩ := TreeColumns.toRowTree_getElem? hcol
    exact ⟨tc, htc, rfl, by simp [TreeColumn.toCells]⟩

/-- The parent array of a forest gives each row its parent. -/
theorem TreeColumns.Valid.parent_eq (h : c.Valid pool) {k : ℕ} (hk : k < c.rowCount) :
    toParentId (c.parent.getD k kNullParent) =
      ((rowForest h.forest (List.range c.rowCount)).parent k).map (List.range c.rowCount).idxOf := by
  have hget : c.parent[k]? = some (c.parent.getD k kNullParent) := by
    rw [List.getD_eq_getElem?_getD, List.getElem?_eq_getElem (by rw [h.parent_length]; exact hk)]
    rfl
  have hparent : h.forest.parent k = toParentId (c.parent.getD k kNullParent) := by
    change c.parentOf k = _
    rw [TreeColumns.parentOf, hget, Option.bind_some]
  rw [rowForest, Forest.restrict_parent, ← hparent]
  rcases hp : h.forest.parent k with _ | p
  · rw [h.forest.ancestors_none hp]
    rfl
  · have hlt : p < c.rowCount := (h.parentOf_lt hp).2
    rw [h.forest.ancestors_some hp, List.find?_cons_of_pos (by simp [hlt]), Option.map_some]
    have hidx := List.nodup_range.idxOf_getElem p (by rw [List.length_range]; exact hlt)
    rw [List.getElem_range] at hidx
    rw [hidx]

/-- **The state before the calls** holds all rows. -/
theorem TreeColumns.Valid.initialTree_holds (h : c.Valid pool) {w : TreeTransformer}
    (hext : Extends (TreeTransformer.create c) w) :
    w.initialTree.Holds h.forest c.rowCount (List.range c.rowCount) := by
  have hrow : w.cols.rowCount = c.rowCount := hext.rowCount.trans (by rw [TreeTransformer.create_cols])
  have hparent : w.cols.parent = c.parent := hext.parent.trans (by rw [TreeTransformer.create_cols])
  exact {
    lt := h.rowCount_lt
    rowCount := hrow.trans List.length_range.symm
    nodup := List.nodup_range
    length_le := List.length_range.le
    parent_length := (congrArg List.length hparent).trans h.parent_length
    parent := fun k hk => by
      rw [List.length_range] at hk
      have hat : rowAt (List.range c.rowCount) k = k := rowAt_of_getElem? (List.getElem?_range hk)
      rw [hat, TreeState.parentAt, TreeTransformer.initialTree, hparent]
      exact h.parent_eq hk
    originalRows_length := by simp [TreeTransformer.initialTree, hrow]
    originalRows := fun k _ => by simp [TreeTransformer.initialTree, hrow]
    p2c := fun p hp => by cases hp }

theorem TreeColumns.Valid.initialTree_columns (h : c.Valid pool) {w : TreeTransformer}
    (hext : Extends (TreeTransformer.create c) w) :
    ColumnsHold c.rowCount (w.cols.columns.map (·.type)) w.initialTree c.toRowTree := by
  obtain ⟨rest, hrest, hadded⟩ := hext.columns
  rw [TreeTransformer.create_cols] at hrest
  refine ⟨fun i col hcol => ?_, fun i ty hty hle => ?_⟩
  · obtain ⟨name, tc, -, htc, rfl⟩ := TreeColumns.toRowTree_getElem? hcol
    have hget : w.cols.columns[i]? = some tc := by
      rw [hrest, List.getElem?_append_left (List.getElem?_eq_some_iff.mp htc).1, htc]
    refine ⟨tc.toColumnStorage, tc.nullBv, by simp [TreeTransformer.initialTree, hget],
      by simp [TreeTransformer.initialTree, hget], ?_⟩
    have hmem := List.mem_of_getElem? htc
    refine .intro (h.data_length tc hmem) ?_ fun k hk => ?_
    · exact (h.nullBv_length tc hmem).imp_right fun hl => .inr (by rw [hl]; exact List.length_range.symm)
    · have hk' : k < c.rowCount := by simpa [TreeColumns.toRowTree] using hk
      have hat : rowAt c.toRowTree.rows k = k := rowAt_of_getElem? (List.getElem?_range hk')
      rw [hat]
  · rw [List.getElem?_map] at hty
    obtain ⟨tc, htc, rfl⟩ := Option.map_eq_some_iff.mp hty
    have hge : c.columns.length ≤ i := by simpa [TreeColumns.toRowTree, h.names_length] using hle
    have hin : tc ∈ rest := by
      rw [hrest, List.getElem?_append_right hge] at htc
      exact List.mem_of_getElem? htc
    obtain ⟨hlen, hbits⟩ := hadded tc hin
    rw [TreeTransformer.create_cols] at hlen
    refine ⟨tc.toColumnStorage, ?_, rfl, hlen, ?_⟩
    · rw [TreeTransformer.initialTree, List.getElem?_map, htc]
      rfl
    · rw [TreeTransformer.initialTree, List.getElem?_map, htc, Option.map_some, hbits]

/-- The code of the constructor puts all rows into the span. -/
theorem TreeColumns.Valid.initial_run (h : c.Valid pool) (hn : c.rowCount ≠ 0) {w : TreeTransformer} (hw : w.RegsOk)
    (hext : Extends (TreeTransformer.create c) w) :
    ∃ s, execute pool m w.filterValues (TreeTransformer.create c).bytecode ⟨w.initialRegs, w.initialTree⟩ = some s ∧
      Holding h.forest c.rowCount w (TreeTransformer.create c) s c.toRowTree (List.range c.toRowTree.rows.length) := by
  have hcreate : TreeTransformer.create c =
      { cols := c
        bytecode := [.initRange c.rowCount 0, .allocateIndices c.rowCount 1 2, .iota 0 2]
        registerCount := 4
        spanReg := 2
        treeStateReg := 3 } := if_neg hn
  have htree := h.initialTree_holds hext
  have hcolumns := h.initialTree_columns hext
  have hrows : c.toRowTree.rows.length = c.rowCount := List.length_range
  set s₀ : InterpreterState := ⟨w.initialRegs, w.initialTree⟩ with hs₀
  set s₁ := s₀.write 0 (.range 0 c.rowCount) with hs₁
  obtain ⟨s₂, halloc, hspan₂, hkeep₂, htree₂⟩ : ∃ s₂ : InterpreterState,
      (Bytecode.allocateIndices c.rowCount 1 2).exec pool m w.filterValues s₁ = some s₂ ∧
        s₂.regs 2 = .span (List.replicate c.rowCount 0) ∧ (∀ r, r ≠ 1 → r ≠ 2 → s₂.regs r = s₁.regs r) ∧
        s₂.tree = s₁.tree := by
    rw [Bytecode.exec]
    split
    · refine ⟨_, rfl, InterpreterState.write_regs_self _ _ _, fun r _ h2 => ?_, rfl⟩
      exact InterpreterState.write_regs_of_ne _ h2 _
    · refine ⟨_, rfl, InterpreterState.write_regs_self _ _ _, fun r h1 h2 => ?_, rfl⟩
      rw [InterpreterState.write_regs_of_ne _ h2, InterpreterState.write_regs_of_ne _ h1]
  have hrange : s₂.regs 0 = .range 0 c.rowCount := by
    rw [hkeep₂ 0 (by decide) (by decide)]
    exact InterpreterState.write_regs_self _ _ _
  refine ⟨s₂.write 2 (.span (List.range c.rowCount)), ?_, ?_⟩
  · have hiota : (Bytecode.iota 0 2).exec pool m w.filterValues s₂ = some (s₂.write 2 (.span (List.range c.rowCount))) := by
      simp only [Bytecode.exec, hrange, Register.asRange, hspan₂, Register.asSpan, Option.bind_eq_bind, Option.bind_some,
        List.length_replicate, Nat.sub_zero, le_refl, if_true, List.range_eq_range']
    rw [hcreate, execute, List.foldlM_cons, Bytecode.exec, Option.bind_eq_bind, Option.bind_some, List.foldlM_cons, halloc,
      Option.bind_eq_bind, Option.bind_some, List.foldlM_cons, hiota]
    rfl
  · rw [hrows]
    refine ⟨InterpreterState.write_regs_self _ _ _, ?_, fun r hr => ?_, ?_, ?_, ?_⟩
    · rw [InterpreterState.write_regs_of_ne _ (by decide), hkeep₂ 3 (by decide) (by decide),
        InterpreterState.write_regs_of_ne _ (by decide)]
      exact hw.initialRegs_treeState
    · have hr4 : 4 ≤ r := by rwa [hcreate] at hr
      rw [InterpreterState.write_regs_of_ne _ (by omega), hkeep₂ r (by omega) (by omega),
        InterpreterState.write_regs_of_ne _ (by omega)]
    · rw [InterpreterState.write_tree, htree₂]
      exact htree
    · rw [InterpreterState.write_tree, htree₂]
      exact hcolumns
    · rw [InterpreterState.write_tree, htree₂]
      rfl

end Initial

/-! ### `ToDataframe` -/

theorem mapM_eq_some_map {α β : Type} {f : α → Option β} {g : α → β} :
    ∀ {l : List α}, (∀ x ∈ l, f x = some (g x)) → l.mapM f = some (l.map g)
  | [], _ => rfl
  | x :: l, h => by
    rw [List.mapM_cons, h x List.mem_cons_self, mapM_eq_some_map fun y hy => h y (List.mem_cons_of_mem _ hy)]
    rfl

/-- The type of a column in the builder. -/
def StorageType.adhoc : StorageType → AdhocColumnType
  | double => .kDouble
  | string => .kString
  | _ => .kInt64

/-- An element is read back as it was pushed. -/
theorem StorageType.Elem.toAdhoc_spec {t : StorageType} (ht : t ≠ .id) (e : t.Elem) :
    ∃ v, e.toAdhoc = some v ∧ v.type = t.adhoc ∧ v.as t.adhoc = e.toValue := by
  have hint : ∀ z : ℤ, -2 ^ 63 ≤ z → z ≤ 2 ^ 63 - 1 → (AdhocValue.int64 (.ofInt z)).as .kInt64 = .int z := fun z hmin hmax =>
    congrArg Value.int (Int64.toInt_ofInt_of_le (by omega) (by omega))
  cases t with
  | id => exact absurd rfl ht
  | uint32 | int32 | int64 =>
    have hmin := e.2.1
    have hmax := e.2.2
    simp only [StorageType.minValue, StorageType.maxValue] at hmin hmax
    exact ⟨_, rfl, rfl, hint _ (by omega) (by omega)⟩
  | double => exact ⟨_, rfl, rfl, rfl⟩
  | string => exact ⟨_, rfl, rfl, rfl⟩

/-- The cell as it is pushed. -/
def CellColumn.pushed (col : CellColumn) (row : ℕ) : Option AdhocValue := (col.cell row).bind StorageType.Elem.toAdhoc

theorem CellColumn.pushed_spec {col : CellColumn} (ht : col.type ≠ .id) (row : ℕ) :
    (col.pushed row).map (AdhocValue.as col.type.adhoc) = col.value row ∧
      ((col.pushed row).isSome = (col.cell row).isSome) ∧ ∀ v, col.pushed row = some v → v.type = col.type.adhoc := by
  rw [pushed, value]
  cases col.cell row with
  | none => exact ⟨rfl, rfl, fun v hv => by cases hv⟩
  | some e =>
    obtain ⟨v, hv, htype, hvalue⟩ := StorageType.Elem.toAdhoc_spec ht e
    rw [Option.bind_some, hv, Option.map_some, Option.map_some, hvalue]
    exact ⟨rfl, rfl, fun w hw => Option.some.inj hw ▸ htype⟩

/-- The integers for the builder. -/
theorem CellColumn.integers_eq {col : CellColumn} (hid : col.type ≠ .id) (ht : col.type.IsInteger) (rows : List ℕ) :
    (rows.map col.pushed).map (fun t => t.elim 0 AdhocValue.toInt) = col.integers rows := by
  have hkind : col.type.adhoc = .kInt64 := by
    obtain ⟨hdouble, hstring⟩ := ht
    cases hty : col.type with
    | double => exact absurd hty hdouble
    | string => exact absurd hty hstring
    | _ => rfl
  rw [List.map_map]
  refine List.map_congr_left fun row _ => ?_
  have hvalue := (pushed_spec hid row).1
  rw [hkind] at hvalue
  rw [← hvalue]
  cases hp : col.pushed row with
  | none => simp [hp]
  | some v => simp [hp, AdhocValue.as]

/-- A cell of a column is pushed as it is. -/
theorem ColumnHolds.pushCell_eq {rows : List ℕ} {cs : ColumnStorage} {bits : List Bool} {col : CellColumn}
    (h : ColumnHolds n rows cs bits col) (hn : rows.length ≤ n) (hid : col.type ≠ .id) (ci : ℕ) {k : ℕ}
    (hk : k < rows.length) : pushCell ci cs bits k = some (cellCall ci (col.pushed (rowAt rows k))) := by
  cases h with
  | @intro ty data bits name cell hdata hbits hcells =>
    have hck := hcells k hk
    have hrows : rows ≠ [] := fun hnil => by rw [hnil] at hk; exact Nat.not_lt_zero k hk
    obtain ⟨e, he⟩ : ∃ e, data[k]? = some e := ⟨_, List.getElem?_eq_getElem (by omega)⟩
    obtain ⟨v, hv, -⟩ := StorageType.Elem.toAdhoc_spec hid e
    rw [he] at hck
    rw [CellColumn.pushed]
    dsimp only
    rw [← hck]
    by_cases h0 : bits.length = 0
    · simp [pushCell, h0, he, hv, cellCall]
    · have hlt : k < bits.length := by
        have := (hbits.resolve_left h0).resolve_left hrows
        omega
      have hbit : bits[k]? = some bits[k] := List.getElem?_eq_getElem hlt
      by_cases hset : bits[k]
      · simp [pushCell, h0, hbit, hset, he, hv, cellCall]
      · simp [pushCell, h0, hbit, hset, cellCall]

/-- The calls for one column out of those for each. -/
theorem filter_flatten_range {f : ℕ → List PushCall} (hf : ∀ ci, ∀ call ∈ f ci, call.col = ci) (n c : ℕ) :
    ((List.range n).map f).flatten.filter (fun call => call.col = c) = if c < n then f c else [] := by
  induction n with
  | zero => rfl
  | succ n ih =>
    rw [List.range_succ, List.map_append, List.flatten_append, List.filter_append, ih]
    have hlast : ([n].map f).flatten = f n := by simp
    rw [hlast]
    rcases Nat.lt_trichotomy c n with hlt | rfl | hgt
    · rw [if_pos hlt, if_pos (hlt.trans (Nat.lt_succ_self n)), List.filter_eq_nil_iff.mpr, List.append_nil]
      intro call hcall
      simpa [hf n call hcall] using hlt.ne'
    · rw [if_neg (Nat.lt_irrefl c), if_pos (Nat.lt_succ_self c), List.nil_append, List.filter_eq_self.mpr]
      intro call hcall
      simpa using hf c call hcall
    · rw [if_neg (by omega), if_neg (by omega), List.nil_append, List.filter_eq_nil_iff.mpr]
      intro call hcall
      simpa [hf n call hcall] using hgt.ne

/-- Integers below 2^32 - 1 never wrap around. -/
theorem not_unbuildable_of_lt {a : AdhocColumn} {nullability : NullabilityType}
    (h : ∀ x ∈ a.integers nullability, x < 2 ^ 32 - 1) : ¬ a.Unbuildable nullability := by
  rintro ⟨-, ⟨before, x, after, heq, hwraps⟩ | ⟨-, hback⟩⟩
  · have hx := h x (by rw [heq]; simp)
    have := hwraps.2.1
    omega
  · have hx := h _ (List.mem_of_mem_getLast? hback.last)
    omega

section Output

variable {v : RowTree} {ts : TreeState}

theorem cellCall_col (ci : ℕ) (t : Option AdhocValue) : (cellCall ci t).col = ci := by cases t <;> rfl

/-- The cells of `_tree_id` and `_tree_parent_id`. -/
def treeCells (ts : TreeState) (c : ℕ) : List (Option AdhocValue) :=
  (List.range ts.rowCount).map fun k : ℕ =>
    if c = 0 then some (.int64 (.ofInt k)) else (toParentId (ts.parentAt k)).map fun p : ℕ => .int64 (.ofInt p)

theorem treeCalls_spec (h : ts.Holds F n v.rows) :
    ∃ calls, TreeTransformer.treeCalls ts.parent ts.rowCount = some calls ∧
      Pushes ["_tree_id", "_tree_parent_id"] calls (fun _ => .kInt64) (treeCells ts) v.rows.length := by
  set row : ℕ → List PushCall := fun k => [cellCall 0 (some (.int64 (.ofInt k))),
    cellCall 1 ((toParentId (ts.parentAt k)).map fun p : ℕ => .int64 (.ofInt p))] with hrow
  have hcalls : TreeTransformer.treeCalls ts.parent ts.rowCount = some ((List.range ts.rowCount).map row).flatten := by
    rw [TreeTransformer.treeCalls, mapM_eq_some_map (g := row)]
    · rfl
    · intro k hk
      have hlt : k < ts.parent.length := by
        have := List.mem_range.mp hk
        have := h.rowCount
        have := h.parent_length
        have := h.length_le
        omega
      have hget : ts.parent[k]? = some (ts.parentAt k) := by
        rw [TreeState.parentAt, List.getD_eq_getElem?_getD, List.getElem?_eq_getElem hlt]
        rfl
      rw [hget]
      by_cases hp : ts.parentAt k = kNullParent <;> simp [hrow, toParentId, hp, cellCall]
  refine ⟨_, hcalls, fun call hcall => ?_, fun c hc => ?_, fun c hc x hx => ?_, fun c hc => ?_⟩
  · obtain ⟨l, hl, hmem⟩ := List.mem_flatten.mp hcall
    obtain ⟨k, -, rfl⟩ := List.mem_map.mp hl
    rw [hrow] at hmem
    rcases List.mem_pair.mp hmem with rfl | rfl
    · exact (cellCall_col ..).trans_lt Nat.zero_lt_two
    · exact (cellCall_col ..).trans_lt Nat.one_lt_two
  · rw [List.filter_flatten, List.map_map, treeCells, List.map_map]
    have hone : ∀ k, (row k).filter (fun call => call.col = c) = [cellCall c (if c = 0 then some (.int64 (.ofInt k))
        else (toParentId (ts.parentAt k)).map fun p : ℕ => .int64 (.ofInt p))] := by
      intro k
      have hc2 : c < 2 := hc
      obtain rfl | rfl : c = 0 ∨ c = 1 := by omega
      · simp [hrow, cellCall_col]
      · simp [hrow, cellCall_col]
    refine (congrArg List.flatten (List.map_congr_left fun k _ => hone k)).trans ?_
    rw [← List.flatMap_def, ← List.map_eq_flatMap]
    rfl
  · obtain ⟨k, -, hk⟩ := List.mem_map.mp hx
    split_ifs at hk
    · cases hk
      exact ⟨rfl, by simp⟩
    · obtain ⟨p, -, rfl⟩ := Option.map_eq_some_iff.mp hk
      exact ⟨rfl, by simp⟩
  · rw [treeCells, List.length_map, List.length_range, h.rowCount]

theorem treeCells_getElem? (h : ts.Holds F n v.rows) {k : ℕ} (hk : k < v.rows.length) (c : ℕ) :
    (treeCells ts c)[k]? = some (if c = 0 then some (.int64 (.ofInt k))
      else (((v.forest F).parent (rowAt v.rows k)).map v.rows.idxOf).map fun p : ℕ => .int64 (.ofInt p)) := by
  rw [treeCells, List.getElem?_map, List.getElem?_range (h.rowCount ▸ hk), Option.map_some, h.parent k hk]
  rfl

/-- The place of a parent is not the number that stands for none. -/
theorem parent_place_lt (h : ts.Holds F n v.rows) {k row : ℕ} (hk : k < v.rows.length)
    (hrow : (v.forest F).parent (rowAt v.rows k) = some row) : v.rows.idxOf row < 2 ^ 32 - 1 := by
  have hp : toParentId (ts.parentAt k) = some (v.rows.idxOf row) :=
    (h.parent k hk).trans (congrArg (Option.map v.rows.idxOf) hrow)
  have hne : v.rows.idxOf row ≠ kNullParent := by
    rw [toParentId] at hp
    split_ifs at hp with hnull
    exact Option.some.inj hp ▸ hnull
  have hle : v.rows.idxOf row ≤ v.rows.length := List.idxOf_le_length
  have hrows := h.length_le.trans_lt h.lt
  have hnull : kNullParent = 2 ^ 32 - 1 := rfl
  omega

theorem int64_toInt {p : ℕ} (hp : p < 2 ^ 32 - 1) : (Int64.ofInt p).toInt = p :=
  Int64.toInt_ofInt_of_le (by omega) (by omega)

/-- The pushes of the data columns. -/
theorem dataCalls_spec (h : ts.Holds F n v.rows) {types : List StorageType} (hcols : ColumnsHold n types ts v)
    (hv : v.Ok pool) :
    ∃ calls, dataCalls (v.columns.map (·.name)).length ts.columns ts.nullBitvectors ts.rowCount = some calls ∧
      Pushes (v.columns.map (·.name)) calls (fun c => (v.columns[c]?.map fun col => col.type.adhoc).getD .kInt64)
        (fun c => (v.columns[c]?.map fun col => v.rows.map col.pushed).getD []) v.rows.length := by
  set cells : ℕ → List (Option AdhocValue) := fun c => (v.columns[c]?.map fun col => v.rows.map col.pushed).getD [] with hcells
  have hcell : ∀ {c}, c < (v.columns.map (·.name)).length → ∃ col ∈ v.columns, v.columns[c]? = some col ∧
      cells c = v.rows.map col.pushed := by
    intro c hc
    rw [List.length_map] at hc
    refine ⟨v.columns[c], List.getElem_mem hc, List.getElem?_eq_getElem hc, ?_⟩
    rw [hcells]
    dsimp only
    rw [List.getElem?_eq_getElem hc]
    rfl
  have hcalls : dataCalls (v.columns.map (·.name)).length ts.columns ts.nullBitvectors ts.rowCount =
      some ((List.range (v.columns.map (·.name)).length).map fun c => (cells c).map (cellCall c)).flatten := by
    rw [dataCalls, mapM_eq_some_map (g := fun c => (cells c).map (cellCall c))]
    · rfl
    · intro c hc
      obtain ⟨col, hmem, hcol, heq⟩ := hcell (List.mem_range.mp hc)
      obtain ⟨cs, bits, hcs, hbits, hholds⟩ := hcols.held c col hcol
      rw [hcs, hbits, heq, List.map_map]
      dsimp only [Option.bind_eq_bind, Option.bind_some]
      rw [mapM_eq_some_map (g := fun k => cellCall c (col.pushed (rowAt v.rows k)))]
      · rw [h.rowCount, ← map_rowAt_range v.rows, List.map_map, List.length_map, List.length_range, map_rowAt_range]
        rfl
      · exact fun k hk => hholds.pushCell_eq h.length_le (hv.not_id col hmem) c (h.rowCount ▸ List.mem_range.mp hk)
  refine ⟨_, hcalls, fun call hcall => ?_, fun c hc => ?_, fun c hc x hx => ?_, fun c hc => ?_⟩
  · obtain ⟨l, hl, hmem⟩ := List.mem_flatten.mp hcall
    obtain ⟨c, hc, rfl⟩ := List.mem_map.mp hl
    obtain ⟨t, -, rfl⟩ := List.mem_map.mp hmem
    exact (cellCall_col c t).trans_lt (List.mem_range.mp hc)
  · rw [filter_flatten_range, if_pos hc]
    intro ci call hcall
    obtain ⟨t, -, rfl⟩ := List.mem_map.mp hcall
    exact cellCall_col ci t
  · obtain ⟨col, hmem, hcol, heq⟩ := hcell hc
    rw [heq] at hx
    obtain ⟨row, -, hrow⟩ := List.mem_map.mp hx
    obtain ⟨hvalue, -, htype⟩ := CellColumn.pushed_spec (hv.not_id col hmem) row
    rw [hcol]
    refine ⟨htype x hrow, fun hnull => ?_⟩
    -- the null string is in no cell
    have hkind : AdhocColumnType.kString = col.type.adhoc := by
      have := htype x hrow
      rwa [hnull] at this
    rw [hrow, hnull, ← hkind] at hvalue
    exact pool.null_notMem (hv.strings col hmem row 0 hvalue.symm)
  · obtain ⟨col, -, -, heq⟩ := hcell hc
    show (cells c).length = _
    rw [heq, List.length_map]

/-- What is read of the ids are numbers that do not wrap around. -/
theorem treeCells_read (h : ts.Holds F n v.rows) {k : ℕ} (hk : k < v.rows.length) (c : ℕ) :
    ∃ t, (treeCells ts c)[k]? = some t ∧ (∀ x, t = some x → x.toInt < 2 ^ 32 - 1) ∧
      t.map (AdhocValue.as .kInt64) = if c = 0 then some (.int k)
        else ((v.forest F).parent (rowAt v.rows k)).map fun p => .int (v.rows.idxOf p) := by
  refine ⟨_, treeCells_getElem? h hk c, ?_⟩
  have hrows := h.length_le.trans_lt h.lt
  split_ifs
  · have hint := int64_toInt (p := k) (by omega)
    refine ⟨fun x hx => ?_, congrArg (fun z => some (Value.int z)) hint⟩
    rw [← Option.some.inj hx, AdhocValue.toInt, hint]
    omega
  · cases hparent : (v.forest F).parent (rowAt v.rows k) with
    | none => exact ⟨fun x hx => (by cases hx), rfl⟩
    | some row =>
      have hlt := parent_place_lt h hk hparent
      have hint := int64_toInt hlt
      refine ⟨fun x hx => ?_, congrArg (fun z => some (Value.int z)) hint⟩
      rw [← Option.some.inj hx, AdhocValue.toInt, hint]
      omega

/-- The columns of the ids are built. -/
theorem treeColumns_spec (h : ts.Holds F n v.rows) (pool : StringPool) :
    ∃ calls df columns, TreeTransformer.treeCalls ts.parent ts.rowCount = some calls ∧
      TreeTransformer.buildPushed pool ["_tree_id", "_tree_parent_id"] calls = some (.ok df) ∧
      df.Lists ["_tree_id", "_tree_parent_id"] columns v.rows.length ∧
      ∀ c < 2, ∃ col, columns[c]? = some col ∧ ∀ k < v.rows.length, col.getCell k = some (if c = 0 then some (.int k)
        else (((v.forest F).parent (rowAt v.rows k)).map fun p => .int (v.rows.idxOf p))) := by
  obtain ⟨calls, hcalls, hpushes⟩ := treeCalls_spec h
  have hfine : ∀ c < 2, ¬ (AdhocColumn.ofCells (treeCells ts c)).Unbuildable .kDenseNull := fun c hc => by
    refine not_unbuildable_of_lt fun x hx => ?_
    obtain ⟨t, ht, rfl⟩ := List.mem_map.mp hx
    rw [AdhocColumn.ofCells_eq (hpushes.kinds c hc)] at ht
    obtain ⟨k, hk⟩ := List.getElem?_of_mem ht
    have hlt : k < v.rows.length := hpushes.length c hc ▸ (List.getElem?_eq_some_iff.mp hk).1
    obtain ⟨t', ht', hsmall, -⟩ := treeCells_read h hlt c
    obtain rfl := Option.some.inj (hk.symm.trans ht')
    cases t with
    | none => decide
    | some x => exact hsmall x rfl
  obtain ⟨b, df, columns, hb, hbuild, hlists, hcells⟩ := hpushes.build pool (h.length_le.trans_lt h.lt) (by simp) hfine
  refine ⟨calls, df, columns, hcalls, by rw [TreeTransformer.buildPushed, hb]; exact hbuild, hlists, fun c hc => ?_⟩
  obtain ⟨col, hcol, hread⟩ := hcells c hc
  refine ⟨col, hcol, fun k hk => ?_⟩
  obtain ⟨t, ht, -, hvalue⟩ := treeCells_read h hk c
  rw [hread k t ht, hvalue]

/-- A column that can be built for the tree is built. -/
theorem not_unbuildable_of_not_wraps {col : CellColumn} (hid : col.type ≠ .id)
    (hkinds : CellsOf col.type.adhoc (v.rows.map col.pushed)) (h : ¬ col.Wraps v.rows) :
    ¬ (AdhocColumn.ofCells (v.rows.map col.pushed)).Unbuildable .kDenseNull := by
  rw [AdhocColumn.ofCells_eq hkinds]
  rintro ⟨htype, hwraps⟩
  dsimp only at htype
  have hinteger : col.type.IsInteger := by
    split_ifs at htype
    have hkind := Option.some.inj htype
    constructor <;> intro hty <;> rw [hty] at hkind <;> cases hkind
  have hdata : ∀ a : AdhocColumn, a.cells = v.rows.map col.pushed → a.integers .kDenseNull = col.integers v.rows := fun a ha => by
    rw [AdhocColumn.integers, AdhocColumn.elements, if_pos rfl, ha, CellColumn.integers_eq hid hinteger]
  rw [hdata _ rfl] at hwraps
  refine h ⟨hinteger, hwraps.imp_right fun hmore => ⟨fun row hrow => ?_, hmore.2⟩⟩
  rw [← (CellColumn.pushed_spec hid row).2.1]
  have hnone := List.any_eq_false.mp hmore.1 _ (List.mem_map_of_mem hrow)
  cases hp : col.pushed row with
  | none => exact absurd (congrArg Option.isNone hp) hnone
  | some v => rfl

/-- **The dataframe** that is built from a state shows the tree it holds. -/
theorem buildOutput_spec (h : ts.Holds F n v.rows) {types : List StorageType} (hcols : ColumnsHold n types ts v)
    (hv : v.Ok pool) (hbuilds : v.Builds) :
    ∃ df, TreeTransformer.buildOutput pool (v.columns.map (·.name)) ts.parent ts.rowCount ts.columns ts.nullBitvectors =
      some (.ok df) ∧ df.Shows F v := by
  obtain ⟨treeCalls, left, treeColumns, htree, hleft, hleftLists, hids⟩ := treeColumns_spec h pool
  obtain ⟨calls, hcalls, hpushes⟩ := dataCalls_spec h hcols hv
  have hcolumn : ∀ {c : ℕ}, c < (v.columns.map (·.name)).length → ∃ col ∈ v.columns, v.columns[c]? = some col := by
    intro c hc
    rw [List.length_map] at hc
    exact ⟨v.columns[c], List.getElem_mem hc, List.getElem?_eq_getElem hc⟩
  have hfine : ∀ c < (v.columns.map (·.name)).length,
      ¬ (AdhocColumn.ofCells ((v.columns[c]?.map fun col => v.rows.map col.pushed).getD [])).Unbuildable .kDenseNull := by
    intro c hc
    obtain ⟨col, hmem, hcol⟩ := hcolumn hc
    have hkinds := hpushes.kinds c hc
    rw [hcol] at hkinds ⊢
    exact not_unbuildable_of_not_wraps (hv.not_id col hmem) hkinds (hbuilds.fits col hmem)
  have hempty : v.columns.map (·.name) = [] → v.rows.length = 0 := fun hnil => by
    rw [hbuilds.columns (List.map_eq_nil_iff.mp hnil)]
    rfl
  obtain ⟨b, right, columns, hb, hbuild, hrightLists, hcells⟩ :=
    hpushes.build pool (h.length_le.trans_lt h.lt) hempty hfine
  have hright : TreeTransformer.buildPushed pool (v.columns.map (·.name)) calls = some (.ok right) := by
    rw [TreeTransformer.buildPushed, hb]
    exact hbuild
  obtain ⟨hauto, hnodup⟩ := List.nodup_cons.mp hbuilds.names
  obtain ⟨df, hdf, hlists⟩ := horizontalConcat_ok hleftLists hrightLists hnodup hauto
  have hat : ∀ {c : ℕ} {col : Column} (k : ℕ), (treeColumns ++ columns)[c]? = some col → df.cellAt k c = col.getCell k :=
    fun k hcol => by
      rw [Dataframe.cellAt, hlists.columns, List.getElem?_append_left (List.getElem?_eq_some_iff.mp hcol).1, hcol,
        Option.bind_some]
  have htwo : treeColumns.length = 2 := hleftLists.length.symm
  refine ⟨df, ?_, hlists.rowCount, hlists.columnNames, fun k hk => ?_, fun k row hrow => ?_, fun c col hcol k row hrow => ?_⟩
  · simp only [TreeTransformer.buildOutput, htree, hleft, hcalls, hright, Option.bind_eq_bind, Option.bind_some, hdf]
  · obtain ⟨col, hcol, hread⟩ := hids 0 Nat.zero_lt_two
    rw [hat k ((List.getElem?_append_left (by omega)).trans hcol), hread k hk, if_pos rfl]
  · obtain ⟨col, hcol, hread⟩ := hids 1 Nat.one_lt_two
    have hk := (List.getElem?_eq_some_iff.mp hrow).1
    rw [hat k ((List.getElem?_append_left (by omega)).trans hcol), hread k hk, if_neg Nat.one_ne_zero, rowAt_of_getElem? hrow]
  · have hc : c < (v.columns.map (·.name)).length := (List.length_map ..).symm ▸ (List.getElem?_eq_some_iff.mp hcol).1
    obtain ⟨built, hbuilt, hread⟩ := hcells c hc
    have hright : (treeColumns ++ columns)[c + 2]? = some built := by
      rw [List.getElem?_append_right (by omega), htwo, Nat.add_sub_cancel, hbuilt]
    rw [hcol, Option.map_some, Option.map_some, Option.getD_some, Option.getD_some] at hread
    rw [hat k hright, hread k (col.pushed row) (by rw [List.getElem?_map, hrow, Option.map_some]),
      (CellColumn.pushed_spec (hv.not_id col (List.mem_of_getElem? hcol)) row).1]

end Output

/-- Few rows never wrap around. -/
theorem CellColumn.not_wraps_of_length {rows : List ℕ} (h : rows.length < 2 ^ 28) (col : CellColumn) : ¬ col.Wraps rows := by
  have hlength : (col.integers rows).length = rows.length := List.length_map ..
  rintro ⟨-, ⟨before, x, after, -, -, hmin, hmax, -⟩ | ⟨-, hback⟩⟩
  · omega
  · have := hback.small
    omega

/-- The dataframe of a transformer without operations. -/
theorem TreeColumns.Valid.toDataframe_create {c : TreeColumns} (h : c.Valid pool) (hbuilds : c.toRowTree.Builds) :
    ∃ df, (TreeTransformer.create c).toDataframe pool m = some (.ok df) ∧ df.Shows h.forest c.toRowTree := by
  obtain ⟨df, hdf, hshows⟩ := buildOutput_spec (h.initialTree_holds (.refl _)) (h.initialTree_columns (.refl _))
    h.toRowTree_ok hbuilds
  refine ⟨df, ?_, hshows⟩
  rw [TreeTransformer.toDataframe, if_pos (by simp [TreeTransformer.create_hasOperations])]
  rw [← h.names_eq] at hdf
  simpa only [TreeTransformer.initialTree, TreeTransformer.create_cols] using hdf

/-! ### A root with two children -/

/-- Parent links to smaller indices have no cycle. -/
theorem TreeColumns.acyclic_of_lt {c : TreeColumns} (h : ∀ i p, c.parentOf i = some p → p < i) (i : ℕ) :
    ¬ Relation.TransGen (IsParent c.parentOf) i i := by
  have hlt : ∀ {a b : ℕ}, Relation.TransGen (IsParent c.parentOf) a b → a < b := by
    intro a b hab
    induction hab with
    | single hb => exact h _ _ hb
    | tail _ hb ih => exact ih.trans (h _ _ hb)
  exact fun hcycle => (hlt hcycle).false

/-- `GLOB` without wildcards, and no regular expression. -/
def plainMatchers : Matchers where
  globIsEquality _ := true
  globMatches pattern s := s = pattern
  globMatches_eq _ _ _ := rfl
  regex _ := none

def threeRows : TreeColumns where
  rowCount := 3
  parent := [kNullParent, 0, 0]
  names := ["dur"]
  columns := [⟨⟨.int64, [⟨3, by decide⟩, ⟨1, by decide⟩, ⟨4, by decide⟩]⟩, []⟩]

theorem threeRows_valid : threeRows.Valid .empty where
  rowCount_lt := by decide
  parent_length := rfl
  parent_lt := by decide
  acyclic := by
    refine TreeColumns.acyclic_of_lt fun i p hp => ?_
    have hi : i < 3 := by
      by_contra hge
      have hnone : threeRows.parent[i]? = none := List.getElem?_eq_none (Nat.not_lt.mp hge)
      rw [TreeColumns.parentOf, hnone] at hp
      cases hp
    have hall : ∀ i < 3, ∀ p, threeRows.parentOf i = some p → p < i := by decide +revert
    exact hall i hi p hp
  names_length := rfl
  data_length := by decide
  nullBv_length := by decide
  not_id := by decide
  strings col hcol i id hid _ := by
    rw [List.mem_singleton.mp hcol] at hid
    obtain ⟨e, -, he⟩ := Option.map_eq_some_iff.mp hid
    exact absurd he (StorageType.Elem.toValue_ne_string (by simp) e id)

/-- The rows with `dur > 2`, and the sums of `dur` from the root down to them. -/
def sumOfLongRows : List Call :=
  [.filterTree [(⟨0, .cmp .gt⟩, .long ⟨2, by decide⟩)], .propagateDown [⟨.sum, "dur", "total"⟩]]

end LynxTrace.TraceProcessor.Core
