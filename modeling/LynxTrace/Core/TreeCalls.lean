import LynxTrace.Core.TreePropagate

/-!
# Core.TreeCalls — the bytecode of a `TreeTransformer` does what its calls mean

A transformer only grows: bytecode, registers, values and specs that are there stay.  So the code that a call appends
runs in the same way whatever is appended after it, and the run of all calls is followed call by call.
-/

namespace LynxTrace.TraceProcessor.Core

variable {pool : StringPool} {m : Matchers} {F : Forest ℕ} {n : ℕ}

/-! ### Transformers that grow -/

/-- Registers to be set before the run are distinct, and none of them is the span or the tree state. -/
structure TreeTransformer.RegsOk (t : TreeTransformer) : Prop where
  treeStateReg : t.treeStateReg = 3
  nodup : (t.regInits.map RegInit.reg).Nodup
  range : ∀ ri ∈ t.regInits, 4 ≤ ri.reg ∧ ri.reg < t.registerCount

/-- What a register is set to. -/
def RegInit.value : RegInit → Register
  | storage _ col => .storage col
  | nullBv _ col => .nullBv col

theorem TreeTransformer.initRegister_eq (regs : ℕ → Register) (ri : RegInit) :
    initRegister regs ri = Function.update regs ri.reg ri.value := by
  cases ri <;> rfl

namespace TreeTransformer.RegsOk

variable {t : TreeTransformer}

theorem initialRegs_eq (h : t.RegsOk) {ri : RegInit} (hri : ri ∈ t.regInits) : t.initialRegs ri.reg = ri.value := by
  have hfold : ∀ (l : List RegInit) (regs : ℕ → Register), (l.map RegInit.reg).Nodup → ri ∈ l →
      l.foldl initRegister regs ri.reg = ri.value := by
    intro l
    induction l using List.reverseRecOn with
    | nil => simp
    | append_singleton l x ih =>
      intro regs hnodup hmem
      rw [List.map_append, List.nodup_append] at hnodup
      rw [List.foldl_append, List.foldl_cons, List.foldl_nil, initRegister_eq]
      rcases List.mem_append.mp hmem with hin | hin
      · have hne : ri.reg ≠ x.reg := hnodup.2.2 _ (List.mem_map_of_mem hin) _ (by simp)
        rw [Function.update_of_ne hne]
        exact ih regs hnodup.1 hin
      · rw [List.mem_singleton.mp hin, Function.update_self]
  exact hfold _ _ h.nodup hri

theorem initialRegs_treeState (h : t.RegsOk) : t.initialRegs 3 = .treeState := by
  have hfold : ∀ (l : List RegInit) (regs : ℕ → Register), (∀ ri ∈ l, 4 ≤ ri.reg) →
      l.foldl initRegister regs 3 = regs 3 := by
    intro l
    induction l with
    | nil => simp
    | cons x l ih =>
      intro regs hl
      rw [List.foldl_cons, ih _ fun ri hri => hl ri (List.mem_cons_of_mem _ hri), initRegister_eq]
      have := hl x List.mem_cons_self
      exact Function.update_of_ne (by omega) _ _
  rw [initialRegs, hfold _ _ fun ri hri => (h.range ri hri).1, h.treeStateReg, Function.update_self]

end TreeTransformer.RegsOk

/-- Columns added by propagations: uninitialized, without null bits. -/
def AddedColumns (t : TreeTransformer) (cols : List TreeColumn) : Prop :=
  ∀ col ∈ cols, col.data.length = t.cols.rowCount ∧ col.nullBv = []

/-- The part of `t` that execution uses is also in `u`. -/
structure Extends (t u : TreeTransformer) : Prop where
  values : t.filterValues <+: u.filterValues
  specs : t.propagateSpecs <+: u.propagateSpecs
  regInits : t.regInits <+: u.regInits
  rowCount : u.cols.rowCount = t.cols.rowCount
  parent : u.cols.parent = t.cols.parent
  columns : ∃ rest, u.cols.columns = t.cols.columns ++ rest ∧ AddedColumns t rest

namespace Extends

/-- Nothing changed in the columns. -/
theorem of_cols_eq {t u : TreeTransformer} (values : t.filterValues <+: u.filterValues)
    (specs : t.propagateSpecs <+: u.propagateSpecs) (regInits : t.regInits <+: u.regInits) (h : u.cols = t.cols) :
    Extends t u :=
  ⟨values, specs, regInits, by rw [h], by rw [h], [], by rw [h, List.append_nil], fun _ hc => by cases hc⟩

theorem refl (t : TreeTransformer) : Extends t t :=
  of_cols_eq List.prefix_rfl List.prefix_rfl List.prefix_rfl rfl

theorem trans {t u w : TreeTransformer} (h : Extends t u) (h' : Extends u w) : Extends t w := by
  obtain ⟨rest, hrest, hadded⟩ := h.columns
  obtain ⟨rest', hrest', hadded'⟩ := h'.columns
  refine ⟨h.values.trans h'.values, h.specs.trans h'.specs, h.regInits.trans h'.regInits, h'.rowCount.trans h.rowCount,
    h'.parent.trans h.parent, rest ++ rest', by rw [hrest', hrest, List.append_assoc], fun col hcol => ?_⟩
  rcases List.mem_append.mp hcol with hc | hc
  · exact hadded col hc
  · have := hadded' col hc
    rwa [h.rowCount] at this

/-- Code alone is not looked at. -/
theorem addOpcode {t u : TreeTransformer} (h : Extends t u) (bc : Bytecode) : Extends t (u.addOpcode bc) :=
  ⟨h.values, h.specs, h.regInits, h.rowCount, h.parent, h.columns⟩

theorem of_addOpcode {t u : TreeTransformer} {bc : Bytecode} (h : Extends (t.addOpcode bc) u) : Extends t u :=
  ⟨h.values, h.specs, h.regInits, h.rowCount, h.parent, h.columns⟩

end Extends

/-- The code that `u` has more than `t` takes `s` to `s'`, with the values of `w`. -/
def Runs (pool : StringPool) (m : Matchers) (w t u : TreeTransformer) (s s' : InterpreterState) : Prop :=
  ∃ code, u.bytecode = t.bytecode ++ code ∧ execute pool m w.filterValues code s = some s'

namespace Runs

variable {w t u r : TreeTransformer} {s s' s'' : InterpreterState}

theorem of_bytecode_eq (h : u.bytecode = t.bytecode) : Runs pool m w t u s s := ⟨[], by simpa using h, rfl⟩

theorem addOpcode {bc : Bytecode} (h : bc.exec pool m w.filterValues s = some s') :
    Runs pool m w t (t.addOpcode bc) s s' := by
  refine ⟨[bc], rfl, ?_⟩
  simp [execute, h]

theorem trans (h : Runs pool m w t u s s') (h' : Runs pool m w u r s' s'') : Runs pool m w t r s s'' := by
  obtain ⟨code, hcode, hrun⟩ := h
  obtain ⟨code', hcode', hrun'⟩ := h'
  refine ⟨code ++ code', by rw [hcode', hcode, List.append_assoc], ?_⟩
  rw [execute] at hrun hrun' ⊢
  rw [List.foldlM_append, hrun]
  exact hrun'

end Runs

/-! ### The invariants of a run -/

/-- The cells of a tree: no `Id` column, strings of the pool, no null in a column without null bits. -/
structure RowTree.Ok (pool : StringPool) (v : RowTree) : Prop where
  not_id : ∀ col ∈ v.columns, col.type ≠ .id
  strings : ∀ col ∈ v.columns, ∀ row id, col.value row = some (.string id) → pool.Contains id
  filled : ∀ col ∈ v.columns, col.nullable = false → ∀ row ∈ v.rows, (col.cell row).isSome

/-- The transformer knows the columns of the tree. -/
structure Emitted (n : ℕ) (t : TreeTransformer) (v : RowTree) : Prop where
  rowCount : t.cols.rowCount = n
  names : t.cols.names = v.columns.map (·.name)
  columns_length : t.cols.columns.length = v.columns.length
  columns : ∀ (c : ℕ) col, v.columns[c]? = some col →
    ∃ tc, t.cols.columns[c]? = some tc ∧ tc.type = col.type ∧ (tc.nullBv.length = 0 ↔ col.nullable = false)
  values : t.filterValueCount = t.filterValues.length
  spanReg : t.spanReg = 2
  registerCount : 4 ≤ t.registerCount
  regs : t.RegsOk

/-- The columns of the state: those of the tree hold its cells, those still to be propagated have their size. -/
structure ColumnsHold (n : ℕ) (types : List StorageType) (ts : TreeState) (v : RowTree) : Prop where
  held : ∀ (c : ℕ) col, v.columns[c]? = some col →
    ∃ cs bits, ts.columns[c]? = some cs ∧ ts.nullBitvectors[c]? = some bits ∧ ColumnHolds n v.rows cs bits col
  later : ∀ (c : ℕ) t, types[c]? = some t → v.columns.length ≤ c →
    ∃ cs, ts.columns[c]? = some cs ∧ cs.type = t ∧ cs.data.length = n ∧ ts.nullBitvectors[c]? = some []

/-- The interpreter of `u` has run the code of `t` and holds the tree, with some of its positions in the span. -/
structure Holding (F : Forest ℕ) (n : ℕ) (u t : TreeTransformer) (s : InterpreterState) (v : RowTree)
    (positions : List ℕ) : Prop where
  span : s.regs 2 = .span positions
  treeState : s.regs 3 = .treeState
  fresh : ∀ r, t.registerCount ≤ r → s.regs r = u.initialRegs r
  tree : s.tree.Holds F n v.rows
  columns : ColumnsHold n (u.cols.columns.map (·.type)) s.tree v
  specs : s.tree.propagateDownSpecs = u.propagateSpecs

namespace Holding

variable {u t : TreeTransformer} {s : InterpreterState} {v : RowTree} {positions : List ℕ}

/-- A write to a register that only code emitted so far uses. -/
theorem write_old (h : Holding F n u t s v positions) {r : ℕ} {x : Register} {t' : TreeTransformer}
    (hr : 4 ≤ r) (ht : r < t'.registerCount) (hle : t.registerCount ≤ t'.registerCount) :
    Holding F n u t' (s.write r x) v positions where
  span := (s.write_regs_of_ne (by omega) x).trans h.span
  treeState := (s.write_regs_of_ne (by omega) x).trans h.treeState
  fresh r' hr' := (s.write_regs_of_ne (by omega) x).trans (h.fresh r' (by omega))
  tree := h.tree
  columns := h.columns
  specs := h.specs

/-- New positions in the span. -/
theorem write_span (h : Holding F n u t s v positions) (ht : 4 ≤ t.registerCount) (l : List ℕ) :
    Holding F n u t (s.write 2 (.span l)) v l where
  span := s.write_regs_self _ _
  treeState := (s.write_regs_of_ne (by decide) _).trans h.treeState
  fresh r hr := (s.write_regs_of_ne (by omega) _).trans (h.fresh r hr)
  tree := h.tree
  columns := h.columns
  specs := h.specs

/-- More registers for the code emitted so far. -/
theorem mono (h : Holding F n u t s v positions) {t' : TreeTransformer} (hle : t.registerCount ≤ t'.registerCount) :
    Holding F n u t' s v positions :=
  ⟨h.span, h.treeState, fun r hr => h.fresh r (hle.trans hr), h.tree, h.columns, h.specs⟩

end Holding

/-! ### One constraint -/

theorem packLeft_eq {bits : List Bool} {b : ℕ → Bool} (invert : Bool) :
    ∀ {l : List ℕ}, (∀ k ∈ l, bits[k]? = some (b k)) → packLeft invert bits l = some (l.filter fun k => b k != invert)
  | [], _ => rfl
  | k :: l, h => by
    rw [packLeft, h k List.mem_cons_self, packLeft_eq invert fun j hj => h j (List.mem_cons_of_mem _ hj)]
    cases hb : b k <;> cases invert <;> simp [hb]

theorem mem_keptPositions {q : ℕ → Bool} {rows : List ℕ} {k : ℕ} :
    k ∈ keptPositions q rows ↔ k < rows.length ∧ q (rowAt rows k) := mem_keptBelow

theorem keptPositions_congr {p p' : ℕ → Bool} {rows : List ℕ} (h : ∀ row ∈ rows, p row = p' row) :
    keptPositions p rows = keptPositions p' rows :=
  List.filter_congr fun _ hk => h _ (rowAt_mem (List.mem_range.mp hk))

theorem filter_keptPositions {p g : ℕ → Bool} {f : ℕ → Bool} {rows : List ℕ}
    (h : ∀ k < rows.length, p (rowAt rows k) → f k = g (rowAt rows k)) :
    (keptPositions p rows).filter f = keptPositions (fun r => p r && g r) rows := by
  rw [keptPositions, keptBelow, List.filter_filter, keptPositions, keptBelow]
  refine List.filter_congr fun k hk => ?_
  by_cases hp : p (rowAt rows k)
  · simp [hp, h k (List.mem_range.mp hk) hp]
  · simp [hp]

section Constraint

variable {t u w : TreeTransformer} {v : RowTree} {s : InterpreterState} {p : ℕ → Bool} {c : ℕ} {col : CellColumn}

theorem Emitted.grow (h : Emitted n t v) (hcols : u.cols = t.cols)
    (hvalues : u.filterValueCount = u.filterValues.length) (hspan : u.spanReg = t.spanReg)
    (hcount : t.registerCount ≤ u.registerCount) (hregs : u.RegsOk) : Emitted n u v where
  rowCount := hcols ▸ h.rowCount
  names := hcols ▸ h.names
  columns_length := hcols ▸ h.columns_length
  columns := hcols ▸ h.columns
  values := hvalues
  spanReg := hspan.trans h.spanReg
  registerCount := h.registerCount.trans hcount
  regs := hregs

/-- A register allocated for a pointer to set. -/
theorem TreeTransformer.RegsOk.allocate (h : t.RegsOk) (hcount : 4 ≤ t.registerCount) (ri : RegInit)
    (hri : ri.reg = t.registerCount) (htree : u.treeStateReg = t.treeStateReg)
    (hinits : u.regInits = t.regInits ++ [ri]) (hregs : u.registerCount = t.registerCount + 1) : u.RegsOk where
  treeStateReg := htree.trans h.treeStateReg
  nodup := by
    rw [hinits, List.map_append, List.nodup_append]
    refine ⟨h.nodup, List.nodup_singleton _, fun a ha b hb => ?_⟩
    obtain ⟨ri', hri', rfl⟩ := List.mem_map.mp ha
    rw [List.map_singleton, List.mem_singleton] at hb
    have := (h.range ri' hri').2
    omega
  range ri' hri' := by
    rw [hinits, List.mem_append, List.mem_singleton] at hri'
    rcases hri' with hin | rfl
    · have := h.range ri' hin
      omega
    · omega

theorem TreeTransformer.RegsOk.allocateUnset (h : t.RegsOk) (htree : u.treeStateReg = t.treeStateReg)
    (hinits : u.regInits = t.regInits) (hregs : t.registerCount ≤ u.registerCount) : u.RegsOk where
  treeStateReg := htree.trans h.treeStateReg
  nodup := hinits ▸ h.nodup
  range ri hri := by
    have := h.range ri (hinits ▸ hri)
    omega

theorem Emitted.emitNullFilter (h : Emitted n t v) (invert : Bool) (c : ℕ) : Emitted n (t.emitNullFilter invert c) v :=
  h.grow rfl h.values rfl (Nat.le_succ _) (h.regs.allocate h.registerCount (.nullBv t.registerCount c) rfl rfl rfl rfl)

theorem extends_emitNullFilter (invert : Bool) (c : ℕ) : Extends t (t.emitNullFilter invert c) :=
  .of_cols_eq List.prefix_rfl List.prefix_rfl (List.prefix_append _ _) rfl

/-- A null filter keeps the positions whose cells are null, or those whose cells are not. -/
theorem emitNullFilter_spec (hT : Emitted n t v) (invert : Bool) (hcol : v.columns[c]? = some col)
    (hnull : col.nullable = true) (hw : w.RegsOk) (hext : Extends (t.emitNullFilter invert c) w)
    (hs : Holding F n w t s v (keptPositions p v.rows)) :
    ∃ s', Runs pool m w t (t.emitNullFilter invert c) s s' ∧
      Holding F n w (t.emitNullFilter invert c) s' v
        (keptPositions (fun r => p r && ((col.cell r).isSome != invert)) v.rows) ∧
      ∀ r, 4 ≤ r → s'.regs r = s.regs r := by
  obtain ⟨cs, bits, hcs, hbits, hholds⟩ := hs.columns.held c col hcol
  have hreg : s.regs t.registerCount = .nullBv c := by
    rw [hs.fresh _ le_rfl]
    exact hw.initialRegs_eq (hext.regInits.subset (List.mem_append_right _ (List.mem_singleton_self _)))
  have hpack : packLeft invert bits (keptPositions p v.rows) =
      some (keptPositions (fun r => p r && ((col.cell r).isSome != invert)) v.rows) := by
    cases hholds with
    | @intro ty data bits name cell hdata hlen hcells =>
      have hbitsne : bits.length ≠ 0 := of_decide_eq_true hnull
      have hbit : ∀ k < v.rows.length, bits[k]? = some ((cell (rowAt v.rows k)).isSome) := by
        intro k hk
        have hne : v.rows ≠ [] := fun hnil => by rw [hnil] at hk; exact Nat.not_lt_zero k hk
        have hbl : bits.length = v.rows.length := by simpa [hbitsne, hne] using hlen
        have hb : bits[k]? = some bits[k] := List.getElem?_eq_getElem (by omega)
        have hd : k < data.length := by
          have := hs.tree.length_le
          omega
        have hck := hcells k hk
        rw [hb] at hck ⊢
        rw [← hck]
        by_cases hset : bits[k]
        · simp [hset, hd]
        · simp [hset, hbitsne]
      rw [packLeft_eq (b := fun k => (cell (rowAt v.rows k)).isSome) invert fun k hk => hbit k (mem_keptPositions.mp hk).1]
      exact congrArg some (filter_keptPositions (g := fun r => (cell r).isSome != invert) fun k hk _ => rfl)
  refine ⟨s.write 2 (.span (keptPositions (fun r => p r && ((col.cell r).isSome != invert)) v.rows)), ?_, ?_, ?_⟩
  · refine (Runs.of_bytecode_eq rfl).trans ((Runs.addOpcode (t := t.allocateRegister) ?_).trans (Runs.of_bytecode_eq rfl))
    simp only [Bytecode.exec, hreg, Register.asNullBv, hT.spanReg, hs.span, Register.asSpan, hbits, hpack,
      Option.bind_eq_bind, Option.bind_some, Option.pure_def]
  · exact (hs.mono (Nat.le_succ _)).write_span (hT.registerCount.trans (Nat.le_succ _)) _
  · intro r hr
    exact s.write_regs_of_ne (by omega) _

/-! ### A comparison -/

theorem Emitted.emitCast (h : Emitted n t v) (type : StorageType) (op : Op) (value : SqlValue) :
    Emitted n (t.emitCast type op value) v := by
  refine h.grow rfl ?_ rfl (Nat.le_succ _) (h.regs.allocateUnset rfl rfl (Nat.le_succ _))
  change t.filterValueCount + 1 = (t.filterValues ++ [value]).length
  rw [List.length_append, h.values]
  rfl

theorem extends_emitCast (type : StorageType) (op : Op) (value : SqlValue) : Extends t (t.emitCast type op value) :=
  .of_cols_eq (List.prefix_append _ _) List.prefix_rfl List.prefix_rfl rfl

variable {value : SqlValue}

theorem emitCast_spec (hT : Emitted n t v) {type : StorageType} {op : Op} (hext : Extends (t.emitCast type op value) w)
    {r : CastFilterValueResult} (hr : castFilterValue type op value = some r) {positions : List ℕ}
    (hs : Holding F n w t s v positions) :
    ∃ s', Runs pool m w t (t.emitCast type op value) s s' ∧
      Holding F n w (t.emitCast type op value) s' v positions ∧ s'.regs t.registerCount = .cast r := by
  have hvalue : w.filterValues[t.filterValueCount]? = some value := by
    obtain ⟨rest, hrest⟩ := hext.values
    rw [← hrest, hT.values]
    change (t.filterValues ++ [value] ++ rest)[t.filterValues.length]? = some value
    simp
  refine ⟨s.write t.registerCount (.cast r), ?_, ?_, s.write_regs_self _ _⟩
  · refine (Runs.of_bytecode_eq rfl).trans ((Runs.addOpcode (t := t.allocateRegister) ?_).trans (Runs.of_bytecode_eq rfl))
    simp only [Bytecode.exec, hvalue, hr, Option.bind_eq_bind, Option.bind_some, Option.pure_def]
  · exact hs.write_old hT.registerCount (Nat.lt_succ_self _) (Nat.le_succ _)

theorem Emitted.emitPruneNulls (h : Emitted n t v) (nullBv : List Bool) (c : ℕ) :
    Emitted n (t.emitPruneNulls nullBv c) v := by
  rw [TreeTransformer.emitPruneNulls]
  split
  · exact h
  · exact h.emitNullFilter false c

theorem extends_emitPruneNulls (nullBv : List Bool) (c : ℕ) : Extends t (t.emitPruneNulls nullBv c) := by
  rw [TreeTransformer.emitPruneNulls]
  split
  · exact .refl t
  · exact extends_emitNullFilter false c

/-- After pruning the cells at the positions left are not null. -/
theorem emitPruneNulls_spec (hT : Emitted n t v) (hv : v.Ok pool) (hcol : v.columns[c]? = some col)
    {nullBv : List Bool} (hnull : nullBv.length = 0 ↔ col.nullable = false) (hw : w.RegsOk)
    (hext : Extends (t.emitPruneNulls nullBv c) w) (hs : Holding F n w t s v (keptPositions p v.rows)) :
    ∃ s', Runs pool m w t (t.emitPruneNulls nullBv c) s s' ∧
      Holding F n w (t.emitPruneNulls nullBv c) s' v (keptPositions (fun r => p r && (col.cell r).isSome) v.rows) ∧
      ∀ r, 4 ≤ r → s'.regs r = s.regs r := by
  by_cases h0 : nullBv.length = 0
  · have hsame : t.emitPruneNulls nullBv c = t := if_pos h0
    have hall : keptPositions (fun r => p r && (col.cell r).isSome) v.rows = keptPositions p v.rows := by
      refine List.filter_congr fun k hk => ?_
      have hfilled := hv.filled col (List.mem_of_getElem? hcol) (hnull.mp h0) _ (rowAt_mem (List.mem_range.mp hk))
      simp [hfilled]
    rw [hsame, hall]
    exact ⟨s, Runs.of_bytecode_eq rfl, hs, fun _ _ => rfl⟩
  · have hsame : t.emitPruneNulls nullBv c = t.emitNullFilter false c := if_neg h0
    rw [hsame] at hext ⊢
    have hnullable : col.nullable = true := by
      rw [← Bool.not_eq_false]
      exact fun hf => h0 (hnull.mpr hf)
    simpa using emitNullFilter_spec hT false hcol hnullable hw hext hs

theorem Emitted.emitStorage (h : Emitted n t v) (c : ℕ) : Emitted n (t.emitStorage c) v :=
  h.grow rfl h.values rfl (Nat.le_succ _) (h.regs.allocate h.registerCount (.storage t.registerCount c) rfl rfl rfl rfl)

theorem extends_emitStorage (c : ℕ) : Extends t (t.emitStorage c) :=
  .of_cols_eq List.prefix_rfl List.prefix_rfl (List.prefix_append _ _) rfl

theorem emitStorage_reg (hw : w.RegsOk) (hext : Extends (t.emitStorage c) w) {positions : List ℕ}
    (hs : Holding F n w t s v positions) : s.regs t.registerCount = .storage c := by
  rw [hs.fresh _ le_rfl]
  exact hw.initialRegs_eq (hext.regInits.subset (List.mem_append_right _ (List.mem_singleton_self _)))

variable {types : List StorageType}

/-- The element at a position whose cell is not null. -/
theorem read_eq {ts : TreeState} (h : ColumnsHold n types ts v) (hcol : v.columns[c]? = some col) {k : ℕ}
    (hk : k < v.rows.length) (hcell : (col.cell (rowAt v.rows k)).isSome) :
    ts.read c k = col.value (rowAt v.rows k) := by
  obtain ⟨cs, bits, hcs, -, hholds⟩ := h.held c col hcol
  cases hholds with
  | @intro ty data bits name cell hdata hlen hcells =>
    obtain ⟨e, he⟩ := Option.isSome_iff_exists.mp hcell
    have hck := hcells k hk
    simp only at he
    rw [he] at hck
    have hget : data[k]? = some e := by
      split at hck
      · exact hck
      · cases hck
    simp [TreeState.read, hcs, hget, CellColumn.value, he]

/-- A span filtered by its own positions. -/
theorem map_filter_diagonal (K : List ℕ) (f : ℕ → Bool) :
    ((K.map fun k => (k, k)).filter fun q => f q.1).map Prod.snd = K.filter f := by
  rw [List.filter_map, List.map_map]
  exact List.map_id _

theorem diagonal_fst (K : List ℕ) : (K.map fun k => (k, k)).map Prod.fst = K := by
  rw [List.map_map]
  exact List.map_id _

theorem diagonal_snd (K : List ℕ) : (K.map fun k => (k, k)).map Prod.snd = K := by
  rw [List.map_map]
  exact List.map_id _

theorem Op.holds_none {op : Op} (hnull : op ≠ .isNull) (value : SqlValue) : op.holds pool m none value = false := by
  cases op with
  | isNull => exact absurd rfl hnull
  | _ => rfl

/-- The positions whose cells are there and satisfy the constraint. -/
theorem filter_holds {op : Op} (hnull : op ≠ .isNull) {val : ℕ → Value}
    (hval : ∀ k < v.rows.length, (col.cell (rowAt v.rows k)).isSome → col.value (rowAt v.rows k) = some (val k)) :
    (keptPositions (fun r => p r && (col.cell r).isSome) v.rows).filter (fun k => op.holds pool m (some (val k)) value) =
      keptPositions (fun r => p r && op.holds pool m (col.value r) value) v.rows := by
  rw [filter_keptPositions (g := fun r => op.holds pool m (col.value r) value)]
  · refine List.filter_congr fun k _ => ?_
    rcases hcell : col.cell (rowAt v.rows k) with _ | e
    · have hnone : col.value (rowAt v.rows k) = none := by rw [CellColumn.value, hcell]; rfl
      simp [hcell, hnone, Op.holds_none hnull]
    · simp [hcell]
  · intro k hk hp
    rw [hval k hk (by simpa using (Bool.and_eq_true_iff.mp hp).2)]

theorem numberFilter_spec {ts : TreeState} (h : ColumnsHold n types ts v) (hv : v.Ok pool)
    (hcol : v.columns[c]? = some col) (hstring : col.type ≠ .string) {op : CmpOp} (hfit : value.Fits col.type) :
    ∃ r, castFilterValue col.type (.cmp op) value = some r ∧
      nonStringFilter (ts.readAs col.type c) op r (keptPositions (fun r => p r && (col.cell r).isSome) v.rows)
          (keptPositions (fun r => p r && (col.cell r).isSome) v.rows) =
        some (keptPositions (fun r => p r && (Op.cmp op).holds pool m (col.value r) value) v.rows) := by
  obtain ⟨r, hr, hadmits⟩ := castFilterValue_admits pool op hstring hfit
  refine ⟨r, hr, ?_⟩
  set K := keptPositions (fun r => p r && (col.cell r).isSome) v.rows with hK
  let val : ℕ → Value := fun k => (col.value (rowAt v.rows k)).getD (.int 0)
  have hcell : ∀ k ∈ K, k < v.rows.length ∧ (col.cell (rowAt v.rows k)).isSome := fun k hk => by
    have := mem_keptPositions.mp hk
    exact ⟨this.1, (Bool.and_eq_true_iff.mp this.2).2⟩
  have hval : ∀ k < v.rows.length, (col.cell (rowAt v.rows k)).isSome → col.value (rowAt v.rows k) = some (val k) := by
    intro k _ hc
    obtain ⟨e, he⟩ := Option.isSome_iff_exists.mp hc
    simp [val, CellColumn.value, he]
  have hreads : Reads (ts.readAs col.type c) val (K.map fun k => (k, k)) := by
    intro q hq
    obtain ⟨k, hk, rfl⟩ := List.mem_map.mp hq
    rw [TreeState.readAs, if_neg (hv.not_id col (List.mem_of_getElem? hcol)),
      read_eq h hcol (hcell k hk).1 (hcell k hk).2]
    exact hval k (hcell k hk).1 (hcell k hk).2
  have hrun := nonStringFilter_eq op r hreads
  rw [diagonal_fst, diagonal_snd, map_filter_diagonal K fun k => r.admits op (val k)] at hrun
  rw [hrun, ← filter_holds (by simp : Op.cmp op ≠ .isNull) hval]
  refine congrArg some (List.filter_congr fun k hk => ?_)
  obtain ⟨e, he⟩ := Option.isSome_iff_exists.mp (hcell k hk).2
  refine hadmits (val k) ?_
  have hvk := hval k (hcell k hk).1 (hcell k hk).2
  rw [CellColumn.value, he, Option.map_some, Option.some_inj] at hvk
  exact hvk ▸ StorageType.Elem.toValue_hasType e

theorem stringFilter_spec {ts : TreeState} (h : ColumnsHold n types ts v) (hv : v.Ok pool)
    (hcol : v.columns[c]? = some col) (hstring : col.type = .string) {op : Op} (hfit : value.Fits .string)
    (hop : op ≠ .isNull ∧ op ≠ .isNotNull ∧ op ≠ .isIn) :
    ∃ r, castFilterValue .string op value = some r ∧
      pool.stringFilter m (ts.read c) op r (keptPositions (fun r => p r && (col.cell r).isSome) v.rows)
          (keptPositions (fun r => p r && (col.cell r).isSome) v.rows) =
        some (keptPositions (fun r => p r && op.holds pool m (col.value r) value) v.rows) := by
  set K := keptPositions (fun r => p r && (col.cell r).isSome) v.rows with hK
  let val : ℕ → Value := fun k => (col.value (rowAt v.rows k)).getD (.int 0)
  have hcell : ∀ k ∈ K, k < v.rows.length ∧ (col.cell (rowAt v.rows k)).isSome := fun k hk => by
    have := mem_keptPositions.mp hk
    exact ⟨this.1, (Bool.and_eq_true_iff.mp this.2).2⟩
  have hval : ∀ k < v.rows.length, (col.cell (rowAt v.rows k)).isSome → col.value (rowAt v.rows k) = some (val k) := by
    intro k _ hc
    obtain ⟨e, he⟩ := Option.isSome_iff_exists.mp hc
    simp [val, CellColumn.value, he]
  have hreads : Reads (ts.read c) val (K.map fun k => (k, k)) := by
    intro q hq
    obtain ⟨k, hk, rfl⟩ := List.mem_map.mp hq
    rw [read_eq h hcol (hcell k hk).1 (hcell k hk).2]
    exact hval k (hcell k hk).1 (hcell k hk).2
  have hids : ReadsStrings pool val (K.map fun k => (k, k)) := by
    intro q hq
    obtain ⟨k, hk, rfl⟩ := List.mem_map.mp hq
    have hvk := hval k (hcell k hk).1 (hcell k hk).2
    obtain ⟨e, he⟩ := Option.isSome_iff_exists.mp (hcell k hk).2
    obtain ⟨id, hid⟩ : ∃ id, val k = .string id := by
      rw [CellColumn.value, he, Option.map_some, Option.some_inj] at hvk
      have hty := StorageType.Elem.toValue_hasType e
      rw [hvk] at hty
      cases hx : val k with
      | int z => rw [hx] at hty; exact absurd hstring hty.2.1
      | double d => rw [hx] at hty; rw [hstring] at hty; cases hty
      | string id => exact ⟨id, rfl⟩
    exact ⟨id, hid, hv.strings col (List.mem_of_getElem? hcol) _ id (hvk.trans (congrArg some hid))⟩
  obtain ⟨r, hr, hrun⟩ := stringFilter_eq (m := m) hreads hids hfit hop
  refine ⟨r, hr, ?_⟩
  rw [diagonal_fst, diagonal_snd, map_filter_diagonal K fun k => op.holds pool m (some (val k)) value] at hrun
  rw [hrun, filter_holds hop.1 hval]

end Constraint

end LynxTrace.TraceProcessor.Core
