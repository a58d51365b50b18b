import LynxTrace.Core.TreeCalls

/-!
# Core.TreeRuns — runs of calls on a `TreeTransformer`

Each call succeeds, and the code it appends takes the tree before the call to the tree after it (`filterTree_spec`,
`propagateDown_spec`); a run follows by induction (`calls_spec`).
-/

namespace LynxTrace.TraceProcessor.Core

variable {pool : StringPool} {m : Matchers} {F : Forest ℕ} {n : ℕ}

/-! ### `FilterTree` -/

open Classical in
/-- What the code of a constraint keeps: `IS NULL` on a column without null bits has no code. -/
noncomputable def RowTree.keeps (pool : StringPool) (m : Matchers) (v : RowTree) (s : FilterSpec × SqlValue)
    (row : ℕ) : Bool :=
  decide (v.AsksNullWithoutBits s) || v.satisfies pool m s row

section

variable {t u w : TreeTransformer} {v : RowTree}

/-- What a step of the emission does: the transformer grows, and the code takes the positions with `p` to those with
`p` and `g`. -/
structure Narrows (pool : StringPool) (m : Matchers) (F : Forest ℕ) (n : ℕ) (t u : TreeTransformer) (v : RowTree)
    (g : ℕ → Bool) : Prop where
  emitted : Emitted n u v
  cols : u.cols = t.cols
  hasOperations : u.hasOperations = t.hasOperations
  treeStateReg : u.treeStateReg = t.treeStateReg
  extend : Extends t u
  runs : ∀ w : TreeTransformer, w.RegsOk → Extends u w → ∀ (s : InterpreterState) (p : ℕ → Bool),
    Holding F n w t s v (keptPositions p v.rows) →
      ∃ s', Runs pool m w t u s s' ∧ Holding F n w u s' v (keptPositions (fun r => p r && g r) v.rows)

variable {col : CellColumn}

theorem satisfies_eq {s : FilterSpec × SqlValue} (hcol : v.columns[s.1.col]? = some col) (row : ℕ) :
    v.satisfies pool m s row = s.1.op.holds pool m (col.value row) s.2 := by
  rw [RowTree.satisfies, hcol]

theorem Emitted.addFilterValue (h : Emitted n t v) (value : SqlValue) : Emitted n (t.addFilterValue value) v := by
  refine h.grow rfl ?_ rfl le_rfl (h.regs.allocateUnset rfl rfl le_rfl)
  change t.filterValueCount + 1 = (t.filterValues ++ [value]).length
  rw [List.length_append, h.values]
  rfl

theorem extends_addFilterValue (value : SqlValue) : Extends t (t.addFilterValue value) :=
  .of_cols_eq (List.prefix_append _ _) List.prefix_rfl List.prefix_rfl rfl

theorem Holding.addFilterValue {s : InterpreterState} {K : List ℕ} (h : Holding F n w t s v K) (value : SqlValue) :
    Holding F n w (t.addFilterValue value) s v K := h.mono le_rfl

variable {value : SqlValue} {nullBv : List Bool}

/-- `IS NULL` and `IS NOT NULL`. -/
theorem nullConstraint_spec (hT : Emitted n t v) (hv : v.Ok pool) {c : ℕ} {op : Op}
    (hop : op = .isNull ∨ op = .isNotNull) (hcol : v.columns[c]? = some col)
    (hnull : nullBv.length = 0 ↔ col.nullable = false) :
    Narrows pool m F n t
      (if nullBv.length = 0 then t.addFilterValue value
        else (t.addFilterValue value).emitNullFilter (op = .isNull) c) v
      (v.keeps pool m (⟨c, op⟩, value)) := by
  have hkeeps : ∀ row, v.keeps pool m (⟨c, op⟩, value) row =
      (decide (op = .isNull ∧ col.nullable = false) || op.holds pool m (col.value row) value) := by
    intro row
    rw [RowTree.keeps, satisfies_eq (s := (⟨c, op⟩, value)) hcol]
    refine congrArg (· || _) (decide_eq_decide.mpr (and_congr_right fun _ => ?_))
    constructor
    · exact fun h => h col hcol
    · intro h col' hcol'
      rw [Option.some.inj (hcol'.symm.trans hcol)]
      exact h
  by_cases h0 : nullBv.length = 0
  · have hnon := hnull.mp h0
    rw [if_pos h0]
    refine ⟨hT.addFilterValue value, rfl, rfl, rfl, extends_addFilterValue value, fun w hw hext s p hs => ?_⟩
    have hall : keptPositions (fun r => p r && v.keeps pool m (⟨c, op⟩, value) r) v.rows = keptPositions p v.rows := by
      refine keptPositions_congr fun row hrow => ?_
      obtain ⟨e, he⟩ := Option.isSome_iff_exists.mp (hv.filled col (List.mem_of_getElem? hcol) hnon row hrow)
      rw [hkeeps]
      rcases hop with rfl | rfl
      · simp [hnon]
      · simp [Op.holds, CellColumn.value, he]
    rw [hall]
    exact ⟨s, Runs.of_bytecode_eq rfl, hs.addFilterValue value⟩
  · have hnullable : col.nullable = true := by
      rw [← Bool.not_eq_false]
      exact fun hf => h0 (hnull.mpr hf)
    rw [if_neg h0]
    refine ⟨(hT.addFilterValue value).emitNullFilter _ c, rfl, rfl, rfl,
      (extends_addFilterValue value).trans (extends_emitNullFilter _ c), fun w hw hext s p hs => ?_⟩
    obtain ⟨s', hrun, hs', -⟩ := emitNullFilter_spec (hT.addFilterValue value) (decide (op = .isNull)) hcol hnullable hw
      hext (hs.addFilterValue value)
    have hsame : keptPositions (fun r => p r && v.keeps pool m (⟨c, op⟩, value) r) v.rows =
        keptPositions (fun r => p r && ((col.cell r).isSome != decide (op = .isNull))) v.rows := by
      refine keptPositions_congr fun row _ => ?_
      rw [hkeeps]
      rcases hcell : col.cell row with _ | e <;> rcases hop with rfl | rfl <;>
        simp [Op.holds, CellColumn.value, hcell, hnullable]
    rw [hsame]
    exact ⟨s', (Runs.of_bytecode_eq rfl).trans hrun, hs'⟩

/-- A comparison: cast, prune the nulls, filter. -/
theorem comparison_spec (hT : Emitted n t v) (hv : v.Ok pool) {c : ℕ} {op : Op} (hop : op ≠ .isNull)
    (hcol : v.columns[c]? = some col) (hnull : nullBv.length = 0 ↔ col.nullable = false) {bc : Bytecode}
    (hbc : ∀ {types : List StorageType} {ts : TreeState} (p : ℕ → Bool), ColumnsHold n types ts v →
      ∃ r, castFilterValue col.type op value = some r ∧ ∀ (w : TreeTransformer) (s : InterpreterState), s.tree = ts →
        s.regs t.registerCount = .cast r →
        s.regs ((t.emitCast col.type op value).emitPruneNulls nullBv c).registerCount = .storage c →
        s.regs 2 = .span (keptPositions (fun r => p r && (col.cell r).isSome) v.rows) →
        bc.exec pool m w.filterValues s =
          some (s.write 2 (.span (keptPositions (fun r => p r && op.holds pool m (col.value r) value) v.rows)))) :
    Narrows pool m F n t
      ((((t.emitCast col.type op value).emitPruneNulls nullBv c).emitStorage c).addOpcode bc) v
      (v.keeps pool m (⟨c, op⟩, value)) := by
  set t₁ := t.emitCast col.type op value with ht₁
  set t₂ := t₁.emitPruneNulls nullBv c with ht₂
  have hT₁ : Emitted n t₁ v := hT.emitCast _ _ _
  have hT₂ : Emitted n t₂ v := hT₁.emitPruneNulls _ _
  have hcols₂ : t₂.cols = t.cols ∧ t₂.hasOperations = t.hasOperations ∧ t₂.treeStateReg = t.treeStateReg := by
    rw [ht₂, TreeTransformer.emitPruneNulls]
    split <;> exact ⟨rfl, rfl, rfl⟩
  refine ⟨(hT₂.emitStorage c).grow rfl hT₂.values rfl le_rfl ((hT₂.emitStorage c).regs.allocateUnset rfl rfl le_rfl),
    hcols₂.1, hcols₂.2.1, hcols₂.2.2, ?_, fun w hw hext s p hs => ?_⟩
  · exact (((extends_emitCast _ _ _).trans (extends_emitPruneNulls _ _)).trans (extends_emitStorage c)).addOpcode bc
  · have hext₃ : Extends (t₂.emitStorage c) w := hext.of_addOpcode
    have hext₂ : Extends t₂ w := (extends_emitStorage c).trans hext₃
    have hext₁ : Extends t₁ w := (extends_emitPruneNulls _ _).trans hext₂
    obtain ⟨r, hr, -⟩ := hbc p hs.columns
    obtain ⟨s₁, hrun₁, hs₁, hreg₁⟩ := emitCast_spec hT hext₁ hr hs
    obtain ⟨s₂, hrun₂, hs₂, hkeep₂⟩ := emitPruneNulls_spec hT₁ hv hcol hnull hw hext₂ hs₁
    have hstorage := emitStorage_reg hw hext₃ hs₂
    obtain ⟨r', hr', hexec⟩ := hbc p hs₂.columns
    rw [hr, Option.some_inj] at hr'
    subst hr'
    have hcast : s₂.regs t.registerCount = .cast r := (hkeep₂ _ hT.registerCount).trans hreg₁
    have hrun₃ := hexec w s₂ rfl hcast hstorage hs₂.span
    have hsame : keptPositions (fun r => p r && v.keeps pool m (⟨c, op⟩, value) r) v.rows =
        keptPositions (fun r => p r && op.holds pool m (col.value r) value) v.rows := by
      refine keptPositions_congr fun row _ => ?_
      rw [RowTree.keeps, satisfies_eq (s := (⟨c, op⟩, value)) hcol]
      have hnot : ¬ v.AsksNullWithoutBits (⟨c, op⟩, value) := fun h => hop h.1
      simp [hnot]
    rw [hsame]
    refine ⟨_, hrun₁.trans (hrun₂.trans ((Runs.of_bytecode_eq (u := t₂.emitStorage c) rfl).trans
      (Runs.addOpcode hrun₃))), ?_⟩
    exact (hs₂.write_span hT₂.registerCount _).mono (Nat.le_succ _)

/-- A comparison on a string column. -/
theorem stringComparison_spec (hT : Emitted n t v) (hv : v.Ok pool) {c : ℕ} {op : Op}
    (hop : op ≠ .isNull ∧ op ≠ .isNotNull ∧ op ≠ .isIn) (hcol : v.columns[c]? = some col)
    (hnull : nullBv.length = 0 ↔ col.nullable = false) (hstring : col.type = .string) (hfit : value.Fits .string)
    {span : ℕ} (hspan : span = 2) :
    Narrows pool m F n t
      ((((t.emitCast col.type op value).emitPruneNulls nullBv c).emitStorage c).addOpcode
        (.stringFilter op ((t.emitCast col.type op value).emitPruneNulls nullBv c).registerCount t.registerCount span
          span)) v
      (v.keeps pool m (⟨c, op⟩, value)) := by
  subst hspan
  refine comparison_spec hT hv hop.1 hcol hnull fun p hheld => ?_
  obtain ⟨r, hr, hrun⟩ := stringFilter_spec (p := p) (m := m) hheld hv hcol hstring hfit hop
  refine ⟨r, hstring ▸ hr, fun w s hs hcast hstorage hspan => ?_⟩
  simp only [Bytecode.exec, hstorage, Register.asStorage, hcast, Register.asCast, hspan, Register.asSpan, hs, hrun,
    Option.bind_eq_bind, Option.bind_some, Option.pure_def]

/-- A comparison on a number column. -/
theorem numberComparison_spec (hT : Emitted n t v) (hv : v.Ok pool) {c : ℕ} {op : CmpOp}
    (hcol : v.columns[c]? = some col) (hnull : nullBv.length = 0 ↔ col.nullable = false) (hstring : col.type ≠ .string)
    (hfit : value.Fits col.type) {span : ℕ} (hspan : span = 2) :
    Narrows pool m F n t
      ((((t.emitCast col.type (.cmp op) value).emitPruneNulls nullBv c).emitStorage c).addOpcode
        (.nonStringFilter col.type op
          ((t.emitCast col.type (.cmp op) value).emitPruneNulls nullBv c).registerCount t.registerCount span span)) v
      (v.keeps pool m (⟨c, .cmp op⟩, value)) := by
  subst hspan
  refine comparison_spec hT hv (by simp) hcol hnull fun p hheld => ?_
  obtain ⟨r, hr, hrun⟩ := numberFilter_spec (p := p) (m := m) hheld hv hcol hstring hfit
  refine ⟨r, hr, fun w s hs hcast hstorage hspan => ?_⟩
  simp only [Bytecode.exec, hstorage, Register.asStorage, hcast, Register.asCast, hspan, Register.asSpan, hs, hrun,
    Option.bind_eq_bind, Option.bind_some, Option.pure_def]

/-- **One constraint** is emitted, and its code keeps what it asks for. -/
theorem emitConstraint_spec (hT : Emitted n t v) (hv : v.Ok pool) {s : FilterSpec × SqlValue} (hfit : v.Fits s) :
    ∃ u, t.emitConstraint s.1 s.2 = some u ∧ Narrows pool m F n t u v (v.keeps pool m s) := by
  obtain ⟨⟨c, op⟩, value⟩ := s
  obtain ⟨col, hcol, hop⟩ := hfit
  obtain ⟨tc, htc, htype, hnull⟩ := hT.columns c col hcol
  have hspan : ∀ op value, (((t.emitCast col.type op value).emitPruneNulls tc.nullBv c).emitStorage c).spanReg = 2 :=
    fun op value => (((hT.emitCast _ op value).emitPruneNulls _ _).emitStorage c).spanReg
  simp only at hcol
  cases op with
  | isNull =>
    exact ⟨_, by simp only [TreeTransformer.emitConstraint, htc]; rfl, nullConstraint_spec hT hv (.inl rfl) hcol hnull⟩
  | isNotNull =>
    exact ⟨_, by simp only [TreeTransformer.emitConstraint, htc]; rfl, nullConstraint_spec hT hv (.inr rfl) hcol hnull⟩
  | isIn => exact hop.elim
  | cmp op =>
    by_cases hstring : col.type = .string
    · refine ⟨_, ?_, stringComparison_spec hT hv (by simp) hcol hnull hstring (hstring ▸ hop) (hspan (.cmp op) value)⟩
      simp only [TreeTransformer.emitConstraint, htc, Option.bind_eq_bind, Option.bind_some, htype, hstring,
        Option.pure_def]
    · refine ⟨_, ?_, numberComparison_spec hT hv hcol hnull hstring hop (hspan (.cmp op) value)⟩
      simp only [TreeTransformer.emitConstraint, htc, Option.bind_eq_bind, Option.bind_some, htype]
      cases hty : col.type with
      | string => exact absurd hty hstring
      | _ => rfl
  | glob =>
    refine ⟨_, ?_, stringComparison_spec hT hv (by simp) hcol hnull hop.1 hop.2 (hspan .glob value)⟩
    simp only [TreeTransformer.emitConstraint, htc, Option.bind_eq_bind, Option.bind_some, htype, hop.1,
      Option.pure_def]
  | regex =>
    refine ⟨_, ?_, stringComparison_spec hT hv (by simp) hcol hnull hop.1 hop.2 (hspan .regex value)⟩
    simp only [TreeTransformer.emitConstraint, htc, Option.bind_eq_bind, Option.bind_some, htype, hop.1,
      Option.pure_def]

theorem Narrows.refl (hT : Emitted n t v) : Narrows pool m F n t t v fun _ => true where
  emitted := hT
  cols := rfl
  hasOperations := rfl
  treeStateReg := rfl
  extend := .refl t
  runs _ _ _ s p hs := ⟨s, Runs.of_bytecode_eq rfl, by simpa using hs⟩

theorem Narrows.trans {g g' : ℕ → Bool} (h : Narrows pool m F n t u v g) (h' : Narrows pool m F n u w v g') :
    Narrows pool m F n t w v fun r => g r && g' r where
  emitted := h'.emitted
  cols := h'.cols.trans h.cols
  hasOperations := h'.hasOperations.trans h.hasOperations
  treeStateReg := h'.treeStateReg.trans h.treeStateReg
  extend := h.extend.trans h'.extend
  runs x hx hext s p hs := by
    obtain ⟨s₁, hrun₁, hs₁⟩ := h.runs x hx (h'.extend.trans hext) s p hs
    obtain ⟨s₂, hrun₂, hs₂⟩ := h'.runs x hx hext s₁ _ hs₁
    exact ⟨s₂, hrun₁.trans hrun₂, by simpa only [Bool.and_assoc] using hs₂⟩

theorem emitConstraints_spec (hv : v.Ok pool) : ∀ {specs : List (FilterSpec × SqlValue)} {t : TreeTransformer},
    Emitted n t v → (∀ s ∈ specs, v.Fits s) →
      ∃ u, specs.foldlM (fun (t : TreeTransformer) s => t.emitConstraint s.1 s.2) t = some u ∧
        Narrows pool m F n t u v fun row => specs.all fun s => v.keeps pool m s row
  | [], t, hT, _ => ⟨t, rfl, .refl hT⟩
  | s :: specs, t, hT, hfit => by
    obtain ⟨u, hu, hnarrow⟩ : ∃ u, t.emitConstraint s.1 s.2 = some u ∧
        Narrows pool m F n t u v (v.keeps pool m s) := emitConstraint_spec hT hv (hfit s List.mem_cons_self)
    obtain ⟨w, hw, hnarrow'⟩ := emitConstraints_spec hv hnarrow.emitted fun s' hs' => hfit s' (List.mem_cons_of_mem _ hs')
    exact ⟨w, by rw [List.foldlM_cons, hu]; exact hw, hnarrow.trans hnarrow'⟩

/-- What a call does: the transformer grows, and the code takes the tree before the call to the tree after it. -/
structure Performs (pool : StringPool) (m : Matchers) (F : Forest ℕ) (n : ℕ) (t u : TreeTransformer) (v v' : RowTree) :
    Prop where
  emitted : Emitted n u v'
  ok : v'.Ok pool
  extend : Extends t u
  idle : (u = t ∧ v' = v) ∨ u.hasOperations = true
  runs : ∀ w : TreeTransformer, w.RegsOk → Extends u w → ∀ s : InterpreterState,
    Holding F n w t s v (List.range v.rows.length) →
      ∃ s', Runs pool m w t u s s' ∧ Holding F n w u s' v' (List.range v'.rows.length)

theorem Performs.refl (hT : Emitted n t v) (hv : v.Ok pool) : Performs pool m F n t t v v where
  emitted := hT
  ok := hv
  extend := .refl t
  idle := .inl ⟨rfl, rfl⟩
  runs _ _ _ s hs := ⟨s, Runs.of_bytecode_eq rfl, hs⟩

theorem Performs.trans {v' v'' : RowTree} (h : Performs pool m F n t u v v') (h' : Performs pool m F n u w v' v'') :
    Performs pool m F n t w v v'' where
  emitted := h'.emitted
  ok := h'.ok
  extend := h.extend.trans h'.extend
  idle := by
    rcases h'.idle with ⟨rfl, rfl⟩ | hop
    · exact h.idle
    · exact .inr hop
  runs x hx hext s hs := by
    obtain ⟨s₁, hrun₁, hs₁⟩ := h.runs x hx (h'.extend.trans hext) s hs
    obtain ⟨s₂, hrun₂, hs₂⟩ := h'.runs x hx hext s₁ hs₁
    exact ⟨s₂, hrun₁.trans hrun₂, hs₂⟩

/-- The columns after `FilterTreeState`. -/
theorem ColumnsHold.filtered {types : List StorageType} {ts ts' : TreeState} {q : ℕ → Bool}
    (h : ColumnsHold n types ts v) (hn : v.rows.length ≤ n)
    (hcols : (ts'.columns = ts.columns ∧ ts'.nullBitvectors = ts.nullBitvectors ∧
          (v.rows.filter q = v.rows ∨ v.rows.filter q = [])) ∨
        (ts'.columns = ts.columns.map (compactedColumn q v.rows) ∧
          ts'.nullBitvectors = ts.nullBitvectors.map (compactedBits q v.rows) ∧ v.rows.filter q ≠ [])) :
    ColumnsHold n types ts' { v with rows := v.rows.filter q } := by
  rcases hcols with ⟨hcs, hbits, hrows⟩ | ⟨hcs, hbits, hne⟩
  · refine ⟨fun c col hcol => ?_, fun c ty hty hle => ?_⟩
    · obtain ⟨cs, bits, hc, hb, hholds⟩ := h.held c col hcol
      refine ⟨cs, bits, by rw [hcs, hc], by rw [hbits, hb], ?_⟩
      change ColumnHolds n (v.rows.filter q) cs bits col
      rcases hrows with hsame | hnil
      · rw [hsame]
        exact hholds
      · rw [hnil]
        exact hholds.emptied
    · rw [hcs, hbits]
      exact h.later c ty hty hle
  · refine ⟨fun c col hcol => ?_, fun c ty hty hle => ?_⟩
    · obtain ⟨cs, bits, hc, hb, hholds⟩ := h.held c col hcol
      refine ⟨_, _, by rw [hcs, List.getElem?_map, hc]; rfl, by rw [hbits, List.getElem?_map, hb]; rfl, ?_⟩
      exact hholds.compacted hn hne
    · obtain ⟨cs, hc, htype, hlen, hb⟩ := h.later c ty hty hle
      refine ⟨compactedColumn q v.rows cs, by rw [hcs, List.getElem?_map, hc]; rfl, htype, ?_,
        by rw [hbits, List.getElem?_map, hb]; rfl⟩
      obtain ⟨hkept, -⟩ := compactInPlace_spec id cs.data (numberKept_keptPositions q v.rows) (by omega)
      exact hkept.trans hlen

/-- Where the call is exact the rows that its code keeps are those that satisfy the constraints. -/
theorem keeps_eq_satisfies {specs : List (FilterSpec × SqlValue)}
    (hexact : Call.Exact pool m F v (.filterTree specs)) {row : ℕ} (hrow : row ∈ v.rows) :
    (specs.all fun s => v.keeps pool m s row) = specs.all fun s => v.satisfies pool m s row := by
  rw [Bool.eq_iff_iff, List.all_eq_true, List.all_eq_true]
  constructor
  · intro hkeeps s hs
    by_cases hask : v.AsksNullWithoutBits s
    · obtain ⟨s', hs', hnot, hfails⟩ := hexact s hs hask row hrow
      have := hkeeps s' hs'
      simp [RowTree.keeps, hnot, hfails] at this
    · simpa [RowTree.keeps, hask] using hkeeps s hs
  · intro hsat s hs
    simp [RowTree.keeps, hsat s hs]

/-- **`FilterTree`** leaves the rows that satisfy all constraints. -/
theorem filterTree_spec (hT : Emitted n t v) (hv : v.Ok pool) (hn : n ≠ 0) {specs : List (FilterSpec × SqlValue)}
    (hfit : (Call.filterTree specs).Fits v) (hexact : Call.Exact pool m F v (.filterTree specs)) :
    ∃ u, t.filterTree specs = some u ∧ Performs pool m F n t u v (v.filter pool m specs) := by
  by_cases hempty : specs = []
  · subst hempty
    refine ⟨t, by simp [TreeTransformer.filterTree], ?_⟩
    have hsame : v.filter pool m [] = v := by simp [RowTree.filter]
    rw [hsame]
    exact .refl hT hv
  · have hT₀ : Emitted n { t with hasOperations := true } v :=
      hT.grow rfl hT.values rfl le_rfl (hT.regs.allocateUnset rfl rfl le_rfl)
    obtain ⟨u, hu, hnarrow⟩ : ∃ u, specs.foldlM (fun (t : TreeTransformer) s => t.emitConstraint s.1 s.2)
        { t with hasOperations := true } = some u ∧
          Narrows pool m F n { t with hasOperations := true } u v fun row => specs.all fun s => v.keeps pool m s row :=
      emitConstraints_spec hv hT₀ hfit
    have hfilter : v.filter pool m specs =
        { v with rows := v.rows.filter fun row => specs.all fun s => v.keeps pool m s row } :=
      congrArg (RowTree.mk · v.columns) (List.filter_congr fun row hrow => (keeps_eq_satisfies hexact hrow).symm)
    have hext₀ : Extends t { t with hasOperations := true } :=
      .of_cols_eq List.prefix_rfl List.prefix_rfl List.prefix_rfl rfl
    refine ⟨u.addOpcode (.filterTreeState u.treeStateReg u.spanReg), ?_, ?_⟩
    · have hcond : ¬ (t.cols.rowCount = 0 || specs.isEmpty) = true := by
        simp [hT.rowCount, hn, hempty]
      rw [TreeTransformer.filterTree, if_neg hcond, hu]
      rfl
    · have hE := hnarrow.emitted
      refine ⟨⟨hE.rowCount, hE.names, hE.columns_length, hE.columns, hE.values, hE.spanReg, hE.registerCount,
          hE.regs.allocateUnset rfl rfl le_rfl⟩,
        ⟨hv.not_id, hv.strings, fun col hcol hnull row hrow => hv.filled col hcol hnull row (List.mem_of_mem_filter hrow)⟩,
        (hext₀.trans hnarrow.extend).addOpcode _, .inr hnarrow.hasOperations, fun w hw hext s hs => ?_⟩
      have hall : keptPositions (fun _ => true) v.rows = List.range v.rows.length := by
        simp [keptPositions, keptBelow]
      obtain ⟨s₁, hrun, hs₁⟩ := hnarrow.runs w hw hext.of_addOpcode s (fun _ => true)
        (by rw [hall]; exact hs.mono le_rfl)
      simp only [Bool.true_and] at hs₁
      obtain ⟨ts', hts', hholds, hspecs, hcols⟩ :=
        hs₁.tree.filterTreeState fun row => specs.all fun s => v.keeps pool m s row
      refine ⟨{ s₁ with tree := ts' }.write 2 (.span (List.range (v.filter pool m specs).rows.length)), ?_, ?_⟩
      · refine (Runs.of_bytecode_eq (u := { t with hasOperations := true }) rfl).trans (hrun.trans (Runs.addOpcode ?_))
        simp only [Bytecode.exec, hE.regs.treeStateReg, hs₁.treeState, Register.asTreeState, hE.spanReg, hs₁.span,
          Register.asSpan, hts', hfilter, Option.bind_eq_bind, Option.bind_some, Option.pure_def]
      · have hnew : Holding F n w u { s₁ with tree := ts' } (v.filter pool m specs)
            (keptPositions (fun row => specs.all fun s => v.keeps pool m s row) v.rows) := by
          rw [hfilter]
          exact ⟨hs₁.span, hs₁.treeState, hs₁.fresh, hholds, hs₁.columns.filtered hs₁.tree.length_le hcols,
            hspecs.trans hs₁.specs⟩
        exact (hnew.write_span hE.registerCount _).mono le_rfl

end

/-! ### `PropagateDown` -/

section

variable {t u w : TreeTransformer} {v v' v'' : RowTree}

/-- What the specs of a `PropagateDown` add: columns to the transformer, and specs that fill them. -/
structure Fills (pool : StringPool) (F : Forest ℕ) (n : ℕ) (t u : TreeTransformer) (v v' : RowTree)
    (specs : List PropagateDownSpec) : Prop where
  emitted : Emitted n u v'
  ok : v'.Ok pool
  extend : Extends t u
  rows : v'.rows = v.rows
  bytecode : u.bytecode = t.bytecode
  registerCount : u.registerCount = t.registerCount
  propagateSpecs : u.propagateSpecs = t.propagateSpecs ++ specs
  fills : ∀ w : TreeTransformer, Extends u w → ∀ (ts : TreeState) (h : ts.Holds F n v.rows) (queue : List ℕ),
    queue.Perm (List.range v.rows.length) → ParentsFirst h.positions.parent queue →
      ColumnsHold n (w.cols.columns.map (·.type)) ts v →
        ∃ cols, specs.foldlM (propagateSpec queue) ts = some { ts with columns := cols } ∧
          ColumnsHold n (w.cols.columns.map (·.type)) { ts with columns := cols } v'
  empty : v.rows = [] → ∀ w : TreeTransformer, Extends u w → ∀ ts : TreeState,
    ColumnsHold n (w.cols.columns.map (·.type)) ts v → ColumnsHold n (w.cols.columns.map (·.type)) ts v'

/-- The column of the transformer that a name means. -/
theorem resolveColumn_spec (hT : Emitted n t v) {name : String} {source : CellColumn}
    (hfind : v.columns.find? (·.name = name) = some source) :
    ∃ src tc, ((t.resolveColumn name).bind fun src => (t.cols.columns[src]?).map (src, ·)) = some (src, tc) ∧
      v.columns[src]? = some source ∧ tc.type = source.type := by
  obtain ⟨hname, src, hsrc, hget, hbefore⟩ := List.find?_eq_some_iff_getElem.mp hfind
  have hcol : v.columns[src]? = some source := by rw [List.getElem?_eq_getElem hsrc, hget]
  obtain ⟨tc, htc, htype, -⟩ := hT.columns src source hcol
  refine ⟨src, tc, ?_, hcol, htype⟩
  have hidx : t.resolveColumn name = some src := by
    rw [TreeTransformer.resolveColumn, hT.names, List.findIdx?_map, List.findIdx?_eq_some_iff_getElem]
    refine ⟨hsrc, by simpa [hget] using hname, fun j hj => ?_⟩
    simpa using hbefore j hj
  rw [hidx, Option.bind_some, htc, Option.map_some]

theorem isSome_foldValues_concat {α : Type} (combine : α → α → α) (l : List α) (x : α) :
    (foldValues combine (l ++ [x])).isSome := by
  cases l <;> rfl

/-- A propagated column has a value in every row whose source has one. -/
theorem RowTree.isSome_propagatedColumn (spec : PropagateSpec) (source : CellColumn)
    (combine : source.type.Elem → source.type.Elem → source.type.Elem) {row : ℕ} (hrow : (source.cell row).isSome) :
    ((v.propagatedColumn F spec source combine).cell row).isSome := by
  obtain ⟨e, he⟩ := Option.isSome_iff_exists.mp hrow
  change (foldValues combine (((v.forest F).path row).filterMap source.cell)).isSome
  have hlast : [row].filterMap source.cell = [e] := by simp [he]
  rw [Forest.path, List.filterMap_append, hlast]
  exact isSome_foldValues_concat _ _ _

theorem PropagateAggOp.isNumber_of_combine {op : PropagateAggOp} {ty : StorageType} {f : ty.Elem → ty.Elem → ty.Elem}
    (h : op.combine ty = some f) : ty ≠ .id ∧ ty ≠ .string := by
  cases ty with
  | id | string => cases h
  | uint32 | int32 | int64 | double => exact ⟨by decide, by decide⟩

theorem StorageType.Elem.toValue_ne_string {ty : StorageType} (hty : ty ≠ .string) (e : ty.Elem) (id : StringId) :
    e.toValue ≠ .string id := by
  cases ty with
  | string => exact absurd rfl hty
  | _ => simp [StorageType.Elem.toValue]

/-- The tree after one propagation. -/
theorem RowTree.Ok.propagate (hv : v.Ok pool) {spec : PropagateSpec} {source : CellColumn}
    {combine : source.type.Elem → source.type.Elem → source.type.Elem}
    (hcombine : spec.aggOp.combine source.type = some combine) (hfilled : ∀ row ∈ v.rows, (source.cell row).isSome) :
    RowTree.Ok pool { v with columns := v.columns ++ [v.propagatedColumn F spec source combine] } where
  not_id col hcol := by
    rcases List.mem_append.mp hcol with hin | hnew
    · exact hv.not_id col hin
    · rw [List.mem_singleton.mp hnew]
      exact (PropagateAggOp.isNumber_of_combine hcombine).1
  strings col hcol row id hvalue := by
    rcases List.mem_append.mp hcol with hin | hnew
    · exact hv.strings col hin row id hvalue
    · rw [List.mem_singleton.mp hnew] at hvalue
      obtain ⟨e, -, he⟩ := Option.map_eq_some_iff.mp hvalue
      exact absurd he (StorageType.Elem.toValue_ne_string (PropagateAggOp.isNumber_of_combine hcombine).2 e id)
  filled col hcol hnull row hrow := by
    rcases List.mem_append.mp hcol with hin | hnew
    · exact hv.filled col hin hnull row hrow
    · rw [List.mem_singleton.mp hnew]
      exact RowTree.isSome_propagatedColumn spec source combine (hfilled row hrow)

/-- A new column at the end of those that hold. -/
theorem ColumnsHold.concat {types : List StorageType} {ts ts' : TreeState} {col : CellColumn} {cs : ColumnStorage}
    (h : ColumnsHold n types ts v) (hcol : ColumnHolds n v.rows cs [] col)
    (hnew : ts'.columns[v.columns.length]? = some cs) (hbits : ts'.nullBitvectors = ts.nullBitvectors)
    (hnull : ts.nullBitvectors[v.columns.length]? = some [])
    (hother : ∀ c, c ≠ v.columns.length → ts'.columns[c]? = ts.columns[c]?) :
    ColumnsHold n types ts' { v with columns := v.columns ++ [col] } where
  held c col' hcol' := by
    rw [hbits]
    rcases Nat.lt_trichotomy c v.columns.length with hlt | heq | hgt
    · rw [List.getElem?_append_left hlt] at hcol'
      rw [hother c hlt.ne]
      exact h.held c col' hcol'
    · subst heq
      rw [List.getElem?_concat_length, Option.some_inj] at hcol'
      subst hcol'
      exact ⟨cs, [], hnew, hnull, hcol⟩
    · rw [List.getElem?_eq_none (by rw [List.length_append, List.length_singleton]; omega)] at hcol'
      cases hcol'
  later c ty hty hle := by
    simp only [List.length_append, List.length_singleton] at hle
    rw [hbits, hother c (by omega)]
    exact h.later c ty hty (by omega)

/-- **One spec** is added, and fills its column when it is run. -/
theorem addPropagateSpec_spec (hT : Emitted n t v) (hv : v.Ok pool) {spec : PropagateSpec}
    (hv' : v.propagate F spec = some v')
    (hfilled : ∀ source, v.columns.find? (·.name = spec.sourceColName) = some source →
      ∀ row ∈ v.rows, (source.cell row).isSome) :
    ∃ u p, t.addPropagateSpec spec = .ok u ∧ Fills pool F n t u v v' [p] := by
  obtain ⟨source, hfind, hrest⟩ := Option.bind_eq_some_iff.mp hv'
  obtain ⟨combine, hcombine, hpure⟩ := Option.bind_eq_some_iff.mp hrest
  have hv'eq : v' = { v with columns := v.columns ++ [v.propagatedColumn F spec source combine] } :=
    (Option.some.inj hpure).symm
  subst hv'eq
  obtain ⟨src, tc, hresolve, hcol, htype⟩ := resolveColumn_spec hT hfind
  obtain ⟨hid, hstring⟩ := PropagateAggOp.isNumber_of_combine hcombine
  have hsource := hfilled source hfind
  set newCol : TreeColumn := ⟨⟨tc.type, List.replicate t.cols.rowCount tc.type.uninitialized⟩, []⟩ with hnewCol
  set u : TreeTransformer := { t with
    cols := { t.cols with names := t.cols.names ++ [spec.outputColName], columns := t.cols.columns ++ [newCol] }
    propagateSpecs := t.propagateSpecs ++ [⟨spec.aggOp, src, t.cols.names.length⟩] } with hu
  have hdest : t.cols.names.length = v.columns.length := by rw [hT.names, List.length_map]
  -- the place of the new column in any later transformer
  have hlater : ∀ w : TreeTransformer, Extends u w →
      (w.cols.columns.map (·.type))[v.columns.length]? = some source.type := by
    intro w hext
    obtain ⟨rest, hrest, -⟩ := hext.columns
    rw [hrest, List.getElem?_map, List.append_assoc, List.getElem?_append_right (by rw [hT.columns_length]),
      hT.columns_length, Nat.sub_self]
    exact congrArg some htype
  refine ⟨u, ⟨spec.aggOp, src, t.cols.names.length⟩, ?_, ?_⟩
  · rw [TreeTransformer.addPropagateSpec, hresolve]
    simp only [htype, hid, hstring, if_false]
    rw [hu, hnewCol, htype]
  · refine ⟨?_, hv.propagate hcombine hsource, ?_, rfl, rfl, rfl, rfl, ?_, ?_⟩
    · refine ⟨hT.rowCount, ?_, ?_, fun c col hc => ?_, hT.values, hT.spanReg, hT.registerCount,
        hT.regs.allocateUnset rfl rfl le_rfl⟩
      · rw [List.map_append, ← hT.names]
        rfl
      · rw [List.length_append, List.length_append, hT.columns_length]
        rfl
      · rcases Nat.lt_or_ge c v.columns.length with hlt | hge
        · rw [List.getElem?_append_left hlt] at hc
          obtain ⟨tc', htc', hrest'⟩ := hT.columns c col hc
          refine ⟨tc', ?_, hrest'⟩
          rw [← htc']
          exact List.getElem?_append_left (by rw [hT.columns_length]; exact hlt)
        · have hlt := (List.getElem?_eq_some_iff.mp hc).1
          rw [List.length_append, List.length_singleton] at hlt
          obtain rfl : c = v.columns.length := by omega
          rw [List.getElem?_concat_length, Option.some_inj] at hc
          subst hc
          refine ⟨newCol, ?_, htype, by simp [newCol, RowTree.propagatedColumn]⟩
          rw [← hT.columns_length]
          exact List.getElem?_concat_length
    · refine ⟨List.prefix_rfl, List.prefix_append _ _, List.prefix_rfl, rfl, rfl, [newCol], rfl, fun col hc => ?_⟩
      rw [List.mem_singleton.mp hc]
      exact ⟨List.length_replicate, rfl⟩
    · intro w hext ts h queue hperm hfirst hcols
      obtain ⟨destCs, hdestCs, hdestType, hdestLen, hdestBits⟩ := hcols.later _ _ (hlater w hext) le_rfl
      obtain ⟨sourceCs, bits, hsourceCs, -, hholds⟩ := hcols.held src source hcol
      obtain ⟨cs, hrun, hnew⟩ := propagateSpec_spec h hperm hfirst hsourceCs hdestCs hholds hdestType hdestLen hsource
        hcombine
      have hlt := (List.getElem?_eq_some_iff.mp hdestCs).1
      refine ⟨ts.columns.set v.columns.length cs, ?_, ?_⟩
      · rw [hdest, List.foldlM_cons, hrun]
        rfl
      · exact hcols.concat hnew (List.getElem?_set_self hlt) rfl hdestBits fun c hc => List.getElem?_set_ne (Ne.symm hc)
    · intro hnil w hext ts hcols
      obtain ⟨⟨dt, ddata⟩, hdestCs, hdestType, hdestLen, hdestBits⟩ := hcols.later _ _ (hlater w hext) le_rfl
      simp only at hdestType
      subst hdestType
      refine hcols.concat ?_ hdestCs rfl hdestBits fun _ _ => rfl
      exact .intro hdestLen (.inl rfl) fun k hk => absurd hk (by rw [hnil]; exact Nat.not_lt_zero k)

theorem Fills.refl (hT : Emitted n t v) (hv : v.Ok pool) : Fills pool F n t t v v [] where
  emitted := hT
  ok := hv
  extend := .refl t
  rows := rfl
  bytecode := rfl
  registerCount := rfl
  propagateSpecs := (List.append_nil _).symm
  fills _ _ ts _ _ _ _ hcols := ⟨ts.columns, rfl, hcols⟩
  empty _ _ _ _ hcols := hcols

theorem Fills.trans {ps ps' : List PropagateDownSpec} (h : Fills pool F n t u v v' ps)
    (h' : Fills pool F n u w v' v'' ps') : Fills pool F n t w v v'' (ps ++ ps') where
  emitted := h'.emitted
  ok := h'.ok
  extend := h.extend.trans h'.extend
  rows := h'.rows.trans h.rows
  bytecode := h'.bytecode.trans h.bytecode
  registerCount := h'.registerCount.trans h.registerCount
  propagateSpecs := by rw [h'.propagateSpecs, h.propagateSpecs, List.append_assoc]
  fills x hext ts hts queue hperm hfirst hcols := by
    obtain ⟨cols, hrun, hcols₁⟩ := h.fills x (h'.extend.trans hext) ts hts queue hperm hfirst hcols
    have hts₁ : TreeState.Holds F n { ts with columns := cols } v.rows := hts.congr rfl rfl rfl hts.p2c
    obtain ⟨rows, columns⟩ := v
    obtain ⟨rows', columns'⟩ := v'
    obtain rfl : rows' = rows := h.rows
    obtain ⟨cols', hrun', hcols'⟩ := h'.fills x hext { ts with columns := cols } hts₁ queue hperm hfirst hcols₁
    exact ⟨cols', by rw [List.foldlM_append, hrun]; exact hrun', hcols'⟩
  empty hnil x hext ts hcols :=
    h'.empty (h.rows.trans hnil) x hext ts (h.empty hnil x (h'.extend.trans hext) ts hcols)

theorem addPropagateSpecs_spec : ∀ {specs : List PropagateSpec} {t : TreeTransformer} {v : RowTree},
    Emitted n t v → v.Ok pool → specs.foldlM (RowTree.propagate F) v = some v' → v.SourcesFilled F specs →
      ∃ u ps, specs.foldlM TreeTransformer.addPropagateSpec t = .ok u ∧ ps.length = specs.length ∧
        Fills pool F n t u v v' ps
  | [], t, v, hT, hv, hv', _ => by
    obtain rfl := Option.some.inj hv'
    exact ⟨t, [], rfl, rfl, .refl hT hv⟩
  | spec :: specs, t, v, hT, hv, hv', hfilled => by
    obtain ⟨v₁, hv₁, hrest⟩ := Option.bind_eq_some_iff.mp hv'
    obtain ⟨u, p, hu, hfills⟩ := addPropagateSpec_spec hT hv hv₁ hfilled.1
    obtain ⟨w, ps, hw, hlen, hfills'⟩ := addPropagateSpecs_spec hfills.emitted hfills.ok hrest (hfilled.2 v₁ hv₁)
    exact ⟨w, [p] ++ ps, by rw [List.foldlM_cons, hu]; exact hw, congrArg Nat.succ hlen, hfills.trans hfills'⟩

/-- **`PropagateDown`** adds the columns of the folds. -/
theorem propagateDown_spec (hT : Emitted n t v) (hv : v.Ok pool) (hn : n ≠ 0) {specs : List PropagateSpec}
    (hv' : (Call.propagateDown specs).apply pool m F v = some v')
    (hexact : Call.Exact pool m F v (.propagateDown specs)) :
    ∃ u, t.propagateDown specs = .ok u ∧ Performs pool m F n t u v v' := by
  by_cases hempty : specs = []
  · subst hempty
    obtain rfl := Option.some.inj hv'
    exact ⟨t, by simp [TreeTransformer.propagateDown], .refl hT hv⟩
  · obtain ⟨u, ps, hu, hlen, hfills⟩ := addPropagateSpecs_spec hT hv hv' hexact
    have hps : ps.length ≠ 0 := by
      rw [hlen]
      exact fun h0 => hempty (List.length_eq_zero_iff.mp h0)
    have hcount : u.propagateSpecs.length - t.propagateSpecs.length = ps.length := by
      rw [hfills.propagateSpecs, List.length_append, Nat.add_sub_cancel_left]
    refine ⟨{ u with hasOperations := true }.addOpcode
      (.propagateTreeDown u.treeStateReg t.propagateSpecs.length ps.length), ?_, ?_⟩
    · have hcond : ¬ (t.cols.rowCount = 0 || specs.isEmpty) = true := by
        simp [hT.rowCount, hn, hempty]
      rw [TreeTransformer.propagateDown, if_neg hcond, hu, ← hcount]
      rfl
    · have hE := hfills.emitted
      have hextu : Extends u { u with hasOperations := true } :=
        .of_cols_eq List.prefix_rfl List.prefix_rfl List.prefix_rfl rfl
      refine ⟨hE.grow rfl hE.values rfl le_rfl (hE.regs.allocateUnset rfl rfl le_rfl), hfills.ok,
        (hfills.extend.trans hextu).addOpcode _, .inr rfl, fun w hw hext s hs => ?_⟩
      have hextw : Extends u w := hextu.trans hext.of_addOpcode
      have hspecs : (s.tree.propagateDownSpecs.drop t.propagateSpecs.length).take ps.length = ps := by
        obtain ⟨rest, hrest⟩ := hextw.specs
        rw [hs.specs, ← hrest, hfills.propagateSpecs, List.append_assoc, List.drop_left, List.take_left]
      have hdone : ∃ ts', propagateTreeDown s.tree t.propagateSpecs.length ps.length = some ts' ∧
          ts'.Holds F n v'.rows ∧ ColumnsHold n (w.cols.columns.map (·.type)) ts' v' ∧
          ts'.propagateDownSpecs = w.propagateSpecs := by
        rw [hfills.rows]
        by_cases hnone : v.rows.length = 0
        · refine ⟨s.tree, ?_, hs.tree, hfills.empty (List.length_eq_zero_iff.mp hnone) w hextw _ hs.columns, hs.specs⟩
          rw [propagateTreeDown, if_pos (by simp [hs.tree.rowCount, hnone])]
        · have hp2c : TreeState.Holds F n { s.tree with p2c := some s.tree.buildP2CFromTreeState } v.rows := by
            refine hs.tree.congr rfl rfl rfl fun p hp => ?_
            rw [← Option.some.inj hp, hs.tree.buildP2C_eq, hs.tree.rowCount]
          obtain ⟨queue, hrun, hperm, hfirst⟩ := breadthFirst_spec hs.tree.links (fun (u : Unit) _ => u) ()
          rw [List.length_range, ← hs.tree.rowCount] at hrun
          obtain ⟨cols, hfold, hcols⟩ := hfills.fills w hextw _ hp2c queue hperm hfirst
            ⟨hs.columns.held, hs.columns.later⟩
          refine ⟨{ s.tree with p2c := some s.tree.buildP2CFromTreeState, columns := cols }, ?_,
            hp2c.congr rfl rfl rfl hp2c.p2c, hcols, hs.specs⟩
          rw [propagateTreeDown, if_neg (by simp [hs.tree.rowCount, hnone, hps]), hspecs]
          simp only [hrun]
          exact hfold
      obtain ⟨ts', hts', hholds, hcols, hspecs'⟩ := hdone
      refine ⟨{ s with tree := ts' }, ?_, ?_⟩
      · have hbytecode : { u with hasOperations := true }.bytecode = t.bytecode := hfills.bytecode
        refine (Runs.of_bytecode_eq hbytecode).trans (Runs.addOpcode ?_)
        simp only [Bytecode.exec, hE.regs.treeStateReg, hs.treeState, Register.asTreeState, hts', Option.bind_eq_bind,
          Option.bind_some, Option.pure_def]
      · rw [hfills.rows]
        refine ⟨hs.span, hs.treeState, fun r hr => hs.fresh r ?_, hholds, hcols, hspecs'⟩
        rw [← hfills.registerCount]
        exact hr

end

/-! ### All calls -/

/-- **The calls in turn**, on a forest that is not empty. -/
theorem calls_spec (hn : n ≠ 0) {v' : RowTree} : ∀ {calls : List Call} {t : TreeTransformer} {v : RowTree},
    Emitted n t v → v.Ok pool → meaning pool m F v calls = some v' →
      AtEachCall pool m F (fun v call => call.Fits v) v calls → AtEachCall pool m F (Call.Exact pool m F) v calls →
        ∃ u, calls.foldlM Call.run t = some u ∧ Performs pool m F n t u v v'
  | [], t, v, hT, hv, hv', _, _ => by
    obtain rfl := Option.some.inj hv'
    exact ⟨t, rfl, .refl hT hv⟩
  | call :: calls, t, v, hT, hv, hv', hfits, hexact => by
    obtain ⟨v₁, hv₁, hrest⟩ := Option.bind_eq_some_iff.mp hv'
    have hcall : ∃ u, call.run t = some u ∧ Performs pool m F n t u v v₁ := by
      cases call with
      | filterTree specs =>
        obtain rfl := Option.some.inj hv₁
        exact filterTree_spec hT hv hn hfits.1 hexact.1
      | propagateDown specs =>
        obtain ⟨u, hu, hperforms⟩ := propagateDown_spec hT hv hn hv₁ hexact.1
        exact ⟨u, by rw [Call.run, hu]; rfl, hperforms⟩
    obtain ⟨u, hu, hperforms⟩ := hcall
    obtain ⟨w, hw, hperforms'⟩ := calls_spec hn hperforms.emitted hperforms.ok hrest (hfits.2 v₁ hv₁) (hexact.2 v₁ hv₁)
    exact ⟨w, by rw [List.foldlM_cons, hu]; exact hw, hperforms.trans hperforms'⟩

/-- On an empty forest calls do nothing. -/
theorem calls_run_of_rowCount_eq_zero {t : TreeTransformer} (h : t.cols.rowCount = 0) :
    ∀ calls : List Call, calls.foldlM Call.run t = some t
  | [] => rfl
  | call :: calls => by
    have hcall : call.run t = some t := by
      cases call with
      | filterTree specs => simp [Call.run, TreeTransformer.filterTree, h]
      | propagateDown specs => simp [Call.run, TreeTransformer.propagateDown, h, Except.toOption]
    rw [List.foldlM_cons, hcall]
    exact calls_run_of_rowCount_eq_zero h calls

end LynxTrace.TraceProcessor.Core
