import LynxTrace.Core.AdhocDataframe

/-!
# Core.DataframeOfCells — dataframes of cells, side by side
(src/trace_processor/core/dataframe/dataframe.cc, `HorizontalConcat`)

* `AdhocDataframeBuilder.pushEach`, `Dataframe.horizontalConcat`.
* `build_cells` — a builder that is pushed cells of one type in each column builds them.
* `horizontalConcat_ok` — two dataframes with different names side by side.
-/

namespace LynxTrace.TraceProcessor.Core

/-- Pushes whose results are not looked at: after an error `Build` returns it. -/
def AdhocDataframeBuilder.pushEach (b : AdhocDataframeBuilder) (calls : List PushCall) : Option AdhocDataframeBuilder :=
  calls.foldlM (fun b call => (b.step call).map Prod.snd) b

/-- The first name that is not new. -/
def firstDuplicate : List String → List String → Option String
  | _, [] => none
  | seen, name :: names => if name ∈ seen then some name else firstDuplicate (name :: seen) names

namespace Dataframe

variable (left right : Dataframe)

/-- The loops of `HorizontalConcat` over the columns of one side. -/
def withoutAutoId : List (String × Column) := (left.columnNames.zip left.columns).filter fun p => p.1 ≠ "_auto_id"

/-- `none` is a failed `PERFETTO_CHECK`. -/
def horizontalConcat : Option (Except String Dataframe) :=
  if !(left.finalized && right.finalized) then none
  else if left.rowCount ≠ right.rowCount then
    some (.error ("HorizontalConcat: row count mismatch. Left has " ++ toString left.rowCount ++ " rows, right has " ++
      toString right.rowCount ++ " rows."))
  else
    let columns := left.withoutAutoId ++ right.withoutAutoId
    match firstDuplicate [] (columns.map Prod.fst) with
    | some name => some (.error ("HorizontalConcat: duplicate column name '" ++ name ++ "'."))
    | none =>
      let hadAutoId := decide ("_auto_id" ∈ left.columnNames ∨ "_auto_id" ∈ right.columnNames)
      let columns := columns ++ if hadAutoId then [("_auto_id", autoIdColumn left.rowCount)] else []
      some (.ok ⟨true, columns.map Prod.fst, columns.map Prod.snd, left.rowCount⟩)

end Dataframe

/-! ### Side by side -/

theorem firstDuplicate_eq_none_iff {seen names : List String} :
    firstDuplicate seen names = none ↔ names.Nodup ∧ ∀ name ∈ names, name ∉ seen := by
  induction names generalizing seen with
  | nil => exact iff_of_true rfl ⟨List.nodup_nil, fun name hname => absurd hname List.not_mem_nil⟩
  | cons name names ih =>
    rw [firstDuplicate, List.nodup_cons, List.forall_mem_cons]
    by_cases hseen : name ∈ seen
    · rw [if_pos hseen]
      exact iff_of_false (Option.some_ne_none _) fun h => h.2.1 hseen
    · rw [if_neg hseen, ih]
      simp only [List.mem_cons, not_or]
      constructor
      · rintro ⟨hnodup, hnew⟩
        exact ⟨⟨fun hmem => (hnew name hmem).1 rfl, hnodup⟩, hseen, fun x hx => (hnew x hx).2⟩
      · rintro ⟨⟨hmem, hnodup⟩, -, hnew⟩
        exact ⟨hnodup, fun x hx => ⟨fun heq => hmem (heq ▸ hx), hnew x hx⟩⟩

/-- A dataframe of named columns and the ids of its rows. -/
structure Dataframe.Lists (df : Dataframe) (names : List String) (cols : List Column) (rows : ℕ) : Prop where
  finalized : df.finalized = true
  columnNames : df.columnNames = names ++ ["_auto_id"]
  columns : df.columns = cols ++ [autoIdColumn rows]
  rowCount : df.rowCount = rows
  length : names.length = cols.length

variable {rows c : ℕ}

theorem Dataframe.Lists.withoutAutoId {df : Dataframe} {names : List String} {columns : List Column}
    (h : df.Lists names columns rows) (hauto : "_auto_id" ∉ names) : df.withoutAutoId = names.zip columns := by
  rw [Dataframe.withoutAutoId, h.columnNames, h.columns, List.zip_append h.length, List.filter_append]
  have hlast : (["_auto_id"].zip [autoIdColumn rows]).filter (fun p => decide (p.1 ≠ "_auto_id")) = [] := by simp
  rw [hlast, List.append_nil]
  refine List.filter_eq_self.mpr fun p hp => decide_eq_true fun heq => hauto ?_
  exact heq ▸ (List.of_mem_zip hp).1

/-- **Two dataframes** of as many rows, whose names are all different, side by side. -/
theorem horizontalConcat_ok {left right : Dataframe} {names names' : List String} {columns columns' : List Column}
    (hl : left.Lists names columns rows) (hr : right.Lists names' columns' rows) (hnodup : (names ++ names').Nodup)
    (hauto : "_auto_id" ∉ names ++ names') :
    ∃ df, left.horizontalConcat right = some (.ok df) ∧ df.Lists (names ++ names') (columns ++ columns') rows := by
  obtain ⟨hauto, hauto'⟩ := not_or.mp (mt List.mem_append.mpr hauto)
  have hzip : (names ++ names').zip (columns ++ columns') = names.zip columns ++ names'.zip columns' :=
    List.zip_append hl.length
  have hlength : (names ++ names').length = (columns ++ columns').length := by
    rw [List.length_append, List.length_append, hl.length, hr.length]
  have hfst : (left.withoutAutoId ++ right.withoutAutoId).map Prod.fst = names ++ names' := by
    rw [hl.withoutAutoId hauto, hr.withoutAutoId hauto', ← hzip, List.map_fst_zip hlength.le]
  have hsnd : (left.withoutAutoId ++ right.withoutAutoId).map Prod.snd = columns ++ columns' := by
    rw [hl.withoutAutoId hauto, hr.withoutAutoId hauto', ← hzip, List.map_snd_zip hlength.ge]
  have hnone : firstDuplicate [] (names ++ names') = none :=
    firstDuplicate_eq_none_iff.mpr ⟨hnodup, fun _ _ => List.not_mem_nil⟩
  have hhad : decide ("_auto_id" ∈ left.columnNames ∨ "_auto_id" ∈ right.columnNames) = true := by
    simp [hl.columnNames]
  refine ⟨⟨true, names ++ names' ++ ["_auto_id"], columns ++ columns' ++ [autoIdColumn rows], rows⟩, ?_,
    ⟨rfl, rfl, rfl, rfl, hlength⟩⟩
  unfold Dataframe.horizontalConcat
  rw [hl.finalized, hr.finalized, hl.rowCount, hr.rowCount, if_neg (by decide), if_neg (by simp)]
  dsimp only
  rw [hfst, hnone]
  dsimp only
  rw [hhad, if_pos rfl, @List.map_append _ _ Prod.fst, @List.map_append _ _ Prod.snd, hfst, hsnd]
  rfl

/-! ### Cells of one type -/

/-- The call that pushes a cell. -/
def cellCall (col : ℕ) : Option AdhocValue → PushCall
  | none => .pushNull col 1
  | some v => .pushNonNull col v 1

/-- The column that its cells make. -/
def AdhocColumn.ofCells (cells : List (Option AdhocValue)) : AdhocColumn :=
  cells.foldl (fun a t => a.push (cellCall 0 t)) {}

/-- The cells hold values of one type, and none is the null string. -/
def CellsOf (kind : AdhocColumnType) (cells : List (Option AdhocValue)) : Prop :=
  ∀ v, some v ∈ cells → v.type = kind ∧ v ≠ .string 0

/-- Cells of one type choose this type. -/
theorem AdhocColumn.ofCells_eq {kind : AdhocColumnType} {cells : List (Option AdhocValue)} (h : CellsOf kind cells) :
    ofCells cells =
      { type := if cells.any Option.isSome then some kind else none, nullable := cells.any Option.isNone, cells } := by
  induction cells using List.reverseRecOn with
  | nil => rfl
  | append_singleton cells t ih =>
    have hcells := ih fun v hv => h v (List.mem_append_left _ hv)
    unfold ofCells at hcells ⊢
    rw [List.foldl_append, hcells, List.foldl_cons, List.foldl_nil, List.any_append, List.any_append]
    cases t with
    | none => simp [cellCall, push, pushNull]
    | some v =>
      obtain ⟨htype, hnot⟩ := h v (List.mem_append_right _ (List.mem_singleton_self _))
      have hchoose : AdhocColumnType.choose (if cells.any Option.isSome then some kind else none) v.type = kind := by
        rw [htype]
        split_ifs
        · cases kind <;> rfl
        · rfl
      dsimp only [cellCall, push, pushValue]
      rw [if_neg hnot, hchoose]
      simp [List.replicate_one]

/-- The calls for a column push its cells. -/
theorem pushed_eq_ofCells {calls : List PushCall} {cells : List (Option AdhocValue)}
    (h : calls.filter (fun call => call.col = c) = cells.map (cellCall c)) : pushed [] calls c = .ofCells cells := by
  have hfold := @List.foldl_filter _ _ (fun call : PushCall => decide (call.col = c)) AdhocColumn.push calls {}
  rw [h, List.foldl_map] at hfold
  have hsame : (fun (a : AdhocColumn) t => a.push (cellCall c t)) = fun a t => a.push (cellCall 0 t) := by
    funext a t
    cases t <;> rfl
  rw [hsame] at hfold
  simp only [decide_eq_true_eq] at hfold
  exact hfold.symm

namespace AdhocStorage

/-- A value of the type of the storage is taken. -/
theorem push_sameType {s : AdhocStorage} {v : AdhocValue} (h : s.type = v.type) (declared : Bool) (name : String) (count : ℕ) :
    ∃ s', s.push declared name v count = some (.ok s') := by
  cases s <;> cases v <;> first | exact ⟨_, rfl⟩ | cases h

theorem addPlaceholders_type (s : AdhocStorage) (count : ℕ) : (s.addPlaceholders count).type = s.type := by
  cases s <;> rfl

theorem empty_type (type : AdhocColumnType) : (empty type).type = type := by cases type <;> rfl

end AdhocStorage

theorem ColumnState.newStorage_type (s : ColumnState) (type : AdhocColumnType) : (s.newStorage type).type = type := by
  unfold newStorage
  split
  · exact AdhocStorage.empty_type type
  · split_ifs
    · exact (AdhocStorage.addPlaceholders_type ..).trans (AdhocStorage.empty_type type)
    · exact AdhocStorage.empty_type type

/-- A column takes a value of its type. -/
theorem AdhocColumn.accepts {a : AdhocColumn} {v : AdhocValue} (h : ∀ type, a.type = some type → type = v.type)
    (n : NullabilityType) (declared : Bool) (name : String) (count : ℕ) :
    ∃ s, (a.state n).pushNonNullInternal declared name v count = some (.ok s) := by
  have htype : ((a.state n).storage.getD ((a.state n).newStorage v.type)).type = v.type := by
    cases ha : a.type with
    | none =>
      have hnone : (a.state n).storage = none := by rw [state, ha, Option.map_none]
      rw [hnone, Option.getD_none, ColumnState.newStorage_type]
    | some type =>
      have hsome : (a.state n).storage = some (a.stored n type) := by rw [state, ha, Option.map_some]
      rw [hsome, Option.getD_some, ← h type ha]
      cases type <;> rfl
  obtain ⟨s, hs⟩ := AdhocStorage.push_sameType htype declared name count
  exact ⟨_, by rw [ColumnState.pushNonNullInternal, hs]; rfl⟩

section Build

variable {names : List String} {options : AdhocDataframeBuilderOptions} {calls : List PushCall} {kind : ℕ → AdhocColumnType}
  {cells : ℕ → List (Option AdhocValue)}

/-- One cell is pushed. -/
theorem Tracks.step_cell {b : AdhocDataframeBuilder} (h : Tracks names options calls b)
    (hrows : ∀ col < names.length, (pushed options.types calls col).cells.length < 2 ^ 32) (hc : c < names.length)
    {t : Option AdhocValue}
    (ht : ∀ v, t = some v → v ≠ .string 0 ∧ ∀ type, (pushed options.types calls c).type = some type → type = v.type) :
    ∃ b', b.step (cellCall c t) = some (true, b') ∧ Tracks names options (calls ++ [cellCall c t]) b' := by
  have hget : b.columnStates[c]? = some ((pushed options.types calls c).state options.nullabilityType) := by
    have hlt : c < b.columnStates.length := h.length.symm ▸ hc
    rw [List.getElem?_eq_getElem hlt, ← h.states c _ (List.getElem?_eq_getElem hlt)]
  have hstep : ∃ b', b.step (cellCall c t) = some (true, b') := by
    cases t with
    | none => exact ⟨_, by rw [cellCall, AdhocDataframeBuilder.step, hget]; rfl⟩
    | some v =>
      obtain ⟨hnot, htype⟩ := ht v rfl
      obtain ⟨s, hs⟩ := AdhocColumn.accepts htype options.nullabilityType b.didDeclareTypes (b.columnNames.getD c "")
        (1 : UInt32).toNat
      refine ⟨b.setState c s, ?_⟩
      rw [cellCall, AdhocDataframeBuilder.step, hget, Option.bind_eq_bind, Option.bind_some, if_neg hnot,
        AdhocDataframeBuilder.pushValue, hs]
      rfl
  obtain ⟨b', hb'⟩ := hstep
  exact ⟨b', hb', h.step hrows hb'⟩

/-- What is pushed to each column are its cells, of one type. -/
structure Pushes (names : List String) (calls : List PushCall) (kind : ℕ → AdhocColumnType)
    (cells : ℕ → List (Option AdhocValue)) (rows : ℕ) : Prop where
  col_lt : ∀ call ∈ calls, call.col < names.length
  filter : ∀ c < names.length, calls.filter (fun call => call.col = c) = (cells c).map (cellCall c)
  kinds : ∀ c < names.length, CellsOf (kind c) (cells c)
  length : ∀ c < names.length, (cells c).length = rows

theorem Pushes.pushed_eq (h : Pushes names calls kind cells rows) (hc : c < names.length) :
    pushed [] calls c = .ofCells (cells c) := pushed_eq_ofCells (h.filter c hc)

/-- All pushes are accepted. -/
theorem Pushes.pushEach (h : Pushes names calls kind cells rows) (hlt : rows < 2 ^ 32) (n : NullabilityType) :
    ∃ b, (AdhocDataframeBuilder.ofNames names { nullabilityType := n }).pushEach calls = some b ∧
      Tracks names { nullabilityType := n } calls b := by
  -- a beginning of the calls pushes a beginning of each column
  have hprefix : ∀ before after, calls = before ++ after →
      ∃ b, (AdhocDataframeBuilder.ofNames names { nullabilityType := n }).pushEach before = some b ∧
        Tracks names { nullabilityType := n } before b := by
    intro before
    induction before using List.reverseRecOn with
    | nil => exact fun _ _ => ⟨_, rfl, .ofNames names _⟩
    | append_singleton before call ih =>
      intro after hcalls
      obtain ⟨b, hb, htracks⟩ := ih (call :: after) (by rw [hcalls, List.append_assoc]; rfl)
      have hpushed : ∀ c < names.length, ∃ l rest, cells c = l ++ rest ∧ pushed [] before c = .ofCells l ∧
          (call.col = c → ∃ t, rest.head? = some t ∧ call = cellCall c t) := by
        intro c hc
        have hfilter := h.filter c hc
        rw [hcalls, List.append_assoc, List.filter_append] at hfilter
        obtain ⟨l, rest, hcells, hl, hrest⟩ := List.map_eq_append_iff.mp hfilter.symm
        refine ⟨l, rest, hcells, pushed_eq_ofCells hl.symm, fun hcol => ?_⟩
        rw [List.singleton_append, List.filter_cons_of_pos (by simpa using hcol)] at hrest
        obtain ⟨t, rest', rfl, ht, -⟩ := List.map_eq_cons_iff.mp hrest
        exact ⟨t, rfl, ht.symm⟩
      have hcol := h.col_lt call (by rw [hcalls]; simp)
      obtain ⟨l, rest, hcells, hl, hhead⟩ := hpushed call.col hcol
      obtain ⟨t, ht, hcall⟩ := hhead rfl
      have hmem : t ∈ cells call.col := hcells ▸ List.mem_append_right l (List.mem_of_mem_head? ht)
      have hkinds : CellsOf (kind call.col) l := fun v hv => h.kinds _ hcol v (hcells ▸ List.mem_append_left _ hv)
      have hrows : ∀ c < names.length, (pushed [] before c).cells.length < 2 ^ 32 := fun c hc => by
        obtain ⟨l, rest, hcells, hl, -⟩ := hpushed c hc
        have hlength := h.length c hc
        rw [hcells, List.length_append] at hlength
        rw [hl, AdhocColumn.ofCells_eq fun v hv => h.kinds c hc v (hcells ▸ List.mem_append_left _ hv)]
        dsimp only
        omega
      have haccepts : ∀ v, t = some v → v ≠ .string 0 ∧ ∀ type, (pushed [] before call.col).type = some type → type = v.type := by
        intro v hv
        obtain ⟨htype, hnot⟩ := h.kinds _ hcol v (hv ▸ hmem)
        refine ⟨hnot, fun type hsome => ?_⟩
        rw [hl, AdhocColumn.ofCells_eq hkinds] at hsome
        dsimp only at hsome
        split_ifs at hsome
        exact (Option.some.inj hsome).symm.trans htype.symm
      obtain ⟨b', hb', htracks'⟩ := htracks.step_cell hrows hcol haccepts
      rw [← hcall] at hb' htracks'
      refine ⟨b', ?_, htracks'⟩
      unfold AdhocDataframeBuilder.pushEach at hb ⊢
      rw [List.foldlM_append, hb]
      show ((b.step call).map Prod.snd).bind some = some b'
      rw [hb']
      rfl
  exact hprefix calls [] (List.append_nil _).symm

/-- **Columns of cells** are built, if nothing wraps around: what is read are the cells. -/
theorem Pushes.build (h : Pushes names calls kind cells rows) (pool : StringPool) (hlt : rows < 2 ^ 32)
    (hempty : names = [] → rows = 0)
    (hfine : ∀ c < names.length, ¬ (AdhocColumn.ofCells (cells c)).Unbuildable .kDenseNull) :
    ∃ b df columns, (AdhocDataframeBuilder.ofNames names { nullabilityType := .kDenseNull }).pushEach calls = some b ∧
      b.build pool = some (.ok df) ∧ df.Lists names columns rows ∧
      ∀ c < names.length, ∃ col, columns[c]? = some col ∧
        ∀ (k : ℕ) t, (cells c)[k]? = some t → col.getCell k = some (t.map (AdhocValue.as (kind c))) := by
  obtain ⟨b, hb, htracks⟩ := h.pushEach hlt .kDenseNull
  have hcells : ∀ c < names.length, pushed [] calls c = _ := fun c hc =>
    (h.pushed_eq hc).trans (AdhocColumn.ofCells_eq (h.kinds c hc))
  obtain ⟨df, hbuild, hfinalized, hholds⟩ := htracks.build_holds pool hlt
    (fun c hc => by rw [hcells c hc]; exact h.length c hc) hempty (fun c hc => by
      show ¬ (pushed [] calls c).Unbuildable .kDenseNull
      rw [h.pushed_eq hc]
      exact hfine c hc)
  have hlast : df.columns = df.columns.take names.length ++ [autoIdColumn rows] := by
    have hlt : names.length < df.columns.length := by rw [hholds.length]; exact Nat.lt_succ_self _
    have hget := hholds.autoId
    rw [List.getElem?_eq_getElem hlt, Option.some_inj] at hget
    rw [← hget, List.take_append_getElem hlt, ← hholds.length, List.take_length]
  refine ⟨b, df, df.columns.take names.length, hb, hbuild,
    ⟨hfinalized, hholds.columnNames, hlast, hholds.rowCount, ?_⟩, fun c hc => ?_⟩
  · rw [List.length_take, hholds.length]
    omega
  · obtain ⟨col, hcol, hbuilt⟩ := hholds.columns c hc
    refine ⟨col, (List.getElem?_take_of_lt hc).trans hcol, fun k t ht => ?_⟩
    refine hbuilt.getCell (fun _ => by simp) k _ ?_
    show (pushed [] calls c).values[k]? = _
    rw [AdhocColumn.values, hcells c hc, List.getElem?_map, ht, Option.map_some]
    cases t with
    | none => rfl
    | some v =>
      have hany : (cells c).any Option.isSome = true := List.any_eq_true.mpr ⟨_, List.mem_of_getElem? ht, rfl⟩
      rw [if_pos hany, Option.getD_some]

end Build

end LynxTrace.TraceProcessor.Core
