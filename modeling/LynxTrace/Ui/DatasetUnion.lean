import LynxTrace.Ui.DatasetMeaning

/-!
# Ui.DatasetUnion — when a union of datasets denotes the union of its leaves
-/

namespace LynxTrace.Ui

/-! ### Indented text -/

theorem indentText_cons (c : Char) (s : Text) :
    indentText (c :: s) = (if c = '\n' then ['\n', ' ', ' '] else [c]) ++ indentText s := rfl

theorem indentText_eq_self {s : Text} (h : '\n' ∉ s) : indentText s = s := by
  induction s with
  | nil => rfl
  | cons c s ih =>
    have h1 : c ≠ '\n' := fun hc => h (hc ▸ List.mem_cons_self)
    rw [indentText_cons, if_neg h1, ih fun hs => h (List.mem_cons_of_mem _ hs)]
    rfl

theorem mem_indentText {s : Text} : '\n' ∈ indentText s ↔ '\n' ∈ s := by
  induction s with
  | nil => rfl
  | cons c s ih =>
    rw [indentText_cons, List.mem_append, ih, List.mem_cons]
    split_ifs with h
    · simp [h]
    · simp [eq_comm, h]

theorem length_le_indentText (s : Text) : s.length ≤ (indentText s).length := by
  induction s with
  | nil => exact Nat.le_refl _
  | cons c s ih =>
    rw [indentText_cons, List.length_append, List.length_cons]
    split_ifs
    · show s.length + 1 ≤ 3 + _
      omega
    · show s.length + 1 ≤ 1 + _
      omega

theorem length_lt_indentText {s : Text} (h : '\n' ∈ s) : s.length < (indentText s).length := by
  induction s with
  | nil => cases h
  | cons c s ih =>
    have hle := length_le_indentText s
    rw [indentText_cons, List.length_append, List.length_cons]
    split_ifs with h1
    · show s.length + 1 < 3 + _
      omega
    · have hlt := ih ((List.mem_cons.mp h).resolve_left (Ne.symm h1))
      show s.length + 1 < 1 + _
      omega

theorem indentText_injective {s t : Text} (h : indentText s = indentText t) : s = t := by
  induction s generalizing t with
  | nil =>
    cases t with
    | nil => rfl
    | cons d t =>
      rw [indentText_cons] at h
      split_ifs at h <;> cases h
  | cons c s ih =>
    cases t with
    | nil =>
      rw [indentText_cons] at h
      split_ifs at h <;> cases h
    | cons d t =>
      rw [indentText_cons, indentText_cons] at h
      split_ifs at h with h1 h2 h2
      · rw [h1, h2, ih (List.append_cancel_left h)]
      · exact absurd (List.cons.inj h).1.symm h2
      · exact absurd (List.cons.inj h).1 h1
      · obtain ⟨rfl, h3⟩ := List.cons.inj h
        rw [ih h3]

/-- The columns that a batch has are found by the names that the outer query gives them where no name is broken over
lines. -/
theorem indented_names_iff (cols : List Text) :
    (∀ col ∈ cols.map indentText, col ∈ cols.map fun col => indentText (indentText col)) ↔ ∀ col ∈ cols, '\n' ∉ col := by
  constructor
  · intro h
    have hall : ∀ n, ∀ col ∈ cols, col.length = n → '\n' ∉ col := by
      intro n
      induction n using Nat.strong_induction_on with
      | _ n ih =>
        rintro col hcol rfl hnl
        obtain ⟨col', hcol', h1⟩ := List.mem_map.mp (h _ (List.mem_map_of_mem hcol))
        have h2 : indentText col' = col := indentText_injective h1
        have hnl' : '\n' ∈ col' := mem_indentText.mp (h2 ▸ hnl)
        exact ih _ (h2 ▸ length_lt_indentText hnl') col' hcol' rfl hnl'
    exact fun col hcol => hall _ col hcol rfl
  · rintro h _ hcol
    obtain ⟨col, hcol', rfl⟩ := List.mem_map.mp hcol
    refine List.mem_map.mpr ⟨col, hcol', ?_⟩
    rw [indentText_eq_self (h col hcol')]
    exact indentText_eq_self (h col hcol')

/-! ### Batches -/

theorem flatten_slices {A : Type*} {n : Nat} (hn : 0 < n) (l : List A) : (slices n l).flatten = l := by
  have htake : ∀ m, ((List.range m).map fun k => (l.drop (k * n)).take n).flatten = l.take (m * n) := by
    intro m
    induction m with
    | zero => simp
    | succ m ih =>
      rw [List.range_succ, List.map_append, List.flatten_append, ih, Nat.succ_mul, List.take_add]
      simp
  rw [slices, htake]
  refine List.take_of_length_le ?_
  have h1 := Nat.div_add_mod (l.length + (n - 1)) n
  have h2 := Nat.mod_lt (l.length + (n - 1)) hn
  rw [Nat.mul_comm] at h1
  omega

theorem length_slices_le {A : Type*} {n : Nat} (hn : 0 < n) (l : List A) (m : Nat) :
    (slices n l).length ≤ m ↔ l.length ≤ n * m := by
  rw [slices, List.length_map, List.length_range, ← Nat.lt_succ_iff, Nat.div_lt_iff_lt_mul hn, Nat.succ_mul, Nat.mul_comm]
  omega

theorem slices_spec {A : Type*} {n : Nat} (hn : 0 < n) {l batch : List A} (h : batch ∈ slices n l) :
    batch.length ≤ n ∧ batch ≠ [] := by
  obtain ⟨k, hk, rfl⟩ := List.mem_map.mp h
  have hlt : k < (l.length + (n - 1)) / n := List.mem_range.mp hk
  have hmul : (k + 1) * n ≤ l.length + (n - 1) := (Nat.le_div_iff_mul_le hn).mp hlt
  refine ⟨List.length_take_le _ _, ?_⟩
  apply List.ne_nil_of_length_pos
  rw [List.length_take, List.length_drop]
  rw [Nat.succ_mul] at hmul
  omega

theorem maxSubqueriesPerUnion_pos : 0 < maxSubqueriesPerUnion := Nat.succ_pos _

/-! ### What the members of a group declare -/

/-- The tokens of a fragment in the text of a union, which is indented once more where it is batched. -/
def spelled (many : Bool) (f : Fragment) : List Text := codeOf (if many then indentTokens f else f)

def firstSrc (g : List SourceDataset) : Fragment := (g.head?.map (·.src)).getD []

/-- Some member selects a column that has not the name of an inherited key. -/
def selectsOwn (g : List SourceDataset) : Bool :=
  (g.filterMap (·.select)).any fun select => select.keys.any (· ∉ objectPrototype)

/-- The first selection of a column.  Of several members, none selects under the name of an inherited key. -/
def firstSelect : List SourceDataset → Text → SelectColumn
  | [d], col => selectValue d.select col
  | g, col =>
    if col ∈ objectPrototype then if selectsOwn g then inheritedSelect else unmapped col
    else ((g.filterMap (·.select)).findSome? (·.get? col)).getD (unmapped col)

/-- The last declaration of a join. -/
def lastJoin : List SourceDataset → Text → Option Join
  | [d], joinId => d.joins.get? joinId
  | g, joinId => if joinId = protoKey then none else g.reverse.findSome? fun d => d.joins.get? joinId

def firstFilter (g : List SourceDataset) : Option Filter := g.findSome? (·.filter)

/-- The joins of a group but for the unique ones that no selected column refers to. -/
def groupJoins (many : Bool) (cols : List Text) (g : List SourceDataset) : Set (List Text) :=
  {j | ∃ joinId join, lastJoin g joinId = some join ∧
    (join.unique = true → ∃ col ∈ cols, (firstSelect g col).join = some joinId ∧ joinId ≠ []) ∧
    j = spelled many (joinClause joinId join)}

variable {S C L : Type} (sql : Reading S C L)

/-- The literals of the filters of a group. -/
def groupLiterals (many : Bool) (g : List SourceDataset) : Set L :=
  {l | ∃ d ∈ g, ∃ f ∈ d.filter, ∃ v ∈ f.values, ∃ lit, literal v = .ok lit ∧ sql.literal (spelled many lit) = some l}

/-- Some value passes the filter: it is not a list of NULLs. -/
def SourceDataset.Selects (d : SourceDataset) : Prop :=
  ∀ f ∈ d.filter, ∃ v ∈ f.values, ∃ lit l, literal v = .ok lit ∧ sql.literal (codeOf lit) = some l

/-- One query can stand for a group: each member that selects anything reads, as it spells them, the first source, the
last declaration of each join and the first selection of each column; it filters the column of the first filter, or no
member filters; and the literals are spelled as the members spell them. -/
structure MergesExactly (many : Bool) (cols : List Text) (g : List SourceDataset) : Prop where
  source : ∀ d ∈ g, d.Selects sql →
    sql.source (codeOf d.src) (groupJoins false cols [d]) = sql.source (spelled many (firstSrc g)) (groupJoins many cols g)
  columns : ∀ d ∈ g, d.Selects sql → ∀ col ∈ cols,
    sql.expr (codeOf (indentTokens (selectValue d.select col).expr)) =
      sql.expr (spelled many (indentTokens (firstSelect g col).expr))
  filterColumn : ∀ d ∈ g, d.Selects sql →
    (d.filter.map fun f => sql.expr (codeOf f.col)) = (firstFilter g).map fun f => sql.expr (spelled many f.col)
  literals : groupLiterals sql many g = groupLiterals sql false g

/-- What the query of a group selects. -/
def groupSelection (many : Bool) (cols : List Text) (g : List SourceDataset) : Selection S C L where
  source := sql.source (spelled many (firstSrc g)) (groupJoins many cols g)
  exprs := cols.map fun col => sql.expr (spelled many (indentTokens (firstSelect g col).expr))
  filter := (firstFilter g).map fun f => (sql.expr (spelled many f.col), groupLiterals sql many g)

/-- A statement as it stands in the text of a union. -/
def placed (many : Bool) (s : SelectStmt) : SelectStmt := if many then s.indent else s

/-! ### The merged dataset -/

theorem get?_combinedSelect (g : List SourceDataset) (col : Text) : (combinedSelect g).get? col =
    if col ∈ objectPrototype then none else (g.filterMap (·.select)).findSome? (·.get? col) := by
  have hfold : ∀ (selects : List (OrderedMap Text SelectColumn)) (m : OrderedMap Text SelectColumn),
      (selects.foldl (fun acc select => acc.assignNew (select.filterKeys (· ∉ objectPrototype))) m).get? col =
        (m.get? col).or (if col ∈ objectPrototype then none else selects.findSome? (·.get? col)) := by
    intro selects
    induction selects with
    | nil =>
      intro m
      rw [List.findSome?_nil, ite_self, Option.or_none]
      rfl
    | cons select selects ih =>
      intro m
      rw [List.foldl_cons, ih, OrderedMap.get?_assignNew, OrderedMap.get?_filterKeys, Option.or_assoc,
        List.findSome?_cons]
      by_cases hcol : col ∈ objectPrototype
      · simp [hcol]
      · simp only [hcol, not_false_eq_true, decide_true, if_true, if_false]
        cases select.get? col <;> rfl
  rw [combinedSelect, hfold, OrderedMap.get?_empty, Option.none_or]

theorem combinedSelect_isEmpty (g : List SourceDataset) : (combinedSelect g).entries.isEmpty = !selectsOwn g := by
  rw [Bool.eq_iff_iff, List.isEmpty_iff, OrderedMap.entries_eq_nil, Bool.not_eq_true', selectsOwn, List.any_eq_false]
  simp only [get?_combinedSelect, ite_eq_left_iff, List.findSome?_eq_none_iff, OrderedMap.get?_eq_none,
    List.any_eq_true, decide_eq_true_eq]
  constructor
  · rintro h select hselect ⟨col, hmem, hown⟩
    exact h col hown select hselect hmem
  · intro h col hown select hselect hmem
    exact h select hselect ⟨col, hmem, hown⟩

theorem get?_foldl_assign (g : List SourceDataset) (m : OrderedMap Text Join) (joinId : Text) :
    (g.foldl (fun acc d => acc.assign (d.joins.filterKeys (· ≠ protoKey))) m).get? joinId =
      (if joinId = protoKey then none else g.reverse.findSome? fun d => d.joins.get? joinId).or (m.get? joinId) := by
  induction g generalizing m with
  | nil =>
    rw [List.reverse_nil, List.findSome?_nil, ite_self]
    rfl
  | cons d g ih =>
    rw [List.foldl_cons, ih, OrderedMap.get?_assign, OrderedMap.get?_filterKeys, List.reverse_cons,
      List.findSome?_append, List.findSome?_singleton]
    by_cases hjoin : joinId = protoKey
    · simp [hjoin]
    · simp [hjoin, Option.or_assoc]

theorem mergeGroup_src (g : List SourceDataset) : (mergeGroup g).src = firstSrc g := by
  unfold mergeGroup
  split <;> rfl

theorem mergeGroup_select (g : List SourceDataset) (col : Text) :
    selectValue (mergeGroup g).select col = firstSelect g col := by
  unfold mergeGroup
  split
  · rfl
  · rename_i hg
    have hempty := combinedSelect_isEmpty g
    rw [firstSelect.eq_2 _ _ hg]
    dsimp only
    rw [hempty]
    cases hown : selectsOwn g with
    | false =>
      rw [hown, Bool.not_false, List.isEmpty_iff, OrderedMap.entries_eq_nil] at hempty
      have hnone := hempty col
      rw [get?_combinedSelect] at hnone
      by_cases hcol : col ∈ objectPrototype
      · simp [hcol, selectValue]
      · rw [if_neg hcol] at hnone
        simp [hcol, hnone, selectValue]
    | true =>
      rw [Bool.not_true, if_neg Bool.false_ne_true, selectValue, get?_combinedSelect]
      by_cases hcol : col ∈ objectPrototype
      · simp [hcol]
      · simp only [if_neg hcol]

theorem mergeGroup_joins (g : List SourceDataset) (joinId : Text) :
    (mergeGroup g).joins.get? joinId = lastJoin g joinId := by
  unfold mergeGroup
  split
  · rfl
  · rename_i hg
    rw [get?_foldl_assign, OrderedMap.get?_empty, Option.or_none, lastJoin.eq_2 _ _ hg]

theorem head?_filterMap_filter (g : List SourceDataset) : (g.filterMap (·.filter)).head? = firstFilter g :=
  List.head?_filterMap

theorem mergeGroup_filter_col (g : List SourceDataset) :
    (mergeGroup g).filter.map (·.col) = (firstFilter g).map (·.col) := by
  unfold mergeGroup
  split
  · rw [firstFilter, List.findSome?_singleton]
  · rw [← head?_filterMap_filter]
    cases g.filterMap (·.filter) <;> rfl

/-- The merged filter has the values of all the filters. -/
theorem mem_mergeGroup_filter (g : List SourceDataset) (v : SqlValue) :
    (∃ f ∈ (mergeGroup g).filter, v ∈ f.values) ↔ ∃ d ∈ g, ∃ f ∈ d.filter, v ∈ f.values := by
  unfold mergeGroup
  split
  · simp
  · have h1 : (∃ d ∈ g, ∃ f ∈ d.filter, v ∈ f.values) ↔ v ∈ (g.filterMap (·.filter)).flatMap Filter.values := by
      simp only [List.mem_flatMap, List.mem_filterMap, Option.mem_def]
      constructor
      · rintro ⟨d, hd, f, hf, hv⟩
        exact ⟨f, ⟨d, hd, hf⟩, hv⟩
      · rintro ⟨f, ⟨d, hd, hf⟩, hv⟩
        exact ⟨d, hd, f, hf, hv⟩
    rw [h1]
    cases g.filterMap (·.filter) with
    | nil => simp [mergeFilters]
    | cons f fs =>
      show (∃ f' ∈ some (Filter.isIn f.col ((f :: fs).flatMap Filter.values).eraseDups), v ∈ f'.values) ↔ _
      simp [Filter.values]

/-! ### The statement of a group -/

theorem filterQuery_selected {f : Filter} {w : Where} (h : filterQuery f = .ok w) (many : Bool) :
    (if many then w.indent else w).selected sql = (sql.expr (spelled many f.col),
      {l | ∃ v ∈ f.values, ∃ lit, literal v = .ok lit ∧ sql.literal (spelled many lit) = some l}) := by
  cases f with
  | eq col value =>
    obtain ⟨lit, h1, rfl⟩ := except_map_ok.mp h
    have hone : ∀ l, (∃ v ∈ [value], ∃ lit', literal v = .ok lit' ∧ sql.literal (spelled many lit') = some l) ↔
        sql.literal (spelled many lit) = some l := by
      intro l
      constructor
      · rintro ⟨v, hv, lit', h2, h3⟩
        rw [List.mem_singleton.mp hv, h1] at h2
        cases h2
        exact h3
      · intro h3
        exact ⟨value, List.mem_singleton.mpr rfl, lit, h1, h3⟩
    cases many <;> exact Prod.ext rfl (Set.ext fun l => (hone l).symm)
  | isIn col values =>
    obtain ⟨lits, h1, rfl⟩ := except_map_ok.mp h
    have hall : ∀ l, (∃ lit ∈ lits, sql.literal (spelled many lit) = some l) ↔
        ∃ v ∈ values, ∃ lit, literal v = .ok lit ∧ sql.literal (spelled many lit) = some l := by
      intro l
      constructor
      · rintro ⟨lit, h2, h3⟩
        obtain ⟨v, hv, h4⟩ := exists_of_mapExcept h1 h2
        exact ⟨v, hv, lit, h4, h3⟩
      · rintro ⟨v, hv, lit, h2, h3⟩
        obtain ⟨lit', h4, h5⟩ := mem_of_mapExcept h1 hv
        rw [h2] at h5
        cases h5
        exact ⟨lit, h4, h3⟩
    cases many
    · exact Prod.ext rfl (Set.ext hall)
    · refine Prod.ext rfl (Set.ext fun l => Iff.trans ?_ (hall l))
      show (∃ value ∈ lits.map indentTokens, _) ↔ _
      constructor
      · rintro ⟨value, h2, h3⟩
        obtain ⟨lit, h4, rfl⟩ := List.mem_map.mp h2
        exact ⟨lit, h4, h3⟩
      · rintro ⟨lit, h2, h3⟩
        exact ⟨indentTokens lit, List.mem_map_of_mem h2, h3⟩

theorem keptJoins_clauses (many : Bool) (cols : List Text) (g : List SourceDataset) :
    {j | ∃ e ∈ (mergeGroup g).keptJoins cols, j = spelled many (joinClause e.1 e.2)} = groupJoins many cols g := by
  have href : ∀ joinId, joinId ∈ referencedJoins (mergeGroup g).select cols ↔
      ∃ col ∈ cols, (firstSelect g col).join = some joinId ∧ joinId ≠ [] := by
    intro joinId
    rw [referencedJoins, List.mem_filterMap]
    simp only [mergeGroup_select, Option.filter_eq_some_iff, decide_eq_true_eq]
  ext j
  constructor
  · rintro ⟨⟨joinId, join⟩, he, rfl⟩
    obtain ⟨h1, h2⟩ := List.mem_filter.mp he
    refine ⟨joinId, join, ?_, fun hu => ?_, rfl⟩
    · rw [← mergeGroup_joins]
      exact OrderedMap.get?_eq_some.mpr h1
    · rw [← href]
      simpa [hu] using h2
  · rintro ⟨joinId, join, h1, h2, rfl⟩
    rw [← mergeGroup_joins] at h1
    rw [← href] at h2
    refine ⟨(joinId, join), List.mem_filter.mpr ⟨OrderedMap.get?_eq_some.mp h1, ?_⟩, rfl⟩
    cases hu : join.unique with
    | false => simp
    | true => simpa [hu] using h2 hu

theorem SourceDataset.query_ok {d : SourceDataset} {cols : List Text} {s : SelectStmt} (h : d.query cols = .ok s) :
    s.columns = (cols.map fun col => (selectCol d.select col).indent) ∧ s.src = d.src ∧
      s.joins = ((d.keptJoins cols).map fun e => joinClause e.1 e.2) ∧
      (d.filter = none ∧ s.filter = none ∨
        ∃ f w, d.filter = some f ∧ filterQuery f = .ok w ∧ s.filter = some w) := by
  unfold query at h
  split at h
  · rename_i hf
    cases h
    exact ⟨rfl, rfl, rfl, Or.inl ⟨hf, rfl⟩⟩
  · rename_i f hf
    obtain ⟨w, h1, rfl⟩ := except_map_ok.mp h
    exact ⟨rfl, rfl, rfl, Or.inr ⟨f, w, hf, h1, rfl⟩⟩

theorem placed_selection (many : Bool) (s : SelectStmt) : (placed many s).selection sql =
    { source := sql.source (spelled many s.src) {j | ∃ f ∈ s.joins, j = spelled many f}
      exprs := s.columns.map fun c => sql.expr (spelled many c.expr)
      filter := s.filter.map fun w => (if many then w.indent else w).selected sql } := by
  cases many with
  | false => rfl
  | true =>
    have hjoins : {j | ∃ join ∈ s.joins.map indentTokens, j = codeOf join} = {j | ∃ f ∈ s.joins, j = spelled true f} := by
      ext j
      simp [spelled]
    show SelectStmt.selection sql s.indent = _
    rw [SelectStmt.selection, SelectStmt.indent, ← hjoins, List.map_map, Option.map_map]
    rfl

/-- The statement of a group selects what its members declare. -/
theorem mergeGroup_query {g : List SourceDataset} {cols : List Text} {s : SelectStmt} (many : Bool)
    (h : (mergeGroup g).query cols = .ok s) : (placed many s).selection sql = groupSelection sql many cols g := by
  obtain ⟨hcolumns, hsrc, hjoins, hfilter⟩ := SourceDataset.query_ok h
  have hsources : {j | ∃ f ∈ s.joins, j = spelled many f} = groupJoins many cols g := by
    rw [← keptJoins_clauses, hjoins]
    ext j
    simp
  have hexprs : (s.columns.map fun c => sql.expr (spelled many c.expr)) =
      cols.map fun col => sql.expr (spelled many (indentTokens (firstSelect g col).expr)) := by
    rw [hcolumns, List.map_map]
    refine List.map_congr_left fun col _ => ?_
    show sql.expr (spelled many (indentTokens (selectValue (mergeGroup g).select col).expr)) = _
    rw [mergeGroup_select]
  have hcol := mergeGroup_filter_col g
  have hvalues := mem_mergeGroup_filter g
  have hwhere : (s.filter.map fun w => (if many then w.indent else w).selected sql) =
      (firstFilter g).map fun f => (sql.expr (spelled many f.col), groupLiterals sql many g) := by
    rcases hfilter with ⟨h1, h2⟩ | ⟨f, w, h1, h2, h3⟩
    · rw [h1] at hcol
      rw [h2, Option.map_eq_none_iff.mp hcol.symm]
      rfl
    · rw [h1] at hcol
      obtain ⟨f', h4, h5⟩ := Option.map_eq_some_iff.mp hcol.symm
      rw [h3, h4, Option.map_some, Option.map_some, filterQuery_selected sql h2, h5]
      refine congrArg some (Prod.ext rfl (Set.ext fun l => ?_))
      constructor
      · rintro ⟨v, hv, h6⟩
        obtain ⟨d, hd, f'', hf'', hv'⟩ := (hvalues v).mp ⟨f, h1, hv⟩
        exact ⟨d, hd, f'', hf'', v, hv', h6⟩
      · rintro ⟨d, hd, f'', hf'', v, hv, h6⟩
        obtain ⟨f₀, hf₀, hv'⟩ := (hvalues v).mpr ⟨d, hd, f'', hf'', hv⟩
        obtain rfl : f = f₀ := Option.some.inj (h1.symm.trans hf₀)
        exact ⟨v, hv', h6⟩
  rw [placed_selection, hsrc, mergeGroup_src, hsources, hexprs, hwhere]
  rfl

theorem leaf_query {d : SourceDataset} {cols : List Text} {s : SelectStmt} (h : d.query cols = .ok s) :
    s.selection sql = groupSelection sql false cols [d] :=
  mergeGroup_query sql (g := [d]) false h

theorem firstFilter_singleton (d : SourceDataset) : firstFilter [d] = d.filter := List.findSome?_singleton

theorem firstSelect_singleton (d : SourceDataset) (col : Text) : firstSelect [d] col = selectValue d.select col := rfl

theorem satisfiable_leaf (cols : List Text) (d : SourceDataset) :
    (groupSelection sql false cols [d]).Satisfiable ↔ d.Selects sql := by
  have hfilter : (groupSelection sql false cols [d]).filter =
      d.filter.map fun f => (sql.expr (spelled false f.col), groupLiterals sql false [d]) := by
    rw [← firstFilter_singleton]
    rfl
  rw [Selection.Satisfiable, hfilter]
  constructor
  · intro h f hf
    obtain ⟨l, d', hd', f', hf', v, hv, lit, h1, h2⟩ := h _ (Option.mem_map_of_mem _ hf)
    obtain rfl := List.mem_singleton.mp hd'
    obtain rfl : f = f' := Option.mem_unique hf hf'
    exact ⟨v, hv, lit, l, h1, h2⟩
  · intro h f hf
    obtain ⟨f', hf', rfl⟩ := Option.map_eq_some_iff.mp hf
    obtain ⟨v, hv, lit, l, h1, h2⟩ := h f' hf'
    exact ⟨l, d, List.mem_singleton.mpr rfl, f', hf', v, hv, lit, h1, h2⟩

theorem firstFilter_eq_none {g : List SourceDataset} : firstFilter g = none ↔ ∀ d ∈ g, d.filter = none :=
  List.findSome?_eq_none_iff

theorem leafLiterals_eq (cols : List Text) (g : List SourceDataset) :
    {l | ∃ x ∈ g.map fun d => groupSelection sql false cols [d], ∃ f ∈ x.filter, l ∈ f.2} = groupLiterals sql false g := by
  ext l
  constructor
  · rintro ⟨x, hx, f, hf, hl⟩
    obtain ⟨d, hd, rfl⟩ := List.mem_map.mp hx
    obtain ⟨f', -, rfl⟩ := Option.map_eq_some_iff.mp hf
    obtain ⟨d', hd', h1⟩ := hl
    rw [List.mem_singleton.mp hd'] at h1
    exact ⟨d, hd, h1⟩
  · rintro ⟨d, hd, f, hf, h1⟩
    refine ⟨_, List.mem_map_of_mem hd, _, Option.mem_map_of_mem _ (a := f) ?_, d, List.mem_singleton.mpr rfl, f, hf, h1⟩
    rw [firstFilter_singleton]
    exact hf

/-- One query can stand for a group just where its selection stands for those of the members. -/
theorem stands_iff_mergesExactly (many : Bool) (cols : List Text) (g : List SourceDataset) :
    (groupSelection sql many cols g).Stands (g.map fun d => groupSelection sql false cols [d]) ↔
      MergesExactly sql many cols g := by
  have hcols : ∀ d : SourceDataset, (groupSelection sql false cols [d]).exprs = (groupSelection sql many cols g).exprs ↔
      ∀ col ∈ cols, sql.expr (codeOf (indentTokens (selectValue d.select col).expr)) =
        sql.expr (spelled many (indentTokens (firstSelect g col).expr)) := by
    intro d
    simp only [← firstSelect_singleton]
    exact List.map_inj_left
  have hfilter : ∀ d : SourceDataset, (groupSelection sql false cols [d]).filter.map Prod.fst =
      d.filter.map fun f => sql.expr (codeOf f.col) := by
    intro d
    rw [← firstFilter_singleton]
    exact Option.map_map ..
  have hgroup : (groupSelection sql many cols g).filter.map Prod.fst =
      (firstFilter g).map fun f => sql.expr (spelled many f.col) := Option.map_map ..
  constructor
  · rintro ⟨h1, h2⟩
    have hreads := fun d hd hsel => h1 _ (List.mem_map_of_mem hd) ((satisfiable_leaf sql cols d).mpr hsel)
    refine ⟨fun d hd hsel => (hreads d hd hsel).1, fun d hd hsel => (hcols d).mp (hreads d hd hsel).2.1,
      fun d hd hsel => ?_, ?_⟩
    · rw [← hfilter, ← hgroup]
      exact (hreads d hd hsel).2.2
    · cases hf : firstFilter g with
      | none =>
        have hempty : ∀ many', groupLiterals sql many' g = ∅ := by
          intro many'
          refine Set.eq_empty_of_forall_notMem ?_
          rintro l ⟨d, hd, f, hf', -⟩
          rw [firstFilter_eq_none.mp hf d hd] at hf'
          cases hf'
        rw [hempty, hempty]
      | some f =>
        rw [← leafLiterals_eq sql cols]
        exact h2 _ (Option.mem_map_of_mem _ hf)
  · rintro ⟨h1, h2, h3, h4⟩
    refine ⟨?_, ?_⟩
    · intro x hx hsat
      obtain ⟨d, hd, rfl⟩ := List.mem_map.mp hx
      have hsel := (satisfiable_leaf sql cols d).mp hsat
      exact ⟨h1 d hd hsel, (hcols d).mpr (h2 d hd hsel), by rw [hfilter, hgroup]; exact h3 d hd hsel⟩
    · intro f hf
      obtain ⟨f', -, rfl⟩ := Option.map_eq_some_iff.mp hf
      rw [leafLiterals_eq]
      exact h4

end LynxTrace.Ui
