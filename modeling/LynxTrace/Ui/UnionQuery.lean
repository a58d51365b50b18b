import LynxTrace.Ui.DatasetUnion

/-!
# Ui.UnionQuery — the text that `UnionDataset.query` produces
-/

namespace LynxTrace.Ui

variable {S C L : Type} (sql : Reading S C L)

/-! ### One compound, or a compound of batches -/

/-- `query` selects the same names in all its statements. -/
def SelectsNames (cols : List Text) (s : SelectStmt) : Prop :=
  ∃ column : Text → SelectedColumn, s.columns = cols.map column ∧ ∀ col, (column col).name = indentText col

theorem SourceDataset.query_selectsNames {d : SourceDataset} {cols : List Text} {s : SelectStmt}
    (h : d.query cols = .ok s) : SelectsNames cols s :=
  ⟨_, (query_ok h).1, fun _ => rfl⟩

/-- SQLite accepts a union of `n` queries. -/
def Accepted (n : Nat) (cols : List Text) : Prop :=
  maxSubqueriesPerUnion < n → (∀ col ∈ cols, '\n' ∉ col) ∧ n ≤ maxSubqueriesPerUnion * maxCompoundSelect

def batched (n : Nat) : Bool := maxSubqueriesPerUnion < n

section

variable {cols : List Text} {stmts : List SelectStmt}

theorem unionOf_statements (stmts : List SelectStmt) (cols : List Text) :
    (unionOf stmts cols).statements = stmts.map (placed (batched stmts.length)) := by
  rw [unionOf]
  split_ifs with h
  · rw [batched, decide_eq_false (Nat.not_lt.mpr h)]
    exact (List.map_id _).symm
  · rw [batched, decide_eq_true (Nat.lt_of_not_le h)]
    exact flatten_slices maxSubqueriesPerUnion_pos _

theorem columnNames_batch (hcols : ∀ s ∈ stmts, SelectsNames cols s) {batch : List SelectStmt}
    (h : batch ∈ slices maxSubqueriesPerUnion (stmts.map (·.indent))) :
    columnNames batch = cols.map fun col => indentText (indentText col) := by
  obtain ⟨-, hne⟩ := slices_spec maxSubqueriesPerUnion_pos h
  obtain ⟨s', batch', rfl⟩ := List.exists_cons_of_ne_nil hne
  have hmem : s' ∈ stmts.map (·.indent) := by
    rw [← flatten_slices maxSubqueriesPerUnion_pos (stmts.map _)]
    exact List.mem_flatten.mpr ⟨_, h, List.mem_cons_self⟩
  obtain ⟨s, hs, rfl⟩ := List.mem_map.mp hmem
  obtain ⟨column, h1, h2⟩ := hcols s hs
  show (s.columns.map (·.indent)).map (·.name) = _
  rw [h1, List.map_map, List.map_map]
  refine List.map_congr_left fun col _ => ?_
  show indentText (column col).name = _
  rw [h2]

theorem project_eq {A : Type*} (cols : List Text) (f : Text → A) :
    (cols.filterMap fun col => (cols.map f)[cols.idxOf col]?) = cols.map f := by
  have h : ∀ col ∈ cols, (cols.map f)[cols.idxOf col]? = some (f col) := by
    intro col hcol
    rw [List.getElem?_map, List.getElem?_eq_getElem (List.idxOf_lt_length_of_mem hcol), List.getElem_idxOf]
    rfl
  rw [List.filterMap_congr h]
  exact congrFun List.filterMap_eq_map cols

theorem unionOf_denote (hcols : ∀ s ∈ stmts, SelectsNames cols s) (h : Accepted stmts.length cols)
    (db : Database S C L) : (unionOf stmts cols).denote sql db =
      some {cells | ∃ s ∈ stmts, cells ∈ (placed (batched stmts.length) s).denote sql db} := by
  rw [unionOf]
  split_ifs with hle
  · rw [batched, decide_eq_false (Nat.not_lt.mpr hle)]
    exact if_pos hle
  · have hlt := Nat.lt_of_not_le hle
    obtain ⟨hnl, hmax⟩ := h hlt
    have hnames : cols.map indentText = cols :=
      (List.map_congr_left fun col hcol => indentText_eq_self (hnl col hcol)).trans (List.map_id _)
    have hbatch : ∀ batch ∈ slices maxSubqueriesPerUnion (stmts.map (·.indent)), columnNames batch = cols := by
      intro batch hb
      rw [columnNames_batch hcols hb]
      refine (List.map_congr_left fun col hcol => ?_).trans (List.map_id _)
      rw [indentText_eq_self (hnl col hcol)]
      exact indentText_eq_self (hnl col hcol)
    have hcells : ∀ s ∈ stmts, ∀ cells ∈ s.indent.denote sql db,
        (cols.filterMap fun col => cells[cols.idxOf col]?) = cells := by
      rintro s hs _ ⟨row, -, -, rfl⟩
      obtain ⟨column, h1, -⟩ := hcols s hs
      have h2 : (s.indent.selection sql).exprs.map (db.cell row) =
          cols.map fun col => db.cell row (sql.expr (codeOf (column col).indent.expr)) := by
        show ((s.columns.map (·.indent)).map _).map _ = _
        rw [h1, List.map_map, List.map_map, List.map_map]
        rfl
      rw [h2, project_eq]
    have hmem : ∀ s', (∃ batch ∈ slices maxSubqueriesPerUnion (stmts.map (·.indent)), s' ∈ batch) ↔
        s' ∈ stmts.map (·.indent) := by
      intro s'
      rw [← List.mem_flatten, flatten_slices maxSubqueriesPerUnion_pos]
    rw [batched, decide_eq_true hlt, UnionQuery.denote, if_pos ?_]
    · refine congrArg some (Set.ext fun cells => ?_)
      rw [hnames]
      constructor
      · rintro ⟨batch, hb, inner, ⟨s', hs', h1⟩, rfl⟩
        obtain ⟨s, hs, rfl⟩ := List.mem_map.mp ((hmem s').mp ⟨batch, hb, hs'⟩)
        rw [hbatch batch hb, hcells s hs inner h1]
        exact ⟨s, hs, h1⟩
      · rintro ⟨s, hs, h1⟩
        obtain ⟨batch, hb, hs'⟩ := (hmem s.indent).mpr (List.mem_map_of_mem hs)
        refine ⟨batch, hb, cells, ⟨s.indent, hs', h1⟩, ?_⟩
        rw [hbatch batch hb, hcells s hs cells h1]
    · refine ⟨?_, fun batch hb => ⟨(slices_spec maxSubqueriesPerUnion_pos hb).1, fun col hcol => ?_⟩⟩
      · rw [length_slices_le maxSubqueriesPerUnion_pos, List.length_map]
        exact hmax
      · rw [hbatch batch hb]
        rwa [hnames] at hcol

/-- What SQLite accepts. -/
theorem accepted_of_denote (hcols : ∀ s ∈ stmts, SelectsNames cols s) {db : Database S C L}
    (h : (unionOf stmts cols).denote sql db ≠ none) : Accepted stmts.length cols := by
  intro hlt
  rw [unionOf, if_neg (Nat.not_le.mpr hlt), UnionQuery.denote] at h
  have hcond := of_not_not fun hneg => h (if_neg hneg)
  obtain ⟨h1, h2⟩ := hcond
  rw [length_slices_le maxSubqueriesPerUnion_pos, List.length_map] at h1
  constructor
  · rw [← indented_names_iff]
    intro col hcol
    have hne : slices maxSubqueriesPerUnion (stmts.map (·.indent)) ≠ [] := by
      intro hnil
      have h3 := flatten_slices maxSubqueriesPerUnion_pos (stmts.map (·.indent))
      rw [hnil] at h3
      have h4 : (stmts.map (·.indent)).length = 0 := by rw [← h3]; rfl
      rw [List.length_map] at h4
      omega
    obtain ⟨batch, hb⟩ := List.exists_mem_of_ne_nil _ hne
    rw [← columnNames_batch hcols hb]
    exact (h2 batch hb).2 col hcol
  · exact h1

end

/-! ### The union of the leaves -/

/-- The columns that a query is asked for. -/
def requestedColumns (members : List Dataset) (schema : Option DatasetSchema) : List Text :=
  (schema.getD (Dataset.union members).schema).keys

/-- The query denotes what the leaves denote together, and each of its statements what the leaves do that it was merged
from. -/
structure PreservesUnion (leaves : List SourceDataset) (cols : List Text) (q : UnionQuery) : Prop where
  merges : List.Forall₂ (fun g s => ∀ db, s.denote sql db = {cells | ∃ d ∈ g, cells ∈ d.denote sql cols db})
    (srcGroups leaves) q.statements
  denotes : ∀ db, q.denote sql db = some {cells | ∃ d ∈ leaves, cells ∈ d.denote sql cols db}

/-- The members of every group can be merged, and SQLite accepts so many groups. -/
structure UnionMerges (leaves : List SourceDataset) (cols : List Text) : Prop where
  groups : ∀ g ∈ srcGroups leaves, MergesExactly sql (batched (srcGroups leaves).length) cols g
  accepted : Accepted (srcGroups leaves).length cols

section

variable {leaves : List SourceDataset} {cols : List Text}

/-- A merged dataset can be queried where each member can. -/
theorem mergeGroup_query_ok {g : List SourceDataset} (hok : ∀ d ∈ g, ∃ s, d.query cols = .ok s) :
    ∃ s, (mergeGroup g).query cols = .ok s := by
  have hliteral : ∀ d ∈ g, ∀ f ∈ d.filter, ∀ v ∈ f.values, ∃ lit, literal v = .ok lit := by
    intro d hd f hf v hv
    obtain ⟨s, hs⟩ := hok d hd
    rcases (SourceDataset.query_ok hs).2.2.2 with ⟨h1, -⟩ | ⟨f', w, h1, h2, -⟩
    · rw [h1] at hf
      cases hf
    · obtain rfl : f' = f := Option.some.inj (h1.symm.trans hf)
      cases f' with
      | eq col value =>
        obtain rfl := List.mem_singleton.mp hv
        obtain ⟨lit, h3, -⟩ := except_map_ok.mp h2
        exact ⟨lit, h3⟩
      | isIn col values =>
        obtain ⟨lits, h3, -⟩ := except_map_ok.mp h2
        obtain ⟨lit, -, h4⟩ := mem_of_mapExcept h3 hv
        exact ⟨lit, h4⟩
  unfold SourceDataset.query
  split
  · exact ⟨_, rfl⟩
  · rename_i f hf
    have hvalues : ∀ v ∈ f.values, ∃ lit, literal v = .ok lit := by
      intro v hv
      obtain ⟨d, hd, f', hf', hv'⟩ := (mem_mergeGroup_filter g v).mp ⟨f, hf, hv⟩
      exact hliteral d hd f' hf' v hv'
    have hwhere : ∃ w, filterQuery f = .ok w := by
      cases f with
      | eq col value =>
        obtain ⟨lit, h1⟩ := hvalues value (List.mem_singleton.mpr rfl)
        exact ⟨_, except_map_ok.mpr ⟨lit, h1, rfl⟩⟩
      | isIn col values =>
        obtain ⟨lits, h1⟩ := exists_mapExcept hvalues
        exact ⟨_, except_map_ok.mpr ⟨lits, h1, rfl⟩⟩
    obtain ⟨w, h1⟩ := hwhere
    exact ⟨_, except_map_ok.mpr ⟨w, h1, rfl⟩⟩

/-- The statement of a group denotes what the members do just where they can be merged. -/
theorem merges_iff {g : List SourceDataset} {s : SelectStmt} (many : Bool) (hne : g ≠ [])
    (hok : ∀ d ∈ g, ∃ s, d.query cols = .ok s) (h : (mergeGroup g).query cols = .ok s) :
    (∀ db, (placed many s).denote sql db = {cells | ∃ d ∈ g, cells ∈ d.denote sql cols db}) ↔
      MergesExactly sql many cols g := by
  have hleaf : ∀ d ∈ g, ∀ db : Database S C L, d.denote sql cols db = (groupSelection sql false cols [d]).denote db := by
    intro d hd db
    obtain ⟨s', hs'⟩ := hok d hd
    rw [← leaf_query sql hs']
    ext cells
    constructor
    · rintro ⟨s'', h1, h2⟩
      rw [hs'] at h1
      cases h1
      exact h2
    · intro h2
      exact ⟨s', hs', h2⟩
  have hleaves : ∀ db : Database S C L, {cells | ∃ d ∈ g, cells ∈ d.denote sql cols db} =
      {cells | ∃ x ∈ g.map fun d => groupSelection sql false cols [d], cells ∈ x.denote db} := by
    intro db
    ext cells
    constructor
    · rintro ⟨d, hd, h1⟩
      rw [hleaf d hd] at h1
      exact ⟨_, List.mem_map_of_mem hd, h1⟩
    · rintro ⟨x, hx, h1⟩
      obtain ⟨d, hd, rfl⟩ := List.mem_map.mp hx
      refine ⟨d, hd, ?_⟩
      rwa [hleaf d hd]
  have hnone : (groupSelection sql many cols g).filter = none →
      ∀ x ∈ g.map fun d => groupSelection sql false cols [d], x.filter = none := by
    intro h1 x hx
    obtain ⟨d, hd, rfl⟩ := List.mem_map.mp hx
    have h2 := firstFilter_eq_none.mp (Option.map_eq_none_iff.mp h1) d hd
    show (firstFilter [d]).map _ = none
    rw [firstFilter_singleton, h2]
    rfl
  have hmap : (g.map fun d => groupSelection sql false cols [d]) ≠ [] := fun h1 => hne (List.map_eq_nil_iff.mp h1)
  rw [← stands_iff_mergesExactly, ← Selection.stands_iff hmap hnone]
  refine forall_congr' fun db => ?_
  rw [hleaves, SelectStmt.denote, mergeGroup_query sql many h]

/-- What holds of the pairs of two lists, told by the first components. -/
theorem forall₂_iff_of_forall₂ {A B : Type*} {Q R : A → B → Prop} {P : A → Prop} {as : List A} {bs : List B}
    (hQ : List.Forall₂ Q as bs) (h : ∀ a ∈ as, ∀ b, Q a b → (R a b ↔ P a)) : List.Forall₂ R as bs ↔ ∀ a ∈ as, P a := by
  induction hQ with
  | nil => exact ⟨fun _ => nofun, fun _ => .nil⟩
  | cons h1 h2 ih =>
    rw [List.forall₂_cons, List.forall_mem_cons, h _ List.mem_cons_self _ h1,
      ih fun a ha => h a (List.mem_cons_of_mem _ ha)]

end

/-! ### Leaves of one source, one of them unfiltered -/

/-- Each text stands for itself. -/
def plainReading : Reading (List Text × Set (List Text)) (List Text) (List Text) where
  source src joins := (src, joins)
  expr text := text
  literal text := if text = ["NULL".toList] then none else some text

def sliceDataset (filter : Option Filter) : SourceDataset where
  src := [code "slice"]
  schema := OrderedMap.empty.set "id".toList .num
  filter := filter
  select := none
  joins := .empty

def sliceMembers : List Dataset :=
  [.source (sliceDataset none), .source (sliceDataset (some (.eq [code "track_id"] (.number ['1']))))]

theorem sliceMembers_ok : ∀ d ∈ flattenUnion sliceMembers,
    ∃ s, d.query (requestedColumns sliceMembers none) = .ok s := by
  intro d hd
  rcases List.mem_cons.mp hd with rfl | hd
  · exact ⟨_, rfl⟩
  · obtain rfl := List.mem_singleton.mp hd
    exact ⟨_, rfl⟩

/-- The leaves of one source and joins agree on the expression of each column. -/
def SelectsAgree (leaves : List SourceDataset) (cols : List Text) : Prop :=
  ∀ d ∈ leaves, ∀ d' ∈ leaves, codeOf d.src = codeOf d'.src → d.joins.keys.Perm d'.joins.keys →
    ∀ col ∈ cols, codeOf (selectValue d.select col).expr = codeOf (selectValue d'.select col).expr

end LynxTrace.Ui
