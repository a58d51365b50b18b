import LynxTrace.Ui.Dataset
import Mathlib.Data.Set.Lattice

/-!
# Ui.DatasetMeaning — the rows that a query of datasets denotes

SQLite's reading of the pieces of a text is a parameter, and so are the contents of the tables.
-/

namespace LynxTrace.Ui

/-- What the tokens of a FROM clause, an expression and a literal stand for; no value equals NULL. -/
structure Reading (S C L : Type*) where
  source : List Text → Set (List Text) → S
  expr : List Text → C
  literal : List Text → Option L

/-- The rows of each source, the value of each column in a row, and which literals it equals. -/
structure Database (S C L : Type) where
  Row : Type
  Cell : Type
  rows : S → Set Row
  cell : Row → C → Cell
  equals : Cell → L → Prop

/-- A SELECT statement, as it is read. -/
structure Selection (S C L : Type) where
  source : S
  exprs : List C
  filter : Option (C × Set L)

variable {S C L : Type}

namespace Selection

def denote (x : Selection S C L) (db : Database S C L) : Set (List db.Cell) :=
  {cells | ∃ row ∈ db.rows x.source,
    (∀ f ∈ x.filter, ∃ l ∈ f.2, db.equals (db.cell row f.1) l) ∧ cells = x.exprs.map (db.cell row)}

def Satisfiable (x : Selection S C L) : Prop := ∀ f ∈ x.filter, f.2.Nonempty

/-- `m` reads what every satisfiable one of `xs` reads, and asks for the same literals. -/
structure Stands (m : Selection S C L) (xs : List (Selection S C L)) : Prop where
  reads : ∀ x ∈ xs, x.Satisfiable →
    x.source = m.source ∧ x.exprs = m.exprs ∧ x.filter.map Prod.fst = m.filter.map Prod.fst
  literals : ∀ f ∈ m.filter, f.2 = {l | ∃ x ∈ xs, ∃ f' ∈ x.filter, l ∈ f'.2}

theorem Satisfiable.of_mem {x : Selection S C L} {db : Database S C L} {cells : List db.Cell}
    (h : cells ∈ x.denote db) : x.Satisfiable := by
  obtain ⟨row, -, h1, -⟩ := h
  intro f hf
  obtain ⟨l, hl, -⟩ := h1 f hf
  exact ⟨l, hl⟩

variable {m : Selection S C L} {xs : List (Selection S C L)}

theorem Stands.denote_eq (h : Stands m xs) (hne : xs ≠ []) (hnone : m.filter = none → ∀ x ∈ xs, x.filter = none)
    (db : Database S C L) : m.denote db = {cells | ∃ x ∈ xs, cells ∈ x.denote db} := by
  ext cells
  constructor
  · rintro ⟨row, hrow, h1, rfl⟩
    cases hm : m.filter with
    | none =>
      obtain ⟨x, hx⟩ := List.exists_mem_of_ne_nil xs hne
      have hx' := hnone hm x hx
      obtain ⟨h2, h3, -⟩ := h.reads x hx (by rw [Satisfiable, hx']; exact nofun)
      exact ⟨x, hx, row, h2 ▸ hrow, by rw [hx']; exact nofun, by rw [h3]⟩
    | some f =>
      obtain ⟨l, hl, h2⟩ := h1 f hm
      rw [h.literals f hm] at hl
      obtain ⟨x, hx, f', hf', hl'⟩ := hl
      have hsat : x.Satisfiable := by
        intro g hg
        obtain rfl : f' = g := Option.mem_unique hf' hg
        exact ⟨l, hl'⟩
      obtain ⟨h3, h4, h5⟩ := h.reads x hx hsat
      rw [hm, Option.mem_def.mp hf'] at h5
      refine ⟨x, hx, row, h3 ▸ hrow, ?_, by rw [h4]⟩
      intro g hg
      obtain rfl : f' = g := Option.mem_unique hf' hg
      exact ⟨l, hl', by rwa [show f'.1 = f.1 from Option.some.inj h5]⟩
  · rintro ⟨x, hx, hcells⟩
    obtain ⟨h1, h2, h3⟩ := h.reads x hx (.of_mem hcells)
    obtain ⟨row, hrow, h4, rfl⟩ := hcells
    refine ⟨row, h1 ▸ hrow, ?_, by rw [h2]⟩
    intro f hf
    rw [Option.mem_def.mp hf] at h3
    obtain ⟨f', hf', h5⟩ := Option.map_eq_some_iff.mp h3
    obtain ⟨l, hl, h6⟩ := h4 f' hf'
    refine ⟨l, ?_, by rwa [← h5]⟩
    rw [h.literals f hf]
    exact ⟨x, hx, f', hf', hl⟩

/-- One row, whose columns are told apart. -/
def oneRow (s : S) (holds : C → L → Prop) : Database S C L where
  Row := Unit
  Cell := C
  rows s' := {_row | s' = s}
  cell _ c := c
  equals := holds

theorem mem_denote_oneRow {x : Selection S C L} {s : S} {holds : C → L → Prop} {cells : List C} :
    cells ∈ x.denote (oneRow s holds) ↔
      x.source = s ∧ (∀ f ∈ x.filter, ∃ l ∈ f.2, holds f.1 l) ∧ cells = x.exprs := by
  constructor
  · rintro ⟨_, h1, h2, rfl⟩
    exact ⟨h1, h2, List.map_id _⟩
  · rintro ⟨h1, h2, rfl⟩
    exact ⟨(), h1, h2, (List.map_id _).symm⟩

/-- One-row databases tell a selection that does not stand for the others. -/
theorem Stands.of_denote_eq (hnone : m.filter = none → ∀ x ∈ xs, x.filter = none)
    (h : ∀ db, m.denote db = {cells | ∃ x ∈ xs, cells ∈ x.denote db}) : Stands m xs := by
  have hmem : ∀ s holds cells, cells ∈ m.denote (oneRow s holds) ↔ ∃ x ∈ xs, cells ∈ x.denote (oneRow s holds) :=
    fun s holds cells => by rw [h]; rfl
  have hsub : ∀ x ∈ xs, ∀ f ∈ x.filter, ∀ l ∈ f.2, ∃ f' ∈ m.filter, f'.1 = f.1 ∧ l ∈ f'.2 := by
    intro x hx f hf l hl
    have h1 : x.exprs ∈ x.denote (oneRow x.source fun c l' => c = f.1 ∧ l' = l) := by
      refine mem_denote_oneRow.mpr ⟨rfl, ?_, rfl⟩
      intro g hg
      obtain rfl : f = g := Option.mem_unique hf hg
      exact ⟨l, hl, rfl, rfl⟩
    obtain ⟨-, h2, -⟩ := mem_denote_oneRow.mp ((hmem _ _ _).mpr ⟨x, hx, h1⟩)
    cases hm : m.filter with
    | none =>
      rw [hnone hm x hx] at hf
      cases hf
    | some f' =>
      obtain ⟨_, hl', h3, rfl⟩ := h2 f' hm
      exact ⟨f', rfl, h3, hl'⟩
  refine ⟨fun x hx hsat => ?_, fun f hf => ?_⟩
  · have h1 : x.exprs ∈ x.denote (oneRow x.source fun _ _ => True) := by
      refine mem_denote_oneRow.mpr ⟨rfl, fun f hf => ?_, rfl⟩
      obtain ⟨l, hl⟩ := hsat f hf
      exact ⟨l, hl, trivial⟩
    obtain ⟨h2, -, h3⟩ := mem_denote_oneRow.mp ((hmem _ _ _).mpr ⟨x, hx, h1⟩)
    refine ⟨h2.symm, h3, ?_⟩
    cases hxf : x.filter with
    | none =>
      have h4 : x.exprs ∈ x.denote (oneRow x.source fun _ _ => False) :=
        mem_denote_oneRow.mpr ⟨rfl, by rw [hxf]; exact nofun, rfl⟩
      obtain ⟨-, h5, -⟩ := mem_denote_oneRow.mp ((hmem _ _ _).mpr ⟨x, hx, h4⟩)
      cases hm : m.filter with
      | none => rfl
      | some f =>
        obtain ⟨l, -, h6⟩ := h5 f hm
        exact h6.elim
    | some f =>
      obtain ⟨l, hl⟩ := hsat f hxf
      obtain ⟨f', hf', h4, -⟩ := hsub x hx f hxf l hl
      rw [Option.mem_def.mp hf']
      exact congrArg some h4.symm
  · ext l
    constructor
    · intro hl
      have h1 : m.exprs ∈ m.denote (oneRow m.source fun c l' => c = f.1 ∧ l' = l) := by
        refine mem_denote_oneRow.mpr ⟨rfl, ?_, rfl⟩
        intro g hg
        obtain rfl : f = g := Option.mem_unique hf hg
        exact ⟨l, hl, rfl, rfl⟩
      obtain ⟨x, hx, h2⟩ := (hmem _ _ _).mp h1
      obtain ⟨-, h3, -⟩ := mem_denote_oneRow.mp h2
      cases hxf : x.filter with
      | none =>
        have h4 : x.exprs ∈ x.denote (oneRow x.source fun _ _ => False) :=
          mem_denote_oneRow.mpr ⟨rfl, by rw [hxf]; exact nofun, rfl⟩
        obtain ⟨-, h5, -⟩ := mem_denote_oneRow.mp ((hmem _ _ _).mpr ⟨x, hx, h4⟩)
        obtain ⟨_, -, h6⟩ := h5 f hf
        exact h6.elim
      | some f' =>
        obtain ⟨_, hl', -, rfl⟩ := h3 f' hxf
        exact ⟨x, hx, f', hxf, hl'⟩
    · rintro ⟨x, hx, f', hf', hl⟩
      obtain ⟨g, hg, -, hl'⟩ := hsub x hx f' hf' l hl
      obtain rfl : f = g := Option.mem_unique hf hg
      exact hl'

theorem stands_iff (hne : xs ≠ []) (hnone : m.filter = none → ∀ x ∈ xs, x.filter = none) :
    (∀ db, m.denote db = {cells | ∃ x ∈ xs, cells ∈ x.denote db}) ↔ Stands m xs :=
  ⟨.of_denote_eq hnone, fun h db => h.denote_eq hne hnone db⟩

end Selection

/-! ### Statements and unions -/

section

variable (sql : Reading S C L)

def Where.selected : Where → C × Set L
  | .eq col value => (sql.expr (codeOf col), {l | sql.literal (codeOf value) = some l})
  | .isIn col values => (sql.expr (codeOf col), {l | ∃ value ∈ values, sql.literal (codeOf value) = some l})

def SelectStmt.selection (s : SelectStmt) : Selection S C L where
  source := sql.source (codeOf s.src) {j | ∃ join ∈ s.joins, j = codeOf join}
  exprs := s.columns.map fun c => sql.expr (codeOf c.expr)
  filter := s.filter.map (·.selected sql)

def SelectStmt.denote (s : SelectStmt) (db : Database S C L) : Set (List db.Cell) := (s.selection sql).denote db

/-- SQLite's limit on the terms of a compound SELECT. -/
def maxCompoundSelect : Nat := 500

def compoundRows (stmts : List SelectStmt) (db : Database S C L) : Set (List db.Cell) :=
  {cells | ∃ s ∈ stmts, cells ∈ s.denote sql db}

/-- The names of the columns of a compound are those of its first term. -/
def columnNames (stmts : List SelectStmt) : List Text := (stmts.head?.map fun s => s.columns.map (·.name)).getD []

/-- The rows of a query, unless SQLite rejects it. -/
noncomputable def UnionQuery.denote (q : UnionQuery) (db : Database S C L) : Option (Set (List db.Cell)) :=
  open Classical in
  match q with
  | .compound subQueries =>
    if subQueries.length ≤ maxCompoundSelect then some (compoundRows sql subQueries db) else none
  | .withBatches batches cols =>
    if batches.length ≤ maxCompoundSelect ∧
        ∀ batch ∈ batches, batch.length ≤ maxCompoundSelect ∧ ∀ col ∈ cols, col ∈ columnNames batch then
      some {cells | ∃ batch ∈ batches, ∃ inner ∈ compoundRows sql batch db,
        cells = cols.filterMap fun col => inner[(columnNames batch).idxOf col]?}
    else none

def UnionQuery.statements : UnionQuery → List SelectStmt
  | .compound subQueries => subQueries
  | .withBatches batches _ => batches.flatten

/-- The rows of a leaf, by its own query. -/
def SourceDataset.denote (d : SourceDataset) (cols : List Text) (db : Database S C L) : Set (List db.Cell) :=
  {cells | ∃ s, d.query cols = .ok s ∧ cells ∈ s.denote sql db}

end

end LynxTrace.Ui
