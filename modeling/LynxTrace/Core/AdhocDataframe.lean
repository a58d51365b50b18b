import LynxTrace.Core.AdhocCells
import LynxTrace.TraceProcessor.DoubleValue

/-!
# Core.AdhocDataframe — a built dataframe holds what was pushed to the builder
-/

namespace LynxTrace.TraceProcessor.Core

/-! ### Cells -/

/-- The element of a row with a set bit: behind as many elements as there are set bits before it. -/
def SparseNull.cell (nulls : SparseNull) (storage : Storage) (row : ℕ) : Option (Option Value) :=
  if nulls.bitVector.isSet row then (storage.get (nulls.bitVector.rank row)).map some else some none

/-- What a row of the column holds, in each way of storing nulls. -/
def Column.cell (c : Column) (row : ℕ) : Option (Option Value) :=
  match c.nullStorage with
  | .nonNull => (c.storage.get row).map some
  | .denseNull bv => if bv.isSet row then (c.storage.get row).map some else some none
  | .sparseNull nulls => nulls.cell c.storage row
  | .sparseNullWithPopcountAlways nulls => nulls.cell c.storage row
  | .sparseNullWithPopcountUntilFinalization nulls => nulls.cell c.storage row

theorem SparseHolds.cell {storage : Storage} {nulls : SparseNull} {cells : List (Option Value)}
    (h : SparseHolds storage nulls cells) {row : ℕ} {t : Option Value} (ht : cells[row]? = some t) :
    nulls.cell storage row = some t := by
  unfold SparseNull.cell
  rw [h.isSet ht]
  cases t with
  | none => rfl
  | some v =>
    have hvalues := h.values
    rw [split_at ht, List.reduceOption_append, List.reduceOption_cons_of_some] at hvalues
    rw [if_pos Option.isSome_some, h.rank, Storage.get_eq, hvalues, List.getElem?_append_right (Nat.le_refl _), Nat.sub_self]
    rfl

/-- What a row holds is what the column denotes. -/
theorem Denotes.cell {c : Column} {a : ValueColumn} (h : Denotes c a) {row : ℕ} {t : Option Value}
    (ht : a.cells[row]? = some t) : c.cell row = some t := by
  cases hkind : c.nullStorage with
  | nonNull =>
    have hnulls := h.nulls
    rw [hkind] at hnulls
    unfold Column.cell
    rw [← hnulls.2, List.getElem?_map] at ht
    rw [hkind, ← ht, Storage.get_eq]
  | denseNull bv =>
    have hnulls := h.nulls
    rw [hkind] at hnulls
    unfold Column.cell
    rw [hkind]
    dsimp only
    rw [BitVector.isSet, hnulls.2.bits, List.getD_eq_getElem?_getD, List.getElem?_map, ht]
    cases t with
    | none => rfl
    | some v => exact congrArg (Option.map some) ((c.storage.get_eq row).trans (hnulls.2.values row v ht))
  | sparseNull nulls =>
    have hnulls := h.nulls
    rw [hkind] at hnulls
    unfold Column.cell
    rw [hkind]
    exact hnulls.2.cell ht
  | sparseNullWithPopcountAlways nulls | sparseNullWithPopcountUntilFinalization nulls =>
    have hnulls := h.nulls
    rw [hkind] at hnulls
    unfold Column.cell
    rw [hkind]
    exact hnulls.2.1.cell ht

/-- The nullability of a column with nulls. -/
def NullabilityType.nullability : NullabilityType → Nullability
  | kSparseNull => .sparseNull
  | kSparseNullWithPopcount => .sparseNullWithPopcountAlways
  | kDenseNull => .denseNull

/-- The types of storage for a type of column. -/
def AdhocColumnType.Stores : AdhocColumnType → StorageType → Prop
  | kInt64, t => t.IsInteger
  | kDouble, t => t = .double
  | kString, t => t = .string

namespace AdhocColumn

variable {n : NullabilityType} {a : AdhocColumn} {pool : StringPool}

/-- The cells as optional values of the chosen type. -/
def values (a : AdhocColumn) : List (Option Value) := a.cells.map (Option.map (AdhocValue.as (a.type.getD .kInt64)))

/-- The column holds the cells that were pushed, and what it records of them is true. -/
structure BuiltAs (pool : StringPool) (n : NullabilityType) (a : AdhocColumn) (c : Column) : Prop where
  cell : ∀ row t, a.values[row]? = some t → c.cell row = some t
  /-- `GetCell` reads it, where it is supported. -/
  getCell : (a.nullable = true → n ≠ .kSparseNull) → ∀ row t, a.values[row]? = some t → c.getCell row = some t
  layout : ∀ type, a.type = some type → type.Stores c.storage.type ∧
    Denotes c ⟨c.storage.type, if a.nullable then n.nullability else .nonNull, a.values⟩
  /-- An integer in a column of doubles is the same number. -/
  exact : ∀ v, a.type = some .kDouble → some (.int64 v) ∈ a.cells → (Double.ofInt v.toInt).toRat = v.toInt
  metadata : c.MetadataTrue pool

theorem reduceOption_map (f : AdhocValue → Value) (d : Value) (cells : List (Option AdhocValue)) :
    (cells.filter Option.isSome).map (fun t => t.elim d f) = (cells.map (Option.map f)).reduceOption := by
  induction cells with
  | nil => rfl
  | cons t cells ih =>
    cases t with
    | none => exact ih
    | some v => exact congrArg (f v :: ·) ih

/-- The prefix counts are ranks. -/
theorem prefixPopcount_eq (bv : BitVector) : PrefixHolds ⟨bv, bv.prefixPopcount⟩ := by
  refine List.ext_getElem? fun w => ?_
  dsimp only
  rw [List.getElem?_map]
  rcases Nat.lt_or_ge w ((bv.size + 63) / 64) with hw | hw
  · rw [bv.prefixPopcount_getElem? (by omega), List.getElem?_range hw]
    rfl
  · have hlength : bv.prefixPopcount.length = (bv.size + 63) / 64 := bv.length_computePrefixPopcount ..
    rw [List.getElem?_eq_none (by omega), List.getElem?_eq_none (by rw [List.length_range]; exact hw)]
    rfl

/-- **Nullability.**  Storage with the elements of the cells holds the cells, in each way of storing nulls. -/
theorem Ok.denotes (h : a.Ok) {c : Column} {f : AdhocValue → Value} (d : Value)
    (hnull : c.nullStorage = createNullStorageFromBitvector (a.state n).nullOverlay n) (hwell : c.storage.WellTyped)
    (hvalues : c.storage.values = (a.elements n).map fun t => t.elim d f) :
    Denotes c ⟨c.storage.type, if a.nullable then n.nullability else .nonNull, a.cells.map (Option.map f)⟩ := by
  refine ⟨rfl, hwell, ?_⟩
  have hbits : (a.cells.map (Option.map f)).map Option.isSome = a.cells.map Option.isSome := by
    rw [List.map_map]
    exact List.map_congr_left fun t _ => Option.isSome_map
  rw [hnull]
  cases hnullable : a.nullable with
  | false =>
    simp only [state, hnullable, Bool.false_eq_true, if_false, createNullStorageFromBitvector, true_and]
    rw [hvalues, h.elements_eq hnullable, List.map_map]
    refine List.map_congr_left fun t ht => ?_
    cases t with
    | none => exact absurd ht (h.full hnullable)
    | some v => rfl
  | true =>
    have hsparse : n ≠ .kDenseNull → SparseHolds c.storage ⟨⟨a.cells.map Option.isSome⟩, []⟩ (a.cells.map (Option.map f)) := by
      intro hn
      refine ⟨hbits.symm, ?_⟩
      rw [hvalues, elements, if_neg hn]
      exact reduceOption_map f d a.cells
    simp only [state, hnullable, if_true]
    cases n with
    | kSparseNull => exact ⟨rfl, hsparse (by simp)⟩
    | kSparseNullWithPopcount =>
      obtain ⟨hbits, hvalues⟩ := hsparse (by simp)
      exact ⟨rfl, ⟨hbits, hvalues⟩, prefixPopcount_eq _⟩
    | kDenseNull =>
      rw [elements, if_pos rfl] at hvalues
      refine ⟨rfl, hbits.symm, ?_, fun r v hr => ?_⟩
      · rw [← Storage.length_values, hvalues, List.length_map, List.length_map]
      · rw [List.getElem?_map] at hr
        obtain ⟨t, ht, hv⟩ := Option.map_eq_some_iff.mp hr
        obtain ⟨w, rfl, rfl⟩ := Option.map_eq_some_iff.mp hv
        rw [hvalues, List.getElem?_map, ht]
        rfl

/-! ### Columns -/

/-- The elements of integer columns are `int64_t`. -/
theorem integers_range (n : NullabilityType) (a : AdhocColumn) : ∀ x ∈ a.integers n, -2 ^ 63 ≤ x ∧ x ≤ 2 ^ 63 - 1 := by
  intro x hx
  obtain ⟨t, -, rfl⟩ := List.mem_map.mp hx
  cases t with
  | none => exact ⟨by decide, by decide⟩
  | some v =>
    cases v with
    | int64 v =>
      have hmin := v.le_toInt
      have hmax := v.toInt_lt
      exact ⟨hmin, by simp only [Option.elim_some, AdhocValue.toInt]; omega⟩
    | double v | string v => exact ⟨by simp [AdhocValue.toInt], by simp [AdhocValue.toInt]⟩

theorem Ok.exact (h : a.Ok) {v : Int64} (htype : a.type = some .kDouble) (hv : some (.int64 v) ∈ a.cells) :
    (Double.ofInt v.toInt).toRat = v.toInt := by
  obtain ⟨hmin, hmax⟩ := of_decide_eq_true (show decide _ = true from h.fits _ _ htype hv)
  exact Double.toRat_ofInt hmin hmax

/-- A column of doubles or strings. -/
theorem plainColumn_spec {α : Type} {type : StorageType} {value : α → Value} {le : α → α → Bool} {data : List α}
    {nullStorage : NullStorage} {isNullable : Bool} (hsize : data.length < 2 ^ 32)
    (htyped : ∀ x, (value x).HasType type) (htrans : ∀ x y z, le x y = true → le y z = true → le x z = true)
    (hle : ∀ x y, le x y = true → (value x).AtMost pool (value y)) (hnull : isNullable = false → nullStorage = .nonNull) :
    ∃ c, plainColumn type value le data nullStorage isNullable = some c ∧ c.storage = .flex type (data.map value) ∧
      c.nullStorage = nullStorage ∧ c.MetadataTrue pool := by
  unfold plainColumn
  rw [if_neg (Nat.not_le.mpr hsize)]
  refine ⟨_, rfl, rfl, rfl, fun x hx => ?_, fun hstate => ?_, fun hstate => ?_, fun hstate => ?_, (nomatch ·), fun s hs => nomatch hs⟩
  · obtain ⟨y, -, rfl⟩ := List.mem_map.mp hx
    exact htyped y
  · dsimp only at hstate
    split_ifs at hstate with hsorted
    · obtain ⟨hsorted, hfull⟩ := (Bool.and_eq_true ..).mp hsorted
      exact ⟨hnull (by simpa using hfull), (isSortedBy_pairwise htrans hsorted).map value hle⟩
    · exact absurd rfl hstate
  · dsimp only at hstate
    split_ifs at hstate
  · dsimp only at hstate
    split_ifs at hstate

/-- The column cannot be built: a count of new bits wraps around, or the position behind the last small value. -/
def Unbuildable (n : NullabilityType) (a : AdhocColumn) : Prop :=
  a.type = some .kInt64 ∧ (CountWraps (a.integers n) ∨ a.nullable = false ∧ BackWraps (a.integers n))

theorem Ok.builtAs (h : a.Ok) (hrows : a.cells.length < 2 ^ 32) {type : AdhocColumnType} (htype : a.type = some type) {c : Column}
    (hstores : type.Stores c.storage.type) (hmetadata : c.MetadataTrue pool)
    (hcells : Denotes c ⟨c.storage.type, if a.nullable then n.nullability else .nonNull, a.values⟩) :
    a.BuiltAs pool n c where
  cell row t ht := hcells.cell ht
  getCell hn row t ht := by
    refine hcells.getCell ((List.length_map ..).trans_lt hrows) (fun hsparse => ?_) ht
    dsimp only at hsparse
    split_ifs at hsparse with hnullable
    cases n with
    | kSparseNull => exact hn hnullable rfl
    | kSparseNullWithPopcount => cases hsparse
    | kDenseNull => cases hsparse
  layout type' htype' := by
    obtain rfl := Option.some.inj (htype.symm.trans htype')
    exact ⟨hstores, hcells⟩
  exact v hdouble hv := h.exact hdouble hv
  metadata := hmetadata

/-- A column without any value: it has nulls only. -/
theorem Ok.builtAs_untyped (h : a.Ok) (htype : a.type = none) :
    a.BuiltAs pool n
      ⟨.flex .uint32 [], createNullStorageFromBitvector (a.state n).nullOverlay n, .unsorted, .hasDuplicates, none, 0⟩ := by
  have hcell : ∀ {row : ℕ} {t : Option Value}, a.values[row]? = some t → t = none ∧ a.nullable = true ∧
      BitVector.isSet ⟨a.cells.map Option.isSome⟩ row = false := by
    intro row t ht
    obtain ⟨u, hu, rfl⟩ := Option.map_eq_some_iff.mp (List.getElem?_map.symm.trans ht)
    obtain rfl := h.untyped htype u (List.mem_of_getElem? hu)
    refine ⟨rfl, Bool.eq_true_of_not_eq_false fun hfull => h.full hfull (List.mem_of_getElem? hu), ?_⟩
    rw [BitVector.isSet, List.getD_eq_getElem?_getD, List.getElem?_map, hu]
    rfl
  refine ⟨fun row t ht => ?_, fun hn row t ht => ?_, fun type' htype' => ?_, fun v hdouble => ?_, ?_⟩
  · obtain ⟨rfl, hnullable, hbit⟩ := hcell ht
    simp only [Column.cell, state, hnullable, if_true, createNullStorageFromBitvector]
    cases n <;> simp [SparseNull.cell, hbit]
  · obtain ⟨rfl, hnullable, hbit⟩ := hcell ht
    simp only [Column.getCell, state, hnullable, if_true, createNullStorageFromBitvector]
    cases n with
    | kSparseNull => exact absurd rfl (hn hnullable)
    | kSparseNullWithPopcount => simp [Column.getSparse, hbit]
    | kDenseNull => simp [hbit]
  · cases htype.symm.trans htype'
  · cases htype.symm.trans hdouble
  · exact ⟨fun x hx => absurd hx List.not_mem_nil, fun hstate => absurd rfl hstate,
      (fun hstate => by cases hstate), (fun hstate => by cases hstate), (fun hdup => by cases hdup),
      fun s hs => by cases hs⟩

/-- **One column.**  It is not built if something wraps around; otherwise it holds what was pushed. -/
theorem buildColumn_spec (pool : StringPool) (h : a.Ok) (hrows : a.cells.length < 2 ^ 32) :
    (a.Unbuildable n → (a.state n).buildColumn pool = none) ∧
      (¬ a.Unbuildable n → ∃ c, (a.state n).buildColumn pool = some c ∧ a.BuiltAs pool n c) := by
  have hlength : ∀ {α : Type} (f : Option AdhocValue → α), ((a.elements n).map f).length < 2 ^ 32 := fun f =>
    ((List.length_map f).trans_le length_elements).trans_lt hrows
  have hfull : (a.state n).nullOverlay.isSome = a.nullable := by
    unfold state
    cases a.nullable <;> rfl
  have hnull : a.nullable = false → createNullStorageFromBitvector (a.state n).nullOverlay n = .nonNull := fun hnullable => by
    simp [state, hnullable, createNullStorageFromBitvector]
  have hvalues : ∀ {type}, a.type = some type → a.values = a.cells.map (Option.map (AdhocValue.as type)) := fun htype => by
    rw [values, htype, Option.getD_some]
  unfold ColumnState.buildColumn
  rw [hfull]
  cases htype : a.type with
  | none =>
    refine ⟨fun hun => absurd (htype.symm.trans hun.1) (by simp), fun _ => ?_⟩
    simp only [state, htype, Option.map_none]
    exact ⟨_, rfl, h.builtAs_untyped htype⟩
  | some type =>
    have hstorage : (a.state n).storage = some (a.stored n type) := by rw [state, htype, Option.map_some]
    rw [hstorage]
    -- doubles and strings: the storage is what is kept
    have hplain : ∀ {α : Type} {t : StorageType} {value : α → Value} {le : α → α → Bool} {f : Option AdhocValue → α} {d : Value},
        t ≠ .id → type ≠ .kInt64 → type.Stores t → (∀ x, (value x).HasType t) →
        (∀ x y z, le x y = true → le y z = true → le x z = true) →
        (∀ x y, le x y = true → (value x).AtMost pool (value y)) →
        (∀ u : Option AdhocValue, value (f u) = u.elim d (AdhocValue.as type)) →
        (a.Unbuildable n → plainColumn t value le ((a.elements n).map f)
          (createNullStorageFromBitvector (a.state n).nullOverlay n) a.nullable = none) ∧
        (¬ a.Unbuildable n → ∃ c, plainColumn t value le ((a.elements n).map f)
          (createNullStorageFromBitvector (a.state n).nullOverlay n) a.nullable = some c ∧ a.BuiltAs pool n c) := by
      intro α t value le f d hid hint hstores htyped htrans hle helem
      refine ⟨fun hun => absurd (Option.some.inj (htype.symm.trans hun.1)) hint, fun _ => ?_⟩
      obtain ⟨c, hc, hs, hns, hmetadata⟩ := plainColumn_spec (hlength f) htyped htrans hle hnull
      have hct : c.storage.type = t := by rw [hs]; rfl
      refine ⟨c, hc, h.builtAs hrows htype (hct.symm ▸ hstores) hmetadata ?_⟩
      rw [hvalues htype]
      refine h.denotes d hns (by rw [hs]; exact hid) ?_
      rw [hs]
      show List.map value _ = _
      rw [List.map_map]
      exact List.map_congr_left fun u _ => helem u
    cases type with
    | kInt64 =>
      obtain ⟨hnone, hsome⟩ := summarize_spec (hlength fun t => t.elim 0 AdhocValue.toInt) a.nullable
      have hdata : (a.elements n).map (fun t => t.elim 0 AdhocValue.toInt) = a.integers n := rfl
      rw [hdata] at hnone hsome
      dsimp only [stored]
      cases hsummary : summarize (a.integers n) a.nullable with
      | none => exact ⟨fun _ => rfl, fun hun => absurd ⟨htype, .inl (hnone.mp hsummary)⟩ hun⟩
      | some s =>
        have hs := hsome s hsummary
        obtain ⟨hspecialized, -⟩ := getSpecializedStorage_spec hs (hlength _)
        have hwraps : ¬ CountWraps (a.integers n) := fun h => by
          rw [hnone.mpr h] at hsummary
          cases hsummary
        dsimp only [Option.bind_eq_bind, Option.bind_some]
        cases hindex : getSpecializedStorage (createIntegerStorage (a.integers n) s) s with
        | none => exact ⟨fun _ => rfl, fun hun => absurd ⟨htype, .inr (hspecialized.mp hindex)⟩ hun⟩
        | some index =>
          refine ⟨fun hun => ?_, fun _ => ⟨_, rfl, ?_⟩⟩
          · rcases hun.2 with h | h
            · exact absurd h hwraps
            · rw [hspecialized.mpr h] at hindex
              cases hindex
          · obtain ⟨helements, hwell, hinteger, -⟩ := createIntegerStorage_spec hs (hlength _) (integers_range n a)
            refine h.builtAs hrows htype hinteger (metadataTrue_integers pool hs (hlength _) (integers_range n a) hindex hnull) ?_
            rw [hvalues htype]
            refine h.denotes (.int 0) rfl hwell (helements.trans ?_)
            rw [integers, List.map_map]
            refine List.map_congr_left fun u _ => ?_
            cases u <;> rfl
    | kDouble =>
      refine hplain (d := .double .zero) (by simp) (by simp) rfl (fun _ => rfl) (fun _ _ _ => double_le_trans) (fun _ _ h => h)
        fun u => ?_
      cases u <;> rfl
    | kString =>
      refine hplain (d := .string 0) (by simp) (by simp) rfl (fun _ => rfl) (fun _ _ _ => pool_le_trans) (fun _ _ h => h)
        fun u => ?_
      cases u <;> rfl

end AdhocColumn

/-! ### The dataframe -/

/-- The dataframe holds what the calls pushed to each column, and a column of ids. -/
structure Dataframe.Holds (pool : StringPool) (names : List String) (options : AdhocDataframeBuilderOptions)
    (calls : List PushCall) (rows : ℕ) (df : Dataframe) : Prop where
  rowCount : df.rowCount = rows
  columnNames : df.columnNames = names ++ ["_auto_id"]
  length : df.columns.length = names.length + 1
  columns : ∀ col < names.length, ∃ c, df.columns[col]? = some c ∧
    (pushed options.types calls col).BuiltAs pool options.nullabilityType c
  autoId : df.columns[names.length]? = some (autoIdColumn rows)

/-- The loop over the columns, when all have the rows and can be built. -/
theorem buildColumns_ok {pool : StringPool} {rows : ℕ} {states : List (String × ColumnState)}
    (hrows : ∀ p ∈ states, p.2.rowCount = rows) (hbuilt : ∀ p ∈ states, (p.2.buildColumn pool).isSome) :
    ∀ {before : ℕ}, before = 2 ^ 64 - 1 ∨ before = rows →
    ∃ columns, buildColumns pool before states = some (.ok (columns, if states = [] then before else rows)) ∧
      columns.map some = states.map fun p => p.2.buildColumn pool := by
  induction states with
  | nil => exact fun _ => ⟨[], rfl, rfl⟩
  | cons p states ih =>
    intro before hbefore
    obtain ⟨hp, hrest⟩ := List.forall_mem_cons.mp hrows
    obtain ⟨hpbuilt, hrestbuilt⟩ := List.forall_mem_cons.mp hbuilt
    obtain ⟨column, hcolumn⟩ := Option.isSome_iff_exists.mp hpbuilt
    obtain ⟨columns, hcolumns, hmap⟩ := ih hrest hrestbuilt (.inr rfl)
    refine ⟨column :: columns, ?_, by rw [List.map_cons, List.map_cons, hmap, hcolumn]⟩
    have hsame : ¬ (before ≠ 2 ^ 64 - 1 ∧ p.2.rowCount ≠ before) := by
      rintro ⟨hne, hneq⟩
      rcases hbefore with h | h
      exacts [hne h, hneq (hp.trans h.symm)]
    obtain ⟨name, s⟩ := p
    dsimp only at hcolumn hp hsame
    rw [buildColumns, hcolumn]
    dsimp only [Option.bind_eq_bind, Option.bind_some]
    rw [if_neg hsame, hp, hcolumns, ite_self, if_neg (List.cons_ne_nil _ _)]
    rfl

/-- Every column of the result was built. -/
theorem buildColumns_built {pool : StringPool} {states : List (String × ColumnState)} :
    ∀ {before : ℕ} {result : List Column × ℕ}, buildColumns pool before states = some (.ok result) →
      ∀ p ∈ states, (p.2.buildColumn pool).isSome := by
  induction states with
  | nil => exact fun _ p hp => absurd hp List.not_mem_nil
  | cons p states ih =>
    obtain ⟨name, s⟩ := p
    intro before result hresult
    obtain ⟨column, hcolumn, hresult⟩ := Option.bind_eq_some_iff.mp hresult
    split_ifs at hresult
    · cases hresult
    · obtain ⟨rest, hrest, hresult⟩ := Option.bind_eq_some_iff.mp hresult
      cases rest with
      | error e => cases hresult
      | ok rest => exact List.forall_mem_cons.mpr ⟨Option.isSome_iff_exists.mpr ⟨column, hcolumn⟩, ih hrest⟩

/-- The number of rows that the builder finds. -/
theorem AdhocColumn.Ok.rowCount {a : AdhocColumn} (h : a.Ok) (n : NullabilityType) : (a.state n).rowCount = a.cells.length := by
  unfold ColumnState.rowCount AdhocColumn.state
  cases hnullable : a.nullable with
  | true => exact List.length_map ..
  | false =>
    simp only [Bool.false_eq_true, if_false]
    cases htype : a.type with
    | none => rw [h.cells_eq_nil htype hnullable]; rfl
    | some type => rw [Option.map_some, Option.map_some, Option.getD_some, AdhocColumn.size_stored, h.elements_eq hnullable]

section Build

variable {pool : StringPool} {names : List String} {options : AdhocDataframeBuilderOptions} {calls : List PushCall}
  {b : AdhocDataframeBuilder} {rows : ℕ}

/-- The names and the states of the columns. -/
theorem Tracks.zip_getElem? (h : Tracks names options calls b) {col : ℕ} (hcol : col < names.length) :
    ∃ name, (b.columnNames.zip b.columnStates)[col]? =
      some (name, (pushed options.types calls col).state options.nullabilityType) := by
  have hlt : col < b.columnStates.length := h.length.symm ▸ hcol
  refine ⟨names[col], ?_⟩
  rw [h.columnNames, List.getElem?_zip_eq_some]
  refine ⟨List.getElem?_eq_getElem hcol, ?_⟩
  rw [List.getElem?_eq_getElem hlt, ← h.states col _ (List.getElem?_eq_getElem hlt)]

theorem Tracks.mem_zip (h : Tracks names options calls b) {p : String × ColumnState}
    (hp : p ∈ b.columnNames.zip b.columnStates) :
    ∃ col < names.length, p.2 = (pushed options.types calls col).state options.nullabilityType := by
  obtain ⟨col, hcol⟩ := List.getElem?_of_mem hp
  obtain ⟨name, s⟩ := p
  have hs := (List.getElem?_zip_eq_some.mp hcol).2
  exact ⟨col, h.length ▸ (List.getElem?_eq_some_iff.mp hs).1, h.states col s hs⟩

/-- What the result is made of. -/
theorem build_ok {df : Dataframe} (hbuild : b.build pool = some (.ok df)) :
    df.rowCount < 2 ^ 32 ∧ ∀ p ∈ b.columnNames.zip b.columnStates, (p.2.buildColumn pool).isSome := by
  unfold AdhocDataframeBuilder.build at hbuild
  cases hstatus : b.currentStatus with
  | some e =>
    rw [hstatus] at hbuild
    cases hbuild
  | none =>
    rw [hstatus] at hbuild
    obtain ⟨result, hresult, hdf⟩ := Option.bind_eq_some_iff.mp hbuild
    cases result with
    | error e => cases hdf
    | ok result =>
      cases hdf
      exact ⟨Nat.mod_lt _ (by decide), buildColumns_built hresult⟩

/-- A column that cannot be built: there is no dataframe. -/
theorem Tracks.not_built (h : Tracks names options calls b) {col : ℕ} (hcol : col < names.length)
    (hrows : (pushed options.types calls col).cells.length < 2 ^ 32)
    (hun : (pushed options.types calls col).Unbuildable options.nullabilityType) (df : Dataframe) :
    b.build pool ≠ some (.ok df) := by
  intro hbuild
  obtain ⟨name, hname⟩ := h.zip_getElem? hcol
  have hnone := (AdhocColumn.buildColumn_spec pool (h.ok col hcol) hrows).1 hun
  have hsome := (build_ok hbuild).2 _ (List.mem_of_getElem? hname)
  rw [hnone] at hsome
  cases hsome

/-- A builder builds what it keeps, if nothing wraps around. -/
theorem Tracks.build_holds (h : Tracks names options calls b) (pool : StringPool) (hlt : rows < 2 ^ 32)
    (hrows : ∀ col < names.length, (pushed options.types calls col).cells.length = rows) (hempty : names = [] → rows = 0)
    (hfine : ∀ col < names.length, ¬ (pushed options.types calls col).Unbuildable options.nullabilityType) :
    ∃ df, b.build pool = some (.ok df) ∧ df.finalized = true ∧ df.Holds pool names options calls rows := by
  have hcolumn : ∀ col < names.length, ∃ c, ((pushed options.types calls col).state options.nullabilityType).buildColumn pool =
      some c ∧ (pushed options.types calls col).BuiltAs pool options.nullabilityType c := fun col hcol =>
    (AdhocColumn.buildColumn_spec pool (h.ok col hcol) ((hrows col hcol).trans_lt hlt)).2 (hfine col hcol)
  have hzip : ∀ p ∈ b.columnNames.zip b.columnStates, p.2.rowCount = rows ∧ (p.2.buildColumn pool).isSome := fun p hp => by
    obtain ⟨col, hcol, hp⟩ := h.mem_zip hp
    obtain ⟨c, hc, -⟩ := hcolumn col hcol
    rw [hp, hc]
    exact ⟨((h.ok col hcol).rowCount _).trans (hrows col hcol), rfl⟩
  obtain ⟨columns, hcolumns, hmap⟩ := buildColumns_ok (fun p hp => (hzip p hp).1) (fun p hp => (hzip p hp).2) (.inl rfl)
  have hlength : columns.length = names.length := by
    have := congrArg List.length hmap
    rw [List.length_map, List.length_map, List.length_zip, h.columnNames, h.length, Nat.min_self] at this
    exact this
  set total := if b.columnNames.zip b.columnStates = [] then 2 ^ 64 - 1 else rows with htotal
  have hcount : (if total = 2 ^ 64 - 1 then 0 else total) % 2 ^ 32 = rows := by
    have hnone : b.columnNames.zip b.columnStates = [] → rows = 0 := fun hnil => hempty (by
      have hzero := congrArg List.length hnil
      rw [List.length_zip, h.columnNames, h.length, Nat.min_self] at hzero
      exact List.eq_nil_of_length_eq_zero hzero)
    rw [htotal]
    split_ifs with hnil hmax hmax
    · rw [hnone hnil, Nat.zero_mod]
    · exact absurd rfl hmax
    · omega
    · exact Nat.mod_eq_of_lt hlt
  refine ⟨_, by rw [AdhocDataframeBuilder.build, h.currentStatus, hcolumns]; rfl, rfl, ?_⟩
  refine ⟨hcount, congrArg (· ++ _) h.columnNames, ?_, fun col hcol => ?_, ?_⟩
  · rw [List.length_append, hlength, List.length_singleton]
  · obtain ⟨c, hc, hbuilt⟩ := hcolumn col hcol
    obtain ⟨name, hname⟩ := h.zip_getElem? hcol
    refine ⟨c, ?_, hbuilt⟩
    have hget := congrArg (·[col]?) hmap
    simp only [List.getElem?_map, hname, Option.map_some, hc] at hget
    obtain ⟨c', hc', heq⟩ := Option.map_eq_some_iff.mp hget
    rw [List.getElem?_append_left (hlength.symm ▸ hcol), hc']
    exact heq
  · rw [← hlength, List.getElem?_append_right (Nat.le_refl _), Nat.sub_self]
    exact congrArg (fun n => some (autoIdColumn n)) hcount

/-- **The builder builds what was pushed**, with true metadata, exactly if the rows are fewer than 2^32 and nothing wraps
around in a column of integers. -/
theorem build_holds_iff (pool : StringPool) (names : List String) (options : AdhocDataframeBuilderOptions)
    (calls : List PushCall) {b : AdhocDataframeBuilder} (hcalls : (AdhocDataframeBuilder.ofNames names options).pushAll calls = some b)
    {rows : ℕ} (hrows : ∀ col < names.length, (pushed options.types calls col).cells.length = rows)
    (hempty : names = [] → rows = 0) :
    (∃ df, b.build pool = some (.ok df) ∧ df.Holds pool names options calls rows) ↔
      rows < 2 ^ 32 ∧ ∀ col < names.length, ¬ (pushed options.types calls col).Unbuildable options.nullabilityType := by
  have htracks : rows < 2 ^ 32 → Tracks names options calls b := fun hlt =>
    Tracks.run hcalls fun col hcol => (hrows col hcol).trans_lt hlt
  constructor
  · rintro ⟨df, hbuild, hholds⟩
    have hlt := (build_ok hbuild).1
    rw [hholds.rowCount] at hlt
    exact ⟨hlt, fun col hcol hun => (htracks hlt).not_built hcol ((hrows col hcol).trans_lt hlt) hun df hbuild⟩
  · rintro ⟨hlt, hfine⟩
    obtain ⟨df, hbuild, -, hholds⟩ := (htracks hlt).build_holds pool hlt hrows hempty hfine
    exact ⟨df, hbuild, hholds⟩

end Build

/-- An integer and a null. -/
def oneAndNull : List PushCall := [.pushNonNull 0 (.int64 1) 1, .pushNull 0 1]

theorem build_holds_oneAndNull : ∃ b, (AdhocDataframeBuilder.ofNames ["a"] {}).pushAll oneAndNull = some b ∧
    ((∃ df, b.build .empty = some (.ok df) ∧ df.Holds .empty ["a"] {} oneAndNull 2) ↔
      2 < 2 ^ 32 ∧ ∀ col < 1, ¬ (pushed [] oneAndNull col).Unbuildable .kSparseNull) :=
  ⟨_, rfl, build_holds_iff .empty ["a"] {} oneAndNull rfl (by decide) (by decide)⟩

/-! ### Numbers up to 2^32 - 1 -/

/-- The numbers 15, 31, 47, ... in a column of integers. -/
def spacedCalls (n : ℕ) : List PushCall :=
  (List.range n).map fun i : ℕ => .pushNonNull 0 (.int64 (.ofInt (16 * i + 15))) 1

def integerOptions : AdhocDataframeBuilderOptions := { types := [.kInt64] }

/-- Integers are accepted in a column of integers. -/
theorem pushAll_integers (vs : List Int64) : ∀ (b : AdhocDataframeBuilder) (data : List ℤ),
    b.columnStates = [{ storage := some (.int64 data) }] →
    ∃ b', b.pushAll (vs.map fun v => .pushNonNull 0 (.int64 v) 1) = some b' := by
  induction vs with
  | nil => exact fun b data _ => ⟨b, rfl⟩
  | cons v vs ih =>
    intro b data hb
    obtain ⟨b', hb'⟩ := ih (b.setState 0 { storage := some (.int64 (data ++ List.replicate 1 v.toInt)) }) _
      (by rw [AdhocDataframeBuilder.setState, hb]; rfl)
    refine ⟨b', ?_⟩
    have hstep : b.step (.pushNonNull 0 (.int64 v) 1) =
        some (true, b.setState 0 { storage := some (.int64 (data ++ List.replicate 1 v.toInt)) }) := by
      unfold AdhocDataframeBuilder.step
      rw [hb]
      rfl
    unfold AdhocDataframeBuilder.pushAll at hb' ⊢
    rw [List.map_cons, List.foldlM_cons, hstep]
    exact hb'

theorem pushed_integers (vs : List Int64) : pushed [.kInt64] (vs.map fun v => .pushNonNull 0 (.int64 v) 1) 0 =
    { type := some .kInt64, cells := vs.map fun v => some (.int64 v) } := by
  induction vs using List.reverseRecOn with
  | nil => rfl
  | append_singleton vs v ih =>
    rw [List.map_append, List.map_singleton, pushed_concat, ih, List.map_append]
    rfl

theorem backWraps_spaced {n : ℕ} (hn : n = 2 ^ 28) : BackWraps ((List.range n).map fun i : ℕ => (16 * i + 15 : ℤ)) where
  ascending := List.pairwise_lt_range.map _ fun i j (hij : i < j) => by omega
  nonneg x hx := by
    obtain ⟨i, -, rfl⟩ := List.mem_map.mp hx
    omega
  last := by
    obtain ⟨m, rfl⟩ : ∃ m, n = m + 1 := ⟨2 ^ 28 - 1, hn⟩
    rw [List.range_succ, List.map_append, List.map_singleton, List.getLast?_concat]
    exact congrArg some (by omega)
  small := by
    rw [List.length_map, List.length_range, hn]
    omega

/-- 2^28 numbers that go up to 2^32 - 1 are accepted, and the dataframe is not built. -/
theorem spaced_not_built {n : ℕ} (hn : n = 2 ^ 28) : (pushed [.kInt64] (spacedCalls n) 0).cells.length = n ∧
    ∃ b, (AdhocDataframeBuilder.ofNames ["a"] integerOptions).pushAll (spacedCalls n) = some b ∧
      ∀ df, b.build .empty ≠ some (.ok df) := by
  have hcalls : spacedCalls n = ((List.range n).map fun i : ℕ => Int64.ofInt (16 * i + 15)).map
      fun v => .pushNonNull 0 (.int64 v) 1 := by
    unfold spacedCalls
    rw [List.map_map]
    rfl
  have hpushed := pushed_integers ((List.range n).map fun i : ℕ => Int64.ofInt (16 * i + 15))
  rw [← hcalls] at hpushed
  have hcells : (pushed [.kInt64] (spacedCalls n) 0).cells.length = n := by
    rw [hpushed, List.length_map, List.length_map, List.length_range]
  obtain ⟨b, hb⟩ := pushAll_integers ((List.range n).map fun i : ℕ => Int64.ofInt (16 * i + 15))
    (.ofNames ["a"] integerOptions) [] rfl
  rw [← hcalls] at hb
  have hlt : ∀ col < ["a"].length, (pushed integerOptions.types (spacedCalls n) col).cells.length < 2 ^ 32 := by
    intro col hcol
    obtain rfl : col = 0 := Nat.lt_one_iff.mp hcol
    exact hcells.trans_lt (by omega)
  refine ⟨hcells, b, hb, fun df => ?_⟩
  refine (Tracks.run hb hlt).not_built Nat.one_pos (hlt 0 Nat.one_pos) ⟨congrArg AdhocColumn.type hpushed, .inr ?_⟩ df
  refine ⟨congrArg AdhocColumn.nullable hpushed, ?_⟩
  have hintegers : (pushed integerOptions.types (spacedCalls n) 0).integers .kSparseNull =
      (List.range n).map fun i : ℕ => (16 * i + 15 : ℤ) := by
    show (pushed [.kInt64] (spacedCalls n) 0).integers .kSparseNull = _
    rw [hpushed, AdhocColumn.integers, AdhocColumn.elements, if_neg (by decide), List.filter_map]
    refine (congrArg _ (congrArg _ (List.filter_eq_self.mpr fun _ _ => rfl))).trans ?_
    rw [List.map_map, List.map_map]
    refine List.map_congr_left fun i hi => ?_
    have hi := List.mem_range.mp hi
    exact Int64.toInt_ofInt_of_le (by omega) (by omega)
  exact hintegers ▸ backWraps_spaced hn

/-- The numbers 15, 31, ..., 2^32 - 1: the dataframe is not built. -/
theorem not_build_holds_spaced : (pushed [.kInt64] (spacedCalls (2 ^ 28)) 0).cells.length = 2 ^ 28 ∧
    ∃ b, (AdhocDataframeBuilder.ofNames ["a"] integerOptions).pushAll (spacedCalls (2 ^ 28)) = some b ∧
      ¬ ∃ df, b.build .empty = some (.ok df) ∧ df.Holds .empty ["a"] integerOptions (spacedCalls (2 ^ 28)) (2 ^ 28) := by
  obtain ⟨hcells, b, hb, hnot⟩ := spaced_not_built rfl
  exact ⟨hcells, b, hb, fun ⟨df, hdf, _⟩ => hnot df hdf⟩

end LynxTrace.TraceProcessor.Core
