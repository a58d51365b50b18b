import LynxTrace.Core.AdhocBuilder
import Mathlib.Data.List.Induction

/-!
# Core.AdhocPushes — the builder keeps what was pushed to each column
-/

namespace LynxTrace.TraceProcessor.Core

/-! ### What is pushed -/

namespace AdhocValue

/-- The value in a column of integers. -/
def toInt : AdhocValue → ℤ
  | int64 v => v.toInt
  | _ => 0

/-- The value in a column of doubles. -/
def toDouble : AdhocValue → Double
  | int64 v => Double.ofInt v.toInt
  | double v => v
  | string _ => .zero

/-- The value in a column of strings. -/
def toStringId : AdhocValue → StringId
  | string v => v
  | _ => 0

/-- The value in a column of a type. -/
def as : AdhocColumnType → AdhocValue → Value
  | .kInt64, v => .int v.toInt
  | .kDouble, v => .double v.toDouble
  | .kString, v => .string v.toStringId

/-- The value can be put in a column of the type. -/
def Fits (v : AdhocValue) (type : AdhocColumnType) : Prop :=
  match v, type with
  | int64 _, .kInt64 => True
  | int64 v, .kDouble => isPerfectlyRepresentableAsDouble v.toInt = true
  | double _, .kDouble => True
  | string _, .kString => True
  | _, _ => False

end AdhocValue

/-- The type of a column after a value: the declared one or that of the first value, but doubles turn a column of
integers into one of doubles. -/
def AdhocColumnType.choose (chosen : Option AdhocColumnType) (type : AdhocColumnType) : AdhocColumnType :=
  match chosen, type with
  | none, type => type
  | some .kInt64, .kDouble => .kDouble
  | some chosen, _ => chosen

/-- A column as it is pushed. -/
structure AdhocColumn where
  type : Option AdhocColumnType := none
  nullable : Bool := false
  cells : List (Option AdhocValue) := []
  deriving DecidableEq

namespace AdhocColumn

variable (a : AdhocColumn)

def pushNull (count : ℕ) : AdhocColumn := { a with nullable := true, cells := a.cells ++ List.replicate count none }

def pushValue (value : AdhocValue) (count : ℕ) : AdhocColumn :=
  { a with type := some (.choose a.type value.type), cells := a.cells ++ List.replicate count (some value) }

/-- What a call for the column pushes; the null string is a null. -/
def push : PushCall → AdhocColumn
  | .pushNull _ count => a.pushNull count.toNat
  | .pushNonNull _ value count => if value = .string 0 then a.pushNull count.toNat else a.pushValue value count.toNat
  | .pushNonNullUnchecked _ value count => a.pushValue value count.toNat

end AdhocColumn

def PushCall.col : PushCall → ℕ
  | pushNull col _ => col
  | pushNonNull col _ _ => col
  | pushNonNullUnchecked col _ _ => col

/-- The column that the calls push. -/
def pushed (types : List AdhocColumnType) (calls : List PushCall) (col : ℕ) : AdhocColumn :=
  calls.foldl (fun a call => if call.col = col then a.push call else a) { type := types[col]? }

/-! ### What the builder keeps -/

namespace AdhocColumn

/-- The cells that have an element in the storage. -/
def elements (n : NullabilityType) (a : AdhocColumn) : List (Option AdhocValue) :=
  if n = .kDenseNull then a.cells else a.cells.filter Option.isSome

/-- The elements of a column of integers. -/
def integers (n : NullabilityType) (a : AdhocColumn) : List ℤ := (a.elements n).map fun t => t.elim 0 AdhocValue.toInt

def doubles (n : NullabilityType) (a : AdhocColumn) : List Double := (a.elements n).map fun t => t.elim .zero AdhocValue.toDouble

def strings (n : NullabilityType) (a : AdhocColumn) : List StringId := (a.elements n).map fun t => t.elim 0 AdhocValue.toStringId

def stored (n : NullabilityType) (a : AdhocColumn) : AdhocColumnType → AdhocStorage
  | .kInt64 => .int64 (a.integers n)
  | .kDouble => .double (a.doubles n)
  | .kString => .string (a.strings n)

/-- What the builder keeps of a column. -/
def state (n : NullabilityType) (a : AdhocColumn) : ColumnState where
  storage := a.type.map (a.stored n)
  nullOverlay := if a.nullable then some ⟨a.cells.map Option.isSome⟩ else none
  nullabilityType := n

/-- A column of accepted values. -/
structure Ok (a : AdhocColumn) : Prop where
  untyped : a.type = none → ∀ t ∈ a.cells, t = none
  fits : ∀ type v, a.type = some type → some v ∈ a.cells → v.Fits type
  full : a.nullable = false → none ∉ a.cells

variable {n : NullabilityType} {a : AdhocColumn}

theorem elements_pushNull (count : ℕ) :
    (a.pushNull count).elements n = a.elements n ++ if n = .kDenseNull then List.replicate count none else [] := by
  unfold elements pushNull
  split_ifs
  · rfl
  · rw [List.filter_append, List.filter_replicate_of_neg (by simp)]

theorem elements_pushValue (v : AdhocValue) (count : ℕ) :
    (a.pushValue v count).elements n = a.elements n ++ List.replicate count (some v) := by
  unfold elements pushValue
  split_ifs
  · rfl
  · rw [List.filter_append, List.filter_replicate_of_pos (by simp)]

theorem size_stored (type : AdhocColumnType) : (a.stored n type).size = (a.elements n).length := by
  cases type <;> exact List.length_map ..

/-- Without nulls every cell has an element. -/
theorem Ok.elements_eq (h : a.Ok) (hfull : a.nullable = false) : a.elements n = a.cells := by
  unfold elements
  split_ifs
  · rfl
  · refine List.filter_eq_self.mpr fun t ht => ?_
    cases t with
    | none => exact absurd ht (h.full hfull)
    | some v => rfl

/-- An untyped column without nulls is empty. -/
theorem Ok.cells_eq_nil (h : a.Ok) (htype : a.type = none) (hfull : a.nullable = false) : a.cells = [] := by
  refine List.eq_nil_iff_forall_not_mem.mpr fun t ht => h.full hfull ?_
  rwa [← h.untyped htype t ht]

theorem Ok.elements_untyped (h : a.Ok) (htype : a.type = none) :
    a.elements n = if n = .kDenseNull then List.replicate a.cells.length none else [] := by
  unfold elements
  split_ifs
  · exact List.eq_replicate_of_mem (h.untyped htype)
  · refine List.filter_eq_nil_iff.mpr fun t ht => ?_
    rw [h.untyped htype t ht]
    exact Bool.false_ne_true

/-! ### One call -/

/-- The overlay that is there, or the one that is made. -/
theorem Ok.overlay (h : a.Ok) (hrows : a.cells.length < 2 ^ 32) :
    (a.state n).nullOverlay.getD (a.state n).newNullOverlay = ⟨a.cells.map Option.isSome⟩ := by
  cases hnull : a.nullable with
  | true => simp [state, hnull]
  | false =>
    have hbits : a.cells.map Option.isSome = List.replicate a.cells.length true :=
      List.eq_replicate_iff.mpr ⟨List.length_map .., fun bit hbit => by
        obtain ⟨t, ht, rfl⟩ := List.mem_map.mp hbit
        cases t with
        | none => exact absurd ht (h.full hnull)
        | some v => rfl⟩
    have hsize : ((a.state n).storage.map AdhocStorage.size).getD 0 = a.cells.length := by
      cases htype : a.type with
      | none => simp [state, htype, h.cells_eq_nil htype hnull]
      | some type => simp [state, htype, size_stored, h.elements_eq hnull]
    rw [ColumnState.newNullOverlay, hsize, Nat.mod_eq_of_lt hrows, hbits]
    simp [state, hnull, BitVector.createWithSize]

theorem stored_pushNull (type : AdhocColumnType) (count : ℕ) :
    (a.pushNull count).stored n type =
      if n = .kDenseNull then (a.stored n type).addPlaceholders count else a.stored n type := by
  cases type <;> unfold stored <;> dsimp only [integers, doubles, strings] <;> rw [elements_pushNull] <;> split_ifs <;>
    simp [AdhocStorage.addPlaceholders]

/-- Nulls are pushed. -/
theorem state_pushNull (h : a.Ok) (hrows : a.cells.length < 2 ^ 32) (count : ℕ) :
    (a.state n).pushNull count = (a.pushNull count).state n := by
  have hoverlay := h.overlay (n := n) hrows
  unfold ColumnState.pushNull
  rw [hoverlay]
  have hstorage : (a.pushNull count).type.map ((a.pushNull count).stored n) =
      if n = .kDenseNull then (a.type.map (a.stored n)).map (·.addPlaceholders count) else a.type.map (a.stored n) := by
    show a.type.map _ = _
    cases a.type with
    | none => simp
    | some type =>
      rw [Option.map_some, stored_pushNull]
      split_ifs <;> rfl
  have hnull : (a.pushNull count).nullable = true := rfl
  unfold state
  rw [hstorage, if_pos hnull]
  by_cases hdense : n = .kDenseNull <;>
    simp [ColumnState.addPlaceholderValue, BitVector.pushBackMultiple, pushNull, hdense]

theorem toDoubles_ok {name : String} {i : ℕ} {data : List ℤ} {res : List Double} (h : toDoubles name i data = .ok res) :
    res = data.map Double.ofInt ∧ ∀ v ∈ data, isPerfectlyRepresentableAsDouble v = true := by
  induction data generalizing i res with
  | nil =>
    cases h
    exact ⟨rfl, fun v hv => absurd hv List.not_mem_nil⟩
  | cons v data ih =>
    unfold toDoubles at h
    split_ifs at h with hv
    cases hrest : toDoubles name (i + 1) data with
    | error e =>
      rw [hrest] at h
      cases h
    | ok rest =>
      rw [hrest] at h
      cases h
      obtain ⟨rfl, hall⟩ := ih hrest
      exact ⟨rfl, List.forall_mem_cons.mpr ⟨hv, hall⟩⟩

/-- The new storage has what the nulls before the first value need. -/
theorem Ok.newStorage (h : a.Ok) (hrows : a.cells.length < 2 ^ 32) (htype : a.type = none) (type : AdhocColumnType) :
    (a.state n).newStorage type = a.stored n type := by
  have helements := h.elements_untyped (n := n) htype
  unfold ColumnState.newStorage
  cases hnull : a.nullable with
  | false =>
    rw [h.cells_eq_nil htype hnull, List.length_nil, List.replicate_zero, ite_self] at helements
    have hempty : AdhocStorage.empty type = a.stored n type := by
      cases type <;> simp [AdhocStorage.empty, stored, integers, doubles, strings, helements]
    simpa [state, hnull] using hempty
  | true =>
    simp only [state, hnull, if_true]
    split_ifs with hdense
    · rw [if_pos hdense] at helements
      have hmod : a.cells.length % 4294967296 = a.cells.length := Nat.mod_eq_of_lt hrows
      cases type <;>
        simp [AdhocStorage.empty, AdhocStorage.addPlaceholders, stored, integers, doubles, strings, helements,
          BitVector.size, hmod]
    · rw [if_neg hdense] at helements
      cases type <;> simp [AdhocStorage.empty, stored, integers, doubles, strings, helements]

/-- The elements of a column of integers that becomes one of doubles. -/
theorem Ok.integers_map (h : a.Ok) (htype : a.type = some .kInt64) : (a.integers n).map Double.ofInt = a.doubles n := by
  unfold integers doubles
  rw [List.map_map]
  refine List.map_congr_left fun t ht => ?_
  have hmem : t ∈ a.cells := by
    unfold elements at ht
    split_ifs at ht
    exacts [ht, (List.mem_filter.mp ht).1]
  cases t with
  | none => rfl
  | some v =>
    have hfits := h.fits _ v htype hmem
    cases v with
    | int64 v => rfl
    | double v => exact hfits.elim
    | string v => exact hfits.elim

theorem length_elements : (a.elements n).length ≤ a.cells.length := by
  unfold elements
  split_ifs
  exacts [Nat.le_refl _, List.length_filter_le ..]

theorem mem_elements {v : AdhocValue} (hv : some v ∈ a.cells) : some v ∈ a.elements n := by
  unfold elements
  split_ifs
  exacts [hv, List.mem_filter.mpr ⟨hv, rfl⟩]

/-- A value is accepted with those before it. -/
theorem Ok.pushValue (h : a.Ok) {v : AdhocValue} (count : ℕ) (hv : v.Fits (.choose a.type v.type))
    (hbefore : ∀ type w, a.type = some type → some w ∈ a.cells → w.Fits (.choose a.type v.type)) :
    (a.pushValue v count).Ok where
  untyped htype := by cases htype
  fits type w htype hw := by
    obtain rfl : _ = type := Option.some.inj htype
    rcases List.mem_append.mp hw with hw | hw
    · cases hchosen : a.type with
      | none => exact absurd (h.untyped hchosen _ hw) (by simp)
      | some type => exact hchosen ▸ hbefore type w hchosen hw
    · obtain rfl := Option.some.inj (List.eq_of_mem_replicate hw)
      exact hv
  full hfull := by
    refine fun hmem => ?_
    rcases List.mem_append.mp hmem with hmem | hmem
    · exact h.full hfull hmem
    · exact absurd (List.eq_of_mem_replicate hmem) (by simp)

theorem Ok.pushNull (h : a.Ok) (count : ℕ) : (a.pushNull count).Ok where
  untyped htype t ht := by
    rcases List.mem_append.mp ht with ht | ht
    · exact h.untyped htype t ht
    · exact List.eq_of_mem_replicate ht
  fits type v htype hv := by
    rcases List.mem_append.mp hv with hv | hv
    · exact h.fits type v htype hv
    · exact absurd (List.eq_of_mem_replicate hv) (by simp)
  full hfull := by cases hfull

/-- What storage of the column becomes when it takes a value. -/
theorem Ok.push_stored (h : a.Ok) {type : AdhocColumnType} (htype : a.type = some type) (hrows : a.cells.length < 2 ^ 32)
    {declared : Bool} {name : String} {v : AdhocValue} {count : ℕ} {s : AdhocStorage}
    (hpush : (a.stored n type).push declared name v count = some (.ok s)) :
    s = (a.pushValue v count).stored n (.choose a.type v.type) ∧ (a.pushValue v count).Ok := by
  have helements := elements_pushValue (n := n) (a := a) v count
  -- the values before fit as before, unless the type changes
  have hsame : AdhocColumnType.choose a.type v.type = type → v.Fits type →
      s = (a.pushValue v count).stored n type → s = (a.pushValue v count).stored n (.choose a.type v.type) ∧
        (a.pushValue v count).Ok := by
    intro hchoose hv hs
    refine ⟨hchoose.symm ▸ hs, h.pushValue count (hchoose.symm ▸ hv) fun type' w htype' hw => ?_⟩
    rw [hchoose]
    exact h.fits type w htype hw
  cases type with
  | kInt64 =>
    cases v with
    | int64 v =>
      cases hpush
      refine hsame (by rw [htype]; rfl) trivial ?_
      simp [stored, integers, helements, AdhocValue.toInt]
    | double v =>
      unfold stored AdhocStorage.push at hpush
      dsimp only at hpush
      have hlength : (a.integers n).length < 2 ^ 32 :=
        Nat.lt_of_le_of_lt (Nat.le_trans (Nat.le_of_eq (List.length_map ..)) length_elements) hrows
      rw [List.take_of_length_le (Nat.le_of_lt hlength)] at hpush
      cases hdoubles : toDoubles name 0 (a.integers n) with
      | error e =>
        rw [hdoubles] at hpush
        cases hpush
      | ok res =>
        rw [hdoubles] at hpush
        dsimp only at hpush
        rw [if_pos hlength] at hpush
        cases hpush
        obtain ⟨rfl, hexact⟩ := toDoubles_ok hdoubles
        have hchoose : AdhocColumnType.choose a.type (AdhocValue.double v).type = .kDouble := by rw [htype]; rfl
        rw [h.integers_map htype, hchoose]
        refine ⟨?_, h.pushValue count (hchoose ▸ trivial) fun type' w _ hw => ?_⟩
        · simp [stored, doubles, helements, AdhocValue.toDouble]
        · have hfits := h.fits _ w htype hw
          rw [hchoose]
          cases w with
          | int64 w => exact hexact _ (List.mem_map.mpr ⟨_, mem_elements hw, rfl⟩)
          | double w => trivial
          | string w => exact hfits.elim
    | string v => cases hpush
  | kDouble =>
    cases v with
    | int64 v =>
      unfold stored AdhocStorage.push at hpush
      dsimp only at hpush
      by_cases hexact : isPerfectlyRepresentableAsDouble v.toInt = true
      · rw [if_pos hexact] at hpush
        cases hpush
        refine hsame (by rw [htype]; rfl) hexact ?_
        simp [stored, doubles, helements, AdhocValue.toDouble]
      · rw [if_neg hexact] at hpush
        cases hpush
    | double v =>
      cases hpush
      refine hsame (by rw [htype]; rfl) trivial ?_
      simp [stored, doubles, helements, AdhocValue.toDouble]
    | string v => cases hpush
  | kString =>
    cases v with
    | int64 v => cases hpush
    | double v => cases hpush
    | string v =>
      cases hpush
      refine hsame (by rw [htype]; rfl) trivial ?_
      simp [stored, strings, helements, AdhocValue.toStringId]

/-- A value is pushed. -/
theorem state_pushNonNull (h : a.Ok) (hrows : a.cells.length < 2 ^ 32) {declared : Bool} {name : String} {v : AdhocValue}
    {count : ℕ} {s : ColumnState} (hpush : (a.state n).pushNonNullInternal declared name v count = some (.ok s)) :
    s = (a.pushValue v count).state n ∧ (a.pushValue v count).Ok := by
  obtain ⟨result, hresult, hs⟩ := Option.bind_eq_some_iff.mp hpush
  cases result with
  | error e => cases hs
  | ok storage =>
    cases hs
    have hstorage : storage = (a.pushValue v count).stored n (.choose a.type v.type) ∧ (a.pushValue v count).Ok := by
      cases htype : a.type with
      | none =>
        -- an untyped column behaves as one that has the type of the value
        have hfirst : AdhocColumnType.choose none v.type = v.type := rfl
        have hchoose : AdhocColumnType.choose (some v.type) v.type = v.type := by cases v <;> rfl
        have hok : ({ a with type := some v.type } : AdhocColumn).Ok :=
          ⟨(nomatch ·), fun _ w _ hw => (nomatch h.untyped htype _ hw), h.full⟩
        have hstored : (a.state n).storage.getD ((a.state n).newStorage v.type) = a.stored n v.type := by
          rw [h.newStorage hrows htype]
          simp [state, htype]
        rw [hstored] at hresult
        have hpushed := hok.push_stored rfl hrows hresult
        have hsame : ({ a with type := some v.type } : AdhocColumn).pushValue v count = a.pushValue v count := by
          unfold AdhocColumn.pushValue
          rw [htype, hfirst, hchoose]
        rw [hsame, hchoose] at hpushed
        exact hpushed
      | some type =>
        rw [← htype]
        refine @Ok.push_stored n a h type htype hrows declared name v count storage ?_
        simpa [state, htype] using hresult
    refine ⟨?_, hstorage.2⟩
    have hoverlay : (a.state n).nullOverlay.map (·.pushBackMultiple true count) = ((a.pushValue v count).state n).nullOverlay := by
      unfold state AdhocColumn.pushValue
      cases a.nullable <;> simp [BitVector.pushBackMultiple]
    rw [hoverlay, hstorage.1]
    rfl

/-! ### All calls -/

theorem cells_push (call : PushCall) : a.cells.length ≤ (a.push call).cells.length := by
  have happend : ∀ l : List (Option AdhocValue), a.cells.length ≤ (a.cells ++ l).length := fun l => by
    rw [List.length_append]
    exact Nat.le_add_right ..
  cases call with
  | pushNull col count => exact happend _
  | pushNonNull col value count =>
    unfold push
    dsimp only
    split_ifs <;> exact happend _
  | pushNonNullUnchecked col value count => exact happend _

end AdhocColumn

theorem pushed_concat (types : List AdhocColumnType) (calls : List PushCall) (call : PushCall) (col : ℕ) :
    pushed types (calls ++ [call]) col =
      if call.col = col then (pushed types calls col).push call else pushed types calls col := by
  unfold pushed
  rw [List.foldl_append]
  rfl

theorem length_pushed_concat (types : List AdhocColumnType) (calls : List PushCall) (call : PushCall) (col : ℕ) :
    (pushed types calls col).cells.length ≤ (pushed types (calls ++ [call]) col).cells.length := by
  rw [pushed_concat]
  split_ifs
  exacts [AdhocColumn.cells_push _, Nat.le_refl _]

/-- The builder keeps what the calls pushed. -/
structure Tracks (names : List String) (options : AdhocDataframeBuilderOptions) (calls : List PushCall)
    (b : AdhocDataframeBuilder) : Prop where
  columnNames : b.columnNames = names
  currentStatus : b.currentStatus = none
  length : b.columnStates.length = names.length
  states : ∀ col s, b.columnStates[col]? = some s → s = (pushed options.types calls col).state options.nullabilityType
  ok : ∀ col < names.length, (pushed options.types calls col).Ok

namespace Tracks

variable {names : List String} {options : AdhocDataframeBuilderOptions} {calls : List PushCall} {b b' : AdhocDataframeBuilder}

theorem ofNames (names : List String) (options : AdhocDataframeBuilderOptions) :
    Tracks names options [] (.ofNames names options) where
  columnNames := rfl
  currentStatus := rfl
  length := (List.length_map ..).trans List.length_range
  states col s hs := by
    obtain ⟨i, hi, rfl⟩ := List.getElem?_map.symm.trans hs |> Option.map_eq_some_iff.mp
    obtain ⟨hlt, rfl⟩ := List.getElem?_eq_some_iff.mp hi
    rw [List.getElem_range]
    show _ = (({ type := options.types[col]? } : AdhocColumn).state options.nullabilityType)
    have hempty : ∀ type, (({ type := options.types[col]? } : AdhocColumn).stored options.nullabilityType type) = .empty type := by
      intro type
      cases type <;> simp [AdhocColumn.stored, AdhocColumn.integers, AdhocColumn.doubles, AdhocColumn.strings,
        AdhocColumn.elements, AdhocStorage.empty]
    simp only [AdhocColumn.state, funext hempty, Bool.false_eq_true, if_false]
  ok col hcol := ⟨fun _ t ht => absurd ht List.not_mem_nil, fun _ _ _ h => absurd h List.not_mem_nil, fun _ => List.not_mem_nil⟩

/-- One column changes as the call pushes to it. -/
theorem setState (h : Tracks names options calls b) (call : PushCall) {s : ColumnState}
    (hs : s = ((pushed options.types calls call.col).push call).state options.nullabilityType)
    (hok : ((pushed options.types calls call.col).push call).Ok) :
    Tracks names options (calls ++ [call]) (b.setState call.col s) where
  columnNames := h.columnNames
  currentStatus := h.currentStatus
  length := List.length_set.trans h.length
  states col s' hs' := by
    rw [pushed_concat]
    rw [AdhocDataframeBuilder.setState, List.getElem?_set] at hs'
    split_ifs at hs' with hcol hlt
    · rw [if_pos hcol]
      obtain rfl := Option.some.inj hs'
      rw [← hcol]
      exact hs
    · rw [if_neg hcol]
      exact h.states col s' hs'
  ok col hcol := by
    rw [pushed_concat]
    split_ifs with heq
    · exact heq ▸ hok
    · exact h.ok col hcol

/-- The value of an accepted call. -/
theorem pushValue {col : ℕ} {s : ColumnState} {value : AdhocValue} {count : UInt32}
    (hpush : b.pushValue col s value count = some (true, b')) :
    ∃ s', s.pushNonNullInternal b.didDeclareTypes (b.columnNames.getD col "") value count.toNat = some (.ok s') ∧
      b' = b.setState col s' := by
  obtain ⟨result, hresult, hb⟩ := Option.bind_eq_some_iff.mp hpush
  cases result with
  | error e => cases hb
  | ok s' =>
    cases hb
    exact ⟨s', hresult, rfl⟩

/-- One accepted call. -/
theorem step (h : Tracks names options calls b) (hrows : ∀ col < names.length, (pushed options.types calls col).cells.length < 2 ^ 32)
    {call : PushCall} (hstep : b.step call = some (true, b')) : Tracks names options (calls ++ [call]) b' := by
  -- the column of the call is there
  have hcolumn : ∀ {col s}, b.columnStates[col]? = some s → col < names.length ∧
      s = (pushed options.types calls col).state options.nullabilityType := fun {col s} hs =>
    ⟨h.length ▸ (List.getElem?_eq_some_iff.mp hs).1, h.states col s hs⟩
  have hnull : ∀ {col s} (count : UInt32), b.columnStates[col]? = some s →
      s.pushNull count.toNat = ((pushed options.types calls col).pushNull count.toNat).state options.nullabilityType ∧
        ((pushed options.types calls col).pushNull count.toNat).Ok := fun {col s} count hs => by
    obtain ⟨hlt, rfl⟩ := hcolumn hs
    exact ⟨AdhocColumn.state_pushNull (h.ok col hlt) (hrows col hlt) _, (h.ok col hlt).pushNull _⟩
  have hvalue : ∀ {col s} {value : AdhocValue} {count : UInt32}, b.columnStates[col]? = some s →
      b.pushValue col s value count = some (true, b') →
      ∃ s', b' = b.setState col s' ∧
        s' = ((pushed options.types calls col).pushValue value count.toNat).state options.nullabilityType ∧
        ((pushed options.types calls col).pushValue value count.toNat).Ok := fun {col s value count} hs hpush => by
    obtain ⟨hlt, rfl⟩ := hcolumn hs
    obtain ⟨s', hs', rfl⟩ := pushValue hpush
    exact ⟨s', rfl, AdhocColumn.state_pushNonNull (h.ok col hlt) (hrows col hlt) hs'⟩
  cases call with
  | pushNull col count =>
    obtain ⟨s, hs, hb⟩ := Option.bind_eq_some_iff.mp hstep
    cases hb
    obtain ⟨hs', hok⟩ := hnull count hs
    exact h.setState (.pushNull col count) hs' hok
  | pushNonNull col value count =>
    obtain ⟨s, hs, hb⟩ := Option.bind_eq_some_iff.mp hstep
    have hpush : (pushed options.types calls col).push (.pushNonNull col value count) =
        if value = .string 0 then (pushed options.types calls col).pushNull count.toNat
        else (pushed options.types calls col).pushValue value count.toNat := rfl
    by_cases hnullString : value = .string 0
    · rw [if_pos hnullString] at hb hpush
      cases hb
      obtain ⟨hs', hok⟩ := hnull count hs
      exact h.setState (.pushNonNull col value count) (hs'.trans (by rw [← hpush]; rfl)) (hpush ▸ hok)
    · rw [if_neg hnullString] at hb hpush
      obtain ⟨s', rfl, hs', hok⟩ := hvalue hs hb
      exact h.setState (.pushNonNull col value count) (hs'.trans (by rw [← hpush]; rfl)) (hpush ▸ hok)
  | pushNonNullUnchecked col value count =>
    obtain ⟨s, hs, hb⟩ := Option.bind_eq_some_iff.mp hstep
    obtain ⟨storage, hstorage, hb⟩ := Option.bind_eq_some_iff.mp hb
    split_ifs at hb
    obtain ⟨s', rfl, hs', hok⟩ := hvalue hs hb
    exact h.setState (.pushNonNullUnchecked col value count) hs' hok

/-- **Accepted calls.**  The builder keeps what they pushed. -/
theorem run (hpush : (AdhocDataframeBuilder.ofNames names options).pushAll calls = some b)
    (hrows : ∀ col < names.length, (pushed options.types calls col).cells.length < 2 ^ 32) : Tracks names options calls b := by
  induction calls using List.reverseRecOn generalizing b with
  | nil =>
    cases hpush
    exact ofNames names options
  | append_singleton calls call ih =>
    unfold AdhocDataframeBuilder.pushAll at hpush
    rw [List.foldlM_append] at hpush
    obtain ⟨before, hbefore, hlast⟩ := Option.bind_eq_some_iff.mp hpush
    rw [List.foldlM_cons] at hlast
    obtain ⟨after, hafter, hb⟩ := Option.bind_eq_some_iff.mp hlast
    cases hb
    obtain ⟨⟨ok, after⟩, hstep, hok⟩ := Option.bind_eq_some_iff.mp hafter
    dsimp only at hok
    split_ifs at hok with htrue
    cases hok
    have hless : ∀ col < names.length, (pushed options.types calls col).cells.length < 2 ^ 32 := fun col hcol =>
      Nat.lt_of_le_of_lt (length_pushed_concat ..) (hrows col hcol)
    exact (ih hbefore hless).step hless (htrue ▸ hstep)

end Tracks

end LynxTrace.TraceProcessor.Core
