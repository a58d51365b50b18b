import LynxTrace.TraceProcessor.ImplicitSegmentForest

/-!
# SegmentForestRuns — any number of pushes, and the queries after them

* `tryPush` and `tryQuery` : `Push` and `Query` with the integers of the code; `none` is a place outside the array.
* `tryPush_eq`, `Stores.tryQuery` : below 2^31 leaves they do what `push` and `query` do.
* `tryPushes_spec` : after any pushes the nodes are right, and every query is the fold of its range.
-/

namespace LynxTrace.TraceProcessor.ImplicitSegmentForest

/-! ### The source -/

/-- `1 << level`, an `int` that becomes a `size_t`; `none` is a shift by its width or more. -/
def shiftedOne (level : ℕ) : Option ℕ :=
  if level < 31 then some (2 ^ level) else if level = 31 then some (2 ^ 64 - 2 ^ 31) else none

/-- A difference of two `size_t`. -/
def minus (a b : ℕ) : ℕ := (a + (2 ^ 64 - b)) % 2 ^ 64

variable {T : Type*} [Inhabited T] (op : T → T → T)

/-- The loop of `Push`, from a level on, for so many levels. -/
def tryCarry : ℕ → ℕ → ℕ → List T → Option (List T)
  | 0, _, _, values => some values
  | levels + 1, level, cur, values =>
    (shiftedOne level).bind fun shifted =>
      values[minus cur shifted]?.bind fun prev => values[cur]?.bind fun v =>
        tryCarry levels (level + 1) (minus cur shifted) (values.set (minus cur shifted) (op prev v))

def tryPush (values : List T) (v : T) : Option (List T) :=
  let len := values.length + 1
  let levelsToIndex := countTrailZeros 64 (2 ^ 64 - 1 - len) - 1
  (tryCarry op levelsToIndex 0 (len - 1) (values ++ [v])).bind fun values =>
    (shiftedOne levelsToIndex).bind fun shifted => values[minus len shifted]?.map (values ++ [·])

def tryPushes (vs : List T) : Option (List T) := vs.foldlM (tryPush op) []

/-- `LargestPrefixInsideSkip` and `AggNode` of `uint32_t`. -/
def skip32 (min max : ℕ) : ℕ := largestPrefixInsideSkip min (if min ≤ max then max else max + 2 ^ 32)

def aggNode32 (i offset : ℕ) : ℕ := (i + offset / 2 + (2 ^ 32 - 1)) % 2 ^ 32

/-- The loop of `Query`; the place is a `uint32_t`, and a loop that comes to as many places does not end. -/
def tryQueryLoop (values : List T) (inEnd : ℕ) : ℕ → ℕ → T → Option T
  | 0, _, _ => none
  | rounds + 1, i, aggregated =>
    if i < inEnd then
      let skip := skip32 i inEnd
      values[aggNode32 i skip]?.bind fun v =>
        tryQueryLoop values inEnd rounds ((i + skip) % 2 ^ 32) (op aggregated v)
    else some aggregated

def tryQuery (values : List T) (start stop : ℕ) : Option T :=
  let inStart := start * 2 % 2 ^ 32
  let inEnd := stop * 2 % 2 ^ 32
  let firstSkip := skip32 inStart inEnd
  values[aggNode32 inStart firstSkip]?.bind
    (tryQueryLoop op values inEnd (2 ^ 32 + 1) ((inStart + firstSkip) % 2 ^ 32))

/-! ### Pushes -/

theorem minus_eq {a b : ℕ} (hle : b ≤ a) (ha : a < 2 ^ 64) : minus a b = a - b := by
  unfold minus
  omega

theorem shiftedOne_eq {level : ℕ} (h : level < 31) : shiftedOne level = some (2 ^ level) := if_pos h

variable {op}

theorem tryCarry_eq {levels : ℕ} : ∀ {level cur : ℕ} {values : List T}, level + levels ≤ 31 →
    2 ^ (level + levels) ≤ cur + 2 ^ level → cur < values.length → values.length < 2 ^ 64 →
    tryCarry op levels level cur values = some (carry op levels level cur values) := by
  induction levels with
  | zero => exact fun _ _ _ _ => rfl
  | succ levels ih =>
    intro level cur values hlevels hfits hcur hlength
    have hstep : level + (levels + 1) = level + 1 + levels := by omega
    have hpow : 2 ^ (level + 1) ≤ 2 ^ (level + 1 + levels) := Nat.pow_le_pow_right (by decide) (by omega)
    have hdouble : 2 ^ (level + 1) = 2 ^ level * 2 := Nat.pow_succ 2 level
    rw [hstep] at hfits
    have hle : 2 ^ level ≤ cur := by omega
    have hprev : cur - 2 ^ level < values.length := by omega
    rw [tryCarry, carry, shiftedOne_eq (by omega), Option.bind_some, minus_eq hle (by omega),
      List.getElem?_eq_getElem hprev, Option.bind_some, List.getElem?_eq_getElem hcur, Option.bind_some,
      List.getD_eq_getElem _ _ hprev, List.getD_eq_getElem _ _ hcur]
    exact ih (by omega) (by omega) (by rwa [List.length_set]) (by rwa [List.length_set])

omit [Inhabited T] in
theorem tryCarry_length {levels : ℕ} : ∀ {level cur : ℕ} {values values' : List T},
    tryCarry op levels level cur values = some values' → values'.length = values.length := by
  induction levels with
  | zero =>
    intro _ _ _ _ h
    rw [← Option.some.inj h]
  | succ levels ih =>
    intro level cur values values' h
    simp only [tryCarry, Option.bind_eq_some_iff] at h
    obtain ⟨_, -, _, -, _, -, h⟩ := h
    rw [ih h, List.length_set]

theorem carry_length {levels : ℕ} : ∀ {level cur : ℕ} {values : List T},
    (carry op levels level cur values).length = values.length := by
  induction levels with
  | zero => exact rfl
  | succ levels ih =>
    intro level cur values
    rw [carry, ih, List.length_set]

/-- Below 2^31 leaves no shift leaves an `int`. -/
theorem tryPush_eq {xs values : List T} (h : Stores op xs values) (v : T) (hlength : xs.length + 1 < 2 ^ 31) :
    tryPush op values v = some (push op values v) := by
  obtain ⟨k, m, ⟨q, rfl⟩, hn⟩ := Nat.exists_eq_two_pow_mul_odd (Nat.succ_ne_zero xs.length)
  have hk : 2 ^ k ≤ xs.length + 1 := by
    rw [← Nat.succ_eq_add_one, hn]
    exact Nat.le_mul_of_pos_right _ (by omega)
  have hk31 : k < 31 := (Nat.pow_lt_pow_iff_right (show 1 < 2 by decide)).mp (Nat.lt_of_le_of_lt hk hlength)
  have hlen : (values ++ [v]).length = 2 * xs.length + 1 := by rw [List.length_append, h.length]; rfl
  have hcarry : tryCarry op k 0 (2 * xs.length) (values ++ [v]) = some (carry op k 0 (2 * xs.length) (values ++ [v])) :=
    tryCarry_eq (by omega) (by rw [Nat.zero_add]; omega) (by rw [hlen]; omega) (by rw [hlen]; omega)
  have hindex : 2 * xs.length + 1 - 2 ^ k < (carry op k 0 (2 * xs.length) (values ++ [v])).length := by
    have := Nat.two_pow_pos k
    rw [carry_length, hlen]
    omega
  simp only [tryPush, push, h.length, hlen, levelsToIndex_eq hn (by omega), Nat.add_sub_cancel, hcarry,
    Option.bind_some, shiftedOne_eq hk31]
  rw [minus_eq (by omega) (by omega), List.getElem?_eq_getElem hindex, List.getD_eq_getElem _ _ hindex, Option.map_some]

/-! ### Queries -/

/-- In the range of the `uint32_t`, the skip leads over a node that holds what it leads over. -/
theorem Stores.getElem_aggNode32 {xs values : List T} (h : Stores op xs values) {a b : ℕ} (hab : a < b)
    (hb : b ≤ xs.length) (hlt : b * 2 < 2 ^ 32) :
    ∃ k, skip32 (a * 2) (b * 2) = 2 ^ k * 2 ∧ a + 2 ^ k ≤ b ∧
      (a * 2 + 2 ^ k * 2) % 2 ^ 32 = (a + 2 ^ k) * 2 ∧
      values[aggNode32 (a * 2) (2 ^ k * 2)]? = some (aggRange op xs a (a + 2 ^ k)) := by
  obtain ⟨k, hskip, hend, hnode⟩ := h.getElem_aggNode hab hb hlt
  have hpos := Nat.two_pow_pos k
  have hplace : aggNode32 (a * 2) (2 ^ k * 2) = aggNode (a * 2) (2 ^ k * 2) := by
    unfold aggNode32 aggNode
    omega
  exact ⟨k, by rw [skip32, if_pos (by omega), hskip], hend, by omega, by rw [hplace, hnode]⟩

variable [Std.Associative op]

theorem Stores.tryQueryLoop {xs values : List T} (h : Stores op xs values) {start stop : ℕ} (hstop : stop ≤ xs.length)
    (hlt : stop * 2 < 2 ^ 32) {rounds a : ℕ} (ha : start < a) (hle : a ≤ stop) (hrounds : stop - a < rounds) :
    ImplicitSegmentForest.tryQueryLoop op values (stop * 2) rounds (a * 2) (aggRange op xs start a) =
      some (aggRange op xs start stop) := by
  induction rounds generalizing a with
  | zero => omega
  | succ rounds ih =>
    rw [ImplicitSegmentForest.tryQueryLoop]
    by_cases hlast : a = stop
    · rw [if_neg (by omega), hlast]
    · rw [if_pos (by omega)]
      obtain ⟨k, hskip, hend, hnext, hnode⟩ := h.getElem_aggNode32 (Nat.lt_of_le_of_ne hle hlast) hstop hlt
      have hpos := Nat.two_pow_pos k
      simp only [hskip, hnode, hnext, Option.bind_some]
      rw [aggRange_join op ha (by omega) (by omega)]
      exact ih (by omega) hend (by omega)

/-- **A query is the aggregate of its range.** -/
theorem Stores.tryQuery {xs values : List T} (h : Stores op xs values) {start stop : ℕ} (hrange : start < stop)
    (hstop : stop ≤ xs.length) (hlt : stop * 2 < 2 ^ 32) :
    ImplicitSegmentForest.tryQuery op values start stop = some (aggRange op xs start stop) := by
  obtain ⟨k, hskip, hend, hnext, hnode⟩ := h.getElem_aggNode32 hrange hstop hlt
  have hpos := Nat.two_pow_pos k
  have hstart : start * 2 % 2 ^ 32 = start * 2 := Nat.mod_eq_of_lt (by omega)
  have hend' : stop * 2 % 2 ^ 32 = stop * 2 := Nat.mod_eq_of_lt hlt
  simp only [ImplicitSegmentForest.tryQuery, hstart, hend', hskip, hnode, hnext, Option.bind_some]
  exact h.tryQueryLoop hstop hlt (by omega) hend (by omega)

/-! ### Runs -/

/-- The pushes come through, and the nodes are right. -/
theorem tryPushes_stores (xs : List T) (hlength : xs.length < 2 ^ 31) :
    ∃ values, tryPushes op xs = some values ∧ Stores op xs values := by
  induction xs using List.reverseRecOn with
  | nil => exact ⟨[], rfl, .nil op⟩
  | append_singleton xs v ih =>
    rw [List.length_append, List.length_singleton] at hlength
    obtain ⟨values, hvalues, h⟩ := ih (by omega)
    refine ⟨push op values v, ?_, h.push v (by omega)⟩
    rw [tryPushes, List.foldlM_append, ← tryPushes, hvalues]
    show (List.foldlM (tryPush op) values [v]) = _
    rw [List.foldlM_cons, tryPush_eq h v hlength]
    rfl

variable (op) in
/-- **After any pushes**, fewer than 2^31, the nodes hold what they stand for, and every query is the fold of its
range, from the left. -/
theorem tryPushes_spec (xs : List T) (hlength : xs.length < 2 ^ 31) :
    ∃ values, tryPushes op xs = some values ∧ Stores op xs values ∧
      ∀ start stop, start < stop → stop ≤ xs.length →
        tryQuery op values start stop = some (aggRange op xs start stop) := by
  obtain ⟨values, hvalues, h⟩ := @tryPushes_stores _ _ op _ xs hlength
  exact ⟨values, hvalues, h, fun start stop hrange hstop => h.tryQuery hrange hstop (by omega)⟩

/-- Three words, joined in the order of the pushes. -/
theorem tryPushes_words :
    ∃ values, tryPushes List.append [[1], [2, 3], [4]] = some values ∧
      Stores List.append [[1], [2, 3], [4]] values ∧
      ∀ start stop, start < stop → stop ≤ 3 →
        tryQuery List.append values start stop = some (aggRange List.append [[1], [2, 3], [4]] start stop) :=
  @tryPushes_spec (List ℕ) _ List.append ⟨List.append_assoc⟩ [[1], [2, 3], [4]] (by decide)

/-- The push of the leaf 2^31 shifts into the sign of the `int`, and reads a place far behind the array. -/
theorem tryPushes_eq_none : tryPushes (· + ·) (List.replicate (2 ^ 31) 0) = none := by
  generalize hn : (2 ^ 31 - 1 : ℕ) = n
  have hsplit : List.replicate (2 ^ 31) 0 = List.replicate n 0 ++ [0] := by
    rw [← List.replicate_succ']
    congr 1
    omega
  have hlength : (List.replicate n 0).length = n := List.length_replicate
  obtain ⟨values, hvalues, h⟩ := @tryPushes_stores ℕ _ (· + ·) _ (List.replicate n 0) (by rw [hlength]; omega)
  have hlevels : countTrailZeros 64 (2 ^ 64 - 1 - (2 * n + 1)) - 1 = 31 :=
    @levelsToIndex_eq n 31 0 (by omega) (by omega)
  rw [hsplit, tryPushes, List.foldlM_append, ← tryPushes, hvalues]
  show List.foldlM (tryPush (· + ·)) values [0] = none
  rw [List.foldlM_cons]
  have hnone : tryPush (· + ·) values 0 = none := by
    simp only [tryPush, h.length, hlength, hlevels]
    rw [Option.bind_eq_none_iff]
    intro values' hcarry
    have hlength' := tryCarry_length hcarry
    rw [List.length_append, h.length, hlength, List.length_singleton] at hlength'
    have hfar : values'.length ≤ minus (2 * n + 1) (2 ^ 64 - 2 ^ 31) := by
      unfold minus
      omega
    rw [show shiftedOne 31 = some (2 ^ 64 - 2 ^ 31) from rfl, Option.bind_some, List.getElem?_eq_none hfar]
    rfl
  rw [hnone]
  rfl

end LynxTrace.TraceProcessor.ImplicitSegmentForest
