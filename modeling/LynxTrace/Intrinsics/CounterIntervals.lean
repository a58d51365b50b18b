import LynxTrace.Intrinsics.CounterPerTrack

/-!
# CounterIntervals — the intervals `__intrinsic_counter_intervals` makes of the kept counter rows

`step` follows `counter_intervals.cc`; a builder column is the list of the cells pushed to it.
-/

namespace LynxTrace.TraceProcessor

/-- `x - y`. -/
def Double.sub (x y : Double) : Double :=
  if x.isNaN then x else if y.isNaN then y else x.add ⟨y.bits ^^^ 0x8000000000000000⟩

namespace Intrinsics.CounterIntervals

open CounterPerTrackAgg

/-! ### The source -/

/-- The columns of the dataframe builder. -/
structure IntervalColumns where
  id : List Int64 := []
  ts : List Int64 := []
  dur : List Int64 := []
  trackId : List Int64 := []
  value : List Double := []
  nextValue : List (Option Double) := []
  deltaValue : List (Option Double) := []
  deriving DecidableEq, Repr

/-- The differences of neighbours, for `i` from 0 to the last but one. -/
def neighbours {α β : Type} (f : α → α → β) : List α → List β
  | a :: b :: l => f a b :: neighbours f (b :: l)
  | _ => []

/-- One round of the loop over the tracks. -/
def pushTrack (traceEnd : Int64) (c : IntervalColumns) (trackId : Int64) (cols : CounterTrackPartition) :
    IntervalColumns where
  id := c.id ++ cols.id
  ts := c.ts ++ cols.ts
  dur := c.dur ++ (neighbours (fun ts next => next - ts) cols.ts ++ [traceEnd - cols.ts.getLastD 0])
  trackId := c.trackId ++ List.replicate cols.id.length trackId
  value := c.value ++ cols.val
  nextValue := c.nextValue ++ (neighbours (fun _ next => some next) cols.val ++ [none])
  deltaValue := c.deltaValue ++ (none :: neighbours (fun val next => some (next.sub val)) cols.val)

/-- `base::CaseInsensitiveEqual`. -/
def caseInsensitiveEqual (a b : String) : Bool := a.toList.map Char.toLower = b.toList.map Char.toLower

/-- `Step`, with the tracks in the order in which the hash map gives them. -/
def step (leadingStr : Option String) (traceEnd : Int64)
    (partitionedCounter : Option (List (Int64 × CounterTrackPartition))) : Except String IntervalColumns :=
  match leadingStr with
  | none => .error "interval intersect: column list cannot be null"
  | some leadingStr =>
    if caseInsensitiveEqual "lagging" leadingStr then .error "interval intersect: 'lagging' is not implemented"
    else if !caseInsensitiveEqual "leading" leadingStr then
      .error "interval intersect: second argument has to be either 'leading' or 'lagging"
    else
      match partitionedCounter with
      | none => .ok {}
      | some tracks => .ok (tracks.foldl (fun c e => pushTrack traceEnd c e.1 e.2) {})

/-! ### The rows of the table -/

structure IntervalRow where
  id : Int64
  ts : Int64
  dur : Int64
  trackId : Int64
  value : Double
  nextValue : Option Double
  deltaValue : Option Double
  deriving DecidableEq, Repr

/-- The row of every index. -/
def IntervalColumns.rows (c : IntervalColumns) : List IntervalRow :=
  (c.id.zip (c.ts.zip (c.dur.zip (c.trackId.zip (c.value.zip (c.nextValue.zip c.deltaValue)))))).map
    fun (id, ts, dur, trackId, value, nextValue, deltaValue) => ⟨id, ts, dur, trackId, value, nextValue, deltaValue⟩

/-- All columns have `n` cells. -/
structure IntervalColumns.Length (c : IntervalColumns) (n : ℕ) : Prop where
  id : c.id.length = n
  ts : c.ts.length = n
  dur : c.dur.length = n
  trackId : c.trackId.length = n
  value : c.value.length = n
  nextValue : c.nextValue.length = n
  deltaValue : c.deltaValue.length = n

/-- The rows of one track: the first one kept, `prev` the value before it. -/
def blockRows (traceEnd trackId : Int64) (prev : Option Double) : List CounterRow → List IntervalRow
  | [] => []
  | [r] => [⟨r.id, r.ts, traceEnd - r.ts, trackId, r.val, none, prev.map r.val.sub⟩]
  | r :: q :: kept => ⟨r.id, r.ts, q.ts - r.ts, trackId, r.val, some q.val, prev.map r.val.sub⟩ ::
      blockRows traceEnd trackId (some r.val) (q :: kept)

theorem length_neighbours {α β : Type} (f : α → α → β) (a : α) (l : List α) :
    (neighbours f (a :: l)).length = l.length := by
  induction l generalizing a with
  | nil => rfl
  | cons b l ih => rw [neighbours, List.length_cons, ih, List.length_cons]

/-- The columns that one track adds. -/
def trackColumns (traceEnd trackId : Int64) (prev : Option Double) (kept : List CounterRow) : IntervalColumns where
  id := kept.map (·.id)
  ts := kept.map (·.ts)
  dur := neighbours (fun ts next => next - ts) (kept.map (·.ts)) ++ [traceEnd - (kept.map (·.ts)).getLastD 0]
  trackId := List.replicate kept.length trackId
  value := kept.map (·.val)
  nextValue := neighbours (fun _ next => some next) (kept.map (·.val)) ++ [none]
  deltaValue := (kept.head?.map fun r => prev.map r.val.sub).toList ++
    neighbours (fun val next => some (next.sub val)) (kept.map (·.val))

variable {kept : List CounterRow}

theorem length_trackColumns (traceEnd trackId : Int64) (prev : Option Double) (hne : kept ≠ []) :
    (trackColumns traceEnd trackId prev kept).Length kept.length := by
  obtain ⟨r, kept, rfl⟩ := List.exists_cons_of_ne_nil hne
  constructor <;> simp [trackColumns, length_neighbours]

theorem rows_trackColumns (traceEnd trackId : Int64) (prev : Option Double) (hne : kept ≠ []) :
    (trackColumns traceEnd trackId prev kept).rows = blockRows traceEnd trackId prev kept := by
  induction kept generalizing prev with
  | nil => exact absurd rfl hne
  | cons r kept ih =>
    cases kept with
    | nil => simp [trackColumns, IntervalColumns.rows, blockRows, neighbours]
    | cons q kept =>
      have := ih (some r.val) (List.cons_ne_nil q kept)
      simp only [trackColumns, IntervalColumns.rows, List.map_cons, List.length_cons, List.replicate_succ,
        neighbours, List.head?_cons, Option.map_some, Option.toList_some, List.nil_append, List.cons_append,
        List.zip_cons_cons, List.getLastD_cons] at this ⊢
      rw [blockRows, ← this]

/-- The columns of a track come after those of the tracks before it. -/
theorem rows_pushTrack {traceEnd trackId : Int64} {c : IntervalColumns} {n : ℕ} (hc : c.Length n)
    {cols : CounterTrackPartition} (hne : kept ≠ []) (hid : cols.id = kept.map (·.id)) (hts : cols.ts = kept.map (·.ts))
    (hval : cols.val = kept.map (·.val)) :
    (pushTrack traceEnd c trackId cols).rows = c.rows ++ blockRows traceEnd trackId none kept ∧
      (pushTrack traceEnd c trackId cols).Length (n + kept.length) := by
  have hd := length_trackColumns traceEnd trackId none hne
  have hpush : pushTrack traceEnd c trackId cols =
      { id := c.id ++ (trackColumns traceEnd trackId none kept).id
        ts := c.ts ++ (trackColumns traceEnd trackId none kept).ts
        dur := c.dur ++ (trackColumns traceEnd trackId none kept).dur
        trackId := c.trackId ++ (trackColumns traceEnd trackId none kept).trackId
        value := c.value ++ (trackColumns traceEnd trackId none kept).value
        nextValue := c.nextValue ++ (trackColumns traceEnd trackId none kept).nextValue
        deltaValue := c.deltaValue ++ (trackColumns traceEnd trackId none kept).deltaValue } := by
    obtain ⟨r, kept, rfl⟩ := List.exists_cons_of_ne_nil hne
    simp [pushTrack, trackColumns, hid, hts, hval]
  rw [← rows_trackColumns traceEnd trackId none hne, hpush]
  generalize trackColumns traceEnd trackId none kept = d at hd
  constructor
  · have h₁ : c.nextValue.length = c.deltaValue.length := by rw [hc.nextValue, hc.deltaValue]
    have h₂ : c.value.length = (c.nextValue.zip c.deltaValue).length := by
      rw [List.length_zip, hc.value, hc.nextValue, hc.deltaValue, Nat.min_self]
    have h₃ : c.trackId.length = (c.value.zip (c.nextValue.zip c.deltaValue)).length := by
      rw [List.length_zip, ← h₂, hc.trackId, hc.value, Nat.min_self]
    have h₄ : c.dur.length = (c.trackId.zip (c.value.zip (c.nextValue.zip c.deltaValue))).length := by
      rw [List.length_zip, ← h₃, hc.dur, hc.trackId, Nat.min_self]
    have h₅ : c.ts.length = (c.dur.zip (c.trackId.zip (c.value.zip (c.nextValue.zip c.deltaValue)))).length := by
      rw [List.length_zip, ← h₄, hc.ts, hc.dur, Nat.min_self]
    have h₆ : c.id.length =
        (c.ts.zip (c.dur.zip (c.trackId.zip (c.value.zip (c.nextValue.zip c.deltaValue))))).length := by
      rw [List.length_zip, ← h₅, hc.id, hc.ts, Nat.min_self]
    simp only [IntervalColumns.rows]
    rw [List.zip_append h₁, List.zip_append h₂, List.zip_append h₃, List.zip_append h₄, List.zip_append h₅,
      List.zip_append h₆, List.map_append]
  · constructor <;> simp only [List.length_append, hc.id, hc.ts, hc.dur, hc.trackId, hc.value, hc.nextValue,
      hc.deltaValue, hd.id, hd.ts, hd.dur, hd.trackId, hd.value, hd.nextValue, hd.deltaValue]

/-! ### The intervals of one track -/

/-- What the output rows `out` of a track are for its counter rows. -/
structure Preserves (rows : List CounterRow) (traceEnd : Int64) (out : List IntervalRow) : Prop where
  first : out.head?.map (·.ts) = rows.head?.map (·.ts)
  last : ∀ r ∈ out.getLast?, r.ts.toInt + r.dur.toInt = traceEnd.toInt ∧ r.nextValue = none
  contiguous : out.IsChain fun r q => r.ts.toInt + r.dur.toInt = q.ts.toInt ∧ r.nextValue = some q.value ∧
    q.deltaValue = some (q.value.sub r.value)
  forwards : ∀ r ∈ out, 0 ≤ r.dur.toInt
  firstDelta : ∀ r ∈ out.head?, r.deltaValue = none
  value : ∀ r ∈ out, ∀ t : ℤ, r.ts.toInt ≤ t → t < r.ts.toInt + r.dur.toInt →
    ∃ q ∈ lastAt rows t, r.value.Same q.val

theorem toInt_sub_of_le {a b : Int64} (ha : 0 ≤ a.toInt) (hab : a.toInt ≤ b.toInt) :
    (b - a).toInt = b.toInt - a.toInt := by
  have hb := b.toInt_lt
  rw [Int64.toInt_sub]
  exact Int.bmod_eq_of_le (by omega) (by omega)

section

variable {traceEnd trackId : Int64}

theorem exists_blockRows_cons (prev : Option Double) (r : CounterRow) (kept : List CounterRow) :
    ∃ row rest, blockRows traceEnd trackId prev (r :: kept) = row :: rest ∧ row.ts = r.ts ∧ row.value = r.val ∧
      row.deltaValue = prev.map r.val.sub := by
  cases kept with
  | nil | cons q kept => exact ⟨_, _, rfl, rfl, rfl, rfl⟩

variable {prev : Option Double}

theorem trackId_of_mem_blockRows {row : IntervalRow} (h : row ∈ blockRows traceEnd trackId prev kept) :
    row.trackId = trackId := by
  induction kept generalizing prev with
  | nil => cases h
  | cons r kept ih =>
    cases kept with
    | nil => rw [List.mem_singleton.mp h]
    | cons q kept =>
      rcases List.mem_cons.mp h with rfl | h
      · rfl
      · exact ih h

section

variable (hts : ∀ r ∈ kept, 0 ≤ r.ts.toInt)

include hts

theorem isChain_blockRows (hsorted : kept.Pairwise fun r q => r.ts.toInt ≤ q.ts.toInt) :
    (blockRows traceEnd trackId prev kept).IsChain fun r q => r.ts.toInt + r.dur.toInt = q.ts.toInt ∧
      r.nextValue = some q.value ∧ q.deltaValue = some (q.value.sub r.value) := by
  induction kept generalizing prev with
  | nil => exact List.IsChain.nil
  | cons r kept ih =>
    cases kept with
    | nil => exact List.IsChain.singleton _
    | cons q kept =>
      obtain ⟨hr, hts⟩ := List.forall_mem_cons.mp hts
      obtain ⟨hfirst, hsorted⟩ := List.pairwise_cons.mp hsorted
      have hrest := @ih (some r.val) hts hsorted
      obtain ⟨row, rest, hcons, hrow, hvalue, hdelta⟩ :=
        @exists_blockRows_cons traceEnd trackId (some r.val) q kept
      rw [blockRows]
      rw [hcons] at hrest ⊢
      refine List.IsChain.cons_cons ⟨?_, by rw [hvalue], by rw [hdelta, hvalue]; rfl⟩ hrest
      show r.ts.toInt + (q.ts - r.ts).toInt = _
      rw [toInt_sub_of_le hr (hfirst q List.mem_cons_self), hrow]
      omega

theorem getLast_blockRows (hend : ∀ r ∈ kept, r.ts.toInt ≤ traceEnd.toInt) :
    ∀ r ∈ (blockRows traceEnd trackId prev kept).getLast?,
      r.ts.toInt + r.dur.toInt = traceEnd.toInt ∧ r.nextValue = none := by
  induction kept generalizing prev with
  | nil => exact fun r hr => nomatch hr
  | cons r kept ih =>
    obtain ⟨hr, hts⟩ := List.forall_mem_cons.mp hts
    obtain ⟨hrend, hend⟩ := List.forall_mem_cons.mp hend
    cases kept with
    | nil =>
      intro row hrow
      rw [← Option.mem_some_iff.mp hrow]
      refine ⟨?_, rfl⟩
      show r.ts.toInt + (traceEnd - r.ts).toInt = _
      rw [toInt_sub_of_le hr hrend]
      omega
    | cons q kept =>
      obtain ⟨row, rest, hcons, -⟩ :=
        @exists_blockRows_cons traceEnd trackId (some r.val) q kept
      have hrest := @ih (some r.val) hts hend
      rw [blockRows]
      rw [hcons] at hrest ⊢
      rw [List.getLast?_cons_cons]
      exact hrest

theorem forwards_blockRows (hsorted : kept.Pairwise fun r q => r.ts.toInt ≤ q.ts.toInt)
    (hend : ∀ r ∈ kept, r.ts.toInt ≤ traceEnd.toInt) : ∀ r ∈ blockRows traceEnd trackId prev kept, 0 ≤ r.dur.toInt := by
  induction kept generalizing prev with
  | nil => exact fun r hr => nomatch hr
  | cons r kept ih =>
    obtain ⟨hr, hts⟩ := List.forall_mem_cons.mp hts
    obtain ⟨hrend, hend⟩ := List.forall_mem_cons.mp hend
    obtain ⟨hfirst, hsorted⟩ := List.pairwise_cons.mp hsorted
    intro row hrow
    cases kept with
    | nil =>
      rw [List.mem_singleton.mp hrow]
      show 0 ≤ (traceEnd - r.ts).toInt
      rw [toInt_sub_of_le hr hrend]
      omega
    | cons q kept =>
      rcases List.mem_cons.mp hrow with rfl | hrow
      · have hle := hfirst q List.mem_cons_self
        show 0 ≤ (q.ts - r.ts).toInt
        rw [toInt_sub_of_le hr hle]
        omega
      · exact ih hts hsorted hend row hrow

/-- Each interval says what the last row before each of its times says. -/
theorem value_blockRows (hsorted : kept.Pairwise fun r q => r.ts.toInt ≤ q.ts.toInt) {row : IntervalRow}
    (hrow : row ∈ blockRows traceEnd trackId prev kept) {t : ℤ} (hstart : row.ts.toInt ≤ t)
    (hstop : t < row.ts.toInt + row.dur.toInt) : ∃ q ∈ lastAt kept t, row.value = q.val := by
  induction kept generalizing prev with
  | nil => cases hrow
  | cons r kept ih =>
    obtain ⟨hr, hts⟩ := List.forall_mem_cons.mp hts
    obtain ⟨hfirst, hsorted⟩ := List.pairwise_cons.mp hsorted
    cases kept with
    | nil =>
      obtain rfl := List.mem_singleton.mp hrow
      refine ⟨r, ?_, rfl⟩
      rw [lastAt, List.filter_cons_of_pos (by simpa using hstart)]
      rfl
    | cons q kept =>
      rcases List.mem_cons.mp hrow with rfl | hrow
      · -- no later row has come yet
        have hle := hfirst q List.mem_cons_self
        change t < r.ts.toInt + (q.ts - r.ts).toInt at hstop
        rw [toInt_sub_of_le hr hle] at hstop
        have hlater : (q :: kept).filter (·.ts.toInt ≤ t) = [] := by
          refine List.filter_eq_nil_iff.mpr fun s hs => ?_
          have hqs : q.ts.toInt ≤ s.ts.toInt := by
            rcases List.mem_cons.mp hs with rfl | hs
            · exact Int.le_refl _
            · exact (List.pairwise_cons.mp hsorted).1 s hs
          simp only [decide_eq_true_eq]
          omega
        refine ⟨r, ?_, rfl⟩
        rw [lastAt, List.filter_cons_of_pos (by simpa using hstart), hlater]
        rfl
      · obtain ⟨s, hs, hval⟩ := ih hts hsorted hrow
        refine ⟨s, ?_, hval⟩
        have hlast : ((q :: kept).filter (·.ts.toInt ≤ t)).getLast? = some s := hs
        by_cases hrt : r.ts.toInt ≤ t
        · rw [lastAt, List.filter_cons_of_pos (by simpa using hrt), List.getLast?_cons, hlast]
          rfl
        · rw [lastAt, List.filter_cons_of_neg (by simpa using hrt), hlast]
          rfl

end

/-- The rows of a track are right for all rows of which `kept` is kept. -/
theorem Preserves.ofKeeps {rows : List CounterRow} {p : CounterTrackPartition} (h : Keeps rows kept p)
    (hts : ∀ r ∈ rows, 0 ≤ r.ts.toInt) (hend : ∀ r ∈ rows, r.ts.toInt ≤ traceEnd.toInt) :
    Preserves rows traceEnd (blockRows traceEnd trackId none kept) := by
  have hts' : ∀ r ∈ kept, 0 ≤ r.ts.toInt := fun r hr => hts r (h.subset hr)
  have hend' : ∀ r ∈ kept, r.ts.toInt ≤ traceEnd.toInt := fun r hr => hend r (h.subset hr)
  obtain ⟨r, rest, hkept⟩ := List.exists_cons_of_ne_nil h.nonempty
  obtain ⟨row, rows', hcons, hrow, -, hdelta⟩ :=
    @exists_blockRows_cons traceEnd trackId none r rest
  refine ⟨?_, getLast_blockRows hts' hend', isChain_blockRows hts' h.sorted,
    forwards_blockRows hts' h.sorted hend', ?_, fun row hrow t hstart hstop => ?_⟩
  · rw [← h.first, hkept, hcons, List.head?_cons, List.head?_cons, Option.map_some, Option.map_some, hrow]
  · rw [hkept, hcons]
    intro first hfirst
    rw [← Option.mem_some_iff.mp hfirst, hdelta]
    rfl
  · obtain ⟨q, hq, hval⟩ := value_blockRows hts' h.sorted hrow hstart hstop
    have hagrees := h.agrees t
    rw [Option.mem_def.mp hq] at hagrees
    cases hlast : lastAt rows t with
    | none => rw [hlast] at hagrees; cases hagrees
    | some s =>
      rw [hlast] at hagrees
      cases hagrees with
      | some hsame => exact ⟨s, rfl, hval ▸ hsame⟩

end

/-! ### All tracks -/

/-- The loop over the tracks adds the rows of each of them. -/
theorem rows_foldl {traceEnd : Int64} {rows : List CounterRow} {tracks : List (Int64 × CounterTrackPartition)}
    {c : IntervalColumns} {n : ℕ} (hc : c.Length n)
    (htracks : ∀ e ∈ tracks, ∃ kept, Keeps (rows.filter (·.key = e.1)) kept e.2) :
    ∃ blocks : List (Int64 × List CounterRow), blocks.map (·.1) = tracks.map (·.1) ∧
      (∀ b ∈ blocks, ∃ p, Keeps (rows.filter (·.key = b.1)) b.2 p) ∧
      (tracks.foldl (fun c e => pushTrack traceEnd c e.1 e.2) c).rows =
        c.rows ++ blocks.flatMap fun b => blockRows traceEnd b.1 none b.2 := by
  induction tracks generalizing c n with
  | nil => exact ⟨[], rfl, by simp, by simp⟩
  | cons e tracks ih =>
    obtain ⟨⟨kept, hkept⟩, htracks⟩ := List.forall_mem_cons.mp htracks
    obtain ⟨hrows, hlength⟩ :=
      @rows_pushTrack kept traceEnd e.1 c n hc e.2 hkept.nonempty hkept.id hkept.ts hkept.val
    obtain ⟨blocks, hkeys, hblocks, hfold⟩ := ih hlength htracks
    refine ⟨(e.1, kept) :: blocks, by rw [List.map_cons, List.map_cons, hkeys],
      List.forall_mem_cons.mpr ⟨⟨e.2, hkept⟩, hblocks⟩, ?_⟩
    rw [List.foldl_cons, hfold, hrows, List.flatMap_cons, List.append_assoc]

/-- Among the rows of all tracks those of one track are its block. -/
theorem filter_blocks {traceEnd k : Int64} {blocks : List (Int64 × List CounterRow)}
    (hnodup : (blocks.map (·.1)).Nodup) :
    (blocks.flatMap fun b => blockRows traceEnd b.1 none b.2).filter (·.trackId = k) =
      (blocks.find? (·.1 = k)).elim [] fun b => blockRows traceEnd k none b.2 := by
  induction blocks with
  | nil => rfl
  | cons b blocks ih =>
    obtain ⟨hnot, hnodup⟩ := List.nodup_cons.mp hnodup
    rw [List.flatMap_cons, List.filter_append, ih hnodup]
    by_cases hb : b.1 = k
    · have hrest : blocks.find? (·.1 = k) = none := List.find?_eq_none.mpr fun b' hb' => by
        simp only [decide_eq_true_eq]
        intro heq
        exact hnot (List.mem_map.mpr ⟨b', hb', heq.trans hb.symm⟩)
      rw [hrest, List.find?_cons_of_pos (by simpa using hb), Option.elim_none, List.append_nil, Option.elim_some, hb]
      exact List.filter_eq_self.mpr fun row hrow => by simpa using trackId_of_mem_blockRows hrow
    · have hnone : (blockRows traceEnd b.1 none b.2).filter (·.trackId = k) = [] :=
        List.filter_eq_nil_iff.mpr fun row hrow => by simpa [trackId_of_mem_blockRows hrow] using hb
      rw [hnone, List.nil_append, List.find?_cons_of_neg (by simpa using hb)]

theorem key_eq {r : CounterRow} (h₀ : 0 ≤ r.trackId.toInt) (h₁ : r.trackId.toInt < 2 ^ 32) : r.key = r.trackId := by
  rw [CounterRow.key, Int.emod_eq_of_lt h₀ h₁, Int64.ofInt_toInt]

/-- Two tracks, one of them with a run of zeros of which the first two rows and the last one stay. -/
def interleavedRows : List CounterRow :=
  [⟨0, 0, 1, .zero⟩, ⟨1, 3, 2, ⟨0x3FF0000000000000⟩⟩, ⟨2, 4, 1, .zero⟩, ⟨3, 6, 1, .zero⟩, ⟨4, 8, 1, .zero⟩,
    ⟨5, 9, 1, ⟨0x3FF0000000000000⟩⟩]

end Intrinsics.CounterIntervals

end LynxTrace.TraceProcessor
