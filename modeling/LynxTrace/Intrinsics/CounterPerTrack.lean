import LynxTrace.TraceProcessor.Double
import Mathlib.Data.List.Induction
import Mathlib.Data.List.Nodup
import Mathlib.Tactic.Common

/-!
# CounterPerTrack — the counter rows that `__intrinsic_counter_per_track_agg` keeps

* `CounterTrackPartition.addRow` and `step` follow `type_builders.cc`.
* `lastAt` : the last row at or before a time.
* `Keeps` : the rows kept for a track say at every time what all its rows say (`Keeps.step`).
* `mem_partitions` : the entry of a track comes from the rows of that track alone.
-/

namespace LynxTrace.TraceProcessor.Intrinsics.CounterPerTrackAgg

/-! ### The source -/

structure CounterRow where
  id : Int64
  ts : Int64
  trackId : Int64
  val : Double
  deriving DecidableEq, Repr

structure CounterTrackPartition where
  id : List Int64 := []
  ts : List Int64 := []
  val : List Double := []
  lastEqualId : Int64 := 0
  lastEqualTs : Int64 := 0
  lastEqualVal : Double := .zero
  deriving DecidableEq, Repr

namespace CounterTrackPartition

def pushBack (p : CounterTrackPartition) (id ts : Int64) (val : Double) : CounterTrackPartition :=
  { p with id := p.id ++ [id], ts := p.ts ++ [ts], val := p.val ++ [val] }

/-- The value is that of the last two rows that were kept. -/
def repeats (p : CounterTrackPartition) (val : Double) : Bool :=
  (p.val[p.val.length - 1]?.any (·.eq val)) && decide (1 < p.val.length) && (p.val[p.val.length - 2]?.any (·.eq val))

/-- The last row of a run of equal values, if one was left out; an end of the run at time 0 counts as none. -/
def flush (p : CounterTrackPartition) : CounterTrackPartition :=
  let p := if p.lastEqualTs ≠ 0 then p.pushBack p.lastEqualId p.lastEqualTs p.lastEqualVal else p
  { p with lastEqualId := 0, lastEqualTs := 0, lastEqualVal := .zero }

/-- A row of a track that has rows. -/
def addRow (p : CounterTrackPartition) (r : CounterRow) : CounterTrackPartition :=
  if p.repeats r.val then { p with lastEqualId := r.id, lastEqualTs := r.ts, lastEqualVal := r.val }
  else p.flush.pushBack r.id r.ts r.val

end CounterTrackPartition

/-- The key of a row: `static_cast<uint32_t>` of the track id. -/
def CounterRow.key (r : CounterRow) : Int64 := Int64.ofInt (r.trackId.toInt % 2 ^ 32)

/-- `Step`; the map keeps its entries in the order in which the tracks came. -/
def step (tracks : List (Int64 × CounterTrackPartition)) (r : CounterRow) : List (Int64 × CounterTrackPartition) :=
  if tracks.any (·.1 = r.key) then tracks.map fun e => if e.1 = r.key then (e.1, e.2.addRow r) else e
  else tracks ++ [(r.key, CounterTrackPartition.pushBack {} r.id r.ts r.val)]

def partitions (rows : List CounterRow) : List (Int64 × CounterTrackPartition) := rows.foldl step []

/-! ### The partition of one track -/

/-- The rows of one track put one after the other. -/
def ofRows : List CounterRow → CounterTrackPartition
  | [] => {}
  | r :: rows => rows.foldl CounterTrackPartition.addRow (CounterTrackPartition.pushBack {} r.id r.ts r.val)

variable {rows : List CounterRow}

theorem ofRows_concat (hne : rows ≠ []) (r : CounterRow) : ofRows (rows ++ [r]) = (ofRows rows).addRow r := by
  cases rows with
  | nil => exact absurd rfl hne
  | cons a rows => simp [ofRows, List.foldl_append]

/-- The entries of the map are the tracks seen, each with the partition of its rows. -/
theorem partitions_spec (rows : List CounterRow) : ((partitions rows).map (·.1)).Nodup ∧
    (∀ k p, (k, p) ∈ partitions rows ↔ (∃ r ∈ rows, r.key = k) ∧ p = ofRows (rows.filter (·.key = k))) := by
  induction rows using List.reverseRecOn with
  | nil => exact ⟨List.nodup_nil, by simp [partitions]⟩
  | append_singleton rows r ih =>
    obtain ⟨hnodup, hmem⟩ := ih
    have hfold : partitions (rows ++ [r]) = step (partitions rows) r := by
      rw [partitions, List.foldl_append]
      rfl
    have hfilter : ∀ k ≠ r.key, (rows ++ [r]).filter (·.key = k) = rows.filter (·.key = k) := by
      intro k hk
      simp [Ne.symm hk]
    rw [hfold]
    unfold step
    by_cases hany : (partitions rows).any (·.1 = r.key) = true
    · rw [if_pos hany]
      obtain ⟨⟨k, p⟩, he, hk⟩ := List.any_eq_true.mp hany
      simp only [decide_eq_true_eq] at hk
      subst hk
      obtain ⟨⟨q, hq, hqk⟩, hp⟩ := (hmem _ _).mp he
      have hne : rows.filter (·.key = r.key) ≠ [] :=
        List.ne_nil_of_mem (List.mem_filter.mpr ⟨hq, by simpa using hqk⟩)
      constructor
      · have hfst : ((·.1) ∘ fun e : Int64 × CounterTrackPartition =>
            if e.1 = r.key then (e.1, e.2.addRow r) else e) = (·.1) := by
          funext e
          simp only [Function.comp_apply]
          split <;> rfl
        rw [List.map_map, hfst]
        exact hnodup
      · intro k p'
        rw [List.mem_map]
        constructor
        · rintro ⟨⟨k', p''⟩, hmem', heq⟩
          obtain ⟨⟨s, hs, hsk⟩, hp''⟩ := (hmem _ _).mp hmem'
          by_cases hk' : k' = r.key
          · simp only [hk', if_true, Prod.mk.injEq] at heq
            obtain ⟨rfl, rfl⟩ := heq
            refine ⟨⟨r, List.mem_append_right _ (List.mem_singleton_self r), rfl⟩, ?_⟩
            rw [List.filter_append, List.filter_cons_of_pos (by simp), List.filter_nil, ofRows_concat hne, hp'', hk']
          · simp only [hk', if_false, Prod.mk.injEq] at heq
            obtain ⟨rfl, rfl⟩ := heq
            exact ⟨⟨s, List.mem_append_left _ hs, hsk⟩, by rw [hfilter k' hk', hp'']⟩
        · rintro ⟨⟨s, hs, hsk⟩, hp'⟩
          by_cases hk' : k = r.key
          · subst hk'
            refine ⟨_, he, ?_⟩
            rw [if_pos rfl, hp', List.filter_append, List.filter_cons_of_pos (by simp), List.filter_nil,
              ofRows_concat hne, hp]
          · refine ⟨(k, p'), (hmem _ _).mpr ⟨?_, by rw [hp', hfilter k hk']⟩, if_neg hk'⟩
            rcases List.mem_append.mp hs with hs | hs
            · exact ⟨s, hs, hsk⟩
            · exact absurd (List.mem_singleton.mp hs ▸ hsk.symm) hk'
    · rw [if_neg hany]
      have hnone : ∀ s ∈ rows, s.key ≠ r.key := fun s hs heq => hany (List.any_eq_true.mpr
        ⟨(s.key, _), (hmem _ _).mpr ⟨⟨s, hs, rfl⟩, rfl⟩, by simpa using heq⟩)
      have hempty : rows.filter (·.key = r.key) = [] :=
        List.filter_eq_nil_iff.mpr fun s hs => by simpa using hnone s hs
      constructor
      · rw [List.map_append]
        refine List.nodup_append.mpr ⟨hnodup, List.nodup_singleton _, fun k hk k' hk' => ?_⟩
        obtain ⟨⟨k, p⟩, he, rfl⟩ := List.mem_map.mp hk
        obtain ⟨⟨s, hs, hsk⟩, -⟩ := (hmem _ _).mp he
        rw [List.map_singleton, List.mem_singleton] at hk'
        exact hk' ▸ hsk ▸ hnone s hs
      · intro k p
        rw [List.mem_append, List.mem_singleton, hmem]
        by_cases hk : k = r.key
        · subst hk
          have hlast : ofRows ((rows ++ [r]).filter (·.key = r.key)) =
              CounterTrackPartition.pushBack {} r.id r.ts r.val := by
            rw [List.filter_append, hempty, List.filter_cons_of_pos (by simp)]
            rfl
          rw [hlast]
          constructor
          · rintro (⟨⟨s, hs, hsk⟩, -⟩ | heq)
            · exact absurd hsk (hnone s hs)
            · exact ⟨⟨r, List.mem_append_right _ (List.mem_singleton_self r), rfl⟩, (Prod.mk.inj heq).2⟩
          · rintro ⟨-, rfl⟩
            exact .inr rfl
        · rw [hfilter k hk]
          constructor
          · rintro (⟨⟨s, hs, hsk⟩, hp⟩ | heq)
            · exact ⟨⟨s, List.mem_append_left _ hs, hsk⟩, hp⟩
            · exact absurd (Prod.mk.inj heq).1 hk
          · rintro ⟨⟨s, hs, hsk⟩, hp⟩
            rcases List.mem_append.mp hs with hs | hs
            · exact .inl ⟨⟨s, hs, hsk⟩, hp⟩
            · exact absurd (List.mem_singleton.mp hs ▸ hsk.symm) hk

/-! ### The rows that stay -/

/-- The last row at or before a time. -/
def lastAt (rows : List CounterRow) (t : ℤ) : Option CounterRow := (rows.filter (·.ts.toInt ≤ t)).getLast?

variable {r : CounterRow}

theorem lastAt_concat_of_le {t : ℤ} (h : r.ts.toInt ≤ t) : lastAt (rows ++ [r]) t = some r := by
  rw [lastAt, List.filter_append, List.filter_cons_of_pos (by simpa using h), List.filter_nil,
    List.getLast?_concat]

theorem lastAt_concat_of_lt {t : ℤ} (h : t < r.ts.toInt) : lastAt (rows ++ [r]) t = lastAt rows t := by
  rw [lastAt, List.filter_append, List.filter_cons_of_neg (by simpa using h), List.filter_nil, List.append_nil,
    lastAt]

/-- From its last row on, a sorted list says what that row says. -/
theorem lastAt_of_last_le {t : ℤ} (hr : r ∈ rows.getLast?) (h : r.ts.toInt ≤ t) : lastAt rows t = some r := by
  obtain ⟨front, rfl⟩ := List.getLast?_eq_some_iff.mp hr
  exact lastAt_concat_of_le h

/-- Rows with the same value. -/
def SameVal (r q : CounterRow) : Prop := r.val.Same q.val

theorem Double.same_of_eq {x y : Double} (h : x.eq y = true) : x.Same y := by
  simp only [Double.eq, Bool.and_eq_true, decide_eq_true_eq] at h
  have hkey := h.2
  unfold Double.key Double.negative Double.magnitude at hkey
  by_cases hsame : x.bits.toNat = y.bits.toNat
  · refine .inl ?_
    cases x
    cases y
    exact congrArg _ (UInt64.toNat_inj.mp hsame)
  · have hx := x.bits.toNat_lt
    have hy := y.bits.toNat_lt
    have hzero : ∀ z : Double, z.bits.toNat = 0 ∨ z.bits.toNat = 2 ^ 63 → z.isZero = true := by
      intro z hz
      simp only [Double.isZero, Bool.or_eq_true, decide_eq_true_eq]
      exact hz.imp (fun h => UInt64.toNat_inj.mp h) (fun h => UInt64.toNat_inj.mp h)
    refine .inr ⟨hzero x ?_, hzero y ?_⟩ <;> simp only [decide_eq_true_eq] at hkey <;> split_ifs at hkey <;> omega

/-- `kept` is what the partition `p` keeps of the rows `rows` of its track. -/
structure Keeps (rows kept : List CounterRow) (p : CounterTrackPartition) : Prop where
  id : p.id = kept.map (·.id)
  ts : p.ts = kept.map (·.ts)
  val : p.val = kept.map (·.val)
  nonempty : kept ≠ []
  subset : kept ⊆ rows
  sorted : kept.Pairwise fun r q => r.ts.toInt ≤ q.ts.toInt
  first : kept.head?.map (·.ts) = rows.head?.map (·.ts)
  agrees : ∀ t, Option.Rel SameVal (lastAt kept t) (lastAt rows t)
  pending : p.lastEqualTs ≠ 0 → ∃ r ∈ rows.getLast?, r.id = p.lastEqualId ∧ r.ts = p.lastEqualTs ∧
    r.val = p.lastEqualVal

theorem SameVal.refl (r : CounterRow) : SameVal r r := .inl rfl

theorem Option.rel_sameVal_refl (o : Option CounterRow) : Option.Rel SameVal o o := by
  cases o with
  | none => exact .none
  | some r => exact .some (SameVal.refl r)

/-- Keeping the last row once more changes nothing. -/
theorem Keeps.flush {kept : List CounterRow} {p : CounterTrackPartition} (h : Keeps rows kept p)
    (hsorted : rows.Pairwise fun r q => r.ts.toInt ≤ q.ts.toInt) : ∃ kept', Keeps rows kept' p.flush := by
  by_cases hpending : p.lastEqualTs ≠ 0
  · obtain ⟨r, hr, hid, hts, hval⟩ := h.pending hpending
    obtain ⟨front, hfront⟩ := List.getLast?_eq_some_iff.mp hr
    have hle : ∀ q ∈ rows, q.ts.toInt ≤ r.ts.toInt := by
      intro q hq
      rw [hfront] at hq hsorted
      rcases List.mem_append.mp hq with hq | hq
      · exact (List.pairwise_append.mp hsorted).2.2 q hq r (List.mem_singleton_self r)
      · obtain rfl := List.mem_singleton.mp hq
        exact Int.le_refl _
    refine ⟨kept ++ [r], ?_⟩
    have hflush : p.flush = { p.pushBack r.id r.ts r.val with
        lastEqualId := 0, lastEqualTs := 0, lastEqualVal := .zero } := by
      rw [CounterTrackPartition.flush, if_pos hpending, hid, hts, hval]
    rw [hflush]
    refine ⟨by simp [CounterTrackPartition.pushBack, h.id], by simp [CounterTrackPartition.pushBack, h.ts],
      by simp [CounterTrackPartition.pushBack, h.val], by simp, ?_, ?_, ?_, fun t => ?_, fun hne => absurd rfl hne⟩
    · exact List.append_subset.mpr ⟨h.subset, List.cons_subset.mpr ⟨List.mem_of_getLast? hr, List.nil_subset _⟩⟩
    · refine List.pairwise_append.mpr ⟨h.sorted, List.pairwise_singleton _ _, fun q hq s hs => ?_⟩
      rw [List.mem_singleton.mp hs]
      exact hle q (h.subset hq)
    · rw [List.head?_append_of_ne_nil _ h.nonempty]
      exact h.first
    · by_cases hrt : r.ts.toInt ≤ t
      · rw [lastAt_concat_of_le hrt, lastAt_of_last_le hr hrt]
        exact Option.rel_sameVal_refl _
      · rw [lastAt_concat_of_lt (Int.not_le.mp hrt)]
        exact h.agrees t
  · refine ⟨kept, ?_⟩
    rw [CounterTrackPartition.flush, if_neg hpending]
    exact ⟨h.id, h.ts, h.val, h.nonempty, h.subset, h.sorted, h.first, h.agrees, fun hne => absurd rfl hne⟩

/-- One more row of the track. -/
theorem Keeps.step {kept : List CounterRow} {p : CounterTrackPartition} (h : Keeps rows kept p)
    (hsorted : (rows ++ [r]).Pairwise fun r q => r.ts.toInt ≤ q.ts.toInt) :
    ∃ kept', Keeps (rows ++ [r]) kept' (p.addRow r) := by
  obtain ⟨hrows, -, hle⟩ := List.pairwise_append.mp hsorted
  replace hle : ∀ q ∈ rows, q.ts.toInt ≤ r.ts.toInt := fun q hq => hle q hq r (List.mem_singleton_self r)
  have hne : rows ≠ [] := fun hnil => h.nonempty (List.subset_nil.mp (hnil ▸ h.subset))
  unfold CounterTrackPartition.addRow
  by_cases hrepeats : p.repeats r.val = true
  · -- the row is left out: its value is that of the last row kept
    rw [if_pos hrepeats]
    obtain ⟨last, hlast⟩ : ∃ last, last ∈ kept.getLast? := ⟨_, List.getLast?_eq_some_getLast h.nonempty⟩
    have hsame : SameVal last r := by
      simp only [CounterTrackPartition.repeats, Bool.and_eq_true] at hrepeats
      have hvals := hrepeats.1.1
      rw [h.val, ← List.getLast?_eq_getElem?, List.getLast?_map, hlast] at hvals
      exact Double.same_of_eq hvals
    refine ⟨kept, h.id, h.ts, h.val, h.nonempty, List.Subset.trans h.subset (List.subset_append_left _ _), h.sorted, ?_,
      fun t => ?_, fun _ => ⟨r, List.getLast?_concat, rfl, rfl, rfl⟩⟩
    · rw [List.head?_append_of_ne_nil _ hne]
      exact h.first
    · by_cases hrt : r.ts.toInt ≤ t
      · have hlastle := hle last (h.subset (List.mem_of_getLast? hlast))
        rw [lastAt_concat_of_le hrt, lastAt_of_last_le hlast (Int.le_trans hlastle hrt)]
        exact .some hsame
      · rw [lastAt_concat_of_lt (Int.not_le.mp hrt)]
        exact h.agrees t
  · rw [if_neg hrepeats]
    obtain ⟨kept', hkept⟩ := h.flush hrows
    refine ⟨kept' ++ [r], ?_⟩
    have hzero : p.flush.lastEqualTs = 0 := rfl
    refine ⟨by simp [CounterTrackPartition.pushBack, hkept.id], by simp [CounterTrackPartition.pushBack, hkept.ts],
      by simp [CounterTrackPartition.pushBack, hkept.val], by simp, ?_, ?_, ?_, fun t => ?_,
      fun hne => absurd hzero hne⟩
    · exact List.append_subset.mpr ⟨List.Subset.trans hkept.subset (List.subset_append_left _ _), List.subset_append_right _ _⟩
    · refine List.pairwise_append.mpr ⟨hkept.sorted, List.pairwise_singleton _ _, fun q hq s hs => ?_⟩
      rw [List.mem_singleton.mp hs]
      exact hle q (hkept.subset hq)
    · rw [List.head?_append_of_ne_nil _ hkept.nonempty, List.head?_append_of_ne_nil _ hne]
      exact hkept.first
    · by_cases hrt : r.ts.toInt ≤ t
      · rw [lastAt_concat_of_le hrt, lastAt_concat_of_le hrt]
        exact Option.rel_sameVal_refl _
      · rw [lastAt_concat_of_lt (Int.not_le.mp hrt), lastAt_concat_of_lt (Int.not_le.mp hrt)]
        exact hkept.agrees t

/-- **What is kept of a track** says at every time what its rows say. -/
theorem exists_keeps (hne : rows ≠ []) (hsorted : rows.Pairwise fun r q => r.ts.toInt ≤ q.ts.toInt) :
    ∃ kept, Keeps rows kept (ofRows rows) := by
  induction rows using List.reverseRecOn with
  | nil => exact absurd rfl hne
  | append_singleton rows r ih =>
    by_cases hrows : rows = []
    · subst hrows
      exact ⟨[r], rfl, rfl, rfl, by simp, List.Subset.refl _, List.pairwise_singleton _ _, rfl,
        fun t => Option.rel_sameVal_refl _, fun hne => absurd rfl hne⟩
    · obtain ⟨kept, hkept⟩ := ih hrows (List.pairwise_append.mp hsorted).1
      rw [ofRows_concat hrows]
      exact hkept.step hsorted

end LynxTrace.TraceProcessor.Intrinsics.CounterPerTrackAgg
