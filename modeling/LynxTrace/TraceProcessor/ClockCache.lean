import LynxTrace.TraceProcessor.ClockSynchronizer

/-!
# TraceProcessor.ClockCache — what the cache of conversions answers

An entry of the cache stands for the walk along the path between its clocks: on its interval the walk adds its
translation (`Sound`).  Every entry the slow path leaves is sound (`walk_translates`), conversions keep the path and the
time series, and a snapshot empties the cache.
-/

namespace LynxTrace.ClockSync

/-! ### Conditions on the hops of a conversion -/

/-- A property of the series and the variables of every hop along some edges. -/
def everyHop (P : List Snapshot → List Snapshot → Walk → Bool) (series : ClockId → ℕ → List Snapshot) :
    List ClockGraphEdge → Walk → Bool
  | [], _ => true
  | e :: es, w => P (series e.src e.hash) (series e.target e.hash) w &&
      everyHop P series es (hop (series e.src e.hash) (series e.target e.hash) w)

def Walk.inInt64 (w : Walk) : Bool :=
  kInt64Min ≤ w.ns ∧ w.ns ≤ kInt64Max ∧ kInt64Min ≤ w.totalTranslationNs ∧ w.totalTranslationNs ≤ kInt64Max

/-- The additions of a hop do not overflow. -/
def hopInInt64 (cur next : List Snapshot) (w : Walk) : Bool := w.inInt64 && (hop cur next w).inInt64

/-- The snapshot a hop converts with is also in the next clock, and the hop does not start at the largest timestamp
in a clock that has a snapshot there. -/
def hopRegular (cur next : List Snapshot) (w : Walk) : Bool :=
  (cur[closest cur w.ns]?.any fun it => (sameSnapshot next it.snapshotId).isSome) &&
    !(w.ns = kInt64Max && cur.any (·.timestampNs = kInt64Max))

/-- A property of the hops of every conversion of some calls, run without lookups in the cache. -/
def everyConversion (P : List Snapshot → List Snapshot → Walk → Bool) : List ClockSynchronizer.Call → ClockSynchronizer → Bool
  | [], _ => true
  | .addSnapshot traceTimeClock cs :: calls, s => (s.addSnapshot traceTimeClock cs).all (everyConversion P calls)
  | .convert src srcTimestamp target slot :: calls, s =>
    (src = target || (s.findPath src target).all fun p =>
        everyHop P s.series p.path { ns := (s.toNs src srcTimestamp).1 }) &&
      everyConversion P calls (s.convert true src srcTimestamp target slot).2

/-! ### One hop -/

/-- The snapshot at an index is the closest one if the timestamp lies between it and the one after it. -/
theorem closest_eq {cur : List Snapshot} (hsorted : cur.Pairwise fun a b => a.timestampNs ≤ b.timestampNs) {x : ℤ}
    {i : ℕ} {it : Snapshot} (hit : cur[i]? = some it) (hmin : i = 0 ∨ it.timestampNs ≤ x)
    (hmax : ∀ ubound, cur[i + 1]? = some ubound → x < ubound.timestampNs) : closest cur x = i := by
  have hsorted' : (cur.map (·.timestampNs)).Pairwise (· ≤ ·) := List.pairwise_map.mpr hsorted
  obtain ⟨hi, rfl⟩ := List.getElem?_eq_some_iff.mp hit
  by_cases hx : cur[i].timestampNs ≤ x
  · have hub : upperBound (cur.map (·.timestampNs)) x = i + 1 := by
      refine upperBound_eq hsorted' (by rw [List.length_map]; exact hi) ?_ ?_
      · intro j hj hji
        obtain rfl : j = i := by omega
        simpa using hx
      · intro hlt
        have hlt' : i + 1 < cur.length := by simpa using hlt
        simpa using hmax _ (List.getElem?_eq_getElem hlt')
    rw [closest, hub, Nat.add_sub_cancel]
  · obtain rfl : i = 0 := hmin.resolve_right hx
    have hub : upperBound (cur.map (·.timestampNs)) x = 0 := by
      refine upperBound_eq hsorted' (Nat.zero_le _) (fun j _ hj => absurd hj (by omega)) fun _ => ?_
      simpa using not_le.mp hx
    rw [closest, hub]

theorem closest_before {cur : List Snapshot} {x : ℤ} {it : Snapshot} (hit : cur[closest cur x]? = some it)
    (hne : closest cur x ≠ 0) : it.timestampNs ≤ x := by
  obtain ⟨hi, rfl⟩ := List.getElem?_eq_some_iff.mp hit
  have hj : closest cur x < upperBound (cur.map (·.timestampNs)) x := by
    unfold closest at hne ⊢
    omega
  simpa using upperBound_before hj (hj.trans_le (upperBound_le_length _ _))

/-- What a hop that finds its snapshot does. -/
theorem hop_found {cur next : List Snapshot} {w : Walk} {it nextIt : Snapshot}
    (hit : cur[closest cur w.ns]? = some it) (hnext : sameSnapshot next it.snapshotId = some nextIt) :
    (hop cur next w).ns = w.ns + (nextIt.timestampNs - it.timestampNs) ∧
      (hop cur next w).totalTranslationNs = w.totalTranslationNs + (nextIt.timestampNs - it.timestampNs) ∧
      (closest cur w.ns ≠ 0 → it.timestampNs ≠ kInt64Min →
        it.timestampNs - w.totalTranslationNs ≤ (hop cur next w).pathMinTsNs) ∧
      ∀ ubound, cur[closest cur w.ns + 1]? = some ubound → ubound.timestampNs ≠ kInt64Max →
        (hop cur next w).pathMaxTsNs ≤ ubound.timestampNs - w.totalTranslationNs := by
  unfold hop
  simp only [hit, hnext]
  refine ⟨trivial, trivial, fun hne hmin => ?_, fun ubound hub hmax => ?_⟩
  · rw [if_neg hne, if_neg hmin]
    exact le_max_right w.pathMinTsNs _
  · simp only [hub, if_neg hmax]
    exact min_le_right w.pathMaxTsNs _

theorem hop_pathMin_le (cur next : List Snapshot) (w : Walk) : w.pathMinTsNs ≤ (hop cur next w).pathMinTsNs := by
  unfold hop
  dsimp only
  split
  · exact le_rfl
  · split
    · exact le_rfl
    · exact le_max_left w.pathMinTsNs _

theorem hop_pathMax_le (cur next : List Snapshot) (w : Walk) : (hop cur next w).pathMaxTsNs ≤ w.pathMaxTsNs := by
  unfold hop
  dsimp only
  split
  · exact le_rfl
  · split
    · exact le_rfl
    · exact min_le_left w.pathMaxTsNs _

/-- A timestamp in the interval of a hop hops as the one the interval was computed for. -/
theorem hop_translates {cur next : List Snapshot} (hsorted : cur.Pairwise fun a b => a.timestampNs ≤ b.timestampNs)
    {w v : Walk} {x : ℤ} (hw : hopRegular cur next w) (hv : hopRegular cur next v) (hv64 : hopInInt64 cur next v)
    (htotal : v.totalTranslationNs = w.totalTranslationNs) (hns : v.ns = x + v.totalTranslationNs)
    (hmin : (hop cur next w).pathMinTsNs ≤ x) (hmax : x < (hop cur next w).pathMaxTsNs) :
    (hop cur next v).totalTranslationNs = (hop cur next w).totalTranslationNs ∧
      (hop cur next v).ns = x + (hop cur next v).totalTranslationNs := by
  simp only [hopRegular, Bool.and_eq_true, Option.any_eq_true, Option.isSome_iff_exists] at hw
  obtain ⟨⟨it, hit, nextIt, hnext⟩, -⟩ := hw
  obtain ⟨-, hwtotal, hwmin, hwmax⟩ := hop_found hit hnext
  simp only [hopInInt64, Walk.inInt64, Bool.and_eq_true, decide_eq_true_eq] at hv64
  have hclosest : closest cur v.ns = closest cur w.ns := by
    refine closest_eq hsorted hit ?_ ?_
    · by_cases hne : closest cur w.ns = 0
      · exact .inl hne
      · refine .inr ?_
        by_cases hits : it.timestampNs = kInt64Min
        · rw [hits]
          exact hv64.1.1
        · have hle := hwmin hne hits
          omega
    · intro ubound hub
      by_cases hubs : ubound.timestampNs = kInt64Max
      · -- The timestamp would have to be the largest one itself.
        have hmem : ubound ∈ cur := List.mem_of_getElem? hub
        have hnot : v.ns ≠ kInt64Max := by
          intro heq
          have hany : cur.any (·.timestampNs = kInt64Max) = true :=
            List.any_eq_true.mpr ⟨ubound, hmem, by simpa using hubs⟩
          simp [hopRegular, heq, hany] at hv
        rw [hubs]
        have hle := hv64.1.2.1
        omega
      · have hle := hwmax ubound hub hubs
        omega
  rw [← hclosest] at hit
  obtain ⟨hvns, hvtotal, -⟩ := hop_found hit hnext
  refine ⟨by rw [hvtotal, hwtotal, htotal], ?_⟩
  rw [hvns, hvtotal, hns, add_assoc]

/-! ### A whole path -/

theorem walk_pathMin_le (series : ClockId → ℕ → List Snapshot) (edges : List ClockGraphEdge) (w : Walk) :
    w.pathMinTsNs ≤ (walk series edges w).pathMinTsNs := by
  induction edges generalizing w with
  | nil => exact le_rfl
  | cons e es ih => exact (hop_pathMin_le _ _ w).trans (ih _)

theorem walk_pathMax_le (series : ClockId → ℕ → List Snapshot) (edges : List ClockGraphEdge) (w : Walk) :
    (walk series edges w).pathMaxTsNs ≤ w.pathMaxTsNs := by
  induction edges generalizing w with
  | nil => exact le_rfl
  | cons e es ih => exact (ih _).trans (hop_pathMax_le _ _ w)

/-- On the interval of a walk along some edges, the walk adds its total translation. -/
theorem walk_translates {series : ClockId → ℕ → List Snapshot} {edges : List ClockGraphEdge}
    (hsorted : ∀ e ∈ edges, (series e.src e.hash).Pairwise fun a b => a.timestampNs ≤ b.timestampNs) {w v : Walk} {x : ℤ}
    (hw : everyHop hopRegular series edges w) (hv : everyHop hopRegular series edges v)
    (hv64 : everyHop hopInInt64 series edges v) (htotal : v.totalTranslationNs = w.totalTranslationNs)
    (hns : v.ns = x + v.totalTranslationNs) (hmin : (walk series edges w).pathMinTsNs ≤ x)
    (hmax : x < (walk series edges w).pathMaxTsNs) :
    (walk series edges v).ns = x + (walk series edges w).totalTranslationNs := by
  induction edges generalizing w v with
  | nil =>
    show v.ns = x + w.totalTranslationNs
    rwa [← htotal]
  | cons e es ih =>
    simp only [everyHop, Bool.and_eq_true] at hw hv hv64
    obtain ⟨htotal', hns'⟩ := hop_translates (hsorted e (by simp)) hw.1 hv.1 hv64.1 htotal hns
      ((walk_pathMin_le series es _).trans hmin) (hmax.trans_le (walk_pathMax_le series es _))
    exact ih (fun e' he' => hsorted e' (by simp [he'])) hw.2 hv.2 hv64.2 htotal' hns' hmin hmax

/-! ### Time series and graph -/

namespace ClockSynchronizer

/-- The time series of a clock that never went backwards ascend, and the clocks that did have no outgoing edges. -/
structure Monotone (s : ClockSynchronizer) : Prop where
  series : ∀ c, c ∉ s.nonMonotonicClocks → ∀ hash,
    (s.series c hash).Pairwise fun a b => a.timestampNs ≤ b.timestampNs
  edges : ∀ e ∈ s.graph, e.src ∉ s.nonMonotonicClocks

theorem monotone_empty : Monotone {} := ⟨fun _ _ _ => .nil, by simp⟩

variable {s s' : ClockSynchronizer}

theorem series_insert {c : ClockId} {d : ClockDomain} (h : s'.clocks = s.clocks.insert c d) (c' : ClockId) (hash : ℕ) :
    s'.series c' hash = if c' = c then (d.snapshots.lookup hash).getD [] else s.series c' hash := by
  unfold series domain
  rw [h]
  split_ifs with hc
  · rw [hc, AList.lookup_insert]
    rfl
  · rw [AList.lookup_insert_ne hc]

theorem Monotone.insert {c : ClockId} {d : ClockDomain} (h : s.Monotone) (hclocks : s'.clocks = s.clocks.insert c d)
    (hnon : ∀ c' ∉ s'.nonMonotonicClocks, c' ∉ s.nonMonotonicClocks)
    (hd : c ∉ s'.nonMonotonicClocks → ∀ hash,
      ((d.snapshots.lookup hash).getD []).Pairwise fun a b => a.timestampNs ≤ b.timestampNs)
    (hedges : ∀ e ∈ s'.graph, e.src ∉ s'.nonMonotonicClocks) : s'.Monotone := by
  refine ⟨fun c' hc' hash => ?_, hedges⟩
  rw [series_insert hclocks]
  split_ifs with heq
  · subst heq
    exact hd hc' hash
  · exact h.series c' (hnon c' hc') hash

/-- The series of a clock after an entry has been appended to the one for a hash. -/
theorem lookup_append (snapshots : AList fun _ : ℕ => List Snapshot) (hash hash' : ℕ) (vect : List Snapshot) :
    ((snapshots.insert hash vect).lookup hash').getD [] =
      if hash' = hash then vect else (snapshots.lookup hash').getD [] := by
  split_ifs with h
  · rw [h, AList.lookup_insert]
    rfl
  · rw [AList.lookup_insert_ne h]

variable {traceTimeClock target src : ClockId}

theorem Monotone.addClock {snapshotId hash : ℕ} {c : ClockTimestamp} (h : s.Monotone)
    (hadd : s.addClock traceTimeClock snapshotId hash c = some s') : s'.Monotone := by
  unfold ClockSynchronizer.addClock at hadd
  dsimp only at hadd
  split_ifs at hadd with h1 h2 h3 h4 h5 hback
  all_goals obtain rfl := Option.some.inj hadd
  · refine h.insert rfl (fun c' hc' hmem => hc' (.tail _ hmem)) (fun hc => absurd (List.mem_cons_self) hc) ?_
    intro e he
    obtain ⟨he, hne⟩ := List.mem_filter.mp he
    rw [List.mem_cons, not_or]
    exact ⟨by simpa using hne, h.edges e he⟩
  · refine h.insert rfl (fun _ hc' => hc') (fun hc hash' => ?_) h.edges
    have hser := h.series c.clock hc hash'
    unfold ClockSynchronizer.series at hser
    rw [lookup_append]
    split_ifs with hhash
    · subst hhash
      refine pairwise_concat (fun a b c hab hbc => hab.trans hbc) hser fun z hz => ?_
      rw [hz] at hback
      simpa using hback
    · exact hser

variable {cs : List ClockTimestamp}

theorem Monotone.addClocks {snapshotId hash : ℕ} (h : s.Monotone)
    (hadd : ClockSynchronizer.addClocks traceTimeClock snapshotId hash cs s = some s') : s'.Monotone := by
  induction cs generalizing s with
  | nil =>
    obtain rfl := Option.some.inj hadd
    exact h
  | cons c cs ih =>
    obtain ⟨s₁, h₁, h₂⟩ := Option.bind_eq_some_iff.mp hadd
    exact ih (h.addClock h₁) h₂

theorem mem_emplace {e e' : ClockGraphEdge} {graph : List ClockGraphEdge} (h : e' ∈ emplace e graph) :
    e' = e ∨ e' ∈ graph := by
  induction graph with
  | nil => exact .inl (List.mem_singleton.mp h)
  | cons a graph ih =>
    unfold emplace at h
    split_ifs at h with hlt heq
    · exact List.mem_cons.mp h
    · exact .inr h
    · rcases List.mem_cons.mp h with rfl | h
      · exact .inr (by simp)
      · exact (ih h).imp_right (List.mem_cons_of_mem a)

theorem Monotone.addEdges (h : s.Monotone) (hash : ℕ) (a b : ClockId) :
    (s.addEdges hash a b).Monotone ∧ (s.addEdges hash a b).nonMonotonicClocks = s.nonMonotonicClocks := by
  have hedge : ∀ {s : ClockSynchronizer} (_ : s.Monotone) (e : ClockGraphEdge), e.src ∉ s.nonMonotonicClocks →
      Monotone { s with graph := emplace e s.graph } := by
    intro s h e hsrc
    refine ⟨h.series, fun e' he' => ?_⟩
    rcases mem_emplace he' with rfl | he'
    · exact hsrc
    · exact h.edges e' he'
  unfold ClockSynchronizer.addEdges
  dsimp only
  by_cases ha : a ∈ s.nonMonotonicClocks
  · rw [if_pos ha]
    split_ifs with hb
    · exact ⟨h, rfl⟩
    · exact ⟨hedge h ⟨b, a, hash⟩ hb, rfl⟩
  · have h₁ := hedge h ⟨a, b, hash⟩ ha
    rw [if_neg ha]
    split_ifs with hb
    · exact ⟨h₁, rfl⟩
    · exact ⟨hedge h₁ ⟨b, a, hash⟩ hb, rfl⟩

theorem Monotone.addAllEdges (h : s.Monotone) (hash : ℕ) : (ClockSynchronizer.addAllEdges hash cs s).Monotone := by
  induction cs generalizing s with
  | nil => exact h
  | cons c cs ih =>
    refine ih ?_
    clear ih
    induction cs generalizing s with
    | nil => exact h
    | cons c' cs ih => exact ih (h.addEdges hash c.clock c'.clock).1

theorem Monotone.addSnapshot (h : s.Monotone) (hadd : s.addSnapshot traceTimeClock cs = some s') : s'.Monotone := by
  obtain ⟨s₁, h₁, rfl⟩ := Option.map_eq_some_iff.mp hadd
  have hstart : Monotone { s with curSnapshotId := (s.curSnapshotId + 1) % 2 ^ 32, cache := List.replicate 8 {} } :=
    ⟨h.series, h.edges⟩
  exact (hstart.addClocks h₁).addAllEdges _

variable {p : ClockPath}

theorem mem_expand {graph : List ClockGraphEdge} {q : ClockPath} (hq : q ∈ expand graph p)
    (hp : ∀ e ∈ p.path, e ∈ graph) : ∀ e ∈ q.path, e ∈ graph := by
  obtain ⟨e, he, rfl⟩ := List.mem_map.mp hq
  intro e' he'
  rcases List.mem_append.mp he' with he' | he'
  · exact hp e' he'
  · rw [List.mem_singleton.mp he']
    exact (List.mem_filter.mp he).1

/-- A path consists of edges of the graph. -/
theorem mem_of_findPathFrom {graph : List ClockGraphEdge} {n : ℕ} {queue : List ClockPath}
    (hqueue : ∀ p ∈ queue, ∀ e ∈ p.path, e ∈ graph) (hp : findPathFrom graph target n queue = some p) :
    ∀ e ∈ p.path, e ∈ graph := by
  induction n generalizing queue with
  | zero => cases hp
  | succ n ih =>
    have hnext : ∀ q ∈ queue.flatMap (expand graph), ∀ e ∈ q.path, e ∈ graph := by
      intro q hq
      obtain ⟨p', hp', hq⟩ := List.mem_flatMap.mp hq
      exact mem_expand hq (hqueue p' hp')
    unfold findPathFrom at hp
    dsimp only at hp
    split at hp
    · rename_i q hfind
      obtain rfl := Option.some.inj hp
      exact hnext q (List.mem_of_find?_eq_some hfind)
    · exact ih hnext hp

theorem mem_of_findPath (hp : s.findPath src target = some p) : ∀ e ∈ p.path, e ∈ s.graph := by
  unfold findPath at hp
  split_ifs at hp
  exact mem_of_findPathFrom (by simp) hp

theorem isSome_of_findPath (hp : s.findPath src target = some p) : (s.clocks.lookup src).isSome := by
  unfold findPath at hp
  split_ifs at hp with h
  rw [not_or] at h
  simpa [Option.isSome_iff_ne_none] using h.2

/-! ### Soundness of the cache -/

/-- An entry that stands for the walk between its clocks on its interval. -/
def Sound (s : ClockSynchronizer) (e : CachedClockPath) : Prop :=
  e.src = e.target ∨ ∃ p, s.findPath e.src e.target = some p ∧ ∀ x,
    everyHop hopRegular s.series p.path { ns := x } → everyHop hopInInt64 s.series p.path { ns := x } →
      e.minTsNs ≤ x → x < e.maxTsNs → (walk s.series p.path { ns := x }).ns = x + e.translationNs

/-- What conversions keep: paths and time series. -/
structure SameSeries (s s' : ClockSynchronizer) : Prop where
  findPath : ∀ src target, s'.findPath src target = s.findPath src target
  series : s'.series = s.series
  graph : s'.graph = s.graph
  nonMonotonicClocks : s'.nonMonotonicClocks = s.nonMonotonicClocks

theorem SameSeries.monotone (h : SameSeries s s') (hs : s.Monotone) : s'.Monotone := by
  refine ⟨?_, ?_⟩
  · rw [h.series, h.nonMonotonicClocks]
    exact hs.series
  · rw [h.graph, h.nonMonotonicClocks]
    exact hs.edges

theorem SameSeries.sound (h : SameSeries s s') {e : CachedClockPath} (he : s.Sound e) : s'.Sound e := by
  unfold Sound at he ⊢
  rwa [h.findPath, h.series]

theorem sameSeries_toNs (hsrc : (s.clocks.lookup src).isSome) (ts : ℤ) : SameSeries s (s.toNs src ts).2 := by
  have hsnapshots : ((s.domain src).toNs ts).2.snapshots = (s.domain src).snapshots := by
    unfold ClockDomain.toNs
    split_ifs <;> rfl
  have hlookup : ∀ c, ((s.toNs src ts).2.clocks.lookup c).isNone = (s.clocks.lookup c).isNone := by
    intro c
    by_cases hc : c = src
    · subst hc
      have hnone : (s.clocks.lookup c).isNone = false := by
        rwa [← Option.not_isSome, Bool.not_eq_eq_eq_not, Bool.not_false]
      rw [hnone, toNs, AList.lookup_insert]
      rfl
    · rw [toNs, AList.lookup_insert_ne hc]
  refine ⟨fun a b => ?_, ?_, rfl, rfl⟩
  · unfold ClockSynchronizer.findPath
    rw [hlookup, hlookup]
    rfl
  · funext c hash
    refine (series_insert rfl c hash).trans ?_
    split_ifs with hc
    · rw [hsnapshots, hc]
      rfl
    · rfl

/-- Every entry of the cache is sound, on ascending time series. -/
structure Coherent (s : ClockSynchronizer) : Prop where
  monotone : s.Monotone
  cache : ∀ e ∈ s.cache, s.Sound e

theorem coherent_of_empty_cache (h : s.Monotone) (hcache : s.cache = List.replicate 8 {}) : s.Coherent := by
  refine ⟨h, fun e he => .inl ?_⟩
  rw [hcache] at he
  rw [List.eq_of_mem_replicate he]

theorem addSnapshot_cache (hadd : s.addSnapshot traceTimeClock cs = some s') : s'.cache = List.replicate 8 {} := by
  have hclocks : ∀ {cs : List ClockTimestamp} {s s' : ClockSynchronizer} {snapshotId hash : ℕ},
      addClocks traceTimeClock snapshotId hash cs s = some s' → s'.cache = s.cache := by
    intro cs
    induction cs with
    | nil =>
      intro s s' _ _ h
      rw [Option.some.inj h]
    | cons c cs ih =>
      intro s s' _ _ h
      obtain ⟨s₁, h₁, h₂⟩ := Option.bind_eq_some_iff.mp h
      rw [ih h₂]
      unfold addClock at h₁
      dsimp only at h₁
      split_ifs at h₁
      all_goals rw [← Option.some.inj h₁]
  have hedges : ∀ (hash : ℕ) (cs : List ClockTimestamp) (s : ClockSynchronizer), (addAllEdges hash cs s).cache = s.cache := by
    intro hash cs
    induction cs with
    | nil => exact fun _ => rfl
    | cons c cs ih =>
      intro s
      refine (ih _).trans ?_
      clear ih
      induction cs generalizing s with
      | nil => rfl
      | cons c' cs ih =>
        refine (ih _).trans ?_
        unfold addEdges
        dsimp only
        split_ifs <;> rfl
  obtain ⟨s₁, h₁, rfl⟩ := Option.map_eq_some_iff.mp hadd
  rw [hedges, hclocks h₁]

/-- The hops of a conversion, as far as there is one, have a property. -/
def HopsOf (P : List Snapshot → List Snapshot → Walk → Bool) (s : ClockSynchronizer) (src : ClockId) (ts : ℤ)
    (target : ClockId) : Prop :=
  ∀ p, s.findPath src target = some p → everyHop P s.series p.path { ns := (s.toNs src ts).1 }

/-- The entry the slow path leaves is sound. -/
theorem sound_walk (h : s.Monotone) (hp : s.findPath src target = some p) {ns : ℤ}
    (hreg : everyHop hopRegular s.series p.path { ns }) :
    s.Sound ⟨src, target, (walk s.series p.path { ns }).pathMinTsNs, (walk s.series p.path { ns }).pathMaxTsNs,
      (walk s.series p.path { ns }).totalTranslationNs⟩ := by
  refine .inr ⟨p, hp, fun x hx hx64 hmin hmax => ?_⟩
  have hsorted : ∀ e ∈ p.path, (s.series e.src e.hash).Pairwise fun a b => a.timestampNs ≤ b.timestampNs :=
    fun e he => h.series e.src (h.edges e (mem_of_findPath hp e he)) e.hash
  exact walk_translates hsorted hreg hx hx64 rfl (add_zero x).symm hmin hmax

theorem sameSeries_setCache (s : ClockSynchronizer) (cache : List CachedClockPath) : SameSeries s { s with cache } :=
  ⟨fun _ _ => rfl, rfl, rfl, rfl⟩

theorem Coherent.cached (h : s.Coherent) {e : CachedClockPath} (he : s.Sound e) (slot : ℕ) :
    Coherent { s with cache := s.cache.set slot e } := by
  have hsame := sameSeries_setCache s (s.cache.set slot e)
  refine ⟨hsame.monotone h.monotone, fun e' he' => hsame.sound ?_⟩
  rcases List.mem_or_eq_of_mem_set he' with he' | rfl
  · exact h.cache e' he'
  · exact he

theorem Coherent.toNs (h : s.Coherent) (hsrc : (s.clocks.lookup src).isSome) (ts : ℤ) : (s.toNs src ts).2.Coherent :=
  have hsame := sameSeries_toNs hsrc ts
  ⟨hsame.monotone h.monotone, fun e he => hsame.sound (h.cache e he)⟩

/-- The slow path, on a timestamp that may have been converted to nanoseconds already. -/
theorem convertSlowpath_eq (hp : s.findPath src target = some p) (ts : ℤ) (slot : ℕ) :
    (s.convertSlowpath src ts none target slot).1 = some (walk s.series p.path { ns := (s.toNs src ts).1 }).ns ∧
      (s.toNs src ts).2.convertSlowpath src ts (some (s.toNs src ts).1) target slot =
        s.convertSlowpath src ts none target slot := by
  have hsame := sameSeries_toNs (isSome_of_findPath hp) ts
  have hp' : (s.toNs src ts).2.findPath src target = some p := by rw [hsame.findPath, hp]
  unfold convertSlowpath
  simp only [hp, hp', hsame.series]
  exact ⟨trivial, trivial⟩

theorem Coherent.convertSlowpath (h : s.Coherent) (ts : ℤ) (slot : ℕ) (hreg : s.HopsOf hopRegular src ts target) :
    (s.convertSlowpath src ts none target slot).2.Coherent := by
  unfold ClockSynchronizer.convertSlowpath
  cases hp : s.findPath src target with
  | none => exact h
  | some p =>
    have hsame := sameSeries_toNs (isSome_of_findPath hp) ts
    have hwalk := sound_walk h.monotone hp (hreg p hp)
    rw [← hsame.series] at hwalk
    exact (h.toNs (isSome_of_findPath hp) ts).cached (hsame.sound hwalk) (slot % 8)

/-- The slow path reads nothing from the cache. -/
theorem convertSlowpath_setCache (s : ClockSynchronizer) (cache : List CachedClockPath) (src : ClockId) (ts : ℤ)
    (target : ClockId) (slot : ℕ) : ∃ cache', convertSlowpath { s with cache } src ts none target slot =
      ((s.convertSlowpath src ts none target slot).1,
        { (s.convertSlowpath src ts none target slot).2 with cache := cache' }) := by
  have hp : findPath { s with cache } src target = s.findPath src target := rfl
  unfold convertSlowpath
  rw [hp]
  cases s.findPath src target with
  | none => exact ⟨cache, rfl⟩
  | some p => exact ⟨_, rfl⟩

/-- A conversion returns what the slow path returns, and leaves the state the slow path leaves but for the cache. -/
theorem convert_eq_slowpath (h : s.Coherent) (hne : src ≠ target) {ts : ℤ} (slot : ℕ)
    (hreg : s.HopsOf hopRegular src ts target) (h64 : s.HopsOf hopInInt64 src ts target) :
    (s.convert false src ts target slot).1 = (s.convertSlowpath src ts none target slot).1 ∧
      (s.convert false src ts target slot).2.Coherent ∧ ∃ cache, (s.convertSlowpath src ts none target slot).2 =
        { (s.convert false src ts target slot).2 with cache } := by
  unfold convert
  simp only [if_neg hne, Bool.false_eq_true, if_false]
  cases hmatch : s.cache.filter (fun e => e.src = src ∧ e.target = target) with
  | nil => exact ⟨rfl, h.convertSlowpath ts slot hreg, _, rfl⟩
  | cons e es =>
    have hsound : ∀ e' ∈ e :: es, ∃ p, s.findPath src target = some p ∧ ∀ x,
        everyHop hopRegular s.series p.path { ns := x } → everyHop hopInInt64 s.series p.path { ns := x } →
          e'.minTsNs ≤ x → x < e'.maxTsNs → (walk s.series p.path { ns := x }).ns = x + e'.translationNs := by
      intro e' he'
      rw [← hmatch] at he'
      obtain ⟨hmem, hends⟩ := List.mem_filter.mp he'
      obtain ⟨rfl, rfl⟩ : e'.src = src ∧ e'.target = target := by simpa using hends
      exact (h.cache e' hmem).resolve_left hne
    obtain ⟨p, hp, -⟩ := hsound e (by simp)
    obtain ⟨hresult, hagain⟩ := convertSlowpath_eq hp ts slot
    have hsrc := isSome_of_findPath hp
    dsimp only
    cases hfind : (e :: es).find? (fun e => e.minTsNs ≤ (s.toNs src ts).1 ∧ (s.toNs src ts).1 < e.maxTsNs) with
    | none =>
      rw [hagain]
      exact ⟨rfl, h.convertSlowpath ts slot hreg, _, rfl⟩
    | some e' =>
      -- A hit: the entry is sound at this timestamp.
      obtain ⟨p', hp', htranslates⟩ := hsound e' (List.mem_of_find?_eq_some hfind)
      rw [hp, Option.some.injEq] at hp'
      subst hp'
      have hin := List.find?_some hfind
      simp only [decide_eq_true_eq] at hin
      refine ⟨?_, h.toNs hsrc ts, ?_⟩
      · rw [hresult, htranslates _ (hreg p hp) (h64 p hp) hin.1 hin.2]
      · unfold convertSlowpath
        rw [hp]
        exact ⟨_, rfl⟩

/-- Without lookups a conversion takes the slow path. -/
theorem convert_disabled (hne : src ≠ target) (ts : ℤ) (slot : ℕ) :
    s.convert true src ts target slot = s.convertSlowpath src ts none target slot := by
  unfold convert
  rw [if_neg hne]
  rfl

theorem addSnapshot_setCache (s : ClockSynchronizer) (cache : List CachedClockPath) (traceTimeClock : ClockId)
    (cs : List ClockTimestamp) : addSnapshot traceTimeClock { s with cache } cs = s.addSnapshot traceTimeClock cs := rfl

/-- Conversions return what they return without lookups in the cache. -/
theorem results_eq_of_coherent {calls : List Call} (h : s.Coherent) (cache : List CachedClockPath)
    (hreg : everyConversion hopRegular calls { s with cache }) (h64 : everyConversion hopInInt64 calls { s with cache })
    :
    results false calls s = results true calls { s with cache } := by
  induction calls generalizing s cache with
  | nil => rfl
  | cons call calls ih =>
    cases call with
    | addSnapshot traceTimeClock cs =>
      simp only [everyConversion, addSnapshot_setCache] at hreg h64
      simp only [results, addSnapshot_setCache]
      cases hadd : s.addSnapshot traceTimeClock cs with
      | none => rfl
      | some s' =>
        rw [hadd] at hreg h64
        have h' := coherent_of_empty_cache (h.monotone.addSnapshot hadd) (addSnapshot_cache hadd)
        exact ih h' s'.cache hreg h64
    | convert src ts target slot =>
      simp only [everyConversion, Bool.and_eq_true, Bool.or_eq_true, decide_eq_true_eq] at hreg h64
      simp only [results]
      by_cases hne : src = target
      · have hsame : ∀ disabled (s : ClockSynchronizer), s.convert disabled src ts target slot = (some ts, s) := by
          intro disabled s
          unfold convert
          rw [if_pos hne]
        rw [hsame] at hreg h64
        rw [hsame, hsame]
        exact congrArg _ (ih h cache hreg.2 h64.2)
      · have hhops : ∀ P, (src = target ∨ (findPath { s with cache } src target).all (fun p =>
            everyHop P (series { s with cache }) p.path { ns := (toNs { s with cache } src ts).1 }) = true) →
              s.HopsOf P src ts target := by
          intro P hP p hp
          have hall := hP.resolve_left hne
          rw [show findPath { s with cache } src target = some p from hp] at hall
          exact hall
        obtain ⟨hresult, h', cache', hcache⟩ := convert_eq_slowpath h hne slot (hhops _ hreg.1) (hhops _ h64.1)
        obtain ⟨cache'', hslow⟩ := convertSlowpath_setCache s cache src ts target slot
        rw [hcache] at hslow
        rw [convert_disabled hne, hslow] at hreg h64
        rw [convert_disabled hne, hslow, hresult]
        exact congrArg _ (ih h' cache'' hreg.2 h64.2)

end ClockSynchronizer

end LynxTrace.ClockSync
