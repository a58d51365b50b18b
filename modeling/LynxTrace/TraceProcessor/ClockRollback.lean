import LynxTrace.TraceProcessor.ClockErrors

/-!
# TraceProcessor.ClockRollback — a failed `AddSnapshot` that leaves no trace

A snapshot whose first clock is refused takes a snapshot id, empties the cache and at most creates an empty domain.  Two
states that differ in this way only (`Sim`) go through the same calls side by side: the ids of later snapshots are
shifted by one, which no conversion sees.
-/

namespace LynxTrace.ClockSync

/-! ### Shifted ids -/

/-- The ids from `k` on moved up by one. -/
def shift (k id : ℕ) : ℕ := if id < k then id else id + 1

variable {k : ℕ}

theorem shift_of_lt {id : ℕ} (h : id < k) : shift k id = id := if_pos h

theorem shift_of_le {id : ℕ} (h : k ≤ id) : shift k id = id + 1 := if_neg (by omega)

theorem shift_le_iff {a b : ℕ} : shift k a ≤ shift k b ↔ a ≤ b := by
  unfold shift
  split_ifs <;> omega

theorem shift_eq_iff {a b : ℕ} : shift k a = shift k b ↔ a = b := by
  unfold shift
  split_ifs <;> omega

def Snapshot.shift (k : ℕ) (a : Snapshot) : Snapshot := ⟨ClockSync.shift k a.snapshotId, a.timestampNs⟩

theorem closest_shift (k : ℕ) (cur : List Snapshot) (ns : ℤ) : closest (cur.map (Snapshot.shift k)) ns = closest cur ns := by
  unfold closest
  rw [List.map_map]
  rfl

theorem sameSnapshot_shift (k : ℕ) (next : List Snapshot) (id : ℕ) :
    sameSnapshot (next.map (Snapshot.shift k)) (shift k id) = (sameSnapshot next id).map (Snapshot.shift k) := by
  unfold sameSnapshot
  rw [List.find?_map]
  have hle : ((fun a : Snapshot => decide (shift k id ≤ a.snapshotId)) ∘ Snapshot.shift k) =
      fun a => decide (id ≤ a.snapshotId) := by
    funext a
    exact decide_eq_decide.mpr shift_le_iff
  rw [hle]
  cases next.find? (id ≤ ·.snapshotId) with
  | none => rfl
  | some a =>
    have heq : decide ((a.shift k).snapshotId = shift k id) = decide (a.snapshotId = id) :=
      decide_eq_decide.mpr shift_eq_iff
    rw [Option.map_some, Option.filter_some, Option.filter_some, heq]
    split_ifs <;> rfl

/-- A hop does not see the ids themselves. -/
theorem hop_shift (k : ℕ) (cur next : List Snapshot) (w : Walk) :
    hop (cur.map (Snapshot.shift k)) (next.map (Snapshot.shift k)) w = hop cur next w := by
  unfold hop
  dsimp only
  rw [closest_shift, List.getElem?_map, List.getElem?_map]
  cases cur[closest cur w.ns]? with
  | none => rfl
  | some it =>
    have hsame : sameSnapshot (next.map (Snapshot.shift k)) (it.shift k).snapshotId = _ :=
      sameSnapshot_shift k next it.snapshotId
    simp only [Option.map_some, hsame]
    cases sameSnapshot next it.snapshotId with
    | none => rfl
    | some nextIt => cases cur[closest cur w.ns + 1]? <;> rfl

theorem hopRegular_shift (k : ℕ) (cur next : List Snapshot) (w : Walk) :
    hopRegular (cur.map (Snapshot.shift k)) (next.map (Snapshot.shift k)) w = hopRegular cur next w := by
  unfold hopRegular
  rw [closest_shift, List.getElem?_map, List.any_map, Option.any_map]
  congr 2
  funext it
  show (sameSnapshot (next.map (Snapshot.shift k)) (shift k it.snapshotId)).isSome = _
  rw [sameSnapshot_shift, Option.isSome_map]

/-- The hops of a conversion are regular, and its additions do not overflow. -/
def hopSound (cur next : List Snapshot) (w : Walk) : Bool := hopRegular cur next w && hopInInt64 cur next w

theorem hopSound_shift (k : ℕ) (cur next : List Snapshot) (w : Walk) :
    hopSound (cur.map (Snapshot.shift k)) (next.map (Snapshot.shift k)) w = hopSound cur next w := by
  unfold hopSound hopInInt64
  rw [hopRegular_shift, hop_shift]

/-- Time series with shifted ids. -/
def shiftSeries (k : ℕ) (series : ClockId → ℕ → List Snapshot) (c : ClockId) (hash : ℕ) : List Snapshot :=
  (series c hash).map (Snapshot.shift k)

theorem walk_shift (k : ℕ) (series : ClockId → ℕ → List Snapshot) (edges : List ClockGraphEdge) (w : Walk) :
    walk (shiftSeries k series) edges w = walk series edges w := by
  unfold walk
  congr 1
  funext w e
  exact hop_shift k _ _ w

theorem everyHop_shift (k : ℕ) (series : ClockId → ℕ → List Snapshot) (edges : List ClockGraphEdge) (w : Walk) :
    everyHop hopSound (shiftSeries k series) edges w = everyHop hopSound series edges w := by
  induction edges generalizing w with
  | nil => rfl
  | cons e es ih =>
    unfold everyHop
    rw [ih]
    congr 1
    · exact hopSound_shift k _ _ w
    · exact congrArg (everyHop hopSound series es) (hop_shift k _ _ w)

theorem everyHop_sound {series : ClockId → ℕ → List Snapshot} {edges : List ClockGraphEdge} {w : Walk}
    (h : everyHop hopSound series edges w) :
    everyHop hopRegular series edges w ∧ everyHop hopInInt64 series edges w := by
  induction edges generalizing w with
  | nil => exact ⟨rfl, rfl⟩
  | cons e es ih =>
    simp only [everyHop, hopSound, Bool.and_eq_true] at h ⊢
    obtain ⟨hregular, hint64⟩ := ih h.2
    exact ⟨⟨h.1.1, hregular⟩, h.1.2, hint64⟩

namespace ClockSynchronizer

/-! ### What adding clocks keeps -/

/-- A clock without snapshots. -/
def Fresh (s : ClockSynchronizer) (c : ClockId) : Prop := (s.domain c).snapshots.entries.isEmpty

/-- All ids in the time series are smaller. -/
def Bounded (n : ℕ) (s : ClockSynchronizer) : Prop := ∀ c hash, ∀ a ∈ s.series c hash, a.snapshotId < n

/-- Only clocks with snapshots are in the graph. -/
def Rooted (s : ClockSynchronizer) : Prop := ∀ e ∈ s.graph, ¬ s.Fresh e.src ∧ ¬ s.Fresh e.target

/-- What clocks added with a snapshot id keep, whether or not all of them are added. -/
structure Grows (snapshotId : ℕ) (s t : ClockSynchronizer) : Prop where
  monotone : s.Monotone → t.Monotone
  cache : t.cache = s.cache
  next : t.curSnapshotId = s.curSnapshotId
  graph : ∀ e ∈ t.graph, e ∈ s.graph
  fresh : ∀ c, t.Fresh c → s.Fresh c
  bounded : ∀ n, snapshotId < n → s.Bounded n → t.Bounded n

theorem Grows.refl (snapshotId : ℕ) (s : ClockSynchronizer) : Grows snapshotId s s :=
  ⟨id, rfl, rfl, fun _ h => h, fun _ h => h, fun _ _ h => h⟩

variable {s t s' : ClockSynchronizer}

theorem Grows.trans {snapshotId : ℕ} {u : ClockSynchronizer} (h : Grows snapshotId s t) (h' : Grows snapshotId t u) :
    Grows snapshotId s u :=
  ⟨fun hs => h'.monotone (h.monotone hs), h'.cache.trans h.cache, h'.next.trans h.next,
    fun e he => h.graph e (h'.graph e he), fun c hc => h.fresh c (h'.fresh c hc),
    fun n hn hs => h'.bounded n hn (h.bounded n hn hs)⟩

theorem domain_insert {c : ClockId} {d : ClockDomain} (h : s'.clocks = s.clocks.insert c d) (c' : ClockId) :
    s'.domain c' = if c' = c then d else s.domain c' := by
  unfold domain
  rw [h]
  split_ifs with hc
  · rw [hc, AList.lookup_insert]
    rfl
  · rw [AList.lookup_insert_ne hc]

/-- A domain whose snapshots are not touched. -/
theorem Grows.setDomain (snapshotId : ℕ) (s : ClockSynchronizer) (c : ClockId) {d : ClockDomain}
    (hd : d.snapshots = (s.domain c).snapshots) : Grows snapshotId s (s.setDomain c d) := by
  have hseries : (s.setDomain c d).series = s.series := by
    funext c' hash
    refine (series_insert rfl c' hash).trans ?_
    split_ifs with hc
    · rw [hd, hc]
      rfl
    · rfl
  refine ⟨fun hs => ⟨?_, hs.edges⟩, rfl, rfl, fun e he => he, fun c' hc' => ?_, fun n hn hs => ?_⟩
  · rw [hseries]
    exact hs.series
  · unfold Fresh at hc' ⊢
    rw [domain_insert rfl] at hc'
    split_ifs at hc' with hc
    · rwa [hc, ← hd]
    · exact hc'
  · unfold Bounded
    rw [hseries]
    exact hs

/-- The ways one turn of the loop ends. -/
theorem tryAddClock_cases (traceTimeClock : ClockId) (snapshotId hash : ℕ) (s : ClockSynchronizer) (c : ClockTimestamp) :
    (∃ d, s.tryAddClock traceTimeClock snapshotId hash c = .error (s.setDomain c.clock d) ∧
        d.snapshots = (s.domain c.clock).snapshots) ∨
      s.tryAddClock traceTimeClock snapshotId hash c = .crash ∨
      ∃ t d timestampNs, s.tryAddClock traceTimeClock snapshotId hash c = .ok t ∧ t.clocks = s.clocks.insert c.clock d ∧
        d.snapshots = (s.domain c.clock).snapshots.insert hash (s.series c.clock hash ++ [⟨snapshotId, timestampNs⟩]) ∧
        t.cache = s.cache ∧ t.curSnapshotId = s.curSnapshotId ∧ ∀ e ∈ t.graph, e ∈ s.graph := by
  generalize ha : s.tryAddClock traceTimeClock snapshotId hash c = a
  unfold tryAddClock at ha
  dsimp only at ha
  split_ifs at ha <;> subst ha
  · exact .inl ⟨_, rfl, rfl⟩
  · exact .inl ⟨_, rfl, rfl⟩
  · exact .inl ⟨_, rfl, rfl⟩
  · exact .inl ⟨_, rfl, rfl⟩
  · exact .inl ⟨_, rfl, rfl⟩
  · exact .inr (.inl rfl)
  · exact .inr (.inr ⟨_, _, _, rfl, rfl, rfl, rfl, rfl, fun e he => (List.mem_filter.mp he).1⟩)
  · exact .inr (.inr ⟨_, _, _, rfl, rfl, rfl, rfl, rfl, fun e he => he⟩)

variable {traceTimeClock src target : ClockId}

/-- What one clock of a snapshot does. -/
theorem grows_of_tryAddClock {snapshotId hash : ℕ} {c : ClockTimestamp}
    (h : (s.tryAddClock traceTimeClock snapshotId hash c).state? = some t) :
    Grows snapshotId s t ∧ (s.tryAddClock traceTimeClock snapshotId hash c = .ok t → ¬ t.Fresh c.clock) := by
  obtain ⟨d, hres, hd⟩ | hres | ⟨t', d, ts, hres, hclocks, hd, hcache, hcur, hgraph⟩ :=
    tryAddClock_cases traceTimeClock snapshotId hash s c
  · rw [hres] at h ⊢
    obtain rfl := Option.some.inj h
    exact ⟨.setDomain snapshotId s c.clock hd, fun hok => absurd hok (by simp)⟩
  · rw [hres] at h
    exact absurd h (by simp [Added.state?])
  · have hadd : s.addClock traceTimeClock snapshotId hash c = some t' := by
      rw [addClock_eq, hres]
      rfl
    rw [hres] at h ⊢
    obtain rfl := Option.some.inj h
    have hseries := series_insert hclocks
    have hnot : ¬ t'.Fresh c.clock := by
      unfold Fresh
      rw [domain_insert hclocks, if_pos rfl, hd]
      simp [AList.entries_insert]
    refine ⟨⟨fun hs => hs.addClock hadd, hcache, hcur, hgraph, fun c' hc' => ?_, fun n hn hs => ?_⟩, fun _ => hnot⟩
    · unfold Fresh at hc' ⊢
      rw [domain_insert hclocks] at hc'
      split_ifs at hc' with hc
      · rw [hd] at hc'
        exact absurd hc' (by simp [AList.entries_insert])
      · exact hc'
    · intro c' hash' a ha
      rw [hseries] at ha
      split_ifs at ha with hc
      · rw [hd, lookup_append] at ha
        split_ifs at ha with hh
        · rcases List.mem_append.mp ha with ha | ha
          · exact hs _ _ a ha
          · rw [List.mem_singleton.mp ha]
            exact hn
        · exact hs c.clock hash' a ha
      · exact hs c' hash' a ha

/-- What the clocks of a snapshot do. -/
theorem grows_of_tryAddClocks {snapshotId hash : ℕ} {cs : List ClockTimestamp}
    (h : (tryAddClocks traceTimeClock snapshotId hash cs s).state? = some t) :
    Grows snapshotId s t ∧
      (tryAddClocks traceTimeClock snapshotId hash cs s = .ok t → ∀ c ∈ clocksOf cs, ¬ t.Fresh c) := by
  induction cs generalizing s with
  | nil =>
    obtain rfl := Option.some.inj h
    exact ⟨.refl snapshotId s, fun _ c hc => absurd hc (List.not_mem_nil)⟩
  | cons c cs ih =>
    unfold tryAddClocks at h ⊢
    cases hres : s.tryAddClock traceTimeClock snapshotId hash c with
    | ok s₁ =>
      rw [hres] at h
      obtain ⟨hgrows₁, hnew⟩ := grows_of_tryAddClock (t := s₁) (by rw [hres]; rfl)
      obtain ⟨hgrows, hrest⟩ := ih h
      refine ⟨hgrows₁.trans hgrows, fun hok c' hc' => ?_⟩
      rcases List.mem_cons.mp hc' with rfl | hc'
      · exact fun hfresh => hnew hres (hgrows.fresh _ hfresh)
      · exact hrest hok c' hc'
    | error s₁ =>
      rw [hres] at h
      obtain rfl := Option.some.inj h
      exact ⟨(grows_of_tryAddClock (by rw [hres]; rfl)).1, fun hok => absurd hok (by simp)⟩
    | crash =>
      rw [hres] at h
      exact absurd h (by simp [Added.state?])

/-! ### States between calls -/

/-- A state between two calls whose counter of snapshots has not wrapped. -/
structure Settled (s : ClockSynchronizer) : Prop where
  coherent : s.Coherent
  rooted : s.Rooted
  bounded : s.Bounded s.curSnapshotId

theorem settled_init : Settled {} :=
  ⟨coherent_of_empty_cache monotone_empty rfl, fun _ he => absurd he (List.not_mem_nil),
    fun _ _ _ ha => absurd ha (List.not_mem_nil)⟩

theorem Rooted.known (h : s.Rooted) : s.Known := by
  have hknown : ∀ c, ¬ s.Fresh c → (s.clocks.lookup c).isSome := by
    intro c hc
    by_contra hnone
    rw [Option.not_isSome_iff_eq_none] at hnone
    refine hc ?_
    unfold Fresh domain
    rw [hnone]
    rfl
  exact fun e he => ⟨hknown _ (h e he).1, hknown _ (h e he).2⟩

theorem Settled.addSnapshot (h : s.Settled) {cs : List ClockTimestamp} (hwrap : s.curSnapshotId + 1 < 2 ^ 32)
    (ht : (s.tryAddSnapshot traceTimeClock cs).state? = some t) :
    t.Settled ∧ t.curSnapshotId = s.curSnapshotId + 1 := by
  have hnext : s.begin.curSnapshotId = s.curSnapshotId + 1 := Nat.mod_eq_of_lt hwrap
  have hstart : s.begin.Monotone := ⟨h.coherent.monotone.series, h.coherent.monotone.edges⟩
  have hbounded : s.begin.Bounded (s.curSnapshotId + 1) := fun c hash a ha =>
    (h.bounded c hash a ha).trans (Nat.lt_succ_self _)
  have hsettle : ∀ u, Grows s.curSnapshotId s.begin u → u.Rooted → u.Settled ∧ u.curSnapshotId = s.curSnapshotId + 1 := by
    intro u hu hrooted
    refine ⟨⟨coherent_of_empty_cache (hu.monotone hstart) hu.cache, hrooted, ?_⟩, hu.next.trans hnext⟩
    rw [hu.next, hnext]
    exact hu.bounded _ (Nat.lt_succ_self _) hbounded
  have hroot : ∀ u, Grows s.curSnapshotId s.begin u → u.Rooted := fun u hu e he =>
    ⟨fun hf => (h.rooted e (hu.graph e he)).1 (hu.fresh _ hf), fun hf => (h.rooted e (hu.graph e he)).2 (hu.fresh _ hf)⟩
  unfold tryAddSnapshot at ht
  dsimp only at ht
  cases hres : tryAddClocks traceTimeClock s.curSnapshotId (snapshotHash cs) cs s.begin with
  | crash =>
    rw [hres] at ht
    exact absurd ht (by simp [Added.state?])
  | error u =>
    rw [hres] at ht
    obtain rfl := Option.some.inj ht
    have hgrows := (grows_of_tryAddClocks (t := u) (by rw [hres]; rfl)).1
    exact hsettle u hgrows (hroot u hgrows)
  | ok u =>
    rw [hres] at ht
    obtain rfl := Option.some.inj ht
    obtain ⟨hgrows, hnew⟩ := grows_of_tryAddClocks (t := u) (by rw [hres]; rfl)
    obtain ⟨hedges, hclocks, hcur⟩ := addAllEdges_spec (snapshotHash cs) cs u
    have hadd : s.addSnapshot traceTimeClock cs = some (addAllEdges (snapshotHash cs) cs u) := by
      rw [addSnapshot_eq]
      unfold tryAddSnapshot
      dsimp only
      rw [hres]
      rfl
    have hfresh : ∀ c, (addAllEdges (snapshotHash cs) cs u).Fresh c → u.Fresh c := by
      intro c
      unfold Fresh domain
      rw [hclocks]
      exact id
    refine ⟨⟨coherent_of_empty_cache (h.coherent.monotone.addSnapshot hadd) (addSnapshot_cache hadd), ?_, ?_⟩, ?_⟩
    · intro e he
      rcases hedges e he with he | ⟨-, hsrc, htarget⟩
      · exact ⟨fun hf => (hroot u hgrows e he).1 (hfresh _ hf), fun hf => (hroot u hgrows e he).2 (hfresh _ hf)⟩
      · exact ⟨fun hf => hnew hres _ hsrc (hfresh _ hf), fun hf => hnew hres _ htarget (hfresh _ hf)⟩
    · rw [hcur, hgrows.next, hnext]
      intro c hash a ha
      refine hgrows.bounded _ (Nat.lt_succ_self _) hbounded c hash a ?_
      unfold series domain at ha ⊢
      rwa [hclocks] at ha
    · rw [hcur, hgrows.next, hnext]

/-- The state after a conversion, but for the cache: only the last timestamp of an incremental source may change. -/
def converted (s : ClockSynchronizer) (src : ClockId) (ts : ℤ) (target : ClockId) : ClockSynchronizer :=
  if (s.findPath src target).isSome then (s.toNs src ts).2 else s

/-- A conversion: the walk along the path, and the state. -/
theorem Coherent.convert (h : s.Coherent) (hne : src ≠ target) {ts : ℤ} (slot : ℕ)
    (hhops : s.HopsOf hopSound src ts target) :
    (s.convert false src ts target slot).1 =
        (s.findPath src target).map (fun p => (walk s.series p.path { ns := (s.toNs src ts).1 }).ns) ∧
      (s.convert false src ts target slot).2.Coherent ∧
      ∃ cache, (s.convert false src ts target slot).2 = { s.converted src ts target with cache } := by
  have hregular : s.HopsOf hopRegular src ts target := fun p hp => (everyHop_sound (hhops p hp)).1
  have h64 : s.HopsOf hopInInt64 src ts target := fun p hp => (everyHop_sound (hhops p hp)).2
  obtain ⟨hresult, hcoherent, cache, hstate⟩ := convert_eq_slowpath h hne slot hregular h64
  have hslow : (s.convertSlowpath src ts none target slot).1 =
      (s.findPath src target).map (fun p => (walk s.series p.path { ns := (s.toNs src ts).1 }).ns) ∧
      ∃ cache, (s.convertSlowpath src ts none target slot).2 = { s.converted src ts target with cache } := by
    unfold converted
    cases hp : s.findPath src target with
    | none =>
      unfold ClockSynchronizer.convertSlowpath
      rw [hp]
      exact ⟨rfl, s.cache, rfl⟩
    | some p =>
      refine ⟨(convertSlowpath_eq hp ts slot).1, ?_⟩
      unfold ClockSynchronizer.convertSlowpath
      rw [hp]
      exact ⟨_, rfl⟩
  obtain ⟨hwalk, cache', hslow⟩ := hslow
  refine ⟨hresult.trans hwalk, hcoherent, (s.convert false src ts target slot).2.cache, ?_⟩
  have hsame : { s.converted src ts target with cache := cache' } =
      { (s.convert false src ts target slot).2 with cache } := hslow.symm.trans hstate
  have hclocks := congrArg ClockSynchronizer.clocks hsame
  have hgraph := congrArg ClockSynchronizer.graph hsame
  have hnon := congrArg ClockSynchronizer.nonMonotonicClocks hsame
  have hcur := congrArg ClockSynchronizer.curSnapshotId hsame
  dsimp only at hclocks hgraph hnon hcur
  show _ = ClockSynchronizer.mk (s.converted src ts target).clocks (s.converted src ts target).graph
    (s.converted src ts target).nonMonotonicClocks _ (s.converted src ts target).curSnapshotId
  rw [hclocks, hgraph, hnon, hcur]

/-- A conversion leaves the snapshots of all clocks as they are. -/
theorem converted_snapshots (s : ClockSynchronizer) (src : ClockId) (ts : ℤ) (target c : ClockId) :
    ((s.converted src ts target).domain c).snapshots = (s.domain c).snapshots := by
  unfold converted
  split_ifs
  · rw [domain_insert rfl]
    split_ifs with hc
    · rw [hc]
      unfold ClockDomain.toNs
      split_ifs <;> rfl
    · rfl
  · rfl

theorem converted_graph (s : ClockSynchronizer) (src : ClockId) (ts : ℤ) (target : ClockId) :
    (s.converted src ts target).graph = s.graph ∧
      (s.converted src ts target).nonMonotonicClocks = s.nonMonotonicClocks ∧
      (s.converted src ts target).curSnapshotId = s.curSnapshotId := by
  unfold converted
  split_ifs <;> exact ⟨rfl, rfl, rfl⟩

theorem Settled.convert (h : s.Settled) (hne : src ≠ target) {ts : ℤ} (slot : ℕ)
    (hhops : s.HopsOf hopSound src ts target) :
    (s.convert false src ts target slot).2.Settled ∧
      (s.convert false src ts target slot).2.curSnapshotId = s.curSnapshotId := by
  obtain ⟨-, hcoherent, cache, hstate⟩ := h.coherent.convert hne slot hhops
  obtain ⟨hgraph, -, hcur⟩ := converted_graph s src ts target
  have hsnapshots : ∀ c, ((s.convert false src ts target slot).2.domain c).snapshots = (s.domain c).snapshots := by
    intro c
    rw [hstate]
    exact converted_snapshots s src ts target c
  have hcur' : (s.convert false src ts target slot).2.curSnapshotId = s.curSnapshotId := by
    rw [hstate]
    exact hcur
  refine ⟨⟨hcoherent, fun e he => ?_, fun c hash a ha => ?_⟩, hcur'⟩
  · rw [hstate] at he
    unfold Fresh
    rw [hsnapshots, hsnapshots]
    exact h.rooted e (hgraph ▸ he)
  · unfold series at ha
    rw [hsnapshots] at ha
    rw [hcur']
    exact h.bounded c hash a ha

/-! ### Two states side by side -/

/-- The snapshots of a clock in two states, the second of which counts one more snapshot from `k` on; an unregistered
clock may have kept any properties. -/
structure SameDomain (k : ℕ) (d d' : ClockDomain) : Prop where
  lookup : ∀ hash, (d'.snapshots.lookup hash).getD [] = ((d.snapshots.lookup hash).getD []).map (Snapshot.shift k)
  fresh : d'.snapshots.entries.isEmpty = d.snapshots.entries.isEmpty
  unit : ¬ d.snapshots.entries.isEmpty → d'.unitMultiplierNs = d.unitMultiplierNs
  incremental : ¬ d.snapshots.entries.isEmpty → d'.isIncremental = d.isIncremental
  last : ¬ d.snapshots.entries.isEmpty → d.isIncremental → d'.lastTimestampNs = d.lastTimestampNs

/-- Two states that differ in the ids of snapshots, the cache and domains without snapshots. -/
structure Sim (k : ℕ) (s s' : ClockSynchronizer) : Prop where
  domain : ∀ c, SameDomain k (s.domain c) (s'.domain c)
  graph : s'.graph = s.graph
  nonMonotonicClocks : s'.nonMonotonicClocks = s.nonMonotonicClocks

theorem Sim.series (h : Sim k s s') : s'.series = shiftSeries k s.series := by
  funext c hash
  exact (h.domain c).lookup hash

/-- Domains replaced on both sides. -/
theorem Sim.insert {t' : ClockSynchronizer} (h : Sim k s s') {c : ClockId} {d d' : ClockDomain} (hd : SameDomain k d d')
    (ht : t.clocks = s.clocks.insert c d) (ht' : t'.clocks = s'.clocks.insert c d') (hgraph : t'.graph = t.graph)
    (hnon : t'.nonMonotonicClocks = t.nonMonotonicClocks) : Sim k t t' := by
  refine ⟨fun c' => ?_, hgraph, hnon⟩
  rw [domain_insert ht, domain_insert ht']
  split_ifs
  · exact hd
  · exact h.domain c'

/-- A snapshot appended on both sides, with the same properties. -/
theorem SameDomain.append {d d' : ClockDomain} (h : SameDomain k d d') (hash snapshotId : ℕ) (unit timestampNs : ℤ)
    (incremental : Bool) :
    SameDomain k
      ⟨d.snapshots.insert hash ((d.snapshots.lookup hash).getD [] ++ [⟨snapshotId, timestampNs⟩]), unit, incremental,
        timestampNs⟩
      ⟨d'.snapshots.insert hash ((d'.snapshots.lookup hash).getD [] ++ [⟨shift k snapshotId, timestampNs⟩]), unit,
        incremental, timestampNs⟩ := by
  refine ⟨fun hash' => ?_, ?_, fun _ => rfl, fun _ => rfl, fun _ _ => rfl⟩
  · rw [lookup_append, lookup_append]
    split_ifs
    · rw [h.lookup, List.map_append]
      rfl
    · exact h.lookup hash'
  · rw [AList.entries_insert, AList.entries_insert]
    rfl

/-- How two calls of `AddSnapshot` side by side end. -/
inductive SameAdded (k : ℕ) : Added → Added → Prop
  | ok {s s' : ClockSynchronizer} (h : Sim k s s') : SameAdded k (.ok s) (.ok s')
  | error {s s' : ClockSynchronizer} (h : Sim k s s') : SameAdded k (.error s) (.error s')
  | crash : SameAdded k .crash .crash

theorem SameAdded.ite {p : Prop} [Decidable p] {a a' b b' : Added} (h : p → SameAdded k a a')
    (h' : ¬ p → SameAdded k b b') : SameAdded k (if p then a else b) (if p then a' else b') := by
  split_ifs with hp
  · exact h hp
  · exact h' hp

theorem Sim.tryAddClock (h : Sim k s s') (traceTimeClock : ClockId) (snapshotId hash : ℕ) (c : ClockTimestamp) :
    SameAdded k (s.tryAddClock traceTimeClock snapshotId hash c)
      (s'.tryAddClock traceTimeClock (shift k snapshotId) hash c) := by
  have hd := h.domain c.clock
  have hvect := hd.lookup hash
  have hids : ((((s'.domain c.clock).snapshots.lookup hash).getD []).getLast?.any
      (·.snapshotId = shift k snapshotId)) =
      ((((s.domain c.clock).snapshots.lookup hash).getD []).getLast?.any (·.snapshotId = snapshotId)) := by
    rw [hvect, List.getLast?_map, Option.any_map]
    congr 1
    funext a
    exact decide_eq_decide.mpr shift_eq_iff
  have hback : ((((s'.domain c.clock).snapshots.lookup hash).getD []).getLast?.any
      (c.timestamp * c.unitMultiplierNs < ·.timestampNs)) =
      ((((s.domain c.clock).snapshots.lookup hash).getD []).getLast?.any
        (c.timestamp * c.unitMultiplierNs < ·.timestampNs)) := by
    rw [hvect, List.getLast?_map, Option.any_map]
    rfl
  have hdiffers : ((!(s.domain c.clock).snapshots.entries.isEmpty) = true ∧
      ((s'.domain c.clock).unitMultiplierNs ≠ c.unitMultiplierNs ∨ (s'.domain c.clock).isIncremental ≠ c.isIncremental)) ↔
      ((!(s.domain c.clock).snapshots.entries.isEmpty) = true ∧
      ((s.domain c.clock).unitMultiplierNs ≠ c.unitMultiplierNs ∨ (s.domain c.clock).isIncremental ≠ c.isIncremental)) := by
    refine and_congr_right fun hne => ?_
    rw [Bool.not_eq_true'] at hne
    rw [hd.unit (by rw [hne]; simp), hd.incremental (by rw [hne]; simp)]
  unfold ClockSynchronizer.tryAddClock
  simp only [hd.fresh, hdiffers, hids, hback]
  have hset : ∀ {d d' : ClockDomain}, SameDomain k d d' → Sim k (s.setDomain c.clock d) (s'.setDomain c.clock d') :=
    fun hdd => h.insert hdd rfl rfl h.graph h.nonMonotonicClocks
  refine .ite (fun _ => .error (hset hd)) fun _ => .ite (fun _ => .error (hset hd)) fun h2 => .ite (fun _ => ?_) fun _ =>
    .ite (fun _ => ?_) fun _ => .ite (fun _ => ?_) fun _ => .ite (fun _ => .crash) fun _ => ?_
  · refine .error (hset ⟨hd.lookup, hd.fresh, fun _ => rfl, fun _ => rfl, fun hne hinc => ?_⟩)
    -- The properties agree with those of a registered clock.
    refine hd.last hne ?_
    have hreg := not_and.mp h2 (by simpa using hne)
    rw [not_or, not_not, not_not] at hreg
    rw [hreg.2]
    exact hinc
  · exact .error (hset ⟨hd.lookup, hd.fresh, fun _ => rfl, fun _ => rfl, fun _ _ => rfl⟩)
  · exact .error (hset ⟨hd.lookup, hd.fresh, fun _ => rfl, fun _ => rfl, fun _ _ => rfl⟩)
  · refine .ok (h.insert (hd.append hash snapshotId _ _ _) rfl rfl ?_ ?_)
    · rw [h.graph]
    · rw [h.nonMonotonicClocks]

theorem Sim.tryAddClocks (h : Sim k s s') (traceTimeClock : ClockId) (snapshotId hash : ℕ) (cs : List ClockTimestamp) :
    SameAdded k (ClockSynchronizer.tryAddClocks traceTimeClock snapshotId hash cs s)
      (ClockSynchronizer.tryAddClocks traceTimeClock (shift k snapshotId) hash cs s') := by
  induction cs generalizing s s' with
  | nil => exact .ok h
  | cons c cs ih =>
    have hstep := h.tryAddClock traceTimeClock snapshotId hash c
    unfold ClockSynchronizer.tryAddClocks
    generalize s.tryAddClock traceTimeClock snapshotId hash c = a at hstep
    generalize s'.tryAddClock traceTimeClock (shift k snapshotId) hash c = a' at hstep
    cases hstep with
    | ok h₁ => exact ih h₁
    | error h₁ => exact .error h₁
    | crash => exact .crash

theorem Sim.addAllEdges (h : Sim k s s') (hash : ℕ) (cs : List ClockTimestamp) :
    Sim k (ClockSynchronizer.addAllEdges hash cs s) (ClockSynchronizer.addAllEdges hash cs s') := by
  have hpair : ∀ {s s' : ClockSynchronizer} (a b : ClockId), Sim k s s' → Sim k (s.addEdges hash a b) (s'.addEdges hash a b) := by
    intro s s' a b h
    obtain ⟨hdomain, hgraph, hnon⟩ := h
    unfold addEdges
    dsimp only
    rw [hgraph, hnon]
    by_cases ha : a ∈ s.nonMonotonicClocks
    · rw [if_pos ha, if_pos ha, hnon]
      split_ifs
      · exact ⟨hdomain, hgraph, hnon⟩
      · exact ⟨hdomain, by rw [hgraph], rfl⟩
    · rw [if_neg ha, if_neg ha]
      dsimp only
      split_ifs
      · exact ⟨hdomain, rfl, rfl⟩
      · exact ⟨hdomain, rfl, rfl⟩
  induction cs generalizing s s' with
  | nil => exact h
  | cons c cs ih =>
    refine ih ?_
    clear ih
    induction cs generalizing s s' with
    | nil => exact h
    | cons c' cs ih => exact ih (hpair c.clock c'.clock h)

/-- The same snapshot added on both sides. -/
theorem Sim.tryAddSnapshot (h : Sim k s s') (hk : k ≤ s.curSnapshotId) (hcur : s'.curSnapshotId = s.curSnapshotId + 1)
    (traceTimeClock : ClockId) (cs : List ClockTimestamp) :
    SameAdded k (s.tryAddSnapshot traceTimeClock cs) (s'.tryAddSnapshot traceTimeClock cs) := by
  have hstart : Sim k s.begin s'.begin := ⟨h.domain, h.graph, h.nonMonotonicClocks⟩
  have hstep := hstart.tryAddClocks traceTimeClock s.curSnapshotId (snapshotHash cs) cs
  rw [shift_of_le hk, ← hcur] at hstep
  unfold ClockSynchronizer.tryAddSnapshot
  dsimp only
  generalize ClockSynchronizer.tryAddClocks traceTimeClock s.curSnapshotId (snapshotHash cs) cs s.begin = a at hstep
  generalize ClockSynchronizer.tryAddClocks traceTimeClock s'.curSnapshotId (snapshotHash cs) cs s'.begin = a' at hstep
  cases hstep with
  | ok h₁ => exact .ok (h₁.addAllEdges (snapshotHash cs) cs)
  | error h₁ => exact .error h₁
  | crash => exact .crash

/-- A path between different clocks starts at a clock with snapshots. -/
theorem Rooted.not_fresh (h : s.Rooted) (hne : src ≠ target) {p : ClockPath} (hp : s.findPath src target = some p) :
    ¬ s.Fresh src := by
  have hspec := h.known.findPath_spec hne
  rw [hp] at hspec
  obtain ⟨-, hpath, -⟩ := hspec
  rcases hes : p.path with _ | ⟨e, es⟩
  · rw [hes] at hpath
    exact absurd hpath hne
  · rw [hes] at hpath
    obtain ⟨hmem, rfl, -⟩ := hpath
    exact (h e hmem).1

/-- A conversion sees no difference. -/
theorem Sim.convert (h : Sim k s s') (hs : s.Rooted) (hs' : s'.Rooted) (hne : src ≠ target) (ts : ℤ) :
    s'.findPath src target = s.findPath src target ∧ (s.findPath src target ≠ none → (s'.toNs src ts).1 = (s.toNs src ts).1) ∧
      Sim k (s.converted src ts target) (s'.converted src ts target) := by
  have hpath : s'.findPath src target = s.findPath src target := by
    rw [hs.known.findPath_eq hne, hs'.known.findPath_eq hne, h.graph]
  have hd := h.domain src
  have htoNs : ¬ s.Fresh src → ((s'.domain src).toNs ts).1 = ((s.domain src).toNs ts).1 ∧
      SameDomain k ((s.domain src).toNs ts).2 ((s'.domain src).toNs ts).2 := by
    intro hfresh
    unfold ClockDomain.toNs
    rw [hd.incremental hfresh, hd.unit hfresh]
    split_ifs with hinc
    · rw [hd.last hfresh hinc]
      exact ⟨rfl, hd.lookup, hd.fresh, fun _ => rfl, fun _ => rfl, fun _ _ => rfl⟩
    · exact ⟨rfl, hd⟩
  refine ⟨hpath, fun hsome => ?_, ?_⟩
  · obtain ⟨p, hp⟩ := Option.ne_none_iff_exists'.mp hsome
    exact (htoNs (hs.not_fresh hne hp)).1
  · unfold converted
    rw [hpath]
    split_ifs with hsome
    · obtain ⟨p, hp⟩ := Option.isSome_iff_exists.mp hsome
      exact h.insert (htoNs (hs.not_fresh hne hp)).2 rfl rfl h.graph h.nonMonotonicClocks
    · exact h

/-! ### The failed call -/

/-- A snapshot whose first clock is refused fails, and leaves a state that goes on side by side with the one before. -/
theorem Settled.refused (h : s.Settled) {cs : List ClockTimestamp} (hrefused : s.refused traceTimeClock cs) :
    ∃ s', s.tryAddSnapshot traceTimeClock cs = .error s' ∧ Sim s.curSnapshotId s s' := by
  cases cs with
  | nil => exact absurd hrefused (by simp [ClockSynchronizer.refused])
  | cons c cs =>
    replace hrefused := of_decide_eq_true hrefused
    have hself : ∀ c, SameDomain s.curSnapshotId (s.domain c) (s.domain c) := by
      intro c
      refine ⟨fun hash => ?_, rfl, fun _ => rfl, fun _ => rfl, fun _ _ => rfl⟩
      refine (List.map_id _).symm.trans (List.map_congr_left fun a ha => ?_)
      show a = ⟨shift s.curSnapshotId a.snapshotId, a.timestampNs⟩
      rw [shift_of_lt (h.bounded c hash a ha)]
    obtain ⟨d, hres, hd⟩ : ∃ d, s.begin.tryAddClock traceTimeClock s.curSnapshotId (snapshotHash (c :: cs)) c =
        .error (s.begin.setDomain c.clock d) ∧ SameDomain s.curSnapshotId (s.domain c.clock) d := by
      have hd := hself c.clock
      -- A registered clock has the properties of the snapshot, unless they are what is refused.
      have hsameProps : ¬((!(s.domain c.clock).snapshots.entries.isEmpty) = true ∧
          ((s.domain c.clock).unitMultiplierNs ≠ c.unitMultiplierNs ∨ (s.domain c.clock).isIncremental ≠ c.isIncremental)) →
          ¬ (s.domain c.clock).snapshots.entries.isEmpty →
            c.unitMultiplierNs = (s.domain c.clock).unitMultiplierNs ∧
              c.isIncremental = (s.domain c.clock).isIncremental := by
        intro hnot hne
        have hreg := not_and.mp hnot (by simpa using hne)
        rw [not_or, not_not, not_not] at hreg
        exact ⟨hreg.1.symm, hreg.2.symm⟩
      have hnotIncremental : c.isIncremental = false → ∀ timestampNs,
          (¬ (s.domain c.clock).snapshots.entries.isEmpty → c.unitMultiplierNs = (s.domain c.clock).unitMultiplierNs ∧
            c.isIncremental = (s.domain c.clock).isIncremental) →
          SameDomain s.curSnapshotId (s.domain c.clock)
            ⟨(s.domain c.clock).snapshots, c.unitMultiplierNs, c.isIncremental, timestampNs⟩ := by
        intro hinc timestampNs hprops
        refine ⟨hd.lookup, hd.fresh, fun hne => (hprops hne).1, fun hne => (hprops hne).2, fun hne hinc' => ?_⟩
        rw [← (hprops hne).2, hinc] at hinc'
        exact absurd hinc' (by simp)
      generalize ha : s.begin.tryAddClock traceTimeClock s.curSnapshotId (snapshotHash (c :: cs)) c = a
      unfold tryAddClock at ha
      dsimp only at ha
      split_ifs at ha with h1 h2 h3 h4 h5 h6 <;> subst ha
      · exact ⟨_, rfl, hd⟩
      · exact ⟨_, rfl, hd⟩
      · exact ⟨_, rfl, hd.lookup, hd.fresh, fun hne => (hsameProps h2 hne).1, fun hne => (hsameProps h2 hne).2,
          fun _ _ => rfl⟩
      all_goals
        obtain ⟨hinc, hlast⟩ := ((hrefused.resolve_left h1).resolve_left h2).resolve_left h3
        rw [Bool.not_eq_true'] at hinc
      · exact ⟨_, rfl, hnotIncremental hinc _ (hsameProps h2)⟩
      · exact ⟨_, rfl, hnotIncremental hinc _ (hsameProps h2)⟩
      all_goals exact absurd (hlast.resolve_left h4).symm h5
    refine ⟨s.begin.setDomain c.clock d, ?_, ⟨fun c' => ?_, rfl, rfl⟩⟩
    · unfold tryAddSnapshot tryAddClocks
      dsimp only
      rw [hres]
    · rw [@domain_insert s.begin (s.begin.setDomain c.clock d) c.clock d rfl]
      split_ifs with hc
      · rwa [hc]
      · exact hself c'

/-! ### Sessions -/

/-- The same call, but for where the pseudo-random generator has a result cached. -/
inductive SameRequest : Call → Call → Prop
  | addSnapshot (traceTimeClock : ClockId) (cs : List ClockTimestamp) :
    SameRequest (.addSnapshot traceTimeClock cs) (.addSnapshot traceTimeClock cs)
  | convert (src : ClockId) (srcTimestamp : ℤ) (target : ClockId) (slot slot' : ℕ) :
    SameRequest (.convert src srcTimestamp target slot) (.convert src srcTimestamp target slot')

/-- The number of snapshots among some calls. -/
def snapshotCount : List Call → ℕ
  | [] => 0
  | .addSnapshot _ _ :: calls => snapshotCount calls + 1
  | .convert _ _ _ _ :: calls => snapshotCount calls

theorem hopsOf_of_callHops {ts : ℤ} {slot : ℕ} (hne : src ≠ target)
    (h : s.callHops hopSound (.convert src ts target slot)) : s.HopsOf hopSound src ts target := by
  intro p hp
  simp only [callHops, hne, decide_false, Bool.false_or, hp, Option.all_some] at h
  exact h

theorem convert_self (s : ClockSynchronizer) (src : ClockId) (ts : ℤ) (slot : ℕ) :
    s.convert false src ts src slot = (some ts, s) := by
  unfold convert
  rw [if_pos rfl]

/-- What a session keeps. -/
theorem Settled.session {calls : List Call} {rs : List (Option ℤ)} (h : s.Settled)
    (hcount : s.curSnapshotId + snapshotCount calls < 2 ^ 32) (hhops : sessionHops hopSound calls s)
    (ht : session false calls s = some (rs, t)) :
    t.Settled ∧ t.curSnapshotId = s.curSnapshotId + snapshotCount calls := by
  induction calls generalizing s rs with
  | nil =>
    obtain ⟨-, rfl⟩ := Prod.mk.inj (Option.some.inj ht)
    exact ⟨h, rfl⟩
  | cons c calls ih =>
    obtain ⟨⟨rs₁, s₁⟩, hcall, hmap⟩ := Option.bind_eq_some_iff.mp ht
    obtain ⟨⟨rs₂, t₂⟩, hrest, heq⟩ := Option.map_eq_some_iff.mp hmap
    obtain rfl : t₂ = t := (Prod.mk.inj heq).2
    clear ht hmap heq
    simp only [sessionHops, Bool.and_eq_true, hcall, Option.all_some] at hhops
    cases c with
    | addSnapshot traceTimeClock cs =>
      obtain ⟨s₂, hs₂, heq⟩ := Option.map_eq_some_iff.mp hcall
      obtain ⟨-, rfl⟩ := Prod.mk.inj heq
      simp only [snapshotCount] at hcount ⊢
      obtain ⟨hsettled, hcur⟩ := h.addSnapshot (by omega) hs₂
      obtain ⟨ht', hcur'⟩ := ih hsettled (by omega) hhops.2 hrest
      exact ⟨ht', by omega⟩
    | convert src ts target slot =>
      obtain ⟨-, rfl⟩ := Prod.mk.inj (Option.some.inj hcall)
      by_cases hne : src = target
      · subst hne
        rw [convert_self] at hhops hrest
        exact ih h hcount hhops.2 hrest
      · obtain ⟨hsettled, hcur⟩ := h.convert hne slot (hopsOf_of_callHops hne hhops.1)
        obtain ⟨ht', hcur'⟩ := ih hsettled (by rw [hcur]; exact hcount) hhops.2 hrest
        exact ⟨ht', by rw [hcur', hcur]; rfl⟩

/-- The results of a session, call by call. -/
theorem session_results_cons (c : Call) (calls : List Call) (s : ClockSynchronizer) :
    (session false (c :: calls) s).map (·.1) =
      (s.call false c).bind fun r => ((session false calls r.2).map (·.1)).map (r.1 ++ ·) := by
  show ((s.call false c).bind fun r => (session false calls r.2).map fun r' => (r.1 ++ r'.1, r'.2)).map _ = _
  cases s.call false c with
  | none => rfl
  | some r => cases hrest : session false calls r.2 <;> simp [hrest]

/-- The same calls on both sides: the conversions return the same. -/
theorem Sim.session {calls calls' : List Call} (h : Sim k s s') (hs : s.Settled) (hs' : s'.Settled)
    (hk : k ≤ s.curSnapshotId) (hcur : s'.curSnapshotId = s.curSnapshotId + 1)
    (hsame : List.Forall₂ SameRequest calls calls') (hcount : s'.curSnapshotId + snapshotCount calls < 2 ^ 32)
    (hhops : sessionHops hopSound calls s) :
    (ClockSynchronizer.session false calls' s').map (·.1) = (ClockSynchronizer.session false calls s).map (·.1) := by
  induction hsame generalizing s s' with
  | nil => rfl
  | @cons c c' calls calls' hc _ ih =>
    rw [session_results_cons, session_results_cons]
    simp only [sessionHops, Bool.and_eq_true] at hhops
    cases hc with
    | addSnapshot traceTimeClock cs =>
      have hadded := h.tryAddSnapshot hk hcur traceTimeClock cs
      have hstep : ∀ {t t' : ClockSynchronizer}, Sim k t t' → (s.tryAddSnapshot traceTimeClock cs).state? = some t →
          (s'.tryAddSnapshot traceTimeClock cs).state? = some t' →
          (ClockSynchronizer.session false calls' t').map (·.1) = (ClockSynchronizer.session false calls t).map (·.1) := by
        intro t t' hsim ht ht'
        simp only [snapshotCount] at hcount
        obtain ⟨hsettled, htcur⟩ := hs.addSnapshot (by omega) ht
        obtain ⟨hsettled', htcur'⟩ := hs'.addSnapshot (by omega) ht'
        have hrest := hhops.2
        simp only [ClockSynchronizer.call, ht, Option.map_some, Option.all_some] at hrest
        exact ih hsim hsettled hsettled' (by omega) (by omega) (by omega) hrest
      show ((s'.tryAddSnapshot traceTimeClock cs).state?.map ([], ·)).bind _ =
        ((s.tryAddSnapshot traceTimeClock cs).state?.map ([], ·)).bind _
      generalize s.tryAddSnapshot traceTimeClock cs = a at hadded hstep
      generalize s'.tryAddSnapshot traceTimeClock cs = a' at hadded hstep
      cases hadded with
      | ok hsim | error hsim => exact congrArg (Option.map ([] ++ ·)) (hstep hsim rfl rfl)
      | crash => rfl
    | convert src ts target slot slot' =>
      have hrest := hhops.2
      simp only [ClockSynchronizer.call, Option.all_some] at hrest
      show ((ClockSynchronizer.session false calls' (s'.convert false src ts target slot').2).map (·.1)).map
          ([(s'.convert false src ts target slot').1] ++ ·) =
        ((ClockSynchronizer.session false calls (s.convert false src ts target slot).2).map (·.1)).map
          ([(s.convert false src ts target slot).1] ++ ·)
      by_cases hne : src = target
      · subst hne
        rw [convert_self] at hrest
        rw [convert_self, convert_self]
        exact congrArg (Option.map ([some ts] ++ ·)) (ih h hs hs' hk hcur hcount hrest)
      · have hhops₁ := hopsOf_of_callHops hne hhops.1
        obtain ⟨hpath, hns, hconverted⟩ := h.convert hs.rooted hs'.rooted hne ts
        have hhops₂ : s'.HopsOf hopSound src ts target := by
          intro p hp
          rw [hpath] at hp
          rw [h.series, hns (by rw [hp]; simp), everyHop_shift]
          exact hhops₁ p hp
        obtain ⟨hsettled, hscur⟩ := hs.convert hne slot hhops₁
        obtain ⟨hsettled', hscur'⟩ := hs'.convert hne slot' hhops₂
        obtain ⟨hresult, -, cache, hstate⟩ := hs.coherent.convert hne slot hhops₁
        obtain ⟨hresult', -, cache', hstate'⟩ := hs'.coherent.convert hne slot' hhops₂
        have hsim : Sim k (s.convert false src ts target slot).2 (s'.convert false src ts target slot').2 := by
          rw [hstate, hstate']
          exact ⟨hconverted.domain, hconverted.graph, hconverted.nonMonotonicClocks⟩
        have hsameResult : (s'.convert false src ts target slot').1 = (s.convert false src ts target slot).1 := by
          rw [hresult, hresult', hpath]
          cases hp : s.findPath src target with
          | none => rfl
          | some p =>
            simp only [Option.map_some]
            rw [h.series, hns (by rw [hp]; simp), walk_shift]
        rw [hsameResult]
        refine congrArg (Option.map _) (ih hsim hsettled hsettled' ?_ ?_ ?_ hrest)
        · rw [hscur]
          exact hk
        · rw [hscur, hscur', hcur]
        · rw [hscur']
          exact hcount

/-- A snapshot whose first clock is refused is as if it had not been added: after any calls, and whatever calls follow,
the conversions return the same. -/
theorem addSnapshot_atomic {pre post post' : List Call} {rs : List (Option ℤ)} {s s' : ClockSynchronizer}
    {traceTimeClock : ClockId} {cs : List ClockTimestamp} (hpre : session false pre {} = some (rs, s))
    (herror : s.tryAddSnapshot traceTimeClock cs = .error s') (hrefused : s.refused traceTimeClock cs)
    (hsame : List.Forall₂ SameRequest post post') (hcount : snapshotCount pre + snapshotCount post + 1 < 2 ^ 32)
    (hpreHops : sessionHops hopSound pre {}) (hpostHops : sessionHops hopSound post s) :
    (session false post' s').map (·.1) = (session false post s).map (·.1) := by
  obtain ⟨hsettled, hcur⟩ := settled_init.session (by show 0 + _ < _; omega) hpreHops hpre
  replace hcur : s.curSnapshotId = snapshotCount pre := hcur.trans (Nat.zero_add _)
  obtain ⟨s₁, herror', hsim⟩ := hsettled.refused hrefused
  rw [herror] at herror'
  obtain rfl := Added.error.inj herror'
  obtain ⟨hsettled', hcur'⟩ := hsettled.addSnapshot (t := s') (by omega) (by rw [herror]; rfl)
  exact hsim.session hsettled hsettled' (le_refl _) hcur' hsame (by omega) hpostHops

/-- A snapshot whose first clock comes with another unit, between conversions and before a further snapshot. -/
theorem addSnapshot_atomic_unit :
    let post slot : List Call :=
      [.convert ⟨1, 0, 0⟩ 5500 ⟨6, 0, 0⟩ slot,
       .addSnapshot ⟨6, 0, 0⟩ [⟨⟨1, 0, 0⟩, 8000, 1, false⟩, ⟨⟨6, 0, 0⟩, 3000, 1, false⟩],
       .convert ⟨1, 0, 0⟩ 9000 ⟨6, 0, 0⟩ slot]
    ∃ s s', session false [.addSnapshot ⟨6, 0, 0⟩ [⟨⟨6, 0, 0⟩, 1000, 1, false⟩, ⟨⟨1, 0, 0⟩, 5000, 1, false⟩],
          .convert ⟨1, 0, 0⟩ 5200 ⟨6, 0, 0⟩ 4] {} = some ([some 1200], s) ∧
      s.tryAddSnapshot ⟨6, 0, 0⟩ [⟨⟨1, 0, 0⟩, 6, 1000, false⟩, ⟨⟨6, 0, 0⟩, 2000, 1, false⟩] = .error s' ∧
      (session false (post 2) s').map (·.1) = (session false (post 4) s).map (·.1) := by
  intro post
  let pre : List Call := [.addSnapshot ⟨6, 0, 0⟩ [⟨⟨6, 0, 0⟩, 1000, 1, false⟩, ⟨⟨1, 0, 0⟩, 5000, 1, false⟩],
    .convert ⟨1, 0, 0⟩ 5200 ⟨6, 0, 0⟩ 4]
  let cs : List ClockTimestamp := [⟨⟨1, 0, 0⟩, 6, 1000, false⟩, ⟨⟨6, 0, 0⟩, 2000, 1, false⟩]
  have hfacts : (session false pre {}).any (fun r => r.1 = [some 1200] ∧ (r.2.tryAddSnapshot ⟨6, 0, 0⟩ cs).isError ∧
      r.2.refused ⟨6, 0, 0⟩ cs ∧ sessionHops hopSound (post 4) r.2) := by
    decide +kernel
  obtain ⟨⟨rs, s⟩, hpre, hfact⟩ := (Option.any_eq_true _ _).mp hfacts
  obtain ⟨rfl, herror, hrefused, hhops⟩ := of_decide_eq_true hfact
  obtain ⟨s', hs'⟩ := Added.exists_of_isError herror
  refine ⟨s, s', hpre, hs', addSnapshot_atomic hpre hs' hrefused ?_ (by decide) (by decide +kernel) hhops⟩
  exact .cons (.convert _ _ _ _ _) (.cons (.addSnapshot _ _) (.cons (.convert _ _ _ _ _) .nil))

/-- The second clock of a snapshot is the trace clock and goes backwards: the first has been stored, and a later hop from
it does not find its snapshot. -/
theorem not_atomic : ∃ s s', session false [.addSnapshot ⟨6, 0, 0⟩ [⟨⟨1, 0, 0⟩, 10, 1, false⟩, ⟨⟨6, 0, 0⟩, 100, 1, false⟩]]
      {} = some ([], s) ∧
    s.tryAddSnapshot ⟨6, 0, 0⟩ [⟨⟨1, 0, 0⟩, 20, 1, false⟩, ⟨⟨6, 0, 0⟩, 50, 1, false⟩] = .error s' ∧
    (session false [.convert ⟨1, 0, 0⟩ 25 ⟨6, 0, 0⟩ 0] s').map (·.1) = some [some 25] ∧
    (session false [.convert ⟨1, 0, 0⟩ 25 ⟨6, 0, 0⟩ 0] s).map (·.1) = some [some 115] := by
  let pre : List Call := [.addSnapshot ⟨6, 0, 0⟩ [⟨⟨1, 0, 0⟩, 10, 1, false⟩, ⟨⟨6, 0, 0⟩, 100, 1, false⟩]]
  let cs : List ClockTimestamp := [⟨⟨1, 0, 0⟩, 20, 1, false⟩, ⟨⟨6, 0, 0⟩, 50, 1, false⟩]
  let post : List Call := [.convert ⟨1, 0, 0⟩ 25 ⟨6, 0, 0⟩ 0]
  have hfacts : (session false pre {}).any (fun r => r.1 = [] ∧ (r.2.tryAddSnapshot ⟨6, 0, 0⟩ cs).isError ∧
      (r.2.tryAddSnapshot ⟨6, 0, 0⟩ cs).state?.all (fun s' => (session false post s').map (·.1) = some [some 25]) ∧
      (session false post r.2).map (·.1) = some [some 115]) := by
    decide +kernel
  obtain ⟨⟨rs, s⟩, hpre, hfact⟩ := (Option.any_eq_true _ _).mp hfacts
  obtain ⟨rfl, herror, hafter, hbefore⟩ := of_decide_eq_true hfact
  obtain ⟨s', hs'⟩ := Added.exists_of_isError herror
  rw [hs'] at hafter
  exact ⟨s, s', hpre, hs', of_decide_eq_true hafter, hbefore⟩

end ClockSynchronizer

end LynxTrace.ClockSync
