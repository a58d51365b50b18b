import LynxTrace.TraceProcessor.ClockCache
import Mathlib.Data.List.Pairwise

/-!
# TraceProcessor.ClockGraph — what the snapshots leave in the graph of clocks

The time series of a clock for a hash holds the ids of the snapshots with that hash that contain the clock (`Records`),
and an edge comes from a snapshot that contains both of its clocks.  As long as snapshots of different clocks have
different hashes, both ends of an edge therefore hold the same ids, and every hop finds its snapshot.
-/

namespace LynxTrace.ClockSync

namespace ClockSynchronizer

/-! ### The ids of a time series -/

/-- The clocks of a snapshot. -/
def clocksOf (cs : List ClockTimestamp) : List ClockId := cs.map (·.clock)

/-- The ids of the snapshots with a hash that contain a clock, for the snapshots of a run. -/
def snapshotIds (snaps : List (List ClockTimestamp)) (c : ClockId) (hash : ℕ) : List ℕ :=
  (snaps.zipIdx.filter fun p => snapshotHash p.1 = hash ∧ c ∈ clocksOf p.1).map (·.2 % 2 ^ 32)

theorem snapshotIds_concat (snaps : List (List ClockTimestamp)) (cs : List ClockTimestamp) (c : ClockId) (hash : ℕ) :
    snapshotIds (snaps ++ [cs]) c hash =
      snapshotIds snaps c hash ++ if snapshotHash cs = hash ∧ c ∈ clocksOf cs then [snaps.length % 2 ^ 32] else [] := by
  unfold snapshotIds
  rw [List.zipIdx_append, List.filter_append, List.map_append, List.zipIdx_singleton, List.filter_singleton]
  congr 1
  by_cases h : snapshotHash cs = hash ∧ c ∈ clocksOf cs
  · rw [if_pos h, decide_eq_true h]
    simp
  · rw [if_neg h, decide_eq_false h]
    simp

/-- The ids in the time series of a clock. -/
def idsOf (s : ClockSynchronizer) (c : ClockId) (hash : ℕ) : List ℕ := (s.series c hash).map (·.snapshotId)

variable {s s' : ClockSynchronizer} {traceTimeClock src target : ClockId}

/-- What one clock of a snapshot does to the time series and the graph. -/
theorem addClock_spec {snapshotId hash : ℕ} {c : ClockTimestamp}
    (h : s.addClock traceTimeClock snapshotId hash c = some s') :
    (s.idsOf c.clock hash).getLast? ≠ some snapshotId ∧
      (∀ c' hash', s'.idsOf c' hash' = s.idsOf c' hash' ++ if c' = c.clock ∧ hash' = hash then [snapshotId] else []) ∧
        (∀ e ∈ s'.graph, e ∈ s.graph) ∧ s'.curSnapshotId = s.curSnapshotId := by
  unfold addClock at h
  dsimp only at h
  split_ifs at h with h1 h2 h3 hlast h5 hback
  all_goals obtain rfl := Option.some.inj h
  all_goals
    refine ⟨?_, ?_, ?_, rfl⟩
    · unfold idsOf
      rw [List.getLast?_map]
      intro heq
      obtain ⟨x, hx, hid⟩ := Option.map_eq_some_iff.mp heq
      refine hlast ?_
      unfold series at hx
      rw [hx]
      simpa using hid
    · intro c' hash'
      unfold idsOf
      rw [series_insert rfl]
      by_cases hc : c' = c.clock
      · subst hc
        rw [if_pos rfl, lookup_append]
        by_cases hh : hash' = hash
        · subst hh
          rw [if_pos rfl, if_pos ⟨rfl, rfl⟩, List.map_append]
          rfl
        · rw [if_neg hh, if_neg (fun hand => hh hand.2), List.append_nil]
          rfl
      · rw [if_neg hc, if_neg (fun hand => hc hand.1), List.append_nil]
  · intro e he
    exact (List.mem_filter.mp he).1
  · exact fun e he => he

variable {cs : List ClockTimestamp}

/-- A clock that has an entry for the snapshot is not among the clocks still to be added. -/
theorem not_mem_of_addClocks {snapshotId hash : ℕ} (h : addClocks traceTimeClock snapshotId hash cs s = some s')
    {c : ClockId} (hlast : (s.idsOf c hash).getLast? = some snapshotId) : c ∉ clocksOf cs := by
  induction cs generalizing s with
  | nil => simp [clocksOf]
  | cons c₁ cs ih =>
    obtain ⟨s₁, h₁, h₂⟩ := Option.bind_eq_some_iff.mp h
    obtain ⟨hne, hids, -⟩ := addClock_spec h₁
    have hc : c ≠ c₁.clock := by
      rintro rfl
      exact hne hlast
    have hkept : (s₁.idsOf c hash).getLast? = some snapshotId := by
      rw [hids, if_neg (fun hand => hc hand.1), List.append_nil, hlast]
    intro hmem
    rcases List.mem_cons.mp hmem with heq | hmem
    · exact hc heq
    · exact ih h₂ hkept hmem

/-- What all the clocks of a snapshot do. -/
theorem addClocks_spec {snapshotId hash : ℕ} (h : addClocks traceTimeClock snapshotId hash cs s = some s') :
    (∀ c hash', s'.idsOf c hash' =
        s.idsOf c hash' ++ if hash = hash' ∧ c ∈ clocksOf cs then [snapshotId] else []) ∧
      (∀ e ∈ s'.graph, e ∈ s.graph) ∧ s'.curSnapshotId = s.curSnapshotId := by
  induction cs generalizing s with
  | nil =>
    obtain rfl := Option.some.inj h
    refine ⟨fun c hash' => ?_, fun e he => he, rfl⟩
    rw [if_neg (by simp [clocksOf]), List.append_nil]
  | cons c₁ cs ih =>
    obtain ⟨s₁, h₁, h₂⟩ := Option.bind_eq_some_iff.mp h
    obtain ⟨-, hids₁, hgraph₁, hcur₁⟩ := addClock_spec h₁
    obtain ⟨hids, hgraph, hcur⟩ := ih h₂
    refine ⟨fun c hash' => ?_, fun e he => hgraph₁ e (hgraph e he), hcur.trans hcur₁⟩
    rw [hids, hids₁, List.append_assoc]
    congr 1
    by_cases hc : c = c₁.clock ∧ hash' = hash
    · obtain ⟨rfl, rfl⟩ := hc
      -- The clock occurs once only.
      have hlast : (s₁.idsOf c₁.clock hash').getLast? = some snapshotId := by
        rw [hids₁, if_pos ⟨rfl, rfl⟩, List.getLast?_concat]
      have hnot := not_mem_of_addClocks h₂ hlast
      rw [if_pos ⟨rfl, rfl⟩, if_neg (fun hand => hnot hand.2), if_pos ⟨rfl, by simp [clocksOf]⟩]
      rfl
    · rw [if_neg hc, List.nil_append]
      have hiff : (hash = hash' ∧ c ∈ clocksOf cs) ↔ hash = hash' ∧ c ∈ clocksOf (c₁ :: cs) := by
        constructor
        · rintro ⟨rfl, hmem⟩
          exact ⟨rfl, List.mem_cons_of_mem _ hmem⟩
        · rintro ⟨rfl, hmem⟩
          exact ⟨rfl, (List.mem_cons.mp hmem).resolve_left fun heq => hc ⟨heq, rfl⟩⟩
      rw [if_congr hiff rfl rfl]

/-- The edges of a snapshot are between clocks of it. -/
theorem addAllEdges_spec (hash : ℕ) (cs : List ClockTimestamp) (s : ClockSynchronizer) :
    (∀ e ∈ (addAllEdges hash cs s).graph,
        e ∈ s.graph ∨ (e.hash = hash ∧ e.src ∈ clocksOf cs ∧ e.target ∈ clocksOf cs)) ∧
      (addAllEdges hash cs s).clocks = s.clocks ∧ (addAllEdges hash cs s).curSnapshotId = s.curSnapshotId := by
  have hpair : ∀ (a b : ClockId) (s : ClockSynchronizer), (∀ e ∈ (s.addEdges hash a b).graph,
      e ∈ s.graph ∨ e = ⟨a, b, hash⟩ ∨ e = ⟨b, a, hash⟩) ∧ (s.addEdges hash a b).clocks = s.clocks ∧
        (s.addEdges hash a b).curSnapshotId = s.curSnapshotId := by
    intro a b s
    unfold addEdges
    dsimp only
    by_cases ha : a ∈ s.nonMonotonicClocks
    · rw [if_pos ha]
      split_ifs with hb
      · exact ⟨fun e he => .inl he, rfl, rfl⟩
      · exact ⟨fun e he => (mem_emplace he).elim (fun h => .inr (.inr h)) .inl, rfl, rfl⟩
    · rw [if_neg ha]
      split_ifs with hb
      · exact ⟨fun e he => (mem_emplace he).elim (fun h => .inr (.inl h)) .inl, rfl, rfl⟩
      · refine ⟨fun e he => ?_, rfl, rfl⟩
        rcases mem_emplace he with h | he
        · exact .inr (.inr h)
        · exact (mem_emplace he).elim (fun h => .inr (.inl h)) .inl
  have hrow : ∀ (c : ClockTimestamp) (cs : List ClockTimestamp) (s : ClockSynchronizer),
      (∀ e ∈ (cs.foldl (fun s c' => s.addEdges hash c.clock c'.clock) s).graph,
        e ∈ s.graph ∨ (e.hash = hash ∧ e.src ∈ clocksOf (c :: cs) ∧ e.target ∈ clocksOf (c :: cs))) ∧
      (cs.foldl (fun s c' => s.addEdges hash c.clock c'.clock) s).clocks = s.clocks ∧
      (cs.foldl (fun s c' => s.addEdges hash c.clock c'.clock) s).curSnapshotId = s.curSnapshotId := by
    intro c cs
    induction cs with
    | nil => exact fun s => ⟨fun e he => .inl he, rfl, rfl⟩
    | cons c' cs ih =>
      intro s
      obtain ⟨hgraph₁, hclocks₁, hcur₁⟩ := hpair c.clock c'.clock s
      obtain ⟨hgraph, hclocks, hcur⟩ := ih (s.addEdges hash c.clock c'.clock)
      refine ⟨fun e he => ?_, hclocks.trans hclocks₁, hcur.trans hcur₁⟩
      rcases hgraph e he with he | ⟨hhash, hsrc, htarget⟩
      · rcases hgraph₁ e he with he | rfl | rfl
        · exact .inl he
        · exact .inr ⟨rfl, by simp [clocksOf], by simp [clocksOf]⟩
        · exact .inr ⟨rfl, by simp [clocksOf], by simp [clocksOf]⟩
      · have hsub : clocksOf (c :: cs) ⊆ clocksOf (c :: c' :: cs) := by
          simp only [clocksOf, List.map_cons]
          exact List.cons_subset_cons _ (List.subset_cons_self _ _)
        exact .inr ⟨hhash, hsub hsrc, hsub htarget⟩
  induction cs generalizing s with
  | nil => exact ⟨fun e he => .inl he, rfl, rfl⟩
  | cons c cs ih =>
    obtain ⟨hgraph₁, hclocks₁, hcur₁⟩ := hrow c cs s
    obtain ⟨hgraph, hclocks, hcur⟩ := ih (cs.foldl (fun s c' => s.addEdges hash c.clock c'.clock) s)
    refine ⟨fun e he => ?_, hclocks.trans hclocks₁, hcur.trans hcur₁⟩
    rcases hgraph e he with he | ⟨hhash, hsrc, htarget⟩
    · exact hgraph₁ e he
    · exact .inr ⟨hhash, List.mem_cons_of_mem _ hsrc, List.mem_cons_of_mem _ htarget⟩

/-! ### Runs -/

/-- The state holds what the snapshots of a run have left in it. -/
structure Records (snaps : List (List ClockTimestamp)) (s : ClockSynchronizer) : Prop where
  next : s.curSnapshotId = snaps.length % 2 ^ 32
  ids : ∀ c hash, s.idsOf c hash = snapshotIds snaps c hash
  edges : ∀ e ∈ s.graph, ∃ cs ∈ snaps, snapshotHash cs = e.hash ∧ e.src ∈ clocksOf cs ∧ e.target ∈ clocksOf cs

theorem records_nil : Records [] {} := by
  refine ⟨rfl, fun c hash => rfl, fun e he => ?_⟩
  exact absurd he (List.not_mem_nil)

variable {snaps : List (List ClockTimestamp)}

theorem Records.addSnapshot (h : Records snaps s) (hadd : s.addSnapshot traceTimeClock cs = some s') :
    Records (snaps ++ [cs]) s' := by
  obtain ⟨s₁, h₁, rfl⟩ := Option.map_eq_some_iff.mp hadd
  obtain ⟨hids, hgraph, hcur⟩ := addClocks_spec h₁
  obtain ⟨hedges, hclocks, hcur'⟩ := addAllEdges_spec (snapshotHash cs) cs s₁
  refine ⟨?_, fun c hash => ?_, fun e he => ?_⟩
  · rw [hcur', hcur]
    show (s.curSnapshotId + 1) % 2 ^ 32 = _
    rw [h.next, Nat.mod_add_mod, List.length_append, List.length_singleton]
  · have hsame : (addAllEdges (snapshotHash cs) cs s₁).idsOf c hash = s₁.idsOf c hash := by
      unfold idsOf series domain
      rw [hclocks]
    rw [hsame, hids, snapshotIds_concat]
    congr 1
    · exact h.ids c hash
    · rw [h.next]
  · rcases hedges e he with he | ⟨hhash, hsrc, htarget⟩
    · obtain ⟨cs', hcs', hrest⟩ := h.edges e (hgraph e he)
      exact ⟨cs', List.mem_append_left _ hcs', hrest⟩
    · exact ⟨cs, by simp, hhash.symm, hsrc, htarget⟩

/-- Conversions change neither the time series nor the graph. -/
theorem convert_keeps (cacheLookupsDisabled : Bool) (s : ClockSynchronizer) (src : ClockId) (ts : ℤ) (target : ClockId)
    (slot : ℕ) : (s.convert cacheLookupsDisabled src ts target slot).2.series = s.series ∧
      (s.convert cacheLookupsDisabled src ts target slot).2.graph = s.graph ∧
      (s.convert cacheLookupsDisabled src ts target slot).2.nonMonotonicClocks = s.nonMonotonicClocks ∧
      (s.convert cacheLookupsDisabled src ts target slot).2.curSnapshotId = s.curSnapshotId := by
  have htoNs : (s.toNs src ts).2.series = s.series := by
    have hsnapshots : ((s.domain src).toNs ts).2.snapshots = (s.domain src).snapshots := by
      unfold ClockDomain.toNs
      split_ifs <;> rfl
    funext c hash
    refine (series_insert rfl c hash).trans ?_
    split_ifs with hc
    · rw [hsnapshots, hc]
      rfl
    · rfl
  have hslow : ∀ (t : ClockSynchronizer) (ns : Option ℤ), t.series = s.series → t.graph = s.graph →
      t.nonMonotonicClocks = s.nonMonotonicClocks → t.curSnapshotId = s.curSnapshotId →
      ns.isSome ∨ t = s → (t.convertSlowpath src ts ns target slot).2.series = s.series ∧
        (t.convertSlowpath src ts ns target slot).2.graph = s.graph ∧
        (t.convertSlowpath src ts ns target slot).2.nonMonotonicClocks = s.nonMonotonicClocks ∧
        (t.convertSlowpath src ts ns target slot).2.curSnapshotId = s.curSnapshotId := by
    intro t ns hseries hgraph hnon hcur hns
    unfold convertSlowpath
    cases t.findPath src target with
    | none => exact ⟨hseries, hgraph, hnon, hcur⟩
    | some p =>
      cases ns with
      | some ns => exact ⟨hseries, hgraph, hnon, hcur⟩
      | none =>
        obtain rfl := hns.resolve_left (by simp)
        exact ⟨htoNs, rfl, rfl, rfl⟩
  unfold convert
  by_cases heq : src = target
  · rw [if_pos heq]
    exact ⟨rfl, rfl, rfl, rfl⟩
  · rw [if_neg heq]
    split
    · exact hslow s none rfl rfl rfl rfl (.inr rfl)
    · rename_i e es hmatch
      cases hfind : (e :: es).find? fun e => e.minTsNs ≤ (s.toNs src ts).1 ∧ (s.toNs src ts).1 < e.maxTsNs with
      | some e' =>
        simp only [hfind]
        exact ⟨htoNs, rfl, rfl, rfl⟩
      | none =>
        simp only [hfind]
        exact hslow _ _ htoNs rfl rfl rfl (.inl rfl)

/-- The state after some calls, all snapshots of which are added successfully. -/
def run (cacheLookupsDisabled : Bool) : List Call → ClockSynchronizer → Option ClockSynchronizer
  | [], s => some s
  | .addSnapshot traceTimeClock cs :: calls, s =>
    (s.addSnapshot traceTimeClock cs).bind (run cacheLookupsDisabled calls)
  | .convert src srcTimestamp target slot :: calls, s =>
    run cacheLookupsDisabled calls (s.convert cacheLookupsDisabled src srcTimestamp target slot).2

/-- The snapshots added by some calls. -/
def snapshotsOf : List Call → List (List ClockTimestamp)
  | [] => []
  | .addSnapshot _ cs :: calls => cs :: snapshotsOf calls
  | .convert _ _ _ _ :: calls => snapshotsOf calls

theorem Records.run {cacheLookupsDisabled : Bool} {calls : List Call} (h : Records snaps s) (hmono : s.Monotone)
    (hrun : ClockSynchronizer.run cacheLookupsDisabled calls s = some s') :
    Records (snaps ++ snapshotsOf calls) s' ∧ s'.Monotone := by
  induction calls generalizing snaps s with
  | nil =>
    obtain rfl := Option.some.inj hrun
    rw [snapshotsOf, List.append_nil]
    exact ⟨h, hmono⟩
  | cons call calls ih =>
    cases call with
    | addSnapshot traceTimeClock cs =>
      obtain ⟨s₁, hadd, hrest⟩ := Option.bind_eq_some_iff.mp hrun
      have hstep := ih (h.addSnapshot hadd) (hmono.addSnapshot hadd) hrest
      rwa [List.append_assoc] at hstep
    | convert src ts target slot =>
      obtain ⟨hseries, hgraph, hnon, hcur⟩ := convert_keeps cacheLookupsDisabled s src ts target slot
      refine ih ⟨hcur.trans h.next, fun c hash => ?_, ?_⟩ ⟨?_, ?_⟩ hrun
      · rw [← h.ids c hash]
        unfold idsOf
        rw [hseries]
      · rw [hgraph]
        exact h.edges
      · rw [hseries, hnon]
        exact hmono.series
      · rw [hgraph, hnon]
        exact hmono.edges

/-! ### Snapshots told apart by their hashes -/

/-- Two snapshots contain the same clocks. -/
def SameClocks (cs cs' : List ClockTimestamp) : Prop := clocksOf cs ⊆ clocksOf cs' ∧ clocksOf cs' ⊆ clocksOf cs

/-- Snapshots with one hash contain the same clocks, and the counter of snapshots does not wrap between them. -/
def HashesApart (snaps : List (List ClockTimestamp)) : Prop :=
  snaps.zipIdx.Pairwise fun p q => snapshotHash p.1 = snapshotHash q.1 →
    SameClocks p.1 q.1 ∧ p.2 / 2 ^ 32 = q.2 / 2 ^ 32

instance (cs cs' : List ClockTimestamp) : Decidable (SameClocks cs cs') :=
  inferInstanceAs (Decidable (clocksOf cs ⊆ clocksOf cs' ∧ clocksOf cs' ⊆ clocksOf cs))

instance (snaps : List (List ClockTimestamp)) : Decidable (HashesApart snaps) :=
  inferInstanceAs (Decidable (snaps.zipIdx.Pairwise fun p q => snapshotHash p.1 = snapshotHash q.1 →
    SameClocks p.1 q.1 ∧ p.2 / 2 ^ 32 = q.2 / 2 ^ 32))

/-- The ids of the snapshots with a hash. -/
def hashIds (snaps : List (List ClockTimestamp)) (hash : ℕ) : List ℕ :=
  (snaps.zipIdx.filter fun p => snapshotHash p.1 = hash).map (·.2 % 2 ^ 32)

theorem mem_hashIds_of_mem {c : ClockId} {hash id : ℕ} (h : id ∈ snapshotIds snaps c hash) :
    id ∈ hashIds snaps hash := by
  obtain ⟨p, hp, rfl⟩ := List.mem_map.mp h
  obtain ⟨hmem, hand⟩ := List.mem_filter.mp hp
  have hhash : snapshotHash p.1 = hash := (of_decide_eq_true hand).1
  exact List.mem_map_of_mem (List.mem_filter.mpr ⟨hmem, decide_eq_true hhash⟩)

/-- Any two snapshots of the run with one hash contain the same clocks. -/
theorem HashesApart.sameClocks (h : HashesApart snaps) {p q : List ClockTimestamp × ℕ} (hp : p ∈ snaps.zipIdx)
    (hq : q ∈ snaps.zipIdx) (hhash : snapshotHash p.1 = snapshotHash q.1) : SameClocks p.1 q.1 := by
  have hsymm : Std.Symm fun p q : List ClockTimestamp × ℕ => snapshotHash p.1 = snapshotHash q.1 →
      SameClocks p.1 q.1 ∧ p.2 / 2 ^ 32 = q.2 / 2 ^ 32 :=
    ⟨fun p q hpq hhash => ⟨(hpq hhash.symm).1.symm, (hpq hhash.symm).2.symm⟩⟩
  exact (h.forall_of_forall (fun _ _ _ => ⟨⟨List.Subset.refl _, List.Subset.refl _⟩, rfl⟩) hp hq hhash).1

/-- A clock of one snapshot is in every snapshot with its hash. -/
theorem HashesApart.snapshotIds_eq (h : HashesApart snaps) (hcs : cs ∈ snaps) {c : ClockId} (hc : c ∈ clocksOf cs) :
    snapshotIds snaps c (snapshotHash cs) = hashIds snaps (snapshotHash cs) := by
  obtain ⟨i, hi, rfl⟩ := List.mem_iff_getElem.mp hcs
  have hmem : (snaps[i], i) ∈ snaps.zipIdx := by
    rw [List.mem_zipIdx_iff_getElem?]
    exact List.getElem?_eq_getElem hi
  unfold snapshotIds hashIds
  congr 1
  refine List.filter_congr fun p hp => ?_
  rw [decide_eq_decide]
  exact ⟨And.left, fun hhash => ⟨hhash, (h.sameClocks hmem hp hhash.symm).1 hc⟩⟩

/-- The ids of a hash ascend. -/
theorem HashesApart.ascending (h : HashesApart snaps) (hash : ℕ) : (hashIds snaps hash).Pairwise (· < ·) := by
  have hindex : snaps.zipIdx.Pairwise fun p q => p.2 < q.2 := by
    refine List.pairwise_map.mp ?_
    rw [List.zipIdx_map_snd]
    exact List.pairwise_lt_range'
  unfold hashIds
  rw [List.pairwise_map, List.pairwise_filter]
  refine (h.and hindex).imp fun {p q} hpq hp hq => ?_
  have hblock := (hpq.1 ((of_decide_eq_true hp).trans (of_decide_eq_true hq).symm)).2
  have hlt := hpq.2
  omega

/-! ### Paths -/

/-- A contiguous path between two clocks. -/
def IsPath (graph : List ClockGraphEdge) : ClockId → List ClockGraphEdge → ClockId → Prop
  | a, [], b => a = b
  | a, e :: es, b => e ∈ graph ∧ e.src = a ∧ IsPath graph e.target es b

variable {graph : List ClockGraphEdge}

theorem isPath_concat {a b : ClockId} {es : List ClockGraphEdge} {e : ClockGraphEdge} :
    IsPath graph a (es ++ [e]) b ↔ IsPath graph a es e.src ∧ e ∈ graph ∧ e.target = b := by
  induction es generalizing a with
  | nil =>
    constructor
    · rintro ⟨he, hsrc, htarget⟩
      exact ⟨hsrc.symm, he, htarget⟩
    · rintro ⟨hsrc, he, htarget⟩
      exact ⟨he, hsrc.symm, htarget⟩
  | cons e' es ih =>
    simp only [List.cons_append, IsPath, ih, and_assoc]

/-- The queue holds the paths of one length from a clock. -/
def Layer (graph : List ClockGraphEdge) (src : ClockId) (k : ℕ) (queue : List ClockPath) : Prop :=
  ∀ p, p ∈ queue ↔ IsPath graph src p.path p.last ∧ p.path.length = k

theorem Layer.next {k : ℕ} {queue : List ClockPath} (h : Layer graph src k queue) :
    Layer graph src (k + 1) (queue.flatMap (expand graph)) := by
  rintro ⟨last, path⟩
  rw [List.mem_flatMap]
  constructor
  · rintro ⟨p, hp, hexp⟩
    obtain ⟨e, he, heq⟩ := List.mem_map.mp hexp
    obtain ⟨rfl, rfl⟩ := ClockPath.mk.inj heq
    obtain ⟨hmem, hsrc⟩ := List.mem_filter.mp he
    obtain ⟨hpath, hlen⟩ := (h p).mp hp
    rw [← of_decide_eq_true hsrc] at hpath
    exact ⟨isPath_concat.mpr ⟨hpath, hmem, rfl⟩, by rw [List.length_append, List.length_singleton, hlen]⟩
  · rintro ⟨hpath, hlen⟩
    dsimp only at hpath hlen
    rcases List.eq_nil_or_concat path with rfl | ⟨es, e, rfl⟩
    · exact absurd hlen (by simp)
    · rw [List.concat_eq_append] at hpath hlen ⊢
      obtain ⟨hes, hmem, rfl⟩ := isPath_concat.mp hpath
      rw [List.length_append, List.length_singleton] at hlen
      refine ⟨⟨e.src, es⟩, (h _).mpr ⟨hes, Nat.succ.inj hlen⟩, List.mem_map.mpr ⟨e, ?_, rfl⟩⟩
      exact List.mem_filter.mpr ⟨hmem, decide_eq_true rfl⟩

/-- The search from a layer finds a shortest path with at most `n` further edges, if no shorter one has been passed. -/
theorem findPathFrom_spec {n k : ℕ} {queue : List ClockPath} (h : Layer graph src k queue)
    (hpassed : ∀ es, IsPath graph src es target → k < es.length) :
    match findPathFrom graph target n queue with
    | some p => p.last = target ∧ IsPath graph src p.path target ∧ p.path.length ≤ k + n ∧
        ∀ es, IsPath graph src es target → p.path.length ≤ es.length
    | none => ∀ es, IsPath graph src es target → k + n < es.length := by
  induction n generalizing k queue with
  | zero => exact hpassed
  | succ n ih =>
    unfold findPathFrom
    dsimp only
    cases hfind : (queue.flatMap (expand graph)).find? (·.last = target) with
    | some p =>
      obtain ⟨hpath, hlen⟩ := (h.next p).mp (List.mem_of_find?_eq_some hfind)
      have hlast : p.last = target := by simpa using List.find?_some hfind
      rw [hlast] at hpath
      refine ⟨hlast, hpath, by omega, fun es hes => ?_⟩
      have hlt := hpassed es hes
      omega
    | none =>
      have hpassed' : ∀ es, IsPath graph src es target → k + 1 < es.length := by
        intro es hes
        refine lt_of_le_of_ne (hpassed es hes) fun hlen => ?_
        have hnone := List.find?_eq_none.mp hfind ⟨target, es⟩ ((h.next _).mpr ⟨hes, hlen.symm⟩)
        exact hnone (decide_eq_true rfl)
      have hstep := ih h.next hpassed'
      rwa [Nat.add_right_comm] at hstep

/-- The ends of an edge have snapshots for its hash. -/
theorem Records.series_ne_nil (h : Records snaps s) {e : ClockGraphEdge} (he : e ∈ s.graph) :
    s.series e.src e.hash ≠ [] ∧ s.series e.target e.hash ≠ [] := by
  obtain ⟨cs, hcs, hhash, hsrc, htarget⟩ := h.edges e he
  have hne : ∀ c ∈ clocksOf cs, s.series c e.hash ≠ [] := by
    intro c hc hnil
    have hids := h.ids c e.hash
    unfold idsOf at hids
    rw [hnil] at hids
    obtain ⟨i, hi, rfl⟩ := List.mem_iff_getElem.mp hcs
    have hid : i % 2 ^ 32 ∈ snapshotIds snaps c e.hash := by
      refine List.mem_map.mpr ⟨(snaps[i], i), List.mem_filter.mpr ⟨?_, decide_eq_true ⟨hhash, hc⟩⟩, rfl⟩
      rw [List.mem_zipIdx_iff_getElem?]
      exact List.getElem?_eq_getElem hi
    rw [← hids] at hid
    exact absurd hid (List.not_mem_nil)
  exact ⟨hne _ hsrc, hne _ htarget⟩

/-- The clocks of an edge are known. -/
theorem Records.known (h : Records snaps s) {e : ClockGraphEdge} (he : e ∈ s.graph) :
    (s.clocks.lookup e.src).isSome ∧ (s.clocks.lookup e.target).isSome := by
  have hknown : ∀ c, s.series c e.hash ≠ [] → (s.clocks.lookup c).isSome := by
    intro c hne
    by_contra hnone
    rw [Option.not_isSome_iff_eq_none] at hnone
    unfold series domain at hne
    rw [hnone] at hne
    exact hne rfl
  obtain ⟨hsrc, htarget⟩ := h.series_ne_nil he
  exact ⟨hknown _ hsrc, hknown _ htarget⟩

/-- All the clocks of the graph are known. -/
def Known (s : ClockSynchronizer) : Prop :=
  ∀ e ∈ s.graph, (s.clocks.lookup e.src).isSome ∧ (s.clocks.lookup e.target).isSome

theorem layer_zero (graph : List ClockGraphEdge) (src : ClockId) : Layer graph src 0 [⟨src, []⟩] := by
  rintro ⟨last, path⟩
  rw [List.mem_singleton]
  constructor
  · intro heq
    obtain ⟨rfl, rfl⟩ := ClockPath.mk.inj heq
    exact ⟨rfl, rfl⟩
  · rintro ⟨hpath, hlen⟩
    obtain rfl : path = [] := List.eq_nil_of_length_eq_zero hlen
    rw [show src = last from hpath]

/-- Both ends of a path are known. -/
theorem Known.of_isPath (h : s.Known) (hne : src ≠ target) {es : List ClockGraphEdge}
    (hes : IsPath s.graph src es target) : (s.clocks.lookup src).isSome ∧ (s.clocks.lookup target).isSome := by
  constructor
  · rcases es with _ | ⟨e, es⟩
    · exact absurd hes hne
    · obtain ⟨hmem, rfl, -⟩ := hes
      exact (h e hmem).1
  · rcases List.eq_nil_or_concat es with rfl | ⟨es, e, rfl⟩
    · exact absurd hes hne
    · rw [List.concat_eq_append] at hes
      obtain ⟨-, hmem, rfl⟩ := isPath_concat.mp hes
      exact (h e hmem).2

/-- The search from a clock that is not the target finds a shortest path of at most `kMaxLen` edges, if there is one. -/
theorem findPathFrom_src (hne : src ≠ target) :
    match findPathFrom graph target kMaxLen [⟨src, []⟩] with
    | some p => p.last = target ∧ IsPath graph src p.path target ∧ p.path.length ≤ kMaxLen ∧
        ∀ es, IsPath graph src es target → p.path.length ≤ es.length
    | none => ∀ es, IsPath graph src es target → kMaxLen < es.length := by
  have hpassed : ∀ es, IsPath graph src es target → 0 < es.length := by
    intro es hes
    rcases es with _ | ⟨e, es⟩
    · exact absurd hes hne
    · exact Nat.succ_pos _
  have hspec := findPathFrom_spec (n := kMaxLen) (layer_zero graph src) hpassed
  rwa [Nat.zero_add] at hspec

/-- Which clocks are known makes no difference beyond the graph. -/
theorem Known.findPath_eq (h : s.Known) (hne : src ≠ target) :
    s.findPath src target = findPathFrom s.graph target kMaxLen [⟨src, []⟩] := by
  unfold findPath
  split_ifs with hunknown
  · cases hfound : findPathFrom s.graph target kMaxLen [⟨src, []⟩] with
    | none => rfl
    | some p =>
      -- A path would make both clocks known.
      exfalso
      have hspec := @findPathFrom_src _ _ s.graph hne
      rw [hfound] at hspec
      obtain ⟨hsrc, htarget⟩ := h.of_isPath hne hspec.2.1
      rw [Option.isNone_iff_eq_none, Option.isNone_iff_eq_none] at hunknown
      rcases hunknown with hnone | hnone
      · rw [hnone] at htarget
        exact absurd htarget (by simp)
      · rw [hnone] at hsrc
        exact absurd hsrc (by simp)
  · rfl

/-- `FindPath` returns a contiguous path, no path is shorter, and it returns one if there is one of at most `kMaxLen`
edges. -/
theorem Known.findPath_spec (h : s.Known) (hne : src ≠ target) :
    match s.findPath src target with
    | some p => p.last = target ∧ IsPath s.graph src p.path target ∧ p.path.length ≤ kMaxLen ∧
        ∀ es, IsPath s.graph src es target → p.path.length ≤ es.length
    | none => ∀ es, IsPath s.graph src es target → kMaxLen < es.length := by
  rw [h.findPath_eq hne]
  exact findPathFrom_src hne

/-! ### The discipline of the graph -/

/-- A hop that uses the latest snapshot not after a timestamp, or the first, and finds it in the next clock. -/
def HopFinds (cur next : List Snapshot) (ns : ℤ) : Prop :=
  ∃ it nextIt, cur[closest cur ns]? = some it ∧ sameSnapshot next it.snapshotId = some nextIt ∧
    nextIt ∈ next ∧ nextIt.snapshotId = it.snapshotId ∧ (closest cur ns = 0 ∨ it.timestampNs ≤ ns) ∧
      ∀ j a, cur[j]? = some a → closest cur ns < j → ns < a.timestampNs

/-- What holds of the graph and the time series between two calls. -/
structure Discipline (s : ClockSynchronizer) : Prop where
  sources : ∀ e ∈ s.graph, e.src ∉ s.nonMonotonicClocks
  timestamps : ∀ e ∈ s.graph, (s.series e.src e.hash).Pairwise fun a b => a.timestampNs ≤ b.timestampNs
  ids : ∀ e ∈ s.graph, (s.series e.src e.hash).Pairwise fun a b => a.snapshotId < b.snapshotId
  ends : ∀ e ∈ s.graph, ∀ c, ∀ id ∈ s.idsOf c e.hash, id ∈ s.idsOf e.src e.hash ∧ id ∈ s.idsOf e.target e.hash
  hops : ∀ src target p, s.findPath src target = some p → ∀ e ∈ p.path, ∀ ns,
    HopFinds (s.series e.src e.hash) (s.series e.target e.hash) ns
  paths : ∀ src target, src ≠ target →
    match s.findPath src target with
    | some p => p.last = target ∧ IsPath s.graph src p.path target ∧ p.path.length ≤ kMaxLen ∧
        ∀ es, IsPath s.graph src es target → p.path.length ≤ es.length
    | none => ∀ es, IsPath s.graph src es target → kMaxLen < es.length

/-- An id among the ascending ids of the next clock is found. -/
theorem sameSnapshot_of_mem {next : List Snapshot} (hids : (next.map (·.snapshotId)).Pairwise (· < ·)) {id : ℕ}
    (hid : id ∈ next.map (·.snapshotId)) :
    ∃ nextIt, sameSnapshot next id = some nextIt ∧ nextIt ∈ next ∧ nextIt.snapshotId = id := by
  induction next with
  | nil => exact absurd hid (List.not_mem_nil)
  | cons a next ih =>
    rw [List.map_cons, List.pairwise_cons] at hids
    rw [List.map_cons, List.mem_cons] at hid
    unfold sameSnapshot at ih ⊢
    by_cases ha : id = a.snapshotId
    · refine ⟨a, ?_, List.mem_cons_self, ha.symm⟩
      rw [List.find?_cons_of_pos (by simp [ha])]
      simp [ha]
    · have hmem := hid.resolve_left ha
      have hlt := hids.1 id hmem
      obtain ⟨nextIt, hsame, hmem', hid'⟩ := ih hids.2 hmem
      refine ⟨nextIt, ?_, List.mem_cons_of_mem _ hmem', hid'⟩
      rwa [List.find?_cons_of_neg (by simpa using hlt)]

/-- Which snapshot a hop uses in an ascending time series. -/
theorem closest_spec {cur : List Snapshot} (hsorted : cur.Pairwise fun a b => a.timestampNs ≤ b.timestampNs)
    (hne : cur ≠ []) (ns : ℤ) : ∃ it, cur[closest cur ns]? = some it ∧ (closest cur ns = 0 ∨ it.timestampNs ≤ ns) ∧
      ∀ j a, cur[j]? = some a → closest cur ns < j → ns < a.timestampNs := by
  have hlen := upperBound_le_length (cur.map (·.timestampNs)) ns
  rw [List.length_map] at hlen
  have hpos := List.length_pos_iff.mpr hne
  have hlt : closest cur ns < cur.length := by
    unfold closest
    omega
  have hit : cur[closest cur ns]? = some cur[closest cur ns] := List.getElem?_eq_getElem hlt
  refine ⟨cur[closest cur ns], hit, ?_, fun j a ha hj => ?_⟩
  · by_cases h0 : closest cur ns = 0
    · exact .inl h0
    · exact .inr (closest_before hit h0)
  · obtain ⟨hjlt, rfl⟩ := List.getElem?_eq_some_iff.mp ha
    -- The first timestamp after `ns` is at the upper bound, and the ones after it are no smaller.
    have hub : upperBound (cur.map (·.timestampNs)) ns ≤ j := by
      unfold closest at hj
      omega
    have hat : upperBound (cur.map (·.timestampNs)) ns < (cur.map (·.timestampNs)).length := by
      rw [List.length_map]
      omega
    have hfirst := upperBound_at hat
    rw [List.getElem_map] at hfirst
    rcases Nat.lt_or_eq_of_le hub with hlt' | heq
    · exact hfirst.trans_le (List.pairwise_iff_getElem.mp hsorted _ _ _ hjlt hlt')
    · simpa only [heq] using hfirst

/-- The discipline of the graph in every run of successful snapshots, with conversions in between, whose snapshots are
told apart by their hashes. -/
theorem discipline_of_run {cacheLookupsDisabled : Bool} {calls : List Call} {s : ClockSynchronizer}
    (hrun : run cacheLookupsDisabled calls {} = some s) (hapart : HashesApart (snapshotsOf calls)) : s.Discipline := by
  obtain ⟨hrec, hmono⟩ := records_nil.run monotone_empty hrun
  rw [List.nil_append] at hrec
  have hend : ∀ e ∈ s.graph, s.idsOf e.src e.hash = hashIds (snapshotsOf calls) e.hash ∧
      s.idsOf e.target e.hash = hashIds (snapshotsOf calls) e.hash := by
    intro e he
    obtain ⟨cs, hcs, hhash, hsrc, htarget⟩ := hrec.edges e he
    rw [hrec.ids, hrec.ids, ← hhash]
    exact ⟨hapart.snapshotIds_eq hcs hsrc, hapart.snapshotIds_eq hcs htarget⟩
  have hids : ∀ e ∈ s.graph, (s.idsOf e.src e.hash).Pairwise (· < ·) := by
    intro e he
    rw [(hend e he).1]
    exact hapart.ascending e.hash
  have hasc : ∀ e ∈ s.graph, (s.series e.src e.hash).Pairwise fun a b => a.timestampNs ≤ b.timestampNs :=
    fun e he => hmono.series e.src (hmono.edges e he) e.hash
  refine ⟨hmono.edges, hasc, fun e he => List.pairwise_map.mp (hids e he), fun e he c id hid => ?_, ?_,
    fun src target hne => Known.findPath_spec (fun _ he => hrec.known he) hne⟩
  · rw [(hend e he).1, (hend e he).2]
    rw [hrec.ids] at hid
    exact ⟨mem_hashIds_of_mem hid, mem_hashIds_of_mem hid⟩
  · intro src target p hp e hep ns
    have he := mem_of_findPath hp e hep
    obtain ⟨hsrc, htarget⟩ := hend e he
    obtain ⟨it, hit, hbefore, hafter⟩ := closest_spec (hasc e he) (hrec.series_ne_nil he).1 ns
    have hid : it.snapshotId ∈ s.idsOf e.target e.hash := by
      rw [htarget, ← hsrc]
      exact List.mem_map_of_mem (List.mem_of_getElem? hit)
    obtain ⟨nextIt, hsame, hmem, hid'⟩ := sameSnapshot_of_mem
      (show (s.idsOf e.target e.hash).Pairwise (· < ·) by rw [htarget, ← hsrc]; exact hids e he) hid
    exact ⟨it, nextIt, hit, hsame, hmem, hid', hbefore, hafter⟩

/-- A clock that goes backwards between two snapshots, and a conversion over two hops. -/
theorem discipline_of_run_backwards :
    let calls : List Call :=
      [.addSnapshot ⟨6, 0, 0⟩ [⟨⟨6, 0, 0⟩, 1000, 1, false⟩, ⟨⟨1, 0, 0⟩, 5000, 1, false⟩],
       .addSnapshot ⟨6, 0, 0⟩ [⟨⟨3, 0, 0⟩, 30, 1, false⟩, ⟨⟨6, 0, 0⟩, 1500, 1, false⟩],
       .convert ⟨3, 0, 0⟩ 40 ⟨1, 0, 0⟩ 2,
       .addSnapshot ⟨6, 0, 0⟩ [⟨⟨6, 0, 0⟩, 2000, 1, false⟩, ⟨⟨1, 0, 0⟩, 4000, 1, false⟩]]
    ∃ s, run false calls {} = some s ∧ s.Discipline := by
  intro calls
  obtain ⟨s, hs⟩ : ∃ s, run false calls {} = some s := Option.isSome_iff_exists.mp (by decide +kernel)
  exact ⟨s, hs, discipline_of_run hs (by decide +kernel)⟩

/-- Snapshots of different clocks with one hash: the second clock of the first lacks the second snapshot. -/
theorem not_discipline : ∃ calls s, run false calls {} = some s ∧ ¬ s.Discipline := by
  let calls : List Call :=
    [.addSnapshot ⟨6, 0, 0⟩ [⟨⟨6, 0, 0⟩, 1000, 1, false⟩, ⟨⟨64, 520, 0⟩, 5, 1, false⟩],
     .addSnapshot ⟨6, 0, 0⟩ [⟨⟨6, 0, 0⟩, 2000, 1, false⟩, ⟨⟨91, 1035, 0⟩, 7, 1, false⟩]]
  let hash := snapshotHash [⟨⟨6, 0, 0⟩, 1000, 1, false⟩, ⟨⟨64, 520, 0⟩, 5, 1, false⟩]
  have hfacts : (run false calls {}).any (fun s => (⟨⟨6, 0, 0⟩, ⟨64, 520, 0⟩, hash⟩ : ClockGraphEdge) ∈ s.graph ∧
      1 ∈ s.idsOf ⟨6, 0, 0⟩ hash ∧ 1 ∉ s.idsOf ⟨64, 520, 0⟩ hash) := by
    decide +kernel
  obtain ⟨s, hs, hfact⟩ := (Option.any_eq_true _ _).mp hfacts
  obtain ⟨hedge, hin, hout⟩ := of_decide_eq_true hfact
  exact ⟨calls, s, hs, fun h => hout (h.ends _ hedge _ _ hin).2⟩

end ClockSynchronizer

end LynxTrace.ClockSync
