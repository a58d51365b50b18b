import LynxTrace.Base.MurmurHash
import LynxTrace.Base.SortedSearch
import Mathlib.Data.List.AList

/-!
# TraceProcessor.ClockSynchronizer — `ClockSynchronizer` (src/trace_processor/util/clock_synchronizer.{h,cc})

* `addSnapshot` — the time series of the clocks and the graph of clock pairs.
* `findPath` — the shortest path between two clocks.
* `convertSlowpath` — the walk along a path, and the entry it leaves in the cache.
* `convert` — the lookup in the cache, or the slow path.

`int64_t` values are integers; an addition that overflows has no meaning in the source, and none is given to it here.
-/

namespace LynxTrace.ClockSync

def kInt64Min : ℤ := -2 ^ 63

def kInt64Max : ℤ := 2 ^ 63 - 1

structure ClockId where
  clockId : ℕ := 0
  seqId : ℕ := 0
  traceFileId : ℕ := 0
  deriving DecidableEq, Repr

/-- The order of `std::tie(clock_id, seq_id, trace_file_id)`. -/
def ClockId.lt (a b : ClockId) : Bool :=
  a.clockId < b.clockId ∨ (a.clockId = b.clockId ∧
    (a.seqId < b.seqId ∨ (a.seqId = b.seqId ∧ a.traceFileId < b.traceFileId)))

structure ClockTimestamp where
  clock : ClockId
  timestamp : ℤ
  unitMultiplierNs : ℤ := 1
  isIncremental : Bool := false
  deriving DecidableEq, Repr

/-- One entry of the two vectors of `ClockSnapshots`. -/
structure Snapshot where
  snapshotId : ℕ
  timestampNs : ℤ
  deriving DecidableEq, Repr

structure ClockDomain where
  /-- One time-series for each hash. -/
  snapshots : AList (fun _ : ℕ => List Snapshot) := ∅
  unitMultiplierNs : ℤ := 1
  isIncremental : Bool := false
  lastTimestampNs : ℤ := 0

/-- `ClockGraphEdge`: source clock, target clock, snapshot hash. -/
structure ClockGraphEdge where
  src : ClockId
  target : ClockId
  hash : ℕ
  deriving DecidableEq, Repr

def ClockGraphEdge.lt (a b : ClockGraphEdge) : Bool :=
  a.src.lt b.src ∨ (a.src = b.src ∧ (a.target.lt b.target ∨ (a.target = b.target ∧ a.hash < b.hash)))

/-- `graph_.emplace`, on the edges in ascending order. -/
def emplace (e : ClockGraphEdge) : List ClockGraphEdge → List ClockGraphEdge
  | [] => [e]
  | e' :: graph => if e.lt e' then e :: e' :: graph else if e = e' then e' :: graph else e' :: emplace e graph

structure CachedClockPath where
  src : ClockId := {}
  target : ClockId := {}
  minTsNs : ℤ := 0
  maxTsNs : ℤ := 0
  translationNs : ℤ := 0
  deriving DecidableEq, Repr

structure ClockSynchronizer where
  clocks : AList (fun _ : ClockId => ClockDomain) := ∅
  graph : List ClockGraphEdge := []
  nonMonotonicClocks : List ClockId := []
  cache : List CachedClockPath := List.replicate 8 {}
  curSnapshotId : ℕ := 0

/-- `ToNs`: the timestamp in nanoseconds, and the domain with its last timestamp. -/
def ClockDomain.toNs (d : ClockDomain) (timestamp : ℤ) : ℤ × ClockDomain :=
  if d.isIncremental then
    let ns := d.lastTimestampNs + timestamp * d.unitMultiplierNs
    (ns, { d with lastTimestampNs := ns })
  else (timestamp * d.unitMultiplierNs, d)

/-- `IsConvertedSequenceClock`. -/
def ClockId.isConvertedSequenceClock (c : ClockId) : Bool := c.seqId ≠ 0

/-! ### Snapshots -/

/-- The hash of the clock ids of a snapshot, in their order. -/
def snapshotHash (cs : List ClockTimestamp) : ℕ :=
  MurmurHashCombiner.digest (cs.flatMap fun c => [c.clock.clockId, c.clock.seqId, c.clock.traceFileId]) % 2 ^ 32

namespace ClockSynchronizer

/-- The domain of a clock, created when it is first seen. -/
def domain (s : ClockSynchronizer) (c : ClockId) : ClockDomain := (s.clocks.lookup c).getD {}

/-- One turn of the loop over the clocks of a snapshot; `none` is an error status. -/
def addClock (traceTimeClock : ClockId) (snapshotId hash : ℕ) (s : ClockSynchronizer) (c : ClockTimestamp) :
    Option ClockSynchronizer :=
  let d := s.domain c.clock
  let fresh := d.snapshots.entries.isEmpty
  if fresh ∧ c.isIncremental ∧ !c.clock.isConvertedSequenceClock then none
  else if !fresh ∧ (d.unitMultiplierNs ≠ c.unitMultiplierNs ∨ d.isIncremental ≠ c.isIncremental) then none
  else if c.clock = traceTimeClock ∧ c.unitMultiplierNs ≠ 1 then none
  else
    let timestampNs := c.timestamp * c.unitMultiplierNs
    let vect := (d.snapshots.lookup hash).getD []
    if vect.getLast?.any (·.snapshotId = snapshotId) then none
    else
      let backwards := vect.getLast?.any (timestampNs < ·.timestampNs)
      if backwards ∧ (c.clock = traceTimeClock ∨ c.clock.traceFileId ≥ 2 ^ 32 - 1) then none
      else
        let d : ClockDomain :=
          { snapshots := d.snapshots.insert hash (vect ++ [⟨snapshotId, timestampNs⟩])
            unitMultiplierNs := c.unitMultiplierNs
            isIncremental := c.isIncremental
            lastTimestampNs := timestampNs }
        some { s with
          clocks := s.clocks.insert c.clock d
          -- A clock that went backwards is no source any more: its outgoing edges go.
          nonMonotonicClocks := if backwards then c.clock :: s.nonMonotonicClocks else s.nonMonotonicClocks
          graph := if backwards then s.graph.filter (·.src ≠ c.clock) else s.graph }

def addClocks (traceTimeClock : ClockId) (snapshotId hash : ℕ) :
    List ClockTimestamp → ClockSynchronizer → Option ClockSynchronizer
  | [], s => some s
  | c :: cs, s => (s.addClock traceTimeClock snapshotId hash c).bind (addClocks traceTimeClock snapshotId hash cs)

/-- The two edges between a pair of clocks of a snapshot. -/
def addEdges (hash : ℕ) (a b : ClockId) (s : ClockSynchronizer) : ClockSynchronizer :=
  let s := if a ∈ s.nonMonotonicClocks then s else { s with graph := emplace ⟨a, b, hash⟩ s.graph }
  if b ∈ s.nonMonotonicClocks then s else { s with graph := emplace ⟨b, a, hash⟩ s.graph }

/-- The edges between all pairs of clocks of a snapshot. -/
def addAllEdges (hash : ℕ) : List ClockTimestamp → ClockSynchronizer → ClockSynchronizer
  | [], s => s
  | c :: cs, s => addAllEdges hash cs (cs.foldl (fun s c' => s.addEdges hash c.clock c'.clock) s)

/-- `AddSnapshot`; `none` is an error status. -/
def addSnapshot (traceTimeClock : ClockId) (s : ClockSynchronizer) (cs : List ClockTimestamp) :
    Option ClockSynchronizer :=
  let snapshotId := s.curSnapshotId
  let hash := snapshotHash cs
  (addClocks traceTimeClock snapshotId hash cs { s with
    curSnapshotId := (s.curSnapshotId + 1) % 2 ^ 32
    cache := List.replicate 8 {} }).map (addAllEdges hash cs)

/-! ### Paths -/

/-- `ClockPath`: the edges from the source, and the clock they lead to. -/
structure ClockPath where
  last : ClockId
  path : List ClockGraphEdge := []
  deriving DecidableEq, Repr

def kMaxLen : ℕ := 4

/-- The paths the search explores from a path, in the order of the edges. -/
def expand (graph : List ClockGraphEdge) (p : ClockPath) : List ClockPath :=
  (graph.filter (·.src = p.last)).map fun e => ⟨e.target, p.path ++ [e]⟩

/-- The breadth-first search, with the paths of one length in the queue at a time and `n` more lengths to go. -/
def findPathFrom (graph : List ClockGraphEdge) (target : ClockId) : ℕ → List ClockPath → Option ClockPath
  | 0, _ => none
  | n + 1, queue =>
    let next := queue.flatMap (expand graph)
    match next.find? (·.last = target) with
    | some p => some p
    | none => findPathFrom graph target n next

/-- `FindPath`; `none` is the invalid path. -/
def findPath (s : ClockSynchronizer) (src target : ClockId) : Option ClockPath :=
  if (s.clocks.lookup target).isNone ∨ (s.clocks.lookup src).isNone then none
  else findPathFrom s.graph target kMaxLen [⟨src, []⟩]

/-! ### Conversion -/

/-- The time series of a clock for a hash. -/
def series (s : ClockSynchronizer) (c : ClockId) (hash : ℕ) : List Snapshot :=
  ((s.domain c).snapshots.lookup hash).getD []

end ClockSynchronizer

/-- The variables of the loop over a path. -/
structure Walk where
  ns : ℤ
  totalTranslationNs : ℤ := 0
  pathMinTsNs : ℤ := kInt64Min
  pathMaxTsNs : ℤ := kInt64Max
  deriving DecidableEq, Repr

/-- The index of the snapshot a timestamp is converted with: the last one not after it, or the first. -/
def closest (cur : List Snapshot) (ns : ℤ) : ℕ := upperBound (cur.map (·.timestampNs)) ns - 1

/-- The entry with the id of a snapshot in the next clock. -/
def sameSnapshot (next : List Snapshot) (snapshotId : ℕ) : Option Snapshot :=
  (next.find? (snapshotId ≤ ·.snapshotId)).filter (·.snapshotId = snapshotId)

/-- One hop, from the series of a clock to the series of the next. -/
def hop (cur next : List Snapshot) (w : Walk) : Walk :=
  let index := closest cur w.ns
  match cur[index]? with
  | none => w
  | some it =>
    match sameSnapshot next it.snapshotId with
    | none => w
    | some nextIt =>
      let hopTranslationNs := nextIt.timestampNs - it.timestampNs
      let hopMinTsNs := if index = 0 then kInt64Min else it.timestampNs
      let hopMaxTsNs := match cur[index + 1]? with
        | none => kInt64Max
        | some ubound => ubound.timestampNs
      let hopMinInSrcDomainNs := if hopMinTsNs = kInt64Min then kInt64Min else hopMinTsNs - w.totalTranslationNs
      let hopMaxInSrcDomainNs := if hopMaxTsNs = kInt64Max then kInt64Max else hopMaxTsNs - w.totalTranslationNs
      { ns := w.ns + hopTranslationNs
        totalTranslationNs := w.totalTranslationNs + hopTranslationNs
        pathMinTsNs := max w.pathMinTsNs hopMinInSrcDomainNs
        pathMaxTsNs := min w.pathMaxTsNs hopMaxInSrcDomainNs }

/-- The hops along some edges. -/
def walk (series : ClockId → ℕ → List Snapshot) (edges : List ClockGraphEdge) (w : Walk) : Walk :=
  edges.foldl (fun w e => hop (series e.src e.hash) (series e.target e.hash) w) w

namespace ClockSynchronizer

/-- `ToNs` on the domain of a clock. -/
def toNs (s : ClockSynchronizer) (src : ClockId) (timestamp : ℤ) : ℤ × ClockSynchronizer :=
  let r := (s.domain src).toNs timestamp
  (r.1, { s with clocks := s.clocks.insert src r.2 })

/-- `ConvertSlowpath`; `slot` is where the pseudo-random generator has the result cached. -/
def convertSlowpath (s : ClockSynchronizer) (src : ClockId) (srcTimestamp : ℤ) (srcTsNs : Option ℤ) (target : ClockId)
    (slot : ℕ) : Option ℤ × ClockSynchronizer :=
  match s.findPath src target with
  | none => (none, s)
  | some path =>
    let (ns, s) := match srcTsNs with
      | some ns => (ns, s)
      | none => s.toNs src srcTimestamp
    let w := walk s.series path.path { ns }
    (some w.ns, { s with
      cache := s.cache.set (slot % 8) ⟨src, target, w.pathMinTsNs, w.pathMaxTsNs, w.totalTranslationNs⟩ })

/-- `Convert`. -/
def convert (cacheLookupsDisabled : Bool) (s : ClockSynchronizer) (src : ClockId) (srcTimestamp : ℤ) (target : ClockId)
    (slot : ℕ) : Option ℤ × ClockSynchronizer :=
  if src = target then (some srcTimestamp, s)
  else
    match if cacheLookupsDisabled then [] else s.cache.filter fun e => e.src = src ∧ e.target = target with
    | [] => s.convertSlowpath src srcTimestamp none target slot
    | e :: es =>
      let (ns, s) := s.toNs src srcTimestamp
      match (e :: es).find? fun e => e.minTsNs ≤ ns ∧ ns < e.maxTsNs with
      | some e => (some (ns + e.translationNs), s)
      | none => s.convertSlowpath src srcTimestamp (some ns) target slot

/-! ### Runs -/

/-- A call of a client. -/
inductive Call
  | addSnapshot (traceTimeClock : ClockId) (cs : List ClockTimestamp)
  | convert (src : ClockId) (srcTimestamp : ℤ) (target : ClockId) (slot : ℕ)

/-- The results of the conversions of some calls, all snapshots of which are added successfully. -/
def results (cacheLookupsDisabled : Bool) : List Call → ClockSynchronizer → Option (List (Option ℤ))
  | [], _ => some []
  | .addSnapshot traceTimeClock cs :: calls, s =>
    (s.addSnapshot traceTimeClock cs).bind (results cacheLookupsDisabled calls)
  | .convert src srcTimestamp target slot :: calls, s =>
    let r := s.convert cacheLookupsDisabled src srcTimestamp target slot
    (results cacheLookupsDisabled calls r.2).map (r.1 :: ·)

end ClockSynchronizer

end LynxTrace.ClockSync
