import LynxTrace.TraceProcessor.ClockGraph

/-!
# TraceProcessor.ClockErrors — `AddSnapshot` with the state it leaves when it fails

`AddSnapshot` checks one clock after the other and stores each before it checks the next.  `tryAddSnapshot` keeps what
has been stored when it returns an error; where it succeeds it is `addSnapshot` (`addSnapshot_eq`).
-/

namespace LynxTrace.ClockSync

/-- How `AddSnapshot` ends: with a snapshot id, with an error status, or in a failing CHECK. -/
inductive Added
  | ok (s : ClockSynchronizer)
  | error (s : ClockSynchronizer)
  | crash

def Added.ok? : Added → Option ClockSynchronizer
  | ok s => some s
  | _ => none

/-- The state after `AddSnapshot` returns. -/
def Added.state? : Added → Option ClockSynchronizer
  | ok s => some s
  | error s => some s
  | crash => none

/-- An error status. -/
def Added.isError : Added → Bool
  | error _ => true
  | _ => false

theorem Added.exists_of_isError {a : Added} (h : a.isError) : ∃ s, a = .error s := by
  cases a with
  | error s => exact ⟨s, rfl⟩
  | ok s | crash => exact absurd h (by simp [isError])

namespace ClockSynchronizer

/-- The state with the domain of a clock replaced. -/
def setDomain (s : ClockSynchronizer) (c : ClockId) (d : ClockDomain) : ClockSynchronizer :=
  { s with clocks := s.clocks.insert c d }

/-- One turn of the loop over the clocks of a snapshot. -/
def tryAddClock (traceTimeClock : ClockId) (snapshotId hash : ℕ) (s : ClockSynchronizer) (c : ClockTimestamp) : Added :=
  let d := s.domain c.clock
  let fresh := d.snapshots.entries.isEmpty
  if fresh ∧ c.isIncremental ∧ !c.clock.isConvertedSequenceClock then .error (s.setDomain c.clock d)
  else if !fresh ∧ (d.unitMultiplierNs ≠ c.unitMultiplierNs ∨ d.isIncremental ≠ c.isIncremental) then
    .error (s.setDomain c.clock d)
  else
    let d := { d with unitMultiplierNs := c.unitMultiplierNs, isIncremental := c.isIncremental }
    if c.clock = traceTimeClock ∧ c.unitMultiplierNs ≠ 1 then .error (s.setDomain c.clock d)
    else
      let timestampNs := c.timestamp * c.unitMultiplierNs
      let d := { d with lastTimestampNs := timestampNs }
      let vect := (d.snapshots.lookup hash).getD []
      if vect.getLast?.any (·.snapshotId = snapshotId) then .error (s.setDomain c.clock d)
      else
        let backwards := vect.getLast?.any (timestampNs < ·.timestampNs)
        if backwards ∧ c.clock = traceTimeClock then .error (s.setDomain c.clock d)
        else if backwards ∧ c.clock.traceFileId ≥ 2 ^ 32 - 1 then .crash
        else
          let d := { d with snapshots := d.snapshots.insert hash (vect ++ [⟨snapshotId, timestampNs⟩]) }
          .ok { s with
            clocks := s.clocks.insert c.clock d
            nonMonotonicClocks := if backwards then c.clock :: s.nonMonotonicClocks else s.nonMonotonicClocks
            graph := if backwards then s.graph.filter (·.src ≠ c.clock) else s.graph }

def tryAddClocks (traceTimeClock : ClockId) (snapshotId hash : ℕ) : List ClockTimestamp → ClockSynchronizer → Added
  | [], s => .ok s
  | c :: cs, s =>
    match s.tryAddClock traceTimeClock snapshotId hash c with
    | .ok s => tryAddClocks traceTimeClock snapshotId hash cs s
    | .error s => .error s
    | .crash => .crash

/-- The start of `AddSnapshot`: the next snapshot id, and an empty cache. -/
def begin (s : ClockSynchronizer) : ClockSynchronizer :=
  { s with
    curSnapshotId := (s.curSnapshotId + 1) % 2 ^ 32
    cache := List.replicate 8 {} }

/-- `AddSnapshot`. -/
def tryAddSnapshot (traceTimeClock : ClockId) (s : ClockSynchronizer) (cs : List ClockTimestamp) : Added :=
  let hash := snapshotHash cs
  match tryAddClocks traceTimeClock s.curSnapshotId hash cs s.begin with
  | .ok s => .ok (addAllEdges hash cs s)
  | .error s => .error s
  | .crash => .crash

theorem addClock_eq (traceTimeClock : ClockId) (snapshotId hash : ℕ) (s : ClockSynchronizer) (c : ClockTimestamp) :
    s.addClock traceTimeClock snapshotId hash c = (s.tryAddClock traceTimeClock snapshotId hash c).ok? := by
  unfold addClock tryAddClock
  simp only [apply_ite Added.ok?, and_or_left, ite_or]
  rfl

theorem addClocks_eq (traceTimeClock : ClockId) (snapshotId hash : ℕ) (cs : List ClockTimestamp) (s : ClockSynchronizer) :
    addClocks traceTimeClock snapshotId hash cs s = (tryAddClocks traceTimeClock snapshotId hash cs s).ok? := by
  induction cs generalizing s with
  | nil => rfl
  | cons c cs ih =>
    unfold addClocks tryAddClocks
    rw [addClock_eq]
    cases s.tryAddClock traceTimeClock snapshotId hash c with
    | ok s₁ => exact ih s₁
    | error s₁ => rfl
    | crash => rfl

/-- Where `AddSnapshot` succeeds. -/
theorem addSnapshot_eq (traceTimeClock : ClockId) (s : ClockSynchronizer) (cs : List ClockTimestamp) :
    s.addSnapshot traceTimeClock cs = (s.tryAddSnapshot traceTimeClock cs).ok? := by
  unfold addSnapshot tryAddSnapshot
  dsimp only
  rw [addClocks_eq]
  show ((tryAddClocks traceTimeClock s.curSnapshotId (snapshotHash cs) cs s.begin).ok?.map _) = _
  cases tryAddClocks traceTimeClock s.curSnapshotId (snapshotHash cs) cs s.begin <;> rfl

/-! ### Calls -/

/-- A call of a client, with what it returns of conversions; `none` is a failing CHECK. -/
def call (cacheLookupsDisabled : Bool) (s : ClockSynchronizer) : Call → Option (List (Option ℤ) × ClockSynchronizer)
  | .addSnapshot traceTimeClock cs => (s.tryAddSnapshot traceTimeClock cs).state?.map ([], ·)
  | .convert src srcTimestamp target slot =>
    let r := s.convert cacheLookupsDisabled src srcTimestamp target slot
    some ([r.1], r.2)

/-- The results of the conversions of some calls, and the state they leave. -/
def session (cacheLookupsDisabled : Bool) :
    List Call → ClockSynchronizer → Option (List (Option ℤ) × ClockSynchronizer)
  | [], s => some ([], s)
  | c :: calls, s =>
    (s.call cacheLookupsDisabled c).bind fun r =>
      (session cacheLookupsDisabled calls r.2).map fun r' => (r.1 ++ r'.1, r'.2)

/-- A property of the hops of a conversion. -/
def callHops (P : List Snapshot → List Snapshot → Walk → Bool) (s : ClockSynchronizer) : Call → Bool
  | .addSnapshot _ _ => true
  | .convert src srcTimestamp target _ =>
    src = target || (s.findPath src target).all fun p => everyHop P s.series p.path { ns := (s.toNs src srcTimestamp).1 }

/-- A property of the hops of every conversion of some calls. -/
def sessionHops (P : List Snapshot → List Snapshot → Walk → Bool) : List Call → ClockSynchronizer → Bool
  | [], _ => true
  | c :: calls, s => s.callHops P c && (s.call false c).all fun r => sessionHops P calls r.2

/-- The first clock of a snapshot is refused before anything of the snapshot has been stored: a global clock with
incremental encoding, other properties than before, a trace clock that is not in nanoseconds, or, for a clock that is not
incremental, a trace clock that goes backwards or a snapshot id that comes round again. -/
def refusesFirst (traceTimeClock : ClockId) (s : ClockSynchronizer) (hash : ℕ) (c : ClockTimestamp) : Bool :=
  let d := s.domain c.clock
  let fresh := d.snapshots.entries.isEmpty
  let last := ((d.snapshots.lookup hash).getD []).getLast?
  (fresh ∧ c.isIncremental ∧ !c.clock.isConvertedSequenceClock) ∨
    (!fresh ∧ (d.unitMultiplierNs ≠ c.unitMultiplierNs ∨ d.isIncremental ≠ c.isIncremental)) ∨
    (c.clock = traceTimeClock ∧ c.unitMultiplierNs ≠ 1) ∨
    (!c.isIncremental ∧ (last.any (·.snapshotId = s.curSnapshotId) ∨
      (c.clock = traceTimeClock ∧ last.any (c.timestamp * c.unitMultiplierNs < ·.timestampNs))))

/-- A snapshot whose first clock is refused. -/
def refused (traceTimeClock : ClockId) (s : ClockSynchronizer) : List ClockTimestamp → Bool
  | [] => false
  | c :: cs => s.refusesFirst traceTimeClock (snapshotHash (c :: cs)) c

end ClockSynchronizer

end LynxTrace.ClockSync
