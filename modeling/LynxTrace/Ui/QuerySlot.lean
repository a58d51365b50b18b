import LynxTrace.Base.EventRuns
import Mathlib.Logic.Function.Basic

/-!
# Ui.QuerySlot — `SerialTaskQueue` and `QuerySlot` (ui/src/base/query_slot.ts)

The slots of one queue.  An async function runs on its own from one `await` to the next; between these any slot may be
used or disposed of.  An `AsyncDisposable` is known by a number, its identity.
-/

namespace LynxTrace.Ui

/-- What is asked of keys: `stringifyJsonWithBigints(key)`, `Object.keys(key)`, `field in key` and
`stringifyJsonWithBigints(key[field])`. -/
structure KeyOps (K : Type*) where
  stringify : K → String
  fields : K → List String
  hasField : K → String → Bool
  fieldStr : K → String → Option String

/-- What a query returns; `isAsyncDisposable` tells the two kinds apart. -/
inductive Data (V : Type*)
  | plain (value : V)
  | disposable (resource : ℕ)
  deriving DecidableEq

/-- What is thrown. -/
inductive Thrown (X : Type*)
  | queryCancelled
  | error (e : X)
  deriving DecidableEq

/-- How the promise of a `queryFn` settles. -/
inductive Outcome (V X : Type*)
  | resolved (data : Data V)
  | queryCancelled
  | rejected (thrown : Thrown X)

structure CacheEntry (K V : Type*) where
  key : K
  keyStr : String
  data : Data V

structure QuerySlot (K V X : Type*) where
  cache : Option (CacheEntry K V)
  pendingKey : Option K
  disposed : Bool
  currentSignal : Option ℕ
  error : Option (String × X)

/-- The task that `use` schedules, with what it captures, and the one of `dispose`. -/
inductive Task (I K F : Type*)
  | query (slot : I) (key : K) (queryFn : F) (signal : ℕ)
  | dispose (slot : I)

/-- Where a task is: at an `await`, or about to go on. -/
inductive Phase (X : Type*)
  | disposing (resource : ℕ)
  | cacheDisposed
  | disposeThrew (thrown : Thrown X)
  | querying
  | done

structure ActiveTask (I K F X : Type*) where
  task : Task I K F
  phase : Phase X

/-- The slots that share a `SerialTaskQueue`, and the calls of `runNext` whose task has been started. -/
structure System (I K F V X : Type*) where
  slots : I → QuerySlot K V X
  pending : List (I × Task I K F)
  running : Bool
  active : List (ActiveTask I K F X)
  cancelled : ℕ → Bool
  nextSignal : ℕ

structure QueryResult (V : Type*) where
  data : Option (Data V)
  isPending : Bool
  isFresh : Bool
  deriving DecidableEq

/-- What `use` throws. -/
inductive UseError (X : Type*)
  | afterDispose
  | stored (e : X)
  deriving DecidableEq

/-- What is seen from outside: calls of `use`, and their ends; calls of `asyncDispose`; queries that resolve. -/
inductive Event (I K F V X : Type*)
  | used (slot : I) (key : K) (queryFn : F)
  | returned (slot : I) (key : K) (result : Except (UseError X) (QueryResult V))
  | asyncDispose (slot : I) (resource : ℕ)
  | resolved (slot : I) (key : K) (queryFn : F) (data : Data V)

variable {I K F V X : Type*}

def Task.slot : Task I K F → I
  | query slot .. => slot
  | dispose slot => slot

namespace QuerySlot

def init : QuerySlot K V X := ⟨none, none, false, none, none⟩

/-- `canUseStaleData`. -/
def canUseStaleData (ops : KeyOps K) (cachedKey currentKey : K) (retainOn : List String) : Bool :=
  ((ops.fields currentKey).all fun field =>
    ops.fieldStr cachedKey field = ops.fieldStr currentKey field || retainOn.contains field) &&
  (ops.fields cachedKey).all fun field => ops.hasField currentKey field || retainOn.contains field

/-- The condition under which `use` schedules a query; `enabled` is `none` where it is undefined. -/
def mustQuery (ops : KeyOps K) (slot : QuerySlot K V X) (key : K) (enabled : Option Bool) : Bool :=
  slot.pendingKey.map ops.stringify ≠ some (ops.stringify key) &&
  slot.cache.map CacheEntry.keyStr ≠ some (ops.stringify key) && enabled.getD true

/-- The end of `use`: what is returned. -/
def queryResult (ops : KeyOps K) (slot : QuerySlot K V X) (key : K) (retainOn : List String) : QueryResult V :=
  let isPending := slot.pendingKey.isSome
  match slot.cache with
  | none => ⟨none, isPending, false⟩
  | some entry =>
    if entry.keyStr = ops.stringify key then ⟨some entry.data, isPending, true⟩
    else if canUseStaleData ops entry.key key retainOn then ⟨some entry.data, isPending, false⟩
    else ⟨none, isPending, false⟩

/-- The pending key is cleared if it is this one. -/
def clearPending (ops : KeyOps K) (slot : QuerySlot K V X) (key : K) : QuerySlot K V X :=
  { slot with pendingKey :=
      if slot.pendingKey.map ops.stringify = some (ops.stringify key) then none else slot.pendingKey }

/-- `finaliseQuery`; `none` for `QUERY_CANCELLED`. -/
def finaliseQuery (ops : KeyOps K) (slot : QuerySlot K V X) (key : K) (result : Option (Data V)) :
    QuerySlot K V X :=
  let slot := slot.clearPending ops key
  match result with
  | none => slot
  | some data => { slot with cache := some ⟨key, ops.stringify key, data⟩ }

/-- `finaliseError`. -/
def finaliseError (ops : KeyOps K) (slot : QuerySlot K V X) (key : K) (e : X) : QuerySlot K V X :=
  { slot with error := some (ops.stringify key, e) }.clearPending ops key

/-- The `catch` of the task of a query. -/
def finaliseThrown (ops : KeyOps K) (slot : QuerySlot K V X) (key : K) : Thrown X → QuerySlot K V X
  | .queryCancelled => slot.finaliseQuery ops key none
  | .error e => slot.finaliseError ops key e

/-- How far `disposeCache` gets at once: `asyncDispose` is called, or there is nothing to dispose of. -/
def disposeCache (slot : QuerySlot K V X) : Phase X :=
  match slot.cache with
  | some ⟨_, _, .disposable resource⟩ => .disposing resource
  | _ => .cacheDisposed

end QuerySlot

/-- The call of `asyncDispose` that starts this phase. -/
def Phase.events (slot : I) : Phase X → List (Event I K F V X)
  | disposing resource => [.asyncDispose slot resource]
  | _ => []

/-- `Map.set`: an entry that is there keeps its place. -/
def setPending [DecidableEq I] (slot : I) (task : Task I K F) : List (I × Task I K F) → List (I × Task I K F)
  | [] => [(slot, task)]
  | p :: pending => if p.1 = slot then (slot, task) :: pending else p :: setPending slot task pending

namespace System

def init : System I K F V X := ⟨fun _ => .init, [], false, [], fun _ => false, 0⟩

variable [DecidableEq I]

def setSlot (s : System I K F V X) (i : I) (slot : QuerySlot K V X) : System I K F V X :=
  { s with slots := Function.update s.slots i slot }

/-- A task is started, and runs up to its first `await`. -/
def startTask (s : System I K F V X) (task : Task I K F) : System I K F V X × List (Event I K F V X) :=
  let phase := (s.slots task.slot).disposeCache
  ({ s with active := s.active ++ [⟨task, phase⟩] }, phase.events task.slot)

/-- `SerialTaskQueue.runNext`. -/
def runNext (s : System I K F V X) : System I K F V X × List (Event I K F V X) :=
  if s.running then (s, [])
  else
    match s.pending with
    | [] => (s, [])
    | (_, task) :: pending => { s with pending := pending, running := true }.startTask task

/-- `SerialTaskQueue.schedule`. -/
def schedule (s : System I K F V X) (i : I) (task : Task I K F) : System I K F V X × List (Event I K F V X) :=
  { s with pending := setPending i task s.pending }.runNext

/-- `SerialTaskQueue.cancel`. -/
def cancel (s : System I K F V X) (i : I) : System I K F V X :=
  { s with pending := s.pending.filter fun p => p.1 ≠ i }

/-- `use` cancels an in-flight query. -/
def cancelSignal (s : System I K F V X) (i : I) : System I K F V X :=
  match (s.slots i).currentSignal with
  | some signal => { s with cancelled := Function.update s.cancelled signal true }
  | none => s

/-- The part of `use` that schedules a query. -/
def startQuery (s : System I K F V X) (i : I) (key : K) (queryFn : F) :
    System I K F V X × List (Event I K F V X) :=
  let s := s.cancelSignal i
  let signal := s.nextSignal
  let s := { s with nextSignal := signal + 1 }
  let s := s.setSlot i { s.slots i with currentSignal := some signal, pendingKey := some key }
  s.schedule i (.query i key queryFn signal)

/-- `QuerySlot.use`. -/
def use (ops : KeyOps K) (s : System I K F V X) (i : I) (key : K) (queryFn : F) (enabled : Option Bool)
    (retainOn : List String) :
    System I K F V X × List (Event I K F V X) × Except (UseError X) (QueryResult V) :=
  if (s.slots i).disposed then (s, [], .error .afterDispose)
  else
    match (s.slots i).error with
    | some (keyStr, e) =>
      if keyStr = ops.stringify key then (s, [], .error (.stored e))
      else query
    | none => query
where
  /-- What `use` does if it does not throw. -/
  query : System I K F V X × List (Event I K F V X) × Except (UseError X) (QueryResult V) :=
    let r := if (s.slots i).mustQuery ops key enabled then s.startQuery i key queryFn else (s, [])
    (r.1, r.2, .ok ((r.1.slots i).queryResult ops key retainOn))

/-- The part of `dispose` before the schedule. -/
def markDisposed (s : System I K F V X) (i : I) : System I K F V X :=
  let s := (s.setSlot i { s.slots i with disposed := true }).cancel i
  s.setSlot i { s.slots i with pendingKey := none }

/-- `QuerySlot.dispose`. -/
def dispose (s : System I K F V X) (i : I) : System I K F V X × List (Event I K F V X) :=
  if (s.slots i).disposed then (s, []) else (s.markDisposed i).schedule i (.dispose i)

/-- A task goes on to another phase. -/
def setPhase (s : System I K F V X) (n : ℕ) (task : Task I K F) (phase : Phase X) : System I K F V X :=
  { s with active := s.active.set n ⟨task, phase⟩ }

end System

/-- What can happen; `n` is the number of a task that has been started. -/
inductive Step (I K F V X : Type*)
  | use (slot : I) (key : K) (queryFn : F) (enabled : Option Bool) (retainOn : List String)
  | dispose (slot : I)
  /-- The promise of `asyncDispose` settles. -/
  | disposeSettles (n : ℕ) (thrown : Option (Thrown X))
  /-- The task goes on after `await this.disposeCache()`. -/
  | goesOn (n : ℕ)
  /-- The promise of `queryFn` settles. -/
  | querySettles (n : ℕ) (outcome : Outcome V X)
  /-- `runNext` goes on after `await task()`. -/
  | ends (n : ℕ)

namespace System

variable [DecidableEq I]

/-- The promise of `asyncDispose` has settled. -/
def disposeSettled (s : System I K F V X) (n : ℕ) (task : Task I K F) : Option (Thrown X) → System I K F V X
  | none => (s.setSlot task.slot { s.slots task.slot with cache := none }).setPhase n task .cacheDisposed
  | some thrown => s.setPhase n task (.disposeThrew thrown)

/-- After `await this.disposeCache()`, if it has not thrown. -/
def cacheDisposed (s : System I K F V X) (n : ℕ) (task : Task I K F) : System I K F V X :=
  match task with
  | .query .. => s.setPhase n task .querying
  | .dispose _ => s.setPhase n task .done

/-- After `await this.disposeCache()`, if it has thrown. -/
def disposeThrew (ops : KeyOps K) (s : System I K F V X) (n : ℕ) (task : Task I K F) (thrown : Thrown X) :
    System I K F V X :=
  match task with
  | .query i key _ _ => (s.setSlot i ((s.slots i).finaliseThrown ops key thrown)).setPhase n task .done
  | .dispose _ => s.setPhase n task .done

/-- After `await queryFn(..)`. -/
def querySettled (ops : KeyOps K) (s : System I K F V X) (n : ℕ) (i : I) (key : K) (queryFn : F) (signal : ℕ) :
    Outcome V X → System I K F V X × List (Event I K F V X)
  | .resolved data =>
    ((s.setSlot i ((s.slots i).finaliseQuery ops key (some data))).setPhase n (.query i key queryFn signal) .done,
      [.resolved i key queryFn data])
  | .queryCancelled =>
    ((s.setSlot i ((s.slots i).finaliseQuery ops key none)).setPhase n (.query i key queryFn signal) .done, [])
  | .rejected thrown =>
    ((s.setSlot i ((s.slots i).finaliseThrown ops key thrown)).setPhase n (.query i key queryFn signal) .done, [])

def step (ops : KeyOps K) (s : System I K F V X) :
    Step I K F V X → Option (System I K F V X × List (Event I K F V X))
  | .use i key queryFn enabled retainOn =>
    let r := s.use ops i key queryFn enabled retainOn
    some (r.1, .used i key queryFn :: r.2.1 ++ [.returned i key r.2.2])
  | .dispose i => some (s.dispose i)
  | .disposeSettles n thrown =>
    match s.active[n]? with
    | some ⟨task, .disposing _⟩ => some (s.disposeSettled n task thrown, [])
    | _ => none
  | .goesOn n =>
    match s.active[n]? with
    | some ⟨task, .cacheDisposed⟩ => some (s.cacheDisposed n task, [])
    | some ⟨task, .disposeThrew thrown⟩ => some (s.disposeThrew ops n task thrown, [])
    | _ => none
  | .querySettles n outcome =>
    match s.active[n]? with
    | some ⟨.query i key queryFn signal, .querying⟩ => some (s.querySettled ops n i key queryFn signal outcome)
    | _ => none
  | .ends n =>
    match s.active[n]? with
    | some ⟨_, .done⟩ => some { s with active := s.active.eraseIdx n, running := false }.runNext
    | _ => none

/-- The slots of a queue, with everything that can happen to them. -/
def machine (ops : KeyOps K) : EventMachine (System I K F V X) (Step I K F V X) (Event I K F V X) where
  init := init
  step := step ops

end System

end LynxTrace.Ui
