import LynxTrace.Base.SortedSearch
import LynxTrace.TraceProcessor.TokenRoundTrip
import Mathlib.Data.List.Sort

/-!
# TraceProcessor.TraceSorter — `TraceSorter` (src/trace_processor/sorter/trace_sorter.{h,cc})

Timestamps are integers that come from `int64_t` values.  What the sinks are called with is kept in two lists, in the
order of the calls.  `none` is a `PERFETTO_CHECK` that fails, or a call that the types of the source exclude.
-/

namespace LynxTrace.TraceProcessor

def kTsMax : ℤ := 2 ^ 63 - 1

def kTsMin : ℤ := -2 ^ 63

/-- `TraceSorter::SortingMode`. -/
inductive SortingMode
  | kDefault
  | kFullSort
  deriving DecidableEq, Repr

/-- `TraceSorter::EventHandling`. -/
inductive EventHandling
  | kSortAndPush
  | kSortAndDrop
  | kDrop
  deriving DecidableEq, Repr

/-- The type a stream and its sink are for. -/
inductive SinkType
  | trackEvent
  | jsonEvent
  | object (words : ℕ)
  deriving DecidableEq, Repr

/-- The words of an object that is not a `TrackEventData`.  A `JsonEvent` has ten. -/
def SinkType.words : SinkType → ℕ
  | .trackEvent => 0
  | .jsonEvent => 10
  | .object words => words

/-- The token is an object of the type. -/
def SinkType.fits : SinkType → Token → Bool
  | .trackEvent, .trackEvent _ => true
  | .trackEvent, .object _ _ => false
  | _, .trackEvent _ => false
  | type, .object words _ => words.length = type.words

/-! ### Events -/

structure TimestampedEvent where
  ts : ℤ
  allocId : AllocId
  isJsonEvent : Bool
  deriving DecidableEq, Repr

/-- `JsonEvent::phase`, in the last word of the object. -/
def JsonEvent.phase (word : ℕ → UInt64) : UInt8 := (word 9).toUInt8

/-- `JsonEvent::dur`, the first word of the object. -/
def JsonEvent.dur (word : ℕ → UInt64) : Int64 := (word 0).toInt64

/-- `SlowOperatorLess::KeyForType`; the difference wraps for a negative duration. -/
def keyForType (word : ℕ → UInt64) : ℤ :=
  if JsonEvent.phase word = 'E'.toUInt8 then kTsMin
  else if JsonEvent.phase word = 'X'.toUInt8 then (Int64.maxValue - JsonEvent.dur word).toInt
  else kTsMax

/-- The second key of an event when sorting slowly. -/
def slowKey (buffer : TraceTokenBuffer) (e : TimestampedEvent) : ℤ :=
  match buffer.allocator.chunkOf e.allocId with
  | some chunk =>
    if e.isJsonEvent then keyForType fun i => chunk.allocation (e.allocId.chunkOffset / 8 + i) else kTsMax
  | none => kTsMax

namespace TimestampedEvent

/-- The order of events: by timestamp, then by the key, then as they were allocated. -/
def less (key : TimestampedEvent → ℤ) (a b : TimestampedEvent) : Prop :=
  a.ts < b.ts ∨ (a.ts = b.ts ∧ (key a < key b ∨ (key a = key b ∧ a.allocId.lt b.allocId)))

instance (key : TimestampedEvent → ℤ) : DecidableRel (less key) := fun _ _ => inferInstanceAs (Decidable (_ ∨ _))

/-- `std::sort` with that order. -/
def sort (key : TimestampedEvent → ℤ) (events : List TimestampedEvent) : List TimestampedEvent :=
  events.insertionSort fun a b => ¬less key b a

end TimestampedEvent

/-! ### Queues -/

structure Queue where
  events : List TimestampedEvent := []
  minTs : ℤ := kTsMax
  maxTs : ℤ := 0
  sortStartIdx : ℕ := 0
  sortMinTs : ℤ := kTsMax
  sink : SinkType
  deriving DecidableEq

namespace Queue

/-- `Queue::Append`. -/
def append (q : Queue) (ts : ℤ) (id : AllocId) (isJsonEvent useSlowSorting : Bool) : Queue :=
  let event : TimestampedEvent := ⟨ts, id, isJsonEvent⟩
  let q := { q with events := q.events ++ [event] }
  let q :=
    if ts > q.maxTs ∨ (!useSlowSorting ∧ ts = q.maxTs) then { q with maxTs := ts }
    else if q.sortStartIdx = 0 then { q with sortStartIdx := q.events.length - 1, sortMinTs := ts }
    else { q with sortMinTs := min q.sortMinTs ts }
  { q with minTs := min q.minTs ts }

/-- `needs_sorting`. -/
def needsSorting (q : Queue) : Bool := q.sortStartIdx ≠ 0

/-- Where `Queue::Sort` begins: the first event that is not before the timestamp that broke the order. -/
def sortBegin (q : Queue) : ℕ := lowerBound ((q.events.take q.sortStartIdx).map (·.ts)) q.sortMinTs

/-- `Queue::Sort`. -/
def sort (q : Queue) (key : TimestampedEvent → ℤ) : Queue :=
  { q with
    events := q.events.take q.sortBegin ++ TimestampedEvent.sort key (q.events.drop q.sortBegin)
    sortStartIdx := 0
    sortMinTs := 0 }

/-- The queue after events are extracted from its front, with its bounds updated. -/
def eraseFront (q : Queue) (numExtracted : ℕ) : Queue :=
  match q.events.drop numExtracted with
  | [] => { q with events := [], minTs := kTsMax, maxTs := 0 }
  | event :: events => { q with events := event :: events, minTs := event.ts }

end Queue

/-! ### The sorter -/

/-- What a sink is called with. -/
structure SinkCall where
  stream : ℕ
  ts : ℤ
  token : Token
  deriving DecidableEq

structure TraceSorter where
  queues : List Queue := []
  sortingMode : SortingMode
  eventHandling : EventHandling := .kSortAndPush
  tokenBuffer : TraceTokenBuffer := { }
  allocIdForExtraction : AllocId := ⟨0, 0⟩
  flushesSinceExtraction : UInt32 := 0
  appendMaxTs : ℤ := 0
  latestPushedEventTs : ℤ := kTsMin
  useSlowSorting : Bool := false
  /-- `stats::sorter_push_event_out_of_order`. -/
  pushEventOutOfOrder : ℕ := 0
  /-- `stats::trace_sorter_negative_timestamp_dropped`. -/
  negativeTimestampDropped : ℕ := 0
  /-- The calls of `OnSortedEvent`. -/
  sorted : List SinkCall := []
  /-- The calls of `OnDiscardedEvent`. -/
  discarded : List SinkCall := []

/-- `Extract` for the type of a sink. -/
def TraceTokenBuffer.extractAs (b : TraceTokenBuffer) (id : AllocId) : SinkType → Option (Token × TraceTokenBuffer)
  | .trackEvent => (b.extract id).map fun (ted, b) => (.trackEvent ted, b)
  | type => do
    let (words, b) ← b.extractObject id type.words
    if nonempty : words ≠ [] then some (.object words nonempty, b) else none

namespace TraceSorter

/-- The key that events are sorted by. -/
def sortKey (s : TraceSorter) : TimestampedEvent → ℤ :=
  if s.useSlowSorting then slowKey s.tokenBuffer else fun _ => 0

/-- `CreateStream`. -/
def createStream (s : TraceSorter) (sink : SinkType) : TraceSorter := { s with queues := s.queues ++ [{ sink }] }

/-- `SetSortingMode`. -/
def setSortingMode (s : TraceSorter) (sortingMode : SortingMode) : Bool × TraceSorter :=
  if sortingMode = s.sortingMode then (true, s)
  else if s.sortingMode ≠ .kDefault then (false, s)
  else if s.latestPushedEventTs ≠ kTsMin then (false, s)
  else (true, { s with sortingMode })

/-- `Stream::Push`, of an object of the stream's type. -/
def push (s : TraceSorter) (stream : ℕ) (ts : Int64) (data : Token) : Option TraceSorter := do
  let queue ← (s.queues[stream]?).filter (·.sink.fits data)
  if s.eventHandling = .kDrop then some s
  else if ts < 0 then some { s with negativeTimestampDropped := s.negativeTimestampDropped + 1 }
  else
    let isJsonEvent : Bool := queue.sink = .jsonEvent
    let slow := s.useSlowSorting || match data with
      | .object words _ => isJsonEvent && JsonEvent.phase (fun i => words.getD i 0) = 'X'.toUInt8
      | .trackEvent _ => false
    let (id, tokenBuffer) ← s.tokenBuffer.appendToken data
    let queue := queue.append ts.toInt id isJsonEvent slow
    some { s with
      queues := s.queues.set stream queue
      tokenBuffer
      useSlowSorting := slow
      appendMaxTs := max s.appendMaxTs queue.maxTs }

/-! ### Extraction -/

/-- What the scan of the queues for the earliest event keeps: the queue with the earliest, and the two earliest
timestamps among the queues. -/
structure Scan where
  minQueueIdx : ℕ := 0
  minQueueTs0 : ℤ := kTsMax
  minQueueTs1 : ℤ := kTsMax
  allQueuesEmpty : Bool := true

def Scan.next (scan : Scan) (i : ℕ) (queue : Queue) : Scan :=
  if queue.events = [] then scan
  else
    let scan :=
      if scan.allQueuesEmpty ∨ queue.minTs < scan.minQueueTs0 then
        { scan with minQueueTs1 := scan.minQueueTs0, minQueueTs0 := queue.minTs, minQueueIdx := i }
      else if queue.minTs < scan.minQueueTs1 then { scan with minQueueTs1 := queue.minTs }
      else scan
    { scan with allQueuesEmpty := false }

def scanQueues (i : ℕ) (scan : Scan) : List Queue → Scan
  | [] => scan
  | queue :: queues => scanQueues (i + 1) (scan.next i queue) queues

/-- The body of the loop over the events of a queue. -/
def extractEvent (s : TraceSorter) (stream : ℕ) (sink : SinkType) (event : TimestampedEvent) : Option TraceSorter := do
  let (token, tokenBuffer) ← s.tokenBuffer.extractAs event.allocId sink
  let s := { s with tokenBuffer }
  let call : SinkCall := ⟨stream, event.ts, token⟩
  if event.ts < s.latestPushedEventTs then
    some { s with pushEventOutOfOrder := s.pushEventOutOfOrder + 1, discarded := s.discarded ++ [call] }
  else
    let s := { s with latestPushedEventTs := event.ts }
    if s.eventHandling = .kSortAndDrop then some { s with discarded := s.discarded ++ [call] }
    else some { s with sorted := s.sorted ++ [call] }

/-- The loop over the events of a queue: the number extracted, and the sorter after. -/
def extractEvents (limit : AllocId) (minQueueTs1 : ℤ) (stream : ℕ) (sink : SinkType) :
    List TimestampedEvent → TraceSorter → Option (ℕ × TraceSorter)
  | [], s => some (0, s)
  | event :: events, s =>
    if ¬event.allocId.lt limit then some (0, s)
    else if event.ts > minQueueTs1 then some (0, s)
    else do
      let s ← s.extractEvent stream sink event
      let (numExtracted, s) ← extractEvents limit minQueueTs1 stream sink events s
      some (numExtracted + 1, s)

/-- The body of the loop of `SortAndExtractEventsUntilAllocId`, and whether it goes round again. -/
def extractRound (limit : AllocId) (s : TraceSorter) : Option (Bool × TraceSorter) := do
  let scan := scanQueues 0 { } s.queues
  if scan.allQueuesEmpty then some (false, s)
  else
    let stream := scan.minQueueIdx
    let queue ← s.queues[stream]?
    let queue := if queue.needsSorting then queue.sort s.sortKey else queue
    let (numExtracted, s) ← extractEvents limit scan.minQueueTs1 stream queue.sink queue.events s
    if numExtracted = 0 then some (false, { s with queues := s.queues.set stream queue })
    else
      some (true, { s with
        queues := s.queues.set stream (queue.eraseFront numExtracted)
        tokenBuffer := s.tokenBuffer.freeMemory })

/-- `SortAndExtractEventsUntilAllocId`; `none` also where the fuel runs out. -/
def sortAndExtractEventsUntilAllocId (limit : AllocId) : ℕ → TraceSorter → Option TraceSorter
  | 0, _ => none
  | fuel + 1, s => do
    let (again, s) ← s.extractRound limit
    if again then sortAndExtractEventsUntilAllocId limit fuel s else some s

/-- Rounds enough: each but the last extracts an event. -/
def rounds (s : TraceSorter) : ℕ := (s.queues.map (·.events.length)).sum + 1

/-- `ExtractEventsForced`. -/
def extractEventsForced (s : TraceSorter) : Option TraceSorter := do
  let endId := s.tokenBuffer.allocator.pastTheEndId
  let s ← s.sortAndExtractEventsUntilAllocId endId s.rounds
  if s.queues.all (·.events.isEmpty) then
    some { s with allocIdForExtraction := endId, flushesSinceExtraction := 0 }
  else none

/-- `NotifyFlushEvent`. -/
def notifyFlushEvent (s : TraceSorter) : TraceSorter :=
  { s with flushesSinceExtraction := s.flushesSinceExtraction + 1 }

/-- `NotifyReadBufferEvent`. -/
def notifyReadBufferEvent (s : TraceSorter) : Option TraceSorter := do
  if s.sortingMode = .kFullSort ∨ s.flushesSinceExtraction < 2 then some s
  else
    let s ← s.sortAndExtractEventsUntilAllocId s.allocIdForExtraction s.rounds
    some { s with allocIdForExtraction := s.tokenBuffer.allocator.pastTheEndId, flushesSinceExtraction := 0 }

end TraceSorter

end LynxTrace.TraceProcessor
