import Mathlib.Algebra.Order.Ring.Int
import Mathlib.Logic.Function.Basic

/-!
# TraceProcessor.TrackCompressor — `TrackCompressor` (src/trace_processor/importers/common/track_compressor.{h,cc})

The sets of tracks by the hash of their blueprint and dimensions.  A factory makes a new track: its id is the number of
tracks there are.  Timestamps are 64-bit, nest counts 32-bit; a sum that does not fit wraps around.
-/

namespace LynxTrace.TraceProcessor

inductive NestingBehaviour
  | kNestable
  | kLegacySaturatingUnnestable
  deriving DecidableEq, Repr

/-- The slice type of a track, with the fields that are valid for it. -/
inductive SliceType
  | kCookie (cookie : ℤ) (nestCount : ℕ)
  | kTimestamp (tsEnd : ℤ)
  deriving DecidableEq, Repr

/-- `none` is `kInvalidTrackId`. -/
structure TrackState where
  sliceType : SliceType
  trackId : Option ℕ
  deriving DecidableEq, Repr

structure TrackCompressor where
  sets : ℕ → List TrackState
  /-- The number of rows of the track table. -/
  trackCount : ℕ

namespace TrackCompressor

/-- The value of an `int64_t`. -/
def wrap64 (x : ℤ) : ℤ := x.bmod (2 ^ 64)

def init : TrackCompressor := ⟨fun _ => [], 0⟩

/-! ### Tracks of a set -/

/-- The track belongs to the cookie. -/
def hasCookie (cookie : ℤ) (state : TrackState) : Bool :=
  match state.sliceType with
  | .kCookie c _ => c = cookie
  | .kTimestamp _ => false

/-- No slice of a cookie is open on the track. -/
def isFree (state : TrackState) : Bool :=
  match state.sliceType with
  | .kCookie _ nestCount => nestCount = 0
  | .kTimestamp _ => false

/-- The slices of the track have ended. -/
def hasEnded (ts : ℤ) (state : TrackState) : Bool :=
  match state.sliceType with
  | .kCookie _ _ => false
  | .kTimestamp tsEnd => tsEnd ≤ ts

/-- The track is adopted for the cookie. -/
def adopt (cookie : ℤ) (state : TrackState) : TrackState :=
  match state.sliceType with
  | .kCookie _ nestCount => { state with sliceType := .kCookie cookie nestCount }
  | .kTimestamp _ => state

def getOrCreateTrackForCookie (tracks : List TrackState) (cookie : ℤ) : List TrackState × ℕ :=
  match tracks.findIdx? (hasCookie cookie) with
  | some idx => (tracks, idx)
  | none =>
    match tracks.findIdx? isFree with
    | some idx => (tracks.modify idx (adopt cookie), idx)
    | none => (tracks ++ [⟨.kCookie cookie 0, none⟩], tracks.length)

def modifyNestCount (f : ℕ → ℕ) (state : TrackState) : TrackState :=
  match state.sliceType with
  | .kCookie cookie nestCount => { state with sliceType := .kCookie cookie (f nestCount) }
  | .kTimestamp _ => state

def beginInternal (tracks : List TrackState) (behaviour : NestingBehaviour) (cookie : ℤ) : List TrackState × ℕ :=
  let r := getOrCreateTrackForCookie tracks cookie
  match behaviour with
  | .kNestable => (r.1.modify r.2 (modifyNestCount fun n => (n + 1) % 2 ^ 32), r.2)
  | .kLegacySaturatingUnnestable => (r.1.modify r.2 (modifyNestCount fun _ => 1), r.2)

def endInternal (tracks : List TrackState) (cookie : ℤ) : List TrackState × ℕ :=
  let r := getOrCreateTrackForCookie tracks cookie
  -- the count can be 0 for a track that is known
  (r.1.modify r.2 (modifyNestCount fun n => if n > 0 then n - 1 else n), r.2)

def scopedInternal (tracks : List TrackState) (ts dur : ℤ) : List TrackState × ℕ :=
  match tracks.findIdx? (hasEnded ts) with
  | some idx => (tracks.modify idx fun state => { state with sliceType := .kTimestamp (wrap64 (ts + dur)) }, idx)
  | none => (tracks ++ [⟨.kTimestamp (wrap64 (ts + dur)), none⟩], tracks.length)

/-! ### Calls -/

/-- The track id at an index, made by the factory if it is not valid yet. -/
def trackIdAt (s : TrackCompressor) (hash : ℕ) (r : List TrackState × ℕ) : TrackCompressor × Option ℕ :=
  match r.1[r.2]? with
  | none => ({ s with sets := Function.update s.sets hash r.1 }, none)
  | some state =>
    match state.trackId with
    | some trackId => ({ s with sets := Function.update s.sets hash r.1 }, some trackId)
    | none =>
      ({ s with
          sets := Function.update s.sets hash (r.1.modify r.2 fun state => { state with trackId := some s.trackCount })
          trackCount := s.trackCount + 1 },
        some s.trackCount)

inductive Call
  | beginSlice (hash : ℕ) (cookie : ℤ)
  | endSlice (hash : ℕ) (cookie : ℤ)
  | scopedSlice (hash : ℕ) (ts dur : ℤ)
  /-- A track is made by other code. -/
  | otherTrack
  deriving DecidableEq, Repr

/-- The compressor after a call, and the id it returns; the type of a set's blueprint tells its nesting behaviour. -/
def call (behaviour : ℕ → NestingBehaviour) (s : TrackCompressor) : Call → TrackCompressor × Option ℕ
  | .beginSlice hash cookie => s.trackIdAt hash (beginInternal (s.sets hash) (behaviour hash) cookie)
  | .endSlice hash cookie => s.trackIdAt hash (endInternal (s.sets hash) cookie)
  | .scopedSlice hash ts dur => s.trackIdAt hash (scopedInternal (s.sets hash) ts dur)
  | .otherTrack => ({ s with trackCount := s.trackCount + 1 }, none)

/-- The compressor after some calls, and each call with the id it returned, oldest first. -/
def run (behaviour : ℕ → NestingBehaviour) (calls : List Call) : TrackCompressor × List (Call × Option ℕ) :=
  calls.foldl (fun r c => ((call behaviour r.1 c).1, r.2 ++ [(c, (call behaviour r.1 c).2)])) (init, [])

end TrackCompressor

end LynxTrace.TraceProcessor
