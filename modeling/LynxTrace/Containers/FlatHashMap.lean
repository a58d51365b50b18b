import LynxTrace.Base.TriangularProbing
import LynxTrace.Containers.ControlGroup

/-!
# Containers.FlatHashMap — `FlatHashMapV2` (include/perfetto/ext/base/flat_hash_map.h)

Every operation gives `none` where the code would not: a probe loop that has come round to its start, a group or a slot
outside the table, a slot that holds nothing, a failed check.  A slot that holds no entry is `none` in `slots`; sizes
are numbers of bytes that fit in memory.
-/

namespace LynxTrace.FlatHashMap

/-! ### The source -/

structure Table (K V : Type*) where
  capacity : ℕ
  size : ℕ
  growthLeft : ℕ
  hasTombstones : Bool
  loadLimitPercent : ℕ
  ctrl : List UInt8
  slots : List (Option (K × V))

variable {K V : Type*} [DecidableEq K]

namespace Table

variable (G : Group) (hash : K → ℕ)

def kNumClones : ℕ := G.kSize - 1

def kNotFound : ℕ := 2 ^ 63 - 1

def h1 (keyHash : ℕ) : ℕ := keyHash >>> 7

def h2 (keyHash : ℕ) : UInt8 := UInt8.ofNat (keyHash &&& 0x7F)

/-- A map that has not been given a table. -/
def empty (loadLimitPercent : ℕ) : Table K V := ⟨0, 0, 0, false, loadLimitPercent, [], []⟩

/-- `i & cap_mask` -/
def wrap (t : Table K V) (i : ℕ) : ℕ := i &&& (t.capacity - 1)

/-- The control bytes of a group. -/
def groupAt (t : Table K V) (offset : ℕ) : Option (List UInt8) :=
  if ((t.ctrl.drop offset).take G.kSize).length = G.kSize then some ((t.ctrl.drop offset).take G.kSize) else none

inductive FindResult
  | found (idx : ℕ)
  | needsInsert (idx : ℕ)
  deriving DecidableEq, Repr

/-- The slot of the key among those whose tag matches. -/
def findMatch (t : Table K V) (key : K) : List ℕ → Option (Option ℕ)
  | [] => some none
  | idx :: rest =>
    (t.slots[idx]?.bind id).bind fun (k, _) => if k = key then some (some idx) else findMatch t key rest

/-- The loop of `FindSlotIgnoringTombstones`. -/
def findSlotLoop (t : Table K V) (key : K) (tag : UInt8) : ℕ → ℕ → ℕ → Option FindResult
  | 0, _, _ => none
  | rounds + 1, offset, probeSize =>
    (t.groupAt G offset).bind fun g =>
      (t.findMatch key ((G.matchTag g tag).map fun i => t.wrap (offset + i))).bind fun
        | some idx => some (.found idx)
        | none =>
          match G.matchEmpty g with
          | i :: _ => some (.needsInsert (t.wrap (offset + i)))
          | [] => findSlotLoop t key tag rounds (t.wrap (offset + (probeSize + G.kSize))) (probeSize + G.kSize)

/-- `FindSlotIgnoringTombstones`; without `ForInsert` the place of the empty slot is not looked at. -/
def findSlotIgnoringTombstones (t : Table K V) (key : K) : Option FindResult :=
  if t.ctrl = [] then some (.needsInsert kNotFound)
  else t.findSlotLoop G key (h2 (hash key)) (t.capacity + 1) (t.wrap (h1 (hash key))) 0

/-- The loop of `FindFirstEmptyOrTombstone`. -/
def findFirstLoop (t : Table K V) : ℕ → ℕ → ℕ → Option ℕ
  | 0, _, _ => none
  | rounds + 1, offset, probeSize =>
    (t.groupAt G offset).bind fun g =>
      match G.matchEmptyOrDeleted g with
      | i :: _ => some (t.wrap (offset + i))
      | [] => findFirstLoop t rounds (t.wrap (offset + (probeSize + G.kSize))) (probeSize + G.kSize)

def findFirstEmptyOrTombstone (t : Table K V) (keyHash : ℕ) : Option ℕ :=
  t.findFirstLoop G (t.capacity + 1) (t.wrap (h1 keyHash)) 0

/-- `SetCtrl`, with the clone of one of the first control bytes. -/
def setCtrl (t : Table K V) (i : ℕ) (h : UInt8) : Table K V :=
  { t with ctrl := if i < kNumClones G then (t.ctrl.set i h).set (t.capacity + i) h else t.ctrl.set i h }

def setSlot (t : Table K V) (i : ℕ) (entry : Option (K × V)) : Table K V := { t with slots := t.slots.set i entry }

/-- `Reset`: all control bytes are empty. -/
def reset (t : Table K V) (n : ℕ) : Option (Table K V) :=
  if n &&& (n - 1) = 0 then
    some ⟨max n 128, 0, max n 128 * t.loadLimitPercent / 100, false, t.loadLimitPercent,
      List.replicate (max n 128 + kNumClones G) kFreeSlot, List.replicate (max n 128) none⟩
  else none

/-- An entry is put into a slot; `growth_left` has 63 bits, and what is below zero wraps. -/
def putEntry (t : Table K V) (idx : ℕ) (key : K) (value : V) (isFreeslot : Bool) : Table K V :=
  let t := (t.setSlot idx (some (key, value))).setCtrl G idx (h2 (hash key))
  { t with
    size := t.size + 1
    growthLeft :=
      if isFreeslot then if t.growthLeft = 0 then 2 ^ 63 - 1 else t.growthLeft - 1 else t.growthLeft }

/-- The rest of `Insert`, once there is room. -/
def insertAt (t : Table K V) (idx : ℕ) (key : K) (value : V) : Option (Table K V × ℕ × Bool) :=
  if t.hasTombstones then
    (t.findFirstEmptyOrTombstone G (hash key)).bind fun idx =>
      t.ctrl[idx]?.map fun c => (t.putEntry G hash idx key value (decide (c ≠ kTombstone)), idx, true)
  else some (t.putEntry G hash idx key value true, idx, true)

/-- `Insert`, with what makes room for it. -/
def insertWith (growAndRehash : Table K V → Option (Table K V)) (t : Table K V) (key : K) (value : V) :
    Option (Table K V × ℕ × Bool) :=
  (t.findSlotIgnoringTombstones G hash key).bind fun
    | .found idx => some (t, idx, false)
    | .needsInsert emptyIdx =>
      if t.growthLeft = 0 then
        (growAndRehash t).bind fun t =>
          (t.findFirstEmptyOrTombstone G (hash key)).bind fun idx => t.insertAt G hash idx key value
      else t.insertAt G hash emptyIdx key value

/-- The loop of `GrowAndRehash` over the slots of the old table, with the number of entries that have been moved.  Its
inserts find room: one that would have to make room again is `none`. -/
def rehashLoop (old : Table K V) (t : Table K V) (newSize : ℕ) : List ℕ → Option (Table K V)
  | [] => some { t with size := newSize }
  | i :: rest =>
    if old.ctrl.getD i kFreeSlot = kFreeSlot ∨ old.ctrl.getD i kFreeSlot = kTombstone then
      rehashLoop old t newSize rest
    else
      (old.slots[i]?.bind id).bind fun (key, value) =>
        (t.insertWith G hash (fun _ => none) key value).bind fun (t, _) => rehashLoop old t (newSize + 1) rest

def growAndRehash (t : Table K V) : Option (Table K V) :=
  (t.reset G (t.capacity * 2)).bind fun new => rehashLoop G hash t new 0 (List.range t.capacity)

def insert (t : Table K V) (key : K) (value : V) : Option (Table K V × ℕ × Bool) :=
  t.insertWith G hash (growAndRehash G hash) key value

/-- `Find`: the slot that the pointer leads to. -/
def find (t : Table K V) (key : K) : Option (Option ℕ) :=
  (t.findSlotIgnoringTombstones G hash key).map fun
    | .found idx => some idx
    | .needsInsert _ => none

def erase (t : Table K V) (key : K) : Option (Table K V × Bool) :=
  (t.findSlotIgnoringTombstones G hash key).map fun
    | .found idx =>
      let t := (t.setCtrl G idx kTombstone).setSlot idx none
      ({ t with size := t.size - 1, hasTombstones := true }, true)
    | .needsInsert _ => (t, false)

def clear (t : Table K V) : Option (Table K V) :=
  if t.capacity = 0 then some t else t.reset G t.capacity

/-- The entries in the order of `GetIterator`. -/
def entries (t : Table K V) : List (K × V) :=
  (List.range t.capacity).filterMap fun i =>
    if t.ctrl.getD i kFreeSlot = kFreeSlot ∨ t.ctrl.getD i kFreeSlot = kTombstone then none else t.slots[i]?.bind id

/-- The constructor. -/
def construct (initialCapacity loadLimitPercent : ℕ) : Option (Table K V) :=
  if 0 < initialCapacity then (empty loadLimitPercent).reset G initialCapacity else some (empty loadLimitPercent)

end Table

end LynxTrace.FlatHashMap
