import LynxTrace.Base.SetCursor

/-!
# TraceProcessor.AddressRange — `AddressSet` and `AddressRangeMap`
(src/trace_processor/importers/common/address_range.h)

Addresses are natural numbers: nothing here adds to one.  The containers are lists in the order of `CompareByEnd`.
`none` is the `PERFETTO_CHECK(start <= end)` of a range that fails, or a loop that runs out of fuel.
-/

namespace LynxTrace.TraceProcessor

/-- `[start, end)`. -/
structure AddressRange where
  start : ℕ
  end_ : ℕ
  start_le : start ≤ end_
  deriving DecidableEq, Repr

namespace AddressRange

/-- The constructor. -/
def make (start end_ : ℕ) : Option AddressRange := if h : start ≤ end_ then some ⟨start, end_, h⟩ else none

def contains (r : AddressRange) (addr : ℕ) : Bool := r.start ≤ addr && addr < r.end_

def empty (r : AddressRange) : Bool := r.end_ - r.start = 0

def overlaps (r other : AddressRange) : Bool :=
  !r.empty && !other.empty && r.start < other.end_ && other.start < r.end_

end AddressRange

/-! ### `AddressSet` -/

abbrev AddressSet := List AddressRange

namespace AddressSet

open AddressRange SetCursor

/-- The loop of `Add`: the bounds so far, and the ranges not erased. -/
def addLoop (range : AddressRange) (start end_ : ℕ) : List AddressRange → ℕ × ℕ × List AddressRange
  | [] => (start, end_, [])
  | it :: rest =>
    if it.start ≤ range.end_ then addLoop range (min start it.start) (max end_ it.end_) rest
    else (start, end_, it :: rest)

/-- `Add`. -/
def add (ranges : AddressSet) (range : AddressRange) : Option AddressSet :=
  if range.empty then some ranges
  else do
    let it := SetCursor.lowerBound AddressRange.end_ ranges range.start
    let (start, end_, rest) := addLoop range range.start range.end_ it.rest
    let merged ← make start end_
    some (SetCursor.emplace AddressRange.end_ merged ⟨it.before, rest⟩).all

/-- The loop of `Remove`. -/
def removeLoop (range : AddressRange) : ℕ → SetCursor AddressRange → Option (SetCursor AddressRange)
  | 0, _ => none
  | fuel + 1, c =>
    match c.rest with
    | [] => some c
    | it :: _ =>
      if range.end_ ≤ it.start then some c
      else if it.start < range.start then do
        -- split at `range.start`; the loop goes on at the second half
        let first ← make it.start range.start
        let second ← make range.start it.end_
        removeLoop range fuel ((c.erase.emplace AddressRange.end_ first).emplaceTo AddressRange.end_ second)
      else if range.end_ < it.end_ then do
        -- split at `range.end()`; the first half goes
        let second ← make range.end_ it.end_
        removeLoop range fuel (c.erase.emplace AddressRange.end_ second)
      else removeLoop range fuel c.erase

/-- `Remove`; the loop goes round once for each range, once more where it splits one, and once to stop. -/
def remove (ranges : AddressSet) (range : AddressRange) : Option AddressSet :=
  if range.empty then some ranges
  else do
    let c ← removeLoop range (ranges.length + 2) (SetCursor.upperBound AddressRange.end_ ranges range.start)
    some c.all

end AddressSet

/-! ### `AddressRangeMap` -/

variable {V : Type}

abbrev AddressRangeMap (V : Type) := List (AddressRange × V)

namespace AddressRangeMap

open AddressRange SetCursor

/-- What the map is sorted by. -/
def endOf (e : AddressRange × V) : ℕ := e.1.end_

/-- `Emplace`, with its result. -/
def emplace (m : AddressRangeMap V) (range : AddressRange) (v : V) : Bool × AddressRangeMap V :=
  if range.empty then (false, m)
  else
    let it := SetCursor.upperBound endOf m range.start
    match it.rest with
    | e :: _ => if e.1.start < range.end_ then (false, m) else (true, (it.emplace endOf (range, v)).all)
    | [] => (true, (it.emplace endOf (range, v)).all)

/-- `Find`; `none` is `end()`. -/
def find (m : AddressRangeMap V) (address : ℕ) : Option (AddressRange × V) :=
  match (SetCursor.upperBound endOf m address).rest with
  | [] => none
  | e :: _ => if e.1.start ≤ address then some e else none

/-- `TrimEntryRange`. -/
def trimEntryRange (it : SetCursor (AddressRange × V)) (newRange : AddressRange) : SetCursor (AddressRange × V) :=
  match it.rest with
  | [] => it
  | e :: _ => it.erase.emplaceTo endOf (newRange, e.2)

/-- The part of `TrimOverlapsAndEmplace` for an entry that starts before the range. -/
def trimFirst (range : AddressRange) (it : SetCursor (AddressRange × V)) : Option (SetCursor (AddressRange × V)) :=
  match it.rest with
  | [] => some it
  | e :: _ =>
    if e.1.start < range.start then do
      let head ← make e.1.start range.start
      let it := trimEntryRange it head
      let it ← if range.end_ < e.1.end_ then do
          let tail ← make range.end_ e.1.end_
          pure (it.emplace endOf (tail, e.2))
        else pure it
      some it.next
    else some it

/-- The part for the entries that the range contains. -/
def eraseContained (range : AddressRange) (before : List (AddressRange × V)) :
    List (AddressRange × V) → SetCursor (AddressRange × V)
  | [] => ⟨before, []⟩
  | e :: rest => if e.1.end_ ≤ range.end_ then eraseContained range before rest else ⟨before, e :: rest⟩

/-- The part for an entry that ends after the range. -/
def trimLast (range : AddressRange) (it : SetCursor (AddressRange × V)) : Option (SetCursor (AddressRange × V)) :=
  match it.rest with
  | [] => some it
  | e :: _ =>
    if e.1.start < range.end_ then do
      let tail ← make range.end_ e.1.end_
      some (trimEntryRange it tail)
    else some it

/-- `TrimOverlapsAndEmplace`. -/
def trimOverlapsAndEmplace (m : AddressRangeMap V) (range : AddressRange) (v : V) : Option (Bool × AddressRangeMap V) :=
  if range.empty then some (false, m)
  else do
    let it ← trimFirst range (SetCursor.upperBound endOf m range.start)
    let it ← trimLast range (eraseContained range it.before it.rest)
    some (true, (it.emplace endOf (range, v)).all)

/-- The loop of `DeleteOverlapsAndEmplace`: what the callback is called with, and what is left. -/
def deleteLoop (range : AddressRange) : List (AddressRange × V) → List (AddressRange × V) × List (AddressRange × V)
  | [] => ([], [])
  | e :: rest =>
    if e.1.start < range.end_ then
      let (called, left) := deleteLoop range rest
      (e :: called, left)
    else ([], e :: rest)

/-- `DeleteOverlapsAndEmplace`, with its result and the entries that the callback is called with. -/
def deleteOverlapsAndEmplace (m : AddressRangeMap V) (range : AddressRange) (v : V) :
    Bool × List (AddressRange × V) × AddressRangeMap V :=
  if range.empty then (false, [], m)
  else
    let it := SetCursor.upperBound endOf m range.start
    let (called, left) := deleteLoop range it.rest
    (true, called, (SetCursor.emplace endOf (range, v) ⟨it.before, left⟩).all)

end AddressRangeMap

end LynxTrace.TraceProcessor
