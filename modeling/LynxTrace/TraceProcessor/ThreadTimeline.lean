import LynxTrace.TraceProcessor.ThreadStateTracker
import Mathlib.Data.List.Induction
import Mathlib.Tactic.SplitIfs

/-!
# TraceProcessor.ThreadTimeline — the rows of a thread over a run of a `ThreadStateTracker`

A row is told from the others by its number.  Closing a row and setting its reason keep when it starts, its thread and
its state (`SameKeys`); only a new row can follow the last row of a thread.
-/

namespace LynxTrace.TraceProcessor.ThreadStateTracker

/-! ### Rows of a thread -/

/-- The row is the last one of the thread. -/
def IsLast (rows : List ThreadStateRow) (utid i : ℕ) : Prop :=
  (∃ row, rows[i]? = some row ∧ row.utid = utid) ∧ ∀ k row, i < k → rows[k]? = some row → row.utid ≠ utid

/-- The row `j` is the next one of the thread after the row `i`. -/
def Next (rows : List ThreadStateRow) (utid i j : ℕ) : Prop :=
  i < j ∧ (∃ row, rows[i]? = some row ∧ row.utid = utid) ∧ (∃ row, rows[j]? = some row ∧ row.utid = utid) ∧
    ∀ k row, i < k → k < j → rows[k]? = some row → row.utid ≠ utid

/-- The row is the last one of the thread in which it is blocked, and the thread has not been running since. -/
def LastBlocked (rows : List ThreadStateRow) (utid i : ℕ) : Prop :=
  (∃ row, rows[i]? = some row ∧ row.utid = utid ∧ isBlocked row.state = true) ∧
    ∀ k row, i < k → rows[k]? = some row → row.utid = utid → isRunnable row.state = true

/-- What closing a row or setting its reason keeps. -/
def key (row : ThreadStateRow) : ℤ × ℕ × String := (row.ts, row.utid, row.state)

def SameKeys (rows rows' : List ThreadStateRow) : Prop := rows'.map key = rows.map key

section Rows

variable {rows rows' : List ThreadStateRow} {new : ThreadStateRow} {utid i j : ℕ} {row : ThreadStateRow}

theorem getElem?_concat_cases {k : ℕ} (hk : (rows ++ [new])[k]? = some row) :
    (k < rows.length ∧ rows[k]? = some row) ∨ (k = rows.length ∧ row = new) := by
  rcases Nat.lt_or_ge k rows.length with hlt | hge
  · rw [List.getElem?_append_left hlt] at hk
    exact Or.inl ⟨hlt, hk⟩
  · rw [List.getElem?_append_right hge, List.getElem?_singleton] at hk
    split at hk
    · cases hk
      exact Or.inr ⟨by omega, rfl⟩
    · cases hk

theorem lt_length_of_getElem? {k : ℕ} (hk : rows[k]? = some row) : k < rows.length :=
  (List.getElem?_eq_some_iff.mp hk).1

theorem IsLast.unique (hi : IsLast rows utid i) (hj : IsLast rows utid j) : i = j := by
  obtain ⟨⟨row, hrow, hutid⟩, hlater⟩ := hi
  obtain ⟨⟨row', hrow', hutid'⟩, hlater'⟩ := hj
  rcases Nat.lt_trichotomy i j with hlt | heq | hgt
  · exact absurd hutid' (hlater j row' hlt hrow')
  · exact heq
  · exact absurd hutid (hlater' i row hgt hrow)

theorem isLast_new (hutid : new.utid = utid) : IsLast (rows ++ [new]) utid rows.length := by
  refine ⟨⟨new, List.getElem?_concat_length, hutid⟩, fun k row hk hrow => ?_⟩
  rcases getElem?_concat_cases hrow with ⟨hlt, -⟩ | ⟨heq, -⟩
  · omega
  · omega

theorem IsLast.concat (hlast : IsLast rows utid i) (hne : new.utid ≠ utid) : IsLast (rows ++ [new]) utid i := by
  obtain ⟨⟨row, hrow, hutid⟩, hlater⟩ := hlast
  refine ⟨⟨row, ?_, hutid⟩, fun k row' hk hrow' => ?_⟩
  · rw [List.getElem?_append_left (lt_length_of_getElem? hrow)]
    exact hrow
  · rcases getElem?_concat_cases hrow' with ⟨-, hold⟩ | ⟨-, rfl⟩
    · exact hlater k row' hk hold
    · exact hne

/-- The next row is there already, or is the new one after the last one of its thread. -/
theorem Next.concat_cases (hnext : Next (rows ++ [new]) utid i j) :
    Next rows utid i j ∨ (j = rows.length ∧ new.utid = utid ∧ IsLast rows utid i) := by
  obtain ⟨hlt, ⟨row, hrow, hutid⟩, ⟨row', hrow', hutid'⟩, hbetween⟩ := hnext
  have hold : ∀ {k r}, rows[k]? = some r → (rows ++ [new])[k]? = some r := fun hk => by
    rw [List.getElem?_append_left (lt_length_of_getElem? hk)]
    exact hk
  rcases getElem?_concat_cases hrow' with ⟨hj, hrow'⟩ | ⟨rfl, rfl⟩
  · rcases getElem?_concat_cases hrow with ⟨-, hrow⟩ | ⟨hi, -⟩
    · exact Or.inl ⟨hlt, ⟨row, hrow, hutid⟩, ⟨row', hrow', hutid'⟩, fun k r hik hkj hk => hbetween k r hik hkj (hold hk)⟩
    · omega
  · rcases getElem?_concat_cases hrow with ⟨-, hrow⟩ | ⟨hi, -⟩
    · exact Or.inr ⟨rfl, hutid', ⟨row, hrow, hutid⟩, fun k r hik hk =>
        hbetween k r hik (lt_length_of_getElem? hk) (hold hk)⟩
    · omega

theorem LastBlocked.concat (hblocked : LastBlocked rows utid i)
    (hnew : new.utid = utid → isRunnable new.state = true) : LastBlocked (rows ++ [new]) utid i := by
  obtain ⟨⟨row, hrow, hutid, hstate⟩, hlater⟩ := hblocked
  refine ⟨⟨row, ?_, hutid, hstate⟩, fun k row' hk hrow' => ?_⟩
  · rw [List.getElem?_append_left (lt_length_of_getElem? hrow)]
    exact hrow
  · rcases getElem?_concat_cases hrow' with ⟨-, hold⟩ | ⟨-, rfl⟩
    · exact hlater k row' hk hold
    · exact hnew

theorem lastBlocked_new (hutid : new.utid = utid) (hstate : isBlocked new.state = true) :
    LastBlocked (rows ++ [new]) utid rows.length := by
  refine ⟨⟨new, List.getElem?_concat_length, hutid, hstate⟩, fun k row hk hrow => ?_⟩
  rcases getElem?_concat_cases hrow with ⟨hlt, -⟩ | ⟨heq, -⟩
  · omega
  · omega

/-! ### Rows with the same keys -/

section

variable (h : SameKeys rows rows')

include h

theorem SameKeys.symm : SameKeys rows' rows := Eq.symm h

theorem SameKeys.length : rows'.length = rows.length := by
  rw [← List.length_map (f := key), h, List.length_map]

theorem SameKeys.get {k : ℕ} (hk : rows'[k]? = some row) : ∃ old, rows[k]? = some old ∧ key old = key row := by
  have hmap : (rows.map key)[k]? = some (key row) := by
    rw [← show rows'.map key = rows.map key from h, List.getElem?_map, hk]
    rfl
  rw [List.getElem?_map] at hmap
  exact Option.map_eq_some_iff.mp hmap

theorem SameKeys.mem (hrow : row ∈ rows') : ∃ old ∈ rows, key old = key row := by
  obtain ⟨k, hk⟩ := List.mem_iff_getElem?.mp hrow
  obtain ⟨old, hold, hkey⟩ := h.get hk
  exact ⟨old, List.mem_of_getElem? hold, hkey⟩

theorem SameKeys.sorted (hsorted : rows.Pairwise fun row row' => row.ts ≤ row'.ts) :
    rows'.Pairwise fun row row' => row.ts ≤ row'.ts := by
  have hkeys : (rows.map key).Pairwise fun k k' => k.1 ≤ k'.1 := List.pairwise_map.mpr hsorted
  rw [← show rows'.map key = rows.map key from h] at hkeys
  exact (List.pairwise_map (f := key) (R := fun k k' => k.1 ≤ k'.1)).mp hkeys

theorem SameKeys.isLast (hlast : IsLast rows utid i) : IsLast rows' utid i := by
  obtain ⟨⟨row, hrow, hutid⟩, hlater⟩ := hlast
  obtain ⟨row', hrow', hkey⟩ := h.symm.get hrow
  refine ⟨⟨row', hrow', ?_⟩, fun k r hk hr => ?_⟩
  · rw [← hutid]
    exact congrArg (fun x => x.2.1) hkey
  · obtain ⟨old, hold, hkey'⟩ := h.get hr
    have hsame : old.utid = r.utid := congrArg (fun x => x.2.1) hkey'
    exact hsame ▸ hlater k old hk hold

theorem SameKeys.next (hnext : Next rows utid i j) : Next rows' utid i j := by
  obtain ⟨hlt, ⟨row, hrow, hutid⟩, ⟨next, hnext, hutid'⟩, hbetween⟩ := hnext
  obtain ⟨row', hrow', hkey⟩ := h.symm.get hrow
  obtain ⟨next', hnext', hkey'⟩ := h.symm.get hnext
  refine ⟨hlt, ⟨row', hrow', ?_⟩, ⟨next', hnext', ?_⟩, fun k r hik hkj hr => ?_⟩
  · rw [← hutid]
    exact congrArg (fun x => x.2.1) hkey
  · rw [← hutid']
    exact congrArg (fun x => x.2.1) hkey'
  · obtain ⟨old, hold, hkey''⟩ := h.get hr
    have hsame : old.utid = r.utid := congrArg (fun x => x.2.1) hkey''
    exact hsame ▸ hbetween k old hik hkj hold

theorem SameKeys.lastBlocked (hblocked : LastBlocked rows utid i) : LastBlocked rows' utid i := by
  obtain ⟨⟨row, hrow, hutid, hstate⟩, hlater⟩ := hblocked
  obtain ⟨row', hrow', hkey⟩ := h.symm.get hrow
  have hutid' : row'.utid = row.utid := congrArg (fun x => x.2.1) hkey
  have hstate' : row'.state = row.state := congrArg (fun x => x.2.2) hkey
  refine ⟨⟨row', hrow', hutid'.trans hutid, hstate' ▸ hstate⟩, fun k r hk hr hr' => ?_⟩
  obtain ⟨old, hold, hkey'⟩ := h.get hr
  have hutid'' : old.utid = r.utid := congrArg (fun x => x.2.1) hkey'
  have hstate'' : old.state = r.state := congrArg (fun x => x.2.2) hkey'
  exact hstate'' ▸ hlater k old hk hold (hutid''.trans hr')

end

/-- A row changed where its key does not show it. -/
theorem sameKeys_modify {f : ThreadStateRow → ThreadStateRow} (hf : ∀ row, key (f row) = key row) (i : ℕ) :
    SameKeys rows (rows.modify i f) := by
  apply List.ext_getElem?
  intro k
  rw [List.getElem?_map, List.getElem?_map, List.getElem?_modify]
  cases rows[k]? with
  | none => rfl
  | some row =>
    by_cases hk : i = k
    · exact congrArg some ((congrArg key (if_pos hk)).trans (hf row))
    · exact congrArg some (congrArg key (if_neg hk))

end Rows

/-! ### The invariant -/

/-- What holds of the tracker after events at `times`; `Lost i j` are the rows left open when the row `j` came. -/
structure Timeline (swapperUtid : ℕ) (Lost : ℕ → ℕ → Prop) (times : List ℤ) (s : ThreadStateTracker) : Prop where
  last : ∀ utid related, s.prevRowNumbersForThread utid = some related → IsLast s.rows utid related.lastRow
  absent : ∀ utid, s.prevRowNumbersForThread utid = none → ∀ row ∈ s.rows, row.utid ≠ utid
  blocked : ∀ utid related i, s.prevRowNumbersForThread utid = some related → related.lastBlockedRow = some i →
    LastBlocked s.rows utid i
  swapper : s.prevRowNumbersForThread swapperUtid = none
  sorted : s.rows.Pairwise fun row row' => row.ts ≤ row'.ts
  past : ∀ row ∈ s.rows, row.ts ∈ times
  lastDur : ∀ utid i row, IsLast s.rows utid i → s.rows[i]? = some row → row.dur = -1
  nextDur : ∀ utid i j row row', Next s.rows utid i j → s.rows[i]? = some row → s.rows[j]? = some row' →
    row.dur = wrapTs (row'.ts - row.ts) ∨ (row.dur = -1 ∧ Lost i j)

section Invariant

variable {swapperUtid : ℕ} {getOrCreateCpu : ℕ → ℕ} {Lost Lost' : ℕ → ℕ → Prop} {times times' : List ℤ}
  {s s' : ThreadStateTracker} {utid : ℕ}

theorem timeline_init : Timeline swapperUtid Lost [] init where
  last := nofun
  absent := nofun
  blocked := nofun
  swapper := rfl
  sorted := List.Pairwise.nil
  past := nofun
  lastDur := fun _ _ _ _ hi => absurd hi nofun
  nextDur := fun _ _ _ _ _ _ hi => absurd hi nofun

theorem Timeline.mono (ht : Timeline swapperUtid Lost times s) (hlost : ∀ i j, Lost i j → Lost' i j)
    (htimes : times ⊆ times') : Timeline swapperUtid Lost' times' s where
  last := ht.last
  absent := ht.absent
  blocked := ht.blocked
  swapper := ht.swapper
  sorted := ht.sorted
  past := fun row hrow => htimes (ht.past row hrow)
  lastDur := ht.lastDur
  nextDur := by
    intro utid i j row row' hnext hi hj
    rcases ht.nextDur utid i j row row' hnext hi hj with hdur | ⟨hdur, hij⟩
    · exact Or.inl hdur
    · exact Or.inr ⟨hdur, hlost i j hij⟩

/-- Rows changed where neither their keys nor their durations show it. -/
theorem Timeline.retouch (ht : Timeline swapperUtid Lost times s) (hkeys : SameKeys s.rows s'.rows)
    (hdurs : ∀ (i : ℕ) row row', s.rows[i]? = some row → s'.rows[i]? = some row' → row'.dur = row.dur)
    (hprev : s'.prevRowNumbersForThread = s.prevRowNumbersForThread) : Timeline swapperUtid Lost times s' where
  last := by
    intro utid related hrelated
    exact hkeys.isLast (ht.last utid related (hprev ▸ hrelated))
  absent := by
    intro utid hnone row hrow
    obtain ⟨old, hold, hkey⟩ := hkeys.mem hrow
    have hutid : old.utid = row.utid := congrArg (fun x => x.2.1) hkey
    exact hutid ▸ ht.absent utid (hprev ▸ hnone) old hold
  blocked := by
    intro utid related i hrelated hi
    exact hkeys.lastBlocked (ht.blocked utid related i (hprev ▸ hrelated) hi)
  swapper := hprev ▸ ht.swapper
  sorted := hkeys.sorted ht.sorted
  past := by
    intro row hrow
    obtain ⟨old, hold, hkey⟩ := hkeys.mem hrow
    have hts : old.ts = row.ts := congrArg (fun x => x.1) hkey
    exact hts ▸ ht.past old hold
  lastDur := by
    intro utid i row hlast hi
    obtain ⟨old, hold, -⟩ := hkeys.get hi
    rw [hdurs i old row hold hi]
    exact ht.lastDur utid i old (hkeys.symm.isLast hlast) hold
  nextDur := by
    intro utid i j row row' hnext hi hj
    obtain ⟨old, hold, hkey⟩ := hkeys.get hi
    obtain ⟨old', hold', hkey'⟩ := hkeys.get hj
    have hts : old.ts = row.ts := congrArg (fun x => x.1) hkey
    have hts' : old'.ts = row'.ts := congrArg (fun x => x.1) hkey'
    rw [hdurs i old row hold hi, ← hts, ← hts']
    exact ht.nextDur utid i j old old' (hkeys.symm.next hnext) hold hold'

/-! ### A new state of a thread -/

/-- What closing the last row of a thread does to the rows. -/
structure ClosedAt (s s' : ThreadStateTracker) (endTs : ℤ) (utid : ℕ) (dataLoss : Bool) : Prop where
  keys : SameKeys s.rows s'.rows
  prev : s'.prevRowNumbersForThread = s.prevRowNumbersForThread
  others : ∀ (i : ℕ) row row', (∀ related, s.prevRowNumbersForThread utid = some related → i ≠ related.lastRow) →
    s.rows[i]? = some row → s'.rows[i]? = some row' → row'.dur = row.dur
  closed : ∀ related row row', s.prevRowNumbersForThread utid = some related → s.rows[related.lastRow]? = some row →
    s'.rows[related.lastRow]? = some row' →
      row'.dur = if dataLoss then row.dur else wrapTs (endTs - row.ts)

theorem closePendingState_spec (s : ThreadStateTracker) (endTs : ℤ) (utid : ℕ) (dataLoss : Bool) :
    ClosedAt s (s.closePendingState endTs utid dataLoss) endTs utid dataLoss := by
  unfold closePendingState
  cases hprev : s.prevRowNumbersForThread utid with
  | none =>
    refine ⟨rfl, rfl, fun i row row' _ hi hi' => ?_, fun related row row' hrelated => ?_⟩
    · rw [hi, Option.some_inj] at hi'
      rw [hi']
    · rw [hprev] at hrelated
      cases hrelated
  | some related =>
    cases dataLoss with
    | true =>
      refine ⟨rfl, rfl, fun i row row' _ hi hi' => ?_, fun related' row row' _ hi hi' => ?_⟩
      · rw [show s.rows[i]? = some row' from hi', Option.some_inj] at hi
        rw [hi]
      · rw [show s.rows[related'.lastRow]? = some row' from hi', Option.some_inj] at hi
        rw [hi]
        rfl
    | false =>
      have hkey : ∀ row : ThreadStateRow, key { row with dur := wrapTs (endTs - row.ts) } = key row := fun _ => rfl
      refine ⟨sameKeys_modify hkey related.lastRow, rfl, fun i row row' hne hi hi' => ?_,
        fun related' row row' hrelated hi hi' => ?_⟩
      · replace hi' : (s.rows.modify related.lastRow _)[i]? = some row' := hi'
        rw [List.getElem?_modify_ne _ _ (hne related hprev).symm, hi, Option.some_inj] at hi'
        rw [hi']
      · obtain rfl : related = related' := Option.some_inj.mp (hprev.symm.trans hrelated)
        replace hi' : (s.rows.modify related.lastRow _)[related.lastRow]? = some row' := hi'
        rw [List.getElem?_modify_eq, hi] at hi'
        cases hi'
        rfl

/-- What opening a state does. -/
structure OpenedAt (s s' : ThreadStateTracker) (ts : ℤ) (utid : ℕ) (state : String) (new : ThreadStateRow) : Prop where
  rows : s'.rows = s.rows ++ [new]
  prev : s'.prevRowNumbersForThread = Function.update s.prevRowNumbersForThread utid
    (some (relate (s.prevRowNumbersForThread utid) state s.rows.length))
  ts : new.ts = ts
  dur : new.dur = -1
  utid : new.utid = utid
  state : new.state = state

theorem addOpenState_spec (swapperUtid : ℕ) (getOrCreateCpu : ℕ → ℕ) (s : ThreadStateTracker) (ts : ℤ) {utid : ℕ}
    (state : String) (cpu wakerUtid commonFlags : Option ℕ) (hutid : utid ≠ swapperUtid) :
    ∃ new, OpenedAt s (addOpenState swapperUtid getOrCreateCpu s ts utid state cpu wakerUtid commonFlags) ts utid state
      new := by
  unfold addOpenState
  rw [if_neg hutid]
  exact ⟨_, rfl, rfl, rfl, rfl, rfl, rfl⟩

theorem relate_lastRow (related : Option RelatedRows) (state : String) (rowNum : ℕ) :
    (relate related state rowNum).lastRow = rowNum := by
  unfold relate
  split_ifs <;> rfl

/-- The last blocked row is the new one, or an earlier one that a runnable state follows. -/
theorem relate_lastBlockedRow {related : Option RelatedRows} {state : String} {rowNum i : ℕ}
    (hi : (relate related state rowNum).lastBlockedRow = some i) :
    (isBlocked state = true ∧ i = rowNum) ∨
      (isRunnable state = true ∧ ∃ old, related = some old ∧ old.lastBlockedRow = some i) := by
  unfold relate at hi
  split_ifs at hi with hrunning hblocked
  · exact Or.inl ⟨hblocked, (Option.some_inj.mp hi).symm⟩
  · right
    refine ⟨?_, ?_⟩
    · rw [isBlocked, Bool.not_eq_true', Bool.not_eq_false, Bool.or_eq_true] at hblocked
      exact hblocked.resolve_right hrunning
    · cases related with
      | none => cases hi
      | some old => exact ⟨old, rfl, hi⟩

end Invariant

section Push

variable {swapperUtid : ℕ} {Lost : ℕ → ℕ → Prop} {times : List ℤ} {s closed s' : ThreadStateTracker} {ts : ℤ}
  {utid : ℕ} {state : String} {dataLoss : Bool} {new : ThreadStateRow}

section

variable (ht : Timeline swapperUtid Lost times s)

include ht

theorem Timeline.push_last (hc : ClosedAt s closed ts utid dataLoss) (ho : OpenedAt closed s' ts utid state new)
    (utid' : ℕ) (related : RelatedRows) (hrelated : s'.prevRowNumbersForThread utid' = some related) :
    IsLast s'.rows utid' related.lastRow := by
  rw [ho.prev] at hrelated
  rw [ho.rows]
  by_cases hutid : utid' = utid
  · rw [hutid, Function.update_self, Option.some_inj] at hrelated
    rw [hutid, ← hrelated, relate_lastRow]
    exact isLast_new ho.utid
  · rw [Function.update_of_ne hutid, hc.prev] at hrelated
    refine (hc.keys.isLast (ht.last utid' related hrelated)).concat ?_
    rw [ho.utid]
    exact fun heq => hutid heq.symm

theorem Timeline.push_blocked (hc : ClosedAt s closed ts utid dataLoss) (ho : OpenedAt closed s' ts utid state new)
    (utid' : ℕ) (related : RelatedRows) (i : ℕ) (hrelated : s'.prevRowNumbersForThread utid' = some related)
    (hi : related.lastBlockedRow = some i) : LastBlocked s'.rows utid' i := by
  rw [ho.prev] at hrelated
  rw [ho.rows]
  by_cases hutid : utid' = utid
  · rw [hutid, Function.update_self, Option.some_inj] at hrelated
    rw [← hrelated] at hi
    rw [hutid]
    rcases relate_lastBlockedRow hi with ⟨hblocked, rfl⟩ | ⟨hrunnable, old, hold, hi⟩
    · exact lastBlocked_new ho.utid (ho.state ▸ hblocked)
    · rw [hc.prev] at hold
      exact (hc.keys.lastBlocked (ht.blocked utid old i hold hi)).concat fun _ => ho.state ▸ hrunnable
  · rw [Function.update_of_ne hutid, hc.prev] at hrelated
    refine (hc.keys.lastBlocked (ht.blocked utid' related i hrelated hi)).concat fun heq => ?_
    exact absurd (heq.symm.trans ho.utid) hutid

theorem Timeline.push_absent (hc : ClosedAt s closed ts utid dataLoss) (ho : OpenedAt closed s' ts utid state new)
    (utid' : ℕ) (hnone : s'.prevRowNumbersForThread utid' = none) : ∀ row ∈ s'.rows, row.utid ≠ utid' := by
  intro row hrow
  rw [ho.prev] at hnone
  by_cases hutid : utid' = utid
  · rw [hutid, Function.update_self] at hnone
    cases hnone
  · rw [Function.update_of_ne hutid, hc.prev] at hnone
    rw [ho.rows] at hrow
    rcases List.mem_append.mp hrow with hold | hnew
    · obtain ⟨old, hold, hkey⟩ := hc.keys.mem hold
      have hsame : old.utid = row.utid := congrArg (fun x => x.2.1) hkey
      exact hsame ▸ ht.absent utid' hnone old hold
    · rw [List.mem_singleton.mp hnew, ho.utid]
      exact fun heq => hutid heq.symm

/-- The last row of a thread, before the push. -/
theorem Timeline.related_of_isLast {utid' i : ℕ} (hlast : IsLast s.rows utid' i) :
    ∃ related, s.prevRowNumbersForThread utid' = some related ∧ related.lastRow = i := by
  cases hprev : s.prevRowNumbersForThread utid' with
  | none =>
    obtain ⟨⟨row, hrow, hutid⟩, -⟩ := hlast
    exact absurd hutid (ht.absent utid' hprev row (List.mem_of_getElem? hrow))
  | some related => exact ⟨related, rfl, (ht.last utid' related hprev).unique hlast⟩

/-- A row that is not the last one of the thread keeps its duration. -/
theorem Timeline.push_dur (hc : ClosedAt s closed ts utid dataLoss) {i : ℕ} {row row' : ThreadStateRow}
    (hnot : ¬ IsLast s.rows utid i) (hi : s.rows[i]? = some row) (hi' : closed.rows[i]? = some row') :
    row'.dur = row.dur := by
  refine hc.others i row row' (fun related hrelated heq => hnot ?_) hi hi'
  exact heq ▸ ht.last utid related hrelated

theorem Timeline.push_lastDur (hc : ClosedAt s closed ts utid dataLoss) (ho : OpenedAt closed s' ts utid state new)
    (utid' i : ℕ) (row : ThreadStateRow) (hlast : IsLast s'.rows utid' i) (hi : s'.rows[i]? = some row) :
    row.dur = -1 := by
  rw [ho.rows] at hlast hi
  rcases getElem?_concat_cases hi with ⟨hlt, hi⟩ | ⟨-, rfl⟩
  · obtain ⟨⟨row', hrow', hutid'⟩, hlater⟩ := hlast
    rw [List.getElem?_append_left hlt, hi, Option.some_inj] at hrow'
    -- the new row is a later one of its own thread
    have hne : utid' ≠ utid := fun heq =>
      hlater closed.rows.length new hlt List.getElem?_concat_length (ho.utid.trans heq.symm)
    have hlast' : IsLast closed.rows utid' i := by
      refine ⟨⟨row, hi, hrow' ▸ hutid'⟩, fun k r hk hr => hlater k r hk ?_⟩
      rw [List.getElem?_append_left (lt_length_of_getElem? hr)]
      exact hr
    obtain ⟨old, hold, hkey⟩ := hc.keys.get hi
    have hlastOld : IsLast s.rows utid' i := hc.keys.symm.isLast hlast'
    rw [ht.push_dur hc (fun hown => ?_) hold hi]
    · exact ht.lastDur utid' i old hlastOld hold
    · obtain ⟨⟨old', hold', hutid⟩, -⟩ := hown
      obtain ⟨⟨old'', hold'', hutid''⟩, -⟩ := hlastOld
      rw [hold', Option.some_inj] at hold''
      exact hne (hutid''.symm.trans (hold'' ▸ hutid))
  · exact ho.dur

theorem Timeline.push_nextDur (hc : ClosedAt s closed ts utid dataLoss) (ho : OpenedAt closed s' ts utid state new)
    (hlost : dataLoss = true → ∀ i, IsLast s.rows utid i → Lost i s.rows.length) (utid' i j : ℕ)
    (row row' : ThreadStateRow) (hnext : Next s'.rows utid' i j) (hi : s'.rows[i]? = some row)
    (hj : s'.rows[j]? = some row') : row.dur = wrapTs (row'.ts - row.ts) ∨ (row.dur = -1 ∧ Lost i j) := by
  rw [ho.rows] at hnext hi hj
  rcases hnext.concat_cases with hold | ⟨rfl, hutid', hlast⟩
  · -- both rows were there, and the first is not the last of its thread
    obtain ⟨hlt, ⟨r, hr, hrutid⟩, ⟨r', hr', hrutid'⟩, -⟩ := id hold
    rw [List.getElem?_append_left (lt_length_of_getElem? hr)] at hi
    rw [List.getElem?_append_left (lt_length_of_getElem? hr')] at hj
    obtain ⟨old, hiOld, hkey⟩ := hc.keys.get hi
    obtain ⟨old', hjOld, hkey'⟩ := hc.keys.get hj
    have hts : old.ts = row.ts := congrArg (fun x => x.1) hkey
    have hts' : old'.ts = row'.ts := congrArg (fun x => x.1) hkey'
    have hnextOld : Next s.rows utid' i j := hc.keys.symm.next hold
    rw [ht.push_dur hc (fun hown => ?_) hiOld hi, ← hts, ← hts']
    · exact ht.nextDur utid' i j old old' hnextOld hiOld hjOld
    · obtain ⟨⟨o, ho, houtid⟩, hlater⟩ := hown
      obtain ⟨-, ⟨o', ho', houtid'⟩, ⟨n, hn, hnutid⟩, -⟩ := hnextOld
      rw [ho, Option.some_inj] at ho'
      have hsame : utid' = utid := houtid'.symm.trans (ho' ▸ houtid)
      exact hlater j n hlt hn (hnutid.trans hsame)
  · obtain rfl : utid = utid' := ho.utid.symm.trans hutid'
    obtain ⟨⟨r, hr, -⟩, -⟩ := id hlast
    rw [List.getElem?_append_left (lt_length_of_getElem? hr)] at hi
    rw [List.getElem?_concat_length, Option.some_inj] at hj
    have hlastOld : IsLast s.rows utid i := hc.keys.symm.isLast hlast
    obtain ⟨related, hrelated, rfl⟩ := ht.related_of_isLast hlastOld
    obtain ⟨old, hiOld, hkey⟩ := hc.keys.get hi
    have hts : old.ts = row.ts := congrArg (fun x => x.1) hkey
    have hdur := hc.closed related old row hrelated hiOld hi
    cases dataLoss with
    | false =>
      left
      rw [hdur, ← hj, ho.ts, ← hts]
      rfl
    | true =>
      right
      refine ⟨hdur.trans (ht.lastDur utid related.lastRow old hlastOld hiOld), ?_⟩
      rw [hc.keys.length]
      exact hlost rfl related.lastRow hlastOld

/-- A thread goes on to another state: its last row is closed, unless data is lost, and another one opened. -/
theorem Timeline.push (hc : ClosedAt s closed ts utid dataLoss) (ho : OpenedAt closed s' ts utid state new)
    (hts : ∀ t ∈ times, t ≤ ts) (hutid : utid ≠ swapperUtid)
    (hlost : dataLoss = true → ∀ i, IsLast s.rows utid i → Lost i s.rows.length) :
    Timeline swapperUtid Lost (times ++ [ts]) s' where
  last := ht.push_last hc ho
  absent := ht.push_absent hc ho
  blocked := ht.push_blocked hc ho
  swapper := by
    rw [ho.prev, Function.update_of_ne hutid.symm, hc.prev]
    exact ht.swapper
  sorted := by
    rw [ho.rows]
    refine List.pairwise_append.mpr ⟨?_, List.pairwise_singleton _ _, fun row hrow row' hrow' => ?_⟩
    · exact hc.keys.sorted ht.sorted
    · obtain ⟨old, hold, hkey⟩ := hc.keys.mem hrow
      have hold' : old.ts = row.ts := congrArg (fun x => x.1) hkey
      rw [List.mem_singleton.mp hrow', ho.ts, ← hold']
      exact hts _ (ht.past old hold)
  past := by
    intro row hrow
    rw [ho.rows] at hrow
    rcases List.mem_append.mp hrow with hrow | hrow
    · obtain ⟨old, hold, hkey⟩ := hc.keys.mem hrow
      have hold' : old.ts = row.ts := congrArg (fun x => x.1) hkey
      exact List.mem_append_left _ (hold' ▸ ht.past old hold)
    · rw [List.mem_singleton.mp hrow, ho.ts]
      exact List.mem_append_right _ List.mem_cons_self
  lastDur := ht.push_lastDur hc ho
  nextDur := ht.push_nextDur hc ho hlost

end

end Push

end LynxTrace.TraceProcessor.ThreadStateTracker
