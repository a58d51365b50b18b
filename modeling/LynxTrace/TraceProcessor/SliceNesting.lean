import LynxTrace.TraceProcessor.SliceTracker

/-!
# TraceProcessor.SliceNesting — how the slices of one track nest

`StepOk` is what one call promises: `MaybeCloseStack` pops the slices that it decided to close and no others, and a
slice that starts gets an open slice as its parent.  It holds in the runs whose calls are all `Clean`
(`CleanRun.stepOk`): the loop meets no slice to close below a running slice that it has kept (`popsOther`, since
`StackPop` removes the back of the stack), an instant does not start on an ended slice of no length (`endedInstant`),
and no duration overflows to the pending one (`spansInt64`).

`Nested` is the invariant of the runs; `Walk` is the one of the loop.
-/

namespace LynxTrace.TraceProcessor.SliceTracker

/-- The row of a slice that is on the stack. -/
def sliceAt (s : SliceTracker) (row : ℕ) : Slice :=
  s.slices[row]?.getD { ts := 0, dur := kPendingDuration, category := none, name := none }

/-! ### Runs and what a call promises -/

/-- The tracker, and the slices whose `End` has been delivered. -/
structure History where
  tracker : SliceTracker := {}
  ended : List ℕ := []

section Property

variable (bounds : TraceBounds) (translate : Option String → Option String)

def History.after (h : History) (call : Call) : History :=
  let result := step bounds translate h.tracker call
  match call with
  | .endSlice _ _ _ => ⟨result.2, h.ended ++ result.1.toList⟩
  | .beginSlice _ _ _ | .scopedSlice _ _ _ _ => ⟨result.2, h.ended⟩

/-- The time and the duration with which a call reaches `MaybeCloseStack`. -/
def Call.closing : Call → Option (ℤ × ℤ)
  | .beginSlice timestamp _ _ =>
    if timestamp < bounds.startTs ∨ bounds.endTs < timestamp then none else some (timestamp, kPendingDuration)
  | .scopedSlice timestamp _ _ duration =>
    if duration < 0 ∨ timestamp < bounds.startTs ∨ bounds.endTs < timestamp then none else some (timestamp, duration)
  | .endSlice timestamp _ _ => some (timestamp, kPendingDuration)

/-- The slice that a call starts. -/
def History.started (h : History) (call : Call) : Option ℕ :=
  match call with
  | .endSlice _ _ _ => none
  | .beginSlice _ _ _ | .scopedSlice _ _ _ _ => (step bounds translate h.tracker call).1

/-- The ancestors of a slice, from its parent on. -/
inductive Ancestors (slices : List Slice) : Option ℕ → List ℕ → Prop
  | nil : Ancestors slices none []
  | cons {row : ℕ} {x : Slice} {rest : List ℕ} : slices[row]? = some x → Ancestors slices x.parentId rest →
      Ancestors slices (some row) (row :: rest)

/-- The interval of a slice contains a time: it has no end yet, or the time is not after its end. -/
def Contains (x : Slice) (time : ℤ) : Prop := x.ts ≤ time ∧ (x.pending ∨ time ≤ x.endTs)

/-- The stack without the slices that `MaybeCloseStack` decides to close. -/
def undecided (s : SliceTracker) (newTs newDur : ℤ) : List ℕ :=
  s.stack.filter fun row => row ∉ (s.maybeCloseStack newTs newDur).decided

/-- A slice starts at a time inside the slices that stay on the stack: its parent is the innermost of them and has not
been ended, all its ancestors contain its start, and its depth is their number. -/
def StartsIn (t : SliceTracker) (ended remaining : List ℕ) (row : ℕ) (time : ℤ) : Prop :=
  ∃ x ancestors, t.slices[row]? = some x ∧ x.ts = time ∧ x.parentId = remaining.getLast? ∧
    Ancestors t.slices x.parentId ancestors ∧ x.depth = ancestors.length ∧
    (∀ a ∈ ancestors, ∃ y, t.slices[a]? = some y ∧ Contains y x.ts) ∧
    ∀ parent, x.parentId = some parent → parent ∉ ended

/-- What one call promises. -/
structure StepOk (h : History) (call : Call) : Prop where
  /-- The slices that were decided are popped, and only these. -/
  pops : ∀ newTs newDur, call.closing bounds = some (newTs, newDur) →
    (h.tracker.maybeCloseStack newTs newDur).tracker.stack = h.tracker.undecided newTs newDur
  /-- A slice that starts is nested in what was not decided. -/
  nests : ∀ row, h.started bounds translate call = some row →
    ∃ newDur, call.closing bounds = some (call.timestamp, newDur) ∧
      StartsIn (h.after bounds translate call).tracker h.ended (h.tracker.undecided call.timestamp newDur) row
        call.timestamp

end Property

/-! ### Clean runs -/

/-- The loop of `MaybeCloseStack` closes a slice while a running one that it has kept is above it, with no slice
without an end in between.  The slices are from the top. -/
def popsOther (newTs newDur : ℤ) : Bool → Bool → List Slice → Bool
  | _, _, [] => false
  | kept, incompleteDescendent, x :: below =>
    if x.pending then popsOther newTs newDur kept true below
    else if x.jsprofile && incompleteDescendent then popsOther newTs newDur kept true below
    else if incompleteDescendent then
      if newTs ≤ x.endTs then popsOther newTs newDur kept true below else popsOther newTs newDur false false below
    else if x.closes newTs newDur then kept || popsOther newTs newDur kept false below
    else if x.overlapsEnd newTs newDur then false
    else popsOther newTs newDur true false below

/-- The innermost slice that an instant does not close has ended at the time where it started, which is the instant's
time. -/
def endedInstant (h : History) (newTs newDur : ℤ) : Bool :=
  newDur = 0 && (h.tracker.stack.reverse.find? fun row =>
    (h.tracker.sliceAt row).pending || !(h.tracker.sliceAt row).closes newTs newDur).any fun row =>
      row ∈ h.ended && (h.tracker.sliceAt row).dur = 0 && (h.tracker.sliceAt row).ts = newTs

/-- A slice on the stack began so long ago that its duration as an `int64_t` is `kPendingDuration`. -/
def spansInt64 (s : SliceTracker) (newTs : ℤ) : Bool :=
  s.stack.any fun row => newTs - (s.sliceAt row).ts = 2 ^ 64 - 1

def Clean (bounds : TraceBounds) (h : History) (call : Call) : Prop :=
  ∀ newTs newDur, call.closing bounds = some (newTs, newDur) →
    popsOther newTs newDur false false (h.tracker.stack.map h.tracker.sliceAt).reverse = false ∧
    endedInstant h newTs newDur = false ∧ spansInt64 h.tracker newTs = false

def InInt64 (x : ℤ) : Prop := -2 ^ 63 ≤ x ∧ x < 2 ^ 63

instance (x : ℤ) : Decidable (InInt64 x) := inferInstanceAs (Decidable (_ ∧ _))

/-- The runs of clean calls at times that do not decrease. -/
inductive CleanRun (bounds : TraceBounds) (translate : Option String → Option String) : ℤ → History → Prop
  | start (first : ℤ) : CleanRun bounds translate first {}
  | call {last : ℤ} {h : History} {call : Call} : CleanRun bounds translate last h → last ≤ call.timestamp →
      InInt64 call.timestamp → Clean bounds h call →
      CleanRun bounds translate call.timestamp (h.after bounds translate call)

/-! ### Durations -/

theorem int64_eq {x : ℤ} (h : InInt64 x) : int64 x = x := by
  unfold int64 InInt64 Int.bmod at *
  dsimp only
  split <;> omega

/-- A slice that ends at a time has that time as its end. -/
theorem endTs_until (x : Slice) {time : ℤ} (h : InInt64 time) :
    ({ x with dur := int64 (time - x.ts) } : Slice).endTs = time := by
  have hsum : int64 (x.ts + int64 (time - x.ts)) = int64 time := by
    unfold int64
    rw [Int.add_bmod_bmod, show x.ts + (time - x.ts) = time by omega]
  exact hsum.trans (int64_eq h)

theorem pending_until (x : Slice) {time : ℤ} (hlt : time < 2 ^ 63) (hts : -2 ^ 63 ≤ x.ts) (hle : x.ts ≤ time)
    (hspan : time - x.ts ≠ 2 ^ 64 - 1) :
    ({ x with dur := int64 (time - x.ts) } : Slice).pending = false := by
  have hdur : int64 (time - x.ts) ≠ kPendingDuration := by
    unfold int64 Int.bmod kPendingDuration
    dsimp only
    split <;> omega
  simpa [Slice.pending] using hdur

/-! ### Rows -/

section Rows

variable {s : SliceTracker} {row : ℕ}

theorem sliceAt_of_lt (h : row < s.slices.length) : s.slices[row]? = some (s.sliceAt row) := by
  simp [sliceAt, List.getElem?_eq_getElem h]

@[simp] theorem stack_setDur (s : SliceTracker) (row : ℕ) (dur : ℤ) : (s.setDur row dur).stack = s.stack := rfl

@[simp] theorem length_slices_setDur (s : SliceTracker) (row : ℕ) (dur : ℤ) :
    (s.setDur row dur).slices.length = s.slices.length := by
  simp [setDur]

theorem sliceAt_setDur_self (h : row < s.slices.length) (dur : ℤ) :
    (s.setDur row dur).sliceAt row = { s.sliceAt row with dur := dur } := by
  simp [sliceAt, setDur, List.getElem?_eq_getElem h]

theorem sliceAt_setDur_of_ne {other : ℕ} (h : other ≠ row) (dur : ℤ) :
    (s.setDur row dur).sliceAt other = s.sliceAt other := by
  simp [sliceAt, setDur, h.symm]

@[simp] theorem sliceAt_stackPop (s : SliceTracker) (row : ℕ) : s.stackPop.sliceAt row = s.sliceAt row := rfl

@[simp] theorem slices_stackPop (s : SliceTracker) : s.stackPop.slices = s.slices := rfl

@[simp] theorem stack_stackPop (s : SliceTracker) : s.stackPop.stack = s.stack.dropLast := rfl

/-- Truncation pops the slices above and changes no others. -/
theorem truncate_spec (endTs : ℤ) (i n : ℕ) : ∀ s : SliceTracker, s.stack.length = i + n + 1 →
    (truncate endTs i n s).stack = s.stack.take (i + 1) ∧
      (truncate endTs i n s).slices.length = s.slices.length ∧
      ∀ row, row ∉ s.stack.drop (i + 1) → (truncate endTs i n s).sliceAt row = s.sliceAt row := by
  induction n with
  | zero =>
    intro s h
    refine ⟨?_, rfl, fun _ _ => rfl⟩
    rw [List.take_of_length_le (by omega)]
    rfl
  | succ n ih =>
    intro s h
    have htop : i + n + 1 < s.stack.length := by omega
    obtain ⟨hstack, hlength, hrows⟩ :=
      ih (s.setDur s.stack[i + n + 1] (int64 (endTs - (s.slices[s.stack[i + n + 1]]?.map Slice.ts).getD 0))).stackPop
        (by simp; omega)
    rw [truncate, List.getElem?_eq_getElem htop]
    dsimp only
    have hpopped : s.stack.dropLast = s.stack.take (i + n + 1) := by rw [List.dropLast_eq_take, h]; rfl
    refine ⟨?_, by simpa using hlength, ?_⟩
    · rw [hstack, stack_stackPop, stack_setDur, hpopped, List.take_take, Nat.min_eq_left (by omega)]
    · intro row hrow
      rw [hrows row, sliceAt_stackPop, sliceAt_setDur_of_ne]
      · rintro rfl
        exact hrow (List.mem_drop_iff_getElem.mpr ⟨n, by omega, by congr 1; omega⟩)
      · rw [stack_stackPop, stack_setDur, hpopped, List.drop_take]
        exact fun hmem => hrow (List.mem_of_mem_take hmem)

end Rows

/-! ### The loop of `MaybeCloseStack` -/

/-- A later state of a slice on the stack: as before, or with an end that was moved to the time of the new event. -/
def Extended (newTs : ℤ) (x y : Slice) : Prop :=
  y = x ∨ x.pending = false ∧ y = { x with dur := int64 (newTs - x.ts) }

/-- What holds of the stack of a tracker at some time, beside the numbering of levels. -/
structure Ordered (last : ℤ) (s : SliceTracker) : Prop where
  nodup : s.stack.Nodup
  rows : ∀ row ∈ s.stack, row < s.slices.length ∧ -2 ^ 63 ≤ (s.sliceAt row).ts ∧ (s.sliceAt row).ts ≤ last
  order : s.stack.Pairwise fun p q => Contains (s.sliceAt p) (s.sliceAt q).ts

/-- The loop of `MaybeCloseStack` from `s₀`, with the lowest `i` slices of the stack to go: it has left `m` slices. -/
structure Walk (s₀ : SliceTracker) (newTs newDur : ℤ) (i : ℕ) (kept incompleteDescendent : Bool) (m : ℕ)
    (s : SliceTracker) (decided : List ℕ) : Prop where
  stack : s.stack = s₀.stack.take m
  le : i ≤ m
  le_length : m ≤ s₀.stack.length
  decided : ∀ row, row ∈ decided ↔ row ∈ s₀.stack.drop m
  kept : kept = false → incompleteDescendent = false → m = i
  incomplete : incompleteDescendent = true → i < m
  length : s.slices.length = s₀.slices.length
  below : ∀ row ∈ s₀.stack.take i, s.sliceAt row = s₀.sliceAt row
  extended : ∀ row ∈ s₀.stack.take m, Extended newTs (s₀.sliceAt row) (s.sliceAt row)
  contains : ∀ row ∈ (s₀.stack.take m).drop i, (s.sliceAt row).pending ∨ newTs ≤ (s.sliceAt row).endTs
  top : i < m → ∀ row, (s₀.stack.take m).getLast? = some row →
    (s₀.sliceAt row).pending ∨ (s₀.sliceAt row).closes newTs newDur = false
  popped : (∀ row ∈ s₀.stack.drop m, (s₀.sliceAt row).pending = false ∧ (s₀.sliceAt row).closes newTs newDur = true) ∨
    ∃ row ∈ s₀.stack.drop m, (s₀.sliceAt row).ts < newTs

section Loop

variable {bounds : TraceBounds} {s₀ s : SliceTracker} {last newTs newDur : ℤ} {i m : ℕ} {kept inc : Bool}
  {decided : List ℕ}

theorem Walk.start (s₀ : SliceTracker) (newTs newDur : ℤ) :
    Walk s₀ newTs newDur s₀.stack.length false false s₀.stack.length s₀ [] where
  stack := by simp
  le := Nat.le_refl _
  le_length := Nat.le_refl _
  decided := by simp
  kept _ _ := rfl
  incomplete := by simp
  length := rfl
  below _ _ := rfl
  extended _ _ := .inl rfl
  contains := by simp
  top h := absurd h (Nat.lt_irrefl _)
  popped := .inl (by simp)

/-- The next slice stays on the stack. -/
theorem Walk.keep (h : Walk s₀ newTs newDur (i + 1) kept inc m s decided) (hnodup : s₀.stack.Nodup) {row : ℕ}
    (hrow : s₀.stack[i]? = some row) {s' : SliceTracker} {kept' inc' : Bool} (hflags : (kept' || inc') = true)
    (hstack : s'.stack = s.stack) (hlength : s'.slices.length = s.slices.length)
    (hothers : ∀ other, other ≠ row → s'.sliceAt other = s.sliceAt other)
    (hextended : Extended newTs (s₀.sliceAt row) (s'.sliceAt row))
    (hcontains : (s'.sliceAt row).pending ∨ newTs ≤ (s'.sliceAt row).endTs)
    (htop : m = i + 1 → (s₀.sliceAt row).pending ∨ (s₀.sliceAt row).closes newTs newDur = false) :
    Walk s₀ newTs newDur i kept' inc' m s' decided where
  stack := hstack.trans h.stack
  le := Nat.le_of_succ_le h.le
  le_length := h.le_length
  decided := h.decided
  kept hkept hinc := by simp [hkept, hinc] at hflags
  incomplete _ := h.le
  length := hlength.trans h.length
  below other hother := by
    have htake : s₀.stack.take (i + 1) = s₀.stack.take i ++ [row] := by rw [List.take_add_one, hrow]; rfl
    have hne : other ≠ row := by
      have hnodup' : (s₀.stack.take i ++ [row]).Nodup := htake ▸ hnodup.sublist (List.take_sublist _ _)
      rintro rfl
      exact (List.nodup_append.mp hnodup').2.2 other hother other (by simp) rfl
    rw [hothers other hne, h.below other (htake ▸ List.mem_append_left _ hother)]
  extended other hother := by
    by_cases hne : other = row
    · exact hne ▸ hextended
    · exact hothers other hne ▸ h.extended other hother
  contains other hother := by
    by_cases hne : other = row
    · exact hne ▸ hcontains
    · have hget : (s₀.stack.take m)[i]? = some row := by rw [List.getElem?_take_of_lt h.le, hrow]
      rw [List.drop_eq_getElem?_toList_append, hget] at hother
      rw [hothers other hne]
      exact h.contains other ((List.mem_cons.mp hother).resolve_left hne)
  top hlt other hother := by
    rcases Nat.eq_or_lt_of_le h.le with heq | hgt
    · have hlast : (s₀.stack.take m).getLast? = some row := by
        rw [← heq, List.take_add_one, hrow]
        simp
      obtain rfl : row = other := Option.some_inj.mp (hlast.symm.trans hother)
      exact htop heq.symm
    · exact h.top hgt other hother
  popped := h.popped

/-- The next slice is the back of the stack and closes. -/
theorem Walk.pop (h : Walk s₀ newTs newDur (i + 1) false false m s decided) {row : ℕ} (hrow : s₀.stack[i]? = some row)
    (hpending : (s₀.sliceAt row).pending = false) (hcloses : (s₀.sliceAt row).closes newTs newDur = true) :
    Walk s₀ newTs newDur i false false i s.stackPop (decided ++ [row]) := by
  obtain rfl := h.kept rfl rfl
  have hle : i + 1 ≤ s₀.stack.length := h.le_length
  have hdrop : s₀.stack.drop i = row :: s₀.stack.drop (i + 1) := by
    rw [List.drop_eq_getElem?_toList_append, hrow]
    rfl
  have hmem {other : ℕ} (hother : other ∈ s₀.stack.take i) : other ∈ s₀.stack.take (i + 1) :=
    (List.take_subset_take_left _ (Nat.le_succ i)) hother
  exact {
    stack := by
      rw [stack_stackPop, h.stack, List.dropLast_eq_take, List.length_take, List.take_take]
      congr 1
      omega
    le := Nat.le_refl _
    le_length := Nat.le_of_succ_le hle
    decided := fun other => by
      rw [hdrop, List.mem_append, h.decided, List.mem_singleton, List.mem_cons]
      exact Or.comm
    kept := fun _ _ => rfl
    incomplete := by simp
    length := h.length
    below := fun other hother => h.below other (hmem hother)
    extended := fun other hother => h.extended other (hmem hother)
    contains := fun other hother => by simp at hother
    top := fun hlt => absurd hlt (Nat.lt_irrefl _)
    popped := by
      rw [hdrop]
      rcases h.popped with hall | ⟨other, hother, hlt⟩
      · exact .inl (List.forall_mem_cons.mpr ⟨⟨hpending, hcloses⟩, hall⟩)
      · exact .inr ⟨other, List.mem_cons_of_mem _ hother, hlt⟩ }

/-- The next slice ended before the new event, under slices that have no end: all of them close. -/
theorem Walk.truncate (h : Walk s₀ newTs newDur (i + 1) kept true m s decided) (hs₀ : Ordered last s₀) {row : ℕ}
    (hrow : s₀.stack[i]? = some row) (hpending : (s₀.sliceAt row).pending = false)
    (hends : (s₀.sliceAt row).endTs < newTs) (endTs : ℤ) :
    Walk s₀ newTs newDur i false false i (truncate endTs i (s.stack.length - 1 - i) s).stackPop
      (decided ++ s.stack.drop i) := by
  have hlt : i + 1 < m := h.incomplete rfl
  have hm : m ≤ s₀.stack.length := h.le_length
  have hlength : s.stack.length = m := by rw [h.stack, List.length_take, Nat.min_eq_left hm]
  obtain ⟨hstack, hslices, hrows⟩ := truncate_spec endTs i (s.stack.length - 1 - i) s (by omega)
  have hkept {other : ℕ} (hother : other ∈ s₀.stack.take i) :
      (SliceTracker.truncate endTs i (s.stack.length - 1 - i) s).stackPop.sliceAt other = s.sliceAt other := by
    refine hrows other fun hmem => ?_
    rw [h.stack] at hmem
    have hdisjoint := hs₀.nodup
    rw [← List.take_append_drop (i + 1) s₀.stack, List.nodup_append] at hdisjoint
    refine hdisjoint.2.2 other ((List.take_subset_take_left _ (Nat.le_succ i)) hother) other ?_ rfl
    rw [List.drop_take] at hmem
    exact List.mem_of_mem_take hmem
  have hmem {other : ℕ} (hother : other ∈ s₀.stack.take i) : other ∈ s₀.stack.take (i + 1) ∧ other ∈ s₀.stack.take m :=
    ⟨List.take_subset_take_left _ (Nat.le_succ i) hother, List.take_subset_take_left _ (by omega) hother⟩
  exact {
    stack := by
      rw [stack_stackPop, hstack, h.stack, List.dropLast_eq_take, List.length_take, List.take_take, List.take_take,
        List.length_take]
      congr 1
      omega
    le := Nat.le_refl _
    le_length := by omega
    decided := fun other => by
      rw [List.mem_append, h.decided, h.stack, ← List.mem_append.trans Or.comm]
      have hsplit : s₀.stack.drop i = (s₀.stack.take m).drop i ++ s₀.stack.drop m := by
        conv => lhs; rw [← List.take_append_drop m s₀.stack]
        rw [List.drop_append_of_le_length (by simp; omega)]
      rw [hsplit]
    kept := fun _ _ => rfl
    incomplete := by simp
    length := hslices.trans h.length
    below := fun other hother => (hkept hother).trans (h.below other (hmem hother).1)
    extended := fun other hother => hkept hother ▸ h.extended other (hmem hother).2
    contains := fun other hother => by simp at hother
    top := fun hlt => absurd hlt (Nat.lt_irrefl _)
    popped := by
      have hcontains : Contains (s₀.sliceAt row) (s₀.sliceAt s₀.stack[i + 1]).ts := by
        have hi : i < s₀.stack.length := by omega
        have hget : s₀.stack[i] = row := by rwa [List.getElem?_eq_getElem hi, Option.some_inj] at hrow
        exact hget ▸ List.pairwise_iff_getElem.mp hs₀.order i (i + 1) hi (by omega) (Nat.lt_succ_self i)
      have hend := hcontains.2.resolve_left (by simp [hpending])
      exact .inr ⟨s₀.stack[i + 1], List.mem_drop_iff_getElem.mpr ⟨1, by omega, rfl⟩, Int.lt_of_le_of_lt hend hends⟩ }

/-- What the loop leaves in a clean walk: it goes on to the lowest slice, unless it drops the new one. -/
theorem closeLoop_spec (hs₀ : Ordered last s₀) (hrange : InInt64 newTs) : ∀ (i : ℕ) (kept inc : Bool) (m : ℕ)
    (s : SliceTracker) (decided : List ℕ), Walk s₀ newTs newDur i kept inc m s decided →
    popsOther newTs newDur kept inc ((s₀.stack.take i).map s₀.sliceAt).reverse = false →
    ∃ i' kept' inc' m', Walk s₀ newTs newDur i' kept' inc' m' (closeLoop newTs newDur i inc s decided).tracker
        (closeLoop newTs newDur i inc s decided).decided ∧
      ((closeLoop newTs newDur i inc s decided).ok = true → i' = 0) := by
  intro i
  induction i with
  | zero => exact fun kept inc m s decided h _ => ⟨0, kept, inc, m, h, fun _ => rfl⟩
  | succ i ih =>
    intro kept inc m s decided h hclean
    have hi : i < s₀.stack.length := Nat.lt_of_lt_of_le h.le h.le_length
    obtain ⟨row, hrow⟩ : ∃ row, s₀.stack[i]? = some row := ⟨_, List.getElem?_eq_getElem hi⟩
    have htake : s₀.stack.take (i + 1) = s₀.stack.take i ++ [row] := by rw [List.take_add_one, hrow]; rfl
    have hlt : row < s.slices.length := h.length ▸ (hs₀.rows row (List.mem_of_getElem? hrow)).1
    have hsame : s.sliceAt row = s₀.sliceAt row := h.below row (by simp [htake])
    have hget : (s.stack[i]?.bind fun row => s.slices[row]?.map fun x => (row, x)) = some (row, s₀.sliceAt row) := by
      rw [h.stack, List.getElem?_take_of_lt h.le, hrow, Option.bind_some, sliceAt_of_lt hlt, hsame]
      rfl
    rw [htake, List.map_append, List.reverse_append] at hclean
    generalize hx : s₀.sliceAt row = x at hget hsame hclean
    simp only [List.map_cons, List.map_nil, List.reverse_cons, List.reverse_nil, List.nil_append, List.cons_append, hx,
      popsOther] at hclean
    rw [closeLoop, hget]
    dsimp only
    -- a slice that stays as it is
    have hstay {inc' : Bool} (kept' : Bool) (hflags : (kept' || inc') = true) (hcontains : x.pending ∨ newTs ≤ x.endTs)
        (htop : m = i + 1 → x.pending ∨ x.closes newTs newDur = false) :
        Walk s₀ newTs newDur i kept' inc' m s decided :=
      h.keep hs₀.nodup hrow hflags rfl rfl (fun _ _ => rfl) (.inl (hsame.trans hx.symm)) (hsame ▸ hcontains) (hx ▸ htop)
    by_cases hpending : x.pending
    · rw [if_pos hpending] at hclean ⊢
      exact ih _ _ _ _ _ (hstay kept (by simp) (.inl hpending) fun _ => .inl hpending) hclean
    have hpending' : x.pending = false := by simpa using hpending
    rw [if_neg hpending] at hclean ⊢
    cases inc with
    | true =>
      have htop : ¬ m = i + 1 := Nat.ne_of_gt (h.incomplete rfl)
      by_cases hjs : (x.jsprofile && true) = true
      · rw [if_pos hjs] at hclean ⊢
        refine ih _ _ _ _ _ (h.keep hs₀.nodup hrow (by simp) rfl (by simp)
          (fun other hne => sliceAt_setDur_of_ne hne _) ?_ ?_ (fun heq => absurd heq htop)) hclean
        · rw [sliceAt_setDur_self hlt, hsame, hx]
          exact .inr ⟨hpending', rfl⟩
        · rw [sliceAt_setDur_self hlt, hsame, endTs_until x hrange]
          exact .inr (Int.le_refl _)
      rw [if_neg hjs, if_pos rfl] at hclean ⊢
      by_cases hends : newTs ≤ x.endTs
      · rw [if_pos hends] at hclean ⊢
        exact ih _ _ _ _ _ (hstay kept (by simp) (.inr hends) fun heq => absurd heq htop) hclean
      · rw [if_neg hends] at hclean ⊢
        exact ih _ _ _ _ _ (h.truncate hs₀ hrow (hx ▸ hpending') (hx ▸ Int.not_le.mp hends) x.endTs) hclean
    | false =>
      rw [if_neg (by simp), if_neg (by simp)] at hclean ⊢
      by_cases hcloses : x.closes newTs newDur
      · rw [if_pos hcloses] at hclean ⊢
        obtain ⟨rfl, hclean⟩ := Bool.or_eq_false_iff.mp hclean
        exact ih _ _ _ _ _ (h.pop hrow (hx ▸ hpending') (hx ▸ hcloses)) hclean
      rw [if_neg hcloses] at hclean ⊢
      have hcloses' : x.closes newTs newDur = false := by simpa using hcloses
      by_cases hoverlap : x.overlapsEnd newTs newDur
      · rw [if_pos hoverlap]
        exact ⟨i + 1, kept, false, m, h, nofun⟩
      · rw [if_neg hoverlap] at hclean ⊢
        refine ih _ _ _ _ _ (hstay true (by simp) (.inr ?_) fun _ => .inr hcloses') hclean
        simp only [Slice.closes, Bool.or_eq_false_iff, decide_eq_false_iff_not] at hcloses'
        exact Int.not_lt.mp hcloses'.1

theorem maybeCloseStack_spec (hs₀ : Ordered last s₀) (hrange : InInt64 newTs)
    (hclean : popsOther newTs newDur false false (s₀.stack.map s₀.sliceAt).reverse = false) :
    ∃ i kept inc m, Walk s₀ newTs newDur i kept inc m (s₀.maybeCloseStack newTs newDur).tracker
        (s₀.maybeCloseStack newTs newDur).decided ∧ ((s₀.maybeCloseStack newTs newDur).ok = true → i = 0) :=
  closeLoop_spec hs₀ hrange _ _ _ _ _ _ (Walk.start s₀ newTs newDur) (by rwa [List.take_length])

/-- What stays on the stack is what was not decided. -/
theorem Walk.stack_eq (h : Walk s₀ newTs newDur i kept inc m s decided) (hnodup : s₀.stack.Nodup) :
    s.stack = s₀.stack.filter (· ∉ decided) := by
  have hsplit : s₀.stack = s₀.stack.take m ++ s₀.stack.drop m := (List.take_append_drop m _).symm
  have hdisjoint : ∀ a ∈ s₀.stack.take m, a ∉ decided := by
    rw [hsplit, List.nodup_append] at hnodup
    exact fun a ha hdecided => hnodup.2.2 a ha a ((h.decided a).mp hdecided) rfl
  rw [h.stack]
  conv => rhs; rw [hsplit]
  rw [List.filter_append, List.filter_eq_self.mpr (by simpa using hdisjoint),
    List.filter_eq_nil_iff.mpr (by simpa using fun a ha => (h.decided a).mpr ha), List.append_nil]

end Loop

/-! ### The invariant of the runs -/

/-- The tracker is ordered, its slices are numbered by their levels, and a slice that has ended is over. -/
structure Nested (last : ℤ) (h : History) : Prop extends Ordered last h.tracker where
  levels : ∀ i row, h.tracker.stack[i]? = some row →
    (h.tracker.sliceAt row).depth = i ∧ (h.tracker.sliceAt row).parentId = (h.tracker.stack.take i).getLast?
  ended_lt : ∀ row ∈ h.ended, row < h.tracker.slices.length
  finished : ∀ row ∈ h.tracker.stack, row ∈ h.ended →
    (h.tracker.sliceAt row).pending = false ∧ (h.tracker.sliceAt row).endTs ≤ last

namespace Extended

variable {newTs : ℤ} {x y : Slice} (h : Extended newTs x y)
include h

theorem ts : y.ts = x.ts := by
  obtain rfl | ⟨-, rfl⟩ := h <;> rfl

theorem depth : y.depth = x.depth := by
  obtain rfl | ⟨-, rfl⟩ := h <;> rfl

theorem parentId : y.parentId = x.parentId := by
  obtain rfl | ⟨-, rfl⟩ := h <;> rfl

end Extended

section Invariant

variable {bounds : TraceBounds} {s s' : SliceTracker} {last newTs newDur : ℤ} {ended : List ℕ}

/-- What `MaybeCloseStack` leaves is nested at the time of the new event. -/
theorem Nested.close (h : Nested last ⟨s, ended⟩) (hlast : last ≤ newTs) (hrange : InInt64 newTs)
    (hspan : ∀ row ∈ s.stack, newTs - (s.sliceAt row).ts ≠ 2 ^ 64 - 1) {i m : ℕ} {kept inc : Bool} {decided : List ℕ}
    (hwalk : Walk s newTs newDur i kept inc m s' decided) : Nested newTs ⟨s', ended⟩ := by
  have hmem {row : ℕ} (hrow : row ∈ s'.stack) : row ∈ s.stack ∧ Extended newTs (s.sliceAt row) (s'.sliceAt row) := by
    rw [hwalk.stack] at hrow
    exact ⟨List.mem_of_mem_take hrow, hwalk.extended row hrow⟩
  have hle {row : ℕ} (hrow : row ∈ s'.stack) : (s'.sliceAt row).ts ≤ newTs :=
    (hmem hrow).2.ts ▸ Int.le_trans (h.rows row (hmem hrow).1).2.2 hlast
  exact {
    nodup := hwalk.stack ▸ h.nodup.sublist (List.take_sublist _ _)
    rows := fun row hrow =>
      ⟨hwalk.length ▸ (h.rows row (hmem hrow).1).1, (hmem hrow).2.ts ▸ (h.rows row (hmem hrow).1).2.1, hle hrow⟩
    order := by
      have horder : s'.stack.Pairwise fun p q => Contains (s.sliceAt p) (s.sliceAt q).ts :=
        hwalk.stack ▸ h.order.sublist (List.take_sublist _ _)
      refine horder.imp_of_mem fun {p q} hp hq hpq => ?_
      refine ⟨(hmem hp).2.ts ▸ (hmem hq).2.ts ▸ hpq.1, ?_⟩
      rcases (hmem hp).2 with hsame | ⟨-, hmoved⟩
      · rw [hsame, (hmem hq).2.ts]
        exact hpq.2
      · right
        rw [hmoved, endTs_until _ hrange]
        exact hle hq
    levels := fun k row hrow => by
      have hk : k < m := by
        have := (List.getElem?_eq_some_iff.mp hrow).1
        simp only [hwalk.stack, List.length_take] at this
        omega
      have hextended := (hmem (List.mem_of_getElem? hrow)).2
      rw [hextended.depth, hextended.parentId]
      simp only [hwalk.stack, List.getElem?_take_of_lt hk] at hrow ⊢
      rw [List.take_take, Nat.min_eq_left (Nat.le_of_lt hk)]
      exact h.levels k row hrow
    ended_lt := fun row hrow => hwalk.length ▸ h.ended_lt row hrow
    finished := fun row hrow hended => by
      obtain ⟨hstack, hextended⟩ := hmem hrow
      obtain ⟨hpending, hends⟩ := h.finished row hstack hended
      rcases hextended with hsame | ⟨-, hmoved⟩
      · dsimp only
        rw [hsame]
        exact ⟨hpending, Int.le_trans hends hlast⟩
      · have hrows := h.rows row hstack
        dsimp only at hrows ⊢
        rw [hmoved]
        exact ⟨pending_until _ hrange.2 hrows.2.1 (by omega) (hspan row hstack), Int.le_of_eq (endTs_until _ hrange)⟩ }

/-- The parent of a slice that starts is a slice whose `End` is yet to come. -/
theorem Nested.parent_not_mem_ended (h : Nested last ⟨s, ended⟩) (hlast : last ≤ newTs) (hrange : InInt64 newTs)
    {m : ℕ} {kept inc : Bool} {decided : List ℕ}
    (hwalk : Walk s newTs newDur 0 kept inc m s' decided) (hclean : endedInstant ⟨s, ended⟩ newTs newDur = false)
    {parent : ℕ} (hparent : s'.stack.getLast? = some parent) : parent ∉ ended := by
  intro hended
  rw [hwalk.stack] at hparent
  obtain ⟨init, hinit⟩ := List.getLast?_eq_some_iff.mp hparent
  have hsplit : s.stack = init ++ parent :: s.stack.drop m := by
    conv => lhs; rw [← List.take_append_drop m s.stack, hinit, List.append_assoc]
    rfl
  have hmem : parent ∈ s.stack := by rw [hsplit]; simp
  have hm : 0 < m := by
    rcases Nat.eq_zero_or_pos m with rfl | hpos
    · simp at hparent
    · exact hpos
  obtain ⟨hpending, hends⟩ := h.finished parent hmem hended
  have hrows := h.rows parent hmem
  dsimp only at hpending hends hrows
  have hopen := (hwalk.top hm parent hparent).resolve_left (by simp [hpending])
  -- it is an instant at the time of the new one
  have hinstant : (s.sliceAt parent).dur = 0 ∧ newDur = 0 ∧ (s.sliceAt parent).endTs = newTs := by
    simp only [Slice.closes, Bool.or_eq_false_iff, Bool.and_eq_false_iff, decide_eq_false_iff_not, Bool.not_eq_false',
      Bool.and_eq_true, decide_eq_true_eq] at hopen
    have heq : (s.sliceAt parent).endTs = newTs := by omega
    exact ⟨(hopen.2.resolve_left (absurd heq)).1, (hopen.2.resolve_left (absurd heq)).2, heq⟩
  obtain ⟨hdur, rfl, hend⟩ := hinstant
  have hts : (s.sliceAt parent).ts = newTs := by
    rw [← hend, Slice.endTs, hdur, Int.add_zero]
    exact (int64_eq ⟨hrows.2.1, by have := hrange.2; omega⟩).symm
  rcases hwalk.popped with hall | ⟨other, hother, hlt⟩
  · have hfind : (s.stack.reverse.find? fun row => (s.sliceAt row).pending || !(s.sliceAt row).closes newTs 0) =
        some parent := by
      rw [List.find?_eq_some_iff_append]
      refine ⟨by simp [hopen], (s.stack.drop m).reverse, init.reverse, ?_, ?_⟩
      · conv => lhs; rw [hsplit]
        simp
      · intro row hrow
        obtain ⟨hnot, hcloses⟩ := hall row (List.mem_reverse.mp hrow)
        simp [hnot, hcloses]
    simp [endedInstant, hfind, hended, hdur, hts] at hclean
  · have horder : (s.sliceAt parent).ts ≤ (s.sliceAt other).ts := by
      have hpairs := h.order
      dsimp only at hpairs
      rw [hsplit, List.pairwise_append, List.pairwise_cons] at hpairs
      exact (hpairs.2.1.1 other hother).1
    omega

/-- An inserted row that is not on the stack changes nothing. -/
theorem sliceAt_append {row : ℕ} (h : row < s.slices.length) (x : Slice) (stack : List ℕ) :
    sliceAt ⟨s.slices ++ [x], stack⟩ row = s.sliceAt row := by
  simp [sliceAt, List.getElem?_append_left h]

theorem sliceAt_append_self (slices : List Slice) (x : Slice) (stack : List ℕ) :
    sliceAt ⟨slices ++ [x], stack⟩ slices.length = x := by
  simp [sliceAt]

section

variable (h : Nested last ⟨s, ended⟩)

include h

theorem Nested.append (x : Slice) : Nested last ⟨⟨s.slices ++ [x], s.stack⟩, ended⟩ := by
  have hat {row : ℕ} (hrow : row ∈ s.stack) : sliceAt ⟨s.slices ++ [x], s.stack⟩ row = s.sliceAt row :=
    sliceAt_append (h.rows row hrow).1 x s.stack
  exact {
    nodup := h.nodup
    rows := fun row hrow => by
      obtain ⟨hlt, hts⟩ := h.rows row hrow
      dsimp only at hlt hts ⊢
      rw [hat hrow, List.length_append]
      exact ⟨Nat.lt_add_right _ hlt, hts⟩
    order := h.order.imp_of_mem fun hp hq hpq => by
      dsimp only at hpq ⊢
      rwa [hat hp, hat hq]
    levels := fun i row hrow => by
      dsimp only
      rw [hat (List.mem_of_getElem? hrow)]
      exact h.levels i row hrow
    ended_lt := fun row hrow => by
      rw [List.length_append]
      exact Nat.lt_add_right _ (h.ended_lt row hrow)
    finished := fun row hrow hended => by
      dsimp only
      rw [hat hrow]
      exact h.finished row hrow hended }

/-- A slice that starts in all the slices of the stack. -/
theorem Nested.push (hcontains : ∀ row ∈ s.stack, Contains (s.sliceAt row) last) (hstart : -2 ^ 63 ≤ last) {x : Slice}
    (hts : x.ts = last) (hdepth : x.depth = s.stack.length) (hparent : x.parentId = s.stack.getLast?) :
    Nested last ⟨⟨s.slices ++ [x], s.stack ++ [s.slices.length]⟩, ended⟩ := by
  have hat {row : ℕ} (hrow : row ∈ s.stack) :
      sliceAt ⟨s.slices ++ [x], s.stack ++ [s.slices.length]⟩ row = s.sliceAt row :=
    sliceAt_append (h.rows row hrow).1 x _
  have hself : sliceAt ⟨s.slices ++ [x], s.stack ++ [s.slices.length]⟩ s.slices.length = x := sliceAt_append_self _ x _
  exact {
    nodup := by
      refine List.nodup_append.mpr ⟨h.nodup, by simp, fun a ha b hb => ?_⟩
      rw [List.mem_singleton.mp hb]
      exact Nat.ne_of_lt (h.rows a ha).1
    rows := fun row hrow => by
      rcases List.mem_append.mp hrow with hold | hnew
      · obtain ⟨hlt, hrest⟩ := h.rows row hold
        dsimp only at hlt hrest ⊢
        rw [hat hold, List.length_append]
        exact ⟨Nat.lt_add_right _ hlt, hrest⟩
      · obtain rfl := List.mem_singleton.mp hnew
        dsimp only
        rw [hself, hts]
        exact ⟨by simp, hstart, Int.le_refl _⟩
    order := by
      refine List.pairwise_append.mpr ⟨?_, by simp, fun p hp q hq => ?_⟩
      · refine h.order.imp_of_mem fun hp hq hpq => ?_
        dsimp only at hpq ⊢
        rwa [hat hp, hat hq]
      · rw [List.mem_singleton.mp hq]
        dsimp only
        rw [hat hp, hself, hts]
        exact hcontains p hp
    levels := fun i row hrow => by
      rcases Nat.lt_or_ge i s.stack.length with hi | hi
      · simp only [List.getElem?_append_left hi, List.take_append_of_le_length (Nat.le_of_lt hi)] at hrow ⊢
        rw [hat (List.mem_of_getElem? hrow)]
        exact h.levels i row hrow
      · obtain ⟨hlt, hget⟩ := List.getElem?_eq_some_iff.mp hrow
        obtain rfl : i = s.stack.length := by simp at hlt; omega
        obtain rfl : s.slices.length = row := by simpa using hget
        dsimp only
        rw [hself, List.take_left']
        · exact ⟨hdepth, hparent⟩
        · rfl
    ended_lt := fun row hrow => by
      rw [List.length_append]
      exact Nat.lt_add_right _ (h.ended_lt row hrow)
    finished := fun row hrow hended => by
      rcases List.mem_append.mp hrow with hold | hnew
      · dsimp only
        rw [hat hold]
        exact h.finished row hold hended
      · obtain rfl := List.mem_singleton.mp hnew
        exact absurd (h.ended_lt _ hended) (Nat.lt_irrefl _) }

/-- The ancestors of a level of the stack are the slices below it. -/
theorem Nested.ancestors : ∀ i ≤ s.stack.length,
    Ancestors s.slices (s.stack.take i).getLast? (s.stack.take i).reverse := by
  intro i
  induction i with
  | zero => exact fun _ => .nil
  | succ i ih =>
    intro hi
    obtain ⟨row, hrow⟩ : ∃ row, s.stack[i]? = some row := ⟨_, List.getElem?_eq_getElem hi⟩
    have htake : s.stack.take (i + 1) = s.stack.take i ++ [row] := by rw [List.take_add_one, hrow]; rfl
    have hparent := (h.levels i row hrow).2
    dsimp only at hparent
    rw [htake, List.getLast?_concat, List.reverse_append]
    refine .cons (sliceAt_of_lt (h.rows row (List.mem_of_getElem? hrow)).1) ?_
    rw [hparent]
    exact ih (Nat.le_of_succ_le hi)

theorem Nested.stackPop : Nested last ⟨s.stackPop, ended⟩ where
  nodup := h.nodup.sublist (List.dropLast_sublist _)
  rows row hrow := h.rows row ((List.dropLast_sublist _).mem hrow)
  order := h.order.sublist (List.dropLast_sublist _)
  levels i row hrow := by
    have hi : i < s.stack.length - 1 := by simpa using (List.getElem?_eq_some_iff.mp hrow).1
    simp only [stack_stackPop, List.dropLast_eq_take, List.getElem?_take_of_lt hi, List.take_take,
      Nat.min_eq_left (Nat.le_of_lt hi)] at hrow ⊢
    exact h.levels i row hrow
  ended_lt := h.ended_lt
  finished row hrow := h.finished row ((List.dropLast_sublist _).mem hrow)

/-- A slice of the stack that ends now. -/
theorem Nested.setDur (hrange : InInt64 last) {row : ℕ} (hrow : row ∈ s.stack)
    (hspan : last - (s.sliceAt row).ts ≠ 2 ^ 64 - 1) :
    Nested last ⟨s.setDur row (int64 (last - (s.sliceAt row).ts)), ended ++ [row]⟩ := by
  obtain ⟨hlt, hstart, hle⟩ := h.rows row hrow
  dsimp only at hlt hstart hle
  have hself := sliceAt_setDur_self hlt (int64 (last - (s.sliceAt row).ts))
  have hends := endTs_until (s.sliceAt row) hrange
  have hextended (other : ℕ) :
      ((s.setDur row (int64 (last - (s.sliceAt row).ts))).sliceAt other = s.sliceAt other) ∨ other = row := by
    by_cases hne : other = row
    · exact .inr hne
    · exact .inl (sliceAt_setDur_of_ne hne _)
  have hts (other : ℕ) :
      ((s.setDur row (int64 (last - (s.sliceAt row).ts))).sliceAt other).ts = (s.sliceAt other).ts := by
    rcases hextended other with hsame | rfl
    · rw [hsame]
    · rw [hself]
  exact {
    nodup := h.nodup
    rows := fun other hother => by
      dsimp only
      rw [hts, length_slices_setDur]
      exact h.rows other hother
    order := h.order.imp_of_mem fun {p q} hp hq hpq => by
      refine ⟨by rw [hts, hts]; exact hpq.1, ?_⟩
      rcases hextended p with hsame | rfl
      · dsimp only
        rw [hsame, hts]
        exact hpq.2
      · right
        dsimp only
        rw [hself, hends, hts]
        exact (h.rows q hq).2.2
    levels := fun i other hother => by
      have hold := h.levels i other hother
      rcases hextended other with hsame | rfl
      · dsimp only
        rwa [hsame]
      · dsimp only
        rwa [hself]
    ended_lt := fun other hother => by
      rw [length_slices_setDur]
      rcases List.mem_append.mp hother with hold | hnew
      · exact h.ended_lt other hold
      · rwa [List.mem_singleton.mp hnew]
    finished := fun other hother hended => by
      dsimp only
      by_cases hne : other = row
      · rw [hne, hself]
        exact ⟨pending_until _ hrange.2 hstart hle hspan, Int.le_of_eq hends⟩
      · rw [sliceAt_setDur_of_ne hne]
        exact h.finished other hother ((List.mem_append.mp hended).resolve_right (by simpa using hne)) }

end

end Invariant

/-! ### Calls -/

section Calls

variable {bounds : TraceBounds} {translate : Option String → Option String} {s : SliceTracker} {h : History}
  {last newTs newDur : ℤ} {ended : List ℕ}

/-- The row that `StartSlice` inserts. -/
def newSlice (s : SliceTracker) (timestamp duration : ℤ) (category name : Option String) : Slice where
  ts := timestamp
  dur := duration
  category := category
  name := name
  depth := s.stack.length
  parentId := s.stack.getLast?

theorem modify_concat (slices : List Slice) (x : Slice) (f : Slice → Slice) :
    (slices ++ [x]).modify slices.length f = slices ++ [f x] := by
  induction slices with
  | nil => rfl
  | cons y slices ih => simpa using ih

/-- What `StartSlice` does within the bounds of the trace. -/
theorem startSlice_cases (hbounds : ¬ (newTs < bounds.startTs ∨ bounds.endTs < newTs)) (category name : Option String)
    {t : SliceTracker} (ht : (s.maybeCloseStack newTs newDur).tracker = t) :
    startSlice bounds s newTs newDur category name = (none, t) ∨
      (∃ x, startSlice bounds s newTs newDur category name = (none, ⟨t.slices ++ [x], t.stack⟩)) ∨
      (s.maybeCloseStack newTs newDur).ok = true ∧ startSlice bounds s newTs newDur category name =
        (some t.slices.length,
          ⟨t.slices ++ [t.newSlice newTs newDur category name], t.stack ++ [t.slices.length]⟩) := by
  subst ht
  unfold startSlice
  rw [if_neg hbounds]
  dsimp only
  cases hok : (s.maybeCloseStack newTs newDur).ok with
  | false => exact .inl rfl
  | true =>
    right
    rw [if_neg (by simp)]
    split
    · exact .inl ⟨_, rfl⟩
    · refine .inr ⟨rfl, ?_⟩
      rw [modify_concat]
      rfl

theorem ne_of_spansInt64 (h : spansInt64 s newTs = false) :
    ∀ row ∈ s.stack, newTs - (s.sliceAt row).ts ≠ 2 ^ 64 - 1 := by
  simpa [spansInt64] using h

/-- A slice that starts, in a clean state. -/
theorem startSlice_spec (hn : Nested last ⟨s, ended⟩) (hlast : last ≤ newTs)
    (hrange : InInt64 newTs) (hin : ¬ (newTs < bounds.startTs ∨ bounds.endTs < newTs))
    (hclean : popsOther newTs newDur false false (s.stack.map s.sliceAt).reverse = false ∧
      endedInstant ⟨s, ended⟩ newTs newDur = false ∧ spansInt64 s newTs = false) (category name : Option String) :
    Nested newTs ⟨(startSlice bounds s newTs newDur category name).2, ended⟩ ∧
      ∀ row, (startSlice bounds s newTs newDur category name).1 = some row →
        StartsIn (startSlice bounds s newTs newDur category name).2 ended (s.undecided newTs newDur) row newTs := by
  obtain ⟨i, kept, inc, m, hwalk, hdone⟩ := maybeCloseStack_spec hn.toOrdered hrange hclean.1
  have hstack := hwalk.stack_eq hn.nodup
  have hclosed := hn.close hlast hrange (ne_of_spansInt64 hclean.2.2) hwalk
  generalize ht : (s.maybeCloseStack newTs newDur).tracker = t at hwalk hstack hclosed
  rcases startSlice_cases hin category name ht with heq | ⟨x, heq⟩ | ⟨hok, heq⟩
  · rw [heq]
    exact ⟨hclosed, nofun⟩
  · rw [heq]
    exact ⟨hclosed.append x, nofun⟩
  · obtain rfl := hdone hok
    have hcontains : ∀ row ∈ t.stack, Contains (t.sliceAt row) newTs := fun row hrow =>
      ⟨(hclosed.rows row hrow).2.2, hwalk.contains row (by rwa [List.drop_zero, ← hwalk.stack])⟩
    have hpush := hclosed.push hcontains hrange.1 (x := t.newSlice newTs newDur category name) rfl rfl rfl
    rw [heq]
    refine ⟨hpush, fun row hrow => ?_⟩
    obtain rfl : t.slices.length = row := Option.some_inj.mp hrow
    have hancestors := hpush.ancestors t.stack.length (by simp)
    rw [List.take_left' rfl] at hancestors
    refine ⟨t.newSlice newTs newDur category name, t.stack.reverse, by simp, rfl, ?_, hancestors, by simp [newSlice],
      ?_, ?_⟩
    · exact congrArg List.getLast? hstack
    · intro a ha
      have hold := List.mem_reverse.mp ha
      refine ⟨t.sliceAt a, ?_, hcontains a hold⟩
      rw [List.getElem?_append_left (hclosed.rows a hold).1]
      exact sliceAt_of_lt (hclosed.rows a hold).1
    · exact fun parent hparent => hn.parent_not_mem_ended hlast hrange hwalk hclean.2.1 hparent

theorem matchingIncompleteSliceIndex_lt {category name : Option String} : ∀ {i idx : ℕ},
    s.matchingIncompleteSliceIndex category name i = some idx → idx < i
  | i + 1, idx, h => by
    unfold matchingIncompleteSliceIndex at h
    split at h
    · exact Option.some_inj.mp h ▸ Nat.lt_succ_self i
    · exact Nat.lt_succ_of_lt (matchingIncompleteSliceIndex_lt h)

/-- A slice that ends, in a clean state. -/
theorem completeSlice_spec (hn : Nested last ⟨s, ended⟩) (hlast : last ≤ newTs) (hrange : InInt64 newTs)
    (hclean : popsOther newTs kPendingDuration false false (s.stack.map s.sliceAt).reverse = false)
    (hspan : spansInt64 s newTs = false)
    (category name : Option String) :
    Nested newTs ⟨(completeSlice s newTs category name).2,
      ended ++ (completeSlice s newTs category name).1.toList⟩ := by
  obtain ⟨i, kept, inc, m, hwalk, -⟩ := maybeCloseStack_spec hn.toOrdered hrange hclean
  have hclosed := hn.close hlast hrange (ne_of_spansInt64 hspan) hwalk
  unfold completeSlice
  dsimp only
  generalize (s.maybeCloseStack newTs kPendingDuration).tracker = t at hwalk hclosed
  split
  · simpa using hclosed
  split
  · simpa using hclosed
  · next idx hidx =>
    have hlt := matchingIncompleteSliceIndex_lt hidx
    have hrow := hclosed.rows t.stack[idx] (List.getElem_mem hlt)
    have hget : (t.stack[idx]?.bind fun row => t.slices[row]?.map fun x => (row, x)) =
        some (t.stack[idx], t.sliceAt t.stack[idx]) := by
      rw [List.getElem?_eq_getElem hlt, Option.bind_some, sliceAt_of_lt hrow.1]
      rfl
    have hspan' : newTs - (t.sliceAt t.stack[idx]).ts ≠ 2 ^ 64 - 1 := by
      have hmem : t.stack[idx] ∈ s.stack.take m := hwalk.stack ▸ List.getElem_mem hlt
      rw [(hwalk.extended _ hmem).ts]
      exact ne_of_spansInt64 hspan _ (List.mem_of_mem_take hmem)
    have hended := hclosed.setDur hrange (List.getElem_mem hlt) hspan'
    rw [hget]
    dsimp only [Option.toList_some]
    split
    · exact hended.stackPop
    · exact hended

/-- A clean call keeps the invariant, and a slice that it starts is nested. -/
theorem Nested.after (hn : Nested last h) {call : Call} (hlast : last ≤ call.timestamp)
    (hrange : InInt64 call.timestamp) (hclean : Clean bounds h call) :
    Nested call.timestamp (h.after bounds translate call) ∧
      ∀ row, h.started bounds translate call = some row →
        ∃ newDur, call.closing bounds = some (call.timestamp, newDur) ∧
          StartsIn (h.after bounds translate call).tracker h.ended (h.tracker.undecided call.timestamp newDur) row
            call.timestamp := by
  -- a call that changes nothing
  have hkeep : Nested call.timestamp h := {
    nodup := hn.nodup
    rows := fun row hrow => (hn.rows row hrow).imp_right fun hts => ⟨hts.1, Int.le_trans hts.2 hlast⟩
    order := hn.order
    levels := hn.levels
    ended_lt := hn.ended_lt
    finished := fun row hrow hended => (hn.finished row hrow hended).imp_right fun hends => Int.le_trans hends hlast }
  cases call with
  | beginSlice timestamp category rawName =>
    by_cases hin : timestamp < bounds.startTs ∨ bounds.endTs < timestamp
    · have heq (category name) : startSlice bounds h.tracker timestamp kPendingDuration category name =
          (none, h.tracker) := if_pos hin
      simp only [History.after, History.started, step, heq]
      exact ⟨hkeep, nofun⟩
    · have hclosing :
          (Call.beginSlice timestamp category rawName).closing bounds = some (timestamp, kPendingDuration) :=
        if_neg hin
      obtain ⟨hnested, hstarts⟩ := startSlice_spec hn hlast hrange hin (hclean _ _ hclosing) category
        (translate rawName)
      exact ⟨hnested, fun row hrow => ⟨_, hclosing, hstarts row hrow⟩⟩
  | scopedSlice timestamp category rawName duration =>
    by_cases hdur : duration < 0
    · simp only [History.after, History.started, step, if_pos hdur]
      exact ⟨hkeep, nofun⟩
    by_cases hin : timestamp < bounds.startTs ∨ bounds.endTs < timestamp
    · have heq (category name) : startSlice bounds h.tracker timestamp duration category name = (none, h.tracker) :=
        if_pos hin
      simp only [History.after, History.started, step, if_neg hdur, heq]
      exact ⟨hkeep, nofun⟩
    · have hclosing :
          (Call.scopedSlice timestamp category rawName duration).closing bounds = some (timestamp, duration) :=
        if_neg (not_or.mpr ⟨hdur, hin⟩)
      obtain ⟨hnested, hstarts⟩ := startSlice_spec hn hlast hrange hin (hclean _ _ hclosing) category
        (translate rawName)
      simp only [History.after, History.started, step, if_neg hdur]
      exact ⟨hnested, fun row hrow => ⟨_, hclosing, hstarts row hrow⟩⟩
  | endSlice timestamp category rawName =>
    obtain ⟨hpops, -, hspan⟩ := hclean _ _ rfl
    exact ⟨completeSlice_spec hn hlast hrange hpops hspan category (translate rawName), nofun⟩

theorem CleanRun.nested (hrun : CleanRun bounds translate last h) : Nested last h := by
  induction hrun with
  | start first => exact ⟨⟨.nil, nofun, .nil⟩, nofun, nofun, nofun⟩
  | call _ hlast hrange hclean ih => exact (ih.after hlast hrange hclean).1

end Calls

end LynxTrace.TraceProcessor.SliceTracker
