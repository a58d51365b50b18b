import LynxTrace.TraceProcessor.AddressRange
import Mathlib.Data.Set.Basic

/-!
# TraceProcessor.AddressSets — an `AddressSet` is the set of addresses that its calls describe

* `beforeOf`, `afterOf` — what a range leaves of another one, below it and above it.
* `Canonical` — the ranges are sorted, disjoint, non-empty and never touch.
* `add_spec`, `remove_spec` — a call keeps the form and changes the members as it says.
* `runs_to_canonical_union_difference` — a sequence of calls.
* `runs_equal_iff` — what `operator==` says of two of them.
-/

namespace LynxTrace.TraceProcessor

/-! ### Pieces of a range -/

namespace AddressRange

/-- What is left of `x` below `range`. -/
def beforeOf (range x : AddressRange) : Option AddressRange :=
  if h : x.start < range.start then some ⟨x.start, min range.start x.end_, Nat.le_min.mpr ⟨h.le, x.start_le⟩⟩ else none

/-- What is left of `x` above `range`. -/
def afterOf (range x : AddressRange) : Option AddressRange :=
  if h : range.end_ < x.end_ then some ⟨max range.end_ x.start, x.end_, Nat.max_le.mpr ⟨h.le, x.start_le⟩⟩ else none

variable {range x y : AddressRange} {a : ℕ}

theorem contains_iff : x.contains a = true ↔ x.start ≤ a ∧ a < x.end_ := by
  simp [contains]

theorem empty_iff : x.empty = true ↔ x.end_ = x.start := by
  have := x.start_le
  simp only [empty, decide_eq_true_eq]
  omega

theorem not_empty_iff : x.empty = false ↔ x.start < x.end_ := by
  have := x.start_le
  rw [← Bool.not_eq_true, empty_iff]
  omega

theorem ext_iff' : x = y ↔ x.start = y.start ∧ x.end_ = y.end_ := by
  cases x
  cases y
  simp

theorem make_eq {s e : ℕ} (h : s ≤ e) : make s e = some ⟨s, e, h⟩ := dif_pos h

theorem beforeOf_of_end_le (hx : x.start < x.end_) (h : x.end_ ≤ range.start) : beforeOf range x = some x := by
  rw [beforeOf, dif_pos (Nat.lt_of_lt_of_le hx h), Option.some_inj, ext_iff']
  exact ⟨rfl, Nat.min_eq_right h⟩

theorem beforeOf_of_start_le (h : range.start ≤ x.start) : beforeOf range x = none := dif_neg (Nat.not_lt.mpr h)

theorem afterOf_of_end_le (h : x.end_ ≤ range.end_) : afterOf range x = none := dif_neg (Nat.not_lt.mpr h)

theorem afterOf_of_le_start (hx : x.start < x.end_) (h : range.end_ ≤ x.start) : afterOf range x = some x := by
  rw [afterOf, dif_pos (Nat.lt_of_le_of_lt h hx), Option.some_inj, ext_iff']
  exact ⟨Nat.max_eq_right h, rfl⟩

theorem beforeOf_eq_some (h : beforeOf range x = some y) :
    x.start < range.start ∧ y.start = x.start ∧ y.end_ = min range.start x.end_ := by
  unfold beforeOf at h
  split at h
  · rename_i hstart
    cases h
    exact ⟨hstart, rfl, rfl⟩
  · cases h

theorem afterOf_eq_some (h : afterOf range x = some y) :
    range.end_ < x.end_ ∧ y.start = max range.end_ x.start ∧ y.end_ = x.end_ := by
  unfold afterOf at h
  split at h
  · rename_i hend
    cases h
    exact ⟨hend, rfl, rfl⟩
  · cases h

/-- The piece below has the addresses of the range that are below. -/
theorem beforeOf_contains : (∃ y, beforeOf range x = some y ∧ y.contains a) ↔ x.contains a ∧ a < range.start := by
  constructor
  · rintro ⟨y, hy, ha⟩
    obtain ⟨-, hs, he⟩ := beforeOf_eq_some hy
    rw [contains_iff] at ha ⊢
    omega
  · rintro ⟨ha, hlt⟩
    rw [contains_iff] at ha
    refine ⟨_, dif_pos (Nat.lt_of_le_of_lt ha.1 hlt), contains_iff.mpr ⟨ha.1, ?_⟩⟩
    exact Nat.lt_min.mpr ⟨hlt, ha.2⟩

theorem afterOf_contains : (∃ y, afterOf range x = some y ∧ y.contains a) ↔ x.contains a ∧ range.end_ ≤ a := by
  constructor
  · rintro ⟨y, hy, ha⟩
    obtain ⟨-, hs, he⟩ := afterOf_eq_some hy
    rw [contains_iff] at ha ⊢
    omega
  · rintro ⟨ha, hle⟩
    rw [contains_iff] at ha
    refine ⟨_, dif_pos (Nat.lt_of_le_of_lt hle ha.2), contains_iff.mpr ⟨?_, ha.2⟩⟩
    exact Nat.max_le.mpr ⟨hle, ha.1⟩

end AddressRange

namespace AddressSet

open AddressRange SetCursor

/-- The address is in one of the ranges. -/
def Member (ranges : AddressSet) (a : ℕ) : Prop := ∃ r ∈ ranges, r.contains a = true

/-- The invariants of the class. -/
structure Canonical (ranges : AddressSet) : Prop where
  apart : ranges.Pairwise fun x y => x.end_ < y.start
  nonempty : ∀ x ∈ ranges, x.start < x.end_

variable {ranges l r : AddressSet} {range : AddressRange} {a : ℕ}

theorem Member.append : Member (l ++ r) a ↔ Member l a ∨ Member r a := by
  simp only [Member, List.mem_append, or_and_right, exists_or]

theorem Member.cons {x : AddressRange} : Member (x :: r) a ↔ x.contains a = true ∨ Member r a := by
  simp only [Member, List.mem_cons, or_and_right, exists_or, exists_eq_left]

theorem Canonical.sorted (h : Canonical ranges) : ranges.Pairwise fun x y => x.end_ < y.end_ :=
  h.apart.imp_of_mem fun _ hy hxy => Nat.lt_trans hxy (h.nonempty _ hy)

theorem Canonical.append (h : Canonical (l ++ r)) : Canonical l ∧ Canonical r ∧ ∀ x ∈ l, ∀ y ∈ r, x.end_ < y.start := by
  obtain ⟨hl, hr, hlr⟩ := List.pairwise_append.mp h.apart
  exact ⟨⟨hl, fun x hx => h.nonempty x (List.mem_append_left _ hx)⟩,
    ⟨hr, fun x hx => h.nonempty x (List.mem_append_right _ hx)⟩, hlr⟩

/-! ### `Add` -/

/-- What the loop of `Add` erases, and the bounds that it leaves. -/
structure Merged (range : AddressRange) (start end_ : ℕ) (erased : List AddressRange) (start' end' : ℕ) : Prop where
  start_le : start' ≤ start
  le_end : end_ ≤ end'
  start_le_erased : ∀ x ∈ erased, start' ≤ x.start
  erased_le_end : ∀ x ∈ erased, x.end_ ≤ end'
  start_from : start' = start ∨ ∃ x ∈ erased, start' = x.start
  end_from : end' = end_ ∨ ∃ x ∈ erased, end' = x.end_
  touches : ∀ x ∈ erased, x.start ≤ range.end_

/-- The loop erases the ranges that start by the end of the new one. -/
theorem addLoop_spec (range : AddressRange) : ∀ (l : AddressSet) (start end_ : ℕ), Canonical l →
    ∃ erased start' end' rest, addLoop range start end_ l = (start', end', rest) ∧ l = erased ++ rest ∧
      (∀ x ∈ rest, range.end_ < x.start) ∧ Merged range start end_ erased start' end'
  | [], start, end_, _ => ⟨[], start, end_, [], rfl, rfl, by simp,
      ⟨le_rfl, le_rfl, by simp, by simp, .inl rfl, .inl rfl, by simp⟩⟩
  | it :: l, start, end_, h => by
    obtain ⟨hit, hl⟩ := List.pairwise_cons.mp h.apart
    unfold addLoop
    by_cases htouch : it.start ≤ range.end_
    · rw [if_pos htouch]
      obtain ⟨erased, start', end', rest, hloop, hsplit, hrest, hmerged⟩ := addLoop_spec range l (min start it.start)
        (max end_ it.end_) ⟨hl, fun x hx => h.nonempty x (List.mem_cons_of_mem _ hx)⟩
      have hstart := Nat.le_min.mp hmerged.start_le
      have hend := Nat.max_le.mp hmerged.le_end
      refine ⟨it :: erased, start', end', rest, hloop, by rw [hsplit]; rfl, hrest, hstart.1, hend.1, ?_, ?_, ?_, ?_, ?_⟩
      · exact List.forall_mem_cons.mpr ⟨hstart.2, hmerged.start_le_erased⟩
      · exact List.forall_mem_cons.mpr ⟨hend.2, hmerged.erased_le_end⟩
      · rcases hmerged.start_from with hfrom | ⟨x, hx, hfrom⟩
        · rcases Nat.le_total start it.start with hle | hle
          · exact .inl (hfrom.trans (Nat.min_eq_left hle))
          · exact .inr ⟨it, List.mem_cons_self .., hfrom.trans (Nat.min_eq_right hle)⟩
        · exact .inr ⟨x, List.mem_cons_of_mem _ hx, hfrom⟩
      · rcases hmerged.end_from with hfrom | ⟨x, hx, hfrom⟩
        · rcases Nat.le_total it.end_ end_ with hle | hle
          · exact .inl (hfrom.trans (Nat.max_eq_left hle))
          · exact .inr ⟨it, List.mem_cons_self .., hfrom.trans (Nat.max_eq_right hle)⟩
        · exact .inr ⟨x, List.mem_cons_of_mem _ hx, hfrom⟩
      · exact List.forall_mem_cons.mpr ⟨htouch, hmerged.touches⟩
    · rw [if_neg htouch]
      have hrest : ∀ x ∈ it :: l, range.end_ < x.start := by
        refine List.forall_mem_cons.mpr ⟨Nat.lt_of_not_le htouch, fun x hx => ?_⟩
        exact Nat.lt_trans (Nat.lt_of_not_le htouch)
          (Nat.lt_trans (h.nonempty it (List.mem_cons_self ..)) (hit x hx))
      exact ⟨[], start, end_, it :: l, rfl, rfl, hrest, le_rfl, le_rfl, by simp, by simp, .inl rfl, .inl rfl, by simp⟩

/-- The merged range has the addresses of the new range and of the erased ones. -/
theorem Merged.contains {erased : List AddressRange} {merged : AddressRange}
    (h : Merged range range.start range.end_ erased merged.start merged.end_)
    (hlower : ∀ x ∈ erased, range.start ≤ x.end_) :
    merged.contains a = true ↔ range.contains a = true ∨ Member erased a := by
  simp only [Member, contains_iff]
  constructor
  · rintro ⟨hstart, hend⟩
    rcases Nat.lt_or_ge a range.start with hlow | hlow
    · -- below the new range: in the erased one that the start comes from
      rcases h.start_from with hfrom | ⟨x, hx, hfrom⟩
      · omega
      · exact .inr ⟨x, hx, hfrom ▸ hstart, Nat.lt_of_lt_of_le hlow (hlower x hx)⟩
    · rcases Nat.lt_or_ge a range.end_ with hhigh | hhigh
      · exact .inl ⟨hlow, hhigh⟩
      · rcases h.end_from with hfrom | ⟨x, hx, hfrom⟩
        · omega
        · exact .inr ⟨x, hx, Nat.le_trans (h.touches x hx) hhigh, hfrom ▸ hend⟩
  · have hs := h.start_le
    have he := h.le_end
    rintro (⟨hstart, hend⟩ | ⟨x, hx, hstart, hend⟩)
    · omega
    · exact ⟨Nat.le_trans (h.start_le_erased x hx) hstart, Nat.lt_of_lt_of_le hend (h.erased_le_end x hx)⟩

/-- `Add` keeps the form and adds the addresses of the range. -/
theorem add_spec (h : Canonical ranges) (range : AddressRange) :
    ∃ ranges', add ranges range = some ranges' ∧ Canonical ranges' ∧
      ∀ a, Member ranges' a ↔ Member ranges a ∨ range.contains a = true := by
  unfold add
  cases hempty : range.empty with
  | true =>
    refine ⟨ranges, if_pos rfl, h, fun a => ⟨.inl, fun hor => hor.elim id fun ha => ?_⟩⟩
    have heq := empty_iff.mp hempty
    have hin := contains_iff.mp ha
    omega
  | false =>
    have hrange := not_empty_iff.mp hempty
    rw [if_neg Bool.false_ne_true]
    obtain ⟨hsplit, hbefore, hlower⟩ := lowerBound_spec h.sorted range.start
    set c := SetCursor.lowerBound AddressRange.end_ ranges range.start with hc
    rw [hsplit] at h
    obtain ⟨hcb, hcr, hacross⟩ := h.append
    obtain ⟨erased, start', end', rest, hloop, hparts, hrest, hmerged⟩ :=
      addLoop_spec range c.rest range.start range.end_ hcr
    have hlt : start' < end' := by
      have := hmerged.start_le
      have := hmerged.le_end
      omega
    dsimp only
    rw [hloop, make_eq hlt.le]
    dsimp only [Option.bind_eq_bind, Option.bind_some]
    set merged : AddressRange := ⟨start', end', hlt.le⟩ with hmergedRange
    have hrestMem : ∀ x ∈ rest, x ∈ c.rest := fun x hx => hparts ▸ List.mem_append_right _ hx
    have herasedMem : ∀ x ∈ erased, x ∈ c.rest := fun x hx => hparts ▸ List.mem_append_left _ hx
    -- the merged range is apart from what is left on both sides
    have hleft : ∀ x ∈ c.before, x.end_ < start' := by
      intro x hx
      rcases hmerged.start_from with hfrom | ⟨y, hy, hfrom⟩
      · exact hfrom ▸ hbefore x hx
      · exact hfrom ▸ hacross x hx y (herasedMem y hy)
    have hright : ∀ x ∈ rest, end' < x.start := by
      intro x hx
      rcases hmerged.end_from with hfrom | ⟨y, hy, hfrom⟩
      · exact hfrom ▸ hrest x hx
      · rw [hfrom]
        exact (List.pairwise_append.mp (hparts ▸ hcr.apart)).2.2 y hy x hx
    have hbetween : SetCursor.Between AddressRange.end_ merged.end_ ⟨c.before, rest⟩ :=
      ⟨fun x hx => Nat.lt_trans (hleft x hx) hlt,
        fun x hx => Nat.lt_trans (hright x hx) (hcr.nonempty x (hrestMem x hx))⟩
    have hall : (SetCursor.emplace AddressRange.end_ merged ⟨c.before, rest⟩).all = c.before ++ merged :: rest := by
      rw [hbetween.emplace, SetCursor.all, List.append_assoc, List.singleton_append]
    rw [hall]
    refine ⟨_, rfl, ⟨List.pairwise_append.mpr ⟨hcb.apart, ?_, ?_⟩, ?_⟩, fun a => ?_⟩
    · exact List.pairwise_cons.mpr ⟨hright, (List.pairwise_append.mp (hparts ▸ hcr.apart)).2.1⟩
    · exact fun x hx => List.forall_mem_cons.mpr ⟨hleft x hx, fun y hy => hacross x hx y (hrestMem y hy)⟩
    · refine List.forall_mem_append.mpr ⟨hcb.nonempty, List.forall_mem_cons.mpr ⟨hlt, fun x hx => ?_⟩⟩
      exact hcr.nonempty x (hrestMem x hx)
    · have hmem := @Merged.contains range a erased merged hmerged fun x hx => hlower x (herasedMem x hx)
      have hold : Member ranges a ↔ Member c.before a ∨ Member erased a ∨ Member rest a := by
        rw [hsplit, Member.append, hparts, Member.append]
      rw [Member.append, Member.cons, hmem, hold]
      grind

/-! ### `Remove` -/

theorem filterMap_eq_self {α : Type*} {f : α → Option α} {l : List α} (h : ∀ x ∈ l, f x = some x) :
    l.filterMap f = l := by
  induction l with
  | nil => rfl
  | cons x l ih =>
    rw [List.filterMap_cons_some (h x (List.mem_cons_self ..)), ih fun y hy => h y (List.mem_cons_of_mem _ hy)]

/-- What is below the range stays, when nothing above it starts before it. -/
theorem filterMap_beforeOf (hl : ∀ x ∈ l, x.start < x.end_ ∧ x.end_ ≤ range.start)
    (hr : ∀ x ∈ r, range.start ≤ x.start) : (l ++ r).filterMap (beforeOf range) = l := by
  have hnone : r.filterMap (beforeOf range) = [] :=
    List.filterMap_eq_nil_iff.mpr fun x hx => beforeOf_of_start_le (hr x hx)
  rw [List.filterMap_append, hnone, List.append_nil]
  exact filterMap_eq_self fun x hx => beforeOf_of_end_le (hl x hx).1 (hl x hx).2

/-- What is above the range stays, when nothing below it ends after it. -/
theorem filterMap_afterOf (hl : ∀ x ∈ l, x.end_ ≤ range.end_)
    (hr : ∀ x ∈ r, x.start < x.end_ ∧ range.end_ ≤ x.start) : (l ++ r).filterMap (afterOf range) = r := by
  have hnone : l.filterMap (afterOf range) = [] :=
    List.filterMap_eq_nil_iff.mpr fun x hx => afterOf_of_end_le (hl x hx)
  rw [List.filterMap_append, hnone, List.nil_append]
  exact filterMap_eq_self fun x hx => afterOf_of_le_start (hr x hx).1 (hr x hx).2

/-- The loop once no range starts before the removed one: the pieces above it are left. -/
theorem removeLoop_spec (hrange : range.start < range.end_) :
    ∀ (fuel : ℕ) (c : SetCursor AddressRange), Canonical c.rest → c.rest.length < fuel →
      (∀ x ∈ c.before, x.end_ ≤ range.start) → (∀ x ∈ c.rest, range.start ≤ x.start) →
      ∃ c', removeLoop range fuel c = some c' ∧ c'.all = c.before ++ c.rest.filterMap (afterOf range)
  | 0, _, _, hfuel, _, _ => absurd hfuel (Nat.not_lt_zero _)
  | fuel + 1, ⟨before, []⟩, _, _, _, _ => ⟨⟨before, []⟩, rfl, rfl⟩
  | fuel + 1, ⟨before, it :: rest⟩, h, hfuel, hbefore, hstart => by
    have hit := h.nonempty it (List.mem_cons_self ..)
    obtain ⟨hnext, hapart⟩ := List.pairwise_cons.mp h.apart
    have hrest : Canonical rest := ⟨hapart, fun x hx => h.nonempty x (List.mem_cons_of_mem _ hx)⟩
    have hfuel' : rest.length < fuel := Nat.lt_of_succ_lt_succ hfuel
    have hstart' : ∀ x ∈ rest, range.start ≤ x.start := fun x hx => hstart x (List.mem_cons_of_mem _ hx)
    unfold removeLoop
    dsimp only
    by_cases hstop : range.end_ ≤ it.start
    · rw [if_pos hstop]
      have habove : ∀ x ∈ it :: rest, x.start < x.end_ ∧ range.end_ ≤ x.start := by
        refine List.forall_mem_cons.mpr ⟨⟨hit, hstop⟩, fun x hx => ⟨hrest.nonempty x hx, ?_⟩⟩
        exact Nat.le_of_lt (Nat.lt_of_le_of_lt hstop (Nat.lt_trans hit (hnext x hx)))
      have hall := @filterMap_afterOf [] (it :: rest) range (by simp) habove
      exact ⟨_, rfl, congrArg (before ++ ·) hall.symm⟩
    · rw [if_neg hstop, if_neg (Nat.not_lt.mpr (hstart it (List.mem_cons_self ..)))]
      by_cases hcut : range.end_ < it.end_
      · -- the last range that the removed one reaches: its piece above is left
        rw [if_pos hcut, make_eq hcut.le]
        dsimp only [Option.bind_eq_bind, Option.bind_some, SetCursor.erase, List.tail_cons]
        have hbetween : SetCursor.Between AddressRange.end_ it.end_ ⟨before, rest⟩ :=
          ⟨fun x hx => Nat.lt_trans (Nat.lt_of_le_of_lt (hbefore x hx) hrange) hcut,
            fun x hx => Nat.lt_trans (hnext x hx) (hrest.nonempty x hx)⟩
        rw [Between.emplace (x := (⟨range.end_, it.end_, hcut.le⟩ : AddressRange)) hbetween]
        have habove : ∀ x ∈ rest, x.start < x.end_ ∧ range.end_ ≤ x.start := fun x hx =>
          ⟨hrest.nonempty x hx, Nat.le_of_lt (Nat.lt_trans hcut (hnext x hx))⟩
        have hall := @filterMap_afterOf [] rest range (by simp) habove
        have hpiece : afterOf range it = some ⟨range.end_, it.end_, hcut.le⟩ := by
          rw [afterOf, dif_pos hcut, Option.some_inj, ext_iff']
          exact ⟨Nat.max_eq_left (Nat.le_of_not_le hstop), rfl⟩
        refine ⟨⟨before ++ [⟨range.end_, it.end_, hcut.le⟩], rest⟩, ?_, ?_⟩
        · cases fuel with
          | zero => exact absurd hfuel' (Nat.not_lt_zero _)
          | succ fuel =>
            unfold removeLoop
            cases rest with
            | nil => rfl
            | cons x rest => exact if_pos (habove x (List.mem_cons_self ..)).2
        · rw [List.nil_append] at hall
          rw [List.filterMap_cons_some hpiece, hall, SetCursor.all, List.append_assoc, List.singleton_append]
      · rw [if_neg hcut]
        obtain ⟨c', hloop, hall⟩ := removeLoop_spec hrange fuel ⟨before, rest⟩ hrest hfuel' hbefore hstart'
        refine ⟨c', hloop, ?_⟩
        rw [hall, List.filterMap_cons_none (afterOf_of_end_le (Nat.not_lt.mp hcut))]

/-- `Remove` leaves the pieces below the range and the pieces above it. -/
theorem remove_eq (h : Canonical ranges) (hrange : range.start < range.end_) :
    remove ranges range = some (ranges.filterMap (beforeOf range) ++ ranges.filterMap (afterOf range)) := by
  obtain ⟨hsplit, hbefore, hupper⟩ := upperBound_spec h.sorted range.start
  have hlength := congrArg List.length hsplit
  unfold remove
  rw [not_empty_iff.mpr hrange, if_neg Bool.false_ne_true]
  set c := SetCursor.upperBound AddressRange.end_ ranges range.start with hc
  rw [List.length_append] at hlength
  obtain ⟨hcb, hcr, hacross⟩ := (hsplit ▸ h).append
  have hlow : ∀ x ∈ c.before, x.start < x.end_ ∧ x.end_ ≤ range.start := fun x hx => ⟨hcb.nonempty x hx, hbefore x hx⟩
  have hnoAfter : c.before.filterMap (afterOf range) = [] :=
    List.filterMap_eq_nil_iff.mpr fun x hx => afterOf_of_end_le (Nat.le_trans (hbefore x hx) hrange.le)
  have hafter : ranges.filterMap (afterOf range) = c.rest.filterMap (afterOf range) := by
    rw [hsplit, List.filterMap_append, hnoAfter, List.nil_append]
  by_cases hstart : ∀ x ∈ c.rest, range.start ≤ x.start
  · obtain ⟨c', hloop, hall⟩ := removeLoop_spec hrange (ranges.length + 2) c hcr (by omega) hbefore hstart
    have hbeforePieces : ranges.filterMap (beforeOf range) = c.before := by rw [hsplit, filterMap_beforeOf hlow hstart]
    rw [hloop, Option.bind_eq_bind, Option.bind_some, hall, hafter, hbeforePieces]
  · -- the first range is split, and the loop goes on at its second half
    cases hrest : c.rest with
    | nil => exact absurd (by simp [hrest]) hstart
    | cons it rest =>
      rw [hrest] at hcr hupper hlength hacross hstart
      obtain ⟨hnext, hapart⟩ := List.pairwise_cons.mp hcr.apart
      have hend := hupper it (List.mem_cons_self ..)
      have hrestStart : ∀ x ∈ rest, range.start ≤ x.start := fun x hx => (Nat.lt_trans hend (hnext x hx)).le
      have hcut : it.start < range.start := by
        rw [← Nat.not_le]
        exact fun hle => hstart (List.forall_mem_cons.mpr ⟨hle, hrestStart⟩)
      set first : AddressRange := ⟨it.start, range.start, hcut.le⟩ with hfirst
      set second : AddressRange := ⟨range.start, it.end_, hend.le⟩ with hsecond
      have hfirstBetween : SetCursor.Between AddressRange.end_ first.end_ ⟨c.before, rest⟩ :=
        ⟨fun x hx => Nat.lt_trans (hacross x hx it (List.mem_cons_self ..)) hcut,
          fun x hx => hupper x (List.mem_cons_of_mem _ hx)⟩
      have hsecondBetween : SetCursor.Between AddressRange.end_ second.end_ ⟨c.before ++ [first], rest⟩ := by
        refine ⟨List.forall_mem_append.mpr ⟨fun x hx => Nat.lt_of_le_of_lt (hbefore x hx) hend, by simpa using hend⟩,
      ?_⟩
        exact fun x hx => Nat.lt_trans (hnext x hx) (hcr.nonempty x (List.mem_cons_of_mem _ hx))
      have hsecondRest : Canonical (second :: rest) :=
        ⟨List.pairwise_cons.mpr ⟨hnext, hapart⟩,
          List.forall_mem_cons.mpr ⟨hend, fun x hx => hcr.nonempty x (List.mem_cons_of_mem _ hx)⟩⟩
      rw [List.length_cons] at hlength
      obtain ⟨c', hloop, hall⟩ := removeLoop_spec hrange (ranges.length + 1) ⟨c.before ++ [first], second :: rest⟩
        hsecondRest (by rw [List.length_cons]; omega)
        (List.forall_mem_append.mpr ⟨hbefore, by simp [hfirst]⟩) (List.forall_mem_cons.mpr ⟨le_rfl, hrestStart⟩)
      have hround : removeLoop range (ranges.length + 2) c = some c' := by
        have hc' : c = ⟨c.before, it :: rest⟩ := by rw [← hrest]
        rw [hc']
        unfold removeLoop
        dsimp only
        rw [if_neg (Nat.not_le.mpr (Nat.lt_trans hcut hrange)), if_pos hcut, make_eq hcut.le, make_eq hend.le]
        dsimp only [Option.bind_eq_bind, Option.bind_some, SetCursor.erase, List.tail_cons]
        rw [Between.emplace (x := first) hfirstBetween, Between.emplaceTo (x := second) hsecondBetween]
        exact hloop
      have hsecondAfter : afterOf range second = afterOf range it := by
        unfold afterOf
        split
        · rw [Option.some_inj, ext_iff']
          exact ⟨(Nat.max_eq_left hrange.le).trans (Nat.max_eq_left (Nat.lt_trans hcut hrange).le).symm, rfl⟩
        · rfl
      have hfirstBefore : beforeOf range it = some first := by
        rw [beforeOf, dif_pos hcut, Option.some_inj, ext_iff']
        exact ⟨rfl, Nat.min_eq_left hend.le⟩
      have hbeforePieces : ranges.filterMap (beforeOf range) = c.before ++ [first] := by
        have hnone : rest.filterMap (beforeOf range) = [] :=
          List.filterMap_eq_nil_iff.mpr fun x hx => beforeOf_of_start_le (hrestStart x hx)
        have hself : c.before.filterMap (beforeOf range) = c.before :=
          filterMap_eq_self fun x hx => beforeOf_of_end_le (hlow x hx).1 (hlow x hx).2
        rw [hsplit, hrest, List.filterMap_append, hself, List.filterMap_cons_some hfirstBefore, hnone]
      rw [hround, Option.bind_eq_bind, Option.bind_some, hall, hafter, hbeforePieces, hrest, List.filterMap_cons,
        List.filterMap_cons, hsecondAfter]

theorem member_filterMap {f : AddressRange → Option AddressRange} :
    Member (ranges.filterMap f) a ↔ ∃ x ∈ ranges, ∃ y, f x = some y ∧ y.contains a = true := by
  simp only [Member, List.mem_filterMap]
  constructor
  · rintro ⟨y, ⟨x, hx, hy⟩, ha⟩
    exact ⟨x, hx, y, hy, ha⟩
  · rintro ⟨x, hx, y, hy, ha⟩
    exact ⟨y, ⟨x, hx, hy⟩, ha⟩

/-- `Remove` keeps the form and takes the addresses of the range out. -/
theorem remove_spec (h : Canonical ranges) (range : AddressRange) :
    ∃ ranges', remove ranges range = some ranges' ∧ Canonical ranges' ∧
      ∀ a, Member ranges' a ↔ Member ranges a ∧ ¬ range.contains a = true := by
  cases hempty : range.empty with
  | true =>
    refine ⟨ranges, by rw [remove, if_pos hempty], h, fun a => ⟨fun ha => ⟨ha, fun hin => ?_⟩, And.left⟩⟩
    have heq := empty_iff.mp hempty
    have hbounds := contains_iff.mp hin
    omega
  | false =>
    have hrange := not_empty_iff.mp hempty
    refine ⟨_, remove_eq h hrange, ⟨List.pairwise_append.mpr ⟨?_, ?_, ?_⟩, ?_⟩, fun a => ?_⟩
    · refine List.pairwise_filterMap.mpr (h.apart.imp fun {x y} hxy x' hx' y' hy' => ?_)
      obtain ⟨-, -, hxend⟩ := beforeOf_eq_some hx'
      obtain ⟨-, hystart, -⟩ := beforeOf_eq_some hy'
      omega
    · refine List.pairwise_filterMap.mpr (h.apart.imp fun {x y} hxy x' hx' y' hy' => ?_)
      obtain ⟨-, -, hxend⟩ := afterOf_eq_some hx'
      obtain ⟨-, hystart, -⟩ := afterOf_eq_some hy'
      omega
    · intro x' hx' y' hy'
      obtain ⟨x, -, hx⟩ := List.mem_filterMap.mp hx'
      obtain ⟨y, -, hy⟩ := List.mem_filterMap.mp hy'
      obtain ⟨-, -, hxend⟩ := beforeOf_eq_some hx
      obtain ⟨-, hystart, -⟩ := afterOf_eq_some hy
      omega
    · refine List.forall_mem_append.mpr ⟨fun x' hx' => ?_, fun y' hy' => ?_⟩
      · obtain ⟨x, hmem, hx⟩ := List.mem_filterMap.mp hx'
        obtain ⟨hlt, hstart, hend⟩ := beforeOf_eq_some hx
        have hne := h.nonempty x hmem
        omega
      · obtain ⟨y, hmem, hy⟩ := List.mem_filterMap.mp hy'
        obtain ⟨hlt, hstart, hend⟩ := afterOf_eq_some hy
        have hne := h.nonempty y hmem
        omega
    · simp only [Member.append, member_filterMap, beforeOf_contains, afterOf_contains, ← and_assoc, exists_and_right,
        ← and_or_left]
      rw [@contains_iff range, not_and_or, Nat.not_le, Nat.not_lt]
      rfl

/-! ### Runs -/

/-- A call of the class that changes the set. -/
inductive Call where
  | add (range : AddressRange)
  | remove (range : AddressRange)

def step (ranges : AddressSet) : Call → Option AddressSet
  | .add range => add ranges range
  | .remove range => remove ranges range

/-- What a call means: a union or a difference. -/
def Call.denote (s : Set ℕ) : Call → Set ℕ
  | .add range => s ∪ {a | range.contains a = true}
  | .remove range => s \ {a | range.contains a = true}

/-- A call keeps the form, and its members are what the call means. -/
theorem step_spec (h : Canonical ranges) (call : Call) :
    ∃ ranges', step ranges call = some ranges' ∧ Canonical ranges' ∧
      {a | Member ranges' a} = call.denote {a | Member ranges a} := by
  cases call with
  | add range =>
    obtain ⟨ranges', hadd, hcanonical, hmember⟩ := add_spec h range
    exact ⟨ranges', hadd, hcanonical, Set.ext hmember⟩
  | remove range =>
    obtain ⟨ranges', hremove, hcanonical, hmember⟩ := remove_spec h range
    exact ⟨ranges', hremove, hcanonical, Set.ext hmember⟩

theorem run_from (calls : List Call) : ∀ ranges : AddressSet, Canonical ranges →
    ∃ ranges', calls.foldlM step ranges = some ranges' ∧ Canonical ranges' ∧
      {a | Member ranges' a} = calls.foldl Call.denote {a | Member ranges a} := by
  induction calls with
  | nil => exact fun ranges h => ⟨ranges, rfl, h, rfl⟩
  | cons call calls ih =>
    intro ranges h
    obtain ⟨next, hstep, hnext, hdenote⟩ := step_spec h call
    obtain ⟨ranges', hrun, hcanonical, hmember⟩ := ih next hnext
    refine ⟨ranges', ?_, hcanonical, ?_⟩
    · rw [List.foldlM_cons, hstep]
      exact hrun
    · rw [hmember, hdenote, List.foldl_cons]

/-- A sequence of calls from the empty set runs to its end, in canonical form, with the addresses it describes. -/
theorem runs_to_canonical_union_difference (calls : List Call) :
    ∃ ranges : AddressSet, calls.foldlM step [] = some ranges ∧ Canonical ranges ∧
      ∀ a, Member ranges a ↔ a ∈ calls.foldl Call.denote ∅ := by
  obtain ⟨ranges, hrun, hcanonical, hmember⟩ := run_from calls [] ⟨.nil, by simp⟩
  have hempty : {a | Member [] a} = (∅ : Set ℕ) := by simp [Member]
  rw [hempty] at hmember
  exact ⟨ranges, hrun, hcanonical, fun a => hmember ▸ Iff.rfl⟩

/-! ### Equality -/

/-- The first range, and the rest apart from it. -/
theorem Canonical.cons {x : AddressRange} (h : Canonical (x :: l)) :
    x.start < x.end_ ∧ Canonical l ∧ ∀ a, Member l a → x.end_ < a := by
  obtain ⟨hx, hl⟩ := List.pairwise_cons.mp h.apart
  obtain ⟨hlt, hnonempty⟩ := List.forall_mem_cons.mp h.nonempty
  refine ⟨hlt, ⟨hl, hnonempty⟩, ?_⟩
  rintro a ⟨z, hz, ha⟩
  exact (hx z hz).trans_le (contains_iff.mp ha).1

/-- The addresses determine the canonical form: the first range starts at the least of them and ends at the first one
missing after it. -/
theorem Canonical.ext (hl : Canonical l) (hr : Canonical r) (h : ∀ a, Member l a ↔ Member r a) : l = r := by
  induction l generalizing r with
  | nil =>
    cases r with
    | nil => rfl
    | cons y r =>
      obtain ⟨z, hz, -⟩ := (h y.start).mpr (Member.cons.mpr (.inl (contains_iff.mpr ⟨le_rfl, hr.cons.1⟩)))
      cases hz
  | cons x l ih =>
    cases r with
    | nil =>
      obtain ⟨z, hz, -⟩ := (h x.start).mp (Member.cons.mpr (.inl (contains_iff.mpr ⟨le_rfl, hl.cons.1⟩)))
      cases hz
    | cons y r =>
      obtain ⟨hx, hlc, hlm⟩ := hl.cons
      obtain ⟨hy, hrc, hrm⟩ := hr.cons
      simp only [Member.cons, contains_iff] at h
      have hstart : x.start = y.start := by
        have := h x.start
        have := h y.start
        grind
      have hend : x.end_ = y.end_ := by
        have := h x.end_
        have := h y.end_
        grind
      obtain rfl : x = y := ext_iff'.mpr ⟨hstart, hend⟩
      rw [ih hlc hrc fun a => ?_]
      have := h a
      grind

/-- **`operator==` decides whether two sequences of calls describe the same addresses**, in whatever order and with
whatever overlaps they were added and removed. -/
theorem runs_equal_iff (calls calls' : List Call) :
    ∃ s t : AddressSet, calls.foldlM step [] = some s ∧ calls'.foldlM step [] = some t ∧
      ((s == t) = true ↔ calls.foldl Call.denote ∅ = calls'.foldl Call.denote ∅) := by
  have hempty : {a | Member [] a} = (∅ : Set ℕ) := by simp [Member]
  obtain ⟨s, hs, hcs, hms⟩ := run_from calls [] ⟨.nil, by simp⟩
  obtain ⟨t, ht, hct, hmt⟩ := run_from calls' [] ⟨.nil, by simp⟩
  rw [hempty] at hms hmt
  refine ⟨s, t, hs, ht, ?_⟩
  rw [beq_iff_eq, ← hms, ← hmt]
  exact ⟨fun hst => by rw [hst], fun hst => hcs.ext hct (Set.ext_iff.mp hst)⟩

end AddressSet

end LynxTrace.TraceProcessor
