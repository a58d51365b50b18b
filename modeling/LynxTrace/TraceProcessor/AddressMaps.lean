import LynxTrace.TraceProcessor.AddressSets

/-!
# TraceProcessor.AddressMaps — an `AddressRangeMap` is a partial function from addresses to values
-/

namespace LynxTrace.TraceProcessor

namespace AddressRangeMap

open AddressRange SetCursor

variable {V : Type}

/-- The invariants of the class. -/
structure Disjoint (m : AddressRangeMap V) : Prop where
  apart : m.Pairwise fun x y => x.1.end_ ≤ y.1.start
  nonempty : ∀ e ∈ m, e.1.start < e.1.end_

/-- What `Find` gives a caller that reads the value. -/
def valueAt (m : AddressRangeMap V) (a : ℕ) : Option V := (find m a).map Prod.snd

variable {m l r : AddressRangeMap V} {range : AddressRange} {v : V} {a : ℕ} {e : AddressRange × V}

theorem Disjoint.sorted (h : Disjoint m) : m.Pairwise fun x y => endOf x < endOf y :=
  h.apart.imp_of_mem fun _ hy hxy => Nat.lt_of_le_of_lt hxy (h.nonempty _ hy)

theorem Disjoint.append (h : Disjoint (l ++ r)) : Disjoint l ∧ Disjoint r ∧ ∀ x ∈ l, ∀ y ∈ r, x.1.end_ ≤ y.1.start := by
  obtain ⟨hl, hr, hlr⟩ := List.pairwise_append.mp h.apart
  exact ⟨⟨hl, fun x hx => h.nonempty x (List.mem_append_left _ hx)⟩,
    ⟨hr, fun x hx => h.nonempty x (List.mem_append_right _ hx)⟩, hlr⟩

theorem Disjoint.tail (h : Disjoint (e :: r)) : Disjoint r ∧ e.1.start < e.1.end_ ∧ ∀ x ∈ r, e.1.end_ ≤ x.1.start := by
  obtain ⟨he, hr⟩ := List.pairwise_cons.mp h.apart
  exact ⟨⟨hr, fun x hx => h.nonempty x (List.mem_cons_of_mem _ hx)⟩, h.nonempty e (List.mem_cons_self ..), he⟩

/-- The map that `emplace_hint` leaves when the hint is right. -/
theorem Disjoint.insert (hl : Disjoint l) (hr : Disjoint r) (hrange : range.start < range.end_)
    (hleft : ∀ x ∈ l, x.1.end_ ≤ range.start) (hright : ∀ x ∈ r, range.end_ ≤ x.1.start) :
    (SetCursor.emplace endOf (range, v) ⟨l, r⟩).all = l ++ (range, v) :: r ∧ Disjoint (l ++ (range, v) :: r) := by
  have hbetween : SetCursor.Between endOf (endOf (range, v)) ⟨l, r⟩ :=
    ⟨fun x hx => Nat.lt_of_le_of_lt (hleft x hx) hrange,
      fun x hx => Nat.lt_of_le_of_lt (hright x hx) (hr.nonempty x hx)⟩
  constructor
  · rw [hbetween.emplace, SetCursor.all, List.append_assoc, List.singleton_append]
  · refine ⟨List.pairwise_append.mpr ⟨hl.apart, List.pairwise_cons.mpr ⟨hright, hr.apart⟩, fun x hx => ?_⟩, ?_⟩
    · exact List.forall_mem_cons.mpr
        ⟨hleft x hx, fun y hy => Nat.le_trans (hleft x hx) (Nat.le_trans hrange.le (hright y hy))⟩
    · exact List.forall_mem_append.mpr ⟨hl.nonempty, List.forall_mem_cons.mpr ⟨hrange, hr.nonempty⟩⟩

/-! ### `Find` -/

/-- Two entries that contain one address are one entry. -/
theorem Disjoint.eq_of_contains (h : Disjoint m) {x y : AddressRange × V} (hx : x ∈ m) (hy : y ∈ m)
    (hax : x.1.contains a = true) (hay : y.1.contains a = true) : x = y := by
  rw [contains_iff] at hax hay
  induction m with
  | nil => exact absurd hx List.not_mem_nil
  | cons e m ih =>
    obtain ⟨hm, -, hnext⟩ := h.tail
    rcases List.mem_cons.mp hx with hxe | hxm
    · rcases List.mem_cons.mp hy with hye | hym
      · exact hxe.trans hye.symm
      · have := hxe ▸ hnext y hym
        omega
    · rcases List.mem_cons.mp hy with hye | hym
      · have := hye ▸ hnext x hxm
        omega
      · exact ih hm hxm hym

/-- `Find` gives the entry that contains the address. -/
theorem find_eq_some (h : Disjoint m) : find m a = some e ↔ e ∈ m ∧ e.1.contains a = true := by
  obtain ⟨hsplit, hbefore, hupper⟩ := upperBound_spec h.sorted a
  have hsound : ∀ e', find m a = some e' → e' ∈ m ∧ e'.1.contains a = true := by
    intro e' hfind
    unfold find at hfind
    cases hrest : (SetCursor.upperBound endOf m a).rest with
    | nil => rw [hrest] at hfind; cases hfind
    | cons x rest =>
      rw [hrest] at hfind hupper hsplit
      dsimp only at hfind
      split at hfind
      · rename_i hstart
        cases hfind
        exact ⟨hsplit ▸ List.mem_append_right _ (List.mem_cons_self ..),
          contains_iff.mpr ⟨hstart, hupper _ (List.mem_cons_self ..)⟩⟩
      · cases hfind
  refine ⟨hsound e, fun ⟨he, ha⟩ => ?_⟩
  have hbounds := contains_iff.mp ha
  have hin : e ∈ (SetCursor.upperBound endOf m a).rest := by
    rw [hsplit] at he
    refine (List.mem_append.mp he).resolve_left fun hlow => ?_
    exact Nat.not_lt.mpr (hbefore e hlow) hbounds.2
  cases hfind : find m a with
  | some e' => rw [h.eq_of_contains (hsound e' hfind).1 he (hsound e' hfind).2 ha]
  | none =>
    unfold find at hfind
    cases hrest : (SetCursor.upperBound endOf m a).rest with
    | nil => rw [hrest] at hin; exact absurd hin List.not_mem_nil
    | cons x rest =>
      rw [hrest] at hfind hin
      dsimp only at hfind
      have hx : ¬ x.1.start ≤ a := by
        intro hle
        rw [if_pos hle] at hfind
        cases hfind
      rw [hrest] at hsplit
      obtain ⟨-, hcr, -⟩ := (hsplit ▸ h).append
      obtain ⟨-, hne, hnext⟩ := hcr.tail
      rcases List.mem_cons.mp hin with rfl | hin
      · exact absurd hbounds.1 hx
      · have := hnext e hin
        omega

theorem valueAt_eq_some {w : V} (h : Disjoint m) :
    valueAt m a = some w ↔ ∃ e ∈ m, e.1.contains a = true ∧ e.2 = w := by
  simp only [valueAt, Option.map_eq_some_iff, find_eq_some h, and_assoc]

/-- The values of a map that has an entry for `range`: its value there, and elsewhere what the other entries give. -/
theorem valueAt_insert {o : Option V} (h : Disjoint (l ++ (range, v) :: r))
    (hothers : range.contains a = false → ∀ w, (∃ e ∈ l ++ r, e.1.contains a = true ∧ e.2 = w) ↔ o = some w) :
    valueAt (l ++ (range, v) :: r) a = if range.contains a then some v else o := by
  cases hin : range.contains a with
  | true =>
    rw [if_pos rfl, valueAt_eq_some h]
    exact ⟨(range, v), List.mem_append_right _ (List.mem_cons_self ..), hin, rfl⟩
  | false =>
    rw [if_neg Bool.false_ne_true]
    refine Option.ext fun w => ?_
    rw [valueAt_eq_some h, ← hothers hin w]
    constructor
    · rintro ⟨e, he, ha, hw⟩
      refine ⟨e, ?_, ha, hw⟩
      rcases List.mem_append.mp he with he | he
      · exact List.mem_append_left _ he
      · rcases List.mem_cons.mp he with rfl | he
        · exact absurd (ha.symm.trans hin) (by simp)
        · exact List.mem_append_right _ he
    · rintro ⟨e, he, ha, hw⟩
      refine ⟨e, ?_, ha, hw⟩
      rcases List.mem_append.mp he with he | he
      · exact List.mem_append_left _ he
      · exact List.mem_append_right _ (List.mem_cons_of_mem _ he)

/-! ### `Emplace` -/

theorem overlaps_iff {x : AddressRange} (hrange : range.start < range.end_) (hx : x.start < x.end_) :
    range.overlaps x = true ↔ range.start < x.end_ ∧ x.start < range.end_ := by
  simp [overlaps, not_empty_iff.mpr hrange, not_empty_iff.mpr hx]

/-- `Emplace` changes the map only when no entry overlaps the range. -/
theorem emplace_spec (h : Disjoint m) (hrange : range.start < range.end_) (v : V) :
    Disjoint (emplace m range v).2 ∧
      ((emplace m range v).1 = true ↔ ∀ e ∈ m, range.overlaps e.1 = false) ∧
      ((emplace m range v).1 = false → (emplace m range v).2 = m) ∧
      ((emplace m range v).1 = true →
        ∀ a, valueAt (emplace m range v).2 a = if range.contains a then some v else valueAt m a) := by
  obtain ⟨hsplit, hbefore, hupper⟩ := upperBound_spec h.sorted range.start
  unfold emplace
  rw [not_empty_iff.mpr hrange, if_neg Bool.false_ne_true]
  dsimp only
  set c := SetCursor.upperBound endOf m range.start with hc
  obtain ⟨hcb, hcr, -⟩ := (hsplit ▸ h).append
  -- where nothing from the cursor on starts before the end of the range, the entry goes in there
  have hinsert : (∀ e ∈ c.rest, range.end_ ≤ e.1.start) →
      Disjoint (c.emplace endOf (range, v)).all ∧ (true = true ↔ ∀ e ∈ m, range.overlaps e.1 = false) ∧
        (true = false → (c.emplace endOf (range, v)).all = m) ∧ (true = true → ∀ a,
          valueAt (c.emplace endOf (range, v)).all a = if range.contains a then some v else valueAt m a) := by
    intro hright
    obtain ⟨hall, hdisjoint⟩ := hcb.insert hcr hrange hbefore hright (v := v)
    have hall' : (c.emplace endOf (range, v)).all = c.before ++ (range, v) :: c.rest := hall
    rw [hall']
    refine ⟨hdisjoint, ⟨fun _ e he => ?_, fun _ => rfl⟩, Bool.noConfusion, fun _ a => ?_⟩
    · rw [← Bool.not_eq_true, overlaps_iff hrange (h.nonempty e he)]
      rcases List.mem_append.mp (hsplit ▸ he) with he | he
      · have : e.1.end_ ≤ range.start := hbefore e he
        omega
      · have := hright e he
        omega
    · refine valueAt_insert hdisjoint fun _ w => ?_
      rw [← hsplit, valueAt_eq_some h]
  cases hrest : c.rest with
  | nil => exact hinsert (by simp [hrest])
  | cons e rest =>
    dsimp only
    rw [hrest] at hcr hupper hsplit
    obtain ⟨-, hne, hnext⟩ := hcr.tail
    by_cases hlt : e.1.start < range.end_
    · rw [if_pos hlt]
      have hoverlaps : range.overlaps e.1 = true := (overlaps_iff hrange hne).mpr ⟨hupper e (List.mem_cons_self ..), hlt⟩
      refine ⟨h, ⟨Bool.noConfusion, fun hnone => ?_⟩, fun _ => rfl, Bool.noConfusion⟩
      rw [hnone e (hsplit ▸ List.mem_append_right _ (List.mem_cons_self ..))] at hoverlaps
      exact hoverlaps
    · rw [if_neg hlt]
      refine hinsert ?_
      rw [hrest]
      refine List.forall_mem_cons.mpr ⟨Nat.not_lt.mp hlt, fun x hx => ?_⟩
      have := hnext x hx
      omega

/-! ### `DeleteOverlapsAndEmplace` -/

/-- The loop takes the entries that start before the end of the range. -/
theorem deleteLoop_eq (hr : Disjoint r) : deleteLoop range r =
    (r.filter (·.1.start < range.end_), r.filter (range.end_ ≤ ·.1.start)) := by
  induction r with
  | nil => rfl
  | cons e r ih =>
    obtain ⟨hr', hne, hnext⟩ := hr.tail
    unfold deleteLoop
    by_cases hlt : e.1.start < range.end_
    · rw [if_pos hlt, ih hr']
      have hnot : ¬ range.end_ ≤ e.1.start := Nat.not_le.mpr hlt
      simp [hlt, hnot]
    · have hnone : r.filter (·.1.start < range.end_) = [] := by
        refine List.filter_eq_nil_iff.mpr fun x hx => ?_
        rw [decide_eq_true_eq]
        have := hnext x hx
        omega
      have hself : r.filter (range.end_ ≤ ·.1.start) = r := by
        refine List.filter_eq_self.mpr fun x hx => decide_eq_true ?_
        have := hnext x hx
        omega
      have hle : range.end_ ≤ e.1.start := Nat.not_lt.mp hlt
      rw [if_neg hlt, List.filter_cons, List.filter_cons, hnone, hself]
      simp [hlt, hle]

/-- `DeleteOverlapsAndEmplace` hands every entry that overlaps to the callback, and keeps the others. -/
theorem delete_eq (h : Disjoint m) (hrange : range.start < range.end_) (v : V) :
    deleteOverlapsAndEmplace m range v = (true, m.filter (range.overlaps ·.1),
      m.filter (·.1.end_ ≤ range.start) ++ (range, v) :: m.filter (range.end_ ≤ ·.1.start)) := by
  obtain ⟨hsplit, hbefore, hupper⟩ := upperBound_spec h.sorted range.start
  unfold deleteOverlapsAndEmplace
  rw [not_empty_iff.mpr hrange, if_neg Bool.false_ne_true]
  dsimp only
  set c := SetCursor.upperBound endOf m range.start with hc
  obtain ⟨hcb, hcr, -⟩ := (hsplit ▸ h).append
  rw [deleteLoop_eq hcr]
  dsimp only
  have hbeforeEnd : ∀ e ∈ c.before, e.1.end_ ≤ range.start := hbefore
  have hrestEnd : ∀ e ∈ c.rest, range.start < e.1.end_ := hupper
  have hlow : m.filter (·.1.end_ ≤ range.start) = c.before := by
    rw [hsplit, List.filter_append, List.filter_eq_self.mpr fun e he => decide_eq_true (hbeforeEnd e he),
      List.filter_eq_nil_iff.mpr fun e he => by
        rw [decide_eq_true_eq]
        exact Nat.not_le.mpr (hrestEnd e he), List.append_nil]
  have hhigh : m.filter (range.end_ ≤ ·.1.start) = c.rest.filter (range.end_ ≤ ·.1.start) := by
    rw [hsplit, List.filter_append, List.filter_eq_nil_iff.mpr fun e he => by
      rw [decide_eq_true_eq]
      have := hbeforeEnd e he
      have := hcb.nonempty e he
      omega, List.nil_append]
  have hoverlaps : m.filter (range.overlaps ·.1) = c.rest.filter (·.1.start < range.end_) := by
    have hnone : c.before.filter (range.overlaps ·.1) = [] := by
      refine List.filter_eq_nil_iff.mpr fun e he => ?_
      rw [overlaps_iff hrange (hcb.nonempty e he)]
      have := hbeforeEnd e he
      omega
    rw [hsplit, List.filter_append, hnone, List.nil_append]
    refine List.filter_congr fun e he => ?_
    rw [Bool.eq_iff_iff, overlaps_iff hrange (hcr.nonempty e he), decide_eq_true_eq]
    exact and_iff_right (hrestEnd e he)
  have hright : Disjoint (c.rest.filter (range.end_ ≤ ·.1.start)) :=
    ⟨hcr.apart.filter _, fun e he => hcr.nonempty e (List.mem_filter.mp he).1⟩
  rw [(hcb.insert hright hrange hbefore fun e he => of_decide_eq_true (List.mem_filter.mp he).2).1, hlow, hhigh,
    hoverlaps]

/-! ### `TrimOverlapsAndEmplace` -/

/-- What a range leaves of an entry, below it and above it. -/
def beforeEntry (range : AddressRange) (e : AddressRange × V) : Option (AddressRange × V) :=
  (beforeOf range e.1).map (·, e.2)

def afterEntry (range : AddressRange) (e : AddressRange × V) : Option (AddressRange × V) :=
  (afterOf range e.1).map (·, e.2)

theorem beforeEntry_eq_some {x : AddressRange × V} :
    beforeEntry range e = some x ↔ beforeOf range e.1 = some x.1 ∧ e.2 = x.2 := by
  simp only [beforeEntry, Option.map_eq_some_iff, Prod.ext_iff]
  constructor
  · rintro ⟨y, hy, hyx, hx⟩
    exact ⟨hyx ▸ hy, hx⟩
  · rintro ⟨hy, hx⟩
    exact ⟨x.1, hy, rfl, hx⟩

theorem afterEntry_eq_some {x : AddressRange × V} :
    afterEntry range e = some x ↔ afterOf range e.1 = some x.1 ∧ e.2 = x.2 := by
  simp only [afterEntry, Option.map_eq_some_iff, Prod.ext_iff]
  constructor
  · rintro ⟨y, hy, hyx, hx⟩
    exact ⟨hyx ▸ hy, hx⟩
  · rintro ⟨hy, hx⟩
    exact ⟨x.1, hy, rfl, hx⟩

theorem Disjoint.filterMap_beforeEntry (h : Disjoint m) (range : AddressRange) :
    Disjoint (m.filterMap (beforeEntry range)) ∧ ∀ x ∈ m.filterMap (beforeEntry range), x.1.end_ ≤ range.start := by
  refine ⟨⟨List.pairwise_filterMap.mpr (h.apart.imp fun {x y} hxy x' hx' y' hy' => ?_), fun x' hx' => ?_⟩,
    fun x' hx' => ?_⟩
  · obtain ⟨-, -, hxend⟩ := beforeOf_eq_some (beforeEntry_eq_some.mp hx').1
    obtain ⟨-, hystart, -⟩ := beforeOf_eq_some (beforeEntry_eq_some.mp hy').1
    omega
  · obtain ⟨x, hmem, hx⟩ := List.mem_filterMap.mp hx'
    have hne := h.nonempty x hmem
    obtain ⟨hlt, hstart, hend⟩ := beforeOf_eq_some (beforeEntry_eq_some.mp hx).1
    omega
  · obtain ⟨x, -, hx⟩ := List.mem_filterMap.mp hx'
    obtain ⟨-, -, hend⟩ := beforeOf_eq_some (beforeEntry_eq_some.mp hx).1
    omega

theorem Disjoint.filterMap_afterEntry (h : Disjoint m) (range : AddressRange) :
    Disjoint (m.filterMap (afterEntry range)) ∧ ∀ x ∈ m.filterMap (afterEntry range), range.end_ ≤ x.1.start := by
  refine ⟨⟨List.pairwise_filterMap.mpr (h.apart.imp fun {x y} hxy x' hx' y' hy' => ?_), fun x' hx' => ?_⟩,
    fun x' hx' => ?_⟩
  · obtain ⟨-, -, hxend⟩ := afterOf_eq_some (afterEntry_eq_some.mp hx').1
    obtain ⟨-, hystart, -⟩ := afterOf_eq_some (afterEntry_eq_some.mp hy').1
    omega
  · obtain ⟨x, hmem, hx⟩ := List.mem_filterMap.mp hx'
    have hne := h.nonempty x hmem
    obtain ⟨hlt, hstart, hend⟩ := afterOf_eq_some (afterEntry_eq_some.mp hx).1
    omega
  · obtain ⟨x, -, hx⟩ := List.mem_filterMap.mp hx'
    obtain ⟨-, hstart, -⟩ := afterOf_eq_some (afterEntry_eq_some.mp hx).1
    omega

theorem afterEntry_of_le_start (he : e.1.start < e.1.end_) (h : range.end_ ≤ e.1.start) :
    afterEntry range e = some e := by
  rw [afterEntry, afterOf_of_le_start he h, Option.map_some]

theorem beforeEntry_of_end_le (he : e.1.start < e.1.end_) (h : e.1.end_ ≤ range.start) :
    beforeEntry range e = some e := by
  rw [beforeEntry, beforeOf_of_end_le he h, Option.map_some]

/-- Once no entry starts before the range, the entries that it contains are erased and the last one is trimmed. -/
theorem eraseAndTrim (hr : Disjoint r) (hleft : ∀ x ∈ l, x.1.end_ ≤ range.start) (hrange : range.start < range.end_) :
    trimLast range (eraseContained range l r) = some ⟨l, r.filterMap (afterEntry range)⟩ := by
  induction r with
  | nil => rfl
  | cons e r ih =>
    obtain ⟨hr', hne, hnext⟩ := hr.tail
    unfold eraseContained
    by_cases hcontained : e.1.end_ ≤ range.end_
    · have hnone : afterEntry range e = none := by rw [afterEntry, afterOf_of_end_le hcontained, Option.map_none]
      rw [if_pos hcontained, ih hr', List.filterMap_cons_none hnone]
    · have hend := Nat.lt_of_not_le hcontained
      have habove : ∀ x ∈ r, afterEntry range x = some x := fun x hx =>
        afterEntry_of_le_start (hr'.nonempty x hx) (Nat.le_trans hend.le (hnext x hx))
      rw [if_neg hcontained, trimLast]
      dsimp only
      by_cases hlt : e.1.start < range.end_
      · have hbetween : SetCursor.Between endOf e.1.end_ ⟨l, r⟩ :=
          ⟨fun x hx => Nat.lt_of_le_of_lt (hleft x hx) (Nat.lt_trans hrange hend),
            fun x hx => Nat.lt_of_le_of_lt (hnext x hx) (hr'.nonempty x hx)⟩
        have hpiece : afterEntry range e = some (⟨range.end_, e.1.end_, hend.le⟩, e.2) := by
          rw [afterEntry_eq_some, afterOf, dif_pos hend, Option.some_inj, ext_iff']
          exact ⟨⟨Nat.max_eq_left hlt.le, rfl⟩, rfl⟩
        rw [if_pos hlt, make_eq hend.le, List.filterMap_cons_some hpiece, AddressSet.filterMap_eq_self habove]
        dsimp only [Option.bind_eq_bind, Option.bind_some, trimEntryRange, SetCursor.erase, List.tail_cons]
        rw [Between.emplaceTo (x := ((⟨range.end_, e.1.end_, hend.le⟩, e.2) : AddressRange × V)) hbetween]
      · rw [if_neg hlt, List.filterMap_cons_some (afterEntry_of_le_start hne (Nat.not_lt.mp hlt)),
          AddressSet.filterMap_eq_self habove]

/-- `TrimOverlapsAndEmplace` leaves the pieces of the entries outside the range, and the new entry between them. -/
theorem trim_eq (h : Disjoint m) (hrange : range.start < range.end_) (v : V) :
    trimOverlapsAndEmplace m range v =
      some (true, m.filterMap (beforeEntry range) ++ (range, v) :: m.filterMap (afterEntry range)) := by
  obtain ⟨hleft, hleftEnd⟩ := h.filterMap_beforeEntry range
  obtain ⟨hright, hrightStart⟩ := h.filterMap_afterEntry range
  have hinsert := (hleft.insert hright hrange hleftEnd hrightStart (v := v)).1
  obtain ⟨hsplit, hbefore, hupper⟩ := upperBound_spec h.sorted range.start
  unfold trimOverlapsAndEmplace
  rw [not_empty_iff.mpr hrange, if_neg Bool.false_ne_true]
  set c := SetCursor.upperBound endOf m range.start with hc
  obtain ⟨hcb, hcr, hacross⟩ := (hsplit ▸ h).append
  have hbeforeEnd : ∀ e ∈ c.before, e.1.end_ ≤ range.start := hbefore
  have hrestEnd : ∀ e ∈ c.rest, range.start < e.1.end_ := hupper
  have hself : c.before.filterMap (beforeEntry range) = c.before :=
    AddressSet.filterMap_eq_self fun e he => beforeEntry_of_end_le (hcb.nonempty e he) (hbeforeEnd e he)
  have hbeforeAfter : c.before.filterMap (afterEntry range) = [] := by
    refine List.filterMap_eq_nil_iff.mpr fun e he => ?_
    rw [afterEntry, afterOf_of_end_le (Nat.le_trans (hbeforeEnd e he) hrange.le), Option.map_none]
  have hafter : m.filterMap (afterEntry range) = c.rest.filterMap (afterEntry range) := by
    rw [hsplit, List.filterMap_append, hbeforeAfter, List.nil_append]
  -- it is enough that the two loops leave the pieces on the two sides of the cursor
  suffices hparts : ∃ it, trimFirst range c = some it ∧ trimLast range (eraseContained range it.before it.rest) =
      some ⟨m.filterMap (beforeEntry range), m.filterMap (afterEntry range)⟩ by
    obtain ⟨it, hfirst, hlast⟩ := hparts
    rw [hfirst, Option.bind_eq_bind, Option.bind_some, hlast, Option.bind_some, hinsert]
  by_cases hstart : ∀ e ∈ c.rest, range.start ≤ e.1.start
  · have hnone : c.rest.filterMap (beforeEntry range) = [] := by
      refine List.filterMap_eq_nil_iff.mpr fun e he => ?_
      rw [beforeEntry, beforeOf_of_start_le (hstart e he), Option.map_none]
    have hbeforePieces : m.filterMap (beforeEntry range) = c.before := by
      rw [hsplit, List.filterMap_append, hself, hnone, List.append_nil]
    refine ⟨c, ?_, ?_⟩
    · unfold trimFirst
      cases hrest : c.rest with
      | nil => rfl
      | cons e rest => exact if_neg (Nat.not_lt.mpr (hstart e (hrest ▸ List.mem_cons_self ..)))
    · rw [eraseAndTrim hcr hbeforeEnd hrange, hafter, hbeforePieces]
  · cases hrest : c.rest with
    | nil => exact absurd (by simp [hrest]) hstart
    | cons e rest =>
      rw [hrest] at hcr hrestEnd hacross hstart
      obtain ⟨hcr', hne, hnext⟩ := hcr.tail
      have hend := hrestEnd e (List.mem_cons_self ..)
      have hrestStart : ∀ x ∈ rest, range.start ≤ x.1.start := fun x hx => (Nat.lt_of_lt_of_le hend (hnext x hx)).le
      have hcut : e.1.start < range.start := by
        rw [← Nat.not_le]
        exact fun hle => hstart (List.forall_mem_cons.mpr ⟨hle, hrestStart⟩)
      set head : AddressRange × V := (⟨e.1.start, range.start, hcut.le⟩, e.2) with hhead
      have hnone : rest.filterMap (beforeEntry range) = [] := by
        refine List.filterMap_eq_nil_iff.mpr fun x hx => ?_
        rw [beforeEntry, beforeOf_of_start_le (hrestStart x hx), Option.map_none]
      have hheadPiece : beforeEntry range e = some head := by
        rw [beforeEntry_eq_some, beforeOf, dif_pos hcut, Option.some_inj, ext_iff']
        exact ⟨⟨rfl, Nat.min_eq_left hend.le⟩, rfl⟩
      have hbeforePieces : m.filterMap (beforeEntry range) = c.before ++ [head] := by
        rw [hsplit, hrest, List.filterMap_append, hself, List.filterMap_cons_some hheadPiece, hnone]
      have hheadLeft : ∀ x ∈ c.before ++ [head], x.1.end_ ≤ range.start :=
        List.forall_mem_append.mpr ⟨hbeforeEnd, by simp [hhead]⟩
      have hheadBetween : SetCursor.Between endOf (endOf head) ⟨c.before, rest⟩ := by
        refine ⟨fun x hx => ?_, fun x hx => hrestEnd x (List.mem_cons_of_mem _ hx)⟩
        exact Nat.lt_of_le_of_lt (hacross x hx e (List.mem_cons_self ..)) hcut
      have htrim : trimEntryRange c head.1 = ⟨c.before, head :: rest⟩ := by
        rw [trimEntryRange, hrest, SetCursor.erase, hrest, List.tail_cons]
        exact hheadBetween.emplaceTo
      by_cases hinside : range.end_ < e.1.end_
      · -- the entry contains the range: its tail goes in after the head
        set tail : AddressRange × V := (⟨range.end_, e.1.end_, hinside.le⟩, e.2) with htail
        have hemplace : SetCursor.emplace endOf tail ⟨c.before, head :: rest⟩ = ⟨c.before, head :: tail :: rest⟩ := by
          have hinsertTail : insertSorted endOf tail ([head] ++ rest) = [head] ++ tail :: rest :=
            insertSorted_append (by simpa [endOf, hhead, htail] using hend)
              fun x hx => Nat.lt_of_le_of_lt (hnext x hx) (hcr'.nonempty x hx)
          rw [SetCursor.emplace]
          dsimp only
          rw [if_neg (Nat.not_lt.mpr (Nat.le_of_lt hend : endOf head ≤ endOf tail))]
          exact congrArg _ hinsertTail
        have htailRest : Disjoint (tail :: rest) :=
          ⟨List.pairwise_cons.mpr ⟨hnext, hcr'.apart⟩, List.forall_mem_cons.mpr ⟨hinside, hcr'.nonempty⟩⟩
        refine ⟨⟨c.before ++ [head], tail :: rest⟩, ?_, ?_⟩
        · unfold trimFirst
          rw [hrest]
          dsimp only
          rw [if_pos hcut, make_eq hcut.le, Option.bind_eq_bind, Option.bind_some, htrim, if_pos hinside,
            make_eq hinside.le]
          exact congrArg (fun it : SetCursor (AddressRange × V) => some it.next) hemplace
        · have htailPiece : afterEntry range e = some tail := by
            rw [afterEntry_eq_some, afterOf, dif_pos hinside, Option.some_inj, ext_iff']
            exact ⟨⟨Nat.max_eq_left (Nat.lt_trans hcut hrange).le, rfl⟩, rfl⟩
          have htailSelf : afterEntry range tail = some tail := afterEntry_of_le_start hinside le_rfl
          rw [eraseAndTrim htailRest hheadLeft hrange, hbeforePieces, hafter, hrest,
            List.filterMap_cons_some htailPiece, List.filterMap_cons_some htailSelf]
      · have hnoPiece : afterEntry range e = none := by
          rw [afterEntry, afterOf_of_end_le (Nat.not_lt.mp hinside), Option.map_none]
        refine ⟨⟨c.before ++ [head], rest⟩, ?_, ?_⟩
        · unfold trimFirst
          rw [hrest]
          dsimp only
          rw [if_pos hcut, make_eq hcut.le, Option.bind_eq_bind, Option.bind_some, htrim, if_neg hinside]
          rfl
        · rw [eraseAndTrim hcr' hheadLeft hrange, hbeforePieces, hafter, hrest, List.filterMap_cons_none hnoPiece]

/-- The values after `TrimOverlapsAndEmplace`. -/
theorem trim_spec (h : Disjoint m) (hrange : range.start < range.end_) (v : V) :
    ∃ m', trimOverlapsAndEmplace m range v = some (true, m') ∧ Disjoint m' ∧
      ∀ a, valueAt m' a = if range.contains a then some v else valueAt m a := by
  obtain ⟨hleft, hleftEnd⟩ := h.filterMap_beforeEntry range
  obtain ⟨hright, hrightStart⟩ := h.filterMap_afterEntry range
  have hdisjoint := (hleft.insert hright hrange hleftEnd hrightStart (v := v)).2
  refine ⟨_, trim_eq h hrange v, hdisjoint, fun a => valueAt_insert hdisjoint fun hout w => ?_⟩
  rw [valueAt_eq_some h, ← Bool.not_eq_true, contains_iff] at *
  constructor
  · rintro ⟨x', hx', ha, hw⟩
    rcases List.mem_append.mp hx' with hx' | hx'
    · obtain ⟨x, hx, hpiece⟩ := List.mem_filterMap.mp hx'
      obtain ⟨hpiece, hvalue⟩ := beforeEntry_eq_some.mp hpiece
      exact ⟨x, hx, (beforeOf_contains.mp ⟨x'.1, hpiece, ha⟩).1, hvalue.trans hw⟩
    · obtain ⟨x, hx, hpiece⟩ := List.mem_filterMap.mp hx'
      obtain ⟨hpiece, hvalue⟩ := afterEntry_eq_some.mp hpiece
      exact ⟨x, hx, (afterOf_contains.mp ⟨x'.1, hpiece, ha⟩).1, hvalue.trans hw⟩
  · rintro ⟨x, hx, ha, hw⟩
    rcases Nat.lt_or_ge a range.start with hlow | hlow
    · obtain ⟨y, hpiece, hay⟩ := beforeOf_contains.mpr ⟨ha, hlow⟩
      exact ⟨(y, x.2), List.mem_append_left _ (List.mem_filterMap.mpr ⟨x, hx, beforeEntry_eq_some.mpr ⟨hpiece, rfl⟩⟩),
        hay, hw⟩
    · have hhigh : range.end_ ≤ a := by omega
      obtain ⟨y, hpiece, hay⟩ := afterOf_contains.mpr ⟨ha, hhigh⟩
      exact ⟨(y, x.2), List.mem_append_right _ (List.mem_filterMap.mpr ⟨x, hx, afterEntry_eq_some.mpr ⟨hpiece, rfl⟩⟩),
        hay, hw⟩

/-- The values after `DeleteOverlapsAndEmplace`: an address of an entry that overlaps the range has none outside it. -/
theorem delete_spec (h : Disjoint m) (hrange : range.start < range.end_) (v : V) :
    ∃ called m', deleteOverlapsAndEmplace m range v = (true, called, m') ∧ Disjoint m' ∧
      called.Nodup ∧ (∀ e, e ∈ called ↔ e ∈ m ∧ range.overlaps e.1 = true) ∧
      ∀ a, valueAt m' a = if range.contains a then some v
        else ((find m a).filter fun e => !range.overlaps e.1).map Prod.snd := by
  have hlow : Disjoint (m.filter (·.1.end_ ≤ range.start)) :=
    ⟨h.apart.filter _, fun e he => h.nonempty e (List.mem_filter.mp he).1⟩
  have hhigh : Disjoint (m.filter (range.end_ ≤ ·.1.start)) :=
    ⟨h.apart.filter _, fun e he => h.nonempty e (List.mem_filter.mp he).1⟩
  have hdisjoint := (hlow.insert hhigh hrange (fun e he => of_decide_eq_true (List.mem_filter.mp he).2)
    (fun e he => of_decide_eq_true (List.mem_filter.mp he).2) (v := v)).2
  have hnodup : m.Nodup := by
    refine h.sorted.imp fun {x y} hxy heq => ?_
    rw [heq] at hxy
    exact Nat.lt_irrefl _ hxy
  refine ⟨_, _, delete_eq h hrange v, hdisjoint, List.Pairwise.filter _ hnodup, fun e => List.mem_filter, fun a =>
    valueAt_insert hdisjoint fun _ w => ?_⟩
  · have hside : ∀ e ∈ m, (e.1.end_ ≤ range.start ∨ range.end_ ≤ e.1.start) ↔ range.overlaps e.1 = false := by
      intro e he
      rw [← Bool.not_eq_true, overlaps_iff hrange (h.nonempty e he)]
      omega
    simp only [Option.map_eq_some_iff, Option.filter_eq_some_iff, find_eq_some h, List.mem_append, List.mem_filter,
      decide_eq_true_eq, ← and_or_left, Bool.not_eq_true']
    constructor
    · rintro ⟨e, ⟨he, hor⟩, ha, hw⟩
      exact ⟨e, ⟨⟨he, ha⟩, (hside e he).mp hor⟩, hw⟩
    · rintro ⟨e, ⟨⟨he, ha⟩, hnot⟩, hw⟩
      exact ⟨e, ⟨he, (hside e he).mpr hnot⟩, ha, hw⟩

/-! ### Runs -/

/-- A call of the class that changes the map. -/
inductive Call (V : Type) where
  | emplace (range : AddressRange) (v : V)
  | trimOverlapsAndEmplace (range : AddressRange) (v : V)
  | deleteOverlapsAndEmplace (range : AddressRange) (v : V)

def step (m : AddressRangeMap V) : Call V → Option (AddressRangeMap V)
  | .emplace range v => some (emplace m range v).2
  | .trimOverlapsAndEmplace range v => (trimOverlapsAndEmplace m range v).map Prod.snd
  | .deleteOverlapsAndEmplace range v => some (deleteOverlapsAndEmplace m range v).2.2

/-- A call keeps the invariants; one with an empty range does nothing. -/
theorem step_disjoint (h : Disjoint m) (call : Call V) : ∃ m', step m call = some m' ∧ Disjoint m' := by
  cases call with
  | emplace range v =>
    refine ⟨_, rfl, ?_⟩
    cases hempty : range.empty with
    | true => rwa [emplace, if_pos hempty]
    | false => exact (emplace_spec h (not_empty_iff.mp hempty) v).1
  | trimOverlapsAndEmplace range v =>
    cases hempty : range.empty with
    | true => exact ⟨m, by rw [step, trimOverlapsAndEmplace, if_pos hempty]; rfl, h⟩
    | false =>
      obtain ⟨m', htrim, hdisjoint, -⟩ := trim_spec h (not_empty_iff.mp hempty) v
      exact ⟨m', by rw [step, htrim]; rfl, hdisjoint⟩
  | deleteOverlapsAndEmplace range v =>
    refine ⟨_, rfl, ?_⟩
    cases hempty : range.empty with
    | true => rwa [deleteOverlapsAndEmplace, if_pos hempty]
    | false =>
      obtain ⟨called, m', hdelete, hdisjoint, -⟩ := delete_spec h (not_empty_iff.mp hempty) v
      rwa [hdelete]

theorem run_disjoint (calls : List (Call V)) : ∀ m : AddressRangeMap V, Disjoint m →
    ∃ m', calls.foldlM step m = some m' ∧ Disjoint m' := by
  induction calls with
  | nil => exact fun m h => ⟨m, rfl, h⟩
  | cons call calls ih =>
    intro m h
    obtain ⟨next, hstep, hnext⟩ := step_disjoint h call
    obtain ⟨m', hrun, hdisjoint⟩ := ih next hnext
    refine ⟨m', ?_, hdisjoint⟩
    rw [List.foldlM_cons, hstep]
    exact hrun

/-- Any sequence of calls runs to a map with the invariants, on which `Find` reads the one entry that contains an
address, and each further call with a non-empty range changes the values as it says. -/
theorem denotes_partial_function (calls : List (Call V)) :
    ∃ m : AddressRangeMap V, calls.foldlM step [] = some m ∧ Disjoint m ∧
      (∀ a e, find m a = some e ↔ e ∈ m ∧ e.1.contains a = true) ∧
      ∀ (range : AddressRange) (v : V), range.empty = false →
        ((emplace m range v).1 = true ↔ ∀ e ∈ m, range.overlaps e.1 = false) ∧
        ((emplace m range v).1 = false → (emplace m range v).2 = m) ∧
        ((emplace m range v).1 = true →
          ∀ a, valueAt (emplace m range v).2 a = if range.contains a then some v else valueAt m a) ∧
        (∃ m', trimOverlapsAndEmplace m range v = some (true, m') ∧
          ∀ a, valueAt m' a = if range.contains a then some v else valueAt m a) ∧
        (∃ called m', deleteOverlapsAndEmplace m range v = (true, called, m') ∧
          called.Nodup ∧ (∀ e, e ∈ called ↔ e ∈ m ∧ range.overlaps e.1 = true) ∧
          ∀ a, valueAt m' a = if range.contains a then some v
            else ((find m a).filter fun e => !range.overlaps e.1).map Prod.snd) := by
  obtain ⟨m, hrun, h⟩ := run_disjoint calls [] ⟨.nil, by simp⟩
  refine ⟨m, hrun, h, fun a e => find_eq_some h, fun range v hempty => ?_⟩
  have hrange := not_empty_iff.mp hempty
  obtain ⟨-, hresult, hfails, hsucceeds⟩ := emplace_spec h hrange v
  obtain ⟨m₁, htrim, -, htrimValues⟩ := trim_spec h hrange v
  obtain ⟨called, m₂, hdelete, -, hnodup, hcalled, hdeleteValues⟩ := delete_spec h hrange v
  exact ⟨hresult, hfails, hsucceeds, ⟨m₁, htrim, htrimValues⟩, called, m₂, hdelete, hnodup, hcalled, hdeleteValues⟩

/-- The new range is inside the one entry. -/
theorem denotes_split_entry : ∃ m m' : AddressRangeMap ℕ,
    [Call.emplace ⟨0, 10, by decide⟩ 1].foldlM step [] = some m ∧
      trimOverlapsAndEmplace m ⟨3, 5, by decide⟩ 2 = some (true, m') ∧
      ∀ a, valueAt m' a = if contains ⟨3, 5, by decide⟩ a then some 2 else valueAt m a := by
  obtain ⟨m, hrun, -, -, hcalls⟩ := denotes_partial_function [Call.emplace ⟨0, 10, by decide⟩ 1]
  obtain ⟨-, -, -, ⟨m', htrim, hvalues⟩, -⟩ := hcalls ⟨3, 5, by decide⟩ 2 (by decide)
  exact ⟨m, m', hrun, htrim, hvalues⟩

end AddressRangeMap

end LynxTrace.TraceProcessor
