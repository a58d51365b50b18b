import LynxTrace.TraceProcessor.GlobMatcher

/-!
# GlobMatching — which strings the matcher takes

* `findAll_plain`, `findAll_slow` : the segments that are not anchored, in order or anywhere.
* `matchesInput_star` : what the matcher checks of a pattern with a star.
* `Overlap` : the segments are all there, but not one after the other.
* The matcher takes the strings of the language exactly where its segments do not overlap.
-/

namespace LynxTrace.TraceProcessor.Glob

variable {m : GlobMatcher} {s : List Char} {segment : Segment} {g : List Token}

/-! ### Looking for one segment -/

theorem GlobMatcher.startsWith_iff (h : segment.Represents g)
    (hplain : m.containsCharClassOrQuestion = false → g.any Token.isSlow = false) (s : List Char) :
    m.startsWith s segment = true ↔ Begins g s := by
  unfold GlobMatcher.startsWith
  cases hflag : m.containsCharClassOrQuestion with
  | false => exact isPrefixOf_iff h.parses h.noStar (hplain hflag) s
  | true => exact startsWithSlow_iff h.parses h.noStar s

theorem GlobMatcher.endsWith_iff (h : segment.Represents g)
    (hplain : m.containsCharClassOrQuestion = false → g.any Token.isSlow = false) (s : List Char) :
    m.endsWith s segment = true ↔ g.length ≤ s.length ∧ Stands s g (s.length - g.length) := by
  have hstands : Stands s g (s.length - g.length) ↔ Begins g (s.drop (s.length - g.length)) :=
    and_iff_right (Nat.sub_le _ _)
  unfold GlobMatcher.endsWith
  rw [hstands]
  cases hflag : m.containsCharClassOrQuestion with
  | false =>
    have hlength := length_of_plain h.parses h.noStar (hplain hflag)
    rw [← isPrefixOf_iff h.parses h.noStar (hplain hflag), ← hlength]
    show segment.pattern.isSuffixOf s = true ↔ _
    rw [List.isSuffixOf_iff_suffix, List.isPrefixOf_iff_prefix]
    constructor
    · intro hsuffix
      exact ⟨hsuffix.length_le, (List.suffix_iff_eq_drop.mp hsuffix) ▸ List.prefix_rfl⟩
    · rintro ⟨hle, hpre⟩
      have heq := hpre.eq_of_length (by rw [List.length_drop]; omega)
      exact List.suffix_iff_eq_drop.mpr heq
  | true =>
    show (if segment.matchedChars ≤ s.length then
      startsWithSlow (s.drop (s.length - segment.matchedChars)) segment.pattern
      else startsWithSlow [] segment.pattern) = true ↔ _
    rw [h.matchedChars]
    split_ifs with hle
    · rw [startsWithSlow_iff h.parses h.noStar]
      exact (and_iff_right hle).symm
    · rw [startsWithSlow_iff h.parses h.noStar]
      refine iff_of_false (fun hbegins => ?_) fun hboth => hle hboth.1
      exact h.ne_nil (List.length_eq_zero_iff.mp (Nat.le_zero.mp hbegins.length_le))

/-! ### Looking for the segments between -/

variable {segments : List Segment} {gs : List (List Token)}

/-- Without classes and question marks the segments are found in order. -/
theorem GlobMatcher.findAll_plain (hflag : m.containsCharClassOrQuestion = false)
    (h : List.Forall₂ Segment.Represents segments gs) (hplain : ∀ g ∈ gs, g.any Token.isSlow = false) {findIdx : ℕ}
    (hle : findIdx ≤ s.length) : m.findAll s findIdx segments = true ↔ Placed s s.length findIdx gs := by
  induction h generalizing findIdx with
  | nil => exact iff_of_true rfl hle
  | @cons segment g segments gs hrep h ih =>
    have ih := fun {k} hk => @ih (fun g hg => hplain g (List.mem_cons_of_mem _ hg)) k hk
    have hpre := isPrefixOf_iff hrep.parses hrep.noStar (hplain g List.mem_cons_self)
    have hfind : m.find s segment findIdx =
        (List.range (s.length + 1)).find? fun pos => findIdx ≤ pos && segment.pattern.isPrefixOf (s.drop pos) := by
      rw [GlobMatcher.find, hflag]
      rfl
    rw [GlobMatcher.findAll, hfind]
    cases hpos : (List.range (s.length + 1)).find? fun pos =>
        findIdx ≤ pos && segment.pattern.isPrefixOf (s.drop pos) with
    | none =>
      refine iff_of_false nofun ?_
      rintro ⟨p, hp, hstands, -⟩
      rw [List.find?_eq_none] at hpos
      refine hpos p (List.mem_range.mpr (Nat.lt_succ_of_le hstands.1)) ?_
      rw [Bool.and_eq_true, decide_eq_true_iff, hpre]
      exact ⟨hp, hstands.2⟩
    | some pos =>
      obtain ⟨hhit, hmem, hleast⟩ := List.find?_range_eq_some.mp hpos
      rw [Bool.and_eq_true, decide_eq_true_iff, hpre] at hhit
      have hstands : Stands s g pos := ⟨Nat.le_of_lt_succ (List.mem_range.mp hmem), hhit.2⟩
      dsimp only
      rw [hrep.matchedChars, ih hstands.le_length]
      constructor
      · exact fun hrest => ⟨pos, hhit.1, hstands, hrest⟩
      · rintro ⟨p, hp, hp', hrest⟩
        -- the first place leaves the most room
        have hge : pos ≤ p := by
          by_contra hlt
          have hmiss := hleast p (Nat.not_le.mp hlt)
          rw [Bool.not_eq_true', Bool.and_eq_false_iff, decide_eq_false_iff_not] at hmiss
          rcases hmiss with hmiss | hmiss
          · exact hmiss hp
          · rw [(hpre _).mpr hp'.2] at hmiss
            cases hmiss
        exact hrest.mono (Nat.add_le_add_right hge _)

/-- With one of them, anywhere in the pattern, each segment is looked for in the whole string. -/
theorem GlobMatcher.findAll_slow (hflag : m.containsCharClassOrQuestion = true)
    (h : List.Forall₂ Segment.Represents segments gs) (findIdx : ℕ) :
    m.findAll s findIdx segments = true ↔ ∀ g ∈ gs, ∃ k, Stands s g k := by
  induction h generalizing findIdx with
  | nil => exact iff_of_true rfl fun g hg => absurd hg List.not_mem_nil
  | @cons segment g segments gs hrep h ih =>
    have hslow := startsWithSlow_iff hrep.parses hrep.noStar
    have hfind : m.find s segment findIdx =
        (List.range s.length).find? fun i => startsWithSlow (s.drop i) segment.pattern := by
      rw [GlobMatcher.find, hflag]
      rfl
    rw [GlobMatcher.findAll, hfind, List.forall_mem_cons]
    cases hpos : (List.range s.length).find? fun i => startsWithSlow (s.drop i) segment.pattern with
    | none =>
      refine iff_of_false nofun ?_
      rintro ⟨⟨k, hstands⟩, -⟩
      have hk := hstands.le_length
      have hg := List.length_pos_of_ne_nil hrep.ne_nil
      rw [List.find?_eq_none] at hpos
      exact hpos k (List.mem_range.mpr (by omega)) ((hslow _).mpr hstands.2)
    | some pos =>
      obtain ⟨hhit, hmem, -⟩ := List.find?_range_eq_some.mp hpos
      dsimp only
      rw [ih]
      exact (and_iff_right ⟨pos, Nat.le_of_lt (List.mem_range.mp hmem), (hslow _).mp hhit⟩).symm

/-! ### Whole patterns -/

variable {ts : List Token}

/-- What the matcher checks of the segments between the first and the last star. -/
def FoundBetween (ts : List Token) (s : List Char) (start : ℕ) (gs : List (List Token)) : Prop :=
  if ts.any Token.isSlow = true then ∀ g ∈ gs, ∃ k, Stands s g k else Placed s s.length start gs

/-- The tokens stand at the end. -/
def StandsLast (s : List Char) (g : List Token) : Prop := g.length ≤ s.length ∧ Stands s g (s.length - g.length)

theorem head?_star_iff (ts : List Token) :
    ts.head? = some .star ↔ (splitStar ts).1 = [] ∧ (splitStar ts).2 ≠ [] := by
  cases ts with
  | nil => exact iff_of_false nofun fun h => h.2 rfl
  | cons t ts => cases t <;> simp [splitStar]

theorem any_isSlow_splitStar (ts : List Token) {g : List Token} (hg : g ∈ (splitStar ts).1 :: (splitStar ts).2)
    (h : ts.any Token.isSlow = false) : g.any Token.isSlow = false := by
  induction ts generalizing g with
  | nil =>
    obtain rfl := List.mem_singleton.mp hg
    rfl
  | cons t ts ih =>
    rw [List.any_cons, Bool.or_eq_false_iff] at h
    have htoken : splitStar (t :: ts) = (t :: (splitStar ts).1, (splitStar ts).2) → g.any Token.isSlow = false := by
      intro hsplit
      rw [hsplit] at hg
      rcases List.mem_cons.mp hg with rfl | hg
      · rw [List.any_cons, h.1, ih List.mem_cons_self h.2]
        rfl
      · exact ih (List.mem_cons_of_mem _ hg) h.2
    cases t with
    | star =>
      rcases List.mem_cons.mp hg with rfl | hg
      · rfl
      · exact ih hg h.2
    | question => exact htoken rfl
    | cclass body => exact htoken rfl
    | char c => exact htoken rfl

theorem GlobMatcher.Represents.plain (h : m.Represents ts) {g : List Token}
    (hg : g ∈ (splitStar ts).1 :: (splitStar ts).2) :
    m.containsCharClassOrQuestion = false → g.any Token.isSlow = false := by
  rw [h.slow]
  exact any_isSlow_splitStar ts hg

/-- A pattern without stars. -/
theorem GlobMatcher.Represents.matchesInput_noStar (h : m.Represents ts) (hrest : (splitStar ts).2 = []) :
    m.matchesInput s = true ↔ Stands s (splitStar ts).1 0 ∧ (splitStar ts).1.length = s.length := by
  have hsegments := h.segments
  have hleading : m.leadingStar = false := by
    rw [← Bool.not_eq_true, h.leadingStar, head?_star_iff]
    exact fun hboth => hboth.2 hrest
  have hplain := h.plain (List.mem_cons_self)
  rw [hrest] at hsegments
  have hstands : Stands s (splitStar ts).1 0 ↔ Begins (splitStar ts).1 s := and_iff_right (Nat.zero_le _)
  rw [hstands]
  by_cases hnil : (splitStar ts).1 = []
  · rw [hnil, List.filter_cons_of_neg (by simp), List.filter_nil, List.forall₂_nil_right_iff] at hsegments
    rw [GlobMatcher.matchesInput, hsegments, hnil]
    dsimp only
    rw [hleading, Bool.false_or, List.isEmpty_iff]
    exact ⟨fun hs => ⟨trivial, hs ▸ rfl⟩, fun hboth => List.length_eq_zero_iff.mp hboth.2.symm⟩
  · rw [List.filter_cons_of_pos (by simpa using hnil), List.filter_nil] at hsegments
    have htrailing : m.trailingStar = false := by
      rw [← Bool.not_eq_true, h.trailingStar, hrest, List.getLast?_singleton, Option.some.injEq]
      exact fun hboth => hnil hboth.2
    cases hsegs : m.segments with
    | nil =>
      rw [hsegs] at hsegments
      cases hsegments
    | cons front rest =>
      rw [hsegs] at hsegments
      obtain ⟨hrep, hnone⟩ := List.forall₂_cons.mp hsegments
      obtain rfl := List.forall₂_nil_right_iff.mp hnone
      rw [GlobMatcher.matchesInput, hsegs]
      dsimp only
      rw [hleading, htrailing, if_pos (by simp), Bool.and_eq_true, decide_eq_true_iff, startsWith_iff hrep hplain,
        hrep.matchedChars, and_comm]

theorem forall₂_append_right {α β : Type*} {R : α → β → Prop} {l : List α} {l₁ l₂ : List β}
    (h : List.Forall₂ R l (l₁ ++ l₂)) : ∃ a b, l = a ++ b ∧ List.Forall₂ R a l₁ ∧ List.Forall₂ R b l₂ :=
  ⟨_, _, (List.take_append_drop l₁.length l).symm, List.forall₂_take_append l l₁ l₂ h,
    List.forall₂_drop_append l l₁ l₂ h⟩

/-- The segments of one part: none if the part is empty. -/
theorem represents_single {segs : List Segment} {g : List Token}
    (h : List.Forall₂ Segment.Represents segs ([g].filter (· ≠ []))) :
    (g = [] ∧ segs = []) ∨ (g ≠ [] ∧ ∃ segment, segs = [segment] ∧ segment.Represents g) := by
  by_cases hg : g = []
  · rw [List.filter_cons_of_neg (by simpa using hg), List.filter_nil, List.forall₂_nil_right_iff] at h
    exact Or.inl ⟨hg, h⟩
  · rw [List.filter_cons_of_pos (by simpa using hg), List.filter_nil] at h
    cases h with
    | @cons segment _ rest _ hrep hnone =>
      obtain rfl := List.forall₂_nil_right_iff.mp hnone
      exact Or.inr ⟨hg, segment, rfl, hrep⟩

/-- The segments between the first and the last star. -/
theorem GlobMatcher.Represents.findAll_iff (h : m.Represents ts) {ms : List (List Token)}
    (hsub : ∀ g ∈ ms, g ∈ (splitStar ts).1 :: (splitStar ts).2) {segs : List Segment}
    (hsegs : List.Forall₂ Segment.Represents segs (ms.filter (· ≠ []))) {start : ℕ} (hstart : start ≤ s.length) :
    m.findAll s start segs = true ↔ FoundBetween ts s start ms := by
  unfold FoundBetween
  have hflag := h.slow
  cases hslow : ts.any Token.isSlow with
  | true =>
    rw [hslow] at hflag
    rw [findAll_slow hflag hsegs, if_pos rfl]
    constructor
    · intro hall g hg
      by_cases hnil : g = []
      · exact ⟨0, hnil ▸ stands_nil.mpr (Nat.zero_le _)⟩
      · exact hall g (List.mem_filter.mpr ⟨hg, decide_eq_true hnil⟩)
    · exact fun hall g hg => hall g (List.mem_of_mem_filter hg)
  | false =>
    rw [hslow] at hflag
    have hplain : ∀ g ∈ ms.filter (· ≠ []), g.any Token.isSlow = false :=
      fun g hg => h.plain (hsub g (List.mem_of_mem_filter hg)) hflag
    rw [findAll_plain hflag hsegs hplain hstart, placed_filter (Nat.le_refl _), if_neg Bool.false_ne_true]

/-- **A pattern with a star.** -/
theorem GlobMatcher.Represents.matchesInput_star (h : m.Represents ts) {ms : List (List Token)} {l : List Token}
    (hrest : (splitStar ts).2 = ms ++ [l]) :
    m.matchesInput s = true ↔ Stands s (splitStar ts).1 0 ∧ StandsLast s l ∧
      FoundBetween ts s (splitStar ts).1.length ms := by
  have hsegments := h.segments
  have hplain := fun {g} hg => h.plain (g := g) hg
  have hfind : ∀ {segs}, List.Forall₂ Segment.Represents segs (ms.filter (· ≠ [])) → ∀ {i}, i ≤ s.length →
      (m.findAll s i segs = true ↔ FoundBetween ts s i ms) := fun hsegs _ hi =>
    h.findAll_iff (fun g hg => List.mem_cons_of_mem _ (hrest ▸ List.mem_append_left _ hg)) hsegs hi
  have hne : (splitStar ts).2 ≠ [] := hrest ▸ List.concat_ne_nil l ms
  have hleading : m.leadingStar = true ↔ (splitStar ts).1 = [] := by
    rw [h.leadingStar, head?_star_iff, and_iff_left hne]
  have htrailing : m.trailingStar = true ↔ l = [] := by
    have hts : ts ≠ [] := by
      rintro rfl
      exact hne rfl
    rw [h.trailingStar, and_iff_right hts, hrest, ← List.cons_append, List.getLast?_concat, Option.some.injEq]
  have hmem₁ : (splitStar ts).1 ∈ (splitStar ts).1 :: (splitStar ts).2 := List.mem_cons_self
  have hmem₂ : l ∈ (splitStar ts).1 :: (splitStar ts).2 :=
    List.mem_cons_of_mem _ (hrest ▸ List.mem_append_right _ (List.mem_singleton_self l))
  rw [hrest] at hsegments
  generalize (splitStar ts).1 = g at *
  have hsplit : (g :: (ms ++ [l])).filter (· ≠ []) =
      [g].filter (· ≠ []) ++ (ms.filter (· ≠ []) ++ [l].filter (· ≠ [])) := by
    rw [← List.filter_append, ← List.filter_append, List.singleton_append]
  rw [hsplit] at hsegments
  obtain ⟨front, rest, hsegs, hfront, hrest'⟩ := forall₂_append_right hsegments
  obtain ⟨between, back, rfl, hbetween, hback⟩ := forall₂_append_right hrest'
  have hunanchored : ∀ n k, m.leadingStar = decide (n = 0) → m.trailingStar = decide (k = 0) → front.length = n →
      back.length = k → n ≤ 1 → k ≤ 1 → m.unanchored = between := by
    intro n k hn hk hfrontLength hbackLength hn1 hk1
    have hfirst : (if m.leadingStar then 0 else 1) = front.length := by
      rw [hn, hfrontLength]
      rcases Nat.le_one_iff_eq_zero_or_eq_one.mp hn1 with rfl | rfl <;> rfl
    have hlast : (if m.trailingStar then 0 else 1) = back.length := by
      rw [hk, hbackLength]
      rcases Nat.le_one_iff_eq_zero_or_eq_one.mp hk1 with rfl | rfl <;> rfl
    rw [GlobMatcher.unanchored, hfirst, hlast, hsegs, List.drop_left]
    have hcount : (front ++ (between ++ back)).length - back.length - front.length = between.length := by
      rw [List.length_append, List.length_append]
      omega
    rw [hcount, List.take_left]
  have hstands : Stands s g 0 ↔ Begins g s := and_iff_right (Nat.zero_le _)
  rcases represents_single hfront with ⟨rfl, rfl⟩ | ⟨hg, segment, rfl, hrep⟩ <;>
    rcases represents_single hback with ⟨rfl, rfl⟩ | ⟨hl, last, rfl, hlast⟩
  · have hlead := hleading.mpr rfl
    have htrail := htrailing.mpr rfl
    have hmatch : m.matchesInput s = m.findAll s 0 between := by
      rw [GlobMatcher.matchesInput, hunanchored 0 0 hlead htrail rfl rfl (Nat.zero_le 1) (Nat.zero_le 1), hsegs,
        List.nil_append, List.append_nil]
      cases between with
      | nil => simp [hlead, findAll]
      | cons segment rest => simp [hlead, htrail]
    rw [hmatch, hfind hbetween (Nat.zero_le _), stands_nil, and_iff_right (Nat.zero_le _)]
    exact (and_iff_right ⟨Nat.zero_le _, stands_nil.mpr (Nat.le_refl _)⟩).symm
  · have hlead := hleading.mpr rfl
    have htrail := Bool.not_eq_true _ ▸ mt htrailing.mp hl
    have hmatch : m.matchesInput s = (m.endsWith s last && m.findAll s 0 between) := by
      obtain ⟨front, rest, hcons⟩ := List.exists_cons_of_ne_nil (List.concat_ne_nil last between)
      have hback : (front :: rest).getLast (List.cons_ne_nil front rest) = last := by
        simp only [← hcons, List.getLast_concat]
      rw [GlobMatcher.matchesInput, hunanchored 0 1 hlead htrail rfl rfl (Nat.zero_le 1) (Nat.le_refl 1), hsegs,
        List.nil_append, hcons]
      dsimp only
      rw [hback, hlead, htrail]
      cases m.endsWith s last <;> simp
    rw [hmatch, Bool.and_eq_true, hfind hbetween (Nat.zero_le _), endsWith_iff hlast (hplain hmem₂), stands_nil,
      and_iff_right (Nat.zero_le _)]
    rfl
  · have hlead := Bool.not_eq_true _ ▸ mt hleading.mp hg
    have htrail := htrailing.mpr rfl
    have hmatch : m.matchesInput s = (m.startsWith s segment && m.findAll s segment.matchedChars between) := by
      rw [GlobMatcher.matchesInput, hunanchored 1 0 hlead htrail rfl rfl (Nat.le_refl 1) (Nat.zero_le 1), hsegs,
        List.append_nil, List.singleton_append]
      dsimp only
      rw [hlead, htrail]
      cases m.startsWith s segment <;> simp
    rw [hmatch, Bool.and_eq_true, startsWith_iff hrep (hplain hmem₁), ← hstands, hrep.matchedChars]
    refine and_congr_right fun hfirst => ?_
    have hle := hfirst.le_length
    rw [Nat.zero_add] at hle
    rw [hfind hbetween hle]
    exact (and_iff_right ⟨Nat.zero_le _, stands_nil.mpr (Nat.le_refl _)⟩).symm
  · have hlead := Bool.not_eq_true _ ▸ mt hleading.mp hg
    have htrail := Bool.not_eq_true _ ▸ mt htrailing.mp hl
    have hmatch : m.matchesInput s =
        (m.startsWith s segment && (m.endsWith s last && m.findAll s segment.matchedChars between)) := by
      have hback : (segment :: (between ++ [last])).getLast (List.cons_ne_nil _ _) = last := by
        rw [List.getLast_cons (by simp), List.getLast_concat]
      rw [GlobMatcher.matchesInput, hunanchored 1 1 hlead htrail rfl rfl (Nat.le_refl 1) (Nat.le_refl 1), hsegs,
        List.singleton_append]
      dsimp only
      rw [hback, hlead, htrail]
      cases m.startsWith s segment <;> cases m.endsWith s last <;> simp
    rw [hmatch, Bool.and_eq_true, Bool.and_eq_true, startsWith_iff hrep (hplain hmem₁), ← hstands, hrep.matchedChars,
      endsWith_iff hlast (hplain hmem₂)]
    refine and_congr_right fun hfirst => and_congr_right fun _ => ?_
    have hle := hfirst.le_length
    rw [Nat.zero_add] at hle
    exact hfind hbetween hle

/-! ### The language -/

/-- A string is accepted where the part before the first star stands at its start, the part after the last star at its
end, and the others one after the other between these. -/
theorem accepts_star_iff {ms : List (List Token)} {l : List Token} (hrest : (splitStar ts).2 = ms ++ [l]) :
    Accepts ts s ↔ Stands s (splitStar ts).1 0 ∧ StandsLast s l ∧
      Placed s (s.length - l.length) (splitStar ts).1.length ms := by
  have h := accepts_drop_iff ts (Nat.zero_le s.length)
  rw [List.drop_zero, Nat.zero_add, hrest, placedToEnd_concat] at h
  rw [h, StandsLast, and_assoc]

/-- The parts of the pattern all stand in the string: the first at its start, the last at its end, and the others where
the matcher finds them; but they do not stand one after the other. -/
def Overlap (ts : List Token) (s : List Char) : Prop :=
  ∃ ms l, (splitStar ts).2 = ms ++ [l] ∧ Stands s (splitStar ts).1 0 ∧ StandsLast s l ∧
    FoundBetween ts s (splitStar ts).1.length ms ∧ ¬ Placed s (s.length - l.length) (splitStar ts).1.length ms

theorem Placed.foundBetween {start : ℕ} (h : Placed s lim start gs) (hlim : lim ≤ s.length) :
    FoundBetween ts s start gs := by
  unfold FoundBetween
  split
  · exact h.stands
  · exact h.mono_lim hlim

/-- **The matcher takes the strings of the language** exactly where its segments do not overlap. -/
theorem matchesInput_iff_accepts {pattern : List Char} (h : Parses pattern ts) (hnul : '\x00' ∉ pattern)
    (s : List Char) :
    ((GlobMatcher.fromPattern pattern).matchesInput s = true ↔ Accepts ts s) ↔ ¬ Overlap ts s := by
  have hrep := fromPattern_spec h hnul
  rcases List.eq_nil_or_concat (splitStar ts).2 with hnil | ⟨ms, l, hrest⟩
  · have haccepts : Accepts ts s ↔ Stands s (splitStar ts).1 0 ∧ (splitStar ts).1.length = s.length := by
      have hdrop := accepts_drop_iff ts (Nat.zero_le s.length)
      rw [List.drop_zero, Nat.zero_add, hnil] at hdrop
      exact hdrop
    rw [hrep.matchesInput_noStar hnil, haccepts]
    refine iff_of_true Iff.rfl ?_
    rintro ⟨ms, l, hconcat, -⟩
    rw [hnil] at hconcat
    exact List.concat_ne_nil l ms hconcat.symm
  · rw [List.concat_eq_append] at hrest
    have hoverlap : Overlap ts s ↔ Stands s (splitStar ts).1 0 ∧ StandsLast s l ∧
        FoundBetween ts s (splitStar ts).1.length ms ∧
          ¬ Placed s (s.length - l.length) (splitStar ts).1.length ms := by
      constructor
      · rintro ⟨ms', l', hrest', hall⟩
        obtain ⟨rfl, hl⟩ := List.append_inj' (hrest.symm.trans hrest') rfl
        obtain rfl := List.singleton_inj.mp hl
        exact hall
      · exact fun hall => ⟨ms, l, hrest, hall⟩
    have hfound : Placed s (s.length - l.length) (splitStar ts).1.length ms →
        FoundBetween ts s (splitStar ts).1.length ms := fun hplaced => hplaced.foundBetween (Nat.sub_le _ _)
    rw [hrep.matchesInput_star hrest, accepts_star_iff hrest, hoverlap]
    constructor
    · rintro hiff ⟨hfirst, hlast, hbetween, hnot⟩
      exact hnot (hiff.mp ⟨hfirst, hlast, hbetween⟩).2.2
    · intro hnot
      constructor
      · rintro ⟨hfirst, hlast, hbetween⟩
        by_contra hall
        exact hnot ⟨hfirst, hlast, hbetween, fun hplaced => hall ⟨hfirst, hlast, hplaced⟩⟩
      · rintro ⟨hfirst, hlast, hplaced⟩
        exact ⟨hfirst, hlast, hfound hplaced⟩

/-- A class between two stars. -/
theorem matchesInput_iff_accepts_ends :
    (GlobMatcher.fromPattern "a*[b]*c".toList).matchesInput "abbc".toList = true ↔
      Accepts [.char 'a', .star, .cclass ['b'], .star, .char 'c'] "abbc".toList := by
  have hc : Parses ['c'] [.char 'c'] := .char (by decide) (by decide) (by decide) .nil
  have hparses : Parses "a*[b]*c".toList [.char 'a', .star, .cclass ['b'], .star, .char 'c'] :=
    .char (by decide) (by decide) (by decide)
      (.star (.cclass (.plain (x := 'b') (by decide) List.not_mem_nil) (.star hc)))
  refine (matchesInput_iff_accepts hparses (by decide) _).mpr ?_
  rintro ⟨ms, l, hrest, -, -, -, hnot⟩
  have hsplit : [[Token.cclass ['b']]] ++ [[Token.char 'c']] = ms ++ [l] := hrest
  obtain ⟨rfl, hl⟩ := List.append_inj' hsplit rfl
  obtain rfl := List.singleton_inj.mp hl
  -- the class takes the first of the two characters
  have hmember : Member ['b'] 'b' := ⟨0, 'b', rfl, by rw [if_neg (by decide)]⟩
  exact hnot ⟨1, Nat.le_refl 1, ⟨by decide, hmember, trivial⟩, show 2 ≤ 3 by decide⟩

/-- In `ab` the matcher finds the second class of `*[b]*[a]*` before the first. -/
theorem not_matchesInput_iff_accepts :
    Parses "*[b]*[a]*".toList [.star, .cclass ['b'], .star, .cclass ['a'], .star] ∧
      ¬ ((GlobMatcher.fromPattern "*[b]*[a]*".toList).matchesInput "ab".toList = true ↔
        Accepts [.star, .cclass ['b'], .star, .cclass ['a'], .star] "ab".toList) := by
  have hclass : ∀ x : Char, x ≠ '^' → IsClass [x] := fun x hx => IsClass.plain hx List.not_mem_nil
  refine ⟨.star (.cclass (hclass 'b' (by decide)) (.star (.cclass (hclass 'a' (by decide)) (.star .nil)))),
    fun h => ?_⟩
  have haccepts := h.mp (by decide)
  have hsplit : (splitStar [.star, .cclass ['b'], .star, .cclass ['a'], .star]).2 =
      [[Token.cclass ['b']], [Token.cclass ['a']]] ++ [[]] := rfl
  obtain ⟨-, -, p, -, hb, q, hq, ha, -⟩ := (accepts_star_iff hsplit).mp haccepts
  have hpos : p ≠ 0 := by
    rintro rfl
    obtain ⟨i, x, hx, hhit⟩ : Member ['b'] 'a' := hb.2.1
    cases i with
    | zero =>
      obtain rfl : 'b' = x := Option.some.inj hx
      rw [if_neg (by decide)] at hhit
      exact absurd hhit (by decide)
    | succ i => cases hx
  have hle := ha.le_length
  have htwo : "ab".toList.length = 2 := rfl
  simp only [List.length_singleton] at hq hle
  omega

end LynxTrace.TraceProcessor.Glob
