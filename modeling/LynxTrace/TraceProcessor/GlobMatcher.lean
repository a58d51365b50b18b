import LynxTrace.TraceProcessor.GlobLanguage
import Mathlib.Data.List.Forall2
import Mathlib.Data.List.GetD
import Mathlib.Data.List.TakeWhile

/-!
# GlobMatcher — the segments of a pattern, and how they are looked for

`extractCharacterClass`, `matchesCharacterClass`, `startsWithSlow`, `fromPattern` and `matchesInput` follow `glob.cc`;
strings are lists of characters, of which the source takes fewer than `2 ^ 32`.
-/

namespace LynxTrace.TraceProcessor.Glob

/-! ### The source -/

/-- `StringView::find` of a character. -/
def findChar (s : List Char) (c : Char) (start : ℕ) : Option ℕ :=
  ((s.drop start).findIdx? (· = c)).map (· + start)

def extractCharacterClass (s : List Char) : List Char :=
  if s = [] then []
  else
    let invert := s.head? = some '^'
    match findChar s ']' (if invert then 2 else 1) with
    | none => []
    | some endIdx => s.take endIdx

/-- The loop over a character class; `prev` is the character before, if there is one. -/
def scanClass (c : Char) (invert : Bool) : Option Char → List Char → Bool
  | _, [] => invert
  | prev, cur :: rest =>
    match cur, prev, rest with
    | '-', some rangeStart, rangeEnd :: _ =>
      if rangeStart ≤ c ∧ c ≤ rangeEnd then !invert else scanClass c invert (some cur) rest
    | _, _, _ => if c = cur then !invert else scanClass c invert (some cur) rest

def matchesCharacterClass (c : Char) (cclass : List Char) : Bool :=
  let invert := cclass.head? = some '^'
  scanClass c invert none (if invert then cclass.tail else cclass)

def startsWithSlow : List Char → List Char → Bool
  | _, [] => true
  | [], _ :: _ => false
  | c :: s, p :: pattern =>
    if p = '?' then startsWithSlow s pattern
    else if p = '[' then
      let cclass := extractCharacterClass pattern
      if !matchesCharacterClass c cclass then false else startsWithSlow s (pattern.drop (cclass.length + 1))
    else if c ≠ p then false
    else startsWithSlow s pattern

structure Segment where
  pattern : List Char
  matchedChars : ℕ
  deriving DecidableEq, Repr

structure GlobMatcher where
  segments : List Segment
  leadingStar : Bool
  trailingStar : Bool
  containsCharClassOrQuestion : Bool
  deriving DecidableEq, Repr

/-- What the constructor has collected. -/
structure Builder where
  segmentStart : ℕ := 0
  potentialMatchedChars : ℕ := 0
  segments : List Segment := []
  containsCharClassOrQuestion : Bool := false
  deriving DecidableEq, Repr

/-- The segment of the pattern that ends before `i`. -/
def Builder.segment (b : Builder) (pattern : List Char) (i : ℕ) : List Char :=
  (pattern.drop b.segmentStart).take (i - b.segmentStart)

/-- `create_segment`; it adds no empty segment. -/
def Builder.createSegment (b : Builder) (pattern : List Char) (i : ℕ) : Builder :=
  if b.segment pattern i = [] then b
  else { b with segments := b.segments ++ [⟨b.segment pattern i, b.potentialMatchedChars⟩] }

/-- The loop of the constructor, for a number of rounds. -/
def scanPattern (pattern : List Char) : ℕ → ℕ → Builder → Builder
  | 0, _, b => b
  | rounds + 1, i, b =>
    if i < pattern.length then
      let c := pattern.getD i '\x00'
      if c ≠ '*' then
        let cclass := if c = '[' then extractCharacterClass (pattern.drop (i + 1)) else []
        let last := if c = '[' then i + 1 + cclass.length else i
        scanPattern pattern rounds (last + 1)
          { b with
            containsCharClassOrQuestion := b.containsCharClassOrQuestion || cclass ≠ [] || c = '?'
            potentialMatchedChars := b.potentialMatchedChars + 1 }
      else
        scanPattern pattern rounds (i + 1)
          { b.createSegment pattern i with segmentStart := i + 1, potentialMatchedChars := 0 }
    else b

/-- The constructor.  The copy of the pattern ends at the first NUL. -/
def GlobMatcher.fromPattern (patternStr : List Char) : GlobMatcher :=
  let pattern := patternStr.takeWhile (· ≠ '\x00')
  let b := scanPattern pattern pattern.length 0 {}
  let emptySegment := b.segment pattern pattern.length = []
  { segments := (b.createSegment pattern pattern.length).segments
    leadingStar := pattern.head? = some '*'
    trailingStar := pattern ≠ [] && emptySegment
    containsCharClassOrQuestion := b.containsCharClassOrQuestion }

namespace GlobMatcher

variable (m : GlobMatcher)

def startsWith (s : List Char) (segment : Segment) : Bool :=
  if !m.containsCharClassOrQuestion then segment.pattern.isPrefixOf s else startsWithSlow s segment.pattern

/-- Where the segment is longer than the string, `size_t` wraps, and `substr` from there is empty. -/
def endsWith (s : List Char) (segment : Segment) : Bool :=
  if !m.containsCharClassOrQuestion then segment.pattern.isSuffixOf s
  else if segment.matchedChars ≤ s.length then
    startsWithSlow (s.drop (s.length - segment.matchedChars)) segment.pattern
  else startsWithSlow [] segment.pattern

/-- `Find`; `start` is used only where no class and no question mark is in the pattern. -/
def find (s : List Char) (segment : Segment) (start : ℕ) : Option ℕ :=
  if !m.containsCharClassOrQuestion then
    (List.range (s.length + 1)).find? fun pos => start ≤ pos && segment.pattern.isPrefixOf (s.drop pos)
  else (List.range s.length).find? fun i => startsWithSlow (s.drop i) segment.pattern

/-- The loop over the segments that are not anchored. -/
def findAll (s : List Char) : ℕ → List Segment → Bool
  | _, [] => true
  | findIdx, segment :: segments =>
    match m.find s segment findIdx with
    | none => false
    | some pos => findAll s (pos + segment.matchedChars) segments

/-- The segments from `segment_start` up to `segment_end`. -/
def unanchored : List Segment :=
  let first := if m.leadingStar then 0 else 1
  let last := if m.trailingStar then 0 else 1
  (m.segments.drop first).take (m.segments.length - last - first)

/-- `Matches`. -/
def matchesInput (s : List Char) : Bool :=
  match m.segments with
  | [] => m.leadingStar || s.isEmpty
  | front :: rest =>
    if rest = [] && !m.leadingStar && !m.trailingStar then front.matchedChars = s.length && m.startsWith s front
    else if !m.leadingStar && !m.startsWith s front then false
    else if !m.trailingStar && !m.endsWith s ((front :: rest).getLast (List.cons_ne_nil front rest)) then false
    else m.findAll s (if m.leadingStar then 0 else front.matchedChars) m.unanchored

end GlobMatcher

example : (GlobMatcher.fromPattern "A*B*C".toList).matchesInput "ABXC".toList = true := by decide

/-! ### Character classes -/

theorem findIdx?_first {l : List Char} {c : Char} (h : c ∉ l) (rest : List Char) :
    (l ++ c :: rest).findIdx? (· = c) = some l.length := by
  induction l with
  | nil => simp [List.findIdx?_cons]
  | cons x l ih =>
    have hx : ¬ x = c := fun hx => h (hx ▸ List.mem_cons_self)
    have hl := ih fun hc => h (List.mem_cons_of_mem x hc)
    rw [List.cons_append, List.findIdx?_cons, hl]
    simp [hx]

/-- The class up to its `]`. -/
theorem extractCharacterClass_eq {body : List Char} (h : IsClass body) (p : List Char) :
    extractCharacterClass (body ++ ']' :: p) = body := by
  cases h with
  | @plain x rest hx hrest =>
    have hfind : findChar (x :: rest ++ ']' :: p) ']' 1 = some (x :: rest).length := by
      rw [findChar, List.cons_append, List.drop_one, List.tail_cons, findIdx?_first hrest]
      rfl
    have hhead : ¬ (x :: rest ++ ']' :: p).head? = some '^' := by simpa using hx
    rw [extractCharacterClass, if_neg (by simp)]
    simp only [hhead, if_false, hfind, List.take_left]
  | @inverted x rest hrest =>
    have hfind : findChar ('^' :: x :: rest ++ ']' :: p) ']' 2 = some ('^' :: x :: rest).length := by
      rw [findChar, List.cons_append, List.cons_append, List.drop_succ_cons, List.drop_succ_cons, List.drop_zero,
        findIdx?_first hrest]
      rfl
    have hhead : ('^' :: x :: rest ++ ']' :: p).head? = some '^' := rfl
    rw [extractCharacterClass, if_neg (by simp)]
    simp only [hhead, if_true, hfind, List.take_left]

/-- The character of the class at the place `i`, or the range there. -/
def Hit (body : List Char) (c : Char) (i : ℕ) : Prop :=
  ∃ x, body[i]? = some x ∧
    if x = '-' ∧ 0 < i ∧ i + 1 < body.length then
      ∃ lo hi, body[i - 1]? = some lo ∧ body[i + 1]? = some hi ∧ lo ≤ c ∧ c ≤ hi
    else c = x

theorem hit_iff {pre rest : List Char} {cur c : Char} (h : ¬ (cur = '-' ∧ pre ≠ [] ∧ rest ≠ [])) :
    Hit (pre ++ cur :: rest) c pre.length ↔ c = cur := by
  have hcur : (pre ++ cur :: rest)[pre.length]? = some cur := by simp
  have hcond : ¬ (cur = '-' ∧ 0 < pre.length ∧ pre.length + 1 < (pre ++ cur :: rest).length) := by
    rintro ⟨hdash, hpre, hrest⟩
    refine h ⟨hdash, List.ne_nil_of_length_pos hpre, List.ne_nil_of_length_pos ?_⟩
    rw [List.length_append, List.length_cons] at hrest
    omega
  constructor
  · rintro ⟨x, hx, hhit⟩
    obtain rfl := Option.some.inj (hcur.symm.trans hx)
    rwa [if_neg hcond] at hhit
  · rintro rfl
    exact ⟨c, hcur, by rw [if_neg hcond]⟩

theorem hit_range_iff {pre rest : List Char} {lo hi c : Char} :
    Hit (pre ++ [lo] ++ '-' :: hi :: rest) c (pre ++ [lo]).length ↔ lo ≤ c ∧ c ≤ hi := by
  have hcur : (pre ++ [lo] ++ '-' :: hi :: rest)[(pre ++ [lo]).length]? = some '-' := by simp
  have hlo : (pre ++ [lo] ++ '-' :: hi :: rest)[(pre ++ [lo]).length - 1]? = some lo := by simp
  have hhi : (pre ++ [lo] ++ '-' :: hi :: rest)[(pre ++ [lo]).length + 1]? = some hi := by
    rw [List.getElem?_append_right (Nat.le_add_right _ 1), Nat.add_sub_cancel_left]
    rfl
  have hcond : '-' = '-' ∧ 0 < (pre ++ [lo]).length ∧
      (pre ++ [lo]).length + 1 < (pre ++ [lo] ++ '-' :: hi :: rest).length := by
    refine ⟨rfl, ?_⟩
    simp only [List.length_append, List.length_cons, List.length_nil]
    omega
  constructor
  · rintro ⟨x, hx, hhit⟩
    obtain rfl := Option.some.inj (hcur.symm.trans hx)
    rw [if_pos hcond] at hhit
    obtain ⟨lo', hi', hlo', hhi', hrange⟩ := hhit
    obtain rfl := Option.some.inj (hlo.symm.trans hlo')
    obtain rfl := Option.some.inj (hhi.symm.trans hhi')
    exact hrange
  · intro hrange
    exact ⟨'-', hcur, by rw [if_pos hcond]; exact ⟨lo, hi, hlo, hhi, hrange⟩⟩

/-- The loop stops at the first hit. -/
theorem scanClass_iff (c : Char) (invert : Bool) (l pre : List Char) :
    scanClass c invert pre.getLast? l = true ↔
      ((∃ i, pre.length ≤ i ∧ Hit (pre ++ l) c i) ↔ invert = false) := by
  induction l generalizing pre with
  | nil =>
    have hnone : ¬ ∃ i, pre.length ≤ i ∧ Hit (pre ++ []) c i := by
      rintro ⟨i, hi, x, hx, -⟩
      rw [List.append_nil, List.getElem?_eq_none hi] at hx
      cases hx
    rw [iff_false_intro hnone, scanClass]
    cases invert <;> simp
  | cons cur rest ih =>
    have hsplit : (∃ i, pre.length ≤ i ∧ Hit (pre ++ cur :: rest) c i) ↔
        Hit (pre ++ cur :: rest) c pre.length ∨
          ∃ i, (pre ++ [cur]).length ≤ i ∧ Hit (pre ++ [cur] ++ rest) c i := by
      rw [List.append_assoc, List.singleton_append, List.length_append, List.length_singleton]
      constructor
      · rintro ⟨i, hi, hhit⟩
        rcases Nat.lt_or_eq_of_le hi with hlt | rfl
        · exact Or.inr ⟨i, hlt, hhit⟩
        · exact Or.inl hhit
      · rintro (hhit | ⟨i, hi, hhit⟩)
        · exact ⟨_, Nat.le_refl _, hhit⟩
        · exact ⟨i, Nat.le_of_succ_le hi, hhit⟩
    have hih := ih (pre ++ [cur])
    rw [List.getLast?_concat] at hih
    rw [hsplit]
    by_cases hrange : cur = '-' ∧ pre ≠ [] ∧ rest ≠ []
    · obtain ⟨rfl, hpre, hrest⟩ := hrange
      obtain ⟨pre, lo, rfl⟩ := List.eq_nil_or_concat pre |>.resolve_left hpre
      obtain ⟨hi, rest, rfl⟩ := List.exists_cons_of_ne_nil hrest
      have hscan : scanClass c invert (some lo) ('-' :: hi :: rest) =
          if lo ≤ c ∧ c ≤ hi then !invert else scanClass c invert (some '-') (hi :: rest) := rfl
      rw [List.concat_eq_append] at hih ⊢
      rw [List.getLast?_concat, hscan, hit_range_iff]
      split_ifs with hc
      · cases invert <;> simp [hc]
      · rw [hih, or_iff_right hc]
    · have hscan : scanClass c invert pre.getLast? (cur :: rest) =
          if c = cur then !invert else scanClass c invert (some cur) rest := by
        rw [scanClass]
        intro lo hi tail hcur hlast hrest
        refine hrange ⟨hcur, ?_, hrest ▸ nofun⟩
        rintro rfl
        cases hlast
      rw [hscan, hit_iff hrange]
      split_ifs with hc
      · cases invert <;> simp [hc]
      · rw [hih, or_iff_right hc]

theorem matchesCharacterClass_iff {body : List Char} (h : IsClass body) (c : Char) :
    matchesCharacterClass c body = true ↔ TakesClass body c := by
  have hmember : ∀ invert l, scanClass c invert none l = true ↔ (Member l c ↔ invert = false) := by
    intro invert l
    have := scanClass_iff c invert l []
    simpa [Member, Hit] using this
  cases h with
  | @plain x rest hx hrest =>
    have hhead : ¬ (x :: rest).head? = some '^' := by simpa using hx
    have htakes : TakesClass (x :: rest) c = Member (x :: rest) c := by
      unfold TakesClass
      split
      · rename_i heq
        exact absurd (List.cons.inj heq).1 hx
      · rfl
    simp only [matchesCharacterClass, hhead, decide_false, if_false, hmember, htakes, iff_true]
  | @inverted x rest hrest =>
    have hhead : ('^' :: x :: rest).head? = some '^' := rfl
    simp only [matchesCharacterClass, hhead, decide_true, if_true, hmember, List.tail_cons, TakesClass,
      Bool.true_eq_false, iff_false]

/-! ### Segments -/

/-- A part of a pattern that is not empty and has no star, and the number of its tokens. -/
structure Segment.Represents (segment : Segment) (g : List Token) : Prop where
  parses : Parses segment.pattern g
  matchedChars : segment.matchedChars = g.length
  noStar : .star ∉ g
  ne_nil : g ≠ []

variable {p pattern : List Char}

theorem startsWithSlow_iff {g : List Token} (h : Parses p g) (hstar : .star ∉ g) (s : List Char) :
    startsWithSlow s p = true ↔ Begins g s := by
  induction h generalizing s with
  | nil => cases s <;> exact iff_of_true rfl trivial
  | star => exact absurd List.mem_cons_self hstar
  | question h ih =>
    have ih := ih (fun hmem => hstar (List.mem_cons_of_mem _ hmem))
    cases s with
    | nil => exact iff_of_false nofun id
    | cons c s =>
      rw [startsWithSlow, if_pos rfl, ih, Begins]
      exact (and_iff_right trivial).symm
  | @cclass body p ts hclass h ih =>
    have ih := ih (fun hmem => hstar (List.mem_cons_of_mem _ hmem))
    cases s with
    | nil => exact iff_of_false nofun id
    | cons c s =>
      have hdrop : (body ++ ']' :: p).drop (body.length + 1) = p := by
        rw [← List.drop_drop, List.drop_left, List.drop_one, List.tail_cons]
      rw [List.cons_append, startsWithSlow, if_neg (by decide), if_pos rfl]
      dsimp only
      rw [extractCharacterClass_eq hclass, hdrop, Begins, Token.Takes, ← matchesCharacterClass_iff hclass, ← ih]
      cases matchesCharacterClass c body <;> simp
  | @char x p ts hx₁ hx₂ hx₃ h ih =>
    have ih := ih (fun hmem => hstar (List.mem_cons_of_mem _ hmem))
    cases s with
    | nil => exact iff_of_false nofun id
    | cons c s =>
      rw [startsWithSlow, if_neg hx₂, if_neg hx₃, Begins, Token.Takes, ← ih]
      by_cases hc : c = x <;> simp [hc]

/-- A token that needs the slow comparison. -/
def Token.isSlow : Token → Bool
  | question => true
  | cclass _ => true
  | _ => false

theorem isPrefixOf_iff {g : List Token} (h : Parses p g) (hstar : .star ∉ g) (hplain : g.any Token.isSlow = false)
    (s : List Char) : p.isPrefixOf s = true ↔ Begins g s := by
  induction h generalizing s with
  | nil => exact iff_of_true rfl trivial
  | star => exact absurd List.mem_cons_self hstar
  | question => cases hplain
  | cclass => cases hplain
  | @char x p ts hx₁ hx₂ hx₃ h ih =>
    have ih := ih (fun hmem => hstar (List.mem_cons_of_mem _ hmem)) (by simpa [Token.isSlow] using hplain)
    cases s with
    | nil => exact iff_of_false nofun id
    | cons c s =>
      rw [List.isPrefixOf_cons_cons, Bool.and_eq_true, beq_iff_eq, ih, Begins, Token.Takes, eq_comm]

theorem length_of_plain {g : List Token} (h : Parses p g) (hstar : .star ∉ g) (hplain : g.any Token.isSlow = false) :
    p.length = g.length := by
  induction h with
  | nil => rfl
  | star => exact absurd List.mem_cons_self hstar
  | question => cases hplain
  | cclass => cases hplain
  | char _ _ _ _ ih =>
    have ih := ih (fun hmem => hstar (List.mem_cons_of_mem _ hmem)) (by simpa [Token.isSlow] using hplain)
    exact congrArg (· + 1) ih

/-! ### The constructor -/

variable {ts : List Token}

theorem Parses.append {q : List Char} {us : List Token} (hp : Parses p ts) (hq : Parses q us) :
    Parses (p ++ q) (ts ++ us) := by
  induction hp with
  | nil => exact hq
  | star _ ih => exact ih.star
  | question _ ih => exact ih.question
  | cclass hclass _ ih =>
    rw [List.append_assoc]
    exact ih.cclass hclass
  | char h₁ h₂ h₃ _ ih => exact ih.char h₁ h₂ h₃

theorem Parses.eq_nil_iff (h : Parses p ts) : p = [] ↔ ts = [] := by
  cases h <;> simp

/-- What the constructor knows before the place `i`: the tokens of the segment it is in. -/
structure Builder.At (b : Builder) (pattern : List Char) (i : ℕ) (cur : List Token) : Prop where
  start_le : b.segmentStart ≤ i
  le_length : i ≤ pattern.length
  parses : Parses (b.segment pattern i) cur
  noStar : .star ∉ cur
  matched : b.potentialMatchedChars = cur.length

/-- The segment is added if it is not empty. -/
theorem Builder.At.createSegment {b : Builder} {i : ℕ} {cur : List Token} (h : b.At pattern i cur) :
    ∃ segs, (b.createSegment pattern i).segments = b.segments ++ segs ∧
      List.Forall₂ Segment.Represents segs ([cur].filter (· ≠ [])) := by
  unfold Builder.createSegment
  by_cases hempty : b.segment pattern i = []
  · have hcur := h.parses.eq_nil_iff.mp hempty
    refine ⟨[], by rw [if_pos hempty, List.append_nil], ?_⟩
    rw [List.filter_cons_of_neg (by simpa using hcur)]
    exact .nil
  · have hcur := mt h.parses.eq_nil_iff.mpr hempty
    refine ⟨_, by rw [if_neg hempty], ?_⟩
    rw [List.filter_cons_of_pos (by simpa using hcur)]
    exact .cons ⟨h.parses, h.matched, h.noStar, hcur⟩ .nil

/-- A token that is not a star is added to the segment. -/
theorem Builder.At.next {b b' : Builder} {w : List Char} {i : ℕ} {cur : List Token} {t : Token} (h : b.At pattern i cur)
    (hdrop : pattern.drop i = w ++ p) (hw : Parses w [t]) (ht : t ≠ .star) (hstart : b'.segmentStart = b.segmentStart)
    (hmatched : b'.potentialMatchedChars = b.potentialMatchedChars + 1) :
    b'.At pattern (i + w.length) (cur ++ [t]) ∧ pattern.drop (i + w.length) = p := by
  have hlength := congrArg List.length hdrop
  have hle := h.start_le
  rw [List.length_drop, List.length_append] at hlength
  have hsegment : b'.segment pattern (i + w.length) = b.segment pattern i ++ w := by
    have hsplit : i + w.length - b.segmentStart = (i - b.segmentStart) + w.length := by omega
    have hrest : (pattern.drop b.segmentStart).drop (i - b.segmentStart) = w ++ p := by
      rw [List.drop_drop, Nat.add_sub_cancel' hle, hdrop]
    rw [Builder.segment, Builder.segment, hstart, hsplit, List.take_add, hrest, List.take_left]
  refine ⟨⟨?_, ?_, ?_, ?_, ?_⟩, ?_⟩
  · rw [hstart]
    exact Nat.le_trans hle (Nat.le_add_right _ _)
  · have := h.le_length
    omega
  · rw [hsegment]
    exact h.parses.append hw
  · intro hmem
    rcases List.mem_append.mp hmem with hmem | hmem
    · exact h.noStar hmem
    · exact ht (List.mem_singleton.mp hmem).symm
  · rw [hmatched, h.matched, List.length_append, List.length_singleton]
  · rw [← List.drop_drop, hdrop, List.drop_left]

/-- What the loop has collected at its end, of the parts from the segment it was in. -/
structure Collected (pattern : List Char) (b b' : Builder) (gs : List (List Token)) (slow : Bool) : Prop where
  segments : ∃ segs, (b'.createSegment pattern pattern.length).segments = b.segments ++ segs ∧
    List.Forall₂ Segment.Represents segs (gs.filter (· ≠ []))
  slow : b'.containsCharClassOrQuestion = (b.containsCharClassOrQuestion || slow)
  last : b'.segment pattern pattern.length = [] ↔ gs.getLast? = some []

theorem char_of_drop {rest : List Char} {c : Char} {i : ℕ} (h : pattern.drop i = c :: rest) :
    i < pattern.length ∧ pattern.getD i '\x00' = c ∧ pattern.drop (i + 1) = rest := by
  have hlength := congrArg List.length h
  have hget := congrArg (·[0]?) h
  rw [List.length_drop, List.length_cons] at hlength
  simp only [List.getElem?_drop, Nat.add_zero, List.getElem?_cons_zero] at hget
  refine ⟨by omega, ?_, ?_⟩
  · rw [List.getD_eq_getElem?_getD, hget, Option.getD_some]
  · rw [← List.drop_drop, h, List.drop_one, List.tail_cons]

/-- **The loop of the constructor** collects the parts between the stars. -/
theorem scanPattern_spec (h : Parses p ts) :
    ∀ {rounds i : ℕ} {b : Builder} {cur : List Token}, b.At pattern i cur → pattern.drop i = p →
      pattern.length ≤ i + rounds →
      Collected pattern b (scanPattern pattern rounds i b) ((cur ++ (splitStar ts).1) :: (splitStar ts).2)
        (ts.any Token.isSlow) := by
  -- a token that is not a star goes into the segment the loop is in
  have htoken : ∀ {w p : List Char} {t : Token} {ts : List Token}, Parses w [t] → t ≠ .star →
      splitStar (t :: ts) = (t :: (splitStar ts).1, (splitStar ts).2) →
      (∀ {rounds i : ℕ} {b : Builder} {cur : List Token}, b.At pattern i cur → pattern.drop i = p →
        pattern.length ≤ i + rounds → Collected pattern b (scanPattern pattern rounds i b)
          ((cur ++ (splitStar ts).1) :: (splitStar ts).2) (ts.any Token.isSlow)) →
      ∀ {rounds i : ℕ} {b : Builder} {cur : List Token}, b.At pattern i cur → pattern.drop i = w ++ p →
        pattern.length ≤ i + rounds →
        (∀ rounds, scanPattern pattern (rounds + 1) i b = scanPattern pattern rounds (i + w.length)
          { b with
            containsCharClassOrQuestion := b.containsCharClassOrQuestion || t.isSlow
            potentialMatchedChars := b.potentialMatchedChars + 1 }) →
        Collected pattern b (scanPattern pattern rounds i b)
          ((cur ++ (splitStar (t :: ts)).1) :: (splitStar (t :: ts)).2) ((t :: ts).any Token.isSlow) := by
    intro w p t ts hw ht hsplit ih rounds i b cur hat hdrop hrounds hscan
    have hpos : 0 < w.length := List.length_pos_of_ne_nil (mt hw.eq_nil_iff.mp (List.cons_ne_nil t []))
    have hlength := congrArg List.length hdrop
    rw [List.length_drop, List.length_append] at hlength
    obtain ⟨rounds, rfl⟩ := Nat.exists_eq_succ_of_ne_zero (show rounds ≠ 0 by omega)
    obtain ⟨hat', hdrop'⟩ := @Builder.At.next _ _ b
      { b with
        containsCharClassOrQuestion := b.containsCharClassOrQuestion || t.isSlow
        potentialMatchedChars := b.potentialMatchedChars + 1 } _ _ _ _ hat hdrop hw ht rfl rfl
    have hrest := @ih rounds _ _ _ hat' hdrop' (by omega)
    rw [Nat.succ_eq_add_one, hscan, hsplit, List.any_cons]
    rw [List.append_assoc, List.singleton_append] at hrest
    exact ⟨hrest.segments, by rw [hrest.slow, Bool.or_assoc], hrest.last⟩
  induction h with
  | nil =>
    intro rounds i b cur hat hdrop hrounds
    have hi : i = pattern.length := Nat.le_antisymm hat.le_length (List.drop_eq_nil_iff.mp hdrop)
    subst hi
    have hscan : scanPattern pattern rounds pattern.length b = b := by
      cases rounds with
      | zero => rfl
      | succ rounds => rw [scanPattern, if_neg (Nat.lt_irrefl _)]
    obtain ⟨segs, hsegs, hrep⟩ := hat.createSegment
    rw [hscan, splitStar, List.append_nil]
    refine ⟨⟨segs, hsegs, hrep⟩, (Bool.or_false _).symm, ?_⟩
    rw [hat.parses.eq_nil_iff, List.getLast?_singleton, Option.some.injEq]
  | @star p ts h ih =>
    intro rounds i b cur hat hdrop hrounds
    obtain ⟨hlt, hchar, hdrop'⟩ := char_of_drop hdrop
    obtain ⟨rounds, rfl⟩ := Nat.exists_eq_succ_of_ne_zero (show rounds ≠ 0 by omega)
    obtain ⟨segs, hsegs, hrep⟩ := hat.createSegment
    have hat' : Builder.At { b.createSegment pattern i with segmentStart := i + 1, potentialMatchedChars := 0 } pattern
        (i + 1) [] := by
      refine ⟨Nat.le_refl _, by omega, ?_, List.not_mem_nil, rfl⟩
      rw [Builder.segment, Nat.sub_self, List.take_zero]
      exact .nil
    obtain ⟨⟨segs', hsegs', hrep'⟩, hslow, hlast⟩ := @ih rounds _ _ _ hat' hdrop' (by omega)
    have hscan : scanPattern pattern (rounds + 1) i b = scanPattern pattern rounds (i + 1)
        { b.createSegment pattern i with segmentStart := i + 1, potentialMatchedChars := 0 } := by
      rw [scanPattern, if_pos hlt, hchar]
      rfl
    have hflag : (b.createSegment pattern i).containsCharClassOrQuestion = b.containsCharClassOrQuestion := by
      unfold Builder.createSegment
      split <;> rfl
    rw [Nat.succ_eq_add_one, hscan, splitStar, List.append_nil]
    refine ⟨⟨segs ++ segs', ?_, ?_⟩, ?_, ?_⟩
    · rw [hsegs', ← List.append_assoc, ← hsegs]
    · have hfilter : (cur :: (splitStar ts).1 :: (splitStar ts).2).filter (· ≠ []) =
          [cur].filter (· ≠ []) ++ ((splitStar ts).1 :: (splitStar ts).2).filter (· ≠ []) := by
        rw [← List.filter_append, List.singleton_append]
      rw [hfilter]
      exact List.rel_append hrep hrep'
    · rw [hslow, List.any_cons]
      exact congrArg (· || _) hflag
    · rw [hlast]
      rfl
  | @question p ts h ih =>
    intro rounds i b cur hat hdrop hrounds
    obtain ⟨hlt, hchar, -⟩ := char_of_drop hdrop
    refine htoken (w := ['?']) (Parses.question .nil) nofun rfl ih hat hdrop hrounds fun rounds => ?_
    rw [scanPattern, if_pos hlt, hchar]
    simp [Token.isSlow]
  | @cclass body p ts hclass h ih =>
    intro rounds i b cur hat hdrop hrounds
    obtain ⟨hlt, hchar, hrest⟩ := char_of_drop hdrop
    have hw : Parses ('[' :: body ++ [']']) [.cclass body] := Parses.cclass hclass .nil
    have hdrop' : pattern.drop i = ('[' :: body ++ [']']) ++ p := by
      rw [hdrop, List.append_assoc, List.singleton_append]
    refine htoken hw nofun rfl ih hat hdrop' hrounds fun rounds => ?_
    have hextract : extractCharacterClass (pattern.drop (i + 1)) = body := by
      rw [hrest]
      exact extractCharacterClass_eq hclass p
    have hbody : body ≠ [] := by
      cases hclass <;> nofun
    have hlength : i + ('[' :: body ++ [']']).length = i + 1 + body.length + 1 := by
      rw [List.length_append, List.length_cons, List.length_singleton]
      omega
    rw [scanPattern, if_pos hlt, hchar, hlength]
    simp [hextract, hbody, Token.isSlow]
  | @char c p ts h₁ h₂ h₃ h ih =>
    intro rounds i b cur hat hdrop hrounds
    obtain ⟨hlt, hchar, -⟩ := char_of_drop hdrop
    refine htoken (w := [c]) (Parses.char h₁ h₂ h₃ .nil) nofun rfl ih hat hdrop hrounds fun rounds => ?_
    rw [scanPattern, if_pos hlt, hchar]
    simp [h₁, h₂, h₃, Token.isSlow]

/-- What a matcher knows of its pattern. -/
structure GlobMatcher.Represents (m : GlobMatcher) (ts : List Token) : Prop where
  segments : List.Forall₂ Segment.Represents m.segments
    (((splitStar ts).1 :: (splitStar ts).2).filter (· ≠ []))
  leadingStar : m.leadingStar = true ↔ ts.head? = some .star
  trailingStar : m.trailingStar = true ↔ ts ≠ [] ∧ ((splitStar ts).1 :: (splitStar ts).2).getLast? = some []
  slow : m.containsCharClassOrQuestion = ts.any Token.isSlow

theorem Parses.head?_star_iff (h : Parses p ts) : p.head? = some '*' ↔ ts.head? = some .star := by
  cases h with
  | nil => exact iff_of_false nofun nofun
  | star => exact iff_of_true rfl rfl
  | question | cclass => exact iff_of_false (by simp) (by simp)
  | char h₁ => exact iff_of_false (by simpa using h₁) (by simp)

/-- **The constructor** splits the pattern at its stars. -/
theorem fromPattern_spec (h : Parses pattern ts) (hnul : '\x00' ∉ pattern) :
    (GlobMatcher.fromPattern pattern).Represents ts := by
  have htake : pattern.takeWhile (· ≠ '\x00') = pattern := by
    rw [List.takeWhile_eq_self_iff]
    intro c hc
    exact decide_eq_true fun heq => hnul (heq ▸ hc)
  have hat : Builder.At {} pattern 0 [] := ⟨Nat.le_refl 0, Nat.zero_le _, .nil, List.not_mem_nil, rfl⟩
  obtain ⟨⟨segs, hsegs, hrep⟩, hslow, hlast⟩ :=
    scanPattern_spec h hat List.drop_zero (Nat.le_of_eq (Nat.zero_add _).symm)
  rw [List.nil_append] at hrep hlast hsegs
  unfold GlobMatcher.fromPattern
  rw [htake]
  refine ⟨?_, ?_, ?_, ?_⟩
  · dsimp only
    rw [hsegs]
    exact hrep
  · rw [← h.head?_star_iff]
    exact decide_eq_true_iff
  · rw [Bool.and_eq_true, decide_eq_true_iff, decide_eq_true_iff, hlast, Ne, h.eq_nil_iff]
  · exact hslow.trans (Bool.false_or _)

end LynxTrace.TraceProcessor.Glob
