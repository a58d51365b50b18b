import LynxTrace.Ui.SourceMapUtils
import Mathlib.Data.List.Forall2

/-!
# Ui.SourceMapLookup — what is found in a source map

`Segment` is a segment of a source map by its absolute positions, `encodeMappings` the standard encoding of lines of
them.
-/

namespace LynxTrace.Ui.SourceMaps

structure Original where
  sourceIndex : ℤ
  sourceLine : ℤ
  sourceCol : ℤ
  nameIndex : Option ℤ
  deriving DecidableEq, Repr

/-- A segment of 1, 4 or 5 fields. -/
structure Segment where
  genCol : ℤ
  original : Option Original
  deriving DecidableEq, Repr

/-! ### The standard encoding of lines -/

/-- The fields of a segment: each is the difference to its last value, the column's to the segment before it on the line. -/
def Segment.fields (running : Running) (genCol : ℤ) (s : Segment) : List ℤ :=
  match s.original with
  | none => [s.genCol - genCol]
  | some o =>
    [s.genCol - genCol, o.sourceIndex - running.sourceIndex, o.sourceLine - running.sourceLine,
      o.sourceCol - running.sourceCol] ++ (o.nameIndex.map (· - running.nameIndex)).toList

/-- The last values after a segment. -/
def Segment.next (running : Running) (s : Segment) : Running :=
  match s.original with
  | none => running
  | some o => ⟨o.sourceIndex, o.sourceLine, o.sourceCol, o.nameIndex.getD running.nameIndex⟩

/-- The fields of the segments of a line. -/
def lineFields (running : Running) (genCol : ℤ) : List Segment → List (List ℤ)
  | [] => []
  | s :: segments => s.fields running genCol :: lineFields (s.next running) s.genCol segments

def afterLine (running : Running) (segments : List Segment) : Running := segments.foldl Segment.next running

/-- The fields of the segments of all lines. -/
def mappingFields (running : Running) : List (List Segment) → List (List (List ℤ))
  | [] => []
  | line :: lines => lineFields running 0 line :: mappingFields (afterLine running line) lines

def encodeLine (fields : List (List ℤ)) : List Char := [','].intercalate (fields.map encodeFields)

def encodeMappings (lines : List (List Segment)) : String :=
  String.ofList ([';'].intercalate ((mappingFields {} lines).map encodeLine))

/-! ### What comes back -/

/-- The segments of a line that have an original position. -/
def mapped (line : List Segment) : List (ℤ × Original) :=
  line.filterMap fun s => s.original.map fun o => (s.genCol, o)

/-- A mapping segment is this segment. -/
structure MappingSegment.Recovers (m : MappingSegment) (s : ℤ × Original) : Prop where
  genCol : m.genCol = s.1
  sourceIndex : m.sourceIndex = s.2.sourceIndex
  sourceLine : m.sourceLine = s.2.sourceLine
  sourceCol : m.sourceCol = s.2.sourceCol
  hasName : m.hasName = s.2.nameIndex.isSome
  nameIndex : ∀ i, s.2.nameIndex = some i → m.nameIndex = i


theorem base64Char_mem {digit : ℕ} (h : digit < 64) : base64Char digit ∈ base64Chars := by
  have hlt : digit < base64Chars.length := h
  rw [base64Char, List.getElem?_eq_getElem hlt]
  exact List.getElem_mem hlt

theorem mem_base64Chars_encodeDigits (v : ℕ) : ∀ c ∈ encodeDigits v, c ∈ base64Chars := by
  induction v using Nat.strongRecOn with
  | ind v ih =>
    rw [encodeDigits]
    split_ifs with hlt
    · intro c hc
      rw [List.mem_singleton.mp hc]
      exact base64Char_mem (by omega)
    · intro c hc
      obtain rfl | hc := List.mem_cons.mp hc
      · exact base64Char_mem (by omega)
      · exact ih (v / 32) (by omega) c hc

theorem mem_base64Chars_encodeFields (fields : List ℤ) : ∀ c ∈ encodeFields fields, c ∈ base64Chars := by
  intro c hc
  obtain ⟨n, -, hc⟩ := List.mem_flatMap.mp hc
  exact mem_base64Chars_encodeDigits _ c hc

theorem comma_not_mem (fields : List ℤ) : ',' ∉ encodeFields fields :=
  fun h => absurd (mem_base64Chars_encodeFields fields _ h) (by decide)

theorem semicolon_not_mem (fields : List (List ℤ)) : ';' ∉ encodeLine fields := by
  intro h
  unfold encodeLine at h
  induction fields with
  | nil => cases h
  | cons f fields ih =>
    cases fields with
    | nil =>
      rw [List.map_singleton, List.intercalate_singleton] at h
      exact absurd (mem_base64Chars_encodeFields f _ h) (by decide)
    | cons g fields =>
      rw [List.map_cons, List.map_cons, List.intercalate_cons_cons, List.append_assoc, List.mem_append,
        List.mem_append] at h
      obtain h | h | h := h
      · exact absurd (mem_base64Chars_encodeFields f _ h) (by decide)
      · exact absurd h (by decide)
      · exact ih (by rwa [List.map_cons])

theorem splitOn_encodeLine (fields : List (List ℤ)) :
    (encodeLine fields).splitOn ',' = if fields = [] then [[]] else fields.map encodeFields := by
  unfold encodeLine
  split_ifs with hnil
  · subst hnil
    exact List.splitOn_nil _
  · refine List.splitOn_intercalate _ ?_ (by simpa using hnil)
    intro l hl
    obtain ⟨f, -, rfl⟩ := List.mem_map.mp hl
    exact comma_not_mem f

/-- A line of encoded segments is processed to the segments that have an original position. -/
theorem processSegments_recovers {segments : List Segment} {running : Running} {genCol : ℤ}
    (h : ∀ fields ∈ lineFields running genCol segments, ∀ d ∈ fields, |d| < 2 ^ 30) :
    List.Forall₂ MappingSegment.Recovers
        (processSegments running genCol ((lineFields running genCol segments).map encodeFields)).1 (mapped segments) ∧
      (processSegments running genCol ((lineFields running genCol segments).map encodeFields)).2 =
        afterLine running segments := by
  induction segments generalizing running genCol with
  | nil => exact ⟨.nil, rfl⟩
  | cons s segments ih =>
    obtain ⟨hfields, hrest⟩ := List.forall_mem_cons.mp h
    obtain ⟨hmapped, hafter⟩ := ih hrest
    have hdecode := decodeVLQ_encodeFields hfields
    have hback : ∀ a b : ℤ, a + (b - a) = b := fun a b => by ring
    rw [lineFields, List.map_cons, processSegments, hdecode]
    obtain ⟨col, original⟩ := s
    cases original with
    | none =>
      dsimp only [Segment.fields]
      rw [hback]
      exact ⟨hmapped, hafter⟩
    | some o =>
      obtain ⟨sourceIndex, sourceLine, sourceCol, nameIndex⟩ := o
      cases nameIndex with
      | none =>
        dsimp only [Segment.fields, Option.map_none, Option.toList_none, List.cons_append, List.nil_append]
        simp only [hback]
        exact ⟨.cons ⟨rfl, rfl, rfl, rfl, rfl, by rintro _ ⟨⟩⟩ hmapped, hafter⟩
      | some i =>
        dsimp only [Segment.fields, Option.map_some, Option.toList_some, List.cons_append, List.nil_append]
        simp only [hback]
        exact ⟨.cons ⟨rfl, rfl, rfl, rfl, rfl, by rintro _ ⟨rfl⟩; rfl⟩ hmapped, hafter⟩

variable {lines : List (List Segment)}

theorem processLines_recovers {running : Running}
    (h : ∀ line ∈ mappingFields running lines, ∀ fields ∈ line, ∀ d ∈ fields, |d| < 2 ^ 30) :
    List.Forall₂ (List.Forall₂ MappingSegment.Recovers)
      (processLines running ((mappingFields running lines).map encodeLine)) (lines.map mapped) := by
  induction lines generalizing running with
  | nil => exact .nil
  | cons line lines ih =>
    obtain ⟨hline, hlines⟩ := List.forall_mem_cons.mp h
    rw [mappingFields, List.map_cons, processLines, splitOn_encodeLine, List.map_cons]
    obtain ⟨hmapped, hafter⟩ := processSegments_recovers hline
    split_ifs with hnil
    · cases line with
      | nil => exact .cons .nil (ih hlines)
      | cons s line => cases hnil
    · rw [hafter]
      exact .cons hmapped (ih hlines)

/-- What the mappings of a source map stand for. -/
structure SourceMap.Encodes (sourceMap : SourceMap) (lines : List (List Segment)) : Prop where
  mappings : sourceMap.mappings = encodeMappings lines
  small : ∀ line ∈ mappingFields {} lines, ∀ fields ∈ line, ∀ d ∈ fields, |d| < 2 ^ 30
  sorted : ∀ line ∈ lines, line.Pairwise (·.genCol ≤ ·.genCol)
  sourceIndex : ∀ line ∈ lines, ∀ s ∈ line, ∀ o, s.original = some o →
    0 ≤ o.sourceIndex ∧ o.sourceIndex < sourceMap.sources.length

/-- The lines that come back; no mappings are one empty line. -/
def mappedLines (lines : List (List Segment)) : List (List (ℤ × Original)) :=
  if lines = [] then [[]] else lines.map mapped

variable {sourceMap : SourceMap}

theorem SourceMap.Encodes.preprocess (h : sourceMap.Encodes lines) :
    List.Forall₂ (List.Forall₂ MappingSegment.Recovers) (preprocessSourceMap sourceMap).lineSegments
      (mappedLines lines) := by
  unfold preprocessSourceMap mappedLines
  dsimp only
  rw [h.mappings, encodeMappings, String.toList_ofList]
  split_ifs with hnil
  · subst hnil
    exact .cons .nil .nil
  · rw [List.splitOn_intercalate]
    · exact processLines_recovers h.small
    · intro l hl
      obtain ⟨f, -, rfl⟩ := List.mem_map.mp hl
      exact semicolon_not_mem f
    · cases lines with
      | nil => exact absurd rfl hnil
      | cons line lines => exact List.cons_ne_nil _ _

/-! ### The search -/

variable {segments : List MappingSegment}

/-- The search stops at the border `k` between the segments that are not after the column and those that are. -/
theorem searchSegment_eq {targetCol : ℤ} {k : ℕ} (hk : ∀ i s, segments[i]? = some s → (s.genCol ≤ targetCol ↔ i < k))
    {rounds left stop : ℕ} (hleft : left ≤ k) (hstop : k ≤ stop) (hlen : stop ≤ segments.length)
    (hrounds : stop - left ≤ rounds) (best : Option MappingSegment) :
    searchSegment segments targetCol rounds left stop best = if left < k then segments[k - 1]? else best := by
  induction rounds generalizing left stop best with
  | zero => rw [searchSegment, if_neg (by omega)]
  | succ rounds ih =>
    rw [searchSegment]
    by_cases hlt : left < stop
    · rw [if_pos hlt]
      have hmid : (left + (stop - 1)) / 2 < segments.length := by omega
      have hget := List.getElem?_eq_getElem hmid
      have hside := hk _ _ hget
      dsimp only
      rw [hget]
      dsimp only
      split_ifs with hcol hk' hk'
      · have hbefore := hside.mp hcol
        rw [ih (by omega) hstop hlen (by omega)]
        split_ifs with hmore
        · rfl
        · have hlast : k - 1 = (left + (stop - 1)) / 2 := by omega
          rw [hlast, hget]
      · exact absurd (hside.mp hcol) (by omega)
      · rw [ih hleft (by omega) (by omega) (by omega), if_pos hk']
      · rw [ih hleft (by omega) (by omega) (by omega), if_neg hk']
    · rw [if_neg hlt, if_neg (by omega)]

/-- On sorted segments those that are not after a column come first. -/
theorem exists_border (h : segments.Pairwise (·.genCol ≤ ·.genCol)) (targetCol : ℤ) :
    ∃ k ≤ segments.length, segments.filter (·.genCol ≤ targetCol) = segments.take k ∧
      ∀ i s, segments[i]? = some s → (s.genCol ≤ targetCol ↔ i < k) := by
  induction segments with
  | nil => exact ⟨0, Nat.le_refl _, rfl, by rintro _ _ ⟨⟩⟩
  | cons a segments ih =>
    obtain ⟨ha, hsorted⟩ := List.pairwise_cons.mp h
    by_cases hcol : a.genCol ≤ targetCol
    · obtain ⟨k, hk, hfilter, hside⟩ := ih hsorted
      refine ⟨k + 1, Nat.succ_le_succ hk, ?_, ?_⟩
      · rw [List.filter_cons, if_pos (decide_eq_true hcol), hfilter, List.take_succ_cons]
      · intro i s hs
        cases i with
        | zero =>
          obtain rfl := Option.some.inj hs
          exact iff_of_true hcol (Nat.succ_pos k)
        | succ i => exact (hside i s hs).trans Nat.succ_lt_succ_iff.symm
    · have hafter : ∀ s ∈ a :: segments, ¬s.genCol ≤ targetCol := by
        refine List.forall_mem_cons.mpr ⟨hcol, fun s hs => ?_⟩
        have hle := ha s hs
        omega
      refine ⟨0, Nat.zero_le _, ?_, ?_⟩
      · rw [List.take_zero, List.filter_eq_nil_iff]
        intro s hs
        simpa using hafter s hs
      · intro i s hs
        exact iff_of_false (hafter s (List.mem_of_getElem? hs)) (Nat.not_lt_zero i)

/-- The last segment that is not after the column is found. -/
theorem binarySearchSegment_eq (h : segments.Pairwise (·.genCol ≤ ·.genCol)) (targetCol : ℤ) :
    binarySearchSegment segments targetCol = (segments.filter (·.genCol ≤ targetCol)).getLast? := by
  obtain ⟨k, hk, hfilter, hside⟩ := exists_border h targetCol
  unfold binarySearchSegment
  rw [searchSegment_eq hside (Nat.zero_le _) hk (Nat.le_refl _) (Nat.sub_le _ _), hfilter, List.getLast?_take]
  rcases Nat.eq_zero_or_pos k with rfl | hpos
  · rfl
  · rw [if_pos hpos, if_neg (by omega), List.getElem?_eq_getElem (show k - 1 < segments.length by omega), Option.some_or]

/-! ### Looking a position up -/

/-- The original position of the last segment with one that is not after the column; lines count from 1. -/
def originalPosition (sourceMap : SourceMap) (lines : List (List Segment)) (line column : ℤ) : MappedPosition :=
  match atIndex lines (line - 1) with
  | none => {}
  | some segments =>
    match ((mapped segments).filter (·.1 ≤ column)).getLast? with
    | none => {}
    | some (_, o) =>
      { source := atIndex sourceMap.sources o.sourceIndex
        line := some (o.sourceLine + 1)
        column := some o.sourceCol
        name := o.nameIndex.bind (atIndex sourceMap.names) }

variable {α β : Type} {xs : List α}

/-- Lists that are related element by element are so at every index. -/
theorem rel_atIndex {R : α → β → Prop} {ys : List β} (h : List.Forall₂ R xs ys) (i : ℤ) :
    Option.Rel R (atIndex xs i) (atIndex ys i) := by
  unfold atIndex
  split_ifs
  · generalize i.toNat = n
    induction h generalizing n with
    | nil => exact .none
    | cons hR _ ih =>
      cases n with
      | zero => exact .some hR
      | succ n => exact ih n
  · exact .none

theorem rel_getLast? {R : α → β → Prop} {ys : List β} (h : List.Forall₂ R xs ys) :
    Option.Rel R xs.getLast? ys.getLast? := by
  have hlast := rel_atIndex h (xs.length - 1 : ℤ)
  cases h with
  | nil => exact .none
  | cons hR hrest =>
    have hlen := hrest.length_eq
    unfold atIndex at hlast
    simp only [List.length_cons] at hlast
    rw [if_pos (by omega), if_pos (by omega)] at hlast
    rw [List.getLast?_eq_getElem?, List.getLast?_eq_getElem?, List.length_cons, List.length_cons, ← hlen]
    convert hlast using 2 <;> omega

theorem forall₂_filter {ms : List MappingSegment} {ss : List (ℤ × Original)}
    (h : List.Forall₂ MappingSegment.Recovers ms ss) (column : ℤ) :
    List.Forall₂ MappingSegment.Recovers (ms.filter (·.genCol ≤ column)) (ss.filter (·.1 ≤ column)) := by
  induction h with
  | nil => exact .nil
  | @cons m s ms ss hR _ ih =>
    rw [List.filter_cons, List.filter_cons, hR.genCol]
    split_ifs
    · exact .cons hR ih
    · exact ih

theorem sorted_of_forall₂ {ms : List MappingSegment} {ss : List (ℤ × Original)}
    (h : List.Forall₂ MappingSegment.Recovers ms ss) (hsorted : ss.Pairwise (·.1 ≤ ·.1)) :
    ms.Pairwise (·.genCol ≤ ·.genCol) := by
  induction h with
  | nil => exact .nil
  | @cons m s ms ss hR hrest ih =>
    obtain ⟨hfirst, hsorted⟩ := List.pairwise_cons.mp hsorted
    refine List.pairwise_cons.mpr ⟨fun m' hm' => ?_, ih hsorted⟩
    obtain ⟨i, hi, rfl⟩ := List.getElem_of_mem hm'
    have hi' : i < ss.length := hrest.length_eq ▸ hi
    have hR' : (ms[i]).Recovers ss[i] := hrest.get hi hi'
    rw [hR.genCol, hR'.genCol]
    exact hfirst _ (List.getElem_mem hi')

variable {line : List Segment}

theorem mem_mapped {s : ℤ × Original} (h : s ∈ mapped line) : ∃ segment ∈ line, segment.original = some s.2 := by
  obtain ⟨segment, hmem, hs⟩ := List.mem_filterMap.mp h
  obtain ⟨o, ho, rfl⟩ := Option.map_eq_some_iff.mp hs
  exact ⟨segment, hmem, ho⟩

theorem sorted_mapped (h : line.Pairwise (·.genCol ≤ ·.genCol)) : (mapped line).Pairwise (·.1 ≤ ·.1) := by
  refine List.Pairwise.filterMap _ ?_ h
  rintro s s' hle a ha a' ha'
  obtain ⟨o, -, rfl⟩ := Option.map_eq_some_iff.mp ha
  obtain ⟨o', -, rfl⟩ := Option.map_eq_some_iff.mp ha'
  exact hle

theorem atIndex_of_lt {i : ℤ} (h0 : 0 ≤ i) (h1 : i < xs.length) : ∃ x, atIndex xs i = some x := by
  unfold atIndex
  rw [if_pos h0]
  exact ⟨_, List.getElem?_eq_getElem (by omega)⟩

theorem mem_of_atIndex {i : ℤ} {x : α} (h : atIndex xs i = some x) : x ∈ xs := by
  unfold atIndex at h
  split_ifs at h
  exact List.mem_of_getElem? h

/-- What is found for one line. -/
theorem SourceMap.Encodes.find_line (h : sourceMap.Encodes lines) (hline : line ∈ lines)
    (hsegments : List.Forall₂ MappingSegment.Recovers segments (mapped line)) (column : ℤ) :
    Option.Rel (fun m s => MappingSegment.Recovers m s ∧ s ∈ mapped line) (binarySearchSegment segments column)
      ((mapped line).filter (·.1 ≤ column)).getLast? := by
  rw [binarySearchSegment_eq (sorted_of_forall₂ hsegments (sorted_mapped (h.sorted line hline)))]
  have hrel := rel_getLast? (forall₂_filter hsegments column)
  generalize (segments.filter (·.genCol ≤ column)).getLast? = found at hrel
  generalize hlast : ((mapped line).filter (·.1 ≤ column)).getLast? = last at hrel
  cases hrel with
  | none => exact .none
  | some hR => exact .some ⟨hR, List.mem_of_mem_filter (List.mem_of_getLast? hlast)⟩

theorem atIndex_map (f : α → β) (xs : List α) (i : ℤ) : atIndex (xs.map f) i = (atIndex xs i).map f := by
  unfold atIndex
  split_ifs
  · rw [List.getElem?_map]
  · rfl

/-- What is found at a line that is there. -/
theorem SourceMap.Encodes.find_at (h : sourceMap.Encodes lines) {line : ℤ} {segments : List Segment}
    (hat : atIndex lines (line - 1) = some segments)
    (hrel : Option.Rel (List.Forall₂ MappingSegment.Recovers)
      (atIndex (preprocessSourceMap sourceMap).lineSegments (line - 1)) ((some segments).map mapped))
    (column : ℤ) :
    findOriginalPosition (preprocessSourceMap sourceMap) line column = originalPosition sourceMap lines line column := by
  have hmem := mem_of_atIndex hat
  unfold findOriginalPosition originalPosition
  rw [hat]
  generalize atIndex (preprocessSourceMap sourceMap).lineSegments (line - 1) = found at hrel
  cases hrel with
  | some hsegments =>
    have hfound := h.find_line hmem hsegments column
    dsimp only
    generalize binarySearchSegment _ column = best at hfound
    generalize ((mapped segments).filter (·.1 ≤ column)).getLast? = last at hfound
    cases hfound with
    | none => rfl
    | @some m s hm =>
      obtain ⟨hR, hin⟩ := hm
      obtain ⟨col, o⟩ := s
      obtain ⟨segment, hsegment, horiginal⟩ := mem_mapped hin
      obtain ⟨h0, h1⟩ := h.sourceIndex segments hmem segment hsegment o horiginal
      obtain ⟨source, hsource⟩ := atIndex_of_lt h0 h1
      have hsource' : atIndex (preprocessSourceMap sourceMap).sourceMap.sources m.sourceIndex = some source := by
        rw [hR.sourceIndex]
        exact hsource
      have hname : (if m.hasName then atIndex (preprocessSourceMap sourceMap).sourceMap.names m.nameIndex else none) =
          o.nameIndex.bind (atIndex sourceMap.names) := by
        rw [hR.hasName]
        cases hidx : o.nameIndex with
        | none => rfl
        | some i =>
          rw [hR.nameIndex i hidx]
          rfl
      dsimp only
      rw [hsource', hsource, hname, hR.sourceLine, hR.sourceCol]

/-- Two lines of a bundle made from two files. -/
def bundleLines : List (List Segment) :=
  [[⟨0, some ⟨0, 0, 0, some 0⟩⟩, ⟨5, none⟩], [⟨3, some ⟨1, 2, 7, none⟩⟩]]

def bundleMap : SourceMap := ⟨["a.ts", "b.ts"], ["f"], "AAAAA,K;GCEO"⟩

end LynxTrace.Ui.SourceMaps
