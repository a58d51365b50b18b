import LynxTrace.TraceProcessor.CompressorTracks

/-!
# TraceProcessor.CompressorRuns — the slices on the tracks of a set, over a run

A history is the list of the calls with the ids they returned.  A slice of a cookie is open while the cookie has more
begins than ends since they were last balanced; a set that saturates counts begins in a row once.
-/

namespace LynxTrace.TraceProcessor.TrackCompressor

/-! ### Histories -/

/-- A call and the id it returned. -/
abbrev Event := Call × Option ℕ

/-- A begin or an end with the cookie. -/
def Call.IsCookie (hash : ℕ) (cookie : ℤ) (c : Call) : Prop :=
  c = .beginSlice hash cookie ∨ c = .endSlice hash cookie

def openStep (behaviour : ℕ → NestingBehaviour) (hash : ℕ) (cookie : ℤ) (count : ℕ) (e : Event) : ℕ :=
  match e.1 with
  | .beginSlice hash' cookie' => if hash' = hash ∧ cookie' = cookie then beginCount (behaviour hash) count else count
  | .endSlice hash' cookie' => if hash' = hash ∧ cookie' = cookie then count - 1 else count
  | .scopedSlice _ _ _ => count
  | .otherTrack => count

/-- How many begins of the cookie have no end, since they were last balanced. -/
def openCount (behaviour : ℕ → NestingBehaviour) (hash : ℕ) (cookie : ℤ) (h : List Event) : ℕ :=
  h.foldl (openStep behaviour hash cookie) 0

/-- A begin of the cookie returned the track, and the cookie has been open since. -/
def OpenOn (behaviour : ℕ → NestingBehaviour) (hash : ℕ) (cookie : ℤ) (trackId : ℕ) (h : List Event) : Prop :=
  Since (fun _ e => e = (.beginSlice hash cookie, some trackId))
    (fun before e => 0 < openCount behaviour hash cookie (before ++ [e])) h

section Histories

variable {behaviour : ℕ → NestingBehaviour} {hash trackId : ℕ} {cookie : ℤ} {h : List Event} {e : Event}

theorem openCount_concat :
    openCount behaviour hash cookie (h ++ [e]) = openStep behaviour hash cookie (openCount behaviour hash cookie h) e := by
  rw [openCount, List.foldl_append]
  rfl

theorem openCount_keep (he : ¬ e.1.IsCookie hash cookie) :
    openCount behaviour hash cookie (h ++ [e]) = openCount behaviour hash cookie h := by
  rw [openCount_concat, openStep]
  split
  · rename_i hash' cookie' hcall
    exact if_neg fun heq => he (Or.inl (by rw [hcall, heq.1, heq.2]))
  · rename_i hash' cookie' hcall
    exact if_neg fun heq => he (Or.inr (by rw [hcall, heq.1, heq.2]))
  · rfl
  · rfl

theorem openCount_begin (he : e.1 = .beginSlice hash cookie) :
    openCount behaviour hash cookie (h ++ [e]) =
      beginCount (behaviour hash) (openCount behaviour hash cookie h) := by
  rw [openCount_concat, openStep, he]
  exact if_pos ⟨rfl, rfl⟩

theorem openCount_end (he : e.1 = .endSlice hash cookie) :
    openCount behaviour hash cookie (h ++ [e]) = openCount behaviour hash cookie h - 1 := by
  rw [openCount_concat, openStep, he]
  exact if_pos ⟨rfl, rfl⟩

theorem beginCount_pos (behaviour : NestingBehaviour) (nestCount : ℕ) : 0 < beginCount behaviour nestCount := by
  cases behaviour
  · exact Nat.succ_pos _
  · exact Nat.one_pos

theorem openOn_concat : OpenOn behaviour hash cookie trackId (h ++ [e]) ↔
    e = (.beginSlice hash cookie, some trackId) ∨
      (OpenOn behaviour hash cookie trackId h ∧ 0 < openCount behaviour hash cookie (h ++ [e])) :=
  since_concat

theorem OpenOn.pos (hopen : OpenOn behaviour hash cookie trackId h) : 0 < openCount behaviour hash cookie h := by
  rcases List.eq_nil_or_concat h with rfl | ⟨h, e, rfl⟩
  · exact absurd hopen not_since_nil
  · rw [List.concat_eq_append] at hopen ⊢
    rcases openOn_concat.mp hopen with rfl | ⟨-, hpos⟩
    · rw [openCount_begin rfl]
      exact beginCount_pos _ _
    · exact hpos

/-- Calls with other cookies leave a slice open where it is. -/
theorem openOn_keep (he : ¬ e.1.IsCookie hash cookie) :
    OpenOn behaviour hash cookie trackId (h ++ [e]) ↔ OpenOn behaviour hash cookie trackId h := by
  rw [openOn_concat, openCount_keep he]
  constructor
  · rintro (rfl | ⟨hopen, -⟩)
    · exact absurd (Or.inl rfl) he
    · exact hopen
  · exact fun hopen => Or.inr ⟨hopen, hopen.pos⟩

end Histories

/-! ### The tracks of a set after a history -/

structure Tracked (behaviour : ℕ → NestingBehaviour) (hash : ℕ) (h : List Event) (tracks : List TrackState)
    (count : ℕ) : Prop where
  ids : Identified tracks count
  unique : ∀ (i j : ℕ) cookie n n' id id', tracks[i]? = some ⟨.kCookie cookie n, id⟩ →
    tracks[j]? = some ⟨.kCookie cookie n', id'⟩ → i = j
  nestCount : ∀ (i : ℕ) cookie n id, tracks[i]? = some ⟨.kCookie cookie n, id⟩ → n = openCount behaviour hash cookie h
  absent : ∀ cookie, (∀ (i n : ℕ) id, tracks[i]? ≠ some ⟨.kCookie cookie n, id⟩) →
    openCount behaviour hash cookie h = 0
  openOn : ∀ cookie trackId, OpenOn behaviour hash cookie trackId h ↔
    ∃ (i n : ℕ), tracks[i]? = some ⟨.kCookie cookie n, some trackId⟩ ∧ 0 < n
  cookieTrack : ∀ e ∈ h, ∀ cookie, e.1.IsCookie hash cookie → ∃ (i : ℕ) (cookie' : ℤ) (n trackId : ℕ),
    e.2 = some trackId ∧ tracks[i]? = some ⟨.kCookie cookie' n, some trackId⟩
  scopedTrack : ∀ e ∈ h, ∀ ts dur, e.1 = .scopedSlice hash ts dur → ∃ (i : ℕ) (tsEnd : ℤ) (trackId : ℕ),
    e.2 = some trackId ∧ tracks[i]? = some ⟨.kTimestamp tsEnd, some trackId⟩ ∧ ts + dur ≤ tsEnd

section Steps

variable {behaviour : ℕ → NestingBehaviour} {hash : ℕ} {h : List Event} {e : Event} {tracks tracks' : List TrackState}
  {count count' idx trackId nestCount nestCount' : ℕ} {cookie tsEnd : ℤ}

/-- A call on another set. -/
theorem Tracked.otherCall (ht : Tracked behaviour hash h tracks count) (hle : count ≤ count')
    (hcookie : ∀ cookie, ¬ e.1.IsCookie hash cookie) (hscoped : ∀ ts dur, e.1 ≠ .scopedSlice hash ts dur) :
    Tracked behaviour hash (h ++ [e]) tracks count' where
  ids := ht.ids.lift hle
  unique := ht.unique
  nestCount := by
    intro i cookie n id hi
    rw [openCount_keep (hcookie cookie)]
    exact ht.nestCount i cookie n id hi
  absent := by
    intro cookie hno
    rw [openCount_keep (hcookie cookie)]
    exact ht.absent cookie hno
  openOn := by
    intro cookie trackId
    rw [openOn_keep (hcookie cookie)]
    exact ht.openOn cookie trackId
  cookieTrack := by
    intro e' he' cookie hc
    rcases List.mem_append.mp he' with hmem | hmem
    · exact ht.cookieTrack e' hmem cookie hc
    · rw [List.mem_singleton.mp hmem] at hc
      exact absurd hc (hcookie cookie)
  scopedTrack := by
    intro e' he' ts dur hc
    rcases List.mem_append.mp he' with hmem | hmem
    · exact ht.scopedTrack e' hmem ts dur hc
    · rw [List.mem_singleton.mp hmem] at hc
      exact absurd hc (hscoped ts dur)

/-- What a track that is taken for a cookie counts so far. -/
theorem Tracked.taken_count (ht : Tracked behaviour hash h tracks count) (htaken : TakenFor tracks idx cookie nestCount) :
    nestCount = openCount behaviour hash cookie h := by
  rcases htaken with ⟨id, hidx⟩ | ⟨hno, rfl, -⟩
  · exact ht.nestCount idx cookie nestCount id hidx
  · exact (ht.absent cookie hno).symm

/-- The only track of the cookie is the one assigned to it. -/
theorem Tracked.own_iff (ht : Tracked behaviour hash h tracks count) (htaken : TakenFor tracks idx cookie nestCount)
    (ha : Assigned tracks tracks' count count' idx (.kCookie cookie nestCount') trackId) (i n : ℕ) (id : Option ℕ) :
    tracks'[i]? = some ⟨.kCookie cookie n, id⟩ ↔ i = idx ∧ n = nestCount' ∧ id = some trackId := by
  constructor
  · intro hi
    by_cases hidx : i = idx
    · subst hidx
      rw [ha.here] at hi
      cases hi
      exact ⟨rfl, rfl, rfl⟩
    · rw [ha.elsewhere i hidx] at hi
      rcases htaken with ⟨id', hown⟩ | ⟨hno, -⟩
      · exact absurd (ht.unique i idx cookie n nestCount id id' hi hown) hidx
      · exact absurd hi (hno i n id)
  · rintro ⟨rfl, rfl, rfl⟩
    exact ha.here

/-- The tracks of the other cookies; only a free one can be lost. -/
theorem other_iff (ha : Assigned tracks tracks' count count' idx (.kCookie cookie nestCount') trackId) {cookie' : ℤ}
    (hne : cookie' ≠ cookie) (i n : ℕ) (id : Option ℕ) :
    tracks'[i]? = some ⟨.kCookie cookie' n, id⟩ ↔ i ≠ idx ∧ tracks[i]? = some ⟨.kCookie cookie' n, id⟩ := by
  by_cases hidx : i = idx
  · subst hidx
    rw [ha.here]
    constructor
    · intro hi
      cases hi
      exact absurd rfl hne
    · exact fun hi => absurd rfl hi.1
  · rw [ha.elsewhere i hidx, and_iff_right hidx]

/-- The track taken for a cookie is no other cookie's, or is free. -/
theorem TakenFor.free (htaken : TakenFor tracks idx cookie nestCount) {cookie' : ℤ} (hne : cookie' ≠ cookie) {n : ℕ}
    {id : Option ℕ} (hidx : tracks[idx]? = some ⟨.kCookie cookie' n, id⟩) : n = 0 := by
  rcases htaken with ⟨id', hown⟩ | ⟨-, -, hnone | ⟨cookie'', id', hfree⟩⟩
  · rw [hown] at hidx
    cases hidx
    exact absurd rfl hne
  · rw [hnone] at hidx
    cases hidx
  · rw [hfree] at hidx
    cases hidx
    rfl

theorem isCookie_ne {c : Call} {cookie' : ℤ} (hc : c.IsCookie hash cookie) (hne : cookie' ≠ cookie) :
    ¬ c.IsCookie hash cookie' := by
  rcases hc with rfl | rfl
  · rintro (hc | hc) <;> cases hc
    exact hne rfl
  · rintro (hc | hc) <;> cases hc
    exact hne rfl

/-- The slice of the cookie is open on the track it was assigned, if it is open. -/
theorem Tracked.openOn_own (ht : Tracked behaviour hash h tracks count) (hc : e.1.IsCookie hash cookie)
    (he : e.2 = some trackId) (htaken : TakenFor tracks idx cookie nestCount)
    (ha : Assigned tracks tracks' count count' idx (.kCookie cookie nestCount') trackId)
    (hcount : openCount behaviour hash cookie (h ++ [e]) = nestCount') (trackId' : ℕ) :
    OpenOn behaviour hash cookie trackId' (h ++ [e]) ↔ trackId' = trackId ∧ 0 < nestCount' := by
  have hold : OpenOn behaviour hash cookie trackId' h ↔
      ∃ n, tracks[idx]? = some ⟨.kCookie cookie n, some trackId'⟩ ∧ 0 < n := by
    rw [ht.openOn]
    constructor
    · rintro ⟨i, n, hi, hpos⟩
      rcases htaken with ⟨id, hown⟩ | ⟨hno, -⟩
      · exact ⟨n, ht.unique i idx cookie n nestCount _ id hi hown ▸ hi, hpos⟩
      · exact absurd hi (hno i n _)
    · rintro ⟨n, hi, hpos⟩
      exact ⟨idx, n, hi, hpos⟩
  rw [openOn_concat, hcount, hold]
  constructor
  · rintro (rfl | ⟨⟨n, hidx, -⟩, hpos⟩)
    · refine ⟨Option.some_inj.mp he, ?_⟩
      rw [← hcount, openCount_begin rfl]
      exact beginCount_pos _ _
    · exact ⟨Option.some_inj.mp (ha.kept _ hidx).1, hpos⟩
  · rintro ⟨rfl, hpos⟩
    rcases hc with hc | hc
    · exact Or.inl (Prod.ext hc he)
    · -- an end that leaves the cookie open finds it open
      refine Or.inr ⟨⟨nestCount, ?_⟩, hpos⟩
      have hcount' : nestCount = openCount behaviour hash cookie h := ht.taken_count htaken
      rw [openCount_end hc, ← hcount'] at hcount
      have hopen : 0 < nestCount := by omega
      rcases htaken with ⟨id, hown⟩ | ⟨-, rfl, -⟩
      · have hid : id = some trackId' := (ha.kept _ hown).1
        exact ⟨hid ▸ hown, hopen⟩
      · exact absurd hopen (Nat.lt_irrefl 0)

/-- A begin or an end of a cookie. -/
theorem Tracked.cookieCall (ht : Tracked behaviour hash h tracks count) (hc : e.1.IsCookie hash cookie)
    (he : e.2 = some trackId) (htaken : TakenFor tracks idx cookie nestCount)
    (ha : Assigned tracks tracks' count count' idx (.kCookie cookie nestCount') trackId)
    (hcount : openCount behaviour hash cookie (h ++ [e]) = nestCount') :
    Tracked behaviour hash (h ++ [e]) tracks' count' where
  ids := ha.identified ht.ids
  unique := by
    intro i j cookie' n n' id id' hi hj
    by_cases hne : cookie' = cookie
    · subst hne
      exact ((ht.own_iff htaken ha i n id).mp hi).1.trans ((ht.own_iff htaken ha j n' id').mp hj).1.symm
    · exact ht.unique i j cookie' n n' id id' ((other_iff ha hne i n id).mp hi).2 ((other_iff ha hne j n' id').mp hj).2
  nestCount := by
    intro i cookie' n id hi
    by_cases hne : cookie' = cookie
    · subst hne
      rw [hcount]
      exact ((ht.own_iff htaken ha i n id).mp hi).2.1
    · rw [openCount_keep (isCookie_ne hc hne)]
      exact ht.nestCount i cookie' n id ((other_iff ha hne i n id).mp hi).2
  absent := by
    intro cookie' hno
    by_cases hne : cookie' = cookie
    · subst hne
      exact absurd ha.here (hno idx nestCount' (some trackId))
    · rw [openCount_keep (isCookie_ne hc hne)]
      by_cases hlost : ∃ n id, tracks[idx]? = some ⟨.kCookie cookie' n, id⟩
      · obtain ⟨n, id, hidx⟩ := hlost
        rw [← ht.nestCount idx cookie' n id hidx]
        exact htaken.free hne hidx
      · refine ht.absent cookie' fun i n id hi => ?_
        by_cases hidx : i = idx
        · exact hlost ⟨n, id, hidx ▸ hi⟩
        · exact hno i n id ((other_iff ha hne i n id).mpr ⟨hidx, hi⟩)
  openOn := by
    intro cookie' trackId'
    by_cases hne : cookie' = cookie
    · subst hne
      rw [ht.openOn_own hc he htaken ha hcount]
      constructor
      · rintro ⟨rfl, hpos⟩
        exact ⟨idx, nestCount', ha.here, hpos⟩
      · rintro ⟨i, n, hi, hpos⟩
        obtain ⟨-, rfl, hid⟩ := (ht.own_iff htaken ha i n _).mp hi
        exact ⟨Option.some_inj.mp hid, hpos⟩
    · rw [openOn_keep (isCookie_ne hc hne), ht.openOn]
      refine exists_congr fun i => exists_congr fun n => and_congr_left fun hpos => ?_
      rw [other_iff ha hne]
      constructor
      · intro hi
        refine ⟨fun hidx => ?_, hi⟩
        have hzero : n = 0 := htaken.free hne (hidx ▸ hi)
        exact absurd hpos (hzero ▸ Nat.lt_irrefl 0)
      · exact And.right
  cookieTrack := by
    intro e' he' cookie' hc'
    rcases List.mem_append.mp he' with hmem | hmem
    · obtain ⟨i, cookie'', n, trackId', hid, hi⟩ := ht.cookieTrack e' hmem cookie' hc'
      by_cases hidx : i = idx
      · rw [hidx] at hi
        obtain rfl : trackId' = trackId := Option.some_inj.mp (ha.kept _ hi).1
        exact ⟨idx, cookie, nestCount', trackId', hid, ha.here⟩
      · exact ⟨i, cookie'', n, trackId', hid, (ha.elsewhere i hidx).trans hi⟩
    · rw [List.mem_singleton.mp hmem]
      exact ⟨idx, cookie, nestCount', trackId, he, ha.here⟩
  scopedTrack := by
    intro e' he' ts dur hc'
    rcases List.mem_append.mp he' with hmem | hmem
    · obtain ⟨i, tsEnd, trackId', hid, hi, hend⟩ := ht.scopedTrack e' hmem ts dur hc'
      refine ⟨i, tsEnd, trackId', hid, (ha.elsewhere i fun hidx => ?_).trans hi, hend⟩
      rw [hidx] at hi
      rcases htaken with ⟨id, hown⟩ | ⟨-, -, hnone | ⟨cookie'', id, hfree⟩⟩
      · rw [hown] at hi; cases hi
      · rw [hnone] at hi; cases hi
      · rw [hfree] at hi; cases hi
    · rw [List.mem_singleton.mp hmem] at hc'
      rcases hc with hc | hc <;> rw [hc] at hc' <;> cases hc'

/-- A scoped slice, on a track whose slices have ended or on a new one. -/
theorem Tracked.scopedCall (ht : Tracked behaviour hash h tracks count) {ts dur : ℤ} (hc : e.1 = .scopedSlice hash ts dur)
    (he : e.2 = some trackId) (hdur : 0 ≤ dur)
    (hidx : tracks[idx]? = none ∨ ∃ tsEnd id, tracks[idx]? = some ⟨.kTimestamp tsEnd, id⟩ ∧ tsEnd ≤ ts)
    (ha : Assigned tracks tracks' count count' idx (.kTimestamp (ts + dur)) trackId) :
    Tracked behaviour hash (h ++ [e]) tracks' count' := by
  have hnot : ∀ cookie, ¬ e.1.IsCookie hash cookie := by
    rintro cookie (hc' | hc') <;> rw [hc] at hc' <;> cases hc'
  have hcookies : ∀ (i : ℕ) cookie n id,
      tracks'[i]? = some ⟨.kCookie cookie n, id⟩ ↔ tracks[i]? = some ⟨.kCookie cookie n, id⟩ := by
    intro i cookie n id
    by_cases hi : i = idx
    · rw [hi, ha.here]
      rcases hidx with hnone | ⟨tsEnd, id', hold, -⟩
      · rw [hnone]
        exact ⟨nofun, nofun⟩
      · rw [hold]
        exact ⟨nofun, nofun⟩
    · rw [ha.elsewhere i hi]
  refine ⟨ha.identified ht.ids, ?_, ?_, ?_, ?_, ?_, ?_⟩
  · intro i j cookie n n' id id' hi hj
    exact ht.unique i j cookie n n' id id' ((hcookies _ _ _ _).mp hi) ((hcookies _ _ _ _).mp hj)
  · intro i cookie n id hi
    rw [openCount_keep (hnot cookie)]
    exact ht.nestCount i cookie n id ((hcookies _ _ _ _).mp hi)
  · intro cookie hno
    rw [openCount_keep (hnot cookie)]
    exact ht.absent cookie fun i n id hi => hno i n id ((hcookies _ _ _ _).mpr hi)
  · intro cookie trackId'
    rw [openOn_keep (hnot cookie), ht.openOn]
    exact exists_congr fun i => exists_congr fun n => and_congr_left fun _ => (hcookies _ _ _ _).symm
  · intro e' he' cookie hc'
    rcases List.mem_append.mp he' with hmem | hmem
    · obtain ⟨i, cookie', n, trackId', hid, hi⟩ := ht.cookieTrack e' hmem cookie hc'
      exact ⟨i, cookie', n, trackId', hid, (hcookies _ _ _ _).mpr hi⟩
    · rw [List.mem_singleton.mp hmem] at hc'
      exact absurd hc' (hnot cookie)
  · intro e' he' ts' dur' hc'
    rcases List.mem_append.mp he' with hmem | hmem
    · obtain ⟨i, tsEnd, trackId', hid, hi, hend⟩ := ht.scopedTrack e' hmem ts' dur' hc'
      by_cases hi' : i = idx
      · rw [hi'] at hi
        rcases hidx with hnone | ⟨tsEnd', id, hold, hended⟩
        · rw [hnone] at hi; cases hi
        · -- the slices of the track had ended when the new one starts
          obtain rfl : trackId' = trackId := Option.some_inj.mp (ha.kept _ hi).1
          rw [hold] at hi
          cases hi
          exact ⟨idx, ts + dur, trackId', hid, ha.here, by omega⟩
      · exact ⟨i, tsEnd, trackId', hid, (ha.elsewhere i hi').trans hi, hend⟩
    · rw [List.mem_singleton.mp hmem, hc] at hc'
      cases hc'
      rw [List.mem_singleton.mp hmem]
      exact ⟨idx, ts + dur, trackId, he, ha.here, Int.le_refl _⟩

end Steps

/-! ### Calls -/

/-- The begins of a cookie that are open fit into the nest count, and the end of a scoped slice into a timestamp. -/
def Fits (behaviour : ℕ → NestingBehaviour) (hash : ℕ) (h : List Event) : Call → Prop
  | .beginSlice hash' cookie => hash' = hash →
    beginCount (behaviour hash) (openCount behaviour hash cookie h) < 2 ^ 32
  | .endSlice _ _ => True
  | .scopedSlice hash' ts dur => hash' = hash → 0 ≤ dur ∧ -2 ^ 63 ≤ ts + dur ∧ ts + dur < 2 ^ 63
  | .otherTrack => True

theorem wrap64_of_fits {x : ℤ} (hlow : -2 ^ 63 ≤ x) (hhigh : x < 2 ^ 63) : wrap64 x = x := by
  unfold wrap64
  rw [Int.bmod_eq_of_le]
  · omega
  · omega

/-- The tracks of the other sets stay as they are. -/
theorem trackIdAt_other (s : TrackCompressor) {hash hash' : ℕ} (hne : hash ≠ hash') (r : List TrackState × ℕ) :
    (s.trackIdAt hash' r).1.sets hash = s.sets hash ∧ s.trackCount ≤ (s.trackIdAt hash' r).1.trackCount := by
  unfold trackIdAt
  split
  · exact ⟨Function.update_of_ne hne _ _, Nat.le_refl _⟩
  · split
    · exact ⟨Function.update_of_ne hne _ _, Nat.le_refl _⟩
    · exact ⟨Function.update_of_ne hne _ _, Nat.le_succ _⟩

section Calls

variable {behaviour : ℕ → NestingBehaviour} {hash : ℕ} {h : List Event} {s : TrackCompressor}

section

variable (ht : Tracked behaviour hash h (s.sets hash) s.trackCount)

include ht

theorem Tracked.beginSlice {cookie : ℤ}
    (hfits : beginCount (behaviour hash) (openCount behaviour hash cookie h) < 2 ^ 32) :
    Tracked behaviour hash (h ++ [(.beginSlice hash cookie, (s.call behaviour (.beginSlice hash cookie)).2)])
      ((s.call behaviour (.beginSlice hash cookie)).1.sets hash)
      (s.call behaviour (.beginSlice hash cookie)).1.trackCount := by
  obtain ⟨nestCount, htaken, hplaced⟩ := beginInternal_spec (s.sets hash) (behaviour hash) cookie
  have hcount : nestCount = openCount behaviour hash cookie h := ht.taken_count htaken
  obtain ⟨trackId, hid, ha⟩ := trackIdAt_spec ht.ids (hplaced (hcount ▸ hfits))
  exact ht.cookieCall (Or.inl rfl) hid htaken ha (by rw [openCount_begin rfl, ← hcount])

theorem Tracked.endSlice (cookie : ℤ) :
    Tracked behaviour hash (h ++ [(.endSlice hash cookie, (s.call behaviour (.endSlice hash cookie)).2)])
      ((s.call behaviour (.endSlice hash cookie)).1.sets hash)
      (s.call behaviour (.endSlice hash cookie)).1.trackCount := by
  obtain ⟨nestCount, htaken, hplaced⟩ := endInternal_spec (s.sets hash) cookie
  have hcount : nestCount = openCount behaviour hash cookie h := ht.taken_count htaken
  obtain ⟨trackId, hid, ha⟩ := trackIdAt_spec ht.ids hplaced
  exact ht.cookieCall (Or.inr rfl) hid htaken ha (by rw [openCount_end rfl, ← hcount])

theorem Tracked.scopedSlice {ts dur : ℤ} (hdur : 0 ≤ dur) (hlow : -2 ^ 63 ≤ ts + dur) (hhigh : ts + dur < 2 ^ 63) :
    Tracked behaviour hash (h ++ [(.scopedSlice hash ts dur, (s.call behaviour (.scopedSlice hash ts dur)).2)])
      ((s.call behaviour (.scopedSlice hash ts dur)).1.sets hash) (s.call behaviour (.scopedSlice hash ts dur)).1.trackCount := by
  obtain ⟨hplaced, hidx⟩ := scopedInternal_spec (s.sets hash) ts dur
  rw [wrap64_of_fits hlow hhigh] at hplaced
  obtain ⟨trackId, hid, ha⟩ := trackIdAt_spec ht.ids hplaced
  exact ht.scopedCall rfl hid hdur hidx ha

/-- The end of an open slice returns the track the slice is on. -/
theorem Tracked.endSlice_open {cookie : ℤ} {trackId : ℕ} (hopen : OpenOn behaviour hash cookie trackId h) :
    (s.call behaviour (.endSlice hash cookie)).2 = some trackId := by
  obtain ⟨nestCount, htaken, hplaced⟩ := endInternal_spec (s.sets hash) cookie
  obtain ⟨trackId', hid, ha⟩ := trackIdAt_spec ht.ids hplaced
  obtain ⟨i, n, hi, -⟩ := (ht.openOn cookie trackId).mp hopen
  rcases htaken with ⟨id, hown⟩ | ⟨hno, -⟩
  · obtain rfl : i = (endInternal (s.sets hash) cookie).2 := ht.unique _ _ cookie _ _ _ _ hi hown
    exact hid.trans (ha.kept _ hi).1.symm
  · exact absurd hi (hno i n _)

/-- A scoped slice gets none of the tracks whose slices end after it starts. -/
theorem Tracked.scopedSlice_separate {ts dur ts' dur' : ℤ} {e : Event} (he : e ∈ h)
    (hc : e.1 = .scopedSlice hash ts dur) (hoverlap : ts' < ts + dur) :
    e.2 ≠ (s.call behaviour (.scopedSlice hash ts' dur')).2 := by
  intro heq
  obtain ⟨hplaced, hidx⟩ := scopedInternal_spec (s.sets hash) ts' dur'
  obtain ⟨trackId, hid, ha⟩ := trackIdAt_spec ht.ids hplaced
  obtain ⟨i, tsEnd, trackId', hid', hi, hend⟩ := ht.scopedTrack e he ts dur hc
  have hsame : some trackId' = some trackId := hid'.symm.trans (heq.trans hid)
  have hi' := (ha.id_cases ht.ids).2 i _ hi hsame
  rw [hi'] at hi
  rcases hidx with hnone | ⟨tsEnd', id, hold, hended⟩
  · rw [hnone] at hi
    cases hi
  · rw [hold] at hi
    cases hi
    omega

/-- One call keeps the tracks of the set true to the history. -/
theorem Tracked.call {c : Call} (hfits : Fits behaviour hash h c) :
    Tracked behaviour hash (h ++ [(c, (s.call behaviour c).2)]) ((s.call behaviour c).1.sets hash)
      (s.call behaviour c).1.trackCount := by
  -- a call on another set
  have hother : ∀ {c : Call}, (s.call behaviour c).1.sets hash = s.sets hash ∧
      s.trackCount ≤ (s.call behaviour c).1.trackCount → (∀ cookie, ¬ c.IsCookie hash cookie) →
      (∀ ts dur, c ≠ .scopedSlice hash ts dur) → Tracked behaviour hash (h ++ [(c, (s.call behaviour c).2)])
        ((s.call behaviour c).1.sets hash) (s.call behaviour c).1.trackCount := by
    intro c hsame hcookie hscoped
    rw [hsame.1]
    exact ht.otherCall hsame.2 hcookie hscoped
  cases c with
  | beginSlice hash' cookie =>
    by_cases hhash : hash = hash'
    · subst hhash
      exact ht.beginSlice (hfits rfl)
    · refine hother (trackIdAt_other s hhash _) ?_ nofun
      rintro _ (hc | hc) <;> cases hc
      exact hhash rfl
  | endSlice hash' cookie =>
    by_cases hhash : hash = hash'
    · subst hhash
      exact ht.endSlice cookie
    · refine hother (trackIdAt_other s hhash _) ?_ nofun
      rintro _ (hc | hc) <;> cases hc
      exact hhash rfl
  | scopedSlice hash' ts dur =>
    by_cases hhash : hash = hash'
    · subst hhash
      obtain ⟨hdur, hlow, hhigh⟩ := hfits rfl
      exact ht.scopedSlice hdur hlow hhigh
    · refine hother (trackIdAt_other s hhash _) ?_ ?_
      · rintro _ (hc | hc) <;> cases hc
      · rintro _ _ hc
        cases hc
        exact hhash rfl
  | otherTrack =>
    refine hother ⟨rfl, Nat.le_succ _⟩ ?_ nofun
    rintro _ (hc | hc) <;> cases hc

end

end Calls

/-! ### Runs -/

theorem tracked_init (behaviour : ℕ → NestingBehaviour) (hash : ℕ) :
    Tracked behaviour hash [] (init.sets hash) init.trackCount where
  ids := ⟨nofun, nofun⟩
  unique := nofun
  nestCount := nofun
  absent := fun _ _ => rfl
  openOn := by
    intro cookie trackId
    constructor
    · exact fun hopen => absurd hopen not_since_nil
    · exact nofun
  cookieTrack := nofun
  scopedTrack := nofun

theorem run_concat (behaviour : ℕ → NestingBehaviour) (calls : List Call) (c : Call) :
    run behaviour (calls ++ [c]) = (((run behaviour calls).1.call behaviour c).1,
      (run behaviour calls).2 ++ [(c, ((run behaviour calls).1.call behaviour c).2)]) := by
  rw [run, List.foldl_append]
  rfl

/-- Every call of the run on the set fits. -/
def AllFit (behaviour : ℕ → NestingBehaviour) (hash : ℕ) (calls : List Call) : Prop :=
  ∀ before c, before ++ [c] <+: calls → Fits behaviour hash (run behaviour before).2 c

variable {calls : List Call}

theorem AllFit.concat {behaviour : ℕ → NestingBehaviour} {hash : ℕ} {c : Call}
    (hfits : AllFit behaviour hash (calls ++ [c])) : AllFit behaviour hash calls :=
  fun before c' hpre => hfits before c' (hpre.trans (List.prefix_append _ _))

theorem run_tracked {behaviour : ℕ → NestingBehaviour} {hash : ℕ} (hfits : AllFit behaviour hash calls) :
    Tracked behaviour hash (run behaviour calls).2 ((run behaviour calls).1.sets hash)
      (run behaviour calls).1.trackCount := by
  induction calls using List.reverseRecOn with
  | nil => exact tracked_init behaviour hash
  | append_singleton calls c ih =>
    rw [run_concat]
    exact (ih hfits.concat).call
      (hfits calls c List.prefix_rfl)

/-- Slices on one track do not collide; the begins of a cookie are counted as a set of the behaviour `counting` does. -/
structure Separates (counting behaviour : ℕ → NestingBehaviour) (hash : ℕ) (calls : List Call) : Prop where
  /-- A cookie that is open is on a track. -/
  opened : ∀ cookie, 0 < openCount counting hash cookie (run behaviour calls).2 →
    ∃ trackId, OpenOn counting hash cookie trackId (run behaviour calls).2
  /-- Two cookies that are open are on different tracks. -/
  cookies : ∀ cookie cookie' trackId trackId', cookie ≠ cookie' →
    OpenOn counting hash cookie trackId (run behaviour calls).2 →
    OpenOn counting hash cookie' trackId' (run behaviour calls).2 → trackId ≠ trackId'
  /-- An end returns the track of the begin. -/
  ends : ∀ cookie trackId, OpenOn counting hash cookie trackId (run behaviour calls).2 →
    ((run behaviour calls).1.call behaviour (.endSlice hash cookie)).2 = some trackId
  /-- No track is for cookies and for scoped slices. -/
  kinds : ∀ e ∈ (run behaviour calls).2, ∀ e' ∈ (run behaviour calls).2, ∀ cookie ts dur, e.1.IsCookie hash cookie →
    e'.1 = .scopedSlice hash ts dur → e.2 ≠ e'.2
  /-- Scoped slices that overlap are on different tracks. -/
  overlaps : (run behaviour calls).2.Pairwise fun e e' => ∀ ts dur ts' dur', e.1 = .scopedSlice hash ts dur →
    e'.1 = .scopedSlice hash ts' dur' → ts < ts' + dur' → ts' < ts + dur → e.2 ≠ e'.2

theorem run_overlaps {behaviour : ℕ → NestingBehaviour} {hash : ℕ} (hfits : AllFit behaviour hash calls) :
    (run behaviour calls).2.Pairwise fun e e' => ∀ ts dur ts' dur', e.1 = .scopedSlice hash ts dur →
      e'.1 = .scopedSlice hash ts' dur' → ts < ts' + dur' → ts' < ts + dur → e.2 ≠ e'.2 := by
  induction calls using List.reverseRecOn with
  | nil => exact List.Pairwise.nil
  | append_singleton calls c ih =>
    rw [run_concat]
    refine List.pairwise_append.mpr ⟨ih hfits.concat, List.pairwise_singleton _ _, ?_⟩
    intro e he e' he' ts dur ts' dur' hc hc' _ hoverlap
    rw [List.mem_singleton.mp he'] at hc' ⊢
    obtain rfl : c = .scopedSlice hash ts' dur' := hc'
    exact (run_tracked hfits.concat).scopedSlice_separate he hc hoverlap

theorem allFit_nil {behaviour : ℕ → NestingBehaviour} {hash : ℕ} : AllFit behaviour hash [] := by
  intro before c hpre
  exact absurd (List.prefix_nil.mp hpre) (List.append_ne_nil_of_right_ne_nil _ nofun)

theorem allFit_concat {behaviour : ℕ → NestingBehaviour} {hash : ℕ} {c : Call} (hcalls : AllFit behaviour hash calls)
    (hc : Fits behaviour hash (run behaviour calls).2 c) : AllFit behaviour hash (calls ++ [c]) := by
  intro before c' hpre
  rcases List.prefix_concat_iff.mp hpre with heq | hpre
  · obtain ⟨rfl, hcc⟩ := List.append_inj' heq rfl
    rwa [List.singleton_inj.mp hcc]
  · exact hcalls before c' hpre

example : (run (fun _ => .kNestable) [.beginSlice 0 1, .beginSlice 0 2, .endSlice 0 1, .beginSlice 0 3,
    .scopedSlice 0 0 10, .scopedSlice 0 5 10, .scopedSlice 0 12 4]).2.map Prod.snd =
      [some 0, some 1, some 0, some 0, some 2, some 3, some 2] := by decide

end LynxTrace.TraceProcessor.TrackCompressor
