import LynxTrace.Ui.ProtoRingSessions

/-!
# Ui.ProtoRingStreams — the messages that a `ProtoRingBuffer` returns for a stream

* `seesLengths_append` — a stream whose first part has no failure is judged by what that part leaves.
* `run_frames_iff` — the messages are the frames of the stream, however it is cut, exactly if every length that is too
  large is seen to be.
-/

namespace LynxTrace.Ui

open ProtoTokenizationMode

namespace ProtoRingBuffer

/-! ### Lengths of a longer stream -/

variable {mode : ProtoTokenizationMode}

theorem seesLengths_append {xs left : List UInt8} (hleft : ((frames mode).drain xs).2 = some left) (ys : List UInt8) :
    SeesLengths mode (xs ++ ys) ↔ SeesLengths mode (left ++ ys) := by
  constructor
  · intro hsees d groups body hleaves
    exact hsees d groups body (((Framing.leaves_of_drain hleft).append ys).trans hleaves)
  · intro hsees d groups body hleaves hheader hmax
    rcases hleaves.cases_append hleft with hrest | ⟨ms, rest, hframe⟩
    · exact hsees d groups body hrest hheader hmax
    · obtain ⟨groups', body', hheader', hlt, -⟩ := nextFrame_frame.mp hframe
      rw [hheader] at hheader'
      cases hheader'
      exact absurd hmax (Nat.not_le.mpr hlt)

/-- After a failure nothing more is looked at. -/
theorem seesLengths_append_fail {xs : List UInt8} (hfail : ((frames mode).drain xs).2 = none) (ys : List UInt8) :
    SeesLengths mode (xs ++ ys) ↔ SeesLengths mode xs := by
  induction hn : xs.length using Nat.strongRecOn generalizing xs with
  | ind n ih =>
    subst hn
    cases hnext : (frames mode).next xs with
    | more =>
      rw [(frames mode).drain_more hnext] at hfail
      cases hfail
    | fail ms =>
      rw [seesLengths_of_fail hnext, seesLengths_of_fail ((frames mode).fail_append ys hnext)]
      cases hheader : mode.header xs with
      | more =>
        obtain ⟨-, h | ⟨_, _, h, -⟩⟩ := nextFrame_fail.mp hnext <;> rw [hheader] at h <;> cases h
      | badTag =>
        rw [header_badTag_append hheader ys]
      | length groups body =>
        rw [header_append hheader ys]
        refine ⟨fun h groups' body' heq => ?_, fun h groups' body' heq => ?_⟩
        · cases heq
          exact h _ _ rfl
        · cases heq
          exact h _ _ rfl
    | frame ms rest =>
      rw [(frames mode).drain_frame hnext] at hfail
      rw [seesLengths_of_frame hnext, seesLengths_of_frame ((frames mode).frame_append ys hnext)]
      exact ih rest.length ((frames mode).shorter hnext) hfail rfl

/-- Where more data is needed no length is too large. -/
theorem seesLengths_of_more {xs : List UInt8} (h : nextFrame mode xs = .more) : SeesLengths mode xs := by
  intro d groups body hleaves hheader hmax
  obtain rfl := hleaves.eq_of_not_frame fun ms rest hframe => by
    rw [show (frames mode).next xs = nextFrame mode xs from rfl, h] at hframe
    cases hframe
  have hfail : nextFrame mode d = .fail [] := nextFrame_fail.mpr ⟨rfl, Or.inr ⟨groups, body, hheader, hmax⟩⟩
  rw [h] at hfail
  cases hfail

/-! ### Runs -/

/-- Each piece of the stream is a frame by itself, or fits the largest buffer with what is left before it. -/
def Fits (mode : ProtoTokenizationMode) : (left : List UInt8) → (chunks : List (List UInt8)) → Prop
  | _, [] => True
  | left, chunk :: chunks => FitsAfter mode left chunk ∧
      ∀ rest, ((frames mode).drain (left ++ chunk)).2 = some rest → Fits mode rest chunks

/-- A stream within the limit fits. -/
theorem fits_of_length {left : List UInt8} {chunks : List (List UInt8)}
    (h : left.length + chunks.flatten.length ≤ growthLimit) : Fits mode left chunks := by
  induction chunks generalizing left with
  | nil => trivial
  | cons chunk chunks ih =>
    rw [List.flatten_cons, List.length_append] at h
    refine ⟨Or.inr (by omega), fun rest hrest => ih ?_⟩
    have hle := ((frames mode).drain_left hrest).1
    rw [List.length_append] at hle
    omega

/-- The messages for the pieces that have arrived are the frames of what they make up with the readable bytes; the
buffer has thrown exactly if they fail. -/
def ReturnsFrames (n : ℕ) (s : ProtoRingBuffer) (arrived : List (List UInt8)) : Prop :=
  ∃ msgs res, run n s arrived = some (msgs, res) ∧
    msgs = ((frames s.mode).drain (s.pending ++ arrived.flatten)).1 ∧
    ((∃ e, res = .error e) ↔ ((frames s.mode).drain (s.pending ++ arrived.flatten)).2 = none)

section Run

variable {n : ℕ} {s s' : ProtoRingBuffer} {chunk : List UInt8} {arrived : List (List UInt8)}

theorem returnsFrames_nil (hmore : nextFrame s.mode s.pending = .more) : ReturnsFrames n s [] := by
  have hdrain : (frames s.mode).drain (s.pending ++ [].flatten) = ([], some s.pending) := by
    rw [List.flatten_nil, List.append_nil]
    exact (frames s.mode).drain_more hmore
  refine ⟨[], .ok s, rfl, by rw [hdrain], ?_⟩
  rw [hdrain]
  refine ⟨?_, fun h => by cases h⟩
  rintro ⟨e, he⟩
  cases he

/-- After a piece without a failure. -/
theorem returnsFrames_cons
    (hread : s.appendAndRead n chunk = some (((frames s.mode).drain (s.pending ++ chunk)).1, .ok s'))
    (hleft : ((frames s.mode).drain (s.pending ++ chunk)).2 = some s'.pending) (hmode : s'.mode = s.mode) :
    ReturnsFrames n s (chunk :: arrived) ↔ ReturnsFrames n s' arrived := by
  have hdrain : (frames s.mode).drain (s.pending ++ (chunk :: arrived).flatten) =
      (((frames s.mode).drain (s.pending ++ chunk)).1 ++ ((frames s.mode).drain (s'.pending ++ arrived.flatten)).1,
        ((frames s.mode).drain (s'.pending ++ arrived.flatten)).2) := by
    rw [List.flatten_cons, ← List.append_assoc, (frames s.mode).drain_append, Framing.feed, hleft]
  have hrun : run n s (chunk :: arrived) =
      (run n s' arrived).map fun q => (((frames s.mode).drain (s.pending ++ chunk)).1 ++ q.1, q.2) := by
    rw [run, hread]
    rfl
  unfold ReturnsFrames
  rw [hdrain, hrun, hmode]
  constructor
  · rintro ⟨msgs, res, hmap, hmsgs, hres⟩
    obtain ⟨q, hq, heq⟩ := Option.map_eq_some_iff.mp hmap
    obtain ⟨rfl, rfl⟩ := Prod.mk.inj heq
    exact ⟨q.1, q.2, hq, List.append_cancel_left hmsgs, hres⟩
  · rintro ⟨msgs, res, hq, hmsgs, hres⟩
    refine ⟨_, res, by rw [hq]; rfl, ?_, hres⟩
    rw [hmsgs]

/-- At a failure the buffer has to throw. -/
theorem returnsFrames_fail (hfail : ((frames s.mode).drain (s.pending ++ chunk)).2 = none) :
    ReturnsFrames n s [chunk] ↔
      ∃ e, s.appendAndRead n chunk = some (((frames s.mode).drain (s.pending ++ chunk)).1, .error e) := by
  have hone : [chunk].flatten = chunk := by rw [List.flatten_cons, List.flatten_nil, List.append_nil]
  unfold ReturnsFrames
  rw [hone, hfail, run]
  constructor
  · rintro ⟨msgs, res, hrun, hmsgs, hres⟩
    obtain ⟨e, rfl⟩ := hres.mpr rfl
    obtain ⟨⟨ms, res⟩, hread, hrest⟩ := Option.bind_eq_some_iff.mp hrun
    cases res with
    | error e' =>
      cases hrest
      exact ⟨e, hmsgs ▸ hread⟩
    | ok u =>
      have hok := congrArg Prod.snd (Option.some.inj hrest)
      cases hok
  · rintro ⟨e, hread⟩
    rw [hread]
    exact ⟨_, _, rfl, rfl, fun _ => rfl, fun _ => ⟨e, rfl⟩⟩

/-- What arrives after the exception changes nothing. -/
theorem returnsFrames_cons_fail (hfail : ((frames s.mode).drain (s.pending ++ chunk)).2 = none)
    (h : ReturnsFrames n s [chunk]) : ReturnsFrames n s (chunk :: arrived) := by
  obtain ⟨e, hread⟩ := (returnsFrames_fail hfail).mp h
  have hdrain : (frames s.mode).drain (s.pending ++ (chunk :: arrived).flatten) =
      (frames s.mode).drain (s.pending ++ chunk) := by
    rw [List.flatten_cons, ← List.append_assoc, (frames s.mode).drain_append, Framing.feed, hfail]
  refine ⟨_, .error e, by rw [run, hread]; rfl, by rw [hdrain], ?_⟩
  rw [hdrain, hfail]
  exact ⟨fun _ => rfl, fun _ => ⟨e, rfl⟩⟩

end Run

/-- The pieces of a stream, one after the other. -/
theorem Ready.returnsFrames_iff {s : ProtoRingBuffer} (h : s.Ready) (hmore : nextFrame s.mode s.pending = .more)
    {chunks : List (List UInt8)} (hfits : Fits s.mode s.pending chunks) {n : ℕ}
    (hn : (s.pending ++ chunks.flatten).length < n) :
    (∀ arrived, arrived <+: chunks → ReturnsFrames n s arrived) ↔
      SeesLengths s.mode (s.pending ++ chunks.flatten) := by
  induction chunks generalizing s with
  | nil =>
    rw [List.flatten_nil, List.append_nil]
    refine ⟨fun _ => seesLengths_of_more hmore, fun _ arrived harrived => ?_⟩
    rw [List.prefix_nil.mp harrived]
    exact returnsFrames_nil hmore
  | cons chunk chunks ih =>
    obtain ⟨hfits, hlater⟩ := hfits
    rw [List.flatten_cons, ← List.append_assoc] at hn ⊢
    have hshort : (s.pending ++ chunk).length < n := by
      rw [List.length_append] at hn
      omega
    cases hleft : ((frames s.mode).drain (s.pending ++ chunk)).2 with
    | none =>
      rw [seesLengths_append_fail hleft, ← h.appendAndRead_fail hfits hshort hleft, ← returnsFrames_fail hleft]
      refine ⟨fun hall => hall _ (by simp), fun hone arrived harrived => ?_⟩
      rcases List.prefix_cons_iff.mp harrived with rfl | ⟨later, rfl, -⟩
      · exact returnsFrames_nil hmore
      · exact returnsFrames_cons_fail hleft hone
    | some left =>
      obtain ⟨s', hread, hready, rfl, hmode⟩ := h.appendAndRead hfits hshort hleft
      have hrest := (frames s.mode).drain_left hleft
      have hih := ih hready (by rw [hmode]; exact hrest.2) (by rw [hmode]; exact hlater _ hleft) (by
        rw [List.length_append] at hn ⊢
        omega)
      rw [seesLengths_append hleft, ← hmode, ← hih]
      constructor
      · intro hall arrived harrived
        exact (returnsFrames_cons hread hleft hmode).mp (hall _ (by simpa using harrived))
      · intro hall arrived harrived
        rcases List.prefix_cons_iff.mp harrived with rfl | ⟨later, rfl, hlater'⟩
        · exact returnsFrames_nil hmore
        · exact (returnsFrames_cons hread hleft hmode).mpr (hall later hlater')

/-- At every cut of a stream the messages returned are the frames of what has arrived, and the buffer has thrown exactly
if that holds a bad tag or a length that is too large, if and only if each such length is seen to be too large. -/
theorem run_frames_iff (mode : ProtoTokenizationMode) (chunks : List (List UInt8)) (hfits : Fits mode [] chunks) (n : ℕ)
    (hn : chunks.flatten.length < n) :
    (∀ arrived, arrived <+: chunks → ∃ msgs res, run n (new mode) arrived = some (msgs, res) ∧
      msgs = ((frames mode).drain arrived.flatten).1 ∧
      ((∃ e, res = .error e) ↔ ((frames mode).drain arrived.flatten).2 = none)) ↔
      SeesLengths mode chunks.flatten := by
  exact (ready_new mode).returnsFrames_iff (nextFrame_nil mode) hfits hn

/-- A message cut inside its header. -/
theorem run_frames_iff_cut : ∃ msgs res,
    run 6 (new .fixedSize) [[1, 0, 0], [0, 7]] = some (msgs, res) ∧
      msgs = ((frames .fixedSize).drain [1, 0, 0, 0, 7]).1 ∧
      ((∃ e, res = .error e) ↔ ((frames .fixedSize).drain [1, 0, 0, 0, 7]).2 = none) := by
  refine (run_frames_iff .fixedSize [[1, 0, 0], [0, 7]] (fits_of_length (by decide)) 6 (by decide)).mpr ?_ _
    List.prefix_rfl
  have hframe : nextFrame .fixedSize [1, 0, 0, 0, 7] = .frame [[7]] [] := by rfl
  exact (seesLengths_of_frame hframe).mpr (seesLengths_of_more (nextFrame_nil _))

/-- The length 0xffffffff is -1 in 32 bits: an empty message is returned. -/
theorem not_run_frames_topBit : ¬ ∀ arrived, arrived <+: [[0xff, 0xff, 0xff, 0xff]] → ∃ msgs res,
    run 5 (new .fixedSize) arrived = some (msgs, res) ∧ msgs = ((frames .fixedSize).drain arrived.flatten).1 ∧
      ((∃ e, res = .error e) ↔ ((frames .fixedSize).drain arrived.flatten).2 = none) := by
  intro h
  have hsees := ((ready_new .fixedSize).returnsFrames_iff (nextFrame_nil _) (fits_of_length (by decide))
    (by decide)).mp h
  have hrec : ProtoTokenizationMode.fixedSize.Recognized [255, 255, 255, 255] :=
    hsees _ _ _ (.refl _) rfl (by decide)
  exact hrec.2 ⟨3, 255, rfl, by decide, by decide⟩

end ProtoRingBuffer

end LynxTrace.Ui
