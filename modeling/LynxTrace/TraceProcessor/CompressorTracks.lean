import LynxTrace.Base.Since
import LynxTrace.TraceProcessor.TrackCompressor
import Mathlib.Data.List.Basic
import Mathlib.Tactic.SplitIfs

/-!
# TraceProcessor.CompressorTracks — the slices on the tracks of a `TrackCompressor`

A call takes the slice type of one track of its set and may add that track; the others stay as they are (`Assigned`).
A track of a cookie counts the begins of that cookie that have no end yet.
-/

namespace LynxTrace.TraceProcessor.TrackCompressor

/-! ### One track of a set -/

/-- The call gave the track at `idx` the slice type and returned its id; a track that was not there is new. -/
structure Assigned (tracks tracks' : List TrackState) (count count' idx : ℕ) (sliceType : SliceType) (trackId : ℕ) :
    Prop where
  here : tracks'[idx]? = some ⟨sliceType, some trackId⟩
  elsewhere : ∀ j, j ≠ idx → tracks'[j]? = tracks[j]?
  kept : ∀ state : TrackState, tracks[idx]? = some state → state.trackId = some trackId ∧ count' = count
  made : tracks[idx]? = none → trackId = count ∧ count' = count + 1

/-- The ids of the tracks of a set. -/
structure Identified (tracks : List TrackState) (count : ℕ) : Prop where
  valid : ∀ (i : ℕ) (state : TrackState), tracks[i]? = some state → ∃ trackId < count, state.trackId = some trackId
  distinct : ∀ (i j : ℕ) (state state' : TrackState), tracks[i]? = some state → tracks[j]? = some state' →
    state.trackId = state'.trackId → i = j

section Assigned

variable {tracks tracks' : List TrackState} {count count' idx trackId : ℕ} {sliceType : SliceType}

theorem Identified.lift (h : Identified tracks count) (hle : count ≤ count') : Identified tracks count' where
  valid := by
    intro i state hi
    obtain ⟨trackId, hlt, hid⟩ := h.valid i state hi
    exact ⟨trackId, Nat.lt_of_lt_of_le hlt hle, hid⟩
  distinct := h.distinct

/-- The id of the track is its old one, or no track had it. -/
theorem Assigned.id_cases (ha : Assigned tracks tracks' count count' idx sliceType trackId)
    (h : Identified tracks count) :
    (trackId < count' ∧ count ≤ count') ∧
      ∀ (j : ℕ) (state : TrackState), tracks[j]? = some state → state.trackId = some trackId → j = idx := by
  cases hidx : tracks[idx]? with
  | none =>
    obtain ⟨rfl, rfl⟩ := ha.made hidx
    refine ⟨⟨Nat.lt_succ_self _, Nat.le_succ _⟩, fun j state hj hid => ?_⟩
    obtain ⟨trackId', hlt, hid'⟩ := h.valid j state hj
    rw [hid, Option.some_inj] at hid'
    exact absurd hlt (hid' ▸ Nat.lt_irrefl _)
  | some old =>
    obtain ⟨hold, rfl⟩ := ha.kept old hidx
    obtain ⟨trackId', hlt, hid'⟩ := h.valid idx old hidx
    rw [hold, Option.some_inj] at hid'
    exact ⟨⟨hid' ▸ hlt, Nat.le_refl _⟩, fun j state hj hid => h.distinct j idx state old hj hidx (hid.trans hold.symm)⟩

theorem Assigned.identified (ha : Assigned tracks tracks' count count' idx sliceType trackId)
    (h : Identified tracks count) : Identified tracks' count' where
  valid := by
    intro i state hi
    obtain ⟨⟨hlt, hle⟩, -⟩ := ha.id_cases h
    by_cases hidx : i = idx
    · rw [hidx, ha.here, Option.some_inj] at hi
      exact ⟨trackId, hlt, hi ▸ rfl⟩
    · rw [ha.elsewhere i hidx] at hi
      exact (h.lift hle).valid i state hi
  distinct := by
    intro i j state state' hi hj hids
    have hold := (ha.id_cases h).2
    by_cases hi' : i = idx
    · rw [hi', ha.here, Option.some_inj] at hi
      subst hi
      by_cases hj' : j = idx
      · rw [hi', hj']
      · rw [ha.elsewhere j hj'] at hj
        exact absurd (hold j state' hj hids.symm) hj'
    · rw [ha.elsewhere i hi'] at hi
      by_cases hj' : j = idx
      · rw [hj', ha.here, Option.some_inj] at hj
        subst hj
        exact absurd (hold i state hi hids) hi'
      · rw [ha.elsewhere j hj'] at hj
        exact h.distinct i j state state' hi hj hids

end Assigned

/-! ### The internal functions -/

/-- The track at the index has the slice type and its old id, if it had one; the other tracks are the old ones. -/
structure Placed (tracks : List TrackState) (r : List TrackState × ℕ) (sliceType : SliceType) : Prop where
  here : r.1[r.2]? = some ⟨sliceType, tracks[r.2]?.bind TrackState.trackId⟩
  elsewhere : ∀ j, j ≠ r.2 → r.1[j]? = tracks[j]?

/-- The track was the cookie's, or the cookie had none and the track was free or new. -/
def TakenFor (tracks : List TrackState) (idx : ℕ) (cookie : ℤ) (nestCount : ℕ) : Prop :=
  (∃ id, tracks[idx]? = some ⟨.kCookie cookie nestCount, id⟩) ∨
    ((∀ (j n : ℕ) id, tracks[j]? ≠ some ⟨.kCookie cookie n, id⟩) ∧ nestCount = 0 ∧
      (tracks[idx]? = none ∨ ∃ cookie' id, tracks[idx]? = some ⟨.kCookie cookie' 0, id⟩))

section Internal

variable {tracks : List TrackState} {r : List TrackState × ℕ} {sliceType : SliceType} {cookie : ℤ} {nestCount : ℕ}

/-- A track is changed in place. -/
theorem placed_modify {idx : ℕ} {state : TrackState} (hidx : tracks[idx]? = some state) {f : TrackState → TrackState}
    (hf : f state = ⟨sliceType, state.trackId⟩) : Placed tracks (tracks.modify idx f, idx) sliceType where
  here := by
    rw [List.getElem?_modify_eq, hidx, Option.bind_some]
    exact congrArg some hf
  elsewhere := by
    intro j hj
    exact List.getElem?_modify_ne _ _ hj.symm

theorem placed_append : Placed tracks (tracks ++ [⟨sliceType, none⟩], tracks.length) sliceType where
  here := by
    rw [List.getElem?_concat_length, List.getElem?_eq_none (Nat.le_refl _), Option.bind_none]
  elsewhere := by
    intro j hj
    rcases Nat.lt_or_gt_of_ne hj with hlt | hgt
    · exact List.getElem?_append_left hlt
    · rw [List.getElem?_eq_none (Nat.le_of_lt hgt), List.getElem?_eq_none]
      rw [List.length_append, List.length_singleton]
      exact hgt

theorem Placed.modifyNestCount (h : Placed tracks r (.kCookie cookie nestCount)) (f : ℕ → ℕ) :
    Placed tracks (r.1.modify r.2 (modifyNestCount f), r.2) (.kCookie cookie (f nestCount)) where
  here := by
    rw [List.getElem?_modify_eq, h.here]
    rfl
  elsewhere := by
    intro j hj
    rw [List.getElem?_modify_ne _ _ hj.symm]
    exact h.elsewhere j hj

theorem exists_of_findIdx? {p : TrackState → Bool} {idx : ℕ} (hfind : tracks.findIdx? p = some idx) :
    ∃ state, tracks[idx]? = some state ∧ p state = true := by
  have h := List.of_findIdx?_eq_some hfind
  cases hidx : tracks[idx]? with
  | none => rw [hidx] at h; cases h
  | some state => rw [hidx] at h; exact ⟨state, rfl, h⟩

/-- No track has the cookie. -/
theorem ne_of_findIdx?_hasCookie (hnone : tracks.findIdx? (hasCookie cookie) = none) (j n : ℕ) (id : Option ℕ) :
    tracks[j]? ≠ some ⟨.kCookie cookie n, id⟩ := by
  intro hj
  have hno := List.findIdx?_eq_none_iff.mp hnone _ (List.mem_of_getElem? hj)
  exact absurd rfl (of_decide_eq_false hno)

theorem getOrCreateTrackForCookie_spec (tracks : List TrackState) (cookie : ℤ) :
    ∃ nestCount, Placed tracks (getOrCreateTrackForCookie tracks cookie) (.kCookie cookie nestCount) ∧
      TakenFor tracks (getOrCreateTrackForCookie tracks cookie).2 cookie nestCount := by
  unfold getOrCreateTrackForCookie
  cases hcookie : tracks.findIdx? (hasCookie cookie) with
  | some idx =>
    obtain ⟨⟨sliceType, id⟩, hidx, hhas⟩ := exists_of_findIdx? hcookie
    cases sliceType with
    | kTimestamp tsEnd => cases hhas
    | kCookie cookie' nestCount =>
      obtain rfl : cookie' = cookie := of_decide_eq_true hhas
      exact ⟨nestCount, ⟨by rw [hidx, Option.bind_some], fun _ _ => rfl⟩, Or.inl ⟨id, hidx⟩⟩
  | none =>
    have hno := ne_of_findIdx?_hasCookie hcookie
    dsimp only
    cases hfree : tracks.findIdx? isFree with
    | some idx =>
      obtain ⟨⟨sliceType, id⟩, hidx, hhas⟩ := exists_of_findIdx? hfree
      cases sliceType with
      | kTimestamp tsEnd => cases hhas
      | kCookie cookie' nestCount =>
        obtain rfl : nestCount = 0 := of_decide_eq_true hhas
        exact ⟨0, placed_modify hidx rfl, Or.inr ⟨hno, rfl, Or.inr ⟨cookie', id, hidx⟩⟩⟩
    | none => exact ⟨0, placed_append, Or.inr ⟨hno, rfl, Or.inl (List.getElem?_eq_none (Nat.le_refl _))⟩⟩

/-- How many slices are open on the track after a begin. -/
def beginCount (behaviour : NestingBehaviour) (nestCount : ℕ) : ℕ :=
  match behaviour with
  | .kNestable => nestCount + 1
  | .kLegacySaturatingUnnestable => 1

theorem beginInternal_spec (tracks : List TrackState) (behaviour : NestingBehaviour) (cookie : ℤ) :
    ∃ nestCount, TakenFor tracks (beginInternal tracks behaviour cookie).2 cookie nestCount ∧
      (beginCount behaviour nestCount < 2 ^ 32 →
        Placed tracks (beginInternal tracks behaviour cookie) (.kCookie cookie (beginCount behaviour nestCount))) := by
  obtain ⟨nestCount, hplaced, htaken⟩ := getOrCreateTrackForCookie_spec tracks cookie
  refine ⟨nestCount, ?_, fun hlt => ?_⟩
  · cases behaviour <;> exact htaken
  · cases behaviour with
    | kNestable =>
      have h := hplaced.modifyNestCount fun n => (n + 1) % 2 ^ 32
      have hmod : (nestCount + 1) % 2 ^ 32 = nestCount + 1 := Nat.mod_eq_of_lt hlt
      rwa [hmod] at h
    | kLegacySaturatingUnnestable => exact hplaced.modifyNestCount fun _ => 1

theorem endInternal_spec (tracks : List TrackState) (cookie : ℤ) :
    ∃ nestCount, TakenFor tracks (endInternal tracks cookie).2 cookie nestCount ∧
      Placed tracks (endInternal tracks cookie) (.kCookie cookie (nestCount - 1)) := by
  obtain ⟨nestCount, hplaced, htaken⟩ := getOrCreateTrackForCookie_spec tracks cookie
  refine ⟨nestCount, htaken, ?_⟩
  have h := hplaced.modifyNestCount fun n => if n > 0 then n - 1 else n
  have hcount : (if nestCount > 0 then nestCount - 1 else nestCount) = nestCount - 1 := by
    split_ifs <;> omega
  rwa [hcount] at h

theorem scopedInternal_spec (tracks : List TrackState) (ts dur : ℤ) :
    Placed tracks (scopedInternal tracks ts dur) (.kTimestamp (wrap64 (ts + dur))) ∧
      (tracks[(scopedInternal tracks ts dur).2]? = none ∨
        ∃ tsEnd id, tracks[(scopedInternal tracks ts dur).2]? = some ⟨.kTimestamp tsEnd, id⟩ ∧ tsEnd ≤ ts) := by
  unfold scopedInternal
  cases hended : tracks.findIdx? (hasEnded ts) with
  | some idx =>
    obtain ⟨⟨sliceType, id⟩, hidx, hhas⟩ := exists_of_findIdx? hended
    cases sliceType with
    | kTimestamp tsEnd => exact ⟨placed_modify hidx rfl, Or.inr ⟨tsEnd, id, hidx, of_decide_eq_true hhas⟩⟩
    | kCookie cookie nestCount => cases hhas
  | none => exact ⟨placed_append, Or.inl (List.getElem?_eq_none (Nat.le_refl _))⟩

/-- The track of a call gets an id. -/
theorem trackIdAt_spec {s : TrackCompressor} {hash : ℕ} (hids : Identified (s.sets hash) s.trackCount)
    (hplaced : Placed (s.sets hash) r sliceType) :
    ∃ trackId, (s.trackIdAt hash r).2 = some trackId ∧
      Assigned (s.sets hash) ((s.trackIdAt hash r).1.sets hash) s.trackCount (s.trackIdAt hash r).1.trackCount r.2
        sliceType trackId := by
  unfold trackIdAt
  rw [hplaced.here]
  cases hidx : (s.sets hash)[r.2]? with
  | none =>
    refine ⟨s.trackCount, rfl, ?_, ?_, ?_, ?_⟩
    · dsimp only [Option.bind_none]
      rw [Function.update_self, List.getElem?_modify_eq, hplaced.here]
      rfl
    · intro j hj
      dsimp only [Option.bind_none]
      rw [Function.update_self, List.getElem?_modify_ne _ _ hj.symm]
      exact hplaced.elsewhere j hj
    · intro state hstate
      rw [hidx] at hstate
      cases hstate
    · exact fun _ => ⟨rfl, rfl⟩
  | some old =>
    obtain ⟨trackId, -, hid⟩ := hids.valid r.2 old hidx
    rw [Option.bind_some, hid]
    refine ⟨trackId, rfl, ?_, ?_, ?_, ?_⟩
    · dsimp only
      rw [Function.update_self, hplaced.here, hidx, Option.bind_some, hid]
    · intro j hj
      dsimp only
      rw [Function.update_self]
      exact hplaced.elsewhere j hj
    · intro state hstate
      rw [hidx, Option.some_inj] at hstate
      exact ⟨hstate ▸ hid, rfl⟩
    · intro hnone
      rw [hidx] at hnone
      cases hnone

end Internal

end LynxTrace.TraceProcessor.TrackCompressor
