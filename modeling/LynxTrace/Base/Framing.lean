import Mathlib.Data.List.Basic

/-!
# Base.Framing — decoders of a stream that arrives in pieces

A `Framing` decides on the data at hand whether a frame is complete, whether the data is bad, or whether more is needed;
what it has decided does not change when more data arrives.  `drain` takes the frames off the data as long as there are
any.

* `drain_append` — the frames of some data are those of its first part, then those of what the first part leaves.
* `Leaves` — what is left of a stream when some of its frames have been taken off.
-/

namespace LynxTrace

/-- What a decoder makes of the data it has: nothing yet, the messages of a frame and the data after it, or the
messages up to a failure. -/
inductive Outcome (α M : Type*)
  | more
  | frame (ms : List M) (rest : List α)
  | fail (ms : List M)

/-- A decoder whose decisions stand when more data arrives. -/
structure Framing (α M : Type*) where
  next : List α → Outcome α M
  shorter : ∀ {xs ms rest}, next xs = .frame ms rest → rest.length < xs.length
  frame_append : ∀ {xs ms rest} (ys : List α), next xs = .frame ms rest → next (xs ++ ys) = .frame ms (rest ++ ys)
  fail_append : ∀ {xs ms} (ys : List α), next xs = .fail ms → next (xs ++ ys) = .fail ms

namespace Framing

variable {α M : Type*} (F : Framing α M)

/-- The messages in some data, and the data left after them; nothing is left after a failure. -/
def drain (xs : List α) : List M × Option (List α) :=
  match h : F.next xs with
  | .more => ([], some xs)
  | .fail ms => (ms, none)
  | .frame ms rest =>
    have : rest.length < xs.length := F.shorter h
    (ms ++ (drain rest).1, (drain rest).2)
termination_by xs.length

theorem drain_more {xs : List α} (h : F.next xs = .more) : F.drain xs = ([], some xs) := by
  rw [drain]
  split
  · rfl
  · rename_i h'
    exact absurd (h.symm.trans h') (by simp)
  · rename_i h'
    exact absurd (h.symm.trans h') (by simp)

theorem drain_fail {xs : List α} {ms : List M} (h : F.next xs = .fail ms) : F.drain xs = (ms, none) := by
  rw [drain]
  split
  · rename_i h'
    exact absurd (h.symm.trans h') (by simp)
  · rename_i h'
    rw [Outcome.fail.inj (h.symm.trans h')]
  · rename_i h'
    exact absurd (h.symm.trans h') (by simp)

theorem drain_frame {xs rest : List α} {ms : List M} (h : F.next xs = .frame ms rest) :
    F.drain xs = (ms ++ (F.drain rest).1, (F.drain rest).2) := by
  rw [drain]
  split
  · rename_i h'
    exact absurd (h.symm.trans h') (by simp)
  · rename_i h'
    exact absurd (h.symm.trans h') (by simp)
  · rename_i h'
    obtain ⟨rfl, rfl⟩ := Outcome.frame.inj (h.symm.trans h')
    rfl

/-- More data arrives after `s`. -/
def feed (s : List M × Option (List α)) (ys : List α) : List M × Option (List α) :=
  match s.2 with
  | none => s
  | some rest => (s.1 ++ (F.drain (rest ++ ys)).1, (F.drain (rest ++ ys)).2)

/-- The frames of some data are those of its first part, then those of what the first part leaves. -/
theorem drain_append (xs ys : List α) : F.drain (xs ++ ys) = F.feed (F.drain xs) ys := by
  induction hn : xs.length using Nat.strongRecOn generalizing xs with
  | ind n ih =>
    subst hn
    cases h : F.next xs with
    | more =>
      rw [F.drain_more h]
      rfl
    | fail ms =>
      rw [F.drain_fail h, F.drain_fail (F.fail_append ys h)]
      rfl
    | frame ms rest =>
      rw [F.drain_frame h, F.drain_frame (F.frame_append ys h), ih rest.length (F.shorter h) rest rfl]
      rcases F.drain rest with ⟨ms', _ | left⟩
      · rfl
      · show (ms ++ (ms' ++ _), _) = (ms ++ ms' ++ _, _)
        rw [List.append_assoc]
        rfl

/-- What is left is no longer than the data, and holds no further frame. -/
theorem drain_left {xs rest : List α} (h : (F.drain xs).2 = some rest) :
    rest.length ≤ xs.length ∧ F.next rest = .more := by
  induction hn : xs.length using Nat.strongRecOn generalizing xs with
  | ind n ih =>
    subst hn
    cases hnext : F.next xs with
    | more =>
      rw [F.drain_more hnext, Option.some.injEq] at h
      subst h
      exact ⟨Nat.le_refl _, hnext⟩
    | fail ms =>
      rw [F.drain_fail hnext] at h
      exact absurd h (by simp)
    | frame ms rest' =>
      rw [F.drain_frame hnext] at h
      have hlt := F.shorter hnext
      obtain ⟨hle, hmore⟩ := ih rest'.length hlt h rfl
      exact ⟨Nat.le_trans hle (Nat.le_of_lt hlt), hmore⟩

/-! ### What is left of a stream -/

/-- `d` is what is left of the stream when some of its frames have been taken off. -/
inductive Leaves : List α → List α → Prop
  | refl (xs : List α) : Leaves xs xs
  | frame {xs rest d : List α} {ms : List M} (h : F.next xs = .frame ms rest) (hrest : Leaves rest d) : Leaves xs d

variable {F}

theorem Leaves.trans {xs ys zs : List α} (h : F.Leaves xs ys) (h' : F.Leaves ys zs) : F.Leaves xs zs := by
  induction h with
  | refl => exact h'
  | frame hnext _ ih => exact .frame hnext (ih h')

theorem Leaves.append {xs d : List α} (h : F.Leaves xs d) (ys : List α) : F.Leaves (xs ++ ys) (d ++ ys) := by
  induction h with
  | refl => exact .refl _
  | frame hnext _ ih => exact .frame (F.frame_append ys hnext) ih

theorem leaves_of_drain {xs left : List α} (h : (F.drain xs).2 = some left) : F.Leaves xs left := by
  induction hn : xs.length using Nat.strongRecOn generalizing xs with
  | ind n ih =>
    subst hn
    cases hnext : F.next xs with
    | more =>
      rw [F.drain_more hnext] at h
      obtain rfl := Option.some.inj h
      exact .refl _
    | fail ms =>
      rw [F.drain_fail hnext] at h
      cases h
    | frame ms rest =>
      rw [F.drain_frame hnext] at h
      exact .frame hnext (ih rest.length (F.shorter hnext) h rfl)

/-- What is left of a longer stream has a frame of the first part, or is what is left after that part. -/
theorem Leaves.cases_append {xs left ys d : List α} (hleft : (F.drain xs).2 = some left)
    (h : F.Leaves (xs ++ ys) d) : F.Leaves (left ++ ys) d ∨ ∃ ms rest, F.next d = .frame ms rest := by
  induction hn : xs.length using Nat.strongRecOn generalizing xs with
  | ind n ih =>
    subst hn
    cases hnext : F.next xs with
    | more =>
      rw [F.drain_more hnext] at hleft
      obtain rfl := Option.some.inj hleft
      exact Or.inl h
    | fail ms =>
      rw [F.drain_fail hnext] at hleft
      cases hleft
    | frame ms rest =>
      rw [F.drain_frame hnext] at hleft
      have hlong := F.frame_append ys hnext
      cases h with
      | refl => exact Or.inr ⟨ms, _, hlong⟩
      | frame hnext' hrest =>
        obtain ⟨-, rfl⟩ := Outcome.frame.inj (hlong.symm.trans hnext')
        exact ih rest.length (F.shorter hnext) hleft hrest rfl

/-- Where there is no further frame, nothing else is left. -/
theorem Leaves.eq_of_not_frame {xs d : List α} (h : F.Leaves xs d) (hnext : ∀ ms rest, F.next xs ≠ .frame ms rest) :
    d = xs := by
  cases h with
  | refl => rfl
  | frame h' _ => exact absurd h' (hnext _ _)

end Framing

end LynxTrace
