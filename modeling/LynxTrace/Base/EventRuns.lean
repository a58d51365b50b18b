import Mathlib.Data.List.Induction

/-!
# Base.EventRuns — machines whose steps leave events

A run is a sequence of steps that each meet a condition; its trace is what the steps have left, oldest first.
-/

namespace LynxTrace

variable {S L E : Type*}

/-- A step is refused, or leaves a state and events. -/
structure EventMachine (S L E : Type*) where
  init : S
  step : S → L → Option (S × List E)

namespace EventMachine

variable {M : EventMachine S L E} {ok ok' : List E → S → L → Prop}

/-- The traces and states that steps which meet `ok` lead to. -/
inductive Run (M : EventMachine S L E) (ok : List E → S → L → Prop) : List E → S → Prop
  | init : Run M ok [] M.init
  | step {trace s l s' events} : Run M ok trace s → ok trace s l → M.step s l = some (s', events) →
      Run M ok (trace ++ events) s'

/-- What holds at the start and is kept by every step holds in every run. -/
theorem Run.invariant {I : List E → S → Prop} (hinit : I [] M.init)
    (hstep : ∀ {trace s l s' events}, I trace s → ok trace s l → M.step s l = some (s', events) →
      I (trace ++ events) s') {trace : List E} {s : S} (h : M.Run ok trace s) : I trace s := by
  induction h with
  | init => exact hinit
  | step _ hok hs ih => exact hstep ih hok hs

theorem Run.mono (himp : ∀ trace s l, ok trace s l → ok' trace s l) {trace : List E} {s : S}
    (h : M.Run ok trace s) : M.Run ok' trace s := by
  induction h with
  | init => exact Run.init
  | step _ hok hs ih => exact ih.step (himp _ _ _ hok) hs

/-- The steps of a list, one after the other; `none` if one is refused. -/
def steps (M : EventMachine S L E) (trace : List E) (s : S) : List L → Option (List E × S)
  | [] => some (trace, s)
  | l :: ls =>
    match M.step s l with
    | none => none
    | some (s', events) => M.steps (trace ++ events) s' ls

theorem Run.steps {trace : List E} {s : S} (h : M.Run ok trace s) (hok : ∀ trace s l, ok trace s l) {ls : List L}
    {r : List E × S} (hls : M.steps trace s ls = some r) : M.Run ok r.1 r.2 := by
  induction ls generalizing trace s with
  | nil =>
    obtain rfl := Option.some.inj hls
    exact h
  | cons l ls ih =>
    rw [EventMachine.steps] at hls
    split at hls
    · cases hls
    · rename_i s' events h1
      exact ih (h.step (hok _ _ _) h1) hls

end EventMachine

/-! ### Properties of the events of a trace -/

/-- `P` holds of what has happened before an event and the event, for each of the trace. -/
def AtEach (P : List E → E → Prop) (trace : List E) : Prop :=
  ∀ before e after, trace = before ++ e :: after → P before e

variable {P : List E → E → Prop}

theorem AtEach.nil : AtEach P [] := by
  intro before e after h
  cases before <;> cases h

theorem AtEach.concat {trace : List E} {e : E} (h : AtEach P trace) (he : P trace e) : AtEach P (trace ++ [e]) := by
  intro before e' after heq
  rcases List.eq_nil_or_concat after with rfl | ⟨after, a, rfl⟩
  · obtain ⟨rfl, h1⟩ := List.append_inj' heq rfl
    obtain rfl := List.singleton_inj.mp h1
    exact he
  · rw [List.concat_eq_append, ← List.cons_append, ← List.append_assoc] at heq
    exact h _ _ _ (List.append_inj' heq rfl).1

/-- Events of which `P` holds whatever has happened before. -/
theorem AtEach.append {trace events : List E} (h : AtEach P trace) (hev : ∀ e ∈ events, ∀ before, P before e) :
    AtEach P (trace ++ events) := by
  induction events using List.reverseRecOn with
  | nil => rwa [List.append_nil]
  | append_singleton events e ih =>
    rw [← List.append_assoc]
    exact (ih fun e' he' => hev e' (List.mem_append_left _ he')).concat
      (hev e (List.mem_append_right _ List.mem_cons_self) _)

end LynxTrace
