import Mathlib.Data.List.Induction

/-!
# Base.Since — what has held since something happened

A history is a list of events, oldest first; a property of an event may speak of the history before it.  `Since P Q h`
says that at some event of `h` the property `P` held, and that `Q` has held of every event since.
-/

namespace LynxTrace

variable {E : Type*}

def Since (P Q : List E → E → Prop) (h : List E) : Prop :=
  ∃ before e after, h = before ++ e :: after ∧ P before e ∧
    ∀ mid e' rest, after = mid ++ e' :: rest → Q (before ++ e :: mid) e'

variable {P Q : List E → E → Prop} {h : List E} {e : E}

@[simp] theorem not_since_nil : ¬ Since P Q [] := by
  rintro ⟨before, e, after, heq, -⟩
  cases before <;> cases heq

/-- One more event: it is the one, or `Q` holds of it too. -/
theorem since_concat : Since P Q (h ++ [e]) ↔ P h e ∨ (Since P Q h ∧ Q h e) := by
  constructor
  · rintro ⟨before, d, after, heq, hd, hafter⟩
    rcases List.eq_nil_or_concat after with rfl | ⟨after, e', rfl⟩
    · obtain ⟨rfl, he⟩ := List.append_inj' heq rfl
      obtain rfl := List.singleton_inj.mp he
      exact Or.inl hd
    · rw [List.concat_eq_append] at heq hafter
      rw [← List.cons_append, ← List.append_assoc] at heq
      obtain ⟨rfl, he⟩ := List.append_inj' heq rfl
      obtain rfl := List.singleton_inj.mp he
      refine Or.inr ⟨⟨before, d, after, rfl, hd, fun mid e' rest hmid => hafter mid e' (rest ++ [e]) ?_⟩,
        hafter after e [] rfl⟩
      rw [hmid, List.append_assoc, List.cons_append]
  · rintro (he | ⟨⟨before, d, after, rfl, hd, hafter⟩, he⟩)
    · refine ⟨h, e, [], rfl, he, fun mid e' rest hmid => ?_⟩
      cases mid <;> cases hmid
    · refine ⟨before, d, after ++ [e], by rw [List.append_assoc, List.cons_append], hd, fun mid e' rest hmid => ?_⟩
      rcases List.eq_nil_or_concat rest with rfl | ⟨rest, e'', rfl⟩
      · obtain ⟨rfl, he'⟩ := List.append_inj' hmid rfl
        obtain rfl := List.singleton_inj.mp he'
        exact he
      · rw [List.concat_eq_append, ← List.cons_append, ← List.append_assoc] at hmid
        exact hafter mid e' rest (List.append_inj' hmid rfl).1

end LynxTrace
