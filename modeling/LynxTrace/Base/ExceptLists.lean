import Mathlib.Data.List.Forall2

/-!
# Base.ExceptLists — computations that may fail, along a list
-/

namespace LynxTrace

variable {ε α β : Type*} {f : α → Except ε β}

theorem except_bind_ok {x : Except ε α} {b : β} : x.bind f = .ok b ↔ ∃ a, x = .ok a ∧ f a = .ok b := by
  cases x with
  | error e => exact ⟨nofun, fun ⟨_, h, _⟩ => nomatch h⟩
  | ok a => exact ⟨fun h => ⟨a, rfl, h⟩, fun ⟨_, h1, h2⟩ => by cases h1; exact h2⟩

theorem except_map_ok {x : Except ε α} {f : α → β} {b : β} : x.map f = .ok b ↔ ∃ a, x = .ok a ∧ f a = b := by
  cases x with
  | error e => exact ⟨nofun, fun ⟨_, h, _⟩ => nomatch h⟩
  | ok a => exact ⟨fun h => ⟨a, rfl, Except.ok.inj h⟩, fun ⟨_, h1, h2⟩ => by cases h1; rw [← h2]; rfl⟩

/-- `f` at each element, up to the first failure. -/
def mapExcept (f : α → Except ε β) : List α → Except ε (List β)
  | [] => .ok []
  | a :: as => (f a).bind fun b => (mapExcept f as).bind fun bs => .ok (b :: bs)

variable {as : List α} {bs : List β}

theorem mapExcept_ok : mapExcept f as = .ok bs ↔ List.Forall₂ (fun a b => f a = .ok b) as bs := by
  induction as generalizing bs with
  | nil =>
    constructor
    · intro h
      cases h
      exact .nil
    · rintro ⟨⟩
      rfl
  | cons a as ih =>
    rw [mapExcept, except_bind_ok]
    constructor
    · rintro ⟨b, h1, h2⟩
      obtain ⟨bs', h3, h4⟩ := except_bind_ok.mp h2
      cases h4
      exact .cons h1 (ih.mp h3)
    · rintro (_ | ⟨h1, h2⟩)
      exact ⟨_, h1, except_bind_ok.mpr ⟨_, ih.mpr h2, rfl⟩⟩

theorem exists_left_of_forall₂ {R : α → β → Prop} (h : List.Forall₂ R as bs) {b : β} (hb : b ∈ bs) :
    ∃ a ∈ as, R a b := by
  induction h with
  | nil => cases hb
  | cons h1 _ ih =>
    rcases List.mem_cons.mp hb with rfl | hb
    · exact ⟨_, List.mem_cons_self, h1⟩
    · obtain ⟨a, h3, h4⟩ := ih hb
      exact ⟨a, List.mem_cons_of_mem _ h3, h4⟩

theorem exists_right_of_forall₂ {R : α → β → Prop} (h : List.Forall₂ R as bs) {a : α} (ha : a ∈ as) : ∃ b ∈ bs, R a b :=
  exists_left_of_forall₂ h.flip ha

/-- Every result is that of an element. -/
theorem exists_of_mapExcept (h : mapExcept f as = .ok bs) {b : β} (hb : b ∈ bs) : ∃ a ∈ as, f a = .ok b :=
  exists_left_of_forall₂ (mapExcept_ok.mp h) hb

/-- Every element has a result. -/
theorem mem_of_mapExcept (h : mapExcept f as = .ok bs) {a : α} (ha : a ∈ as) : ∃ b ∈ bs, f a = .ok b :=
  exists_right_of_forall₂ (mapExcept_ok.mp h) ha

theorem exists_mapExcept (h : ∀ a ∈ as, ∃ b, f a = .ok b) : ∃ bs, mapExcept f as = .ok bs := by
  induction as with
  | nil => exact ⟨[], rfl⟩
  | cons a as ih =>
    obtain ⟨b, hb⟩ := h a List.mem_cons_self
    obtain ⟨bs, hbs⟩ := ih fun a' ha' => h a' (List.mem_cons_of_mem _ ha')
    exact ⟨b :: bs, except_bind_ok.mpr ⟨b, hb, except_bind_ok.mpr ⟨bs, hbs, rfl⟩⟩⟩

end LynxTrace
