import Mathlib.Logic.Basic

/-! Questions that may get no answer, compared two at a time. -/

namespace ReactiveQuery

variable {α β γ δ : Type} {lax : Prop} {R : α → β → Prop} {S : γ → δ → Prop}

/-- Two questions get related answers, or neither gets one.  Where `lax`, a question without an
answer compares with anything. -/
inductive Responses (lax : Prop) (R : α → β → Prop) : Option α → Option β → Prop where
  | some {a b} (value : R a b) : Responses lax R (some a) (some b)
  | none : Responses lax R none none
  | free {y} (free : lax) : Responses lax R none y

namespace Responses

theorem refl (x : Option α) : Responses lax Eq x x := by
  cases x with
  | none => exact .none
  | some a => exact .some rfl

theorem eq {x y : Option α} (h : Responses False Eq x y) : x = y := by
  cases h with
  | some value => rw [value]
  | none => rfl
  | free free => exact free.elim

/-- Leave to compare with anything is only needed where there is no answer. -/
theorem of_found {x : Option α} {y : Option β}
    (found : ∀ a, x = Option.some a → ∃ b, y = Option.some b ∧ R a b) : Responses True R x y := by
  cases x with
  | none => exact .free trivial
  | some a =>
    obtain ⟨b, rfl, value⟩ := found a rfl
    exact .some value

theorem found {x : Option α} {y : Option β} (h : Responses lax R x y) {a : α}
    (answer : x = Option.some a) : ∃ b, y = Option.some b ∧ R a b := by
  subst answer
  cases h with
  | some value => exact ⟨_, rfl, value⟩

theorem bind {x : Option α} {y : Option β} {f : α → Option γ} {g : β → Option δ}
    (first : Responses lax R x y) (rest : ∀ a b, R a b → Responses lax S (f a) (g b)) :
    Responses lax S (x >>= f) (y >>= g) := by
  cases first with
  | some value => exact rest _ _ value
  | none => exact .none
  | free free => exact .free free

theorem map {x : Option α} {y : Option β} {f : α → γ} {g : β → δ} (first : Responses lax R x y)
    (rest : ∀ a b, R a b → S (f a) (g b)) : Responses lax S (x.map f) (y.map g) := by
  cases first with
  | some value => exact .some (rest _ _ value)
  | none => exact .none
  | free free => exact .free free

/-- Answers that are related are related in any weaker way. -/
theorem mono {R' : α → β → Prop} {x : Option α} {y : Option β} (h : Responses lax R x y)
    (weaker : ∀ a b, R a b → R' a b) : Responses lax R' x y := by
  cases h with
  | some value => exact .some (weaker _ _ value)
  | none => exact .none
  | free free => exact .free free

/-- The same follow-up to the same answer. -/
theorem bind_same {x y : Option α} {f : α → Option γ} {g : α → Option δ}
    (first : Responses lax Eq x y) (rest : ∀ a, Responses lax S (f a) (g a)) :
    Responses lax S (x >>= f) (y >>= g) :=
  first.bind fun a _ same => same ▸ rest a

/-- The same follow-up to the same answer, which the first question gets. -/
theorem bind_found {x y : Option α} {f : α → Option γ} {g : α → Option δ}
    (first : Responses lax Eq x y)
    (rest : ∀ a, x = Option.some a → Responses lax S (f a) (g a)) :
    Responses lax S (x >>= f) (y >>= g) := by
  cases first with
  | some value => exact value ▸ rest _ rfl
  | none => exact .none
  | free free => exact .free free

theorem map_same {x y : Option α} (first : Responses lax Eq x y) (f : α → γ) :
    Responses lax Eq (x.map f) (y.map f) :=
  first.map fun _ _ same => congrArg f same

end Responses

end ReactiveQuery
