import Mathlib.Logic.Basic

/-!
# Computations that return

`Returns x Q`: the computation `x` ends without an error, in a result with the property `Q`.
The rules follow the shape of a program, so that what each function needs and guarantees is
stated once and used by its callers.
-/

namespace Xv6.Lib

variable {ε : Type*} {α β : Type _}

/-- The computation returns a value with the property `Q`. -/
def Returns (x : Except ε α) (Q : α → Prop) : Prop := ∃ a, x = .ok a ∧ Q a

theorem Returns.ok {a : α} {Q : α → Prop} (h : Q a) : Returns (.ok a : Except ε α) Q := ⟨a, rfl, h⟩

theorem Returns.pure {a : α} {Q : α → Prop} (h : Q a) :
    Returns (Pure.pure a : Except ε α) Q := ⟨a, rfl, h⟩

/-- One computation after the other. -/
theorem Returns.bind {x : Except ε α} {f : α → Except ε β} {P : α → Prop} {Q : β → Prop}
    (h : Returns x P) (hf : ∀ a, P a → Returns (f a) Q) : Returns (x >>= f) Q := by
  obtain ⟨a, rfl, ha⟩ := h
  exact hf a ha

theorem Returns.mono {x : Except ε α} {P Q : α → Prop} (h : Returns x P) (hQ : ∀ a, P a → Q a) :
    Returns x Q := by
  obtain ⟨a, hx, ha⟩ := h
  exact ⟨a, hx, hQ a ha⟩

/-- What is known about the result of a computation that returns. -/
theorem Returns.elim {x : Except ε α} {Q : α → Prop} (h : Returns x Q) {a : α} (hx : x = .ok a) :
    Q a := by
  obtain ⟨b, hb, hQ⟩ := h
  cases hx.symm.trans hb
  exact hQ

/-- What comes after the first computation, when the whole returns. -/
theorem bind_ok {x : Except ε α} {f : α → Except ε β} {b : β} (h : x >>= f = .ok b) :
    ∃ a, x = .ok a ∧ f a = .ok b := by
  cases x with
  | error e => cases h
  | ok a => exact ⟨a, rfl, h⟩

/-- The computation returns a value with the property `Q`, or ends in an error with the property
`E`. -/
def Ends (E : ε → Prop) (x : Except ε α) (Q : α → Prop) : Prop :=
  match x with
  | .ok a => Q a
  | .error e => E e

/-- Nothing is claimed. -/
theorem Ends.trivial (x : Except ε α) : Ends (fun _ ↦ True) x (fun _ ↦ True) := by
  cases x with
  | ok a => exact True.intro
  | error e => exact True.intro

theorem Ends.bind {E : ε → Prop} {x : Except ε α} {f : α → Except ε β} {P : α → Prop} {Q : β → Prop}
    (h : Ends E x P) (hf : ∀ a, P a → Ends E (f a) Q) : Ends E (x >>= f) Q := by
  cases x with
  | ok a => exact hf a h
  | error e => exact h

/-- A weaker property of the error, and of the result. -/
theorem Ends.imp {E E' : ε → Prop} {x : Except ε α} {P Q : α → Prop} (h : Ends E x P)
    (hE : ∀ e, E e → E' e) (hQ : ∀ a, P a → Q a) : Ends E' x Q := by
  cases x with
  | ok a => exact hQ a h
  | error e => exact hE e h

theorem Ends.mono {E : ε → Prop} {x : Except ε α} {P Q : α → Prop} (h : Ends E x P)
    (hQ : ∀ a, P a → Q a) : Ends E x Q := by
  cases x with
  | ok a => exact hQ a h
  | error e => exact h

end Xv6.Lib
