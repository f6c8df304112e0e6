import Mathlib

/-!
# Steps that can panic

A function that can `panic` returns `Except`. An `ok` result goes on to the
next function (`ok_bind`); a chain returned `ok` when each of its parts did
(`bind_eq_ok`), and a step that wraps its result in `some` returned `ok` only
if the function did (`map_some_eq_ok`).

`Spec E P x` is a postcondition: `x` stops with an error `E` allows, or
returns a value `P` holds of. It goes through a chain one part at a time
(`Spec.bind`).
-/

namespace Xv6.Exc

variable {α β ε : Type}

theorem ok_bind (a : α) (f : α → Except ε β) : (Except.ok a >>= f) = f a := rfl

theorem bind_eq_ok {x : Except ε α} {f : α → Except ε β} {b : β} :
    (x >>= f) = .ok b ↔ ∃ a, x = .ok a ∧ f a = .ok b := by
  cases x with
  | error e =>
    constructor
    · intro h; cases h
    · rintro ⟨_, h, _⟩; cases h
  | ok a =>
    constructor
    · intro h; exact ⟨a, rfl, h⟩
    · rintro ⟨_, h, hf⟩; cases h; exact hf

theorem map_some_eq_ok {x : Except ε α} {a : α} (h : x.map some = .ok (some a)) : x = .ok a := by
  cases x with
  | error e => cases h
  | ok b => cases h; rfl

/-- `x` stops with an error `E` allows, or returns a value `P` holds of. -/
def Spec (E : ε → Prop) (P : α → Prop) : Except ε α → Prop
  | .error e => E e
  | .ok a => P a

section Spec

variable {E : ε → Prop} {P Q : α → Prop}

theorem Spec.imp {x : Except ε α} (h : Spec E P x) (hpq : ∀ a, P a → Q a) : Spec E Q x := by
  cases x with
  | error e => exact h
  | ok a => exact hpq a h

theorem Spec.bind {R : β → Prop} {x : Except ε α} {f : α → Except ε β} (hx : Spec E P x)
    (hf : ∀ a, P a → Spec E R (f a)) : Spec E R (x >>= f) := by
  cases x with
  | error e => exact hx
  | ok a => exact hf a hx

theorem Spec.of_eq_ok {x : Except ε α} {a : α} (h : Spec E P x) (hx : x = .ok a) : P a := by
  subst hx
  exact h

theorem Spec.ne_error {x : Except ε α} {e : ε} (h : Spec E P x) (he : ¬ E e) : x ≠ .error e := by
  rintro rfl
  exact he h

end Spec

end Xv6.Exc
