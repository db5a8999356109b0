import Mathlib.Logic.Basic

/-! # Computations that may fail

A computation that succeeds has succeeded in each of its parts. An `Outcome` says what holds of
the result, and which errors may end the computation instead.
-/

namespace Yalibct.Machine

variable {ε δ α β : Type}

theorem bind_eq_ok {x : Except ε α} {f : α → Except ε β} {b : β} :
    x >>= f = .ok b ↔ ∃ a, x = .ok a ∧ f a = .ok b := by
  cases x with
  | error e => simp [bind, Except.bind]
  | ok a => simp [bind, Except.bind]

/-- What follows a result goes on with it. -/
theorem bind_of_ok {x : Except ε α} {f : α → Except ε β} {a : α} (result : x = .ok a) : x >>= f = f a := by
  rw [result]
  rfl

theorem mapError_eq_ok {x : Except ε α} {f : ε → δ} {a : α} :
    x.mapError f = .ok a ↔ x = .ok a := by
  cases x with
  | error e =>
    have failed : (.error e : Except ε α).mapError f = .error (f e) := rfl
    simp [failed]
  | ok b =>
    have same : (.ok b : Except ε α).mapError f = .ok b := rfl
    simp [same]

/-- The result has the property, or the error is allowed. -/
def Outcome (allowed : ε → Prop) (post : α → Prop) : Except ε α → Prop
  | .ok a => post a
  | .error e => allowed e

namespace Outcome

variable {allowed allowed' : ε → Prop} {post post' : α → Prop} {x : Except ε α}

theorem of_ok {a : α} (result : x = .ok a) (holds : post a) : Outcome allowed post x := by
  rw [result]
  exact holds

theorem bind {f : α → Except ε β} {final : β → Prop} (first : Outcome allowed post x)
    (rest : ∀ a, post a → Outcome allowed final (f a)) : Outcome allowed final (x >>= f) := by
  cases x with
  | error e => exact first
  | ok a => exact rest a first

theorem mono (outcome : Outcome allowed post x) (errors : ∀ e, allowed e → allowed' e)
    (results : ∀ a, post a → post' a) : Outcome allowed' post' x := by
  cases x with
  | error e => exact errors e outcome
  | ok a => exact results a outcome

theorem post_of_ok {a : α} (outcome : Outcome allowed post x) (result : x = .ok a) : post a := by
  rw [result] at outcome
  exact outcome

end Outcome

end Yalibct.Machine
