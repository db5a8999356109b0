import Mathlib.Data.Nat.Notation

/-! # Iterations that end

A partial function from states to an event and the next state is applied until it has no value.
Two such iterations that step together, with a measure that decreases, end together, and have the
same events.
-/

namespace Yalibct.Machine

/-- From a state, the iteration has these events and ends in that state. -/
inductive Exhausts {State Event : Type} (next : State → Option (Event × State)) :
    State → List Event → State → Prop
  | done {s : State} (last : next s = none) : Exhausts next s [] s
  | more {s mid t : State} {e : Event} {es : List Event} (first : next s = some (e, mid))
      (rest : Exhausts next mid es t) : Exhausts next s (e :: es) t

namespace Exhausts

variable {State State' Event : Type} {next : State → Option (Event × State)}
variable {next' : State' → Option (Event × State')} {s t : State} {es : List Event}

/-- There are no more events in the last state. -/
theorem last (exhausts : Exhausts next s es t) : next t = none := by
  induction exhausts with
  | done last => exact last
  | more _ _ ih => exact ih

/-- What every step keeps holds in the last state. -/
theorem invariant (inv : State → Prop) (keeps : ∀ {s e t}, inv s → next s = some (e, t) → inv t)
    (exhausts : Exhausts next s es t) (initial : inv s) : inv t := by
  induction exhausts with
  | done _ => exact initial
  | more first _ ih => exact ih (keeps initial first)

/-- Iterations that step together end together. -/
theorem lockstep (related : State → State' → Prop) (size : State' → ℕ)
    (together : ∀ s s', related s s' → (next s = none ∧ next' s' = none) ∨
      ∃ e t t', next s = some (e, t) ∧ next' s' = some (e, t') ∧ related t t' ∧ size t' < size s')
    {s' : State'} (initial : related s s') :
    ∃ es t t', Exhausts next s es t ∧ Exhausts next' s' es t' ∧ related t t' := by
  induction measured : size s' using Nat.strongRecOn generalizing s s' with
  | ind n ih =>
    rcases together s s' initial with ⟨last, last'⟩ | ⟨e, mid, mid', first, first', kept, smaller⟩
    · exact ⟨[], s, s', .done last, .done last', initial⟩
    · obtain ⟨es, t, t', rest, rest', related'⟩ := ih _ (measured ▸ smaller) kept rfl
      exact ⟨e :: es, t, t', .more first rest, .more first' rest', related'⟩

end Exhausts

end Yalibct.Machine
