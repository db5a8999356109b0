import Mathlib.Logic.Basic

/-! # Procedures whose state outlives their failure

A procedure changes a state, and ends with a result or with an error. What holds when it ends is
composed from what holds of its parts.
-/

namespace Yalibct.Machine

variable {ε σ α β : Type}

/-- From this state, the result and the last state have a property, or the error and the last state
another one. -/
def Ends (fails : ε → σ → Prop) (post : α → σ → Prop) (x : EStateM ε σ α) (s : σ) : Prop :=
  match x.run s with
  | .ok a t => post a t
  | .error e t => fails e t

namespace Ends

variable {fails : ε → σ → Prop} {post post' : α → σ → Prop} {final : β → σ → Prop}
variable {x : EStateM ε σ α} {f : α → EStateM ε σ β} {s : σ}

theorem bind (first : Ends fails post x s) (rest : ∀ a t, post a t → Ends fails final (f a) t) :
    Ends fails final (x >>= f) s := by
  change match EStateM.bind x f s with | .ok a t => final a t | .error e t => fails e t
  unfold Ends at first
  unfold EStateM.bind
  change match x s with | .ok a t => post a t | .error e t => fails e t at first
  cases result : x s with
  | ok a t =>
    rw [result] at first
    exact rest a t first
  | error e t =>
    rw [result] at first
    exact first

theorem mono (ends : Ends fails post x s) (results : ∀ a t, post a t → post' a t) : Ends fails post' x s := by
  unfold Ends at ends ⊢
  cases result : x.run s with
  | ok a t =>
    rw [result] at ends
    exact results a t ends
  | error e t =>
    rw [result] at ends
    exact ends

theorem and {fails' : ε → σ → Prop} (first : Ends fails post x s) (second : Ends fails' post' x s) :
    Ends fails (fun a t => post a t ∧ post' a t) x s := by
  unfold Ends at first second ⊢
  cases result : x.run s with
  | ok a t =>
    rw [result] at first second
    exact ⟨first, second⟩
  | error e t =>
    rw [result] at first
    exact first

theorem of_ok {a : α} {t : σ} (ends : Ends fails post x s) (ran : x.run s = .ok a t) : post a t := by
  unfold Ends at ends
  rw [ran] at ends
  exact ends

theorem of_error {e : ε} {t : σ} (ends : Ends fails post x s) (ran : x.run s = .error e t) : fails e t := by
  unfold Ends at ends
  rw [ran] at ends
  exact ends

theorem get_bind {f : σ → EStateM ε σ β} (rest : Ends fails final (f s) s) :
    Ends fails final (MonadState.get >>= f) s := rest

theorem set_bind {t : σ} {f : PUnit → EStateM ε σ β} (rest : Ends fails final (f ⟨⟩) t) :
    Ends fails final (MonadStateOf.set t >>= f) s := rest

theorem modify_bind {g : σ → σ} {f : PUnit → EStateM ε σ β} (rest : Ends fails final (f ⟨⟩) (g s)) :
    Ends fails final (modify g >>= f) s := rest

end Ends

/-- The errors of a procedure are these, and its results have a property; a part of the state stays as it
is. -/
def Preserves {γ : Type} (fails : ε → Prop) (view : σ → γ) (post : α → Prop) (x : EStateM ε σ α) : Prop :=
  ∀ s, Ends (fun e _ => fails e) (fun a t => post a ∧ view t = view s) x s

namespace Preserves

variable {γ : Type} {fails : ε → Prop} {view : σ → γ} {post : α → Prop} {final : β → Prop} {x : EStateM ε σ α}
variable {f : α → EStateM ε σ β}

theorem pure {a : α} (holds : post a) : Preserves fails view post (pure a) := fun _ => ⟨holds, rfl⟩

theorem bind (first : Preserves fails view post x) (rest : ∀ a, post a → Preserves fails view final (f a)) :
    Preserves fails view final (x >>= f) := fun s =>
  (first s).bind fun a t ⟨holds, same⟩ => (rest a holds t).mono fun _ _ ⟨holds', same'⟩ => ⟨holds', same'.trans same⟩

theorem mono {post' : α → Prop} (preserves : Preserves fails view post x) (results : ∀ a, post a → post' a) :
    Preserves fails view post' x := fun s =>
  (preserves s).mono fun a _ ⟨holds, same⟩ => ⟨results a holds, same⟩

theorem get : Preserves fails view (fun _ => True) (MonadState.get : EStateM ε σ σ) := fun _ => ⟨trivial, rfl⟩

theorem modify {g : σ → σ} (same : ∀ s, view (g s) = view s) :
    Preserves fails view (fun _ => True) (modify g : EStateM ε σ PUnit) := fun s => ⟨trivial, same s⟩

theorem throw {e : ε} (excused : fails e) : Preserves fails view post (throw e : EStateM ε σ α) := fun _ => excused

end Preserves

end Yalibct.Machine
