import Mathlib.Data.Stream.Init
import Yalibct.Machine.Cells

/-! # Computations that draw numbers

A computation draws from a stream of numbers and may stop at a fault. What always holds holds for every
stream: the computation ends without a fault, and its result has the property.
-/

namespace Yalibct.Machine

variable {α β σ : Type}

abbrev Drawing := StateT (Stream' ℕ) (Except Fault)

/-- `random ()` -/
def random : Drawing ℕ := fun draws => .ok (draws.head, draws.tail)

/-- `random () & mask` -/
def masked (mask : ℕ) : Drawing ℕ := do
  let n ← random
  return n &&& mask

/-- What ends without a fault has ended so in each of its parts. -/
theorem exists_of_run_bind {x : Drawing α} {f : α → Drawing β} {draws : Stream' ℕ} {r : β × Stream' ℕ}
    (run : (x >>= f).run draws = .ok r) : ∃ a rest, x.run draws = .ok (a, rest) ∧ (f a).run rest = .ok r := by
  rw [StateT.run_bind] at run
  obtain ⟨⟨a, rest⟩, first, last⟩ := bind_eq_ok.mp run
  exact ⟨a, rest, first, last⟩

def Always (post : α → Prop) (x : Drawing α) : Prop :=
  ∀ draws, ∃ a rest, x.run draws = .ok (a, rest) ∧ post a

namespace Always

variable {post post' : α → Prop} {final : β → Prop} {x y : Drawing α} {f : α → Drawing β} {a : α}

theorem pure (holds : post a) : Always post (Pure.pure a) := fun draws => ⟨a, draws, rfl, holds⟩

theorem lift {x : Except Fault α} (result : x = .ok a) (holds : post a) : Always post (monadLift x) := by
  intro draws
  refine ⟨a, draws, ?_, holds⟩
  rw [result]
  rfl

theorem bind (first : Always post x) (rest : ∀ a, post a → Always final (f a)) : Always final (x >>= f) := by
  intro draws
  obtain ⟨a, left, run, holds⟩ := first draws
  obtain ⟨b, last, run', holds'⟩ := rest a holds left
  exact ⟨b, last, by rw [StateT.run_bind, bind_of_ok run]; exact run', holds'⟩

theorem map (first : Always post x) (f : α → β) (results : ∀ a, post a → final (f a)) : Always final (f <$> x) := by
  rw [← bind_pure_comp]
  exact first.bind fun a holds => pure (results a holds)

theorem mono (always : Always post x) (results : ∀ a, post a → post' a) : Always post' x := by
  intro draws
  obtain ⟨a, rest, run, holds⟩ := always draws
  exact ⟨a, rest, run, results a holds⟩

theorem ite {c : Prop} [Decidable c] (yes : c → Always post x) (no : ¬ c → Always post y) :
    Always post (if c then x else y) := by
  split_ifs with holds
  · exact yes holds
  · exact no holds

theorem random : Always (fun _ => True) random := fun draws => ⟨draws.head, draws.tail, rfl, trivial⟩

theorem masked (mask : ℕ) : Always (· ≤ mask) (masked mask) :=
  random.bind fun _ _ => pure Nat.and_le_right

theorem load {cells : List α} {i : ℕ} (inside : i < cells.length) :
    Always (fun a => cells[i]? = some a) (monadLift (load cells i)) :=
  lift (load_of_lt inside) (List.getElem?_eq_getElem inside)

theorem put {cells : List α} {i : ℕ} (inside : i < cells.length) (a : α) :
    Always (fun stored => stored = cells.set i a) (monadLift (put cells i a)) :=
  lift (put_of_lt inside) rfl

/-- What each round keeps holds after the loop. -/
theorem forCount {round : ℕ → σ → Drawing σ} {s : σ} (inv : ℕ → σ → Prop) (start : inv 0 s) :
    ∀ count, (∀ i < count, ∀ t, inv i t → Always (inv (i + 1)) (round i t)) →
      Always (inv count) (forCount count round s) := by
  intro count
  induction count with
  | zero => exact fun _ => pure start
  | succ count ih =>
    intro keeps
    rw [forCount_succ]
    exact (ih fun i less => keeps i (Nat.lt_succ_of_lt less)).bind fun t held =>
      keeps count (Nat.lt_succ_self count) t held

/-- A loop whose rounds each store to their cell leaves in every cell what its round stored. -/
theorem fill {round : ℕ → List α → Drawing (List α)} {ok : ℕ → α → Prop} {cells : List α} {count : ℕ}
    (room : count ≤ cells.length)
    (rounds : ∀ i p, i < p.length → Always (fun q => ∃ a, ok i a ∧ q = p.set i a) (round i p)) :
    Always (fun p => p.length = cells.length ∧ ∀ i < count, ∃ a, p[i]? = some a ∧ ok i a)
      (Machine.forCount count round cells) := by
  refine forCount (fun n (p : List α) => p.length = cells.length ∧ ∀ i < n, ∃ a, p[i]? = some a ∧ ok i a)
    ⟨rfl, fun _ less => absurd less (Nat.not_lt_zero _)⟩ count ?_
  rintro n less p ⟨length, stored⟩
  have inside : n < p.length := by omega
  refine (rounds n p inside).mono ?_
  rintro _ ⟨a, good, rfl⟩
  refine ⟨List.length_set.trans length, ?_⟩
  intro i before
  rcases Nat.lt_succ_iff_lt_or_eq.mp before with earlier | rfl
  · rw [List.getElem?_set_ne (Nat.ne_of_gt earlier)]
    exact stored i earlier
  · exact ⟨a, List.getElem?_set_self inside, good⟩

end Always

end Yalibct.Machine
