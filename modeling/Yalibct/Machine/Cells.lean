import Yalibct.Machine.Fallible
import Yalibct.Machine.Heap

/-! # Arrays with checked accesses

An array is the list of its cells. An access outside of it is a fault. A loop that counts keeps its
invariant if each of its rounds does.
-/

namespace Yalibct.Machine

variable {α σ ε : Type}

def load (cells : List α) (i : ℕ) : Except Fault α :=
  match cells[i]? with
  | some a => .ok a
  | none => .error .outOfBounds

def put (cells : List α) (i : ℕ) (a : α) : Except Fault (List α) :=
  if i < cells.length then .ok (cells.set i a) else .error .outOfBounds

/-- Load as many cells as are counted. -/
def loadRun (cells : List α) (offset count : ℕ) : Except Fault (List α) :=
  if offset + count ≤ cells.length then .ok ((cells.drop offset).take count) else .error .outOfBounds

/-- Store a run of values. -/
def putRun (cells : List α) (offset : ℕ) (run : List α) : Except Fault (List α) :=
  if offset + run.length ≤ cells.length then .ok (overwrite cells offset run) else .error .outOfBounds

/-- `for (i = 0; i < count; ++i)` -/
def forCount {m : Type → Type} [Monad m] (count : ℕ) (round : ℕ → σ → m σ) (s : σ) : m σ :=
  (List.range count).foldlM (fun s i => round i s) s

variable {cells : List α} {i offset count : ℕ} {a : α} {run : List α}

theorem load_of_getElem? (held : cells[i]? = some a) : load cells i = .ok a := by rw [load, held]

theorem load_of_lt (inside : i < cells.length) : load cells i = .ok cells[i] :=
  load_of_getElem? (List.getElem?_eq_getElem inside)

theorem put_of_lt (inside : i < cells.length) : put cells i a = .ok (cells.set i a) := if_pos inside

theorem lt_of_put {cells' : List α} (done : put cells i a = .ok cells') :
    i < cells.length ∧ cells'.length = cells.length := by
  unfold put at done
  split_ifs at done with inside
  cases done
  exact ⟨inside, List.length_set⟩

theorem loadRun_of_le (room : offset + count ≤ cells.length) :
    loadRun cells offset count = .ok ((cells.drop offset).take count) := if_pos room

theorem putRun_of_le (room : offset + run.length ≤ cells.length) :
    putRun cells offset run = .ok (overwrite cells offset run) := if_pos room

/-- A run is stored over one of the same length. -/
theorem putRun_middle {before middle after : List α} (start : offset = before.length)
    (same : run.length = middle.length) :
    putRun (before ++ middle ++ after) offset run = .ok (before ++ run ++ after) := by
  have room : offset + run.length ≤ (before ++ middle ++ after).length := by
    rw [List.length_append, List.length_append, start, same]
    exact Nat.le_add_right ..
  rw [putRun_of_le room, overwrite_middle start same]

/-- An accessed cell of a stored run. -/
theorem getElem?_overwrite (inside : offset ≤ cells.length) (i : ℕ) :
    (overwrite cells offset run)[i]? =
      if i < offset then cells[i]? else if i < offset + run.length then run[i - offset]? else cells[i]? := by
  have length : (cells.take offset).length = offset := List.length_take_of_le inside
  unfold overwrite
  split_ifs with before within
  · rw [List.append_assoc, List.getElem?_append_left (by omega), List.getElem?_take_of_lt before]
  · rw [List.append_assoc, List.getElem?_append_right (by omega), length,
      List.getElem?_append_left (by omega)]
  · rw [List.getElem?_append_right (by rw [List.length_append]; omega), List.length_append, length,
      List.getElem?_drop]
    congr 1
    omega

theorem forCount_succ {m : Type → Type} [Monad m] [LawfulMonad m] (count : ℕ) (round : ℕ → σ → m σ) (s : σ) :
    forCount (count + 1) round s = forCount count round s >>= round count := by
  unfold forCount
  rw [List.range_succ, List.foldlM_append]
  congr 1
  funext t
  exact bind_pure (round count t)

/-- What each round keeps holds after the loop. -/
theorem forCount_ok {round : ℕ → σ → Except ε σ} {s : σ} (inv : ℕ → σ → Prop) (start : inv 0 s) :
    ∀ count, (∀ i < count, ∀ t, inv i t → ∃ t', round i t = .ok t' ∧ inv (i + 1) t') →
      ∃ t, forCount count round s = .ok t ∧ inv count t := by
  intro count
  induction count with
  | zero => exact fun _ => ⟨s, rfl, start⟩
  | succ count ih =>
    intro keeps
    obtain ⟨t, before, held⟩ := ih fun i less => keeps i (Nat.lt_succ_of_lt less)
    obtain ⟨t', last, holds⟩ := keeps count (Nat.lt_succ_self count) t held
    exact ⟨t', by rw [forCount_succ, before]; exact last, holds⟩

/-- A loop that ended has made each of its rounds. -/
theorem round_of_forCount {round : ℕ → σ → Except ε σ} {s t : σ} (inv : σ → Prop) (start : inv s)
    (keeps : ∀ i t t', inv t → round i t = .ok t' → inv t') :
    ∀ count, forCount count round s = .ok t →
      inv t ∧ ∀ i < count, ∃ t₁ t₂, inv t₁ ∧ round i t₁ = .ok t₂ := by
  intro count
  induction count generalizing t with
  | zero =>
    intro done
    cases done
    exact ⟨start, fun i less => absurd less (Nat.not_lt_zero i)⟩
  | succ count ih =>
    intro done
    rw [forCount_succ] at done
    obtain ⟨mid, before, last⟩ := bind_eq_ok.mp done
    obtain ⟨held, rounds⟩ := ih before
    refine ⟨keeps count mid t held last, ?_⟩
    intro i less
    rcases Nat.lt_succ_iff_lt_or_eq.mp less with earlier | rfl
    · exact rounds i earlier
    · exact ⟨mid, t, held, last⟩

end Yalibct.Machine
