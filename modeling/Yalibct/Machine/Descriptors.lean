import Mathlib.Data.List.Nodup
import Mathlib.Data.List.Perm.Subperm

/-! # Tables of open descriptors

An open descriptor has a number and refers to something. A new descriptor gets any number that is
not in use.
-/

namespace Yalibct.Machine

/-- The open descriptors. -/
abbrev Descriptors (α : Type) := List (ℕ × α)

/-- How the numbers of new descriptors are chosen, from the number of the request on. -/
structure Numbering where
  pick : ℕ → List ℕ → ℕ
  unused : ∀ {request used}, pick request used ∉ used

/-- The lowest number that is not in use, from three on. -/
def Numbering.lowest : Numbering where
  pick _ used := (((List.range (used.length + 1)).map (· + 3)).find? fun n => n ∉ used).getD 0
  unused := by
    intro _ used member
    cases found : ((List.range (used.length + 1)).map (· + 3)).find? fun n => n ∉ used with
    | some n =>
      rw [found] at member
      exact of_decide_eq_true (List.find?_some (p := fun n => decide (n ∉ used)) found) member
    | none =>
      have all : (List.range (used.length + 1)).map (· + 3) ⊆ used := fun n listed => by
        have none := List.find?_eq_none.mp found n listed
        simpa using none
      have distinct : ((List.range (used.length + 1)).map (· + 3)).Nodup :=
        List.nodup_range.map fun a b equal => Nat.add_right_cancel equal
      have bound := (distinct.subperm all).length_le
      rw [List.length_map, List.length_range] at bound
      omega

namespace Descriptors

variable {α : Type}

/-- The numbers in use. -/
def numbers (fds : Descriptors α) : List ℕ := fds.map Prod.fst

def find (fds : Descriptors α) (fd : ℕ) : Option α := fds.lookup fd

def insert (fds : Descriptors α) (fd : ℕ) (a : α) : Descriptors α := (fd, a) :: fds

def close (fds : Descriptors α) (fd : ℕ) : Descriptors α := fds.filter fun entry => entry.1 != fd

variable {fds : Descriptors α} {fd other : ℕ} {a : α}

@[simp] theorem find_insert_self : (fds.insert fd a).find fd = some a := by
  simp [find, insert]

theorem find_insert_of_ne (different : other ≠ fd) : (fds.insert fd a).find other = fds.find other := by
  have missed : (other == fd) = false := beq_eq_false_iff_ne.mpr different
  simp [find, insert, List.lookup_cons, missed]

theorem find_close_of_ne (different : other ≠ fd) : (fds.close fd).find other = fds.find other := by
  induction fds with
  | nil => rfl
  | cons entry rest ih =>
    obtain ⟨number, b⟩ := entry
    simp only [close, find, List.filter_cons] at ih ⊢
    split_ifs with kept
    · simp only [List.lookup_cons, ih]
    · have missed : (other == number) = false := by
        simp only [bne_iff_ne, ne_eq, Decidable.not_not] at kept
        exact beq_eq_false_iff_ne.mpr (kept ▸ different)
      rw [ih, List.lookup_cons, missed]

/-- What is not in use is not found. -/
theorem find_eq_none (unused : fd ∉ fds.numbers) : fds.find fd = none := by
  induction fds with
  | nil => rfl
  | cons entry rest ih =>
    obtain ⟨number, b⟩ := entry
    simp only [numbers, List.map_cons, List.mem_cons, not_or] at unused
    rw [find, List.lookup_cons, beq_eq_false_iff_ne.mpr unused.1]
    exact ih unused.2

theorem close_insert_comm (different : other ≠ fd) :
    (fds.insert other a).close fd = (fds.close fd).insert other a := by
  simp only [close, insert, List.filter_cons, bne_iff_ne.mpr different, ↓reduceIte]

/-- Opening a descriptor and closing it again changes nothing. -/
theorem close_insert (unused : fd ∉ fds.numbers) : (fds.insert fd a).close fd = fds := by
  have kept : ∀ entry ∈ fds, (entry.1 != fd) = true := fun entry member => by
    rw [bne_iff_ne]
    rintro rfl
    exact unused (List.mem_map_of_mem member)
  simp only [close, insert, List.filter_cons, bne_self_eq_false, Bool.false_eq_true, ↓reduceIte]
  exact List.filter_eq_self.mpr kept

end Descriptors

end Yalibct.Machine
