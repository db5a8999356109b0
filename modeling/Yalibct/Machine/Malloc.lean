import Yalibct.Machine.Bytes

/-! # Allocators that hand out whole blocks

An allocator answers each request, numbered from zero, with a fresh block of the size asked for
or with nothing. What a fresh block holds is arbitrary. No block is larger than `PTRDIFF_MAX`.
-/

namespace Yalibct.Machine

structure Malloc where
  grant : ℕ → ℕ → Option (List UInt8)
  length_of_grant : ∀ {call size block}, grant call size = some block → block.length = size
  bounded : ∀ {call size block}, grant call size = some block → size ≤ ptrdiffMax

/-- How many requests were made, and whether one of them was refused. -/
structure Requests where
  calls : ℕ
  refused : Bool
deriving DecidableEq

def Requests.none : Requests := ⟨0, false⟩

namespace Malloc

/-- An allocator that grants every possible object, filled with zeros. -/
def generous : Malloc where
  grant _ size := if size ≤ ptrdiffMax then some (List.replicate size 0) else none
  length_of_grant {call size block} granted := by
    split_ifs at granted
    rw [← Option.some.inj granted, List.length_replicate]
  bounded {call size block} granted := by
    split_ifs at granted with bound
    exact bound

variable (m : Malloc)

/-- `malloc (size)` -/
def malloc (r : Requests) (size : ℕ) : Option (List UInt8) × Requests :=
  match m.grant r.calls size with
  | some block => (some block, ⟨r.calls + 1, r.refused⟩)
  | .none => (.none, ⟨r.calls + 1, true⟩)

/-- `realloc (block, size)`: the new block starts with the cells of the old one. -/
def realloc (r : Requests) (old : List UInt8) (size : ℕ) : Option (List UInt8) × Requests :=
  match m.malloc r size with
  | (some block, r) => (some (overwrite block 0 (old.take size)), r)
  | (.none, r) => (.none, r)

variable {m}

/-- Either the request is granted, with a block of the right size, or the refusal is recorded. -/
theorem malloc_cases (r : Requests) (size : ℕ) :
    (∃ block, m.malloc r size = (some block, ⟨r.calls + 1, r.refused⟩) ∧
      block.length = size ∧ size ≤ ptrdiffMax) ∨
    m.malloc r size = (.none, ⟨r.calls + 1, true⟩) := by
  unfold malloc
  split
  · next block granted => exact .inl ⟨block, rfl, m.length_of_grant granted, m.bounded granted⟩
  · exact .inr rfl

theorem realloc_cases (r : Requests) (old : List UInt8) (size : ℕ) :
    (∃ block, m.realloc r old size = (some block, ⟨r.calls + 1, r.refused⟩) ∧
      block.length = size ∧ size ≤ ptrdiffMax ∧
      ∀ count ≤ old.length, count ≤ size → block.take count = old.take count) ∨
    m.realloc r old size = (.none, ⟨r.calls + 1, true⟩) := by
  rcases malloc_cases (m := m) r size with ⟨block, granted, length, bound⟩ | refused
  · refine .inl ⟨overwrite block 0 (old.take size), by simp only [realloc, granted], ?_, bound, ?_⟩
    · rw [length_overwrite, length]
      rw [length, List.length_take]
      omega
    · intro count old_bound size_bound
      have counted : count ≤ (old.take size).length := by rw [List.length_take]; omega
      have stored := take_overwrite block (Nat.zero_le _) count counted
      rw [Nat.zero_add] at stored
      rw [stored, List.take_zero, List.nil_append, List.take_take, Nat.min_eq_left size_bound]
  · exact .inr (by simp only [realloc, refused])

end Malloc

end Yalibct.Machine
