import Mathlib.Algebra.Group.Nat.Defs
import Mathlib.Data.List.Basic
import Mathlib.Data.List.TakeDrop

/-! # Blocks of memory as lists

A block is the list of its cells. Storing a run of values at an offset replaces as many cells and
leaves the others alone; an object that ends where the run starts is extended by exactly the run.
-/

namespace Yalibct.Machine

/-- Values of `size_t`. -/
@[irreducible] def sizeT (n : ℕ) : ℕ := n % 2 ^ 64

theorem sizeT_eq (n : ℕ) : sizeT n = n % 2 ^ 64 := by rw [sizeT]

theorem sizeT_of_lt {n : ℕ} (bound : n < 2 ^ 64) : sizeT n = n := by
  rw [sizeT_eq, Nat.mod_eq_of_lt bound]

def intMax : ℕ := 2 ^ 31 - 1
def ptrdiffMax : ℕ := 2 ^ 63 - 1

variable {α : Type}

/-- Store a run of values in a block, from an offset on. -/
def overwrite (block : List α) (offset : ℕ) (run : List α) : List α :=
  block.take offset ++ run ++ block.drop (offset + run.length)

theorem length_overwrite {block : List α} {offset : ℕ} {run : List α}
    (room : offset + run.length ≤ block.length) :
    (overwrite block offset run).length = block.length := by
  simp only [overwrite, List.length_append, List.length_take, List.length_drop]
  omega

/-- A run as long as the block replaces it. -/
theorem overwrite_whole {block run : List α} (same : run.length = block.length) :
    overwrite block 0 run = run := by
  simp [overwrite, same]

/-- Cells before the offset keep their values. -/
theorem take_overwrite_of_le {block : List α} {offset count : ℕ} {run : List α}
    (before : count ≤ offset) (inside : offset ≤ block.length) :
    (overwrite block offset run).take count = block.take count := by
  have short : count ≤ (block.take offset).length := by rw [List.length_take]; omega
  rw [overwrite, List.append_assoc, List.take_append_of_le_length short, List.take_take,
    Nat.min_eq_left before]

/-- Cells behind the run keep their values. -/
theorem drop_overwrite {block : List α} {offset : ℕ} {run : List α} (inside : offset ≤ block.length) :
    (overwrite block offset run).drop (offset + run.length) = block.drop (offset + run.length) := by
  apply List.drop_left'
  rw [List.length_append, List.length_take_of_le inside]

/-- The cells up to the end of the run are the old ones before it, then the run. -/
theorem take_overwrite (block : List α) {offset : ℕ} {run : List α}
    (inside : offset ≤ block.length) (count : ℕ) (counted : count ≤ run.length) :
    (overwrite block offset run).take (offset + count) = block.take offset ++ run.take count := by
  have length : (block.take offset).length = offset := List.length_take_of_le inside
  rw [overwrite, List.append_assoc, List.take_append, length, Nat.add_sub_cancel_left,
    List.take_of_length_le (by omega), List.take_append_of_le_length counted]

/-- A run as long as the one in the middle replaces it. -/
theorem overwrite_middle {before middle after run : List α} {offset : ℕ} (start : offset = before.length)
    (same : run.length = middle.length) :
    overwrite (before ++ middle ++ after) offset run = before ++ run ++ after := by
  subst start
  rw [overwrite, List.append_assoc before, List.take_left, same, ← List.append_assoc, ← List.length_append,
    List.drop_left]

/-- A run of cells, with what is before it and behind it. -/
theorem exists_run {block : List α} {offset count : ℕ} (inside : offset + count ≤ block.length) :
    ∃ before run after, block = before ++ run ++ after ∧ before.length = offset ∧ run.length = count := by
  refine ⟨block.take offset, (block.drop offset).take count, (block.drop offset).drop count, ?_, ?_, ?_⟩
  · rw [List.append_assoc, List.take_append_drop, List.take_append_drop]
  · exact List.length_take_of_le (Nat.le_of_add_right_le inside)
  · rw [List.length_take_of_le]
    rw [List.length_drop]
    omega

/-- What a block starts with stays there if the run starts behind it. -/
theorem prefix_overwrite {start block run : List α} {offset : ℕ} (starts : start <+: block)
    (inside : offset ≤ block.length) (place : start.length ≤ offset) : start <+: overwrite block offset run := by
  rw [List.prefix_iff_eq_take] at starts ⊢
  rw [take_overwrite_of_le place inside]
  exact starts

/-- A run is behind what it is stored after. -/
theorem append_prefix_overwrite {start block run : List α} (starts : start <+: block) :
    start ++ run <+: overwrite block start.length run := by
  obtain ⟨rest, rfl⟩ := starts
  rw [overwrite, List.take_left]
  exact List.prefix_append ..

/-- Two runs one after the other are stored as one. -/
theorem overwrite_append {block : List α} {offset : ℕ} {run more : List α} (inside : offset ≤ block.length) :
    overwrite (overwrite block offset run) (offset + run.length) more = overwrite block offset (run ++ more) := by
  have stored : (overwrite block offset run).take (offset + run.length) = block.take offset ++ run := by
    rw [take_overwrite block inside run.length (Nat.le_refl _), List.take_length]
  have behind : (overwrite block offset run).drop (offset + run.length + more.length) =
      block.drop (offset + (run ++ more).length) := by
    rw [← List.drop_drop, drop_overwrite inside, List.drop_drop, List.length_append, Nat.add_assoc]
  rw [overwrite, stored, behind, overwrite, List.append_assoc (block.take offset)]

end Yalibct.Machine
