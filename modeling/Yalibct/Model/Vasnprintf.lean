import Yalibct.Machine.Malloc
import Yalibct.Model.Printf

/-! # `vasnprintf`

The text is printed into the caller's buffer when it fits there with its NUL, and otherwise into a
block of its own. The length that is handed back counts the NUL. Both attempts use one `va_list`,
which the first one has already moved.
-/

namespace Yalibct

open Machine

/-- Why a call does not return. -/
inductive Stop where
  | assertion
  | nullPointer
  | overflow
  | pending
deriving DecidableEq

/-- `NULL`, the caller's buffer, or a block from `malloc`. -/
inductive Returned where
  | null
  | caller
  | block (bytes : List UInt8)
deriving DecidableEq

/-- The returned pointer, the value at `length_ptr`, and what was stored from the start of the
caller's buffer on. -/
structure Vasnprintf where
  returned : Returned
  length : ℕ
  stored : List UInt8
deriving DecidableEq

/-- `yalibct_internal_gnulib_vasnprintf`; the caller's buffer is absent when it passes `NULL`. -/
def vasnprintf (m : Malloc) (p : Printf) (r : Requests) (buffer : Option ℕ) (format : p.Format)
    (arguments : p.Args) : Except Stop (Vasnprintf × Requests) :=
  let initialSize := buffer.getD 0
  let stored := p.image format arguments initialSize
  let firstResult := p.returns format arguments
  if firstResult < 0 then .ok (⟨.null, initialSize, stored⟩, r)
  -- `first_result + 1` is a sum of two `int`.
  else if firstResult = intMax then .error .overflow
  else
    let length := firstResult.toNat + 1
    if firstResult.toNat < initialSize then .ok (⟨.caller, length, stored⟩, r)
    else
      match m.malloc r length with
      | (none, _) => .error .nullPointer
      | (some block, r) =>
        -- The arguments were consumed by the first attempt.
        let moved := p.rest format arguments
        let secondResult := p.returns format moved
        if secondResult = firstResult then
          .ok (⟨.block (overwrite block 0 (p.image format moved length)), length, stored⟩, r)
        else .error .assertion

variable {m : Malloc} {p : Printf} {format : p.Format} {args : p.Args}

/-- A text that fits with its NUL is stored in the caller's buffer, and the length counts the NUL. -/
theorem vasnprintf_fits (r : Requests) {room : ℕ} (bound : (p.text format args).length < intMax)
    (fits : (p.text format args).length < room) :
    vasnprintf m p r (some room) format args =
      .ok (⟨.caller, (p.text format args).length + 1, p.text format args ++ [0]⟩, r) := by
  have stored : p.image format args room = p.text format args ++ [0] := by
    rw [Printf.image, if_neg (by omega), List.take_of_length_le (by omega)]
  have nonneg : ¬ ((p.text format args).length : ℤ) < 0 := by omega
  have short : ¬ ((p.text format args).length : ℤ) = intMax := by omega
  simp only [vasnprintf, Option.getD_some, Printf.returns_of_le (Nat.le_of_lt bound), stored, nonneg,
    short, ↓reduceIte, Int.toNat_natCast, fits]

/-- However the text is returned, the length handed back is one more than that of the text. -/
theorem vasnprintf_length (r r' : Requests) {room : ℕ} {result : Vasnprintf}
    (bound : (p.text format args).length < intMax)
    (ran : vasnprintf m p r (some room) format args = .ok (result, r')) :
    result.length = (p.text format args).length + 1 ∧
      ((result.returned = .caller ∧ (p.text format args).length < room ∧
        result.stored = p.text format args ++ [0]) ∨
       ∃ bytes, result.returned = .block bytes ∧ bytes.length = (p.text format args).length + 1 ∧
        room ≤ (p.text format args).length) := by
  by_cases fits : (p.text format args).length < room
  · rw [vasnprintf_fits r bound fits] at ran
    cases ran
    exact ⟨rfl, .inl ⟨rfl, fits, rfl⟩⟩
  · have nonneg : ¬ ((p.text format args).length : ℤ) < 0 := by omega
    have short : ¬ ((p.text format args).length : ℤ) = intMax := by omega
    simp only [vasnprintf, Option.getD_some, Printf.returns_of_le (Nat.le_of_lt bound), nonneg, short,
      ↓reduceIte, Int.toNat_natCast, fits] at ran
    rcases Malloc.malloc_cases (m := m) r ((p.text format args).length + 1) with
      ⟨block, granted, length, -⟩ | refused
    · rw [granted] at ran
      simp only at ran
      split_ifs at ran
      cases ran
      refine ⟨rfl, .inr ⟨_, rfl, ?_, by omega⟩⟩
      have image := p.length_image_le format (p.rest format args) ((p.text format args).length + 1)
      rw [length_overwrite (by omega), length]
    · rw [refused] at ran
      cases ran

end Yalibct
