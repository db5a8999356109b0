import Mathlib.Algebra.Order.Ring.Int
import Yalibct.Machine.Heap

/-! # Arithmetic of `int`

An operation whose exact result is no `int` has none.
-/

namespace Yalibct.Machine

def intMin : ℤ := -2 ^ 31

/-- The values of an `int`. -/
def IsInt (n : ℤ) : Prop := intMin ≤ n ∧ n ≤ intMax

instance (n : ℤ) : Decidable (IsInt n) := inferInstanceAs (Decidable (_ ∧ _))

/-- The result of an operation on `int`s. -/
def toInt (n : ℤ) : Except Fault ℤ := if IsInt n then .ok n else .error .undefined

/-- `1 << i` -/
def shiftOne (i : ℕ) : Except Fault ℤ := if i < 32 then toInt (2 ^ i) else .error .undefined

variable {n : ℤ} {i : ℕ}

theorem toInt_of_isInt (bound : IsInt n) : toInt n = .ok n := if_pos bound

theorem shiftOne_of_lt (bound : i < 31) : shiftOne i = .ok (2 ^ i) := by
  rw [shiftOne, if_pos (Nat.lt_succ_of_lt bound)]
  apply toInt_of_isInt
  have positive : (0 : ℤ) < 2 ^ i := pow_pos (by decide) i
  have top : (2 : ℤ) ^ i ≤ 2 ^ 30 := pow_le_pow_right₀ (by decide) (Nat.le_of_lt_succ bound)
  refine ⟨?_, ?_⟩
  · rw [intMin]
    omega
  · rw [intMax]
    omega

end Yalibct.Machine
