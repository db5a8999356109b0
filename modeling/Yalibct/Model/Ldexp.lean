import Mathlib.Data.Rat.Defs
import Yalibct.Machine.Checked

/-! # `ldexp`

A number is multiplied by a power of two, by squaring and multiplying. The operations on `double`s
are exact here; those on `int`s may overflow.
-/

namespace Yalibct.Ldexp

open Machine

/-- The loop of `ldexp`. -/
def ldexpLoop (exp : ℕ) (x factor : ℚ) (bit : ℕ) (positive : 0 < bit) : Except Fault ℚ :=
  let x := if exp &&& bit ≠ 0 then x * factor else x
  -- `bit <<= 1`
  if intMax < 2 * bit then .error .undefined
  else if exp < 2 * bit then .ok x
  else ldexpLoop exp x (factor * factor) (2 * bit) (Nat.mul_pos Nat.two_pos positive)
termination_by exp - bit

/-- `ldexp`, of a number that is finite. -/
def ldexp (x : ℚ) (exp : ℤ) : Except Fault ℚ := do
  if x + x = x then .ok x
  else
    let (exp, factor) ← if exp < 0 then (toInt (-exp)).map fun exp => (exp, 1 / 2) else .ok (exp, 2)
    if 0 < exp then ldexpLoop exp.toNat x factor 1 Nat.one_pos else .ok x

end Yalibct.Ldexp
