import Mathlib.Algebra.Group.Int.Defs
import Mathlib.Algebra.Group.Nat.Defs
import Mathlib.Data.Rat.Defs

/-! # Numbers of binary32

A number is finite, infinite or not a number. Every operation is exact and then rounds to nearest,
ties to even; a result beyond the largest finite number is infinite. Zeros have no sign here:
nothing divides by a zero that another operation produced.
-/

namespace Yalibct.Machine

inductive Binary32 where
  | nan
  | inf (negative : Bool)
  | finite (value : ℚ)
deriving DecidableEq

namespace Binary32

/-- The exponent of the unit in the last place of a number with 24 significant bits. -/
def lastPlace (num den : ℕ) : ℤ :=
  let guess : ℤ := (num.log2 : ℤ) - den.log2
  -- The quotient of the leading bits may be one too large.
  let exponent :=
    if 0 ≤ guess then (if num < den * 2 ^ guess.toNat then guess - 1 else guess)
    else if num * 2 ^ (-guess).toNat < den then guess - 1 else guess
  max (exponent - 23) (-149)

/-- Round a quotient to an integer, ties to even. -/
def roundQuotient (num den : ℕ) : ℕ :=
  let quotient := num / den
  let rest := num % den
  if 2 * rest < den then quotient
  else if den < 2 * rest then quotient + 1
  else quotient + quotient % 2

/-- The nearest number to a rational. -/
def round (q : ℚ) : Binary32 :=
  if q = 0 then .finite 0
  else
    let place := lastPlace q.num.natAbs q.den
    let num := q.num.natAbs * 2 ^ (-place).toNat
    let den := q.den * 2 ^ place.toNat
    let significand := roundQuotient num den
    let large := 2 ^ 128 * 2 ^ (-place).toNat ≤ significand * 2 ^ place.toNat
    if large then .inf (q < 0)
    else
      let magnitude := mkRat (significand * 2 ^ place.toNat) (2 ^ (-place).toNat)
      .finite (if q < 0 then -magnitude else magnitude)

/-- Conversion from an integer. -/
def ofNat (n : ℕ) : Binary32 := round n

def neg : Binary32 → Binary32
  | .nan => .nan
  | .inf negative => .inf !negative
  | .finite q => .finite (-q)

def add : Binary32 → Binary32 → Binary32
  | .finite p, .finite q => round (p + q)
  | .inf a, .inf b => if a = b then .inf a else .nan
  | .inf a, .finite _ => .inf a
  | .finite _, .inf b => .inf b
  | .nan, _ => .nan
  | _, .nan => .nan

def sub (x y : Binary32) : Binary32 := x.add y.neg

def mul : Binary32 → Binary32 → Binary32
  | .finite p, .finite q => round (p * q)
  | .inf a, .inf b => .inf (a != b)
  | .inf a, .finite q => if q = 0 then .nan else .inf (a != decide (q < 0))
  | .finite p, .inf b => if p = 0 then .nan else .inf (b != decide (p < 0))
  | .nan, _ => .nan
  | _, .nan => .nan

def div : Binary32 → Binary32 → Binary32
  | .finite p, .finite q =>
    if q = 0 then (if p = 0 then .nan else .inf (p < 0)) else round (p / q)
  | .inf _, .inf _ => .nan
  | .inf a, .finite q => .inf (a != decide (q < 0))
  | .finite _, .inf _ => .finite 0
  | .nan, _ => .nan
  | _, .nan => .nan

def lt : Binary32 → Binary32 → Bool
  | .finite p, .finite q => p < q
  | .inf true, .inf false => true
  | .inf true, .finite _ => true
  | .finite _, .inf false => true
  | _, _ => false

def le : Binary32 → Binary32 → Bool
  | .finite p, .finite q => p ≤ q
  | .inf a, .inf b => a || !b
  | .inf true, .finite _ => true
  | .finite _, .inf false => true
  | _, _ => false

/-- Conversion to an unsigned integer cuts the fraction off; other values have no conversion. -/
def toNat : Binary32 → Option ℕ
  | .finite q => if q < 0 then none else some q.floor.toNat
  | _ => none

end Binary32

end Yalibct.Machine
