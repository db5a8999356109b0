import Mathlib.Data.Rat.Defs
import Yalibct.Machine.Checked

/-! # `frexp`

A number is split into a fraction and an exponent. The number is scaled by ever larger powers of two,
which are kept in two tables, and then back by smaller ones. The operations on `double`s are exact
here.
-/

namespace Yalibct.Frexp

open Machine

/-- An array of 64 numbers, with those that were stored. -/
abbrev Table := ℕ → Option ℚ

/-- The value of an element. -/
def Table.load (table : Table) (i : ℕ) : Except Fault ℚ :=
  if i < 64 then
    match table i with
    | some v => .ok v
    | none => .error .undefined
  else .error .outOfBounds

def Table.store (table : Table) (i : ℕ) (v : ℚ) : Table := fun j => if j = i then some v else table j

/-- The variables of the first loops. -/
structure Scaling where
  x : ℚ
  exponent : ℤ
  i : ℕ
  pow2i : ℚ
  powhi : ℚ
  pow2 : Table
  powh : Table

/-- Before the loops. -/
def Scaling.init (x : ℚ) : Scaling := ⟨x, 0, 0, 2, 1 / 2, fun _ => none, fun _ => none⟩

/-- The end of a round: the powers are stored, and squared for the next one. -/
def Scaling.advance (s : Scaling) : Scaling := { s with
  i := s.i + 1
  pow2i := s.pow2i * s.pow2i
  powhi := s.powhi * s.powhi
  pow2 := s.pow2.store s.i s.pow2i
  powh := s.powh.store s.i s.powhi }

/-- The loop for a number from one on. -/
def scaleDown (s : Scaling) : Except Fault Scaling :=
  if s.pow2i ≤ s.x then do
    let exponent ← toInt (s.exponent + (← shiftOne s.i))
    if _bound : s.i < 64 then scaleDown { s with exponent := exponent, x := s.x * s.powhi }.advance
    else .error .outOfBounds
  else .ok s
termination_by 64 - s.i
decreasing_by exact Nat.sub_succ_lt_self _ _ _bound

/-- The loop for a number below one. -/
def scaleUp (s : Scaling) : Except Fault Scaling :=
  if s.x < s.powhi then do
    let exponent ← toInt (s.exponent - (← shiftOne s.i))
    if _bound : s.i < 64 then scaleUp { s with exponent := exponent, x := s.x * s.pow2i }.advance
    else .error .outOfBounds
  else .ok s
termination_by 64 - s.i
decreasing_by exact Nat.sub_succ_lt_self _ _ _bound

/-- The loop that keeps the number from becoming too small: the last `i` and `powh_i`. -/
def walkBack (s : Scaling) : ℕ → ℚ → Except Fault (ℕ × ℚ)
  | 0, powhi => .ok (0, powhi)
  | i + 1, powhi => do
    if s.x < (← s.pow2.load i) then walkBack s i (← s.powh.load i)
    else .ok (i + 1, powhi)

/-- The last loop: the fraction and the exponent. -/
def halve (pow2 powh : Table) : ℕ → ℚ → ℤ → Except Fault (ℚ × ℤ)
  | 0, x, exponent => .ok (x, exponent)
  | i + 1, x, exponent => do
    if x < (← powh.load i) then
      let exponent ← toInt (exponent - (← shiftOne i))
      halve pow2 powh i (x * (← pow2.load i)) exponent
    else halve pow2 powh i x exponent

/-- Of a positive number. -/
def frexpPositive (x : ℚ) : Except Fault (ℚ × ℤ) := do
  if 1 ≤ x then
    let s ← scaleDown (.init x)
    let (i, powhi) ← walkBack s s.i s.powhi
    let exponent ← toInt (s.exponent + (← shiftOne i))
    halve s.pow2 s.powh i (s.x * powhi) exponent
  else
    let s ← scaleUp (.init x)
    halve s.pow2 s.powh s.i s.x s.exponent

/-- `frexp`, of a number that is finite: the result and `*expptr`. -/
def frexp (x : ℚ) : Except Fault (ℚ × ℤ) := do
  if x + x = x then .ok (x, 0)
  else
    let negative := x < 0
    let (x, exponent) ← frexpPositive (if negative then -x else x)
    .ok (if negative then -x else x, exponent)

end Yalibct.Frexp
