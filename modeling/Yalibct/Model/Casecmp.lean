import Mathlib.Algebra.Order.Ring.Int
import Yalibct.Machine.Heap

/-! # `strcasecmp` and `wcscasecmp`

Both fold characters until they differ or the first string ends, and return the difference of the last two.
What differs is the type of the characters. An address stands for the elements from there on.
-/

namespace Yalibct.Casecmp

open Machine

/-- The loop over the folded characters. -/
def foldLoop {α : Type} [DecidableEq α] (fold : α → α) (nul : α) : List α → List α → Except Fault (α × α)
  | p1 :: s1, p2 :: s2 =>
    let c1 := fold p1
    let c2 := fold p2
    if c1 = nul then .ok (c1, c2)
    else if c1 = c2 then foldLoop fold nul s1 s2
    else .ok (c1, c2)
  | _, _ => .error .outOfBounds

/-! ## `strcasecmp` -/

/-- `TOLOWER` -/
def toLower (isupper : UInt8 → Bool) (tolower : UInt8 → UInt8) (ch : UInt8) : UInt8 :=
  if isupper ch then tolower ch else ch

def ucharMax : ℕ := 255

/-- `_GL_CMP` -/
def glCmp (n1 n2 : UInt8) : ℤ := (if n2 < n1 then 1 else 0) - (if n1 < n2 then 1 else 0)

/-- The difference of two `unsigned char`s, as an `int`. -/
def ucharDifference (c1 c2 : UInt8) : ℤ := if ucharMax ≤ intMax then c1.toNat - c2.toNat else glCmp c1 c2

def strcasecmp (isupper : UInt8 → Bool) (tolower : UInt8 → UInt8) (chars : ℕ → List UInt8) (s1 s2 : ℕ) :
    Except Fault ℤ :=
  if s1 = s2 then .ok 0
  else (foldLoop (toLower isupper tolower) 0 (chars s1) (chars s2)).map fun (c1, c2) => ucharDifference c1 c2

/-! ## `wcscasecmp` -/

/-- The conversion of a `wint_t` to `int`. -/
def wintToInt (c : UInt32) : ℤ := if c.toNat < 2 ^ 31 then c.toNat else c.toNat - 2 ^ 32

def wcscasecmp (towlower : UInt32 → UInt32) (chars : ℕ → List UInt32) (s1 s2 : ℕ) : Except Fault ℤ :=
  if s1 = s2 then .ok 0
  else (foldLoop towlower 0 (chars s1) (chars s2)).map fun (c1, c2) => wintToInt (c1 - c2)

end Yalibct.Casecmp
