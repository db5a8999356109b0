import Mathlib.Algebra.Order.Ring.Int
import Yalibct.Machine.Cells

/-! # The fuzz test of `strcmp`

An input is split into two strings, and the results of `strcmp` on them are checked against their first
different characters.
-/

namespace Yalibct.StrcmpFuzz

open Machine

/-- A function used as `strcmp`, on the arrays its arguments point to. -/
abbrev Strcmp := List UInt8 → List UInt8 → ℤ

/-- What the two requests get: whether they are granted, and what `malloc` leaves in its array. -/
structure Allocations where
  data1 : Bool
  data2 : Bool
  holds : ℕ → UInt8

/-- `size1` -/
def size1 (first : UInt8) (size : ℕ) : ℕ := if first.toNat ≤ size then first.toNat else size

/-- A loop that copies as many bytes as are counted. -/
def copyLoop (data : List UInt8) (from_ count : ℕ) (dest : List UInt8) : Except Fault (List UInt8) :=
  forCount count (fun j dest => do
    let c ← load data (from_ + j)
    put dest j c) dest

/-- The loop to the first difference or NUL, from `k` on; the arrays are given from there on. -/
def scanLoop : List UInt8 → List UInt8 → ℕ → Except Fault ℕ
  | [], _, _ => .error .outOfBounds
  | c1 :: s1, s2, k =>
    if c1 = 0 then .ok k
    else
      match s2 with
      | [] => .error .outOfBounds
      | c2 :: s2 =>
        if c2 = 0 then .ok k
        else if c1 = c2 then scanLoop s1 s2 (k + 1)
        else .ok k

/-- The two conditions of a trap. -/
def wrongSign (strcmpResult : ℤ) (ch1 ch2 : UInt8) : Bool :=
  (strcmpResult < 0 ∧ ch2 ≤ ch1) ∨ (strcmpResult = 0 ∧ ch1 ≠ ch2) ∨ (0 < strcmpResult ∧ ch1 ≤ ch2)

def wrongReversed (strcmpResult : ℤ) (ch1 ch2 : UInt8) : Bool :=
  (strcmpResult < 0 ∧ ch1 ≤ ch2) ∨ (strcmpResult = 0 ∧ ch1 ≠ ch2) ∨ (0 < strcmpResult ∧ ch2 ≤ ch1)

/-- The checks of the two results. -/
def checkStrcmp (strcmp : Strcmp) (s1 s2 : List UInt8) : Except Fault ℤ := do
  let k ← scanLoop s1 s2 0
  let ch1 ← load s1 k
  let ch2 ← load s2 k
  if wrongSign (strcmp s1 s2) ch1 ch2 then .error .aborted
  else if wrongReversed (strcmp s2 s1) ch1 ch2 then .error .aborted
  else .ok 0

/-- The arrays that are allocated and filled. -/
def build (a : Allocations) (data : List UInt8) (size1 size2 : ℕ) : Except Fault (List UInt8 × List UInt8) := do
  let data1 ← copyLoop data 0 size1 ((List.range (size1 + 1)).map a.holds)
  let data1 ← put data1 size1 0
  let data2 ← copyLoop data size1 size2 (List.replicate size2 0)
  .ok (data1, data2)

/-- `LLVMFuzzerTestOneInput`; the input has as many bytes as `size`. -/
def testOneInput (a : Allocations) (strcmp : Strcmp) (data : List UInt8) : Except Fault ℤ := do
  let size := data.length
  if size = 0 then .ok 0
  else
    let last ← load data (size - 1)
    if last ≠ 0 then .ok 0
    else
      let first ← load data 0
      let size1 := size1 first size
      let size2 := size - size1
      if size2 = 0 then .ok 0
      else if ¬ a.data1 ∨ ¬ a.data2 then .error .aborted
      else
        let (s1, s2) ← build a data size1 size2
        checkStrcmp strcmp s1 s2

end Yalibct.StrcmpFuzz
