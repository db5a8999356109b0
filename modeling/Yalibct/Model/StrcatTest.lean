import Mathlib.Algebra.Order.Ring.Int
import Yalibct.Machine.Comparison
import Yalibct.Model.TestString

/-! # The random tests of `strcat`

A random string is appended to another one, and everything around the two is checked for changes. Lengths
and indices that a wrapped difference went into stop the test, but for one: how the elements before `p2`
are indexed is a parameter.
-/

namespace Yalibct.StrcatTest

open Machine TestString Size

/-- The elements from `p1` on, from 64 before `p2` on, and from `p3` on. -/
structure Buffers where
  p1 : Chars
  p2 : Chars
  p3 : Chars
deriving DecidableEq

/-- A function used as `strcat`, on the buffers and on where its arguments point, with the pointer it
returns as a distance from `p2`. -/
abbrev Strcat := Buffers → ℕ → ℕ → ℤ × Buffers

/-- What an iteration reports. -/
inductive Problem where
  | wrongResult
  | garbageBefore
  | garbageInStringBefore
  | garbageAfter
  | differentStrings
deriving DecidableEq

/-- `SMALL_CHAR` -/
def smallChar : ℕ := 127

/-! ## The lengths -/

/-- `len2` -/
def chooseLen2 (len1 align2 : Size) : Drawing Size :=
  if 512 < (len1 + align2).value then exact <$> masked 7
  else do
    let n ← masked (1024 * 1024 - 1)
    let room := exact 512 - len1 - align2
    return ⟨sizeT (room.value * n) / (1024 * 1024), room.wrapped⟩

/-- `len1`, for strings up to `j`. -/
def clampLen1 (len1 j : Size) : Drawing Size := do
  let len1 ← (if 511 ≤ (len1 + j).value then do
      let less ← masked 7
      return exact 510 - j - exact less
    else return len1 : Drawing Size)
  return if 512 ≤ len1.value then exact 0 else len1

/-- `align1`, raised towards the end of the page. -/
def raiseAlign1 (align1 len1 : Size) : Drawing Size :=
  if (align1 + len1).value < 512 - 8 then do
    let less ← masked 31
    let j := exact 510 - align1 - len1 - exact less
    return if 0 < j.value ∧ j.value < 512 then align1 + j else align1
  else return align1

structure Lengths where
  align1 : ℕ
  align2 : ℕ
  len1 : ℕ
  len2 : ℕ
deriving DecidableEq

/-- The lengths and alignments, as they are used. -/
def chooseLengths : Drawing Lengths := do
  let (align1, align2) ← randomAligns
  let align1 := exact align1
  let align2 := exact align2
  let len1 ← exact <$> masked 511
  let len2 ← chooseLen2 len1 align2
  let j := if align1.value < (align2 + len2).value then align2 + len2 else align1
  let len1 ← clampLen1 len1 j
  let align1 ← raiseAlign1 align1 len1
  let align1 ← align1.use
  let align2 ← align2.use
  let len1 ← len1.use
  let len2 ← len2.use
  return ⟨align1, align2, len1, len2⟩

/-! ## The strings -/

/-- What the stores to an element leave there; within a string this is no NUL. `BIG_CHAR`, the greatest
`char`, is a parameter. -/
def fillChar (bigChar : ℕ) (within : Bool) : Drawing UInt8 := do
  let first ← masked bigChar
  if within ∧ uchar first = 0 then do
    let second ← masked smallChar
    return uchar (second + 3)
  else return uchar first

/-- The loop that fills `p1`. -/
def fillSource (bigChar : ℕ) (l : Lengths) (p1 : Chars) : Drawing Chars :=
  let j := l.len1 + l.align1 + 64
  let j := if 512 < j then 512 else j
  forCount j (fun i p1 =>
    if i = l.len1 + l.align1 then put p1 i 0
    else do
      let c ← fillChar bigChar (l.align1 ≤ i ∧ i < l.len1 + l.align1)
      put p1 i c) p1

/-- The loop that fills `p3`, and its NUL. -/
def fillTarget (bigChar : ℕ) (len2 : ℕ) (p3 : Chars) : Drawing Chars := do
  let p3 ← forCount len2 (fun i p3 => do
    let c ← fillChar bigChar true
    put p3 i c) p3
  put p3 len2 0

/-! ## The checks -/

/-- Where an element of `p2` is, from its index on. -/
def ofP2 (i : ℕ) : ℕ := 64 + i

/-- An index that has wrapped, in a flat address space. -/
def flat (i : Size) : Except Fault ℕ := .ok (sizeT (ofP2 i.value))

/-- No index may wrap. -/
def strict (i : Size) : Except Fault ℕ := i.use.map ofP2

/-- A loop over elements that should be `'\1'`; it ends at the first other one. -/
def garbage (p2 : Chars) (index : ℕ → Except Fault ℕ) : ℕ → ℕ → Except Fault Bool
  | _, 0 => .ok false
  | j, n + 1 => do
    let i ← index j
    let c ← load p2 i
    if c ≠ 1 then .ok true else garbage p2 index (j + 1) n

/-- `MEMCMP` finds a difference. -/
def differ (s : Chars) (from_ : ℕ) (t : Chars) (to_ count : ℕ) : Except Fault Bool := do
  let left ← loadRun s from_ count
  let right ← loadRun t to_ count
  return left ≠ right

/-- The part of `p2` that a call gets, with the target string in it. -/
def setUp (l : Lengths) (b : Buffers) : Except Fault Buffers := do
  let p2 ← putRun b.p2 0 (List.replicate (l.align2 + 64) 1)
  let rest ← (exact 512 - exact l.align2 - exact l.len2 - exact 1).use
  let p2 ← putRun p2 (ofP2 (l.align2 + l.len2 + 1)) (List.replicate rest 1)
  let run ← loadRun b.p3 0 (l.len2 + 1)
  let p2 ← putRun p2 (ofP2 l.align2) run
  return { b with p2 := p2 }

/-- The reports about a call, by what it returned and the buffers behind it. -/
def checkCall (before : Size → Except Fault ℕ) (l : Lengths) (res : ℤ) (b : Buffers) : Except Fault (List Problem) := do
  let wrong := if res ≠ l.align2 then [Problem.wrongResult] else []
  let found ← garbage b.p2 (fun j => before (exact j - exact 64)) 0 (l.align2 + 64)
  let wrong := wrong ++ if found then [.garbageBefore] else []
  let found ← differ b.p2 (ofP2 l.align2) b.p3 0 l.len2
  let wrong := wrong ++ if found then [.garbageInStringBefore] else []
  let start := l.align2 + l.len1 + l.len2 + 1
  let found ← garbage b.p2 (fun j => .ok (ofP2 j)) start (512 - start)
  let wrong := wrong ++ if found then [.garbageAfter] else []
  let found ← differ b.p1 l.align1 b.p2 (ofP2 (l.align2 + l.len2)) (l.len1 + 1)
  return wrong ++ if found then [.differentStrings] else []

/-- An iteration. -/
def iteration (before : Size → Except Fault ℕ) (bigChar : ℕ) (strcat : Strcat) (b : Buffers) :
    Drawing (List Problem × Buffers) := do
  let l ← chooseLengths
  let p1 ← fillSource bigChar l b.p1
  let p3 ← fillTarget bigChar l.len2 b.p3
  let b ← setUp l { b with p1 := p1, p3 := p3 }
  let (res, b) := strcat b l.align2 l.align1
  let problems ← checkCall before l res b
  return (problems, b)

/-- `do_random_tests`, with as many iterations as are counted. -/
def doRandomTests (before : Size → Except Fault ℕ) (bigChar : ℕ) (strcat : Strcat) :
    ℕ → Buffers → Drawing (List Problem)
  | 0, _ => return []
  | n + 1, b => do
    let (problems, b) ← iteration before bigChar strcat b
    let rest ← doRandomTests before bigChar strcat n b
    return problems ++ rest

/-! ## A right `strcat` -/

/-- A function that appends exactly the source string and its NUL to the target string, where that fits,
and returns the target. -/
def Appends (strcat : Strcat) : Prop :=
  ∀ (b : Buffers) (dst src : ℕ), 0 ∈ b.p2.drop (ofP2 dst) → 0 ∈ b.p1.drop src →
    ofP2 dst + (text 0 (b.p2.drop (ofP2 dst))).length + (text 0 (b.p1.drop src)).length + 1 ≤ b.p2.length →
    strcat b dst src = ((dst : ℤ), { b with
      p2 := overwrite b.p2 (ofP2 dst + (text 0 (b.p2.drop (ofP2 dst))).length) (text 0 (b.p1.drop src) ++ [0]) })

end Yalibct.StrcatTest
