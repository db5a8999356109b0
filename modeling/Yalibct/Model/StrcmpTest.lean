import Yalibct.Model.TestString

/-! # The strings of the `strcmp` test

`do_random_tests` patches random strings while it computes how they compare; `do_test` builds strings
that compare as it is asked to.
-/

namespace Yalibct.StrcmpTest

open Machine TestString

/-- A function used as `strcmp`, on the elements from its arguments on. -/
abbrev Strcmp := Chars → Chars → ℤ

/-! ## `do_random_tests` -/

/-- `pos` -/
def choosePos (j : ℕ) : Drawing ℕ := do
  let pos ← masked 511
  if 511 ≤ pos + j then do
    let less ← masked 7
    return difference (difference 510 j) less
  else return pos

/-- `len1` -/
def chooseLen1 (pos j : ℕ) : Drawing ℕ := do
  let len1 ← masked 511
  let extend ← (if len1 ≤ pos then masked 1 else pure 0 : Drawing ℕ)
  let len1 ← (if extend ≠ 0 then (pos + ·) <$> masked 7 else pure len1 : Drawing ℕ)
  if 512 ≤ len1 + j then do
    let less ← masked 7
    return difference (difference 511 j) less
  else return len1

/-- A remainder; there is none by zero. -/
def remainder (n divisor : ℕ) : Except Fault ℕ := if divisor = 0 then .error .undefined else .ok (n % divisor)

/-- `len2` -/
def chooseLen2 (pos len1 j : ℕ) : Drawing ℕ :=
  if len1 ≤ pos then return len1
  else if len1 ≠ difference 511 j then do
    let n ← random
    let more ← remainder n (difference (difference 511 j) len1)
    return len1 + more
  else return len1

/-- What the stores to an element leave there; within a string this is no NUL. -/
def fillChar (within : Bool) : Drawing UInt8 := do
  let first ← masked 255
  if within ∧ uchar first = 0 then do
    let second ← masked 255
    if uchar second = 0 then do
      let last ← masked 127
      return uchar (1 + last)
    else return uchar second
  else return uchar first

/-- A loop that fills a window; its string ends at `stop`. -/
def fillLoop (j stop : ℕ) (p : Chars) : Drawing Chars :=
  forCount j (fun i p => do
    let c ← fillChar (i < stop)
    put p i c) p

/-- The stores that make the second string differ at an index from the character there in the first. -/
def differAt (p2 : Chars) (i : ℕ) (c1 : UInt8) : Drawing Chars := do
  let c2 ← load p2 i
  if c2 = c1 then do
    let other ← masked 255
    let p2 ← put p2 i (uchar other)
    if uchar other = c1 then do
      let more ← masked 127
      put p2 i (c1 + 3 + uchar more)
    else return p2
  else return p2

/-- The character of the second string at `pos`, and the sign the comparison should have. -/
def patch (p1 p2 : Chars) (align1 align2 pos len1 : ℕ) : Drawing (Chars × ℤ) :=
  if pos < len1 then do
    let c1 ← load p1 (align1 + pos)
    let p2 ← differAt p2 (align2 + pos) c1
    let c2 ← load p2 (align2 + pos)
    return (p2, if c1 < c2 then -1 else 1)
  else return (p2, 0)

/-- The windows before the calls of an iteration, where the strings are in them, and `result`. -/
structure Iteration where
  align1 : ℕ
  align2 : ℕ
  p1 : Chars
  p2 : Chars
  result : ℤ
deriving DecidableEq

/-- What an iteration does before its calls. -/
def iteration (p1 p2 : Chars) : Drawing Iteration := do
  let (align1, align2) ← randomAligns
  let j := if align2 < align1 then align1 else align2
  let pos ← choosePos j
  let len1 ← chooseLen1 pos j
  let len2 ← chooseLen2 pos len1 j
  let j := (if len2 < pos then pos else len2) + align1 + 64
  let j := if 512 < j then 512 else j
  let p1 ← fillLoop j (len1 + align1) p1
  let p2 ← fillLoop j (len2 + align2) p2
  let run ← loadRun p1 align1 pos
  let p2 ← putRun p2 align2 run
  let (p2, result) ← patch p1 p2 align1 align2 pos len1
  let p1 ← put p1 (len1 + align1) 0
  let p2 ← put p2 (len2 + align2) 0
  return ⟨align1, align2, p1, p2, result⟩

/-- Whether an iteration reports a result. -/
def Iteration.reports (it : Iteration) (r : ℤ) : Bool :=
  (r = 0 ∧ it.result ≠ 0) ∨ (r < 0 ∧ 0 ≤ it.result) ∨ (0 < r ∧ it.result ≤ 0)

/-- `do_random_tests`, with as many iterations as are counted. -/
def doRandomTests : ℕ → Chars → Chars → Drawing (List Iteration)
  | 0, _, _ => return []
  | n + 1, p1, p2 => do
    let it ← iteration p1 p2
    let rest ← doRandomTests n it.p1 it.p2
    return it :: rest

/-! ## `do_test` -/

/-- `MIN_PAGE_SIZE` -/
def minPageSize (getpagesize : ℕ) : ℕ := getpagesize * 3 + 2 * getpagesize

/-- The buffers with the two strings at their offsets. -/
structure Placed where
  buf1 : Chars
  buf2 : Chars
  s1 : ℕ
  s2 : ℕ
deriving DecidableEq

/-- Where a string starts, close to the end of the page. -/
def startOf (pageSize align len : ℕ) : ℕ :=
  difference pageSize (sizeT (align + sizeT (len + 2))) / 16 * 16 + align

/-- `1 + 23 * i % max_char` -/
def charAt (maxChar i : ℕ) : UInt8 := uchar (1 + sizeT (23 * i) % maxChar)

/-- The loop that stores the characters. -/
def charLoop (maxChar s1 s2 len : ℕ) (bufs : Chars × Chars) : Except Fault (Chars × Chars) :=
  forCount len (fun i (buf1, buf2) => do
    let buf2 ← put buf2 (s2 + i) (charAt maxChar i)
    let buf1 ← put buf1 (s1 + i) (charAt maxChar i)
    return (buf1, buf2)) bufs

/-- The conversion of an `int` to a character. -/
def toChar (n : ℤ) : UInt8 := uchar (n % 256).toNat

/-- The stores behind the strings, and to the last character of the second one. -/
def finish (s1 s2 len : ℕ) (expResult : ℤ) (bufs : Chars × Chars) : Except Fault (Chars × Chars) := do
  let buf2 ← put bufs.2 (s2 + len) 0
  let buf1 ← put bufs.1 (s1 + len) 0
  let buf1 ← put buf1 (s1 + len + 1) 23
  let buf2 ← put buf2 (s2 + len + 1) (toChar (24 + expResult))
  let last ← load buf2 (s2 + len - 1)
  let buf2 ← put buf2 (s2 + len - 1) (toChar (last.toNat - expResult))
  return (buf1, buf2)

/-- `do_test` before its calls; nothing if it returns early. -/
def doTest (getpagesize align1 align2 len maxChar : ℕ) (expResult : ℤ) (buf1 buf2 : Chars) :
    Except Fault (Option Placed) := do
  let pageSize := pageSize getpagesize (some (minPageSize getpagesize))
  if len = 0 then return none
  else
    let align1 := align1 &&& (getpagesize - 1)
    if pageSize ≤ sizeT (align1 + sizeT (len + 1)) then return none
    else
      let align2 := align2 &&& (getpagesize - 1)
      if pageSize ≤ sizeT (align2 + sizeT (len + 1)) then return none
      else
        let s1 := startOf pageSize align1 len
        let s2 := startOf pageSize align2 len
        let bufs ← charLoop maxChar s1 s2 len (buf1, buf2)
        let (buf1, buf2) ← finish s1 s2 len expResult bufs
        return some ⟨buf1, buf2, s1, s2⟩

/-- `check_result` -/
def checkResult (result expResult : ℤ) : ℤ :=
  if (expResult = 0 ∧ result ≠ 0) ∨ (expResult < 0 ∧ 0 ≤ result) ∨ (0 < expResult ∧ result ≤ 0) then -1 else 0

end Yalibct.StrcmpTest
