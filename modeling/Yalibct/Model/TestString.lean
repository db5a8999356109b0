import Yalibct.Machine.Random
import Yalibct.Machine.Size

/-! # `test-string.h`

The tests of string functions put their strings into two buffers, at random alignments.
-/

namespace Yalibct.TestString

open Machine

/-- Elements of a buffer, as `unsigned char`. -/
abbrev Chars := List UInt8

/-- `page_size` after `test_init`, where a test defines `MIN_PAGE_SIZE` if it is given. -/
def pageSize (getpagesize : ℕ) (minPageSize : Option ℕ) : ℕ :=
  match minPageSize with
  | none => 2 * getpagesize
  | some least => if 2 * getpagesize < least then least else 2 * getpagesize

/-- `align1` and `align2` of a random test. -/
def randomAligns : Drawing (ℕ × ℕ) := do
  let align1 ← masked 31
  let apart ← masked 1
  if apart ≠ 0 then do
    let align2 ← masked 31
    return (align1, align2)
  else do
    let more ← masked 24
    return (align1, align1 + more)

/-- The conversion to `unsigned char`. -/
def uchar (n : ℕ) : UInt8 := UInt8.ofNat n

theorem randomAligns_always : Always (fun a => a.1 ≤ 31 ∧ a.2 ≤ 55 ∧ a.2 ≤ a.1 + 31) randomAligns :=
  (Always.masked 31).bind fun align1 bound => (Always.masked 1).bind fun _ _ =>
    Always.ite
      (fun _ => (Always.masked 31).bind fun align2 bound2 => Always.pure ⟨bound, by omega, by omega⟩)
      (fun _ => (Always.masked 24).bind fun more bound2 => Always.pure ⟨bound, by omega, by omega⟩)

end Yalibct.TestString
