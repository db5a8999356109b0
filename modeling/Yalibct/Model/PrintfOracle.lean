import Mathlib.Algebra.Group.Int.Defs
import Yalibct.Model.MemchrInv

/-! # The oracle of the printf tests

A text is printed into the middle of a padded buffer that was filled before. What was returned and what
the buffer holds then are compared with the expected text.
-/

namespace Yalibct.PrintfOracle

open Machine MemchrInv

/-- `BUF_SIZE` -/
def bufSize : ℤ := 256

/-- `PAD_SIZE` -/
def padSize : ℤ := 16

/-- `FILL_CHAR` -/
def fillChar : ℤ := 36

/-- An `int` as an argument of type `size_t`. -/
def toSize (n : ℤ) : ℕ := (n % 2 ^ 64).toNat

/-- An `int` added to a pointer. -/
def ptrAdd (p : ℕ) (n : ℤ) : ℕ := (p + n).toNat

/-- From the memory, the buffer and its size, what `vsnprintf` returns, and the memory after it. -/
abbrev Vsnprintf := Memory → ℕ → ℕ → ℤ × Memory

/-- `memset` -/
def memset (heap : Heap) (addr : ℕ) (c : ℤ) (size : ℕ) : Except Fault Heap :=
  heap.write addr (List.replicate size (UInt8.ofInt c))

/-- Whether `memcmp` finds no difference to the expected text, an array of any bytes. -/
def memcmpEqual (heap : Heap) (addr : ℕ) (expect : List UInt8) (size : ℕ) : Except Fault Bool := do
  let bytes ← heap.read addr size
  if size ≤ expect.length then .ok (bytes = expect.take size) else .error .outOfBounds

/-- Whether `memchr_inv` finds a byte. -/
def found (bitsPerLong : ℕ) (heap : Heap) (addr : ℕ) (size : ℤ) : Except Fault Bool := do
  let r ← realMemchrInv bitsPerLong heap addr fillChar (toSize size)
  .ok r.isSome

/-- The checks that `do_test` makes when the length is right; whether they fail. -/
def checkBuffer (bitsPerLong : ℕ) (heap : Heap) (alloced : ℕ) (bufsize : ℤ) (expect : List UInt8) (elen : ℤ) :
    Except Fault Bool := do
  let testBuffer := ptrAdd alloced padSize
  if ← found bitsPerLong heap alloced padSize then .ok true
  else if bufsize = 0 then found bitsPerLong heap testBuffer (bufSize + padSize)
  else
    let written := min (bufsize - 1) elen
    if (← heap.loadByte (ptrAdd testBuffer written)) ≠ 0 then .ok true
    else if ← found bitsPerLong heap (ptrAdd testBuffer (written + 1)) (bufsize - (written + 1)) then .ok true
    else if ← found bitsPerLong heap (ptrAdd testBuffer bufsize) (bufSize + padSize - bufsize) then .ok true
    else do
      let equal ← memcmpEqual heap testBuffer expect (toSize written)
      .ok (!equal)

/-- `do_test`, with the heap after it. -/
def doTest (bitsPerLong : ℕ) (vsnprintf : Vsnprintf) (heap : Heap) (alloced : ℕ) (bufsize : ℤ) (expect : List UInt8)
    (elen : ℤ) : Except Fault (ℤ × Heap) := do
  let heap ← memset heap alloced fillChar (toSize (bufSize + 2 * padSize))
  let (ret, bytes) := vsnprintf heap.bytes (ptrAdd alloced padSize) (toSize bufsize)
  let heap := { heap with bytes := bytes }
  if ret ≠ elen then .ok (1, heap)
  else do
    let failed ← checkBuffer bitsPerLong heap alloced bufsize expect elen
    .ok (if failed then 1 else 0, heap)

/-- `prandom_u32_max` -/
def prandomU32Max (random epRo : UInt32) : UInt32 := ((random.toUInt64 * epRo.toUInt64) >>> 32).toUInt32

/-- `rand` -/
def rand (random : UInt32) (elen : ℤ) : ℤ := 1 + (prandomU32Max random (UInt32.ofInt (elen + 1))).toNat

/-- The sizes of the three tests that `__test` makes. -/
def sizes (random : UInt32) (elen : ℤ) : List ℤ := [bufSize, rand random elen, 0]

end Yalibct.PrintfOracle
