import Mathlib.Data.Int.Notation
import Yalibct.Machine.Heap

/-! # memchr_inv

The search for the first byte that is not a given one. From the first address that is a multiple
of eight on it compares words.
-/

namespace Yalibct.MemchrInv

open Machine

/-- `__real_memchr_inv_check_bytes8`; the caller's count is an `unsigned int` here. -/
def checkBytes8 (heap : Heap) (value : UInt8) : ℕ → ℕ → Except Fault (Option ℕ)
  | _, 0 => .ok none
  | start, bytes + 1 => do
    if (← heap.read start 1) ≠ [value] then .ok (some start)
    else checkBytes8 heap value (start + 1) bytes

/-- The loop over words, and the check of the bytes behind them. -/
def checkWords (heap : Heap) (value : UInt8) (value64 : UInt64) (bytes : ℕ) :
    ℕ → ℕ → Except Fault (Option ℕ)
  | start, 0 => checkBytes8 heap value start (bytes % 8)
  | start, words + 1 => do
    if (← heap.loadWord start) ≠ value64.toNat then checkBytes8 heap value start 8
    else checkWords heap value value64 bytes (start + 8) words

/-- The byte, eight times. Where `BITS_PER_LONG` is not defined, the preprocessor takes it for 0. -/
def replicated (bitsPerLong : ℕ) (value : UInt8) : UInt64 :=
  let value64 := value.toUInt64
  if bitsPerLong = 64 then value64 * (0x0101010101010101 : UInt64)
  else
    let value64 := value64 * (0x01010101 : UInt64)
    value64 ||| (value64 <<< (32 : UInt64))

/-- `__real_memchr_inv` from an aligned address on; `words` is an `unsigned int`. -/
def checkAligned (bitsPerLong : ℕ) (heap : Heap) (value : UInt8) (start bytes : ℕ) :
    Except Fault (Option ℕ) :=
  checkWords heap value (replicated bitsPerLong value) bytes start (bytes / 8 % 2 ^ 32)

/-- `__real_memchr_inv` -/
def realMemchrInv (bitsPerLong : ℕ) (heap : Heap) (start : ℕ) (c : ℤ) (bytes : ℕ) :
    Except Fault (Option ℕ) :=
  let value := UInt8.ofInt c
  if bytes ≤ 16 then checkBytes8 heap value start bytes
  else if start % 8 ≠ 0 then do
    let prefixLen := 8 - start % 8
    match ← checkBytes8 heap value start prefixLen with
    | some r => .ok (some r)
    | none => checkAligned bitsPerLong heap value (start + prefixLen) (bytes - prefixLen)
  else checkAligned bitsPerLong heap value start bytes

end Yalibct.MemchrInv
