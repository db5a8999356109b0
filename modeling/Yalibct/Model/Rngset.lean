import Yalibct.Machine.Heap

/-! # `rngset`

A buffer is filled with the words of a seed function, or with those of an internal generator that starts
from a seed. Words are stored with their lowest byte first, as on the machines that the tests run on.
-/

namespace Yalibct.Rngset

open Machine

/-- The pointer into the buffer, the bytes that were stored with their addresses, and how often the seed
function was called. -/
structure Fill where
  p : ℕ
  stores : List (UInt8 × ℕ)
  calls : ℕ
deriving DecidableEq

/-- Store bytes at the pointer, and move it behind them. -/
def Fill.put (s : Fill) (bytes : List UInt8) : Fill where
  p := s.p + bytes.length
  stores := s.stores ++ bytes.zipIdx s.p
  calls := s.calls

/-- The stores to `p[0]` up to `p[7]`. -/
def wordStores (t : UInt64) : List UInt8 :=
  [((0x00000000000000FF &&& t) >>> 0o00).toUInt8,
    ((0x000000000000FF00 &&& t) >>> 0o10).toUInt8,
    ((0x0000000000FF0000 &&& t) >>> 0o20).toUInt8,
    ((0x00000000FF000000 &&& t) >>> 0o30).toUInt8,
    ((0x000000FF00000000 &&& t) >>> 0o40).toUInt8,
    ((0x0000FF0000000000 &&& t) >>> 0o50).toUInt8,
    ((0x00FF000000000000 &&& t) >>> 0o60).toUInt8,
    ((0xFF00000000000000 &&& t) >>> 0o70).toUInt8]

/-- `while (m--)`, which stores the lowest byte and shifts it out. -/
def byteLoop : ℕ → UInt64 → Fill → UInt64 × Fill
  | 0, t, s => (t, s)
  | m + 1, t, s => byteLoop m (t >>> 8) (s.put [t.toUInt8])

/-- `while (m >= 8)`, with the internal generator. -/
def mixLoop : ℕ → UInt64 → Fill → ℕ × UInt64 × Fill
  | m + 8, t, s =>
    let t := t + 0x9e3779b97f4a7c15
    let x := (t ^^^ (t >>> 30)) * 0xbf58476d1ce4e5b9
    let x := (x ^^^ (x >>> 27)) * 0x94d049bb133111eb
    let x := x ^^^ (x >>> 31)
    mixLoop m t (s.put (wordBytes x.toNat))
  | m, t, s => (m, t, s)

/-- `if (seed) t = seed ()`. The seed function is known by what each of its calls returns. -/
def draw (seed : Option (ℕ → UInt64)) (t : UInt64) (s : Fill) : UInt64 × Fill :=
  match seed with
  | some f => (f s.calls, { s with calls := s.calls + 1 })
  | none => (t, s)

/-- `while (n)` -/
def rngLoop (seed : Option (ℕ → UInt64)) (reseed : ℕ) : ℕ → ℕ → UInt64 → Fill → Except Fault Fill
  | 0, _, _, _ => .error .unfinished
  | fuel + 1, n, t, s =>
    if n = 0 then .ok s
    else
      let (t, s) := draw seed t s
      if seed.isNone ∨ 8 < reseed then
        let m := if reseed < n then reseed else n
        let n := n - m
        let (m, t, s) := mixLoop m t s
        let (t, s) := byteLoop m t s
        rngLoop seed reseed fuel n t s
      else if 8 ≤ n then rngLoop seed reseed fuel (n - 8) t (s.put (wordStores t))
      else
        let (t, s) := byteLoop n t s
        rngLoop seed reseed fuel 0 t s

/-- `rngset`, for a buffer at address `b`. -/
def rngset (fuel b n : ℕ) (seed : Option (ℕ → UInt64)) (reseed : ℕ) : Except Fault (ℕ × Fill) := do
  let (t, reseed) :=
    match seed with
    | none => (UInt64.ofNat reseed, 2 ^ 64 - 1)
    | some _ => (0, if reseed < 8 then 8 else reseed)
  let s ← rngLoop seed reseed fuel n t ⟨b, [], 0⟩
  return (b, s)

end Yalibct.Rngset
