import Mathlib.Data.Fin.Basic
import Mathlib.Data.Int.Init
import Mathlib.Logic.Function.Basic

/-! # `I_ring`

Indices are taken modulo the size, so that they are numbers below it. What is not defined holds the
default value.
-/

namespace Yalibct

/-- `struct I_ring`, for `I_RING_SIZE` 4. -/
structure IRing where
  irData : Fin 4 → ℤ
  irDefaultVal : ℤ
  irFront : Fin 4
  irBack : Fin 4
  irEmpty : Bool

namespace IRing

/-- `i_ring_init` -/
def init (defaultVal : ℤ) : IRing where
  irData _ := defaultVal
  irDefaultVal := defaultVal
  irFront := 0
  irBack := 0
  irEmpty := true

/-- `!ir->ir_empty`, as an increment. -/
def step (ir : IRing) : Fin 4 := if ir.irEmpty then 0 else 1

/-- `i_ring_push`, with the value that is displaced. -/
def push (ir : IRing) (val : ℤ) : ℤ × IRing :=
  let destIdx := ir.irFront + ir.step
  (ir.irData destIdx,
    { ir with
      irData := Function.update ir.irData destIdx val
      irFront := destIdx
      irBack := if destIdx = ir.irBack then ir.irBack + ir.step else ir.irBack
      irEmpty := false })

/-- `i_ring_pop`; nothing when the ring is empty, where the code calls `abort`. -/
def pop (ir : IRing) : Option (ℤ × IRing) :=
  if ir.irEmpty then none
  else
    let cleared := { ir with irData := Function.update ir.irData ir.irFront ir.irDefaultVal }
    some (ir.irData ir.irFront,
      if ir.irFront = ir.irBack then { cleared with irEmpty := true }
      else { cleared with irFront := ir.irFront - 1 })

end IRing

end Yalibct
