import Yalibct.Model.Vasnprintf
import Yalibct.Model.Write

/-! # `vdprintf` and `dprintf`

The text is formatted into a buffer of 2000 bytes on the stack, or on the heap when it is longer,
and as many bytes as `vasnprintf` reports are written to the descriptor.
-/

namespace Yalibct

open Machine

/-- The returned value and the bytes that reached the descriptor. -/
structure Printed where
  ret : ℤ
  written : List UInt8
deriving DecidableEq

def vdprintf (m : Malloc) (p : Printf) (r : Requests) (buf : Vector UInt8 2000)
    (outcomes : List WriteOutcome) (errno : Errno) (format : p.Format) (args : p.Args) :
    Except Stop Printed := do
  let (v, _) ← vasnprintf m p r (some 2000) format args
  let len := v.length
  let write (output : List UInt8) : Except Stop Printed :=
    match fullWrite errno outcomes (output.take len) with
    | none => .error .pending
    | some t =>
      if t.result < len then .ok ⟨-1, t.written⟩
      else if intMax < len then .ok ⟨-1, t.written⟩
      else .ok ⟨len, t.written⟩
  match v.returned with
  | .null => .ok ⟨-1, []⟩
  | .caller => write (overwrite buf.toList 0 v.stored)
  | .block bytes => write bytes

/-- `dprintf` starts its argument list and hands it on. -/
def dprintf (m : Malloc) (p : Printf) (r : Requests) (buf : Vector UInt8 2000)
    (outcomes : List WriteOutcome) (errno : Errno) (format : p.Format) (arguments : p.Args) :
    Except Stop Printed :=
  vdprintf m p r buf outcomes errno format arguments

/-- Exactly the bytes of the text, and its length. -/
def Printed.Exact (printed : Printed) (text : List UInt8) : Prop :=
  printed.written = text ∧ printed.ret = text.length

end Yalibct
