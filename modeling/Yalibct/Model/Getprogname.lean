import Mathlib.Data.Nat.Digits.Defs
import Yalibct.Machine.Cells
import Yalibct.Machine.Comparison
import Yalibct.Machine.Descriptors
import Yalibct.Model.Gvisor

/-! # `getprogname`

The name of the program is taken from the command line of its process, as `/proc` has it.
-/

namespace Yalibct.Getprogname

open Machine

/-- `PATH_MAX` -/
def pathMax : ℕ := 4096

def procDir : List UInt8 := [47, 112, 114, 111, 99, 47]
def cmdline : List UInt8 := [47, 99, 109, 100, 108, 105, 110, 101]

/-- `"/proc/%d/cmdline"`, for a positive process id. -/
def cmdlinePath (pid : ℕ) : List UInt8 :=
  procDir ++ (Nat.digits 10 pid).reverse.map (fun digit => UInt8.ofNat (48 + digit)) ++ cmdline

/-- `"?"` -/
def unknown : List UInt8 := [63]

/-- What the calls of the system give: a new descriptor; the bytes that are read, of which no more are
stored than were asked for; and whether memory is granted. -/
structure Outcomes where
  opening : Option ℕ
  reading : Option (List UInt8)
  granted : Bool

/-- The name that is returned, and the open descriptors. -/
structure Named where
  name : List UInt8
  fds : Descriptors (List UInt8)
deriving DecidableEq

/-- `n`, and the buffer after `read`. -/
def readInto (buf : List UInt8) : Option (List UInt8) → Except Fault (ℕ × List UInt8)
  -- The result -1 is converted to `size_t`.
  | none => .ok (2 ^ 64 - 1, buf)
  | some data => do
    let data := data.take (buf.length - 1)
    let buf ← putRun buf 0 data
    .ok (data.length, buf)

/-- The string at the beginning of the buffer. -/
def stringOf (buf : List UInt8) : Except Fault (List UInt8) :=
  if 0 ∈ buf then .ok (text 0 buf) else .error .outOfBounds

/-- `progname` -/
def afterSlash (string : List UInt8) : List UInt8 :=
  match Gvisor.strrchr slash string with
  | some pos => string.drop (pos + 1)
  | none => string

/-- `getprogname`, where the local buffer first holds anything. -/
def getprogname (pid : ℕ) (o : Outcomes) (buf : List UInt8) (fds : Descriptors (List UInt8)) : Except Fault Named := do
  let buf ← putRun buf 0 (cmdlinePath pid ++ [0])
  let path ← stringOf buf
  match o.opening with
  | none => .ok ⟨unknown, fds⟩
  | some fd =>
    let fds := fds.insert fd path
    let (n, buf) ← readInto buf o.reading
    if 0 < n then
      let buf ← put buf n 0
      let string ← stringOf buf
      if o.granted then .ok ⟨afterSlash string, fds⟩ else .ok ⟨unknown, fds.close fd⟩
    else .ok ⟨unknown, fds.close fd⟩

end Yalibct.Getprogname
