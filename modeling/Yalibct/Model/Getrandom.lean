import Mathlib.Logic.Function.Basic
import Yalibct.Machine.Descriptors
import Yalibct.Machine.Run
import Yalibct.Model.Write

/-! # `getrandom`

Random bytes are read from a device. Its descriptor is kept from the first call that needs it, in a
static variable for each device.
-/

namespace Yalibct.Getrandom

open Machine

def enoent : Errno := .other 2
def enotdir : Errno := .other 20
def enosys : Errno := .other 38

/-- `GRND_NONBLOCK` and `GRND_RANDOM` -/
def grndNonblock : UInt32 := 1
def grndRandom : UInt32 := 2

/-- The devices, as they index `randfd` and `randdevice`. -/
inductive Device where
  | nonce
  | random
deriving DecidableEq

/-- `devrandom` -/
def devrandom (flags : UInt32) : Device := if flags &&& grndRandom ≠ 0 then .random else .nonce

/-- `randdevice` -/
def randdevice : Device → List Char
  | .nonce => "/dev/urandom".toList
  | .random => "/dev/random".toList

/-- Whether the flags of `open` that are not always there contain `O_NONBLOCK`. -/
def oNonblock (flags : UInt32) : Bool := flags &&& grndNonblock ≠ 0

/-- What a descriptor was opened on, and whether with `O_NONBLOCK`. -/
structure Opened where
  name : List Char
  nonblock : Bool
deriving DecidableEq

/-- The static variable, and the open descriptors. -/
structure State where
  randfd : Device → ℤ
  fds : Descriptors Opened

/-- A call: its flags, what `open` gives if it is called, and what `read` returns with `errno`. -/
structure Call where
  flags : UInt32
  opening : Except Errno ℕ
  reading : ℤ × Errno

/-- The value a call returns with `errno`, the descriptor that it reads from, and what that was opened on. -/
structure Answer where
  ret : ℤ
  errno : Errno
  reads : Option ℤ
  source : Option Opened
deriving DecidableEq

/-- `read (fd, buffer, length)` -/
def readFrom (call : Call) (s : State) (fd : ℤ) : Answer :=
  ⟨call.reading.1, call.reading.2, some fd, s.fds.find fd.toNat⟩

def getrandom (call : Call) (s : State) : Answer × State :=
  let device := devrandom call.flags
  let fd := s.randfd device
  if fd < 0 then
    match call.opening with
    | .error errno => (⟨-1, if errno = enoent ∨ errno = enotdir then enosys else errno, none, none⟩, s)
    | .ok fd =>
      let s : State := ⟨Function.update s.randfd device fd, s.fds.insert fd ⟨randdevice device, oNonblock call.flags⟩⟩
      (readFrom call s fd, s)
  else (readFrom call s fd, s)

/-- Before the first call. -/
def start (fds : Descriptors Opened) : State := ⟨fun _ => -1, fds⟩

/-- Sequences of calls; a new descriptor has a number that is not in use. -/
def calls : System where
  State := State
  Event := Call × Answer
  Step s e t := (∀ fd, e.1.opening = .ok fd → fd ∉ s.fds.numbers) ∧ getrandom e.1 s = (e.2, t)

end Yalibct.Getrandom
