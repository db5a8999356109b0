import Yalibct.Machine.Cells
import Yalibct.Machine.Malloc
import Yalibct.Model.Printf

/-! # Error messages of cmocka

While messages are collected, each one is formatted and appended to one string on the heap. A message that
does not fit into a buffer on the stack is formatted a second time, into the string.
-/

namespace Yalibct.Cmocka

open Machine

/-- The block at `cm_error_message`, if that is not `NULL`, and what was printed to `stderr`. -/
structure State where
  requests : Requests
  cmErrorMessage : Option (List UInt8)
  stderr : List UInt8
deriving DecidableEq

/-- `strlen`, from an offset of a block on. -/
def strlen (block : List UInt8) (offset : ℕ) : Except Fault ℕ :=
  let length := ((block.drop offset).takeWhile (· ≠ 0)).length
  if offset + length < block.length then .ok length else .error .outOfBounds

variable (m : Malloc) (p : Printf)

def libcCalloc (r : Requests) (nmemb size : ℕ) : Option (List UInt8) × Requests :=
  match m.malloc r (nmemb * size) with
  | (some block, r) => (some (List.replicate block.length 0), r)
  | (none, r) => (none, r)

def libcRealloc (r : Requests) (ptr : List UInt8) (size : ℕ) : Option (List UInt8) × Requests := m.realloc r ptr size

/-- The arguments of a call. What the buffer on the stack holds is arbitrary, and C leaves open which operand of
`==` is evaluated first. -/
structure Call where
  format : p.Format
  args : p.Args
  stack : Vector UInt8 4096
  leftFirst : Bool

variable {p}

/-- The text that the call formats. -/
def Call.text (call : Call p) : List UInt8 := p.text call.format call.args

/-- `assert (vsnprintf (block + offset, room, format, args) == strlen (block + offset))` -/
def assertPrinted (call : Call p) (block : List UInt8) (offset room : ℕ) : Except Fault (List UInt8) := do
  let printed ← putRun block offset (p.image call.format call.args room)
  let length ← strlen (if call.leftFirst then printed else block) offset
  if p.returns call.format call.args = length then .ok printed else .error .aborted

/-- Store the message behind the first `msgLen` bytes of the string. -/
def storeMessage (call : Call p) (buffer : List UInt8) (len : ℕ) (message : List UInt8) (msgLen : ℕ) :
    Except Fault (List UInt8) :=
  if len < 1024 then do
    let copied ← loadRun buffer 0 (len + 1)
    putRun message msgLen copied
  else assertPrinted call message msgLen len

def vcmockaPrintError (call : Call p) (s : State) : Except Fault State :=
  let buffer := overwrite (call.stack.toList.take 1024) 0 (p.image call.format call.args 1024)
  let len := p.returns call.format call.args
  if len < 0 then .ok s
  else
    let len := len.toNat
    match s.cmErrorMessage with
    | none =>
      -- The sum is one of `int`.
      if len = intMax then .error .undefined
      else
        match libcCalloc m s.requests 1 (len + 1) with
        | (none, r) => .ok { s with requests := r }
        | (some message, r) => do
          let message ← storeMessage call buffer len message 0
          .ok { s with requests := r, cmErrorMessage := some message }
    | some message => do
      let msgLen ← strlen message 0
      match libcRealloc m s.requests message (sizeT (msgLen + len + 1)) with
      | (none, r) => .ok { s with requests := r }
      | (some tmp, r) => do
        let message ← storeMessage call buffer len tmp msgLen
        .ok { s with requests := r, cmErrorMessage := some message }

/-- `vprint_error`, for a stream that takes what is printed to it. -/
def vprintError (call : Call p) (s : State) : Except Fault State := do
  let buffer ← assertPrinted call call.stack.toList 0 4096
  .ok { s with stderr := s.stderr ++ buffer.takeWhile (· ≠ 0) }

def cmockaPrintError (cmErrorMessageEnabled : Bool) (call : Call p) (s : State) : Except Fault State :=
  if cmErrorMessageEnabled then vcmockaPrintError m call s else vprintError call s

/-- Messages that are printed one after the other. -/
def printAll (calls : List (Call p)) (s : State) : Except Fault State :=
  calls.foldlM (fun s call => cmockaPrintError m true call s) s

end Yalibct.Cmocka
