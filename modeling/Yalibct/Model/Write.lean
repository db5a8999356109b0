import Mathlib.Data.Int.Notation
import Mathlib.Data.List.Basic
import Yalibct.Machine.Bytes

/-! # `safe_write` and `full_write`

The descriptor answers each `write` in turn: it accepts some of the bytes it is given, or fails
with an errno. `safe_write` retries one transfer, `full_write` transfers until the buffer is
through. A run is `none` while the descriptor still owes an answer.
-/

namespace Yalibct

open Machine

inductive Errno where
  | EINTR
  | EINVAL
  | ENOSPC
  | ENOMEM
  | EOVERFLOW
  | other (code : ℕ)
deriving DecidableEq

/-- An answer to `write`: at most `count` bytes are accepted, or the call fails. -/
inductive WriteOutcome where
  | accept (count : ℕ)
  | fail (errno : Errno)
deriving DecidableEq

/-- `INT_MAX >> 20 << 20` -/
def sysBufsizeMax : ℕ := intMax / 2 ^ 20 * 2 ^ 20

/-- A call of `write`: the bytes it offers, and the answer. -/
structure WriteCall where
  offered : List UInt8
  outcome : WriteOutcome
deriving DecidableEq

/-- The bytes that the descriptor takes in a call. -/
def WriteCall.accepted (call : WriteCall) : List UInt8 :=
  match call.outcome with
  | .accept count => call.offered.take count
  | .fail _ => []

/-- Returned value, the calls of `write` in their order, errno, and the answers not used yet. -/
structure Transfer where
  result : ℤ
  calls : List WriteCall
  errno : Errno
  rest : List WriteOutcome
deriving DecidableEq

namespace Transfer

/-- The bytes that the descriptor took. -/
def written (t : Transfer) : List UInt8 := t.calls.flatMap WriteCall.accepted

/-- The answers that were used. -/
def used (t : Transfer) : List WriteOutcome := t.calls.map WriteCall.outcome

/-- A transfer with other calls before it. -/
def after (t : Transfer) (earlier : List WriteCall) : Transfer := { t with calls := earlier ++ t.calls }

end Transfer

/-- `safe_write`: one successful `write`, however often it is interrupted. A request that is too
long for the system is cut. -/
def safeWrite (errno : Errno) : List WriteOutcome → List UInt8 → Option Transfer
  | [], _ => none
  | .accept count :: rest, buf => some ⟨min count buf.length, [⟨buf, .accept count⟩], errno, rest⟩
  | .fail e :: rest, buf =>
    if e = .EINTR then (safeWrite e rest buf).map (·.after [⟨buf, .fail e⟩])
    else if e = .EINVAL ∧ sysBufsizeMax < buf.length then
      (safeWrite e rest (buf.take sysBufsizeMax)).map (·.after [⟨buf, .fail e⟩])
    else some ⟨-1, [⟨buf, .fail e⟩], e, rest⟩

/-- `full_write`: `result` is the total. -/
def fullWrite (errno : Errno) (outcomes : List WriteOutcome) (buf : List UInt8) : Option Transfer :=
  if buf = [] then some ⟨0, [], errno, outcomes⟩
  else
    match safeWrite errno outcomes buf with
    | none => none
    | some t =>
      if t.result < 0 then some { t with result := 0 }
      else if t.result = 0 then some { t with errno := .ENOSPC }
      else
        (fullWrite t.errno t.rest (buf.drop t.result.toNat)).map fun u =>
          { u.after t.calls with result := t.result + u.result }
termination_by buf.length
decreasing_by
  have positive := List.length_pos_iff.mpr (by assumption : buf ≠ [])
  rw [List.length_drop]
  omega

/-- Answers that are short writes and interruptions only. -/
def Progress (outcomes : List WriteOutcome) : Prop :=
  ∀ outcome ∈ outcomes, outcome = .fail .EINTR ∨ ∃ count, outcome = .accept (count + 1)

/-- How many of the answers are no interruptions: those that accept something, where there are no errors. -/
def accepts (outcomes : List WriteOutcome) : ℕ :=
  outcomes.countP fun outcome => decide (outcome ≠ .fail .EINTR)

end Yalibct
