import Yalibct.Machine.CString
import Yalibct.Machine.Heap
import Yalibct.Model.Write

/-! # The helpers of the gVisor tests

Files are read and written whole, one system call after the other, and paths are joined and split. A
transfer is `none` while the descriptor still owes an answer.
-/

namespace Yalibct.Gvisor

open Machine

/-! ## Reading and writing -/

/-- A call of `f`: from the state behind `callback_data`, the bytes that are completed and the answer of
the descriptor, the returned value, what it sets `errno` to, and the next state. -/
abbrev Callback (σ : Type) := σ → ℕ → WriteOutcome → ℤ × Option Errno × σ

/-- The returned value, `errno` if it is not zero, the state and the answers not used yet. -/
structure IoResult (σ : Type) where
  ret : ℤ
  errno : Option Errno
  state : σ
  rest : List WriteOutcome

variable {σ : Type}

/-- `RetryEINTR`; `errno` is zero before each call. -/
def retryEINTR (f : Callback σ) (completed : ℕ) : List WriteOutcome → σ → Option (IoResult σ)
  | [], _ => none
  | outcome :: rest, state =>
    let (cur, errno, state) := f state completed outcome
    -- The failure of a system call is `-1`, but `1` is what the macro compares with.
    if cur ≠ 1 ∨ errno ≠ some .EINTR then some ⟨cur, errno, state, rest⟩
    else retryEINTR f completed rest state

private theorem length_rest_lt {f : Callback σ} {completed : ℕ} {outcomes : List WriteOutcome} {state : σ}
    {r : IoResult σ}
    (call : retryEINTR f completed outcomes state = some r) : r.rest.length < outcomes.length := by
  induction outcomes generalizing state with
  | nil => cases call
  | cons outcome rest ih =>
    unfold retryEINTR at call
    dsimp only at call
    split at call
    · cases call
      exact Nat.lt_succ_self _
    · exact Nat.lt_succ_of_lt (ih call)

/-- `internal_ApplyFileIoSyscall`, from its `do` on. -/
def applyFileIoSyscall (f : Callback σ) (count completed : ℕ) (outcomes : List WriteOutcome) (state : σ) :
    Option (IoResult σ) :=
  match _call : retryEINTR f completed outcomes state with
  | none => none
  | some r =>
    if r.ret < 0 then some r
    else if r.ret = 0 then some { r with ret := completed }
    else if completed + r.ret.toNat < count then
      applyFileIoSyscall f count (completed + r.ret.toNat) r.rest r.state
    else some { r with ret := (completed + r.ret.toNat : ℕ) }
termination_by outcomes.length
decreasing_by exact length_rest_lt _call

/-- `WriteFd_internal_lambda`; the state is what the file has got. -/
def writeFdLambda (buf : List UInt8) : Callback (List UInt8)
  | file, completed, .accept count =>
    let taken := min count (buf.length - completed)
    (taken, none, file ++ (buf.drop completed).take taken)
  | file, _, .fail errno => (-1, some errno, file)

/-- `WriteFd` -/
def writeFd (outcomes : List WriteOutcome) (file buf : List UInt8) : Option (IoResult (List UInt8)) :=
  applyFileIoSyscall (writeFdLambda buf) buf.length 0 outcomes file

/-- `ReadFd_internal_lambda`; the state is what is left of the file, and the buffer. An answer gives no more
bytes than are left. -/
def readFdLambda (count : ℕ) : Callback (List UInt8 × List UInt8)
  | (file, buf), completed, .accept offered =>
    let taken := min (min offered (count - completed)) file.length
    (taken, none, file.drop taken, overwrite buf completed (file.take taken))
  | state, _, .fail errno => (-1, some errno, state)

/-- `ReadFd` -/
def readFd (outcomes : List WriteOutcome) (file buf : List UInt8) : Option (IoResult (List UInt8 × List UInt8)) :=
  applyFileIoSyscall (readFdLambda buf.length) buf.length 0 outcomes (file, buf)

/-! ## Paths -/

/-- `"/"` -/
def root : CString := ⟨[slash], by decide, by decide⟩

/-- `asprintf` of one string after the other, with the assertion that it succeeds. It fails where the text
is longer than `INT_MAX`. -/
def asprintf (strings : List CString) : Except Fault CString :=
  if short : (strings.flatMap (·.bytes)).length ≤ intMax then
    .ok {
      bytes := strings.flatMap (·.bytes)
      noNul member :=
        have ⟨s, _, nul⟩ := List.mem_flatMap.mp member
        s.noNul nul
      bound := Nat.lt_of_le_of_lt short (by decide) }
  else .error .aborted

/-- `strdup` -/
def strdup : Option CString → Except Fault CString
  | none => .error .outOfBounds
  | some s => .ok s

/-- `JoinPath` -/
def joinPath (path1 path2 : Option CString) : Except Fault CString :=
  match path1 with
  | none => strdup path2
  | some path1 =>
    if path1.bytes = [] then strdup path2
    else match path2 with
      | none => strdup (some path1)
      | some path2 =>
        if path2.bytes = [] then strdup (some path1)
        else if path1.bytes.getLast? = some slash then
          if path2.bytes.head? = some slash then asprintf [path1, path2.drop 1]
          else asprintf [path1, path2]
        else if path2.bytes.head? ≠ some slash then asprintf [path1, root, path2]
        else asprintf [path1, path2]

/-- `strrchr`, as an offset. -/
def strrchr (c : UInt8) : List UInt8 → Option ℕ
  | [] => none
  | byte :: bytes =>
    match strrchr c bytes with
    | some pos => some (pos + 1)
    | none => if byte = c then some 0 else none

/-- `SplitPath` -/
def splitPath (path : CString) : Option CString × CString :=
  match strrchr slash path.bytes with
  | none => (none, path)
  | some 0 => (some root, path.drop 1)
  | some pos => (some (path.take pos), if path.length < pos + 1 then .empty else path.drop (pos + 1))

end Yalibct.Gvisor
