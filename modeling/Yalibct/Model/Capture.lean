import Mathlib.Logic.Function.Basic
import Yalibct.Machine.Run
import Yalibct.Model.StringBuffer

/-! # `support_capture_subprocess`

The child writes to two pipes. The parent polls both, reads what there is, and stores it in one
stream for each pipe. A stream is made by `open_memstream`, or is a string buffer where the C library
has no such function. Child and parent take their steps in any order.
-/

namespace Yalibct

open Machine StringBuffer

namespace Capture

/-- The format `"%c"`, whose argument is a byte. -/
def char : Printf where
  Format := Unit
  Args := UInt8
  text _ c := [c]
  rest _ c := c

/-- `struct xmemstream_or_string_buffer`; of a memory stream, what was written to it. -/
inductive XmemstreamOrStringBuffer where
  | xmemstream (written : List UInt8)
  | stringBuffer (requests : Requests) (stringBuf : StringBuffer)

/-- What closing a stream leaves in `buffer` and `length`. -/
structure Captured where
  buffer : Option (List UInt8)
  length : ℕ
deriving DecidableEq

namespace XmemstreamOrStringBuffer

/-- `xmemstream_or_string_buffer_init`; a string buffer gets the bytes of its `space`. -/
def init : Option (Vector UInt8 1024) → XmemstreamOrStringBuffer
  | none => .xmemstream []
  | some space => .stringBuffer .none (sbInit space)

variable (m : Malloc)

/-- `xmemstream_or_string_buffer_putc_unlocked`; nothing when the code calls `abort`. -/
def putcUnlocked (c : UInt8) : XmemstreamOrStringBuffer → Option XmemstreamOrStringBuffer
  | .xmemstream written => some (.xmemstream (written ++ [c]))
  | .stringBuffer r b => (@sbAppendf m char r b () c).map fun x => .stringBuffer x.2.1 x.2.2

/-- `string_buf.error` -/
def error : XmemstreamOrStringBuffer → Bool
  | .xmemstream _ => false
  | .stringBuffer _ b => b.error

/-- The loop over the bytes of one member. -/
def fwriteLoop : List UInt8 → XmemstreamOrStringBuffer → Option (ℕ × XmemstreamOrStringBuffer)
  | [], self => some (1, self)
  | c :: rest, self =>
    match putcUnlocked m c self with
    | none => none
    | some self => if self.error then some (0, self) else fwriteLoop rest self

/-- `xmemstream_or_string_buffer_fwrite (bytes, size, 1, self)` -/
def fwrite (bytes : List UInt8) : XmemstreamOrStringBuffer → Option (ℕ × XmemstreamOrStringBuffer)
  | .xmemstream written => some (1, .xmemstream (written ++ bytes))
  | .stringBuffer r b => if bytes = [] then some (0, .stringBuffer r b) else fwriteLoop m bytes (.stringBuffer r b)

/-- `xmemstream_or_string_buffer_xfclose` -/
def xfclose : XmemstreamOrStringBuffer → Captured × XmemstreamOrStringBuffer
  | .xmemstream written => (⟨some (written ++ [0]), written.length⟩, .xmemstream written)
  | .stringBuffer r b =>
    let (string, r) := sbDupfree m r b
    (⟨string, b.length⟩, .stringBuffer r b)

/-- A request for memory was refused. -/
def refused : XmemstreamOrStringBuffer → Bool
  | .xmemstream _ => false
  | .stringBuffer r _ => r.refused

end XmemstreamOrStringBuffer

/-! ## Pipes -/

inductive Fd where
  | out | err
deriving DecidableEq

/-- What was written and not yet read, and whether the writer is gone. -/
structure Pipe where
  pending : List UInt8
  closed : Bool

/-- Where `support_capture_poll` is. -/
inductive Pc where
  | poll
  | transfer (fd : Fd)
  | test
  | done
deriving DecidableEq

/-- The statement after a transfer. -/
def Fd.next : Fd → Pc
  | .out => .transfer .err
  | .err => .test

structure State where
  pipes : Fd → Pipe
  /-- `events` is not zero. -/
  events : Fd → Bool
  /-- `revents` is not zero. -/
  revents : Fd → Bool
  streams : Fd → XmemstreamOrStringBuffer
  /-- `support_record_failure` was called. -/
  failed : Bool
  results : Fd → Option Captured
  pc : Pc

/-- The state before the loop; the spaces are those of string buffers, if the streams are such. -/
def start (spaces : Option (Fd → Vector UInt8 1024)) : State where
  pipes _ := ⟨[], false⟩
  events _ := true
  revents _ := false
  streams fd := .init (spaces.map (· fd))
  failed := false
  results _ := none
  pc := .poll

/-- What `poll` may report: bytes, if they are listened for, or a hang-up. -/
def State.Ready (s : State) (fd : Fd) : Prop :=
  s.events fd = true ∧ (s.pipes fd).pending ≠ [] ∨ (s.pipes fd).closed = true

inductive Event where
  /-- The child writes, or closes its end. -/
  | write (fd : Fd) (bytes : List UInt8)
  | close (fd : Fd)
  | poll
  /-- There is nothing to transfer. -/
  | idle (fd : Fd)
  /-- `read` fails with `EINTR`, returns bytes, returns zero, or fails otherwise. -/
  | interrupted (fd : Fd)
  | chunk (fd : Fd) (bytes : List UInt8)
  | eof (fd : Fd)
  | error (fd : Fd)
  /-- The loop goes on, or ends. -/
  | again
  | stop
deriving DecidableEq

open Function in
/-- The steps of the child and of `support_capture_poll`. -/
inductive Step (m : Fd → Malloc) : State → Event → State → Prop
  | write {s : State} {fd : Fd} (bytes : List UInt8) (live : (s.pipes fd).closed = false) :
      Step m s (.write fd bytes)
        { s with pipes := update s.pipes fd ⟨(s.pipes fd).pending ++ bytes, false⟩ }
  | close {s : State} {fd : Fd} (live : (s.pipes fd).closed = false) :
      Step m s (.close fd) { s with pipes := update s.pipes fd ⟨(s.pipes fd).pending, true⟩ }
  | poll {s : State} (here : s.pc = .poll) (reported : Fd → Bool) (sound : ∀ fd, reported fd = true → s.Ready fd)
      (some : ∃ fd, reported fd = true) :
      Step m s .poll { s with revents := reported, pc := .transfer .out }
  | idle {s : State} {fd : Fd} (here : s.pc = .transfer fd) (none : s.revents fd = false) :
      Step m s (.idle fd) { s with pc := fd.next }
  | interrupted {s : State} {fd : Fd} (here : s.pc = .transfer fd) (reported : s.revents fd = true) :
      Step m s (.interrupted fd) s
  | chunk {s : State} {fd : Fd} {bytes rest : List UInt8} {members : ℕ} {stream : XmemstreamOrStringBuffer}
      (here : s.pc = .transfer fd) (reported : s.revents fd = true)
      (available : (s.pipes fd).pending = bytes ++ rest) (nonempty : bytes ≠ []) (fits : bytes.length ≤ 1024)
      (written : (s.streams fd).fwrite (m fd) bytes = .some (members, stream)) :
      Step m s (.chunk fd bytes) { s with
        pipes := update s.pipes fd { s.pipes fd with pending := rest }
        streams := update s.streams fd stream
        failed := s.failed || members != 1
        pc := fd.next }
  | eof {s : State} {fd : Fd} (here : s.pc = .transfer fd) (reported : s.revents fd = true)
      (closed : s.pipes fd = ⟨[], true⟩) :
      Step m s (.eof fd) { s with
        events := update s.events fd false
        revents := update s.revents fd false
        pc := fd.next }
  | error {s : State} {fd : Fd} (here : s.pc = .transfer fd) (reported : s.revents fd = true) :
      Step m s (.error fd) { s with
        events := update s.events fd false
        revents := update s.revents fd false
        failed := true
        pc := fd.next }
  | again {s : State} {fd : Fd} (here : s.pc = .test) (listening : s.events fd = true) :
      Step m s .again { s with pc := .poll }
  | stop {s : State} (here : s.pc = .test) (none : ∀ fd, s.events fd = false) :
      Step m s .stop { s with
        results fd := .some ((s.streams fd).xfclose (m fd)).1
        streams fd := ((s.streams fd).xfclose (m fd)).2
        pc := .done }

/-- The capture of a child, step by step. The requests of each stream are numbered on their own. -/
def capture (m : Fd → Malloc) : System where
  State := State
  Event := Event
  Step := Step m

/-- All that the child wrote to one pipe. -/
def written (fd : Fd) : List Event → List UInt8
  | [] => []
  | .write fd' bytes :: es => if fd' = fd then bytes ++ written fd es else written fd es
  | _ :: es => written fd es

end Capture

end Yalibct
