import Yalibct.Machine.Malloc
import Yalibct.Model.Printf

/-! # `struct string_buffer`

A buffer starts in the 1024 bytes inside the structure and moves to the heap when it outgrows
them. `sb_appendf` and `sb_appendvf` differ in how they get at the arguments a second time; both
format the same text twice when the first attempt finds too little room.
-/

namespace Yalibct

open Machine

/-- The bytes at `data`, whether these are the `space` inside the structure, and the other fields. -/
structure StringBuffer where
  data : List UInt8
  inSpace : Bool
  length : ℕ
  allocated : ℕ
  error : Bool
deriving DecidableEq

namespace StringBuffer

variable (m : Malloc) (p : Printf)

/-- `sb_init`; the array `space` is uninitialised. -/
def sbInit (space : Vector UInt8 1024) : StringBuffer where
  data := space.toList
  inSpace := true
  length := 0
  allocated := 1024
  error := false

/-- A larger block that holds the used bytes: the first one is copied out of `space`, a later one
is reallocated. -/
def reallocate (b : StringBuffer) (r : Requests) (newAllocated : ℕ) :
    Option (List UInt8) × Requests :=
  if b.inSpace then
    match m.malloc r newAllocated with
    | (some block, r) => (some (overwrite block 0 (b.data.take b.length)), r)
    | (none, r) => (none, r)
  else m.realloc r b.data newAllocated

/-- Make `increment` bytes available beyond the used length; -1 for lack of memory. -/
def sbEnsureMoreBytes (r : Requests) (b : StringBuffer) (increment : ℕ) :
    ℤ × Requests × StringBuffer :=
  let incrementedLength := sizeT (b.length + increment)
  if incrementedLength < increment then (-1, r, b)
  else if b.allocated < incrementedLength then
    let doubled := sizeT (2 * b.allocated)
    if doubled < b.allocated then (-1, r, b)
    else
      let newAllocated := if doubled < incrementedLength then incrementedLength else doubled
      match b.reallocate m r newAllocated with
      | (some block, r) =>
        (0, r, { b with data := block, inSpace := false, allocated := newAllocated })
      | (none, r) => (-1, r, b)
  else (0, r, b)

variable {p}

/-- `vsnprintf (buffer->data + buffer->length, room, format, args)` -/
def printed (b : StringBuffer) (room : ℕ) (format : p.Format) (args : p.Args) : StringBuffer :=
  { b with data := overwrite b.data b.length (p.image format args room) }

/-- The second attempt, once the first returned `ret` and did not fit. The result is `none` when
the code calls `abort`. -/
def appendAgain (r : Requests) (b : StringBuffer) (ret : ℕ) (format : p.Format) (args : p.Args) :
    Option (ℤ × Requests × StringBuffer) :=
  match sbEnsureMoreBytes m r b ret with
  | (code, r, b) =>
    if code < 0 then some (-1, r, { b with error := true })
    else
      let room := b.allocated - b.length
      let b := b.printed room format args
      let ret := p.returns format args
      if ret < 0 then some (-1, r, { b with error := true })
      else if ret.toNat ≤ room then some (0, r, { b with length := b.length + ret.toNat })
      else none

/-- The common body of the two append functions: `args` is the list the first attempt consumes,
`again` the one the second attempt starts from. -/
def append (r : Requests) (b : StringBuffer) (format : p.Format) (args again : p.Args) :
    Option (ℤ × Requests × StringBuffer) :=
  let room := b.allocated - b.length
  match (if room < 64 then sbEnsureMoreBytes m r b 64 else (0, r, b)) with
  | (code, r, b) =>
    if code < 0 then some (-1, r, { b with error := true })
    else
      let room := b.allocated - b.length
      let b := b.printed room format args
      let ret := p.returns format args
      if ret < 0 then some (-1, r, { b with error := true })
      else if ret.toNat ≤ room then some (0, r, { b with length := b.length + ret.toNat })
      else appendAgain m r b ret.toNat format again

/-- `sb_appendvf` keeps a `va_copy` of its list for the second attempt. -/
def sbAppendvf (r : Requests) (b : StringBuffer) (format : p.Format) (list : p.Args) :
    Option (ℤ × Requests × StringBuffer) :=
  let listCopy := list
  append m r b format list listCopy

/-- `sb_appendf` restarts its variable arguments for the second attempt. -/
def sbAppendf (r : Requests) (b : StringBuffer) (format : p.Format) (start : p.Args) :
    Option (ℤ × Requests × StringBuffer) :=
  append m r b format start start

/-- `sb_dupfree`: the block it returns, or `NULL`. -/
def sbDupfree (r : Requests) (b : StringBuffer) : Option (List UInt8) × Requests :=
  if b.error then (none, r)
  else
    match sbEnsureMoreBytes m r b 1 with
    | (code, r, b) =>
      if code < 0 then (none, r)
      else
        let b := { b with data := overwrite b.data b.length [0], length := b.length + 1 }
        if b.inSpace then
          match m.malloc r b.length with
          | (some copy, r) => (some (overwrite copy 0 (b.data.take b.length)), r)
          | (none, r) => (none, r)
        else if b.length < b.allocated then m.realloc r b.data b.length
        else (some b.data, r)

variable (p)

/-- A call of one of the two append functions. -/
inductive Call where
  | appendf (format : p.Format) (args : p.Args)
  | appendvf (format : p.Format) (args : p.Args)

variable {p}

/-- The text that the call formats. -/
def Call.text : Call p → List UInt8
  | .appendf format args => p.text format args
  | .appendvf format args => p.text format args

def Call.run (state : Requests × StringBuffer) : Call p → Option (ℤ × Requests × StringBuffer)
  | .appendf format args => sbAppendf m state.1 state.2 format args
  | .appendvf format args => sbAppendvf m state.1 state.2 format args

/-- A caller that appends in turn and leaves errors to `sb_dupfree`. -/
def appendAll (state : Requests × StringBuffer) (calls : List (Call p)) :
    Option (Requests × StringBuffer) :=
  calls.foldlM (fun state call => (call.run m state).map (·.2)) state

end StringBuffer

end Yalibct
