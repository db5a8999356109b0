import Yalibct.Machine.Bytes
import Yalibct.Machine.Procedure
import Yalibct.Model.FtsStream

/-! # The system calls of a traversal

A call that fails sets `errno` and returns what its manual says: -1, or nothing.
-/

namespace Yalibct.Fts

open Machine

variable {env : Env}

/-- Count a request, and find out whether it is made to fail. -/
def request : Action env (Option Errno) := do
  let sp ← get
  modify fun sp => { sp with kernel := { sp.kernel with now := sp.kernel.now + 1 } }
  return env.fails sp.kernel.now

def setErrno (errno : Errno) : Action env Unit :=
  modify fun sp => { sp with kernel := { sp.kernel with errno := errno } }

def getErrno : Action env Errno := return (← get).kernel.errno

/-- Use a descriptor argument. -/
def use (fd : ℤ) : Action env (Option env.fs.Node) := do
  modify fun sp => { sp with kernel := { sp.kernel with stale := sp.kernel.stale || sp.kernel.names fd } }
  return (← get).kernel.base fd

/-- Fail with -1. -/
def failed (errno : Errno) : Action env ℤ := do
  setErrno errno
  return -1

/-- A new descriptor. -/
def install (node : env.fs.Node) : Action env ℤ := do
  let k := (← get).kernel
  let fd := env.numbering.pick k.now k.fds.numbers
  modify fun sp => { sp with kernel := { sp.kernel with fds := k.fds.insert fd node } }
  return fd

/-- `openat`, of a directory. -/
def openat (fd : ℤ) (path : List UInt8) (follow : Bool) : Action env ℤ := do
  match ← request with
  | some errno => failed errno
  | none =>
    match ← use fd with
    | none => failed .ebadf
    | some dir =>
      match env.fs.resolve dir path follow with
      | .error errno => failed errno
      | .ok node => if (env.fs.stat node).stMode = some .directory then install node else failed .enotdir

/-- `fcntl (fd, F_DUPFD_CLOEXEC, STDERR_FILENO + 1)` -/
def dupfd (fd : ℤ) : Action env ℤ := do
  match ← request with
  | some errno => failed errno
  | none =>
    if fd < 0 then failed .ebadf
    else
      match ← use fd with
      | none => failed .ebadf
      | some node => install node

/-- `close`, whose failures nobody looks at but `fts_close`. -/
def close (fd : ℤ) : Action env ℤ := do
  if fd < 0 then failed .ebadf
  else
    match ← use fd with
    | none => failed .ebadf
    | some _ =>
      modify fun sp => { sp with kernel := { sp.kernel with fds := sp.kernel.fds.close fd.toNat } }
      match ← request with
      | some errno => failed errno
      | none => return 0

/-- `fstat` -/
def fstat (fd : ℤ) : Action env (Option Stat) := do
  match ← request with
  | some errno =>
    setErrno errno
    return none
  | none =>
    match ← (if fd < 0 then pure none else use fd) with
    | none =>
      setErrno .ebadf
      return none
    | some node => return env.fs.stat node

/-- `fstatat` -/
def fstatat (fd : ℤ) (path : List UInt8) (follow : Bool) : Action env (Option Stat) := do
  match ← request with
  | some errno =>
    setErrno errno
    return none
  | none =>
    match ← use fd with
    | none =>
      setErrno .ebadf
      return none
    | some dir =>
      match env.fs.resolve dir path follow with
      | .error errno =>
        setErrno errno
        return none
      | .ok node => return env.fs.stat node

/-- `fchdir`, which returns whether it fails. -/
def fchdir (fd : ℤ) : Action env Bool := do
  match ← request with
  | some errno =>
    setErrno errno
    return true
  | none =>
    match ← (if fd < 0 then pure none else use fd) with
    | none =>
      setErrno .ebadf
      return true
    | some node =>
      modify fun sp => { sp with kernel := { sp.kernel with cwd := node } }
      return false

/-- `fdopendir` -/
def fdopendir (fd : ℤ) : Action env (Option Dir) := do
  match ← request with
  | some errno =>
    setErrno errno
    return none
  | none =>
    match ← use fd with
    | none =>
      setErrno .ebadf
      return none
    | some node => return some ⟨fd.toNat, env.fs.entries node⟩

/-- `opendirat`. A failure of `close` does not show. -/
def opendirat (fd : ℤ) (dir : List UInt8) (follow : Bool) : Action env (Option Dir) := do
  let newFd ← openat fd dir follow
  if newFd < 0 then return none
  else
    match ← fdopendir newFd with
    | some dirp => return some dirp
    | none =>
      let errno ← getErrno
      let _ ← close newFd
      setErrno errno
      return none

/-- `dirfd` -/
def dirfd (dirp : Dir) : Action env ℤ := do
  match ← request with
  | some errno => failed errno
  | none => return dirp.fd

/-- `closedir` -/
def closedir (dirp : Dir) : Action env Unit := do
  let _ ← close dirp.fd

/-- A request for memory. -/
def allocated : Action env Bool := do
  match ← request with
  | some errno =>
    setErrno errno
    return false
  | none => return true

/-- A request for so many bytes of memory. No object is larger than `PTRDIFF_MAX`. -/
def granted (size : ℕ) : Action env Bool := do
  let got ← allocated
  if ptrdiffMax < size then
    setErrno .enomem
    return false
  else return got

end Yalibct.Fts
