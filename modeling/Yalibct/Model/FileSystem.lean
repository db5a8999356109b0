import Mathlib.Data.Int.Init
import Yalibct.Machine.Descriptors
import Yalibct.Model.CycleCheck

/-! # File systems

What a file system that nobody changes answers. Descriptors refer to nodes. A path is resolved from a
node on; whether a symbolic link at its end is followed depends on the call.
-/

namespace Yalibct.Fts

open Machine CycleCheck

/-- What `S_ISDIR` and the like tell apart. -/
inductive FileType where
  | directory | regular | symlink | other
deriving DecidableEq

/-- `struct stat`; no type is a mode of zero. -/
structure Stat where
  stDev : ℕ
  stIno : ℕ
  stMode : Option FileType
  stNlink : ℕ
  stSize : ℕ
deriving DecidableEq

def Stat.zero : Stat := ⟨0, 0, none, 0, 0⟩

def Stat.devIno (st : Stat) : DevIno := ⟨st.stDev, st.stIno⟩

/-- `struct dirent`; no type is `DT_UNKNOWN`. -/
structure Dirent where
  dIno : ℕ
  dType : Option FileType
  dName : List UInt8

abbrev Errno := ℕ

namespace Errno

def enoent : Errno := 2
def ebadf : Errno := 9
def enomem : Errno := 12
def enotdir : Errno := 20
def einval : Errno := 22
def enametoolong : Errno := 36

end Errno

structure FileSystem where
  Node : Type
  stat : Node → Stat
  /-- Where a path leads to, or the error. The flag says to follow a symbolic link at its end. -/
  resolve : Node → List UInt8 → Bool → Except Errno Node
  /-- What `readdir` gives, one after the other. -/
  entries : Node → List Dirent

/-- `AT_FDCWD` -/
def atFdcwd : ℤ := -100

/-- The state of the kernel, as far as a process sees it. -/
structure Kernel (Node : Type) where
  /-- The number of requests made so far. -/
  now : ℕ
  cwd : Node
  fds : Descriptors Node
  errno : Errno
  /-- A call named a descriptor that is not open. -/
  stale : Bool

/-- What a descriptor argument refers to. -/
def Kernel.base {Node : Type} (k : Kernel Node) (fd : ℤ) : Option Node :=
  if fd = atFdcwd then some k.cwd else if 0 ≤ fd then k.fds.find fd.toNat else none

/-- A descriptor argument is a number without an open descriptor. -/
def Kernel.names {Node : Type} (k : Kernel Node) (fd : ℤ) : Bool := 0 ≤ fd && (k.fds.find fd.toNat).isNone

end Yalibct.Fts
