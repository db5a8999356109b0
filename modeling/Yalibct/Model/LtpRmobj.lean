import Yalibct.Machine.CString
import Yalibct.Machine.Heap
import Yalibct.Machine.Procedure
import Yalibct.Model.Getprogname

/-! # Removal of a directory tree by the harness of the Linux Test Project

`rmobj` removes a file, and a directory with all that is in it. A path is the names that lead to it from the
object of the first call. No other process changes the tree meanwhile, so a call is made at most once for a path
and what may go wrong with it can be fixed in advance.
-/

namespace Yalibct.Ltp.Rmobj

open Machine Getprogname

abbrev Name := List UInt8

abbrev Path := List Name

/-- `"."` -/
def dot : Name := [46]

/-- `".."` -/
def dotDot : Name := [46, 46]

inductive Kind where
  | directory | file | symlink
deriving DecidableEq

inductive Call where
  | open | opendir | lstat | unlink | remove
deriving DecidableEq

/-- The object of the first call, and what the calls answer. -/
structure FileSystem where
  obj : List UInt8
  /-- The `errno` of a call that fails for a reason that is not in the tree. -/
  refuses : Call → Path → Option ℕ
  /-- What `readdir` returns for a directory until it is at its end, or fails. -/
  listing : Path → List Name
  /-- `st_nlink`, once the entries are removed. -/
  nlink : Path → ℕ

/-- What `"%s/%s"` makes of the object and the names, one after the other. -/
def FileSystem.text (fs : FileSystem) (path : Path) : List UInt8 := fs.obj ++ path.flatMap (slash :: ·)

/-- What a text of `err_msg` tells: the call, the path and the `errno`. -/
inductive Message where
  /-- "Cannot purge system root directory" -/
  | root (path : Path)
  /-- "Cannot open directory %s; errno=%d: %s", or with the name of another call "%s failed; errno=%d: %s" -/
  | failed (call : Call) (path : Path) (errno : ℕ)
deriving DecidableEq

def Message.path : Message → Path
  | .root path | .failed _ path _ => path

/-- The files at the object and below, whether a call was led elsewhere by a symbolic link, and what the pointer
of the caller points to. -/
structure Disk where
  files : List (Path × Kind)
  astray : Bool
  errmsg : Option Message
deriving DecidableEq

def Disk.kind (disk : Disk) (path : Path) : Option Kind := disk.files.lookup path

/-- Whether a symbolic link is on the way to a path. -/
def Disk.through (disk : Disk) (path : Path) : Bool :=
  disk.files.any fun file => file.2 = .symlink ∧ file.1 <+: path ∧ file.1 ≠ path

def Disk.isEmpty (disk : Disk) (path : Path) : Bool := disk.files.all fun file => ¬ path <+: file.1 ∨ file.1 = path

/-- A call has a path. -/
def Disk.resolve (disk : Disk) (path : Path) : Disk := { disk with astray := disk.astray || disk.through path }

def Disk.delete (disk : Disk) (path : Path) : Disk :=
  { disk with files := disk.files.filter fun file => file.1 ≠ path }

def enoent : ℕ := 2
def enotdir : ℕ := 20
def eisdir : ℕ := 21
def enotempty : ℕ := 39

abbrev Removal := EStateM Fault Disk

section

variable (fs : FileSystem)

/-- `open` with `O_DIRECTORY | O_NOFOLLOW`, and whether there is a descriptor. -/
def openDirectory (path : Path) : Removal Bool := do
  modify (·.resolve path)
  let disk ← get
  return disk.kind path = some .directory ∧ fs.refuses .open path = none

/-- `opendir` with what `readdir` returns. It follows a symbolic link. -/
def opendir (path : Path) : Removal (Except ℕ (List Name)) := do
  modify (·.resolve path)
  let disk ← get
  match disk.kind path, fs.refuses .opendir path with
  | none, _ => return .error enoent
  | some .file, _ => return .error enotdir
  | some _, some errno => return .error errno
  | some .directory, none => return .ok (fs.listing path)
  | some .symlink, none =>
    set { disk with astray := true }
    return .ok (fs.listing path)

/-- `lstat`, for the number of links. -/
def lstat (path : Path) : Removal (Except ℕ ℕ) := do
  modify (·.resolve path)
  let disk ← get
  match disk.kind path, fs.refuses .lstat path with
  | none, _ => return .error enoent
  | some _, some errno => return .error errno
  | some _, none => return .ok (fs.nlink path)

/-- `unlink`, with the `errno` of a failure. -/
def unlink (path : Path) : Removal (Option ℕ) := do
  modify (·.resolve path)
  let disk ← get
  match disk.kind path, fs.refuses .unlink path with
  | none, _ => return some enoent
  | some .directory, _ => return some eisdir
  | some _, some errno => return some errno
  | some _, none =>
    set (disk.delete path)
    return none

/-- `remove`, for a directory. -/
def remove (path : Path) : Removal (Option ℕ) := do
  modify (·.resolve path)
  let disk ← get
  match disk.kind path, fs.refuses .remove path with
  | none, _ => return some enoent
  | some _, some errno => return some errno
  | some _, none =>
    if disk.isEmpty path then
      set (disk.delete path)
      return none
    else return some enotempty

/-- The text is stored, and the function returns -1. -/
def fail (message : Message) : Removal ℤ := do
  modify fun disk => { disk with errmsg := some message }
  return -1

/-- The last call of `rmobj`. -/
def answer (call : Call) (path : Path) : Option ℕ → Removal ℤ
  | some errno => fail (.failed call path errno)
  | none => return 0

/-- The loop of `purge_dir`. The array `dirobj` holds `PATH_MAX` bytes. -/
def purgeEntries (rmobj : Path → Removal ℤ) (path : Path) : List Name → ℤ → Removal ℤ
  | [], retVal => return retVal
  | name :: rest, retVal =>
    if name = dot ∨ name = dotDot then purgeEntries rmobj path rest retVal
    else if pathMax ≤ (fs.text (path ++ [name])).length then throw .outOfBounds
    else do
      let removed ← rmobj (path ++ [name])
      purgeEntries rmobj path rest (if removed ≠ 0 then -1 else retVal)

def purgeDir (rmobj : Path → Removal ℤ) (path : Path) : Removal ℤ :=
  if fs.text path = [slash] then fail (.root path)
  else do
    match ← opendir fs path with
    | .error errno => fail (.failed .opendir path errno)
    | .ok entries => purgeEntries fs rmobj path entries 0

/-- What `rmobj` does with a directory whose entries are removed. -/
def removeEmptied (path : Path) : Removal ℤ := do
  match ← lstat fs path with
  | .error errno => fail (.failed .lstat path errno)
  | .ok nlink =>
    if 3 ≤ nlink then
      let failed ← unlink fs path
      answer .unlink path failed
    else
      let failed ← remove fs path
      answer .remove path failed

/-- `rmobj`, with a bound for the depth of the recursion. -/
def rmobj : ℕ → Path → Removal ℤ
  | 0, _ => throw .unfinished
  | fuel + 1, path => do
    let opened ← openDirectory fs path
    if opened then
      let retVal ← purgeDir fs (rmobj fuel) path
      if retVal = -1 then return -1
      else removeEmptied fs path
    else
      let failed ← unlink fs path
      answer .unlink path failed

end

end Yalibct.Ltp.Rmobj
