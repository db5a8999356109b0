import Yalibct.Machine.Heap
import Yalibct.Model.Tempname

/-! # `path_search`

A directory is chosen for a temporary file, and a template of its name is stored where the caller has
room for it.
-/

namespace Yalibct.PathSearch

open Machine Tempname

/-- What `stat` finds: whether there is a directory, or an error. -/
abbrev Stat := CString → Except Errno Bool

/-- `direxists`, with the value of `errno` after the call. -/
def direxists (stat : Stat) (dir : CString) (errno : Errno) : Bool × Errno :=
  match stat dir with
  | .ok isDir => (isDir, errno)
  | .error errno => (false, errno)

/-- `"file"` -/
def file : CString := ⟨[102, 105, 108, 101], by decide, by decide⟩

/-- `"/tmp"` -/
def tmp : CString := ⟨[47, 116, 109, 112], by decide, by decide⟩

/-- `pfx` and `plen` -/
def choosePfx : Option CString → CString × ℕ
  | none => (file, 4)
  | some pfx =>
    if pfx.bytes = [] then (file, 4)
    else (pfx, if 5 < pfx.length then 5 else pfx.length)

/-- A pointer to the name of a directory that exists. -/
def isDirexists (stat : Stat) (dir : Option CString) (errno : Errno) : Bool × Errno :=
  match dir with
  | none => (false, errno)
  | some dir => direxists stat dir errno

/-- The directory in the environment or the one of the caller, if it exists. -/
def tryDirs (stat : Stat) (tmpdir dir : Option CString) (errno : Errno) : Option CString × Errno :=
  let (found, errno) := isDirexists stat tmpdir errno
  if found then (tmpdir, errno)
  else
    let (found, errno) := isDirexists stat dir errno
    (if found then dir else none, errno)

/-- `P_tmpdir` or `/tmp`, if it exists. -/
def systemDir (stat : Stat) (pTmpdir : CString) (errno : Errno) : Option CString × Errno :=
  let (found, errno) := direxists stat pTmpdir errno
  if found then (some pTmpdir, errno)
  else if pTmpdir.bytes ≠ tmp.bytes then
    let (found, errno) := direxists stat tmp errno
    (if found then some tmp else none, errno)
  else (none, errno)

/-- Whether a separator goes after the directory. -/
def addSlash (dir : CString) : Bool := dir.bytes ≠ [] ∧ dir.bytes.getLast? ≠ some slash

/-- What `sprintf` stores, with its NUL. -/
def printed (addSlash : Bool) (pfx : CString) (plen : ℕ) : List UInt8 :=
  (if addSlash then [slash] else []) ++ pfx.bytes.take plen ++ List.replicate 6 letterX ++ [0]

/-- A store into the array of the caller. -/
def store (tmpl : List UInt8) (offset : ℕ) (run : List UInt8) : Except Fault (List UInt8) :=
  if offset + run.length ≤ tmpl.length then .ok (overwrite tmpl offset run) else .error .outOfBounds

/-- The returned value, `errno` and the array of the caller. -/
structure Searched where
  ret : ℤ
  errno : Errno
  tmpl : List UInt8
deriving DecidableEq

/-- `path_search`; `tmpdir` is the value of `TMPDIR`. -/
def pathSearch (stat : Stat) (tmpdir : Option CString) (pTmpdir : CString) (errno : Errno) (tmpl : List UInt8)
    (tmplLen : ℕ) (dir pfx : Option CString) (tryTmpdir : Bool) : Except Fault Searched :=
  let (pfx, plen) := choosePfx pfx
  let (dir, errno) := if tryTmpdir then tryDirs stat tmpdir dir errno else (dir, errno)
  let (dir, errno) := if dir.isNone then systemDir stat pTmpdir errno else (dir, errno)
  match dir with
  | none => .ok ⟨-1, enoent, tmpl⟩
  | some dir =>
    let dlen := dir.length
    let addSlash := addSlash dir
    if tmplLen < sizeT (dlen + addSlash.toNat + plen + 6 + 1) then .ok ⟨-1, .EINVAL, tmpl⟩
    else do
      let tmpl ← store tmpl 0 dir.bytes
      let tmpl ← store tmpl dlen (printed addSlash pfx plen)
      .ok ⟨0, errno, tmpl⟩

end Yalibct.PathSearch
