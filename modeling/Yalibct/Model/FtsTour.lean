import Yalibct.Model.Fts

/-! # What a traversal returns

The visits of a physical traversal that does not fail, as the file system has them: a directory, then what
is in it, then the directory again. Each part of a directory that is read at once may be sorted.
-/

namespace Yalibct.Fts.Visit

open Machine

/-! ## What is seen of an entry -/

structure Mark where
  name : List UInt8
  level : ℤ
  info : Info
  errno : Errno
  statp : Stat
deriving DecidableEq

/-- Before the status of an entry is asked for, these fields of it are set. -/
def known (info : Info) (st : Stat) : Stat := if info = .nsok then ⟨0, st.stIno, st.stMode, 0, st.stSize⟩ else st

def mark (p : Ftsent) : Mark := ⟨p.ftsName, p.ftsLevel, p.ftsInfo, p.ftsErrno, known p.ftsInfo p.ftsStatp⟩

/-- A directory in post-order. -/
def Mark.left (m : Mark) : Mark := { m with info := .dp }

/-- What is known of an entry before anything is asked. -/
def unseen (name : List UInt8) (level : ℤ) : Mark := ⟨name, level, .nsok, 0, ⟨0, 0, none, 0, statRequired⟩⟩

/-- The kind of an entry with this status. -/
def kind (name : List UInt8) (level : ℤ) (sb : Stat) : Info :=
  if sb.stMode = some .directory then
    if isDot name then if level = rootLevel then .d else .dot else .d
  else if sb.stMode = some .symlink then .sl
  else if sb.stMode = some .regular then .f
  else .default

/-- An entry without a status. -/
def missing (errno : Errno) (m : Mark) : Mark := { m with info := .ns, errno := errno, statp := .zero }

/-- An entry, once its status was asked for. -/
def seen (fs : FileSystem) (dir : fs.Node) (path : List UInt8) (follow : Bool) (m : Mark) : Mark :=
  match fs.resolve dir path follow with
  | .ok node => { m with info := kind m.name m.level (fs.stat node), statp := fs.stat node }
  | .error errno =>
    -- A link that is followed may have no target.
    if follow ∧ errno = .enoent then
      match fs.resolve dir path false with
      | .ok node => { m with info := .slnone, statp := fs.stat node }
      | .error errno => missing errno m
    else missing errno m

/-- The call of `fts_stat` that was put off. -/
def checked (fs : FileSystem) (dir : fs.Node) (m : Mark) : Mark :=
  if m.info = .nsok ∧ m.statp.stSize = statRequired then seen fs dir m.name false m else m

section Tours

variable (env : Env) (o : Options)

/-- An entry that was read from a directory. -/
def listed (dir : env.fs.Node) (level : ℤ) (e : Dirent) : Mark :=
  if env.compar.isNone ∨ o.deferStat then
    let skipStat := o.nostat ∧ e.dType ≠ none ∧ e.dType ≠ some .directory ∧ (o.physical ∨ e.dType ≠ some .symlink)
    ⟨e.dName, level, .nsok, 0, ⟨0, e.dIno, e.dType, 0, if ¬ skipStat then statRequired else noStatRequired⟩⟩
  else seen env.fs dir e.dName false (unseen e.dName level)

/-- The entries that are read at once, behind those read so far, and what is left. -/
def batch (most : ℕ) : List Dirent → List Dirent → List Dirent × List Dirent
  | [], head => (head, [])
  | e :: rest, head =>
    if !o.seedot && isDot e.dName then batch most rest head
    else if most ≤ (head ++ [e]).length then (head ++ [e], rest)
    else batch most rest (head ++ [e])

/-- Whether so many entries are sorted by inode first. -/
def ByInode (count : ℕ) (sort : Bool) : Prop :=
  if env.compar.isNone ∧ env.inodeSortDirEntriesThreshold < count then ∃ t, sort = env.inodeSortMayBeUseful t
  else sort = false

/-- What sorting may make of the entries that are read at once. -/
def Sorts (ms ms' : List Mark) : Prop :=
  ∃ (byInode : Bool) (head head' : List Ftsent) (sp sp' : FTS env), ByInode env head.length byInode ∧
    (buildSort byInode head).run sp = .ok head' sp' ∧ head.map mark = ms ∧ head'.map mark = ms'

/-- What is returned of a directory at a level, from these entries in it on, with these still to be read.
The root is on the device `dev`. -/
inductive Tour (dev : ℕ) : env.fs.Node → ℤ → List Mark → List Dirent → List Mark → Prop
  | done {dir level rest} (nothing : (batch o env.maxEntries rest []).1 = []) : Tour dev dir level [] rest []
  | read {dir level rest es rest' ms vs} (part : batch o env.maxEntries rest [] = (es, rest')) (found : es ≠ [])
      (sorted : Sorts env (es.map (listed env o dir (level + 1))) ms) (later : Tour dev dir level ms rest' vs) :
      Tour dev dir level [] rest vs
  | entry {dir level m ms rest vs} (other : (checked env.fs dir m).info ≠ .d) (later : Tour dev dir level ms rest vs) :
      Tour dev dir level (m :: ms) rest (checked env.fs dir m :: vs)
  | directory {dir level m ms rest c inner vs} (directory : (checked env.fs dir m).info = .d)
      (found : env.fs.resolve dir m.name false = .ok c) (near : ¬ (o.xdev ∧ (env.fs.stat c).stDev ≠ dev))
      (within : Tour dev c (level + 1) [] (env.fs.entries c) inner) (later : Tour dev dir level ms rest vs) :
      Tour dev dir level (m :: ms) rest (checked env.fs dir m :: inner ++ (checked env.fs dir m).left :: vs)
  | beyond {dir level m ms rest c vs} (directory : (checked env.fs dir m).info = .d)
      (found : env.fs.resolve dir m.name false = .ok c) (far : o.xdev ∧ (env.fs.stat c).stDev ≠ dev)
      (later : Tour dev dir level ms rest vs) :
      Tour dev dir level (m :: ms) rest (checked env.fs dir m :: (checked env.fs dir m).left :: vs)

/-- An argument of `fts_open`, once it is loaded. -/
def rootSeen (start : env.fs.Node) (arg : List UInt8) : Mark :=
  { seen env.fs start arg o.comfollow (unseen arg rootLevel) with name := lastComponent arg }

/-- What is returned for the arguments of `fts_open`. -/
inductive Roots (start : env.fs.Node) : List (List UInt8) → List Mark → Prop
  | done : Roots start [] []
  | entry {arg args vs} (other : (rootSeen env o start arg).info ≠ .d) (later : Roots start args vs) :
      Roots start (arg :: args) (rootSeen env o start arg :: vs)
  | directory {arg args c inner vs} (directory : (rootSeen env o start arg).info = .d)
      (found : env.fs.resolve start arg o.comfollow = .ok c)
      (within : Tour env o (env.fs.stat c).stDev c rootLevel [] (env.fs.entries c) inner) (later : Roots start args vs) :
      Roots start (arg :: args) (rootSeen env o start arg :: inner ++ (rootSeen env o start arg).left :: vs)

end Tours

/-- What a program sees that calls `fts_read` until it returns `NULL`, which takes less than so many calls. -/
def traverse {env : Env} : ℕ → FTS env → Option (List Mark)
  | 0, _ => none
  | n + 1, sp =>
    match ftsRead.run sp with
    | .ok (some p) sp => (traverse n sp).map (mark p :: ·)
    | .ok none _ => some []
    | .error _ _ => none

end Yalibct.Fts.Visit
