import Yalibct.Model.FileSystem
import Yalibct.Model.Ring

/-! # The streams of `fts_open`

The entries that a stream keeps are the current one with the rest of its list, and the same for each
entry above it. An entry is named by the number of the request that allocated it, which stands for its
address.
-/

namespace Yalibct.Fts

open Machine CycleCheck

/-! ## Entries -/

/-- `fts_info` -/
inductive Info where
  | d | dc | default | dnr | dot | dp | err | f | init | ns | nsok | sl | slnone
deriving DecidableEq

/-- `fts_instr`; `fts_set` also takes zero. -/
inductive Instr where
  | zero | again | follow | noInstr | skip
deriving DecidableEq

/-- The instruction of a number, if it is one. -/
def Instr.ofInt : ℤ → Option Instr
  | 0 => some .zero
  | 1 => some .again
  | 2 => some .follow
  | 3 => some .noInstr
  | 4 => some .skip
  | _ => none

/-- `DIR`: its descriptor, and what is still to be read. -/
structure Dir where
  fd : ℕ
  rest : List Dirent

/-- What `fts_accpath` points to. -/
inductive AccPath where
  | ftsName | ftsPath
deriving DecidableEq

/-- `struct _ftsent`. The links to other entries are in a `Position`, the length of a name is its own.
`FTS_DONTCHDIR` and `FTS_SYMFOLLOW` are the two flags. -/
structure Ftsent where
  address : ℕ
  ftsCycle : Option ℕ
  ftsDirp : Option Dir
  ftsAccpath : AccPath
  ftsErrno : Errno
  ftsSymfd : ℤ
  ftsPathlen : ℕ
  ftsLevel : ℤ
  ftsName : List UInt8
  ftsInfo : Info
  dontchdir : Bool
  symfollow : Bool
  ftsInstr : Instr
  ftsStatp : Stat

/-- `FTS_ROOTLEVEL` -/
def rootLevel : ℤ := 0

/-- The two values that `st_size` is overloaded with. -/
def noStatRequired : ℕ := 1
def statRequired : ℕ := 2

/-- `ISDOT` -/
def isDot (name : List UInt8) : Bool := name == [46] || name == [46, 46]

/-- The name of the parent directory. -/
def dotdot : List UInt8 := [46, 46]

/-- `/` -/
def slash : UInt8 := 47

/-- An entry with the rest of its list, and the same for the entries above. The parent of the roots is
left out, as nothing is read from it but its level. -/
structure Position where
  cur : Ftsent
  link : List Ftsent
  parents : List (Ftsent × List Ftsent)

/-- Change the entry at an address. -/
def Position.update (pos : Position) (address : ℕ) (f : Ftsent → Ftsent) : Position :=
  let change (p : Ftsent) : Ftsent := if p.address = address then f p else p
  { cur := change pos.cur
    link := pos.link.map change
    parents := pos.parents.map fun (p, link) => (change p, link.map change) }

/-! ## Active directories -/

structure ActiveDir where
  dev : ℕ
  ino : ℕ
  ftsEnt : ℕ
deriving DecidableEq

/-- What `hash_insert` returns: nothing without memory, the new entry, or one like it. -/
inductive Inserted where
  | noMemory
  | new
  | present (ad : ActiveDir)

/-- A hash table of active directories, with the functions of `setup_dir`. A call that does not return
gives nothing. -/
structure ActiveTable where
  State : Type
  /-- `hash_initialize`, for the number of the request. -/
  create : ℕ → Option State
  insert : State → ActiveDir → Option (Inserted × State)
  /-- `hash_remove`, which tells whether there was such an entry. -/
  remove : State → DevIno → Option (Bool × State)

/-- `fts_cycle` -/
inductive Cycle (table : ActiveTable) where
  | ht (ht : table.State)
  | state (state : CycleCheckState)

/-! ## Streams -/

/-- The bits of `fts_options` that are read, but for `FTS_NAMEONLY`, which only `fts_children` sets. -/
structure Options where
  comfollow : Bool := false
  logical : Bool := false
  nochdir : Bool := false
  nostat : Bool := false
  physical : Bool := false
  seedot : Bool := false
  xdev : Bool := false
  tightCycleCheck : Bool := false
  cwdfd : Bool := false
  deferStat : Bool := false
  verbatim : Bool := false
  stop : Bool := false
deriving DecidableEq

/-- What a stream works with: the file system, the functions of the library, the limits it was compiled
with, and what is left open about memory and the kernel. -/
structure Env where
  fs : FileSystem
  /-- The error that a request for memory or a system call is made to fail with. -/
  fails : ℕ → Option Errno
  numbering : Numbering
  table : ActiveTable
  /-- The function given to `fts_open`. -/
  compar : Option (Ftsent → Ftsent → ℤ)
  qsort : (Ftsent → Ftsent → ℤ) → List Ftsent → List Ftsent
  qsort_perm : ∀ compare entries, (qsort compare entries).Perm entries
  /-- `FTS_MAX_READDIR_ENTRIES` -/
  maxReaddirEntries : ℕ
  /-- `FTS_INODE_SORT_DIR_ENTRIES_THRESHOLD` -/
  inodeSortDirEntriesThreshold : ℕ
  /-- What `dirent_inode_sort_may_be_useful` and `leaf_optimization` say, which ask for the type of the
  file system. -/
  inodeSortMayBeUseful : ℕ → Bool
  leafOptimization : ℕ → Bool
  /-- What new memory holds. -/
  rawEntry : ℕ → Ftsent
  rawState : ℕ → CycleCheckState
  rawPath : ℕ → ℕ → List UInt8
  length_rawPath : ∀ request size, (rawPath request size).length = size

/-- What a check of the ring sees. -/
structure Check (Node : Type) where
  cwdFd : ℤ
  ring : IRing
  kernel : Kernel Node

/-- `FTS`, with the kernel it runs on. The length of the path buffer is `fts_pathlen`; the checks of the
ring so far are recorded. -/
structure FTS (env : Env) where
  ftsCur : Option Position
  ftsDev : ℕ
  ftsPath : List UInt8
  ftsRfd : ℤ
  ftsCwdFd : ℤ
  ftsNitems : ℕ
  ftsOptions : Options
  ftsCycle : Option (Cycle env.table)
  ftsFdRing : IRing
  kernel : Kernel env.fs.Node
  checks : List (Check env.fs.Node)

/-- Why a call does not return. -/
inductive Fault where
  /-- The assertions of `fd_ring_check`, `cwd_advance_fd` and of the rest. -/
  | ring | advance | assertion
  /-- `leave_dir` finds no entry. -/
  | leave
  /-- The cycle detection ends the process, or there is none. -/
  | cycle
  | outOfBounds
  | uninitialized
deriving DecidableEq

abbrev Action (env : Env) := EStateM Fault (FTS env)

end Yalibct.Fts
