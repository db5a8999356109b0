import Yalibct.Model.FtsCalls

/-! # Where a traversal is

The descriptor of the current directory, the ring of the ones above it, the path buffer, and the
detection of cycles.
-/

namespace Yalibct.Fts

open Machine CycleCheck

variable {env : Env}

def Options.tight (o : Options) : Bool := o.tightCycleCheck || o.logical

/-- `SET(FTS_STOP)` -/
def setStop : Action env Unit :=
  modify fun sp => { sp with ftsOptions := { sp.ftsOptions with stop := true } }

/-- Ask for something that depends on the file system, whose answers are left open. -/
def ask (answers : ℕ → Bool) : Action env Bool := do
  let sp ← get
  let _ ← request
  return answers sp.kernel.now

/-! ## Paths -/

/-- Store bytes in `fts_path`. -/
def writePath (offset : ℕ) (run : List UInt8) : Action env Unit := do
  let sp ← get
  if offset + run.length ≤ sp.ftsPath.length then
    set { sp with ftsPath := overwrite sp.ftsPath offset run }
  else throw .outOfBounds

/-- The string in the path buffer. -/
def FTS.path (sp : FTS env) : List UInt8 := sp.ftsPath.takeWhile (· != 0)

/-- The string at `fts_accpath`. -/
def FTS.accpath (sp : FTS env) (p : Ftsent) : List UInt8 :=
  match p.ftsAccpath with
  | .ftsName => p.ftsName
  | .ftsPath => sp.path

/-- `NAPPEND` -/
def nappend (p : Ftsent) : Action env ℕ := do
  match p.ftsPathlen with
  | 0 => throw .outOfBounds
  | last + 1 =>
    match (← get).ftsPath[last]? with
    | none => throw .outOfBounds
    | some c => return if c = slash then last else last + 1

/-- `fts_palloc` -/
def ftsPalloc (more : ℕ) : Action env Bool := do
  let sp ← get
  let newLen := sizeT (sp.ftsPath.length + more + 256)
  if newLen < sp.ftsPath.length then
    set { sp with ftsPath := [] }
    setErrno .enametoolong
    return false
  else if ← granted newLen then
    modify fun sp' => { sp' with ftsPath := overwrite (env.rawPath sp.kernel.now newLen) 0 sp.ftsPath }
    return true
  else
    modify fun sp => { sp with ftsPath := [] }
    return false

/-! ## Entries -/

/-- `FLEXSIZEOF (FTSENT, fts_name, namelen + 1)`, with `fts_name` behind 256 other bytes. -/
def ftsentSize (namelen : ℕ) : ℕ := (256 + (8 - 1) + (namelen + 1)) / 8 * 8

/-- `fts_alloc` -/
def ftsAlloc (name : List UInt8) : Action env (Option Ftsent) := do
  let sp ← get
  if ← granted (ftsentSize name.length) then
    return some { env.rawEntry sp.kernel.now with
      address := sp.kernel.now
      ftsName := name
      ftsErrno := 0
      ftsDirp := none
      dontchdir := false
      symfollow := false
      ftsInstr := .noInstr }
  else return none

/-- The end of `fts_stat`. -/
def statInfo (p : Ftsent) (sb : Stat) : Info :=
  if sb.stMode = some .directory then
    if isDot p.ftsName then if p.ftsLevel = rootLevel then .d else .dot else .d
  else if sb.stMode = some .symlink then .sl
  else if sb.stMode = some .regular then .f
  else .default

/-- The second look of `fts_stat`, at a symbolic link without a target. -/
def ftsStatDangling (fd : ℤ) (path : List UInt8) (follow : Bool) : Action env (Option Stat) := do
  if follow ∧ (← getErrno) = .enoent then fstatat fd path false else return none

/-- `fts_stat`, with the assignment of its result to `fts_info`. -/
def ftsStat (p : Ftsent) (follow : Bool) : Action env Ftsent := do
  let sp ← get
  let o := sp.ftsOptions
  let follow := follow || o.logical || o.comfollow && p.ftsLevel == rootLevel
  match ← fstatat sp.ftsCwdFd (sp.accpath p) follow with
  | some sb => return { p with ftsStatp := sb, ftsInfo := statInfo p sb }
  | none =>
    match ← ftsStatDangling sp.ftsCwdFd (sp.accpath p) follow with
    | some sb =>
      setErrno 0
      return { p with ftsStatp := sb, ftsInfo := .slnone }
    | none => return { p with ftsErrno := ← getErrno, ftsStatp := .zero, ftsInfo := .ns }

/-- `fts_set_stat_required` -/
def setStatRequired (p : Ftsent) (required : Bool) : Ftsent :=
  { p with ftsStatp := { p.ftsStatp with stSize := if required then statRequired else noStatRequired } }

/-- Whether `fts_sort` has an array for so many entries, perhaps a new one. -/
def sortArray (nitems : ℕ) : Action env Bool := do
  if (← get).ftsNitems < nitems then
    let possible := nitems + 40 ≤ (2 ^ 64 - 1) / 8
    let got ← if possible then allocated else pure false
    modify fun sp => { sp with ftsNitems := if got then nitems + 40 else 0 }
    return got
  else return true

/-- `fts_sort` -/
def ftsSort (compare : Ftsent → Ftsent → ℤ) (head : List Ftsent) : Action env (List Ftsent) := do
  let sortable ← sortArray head.length
  return if sortable then env.qsort compare head else head

/-- Sort entries as the function given to `fts_open` says, if there are several. -/
def ftsSortGiven (head : List Ftsent) : Action env (List Ftsent) :=
  match env.compar with
  | none => return head
  | some compare => if 1 < head.length then ftsSort compare head else return head

/-- `fts_compare_ino` -/
def ftsCompareIno (a b : Ftsent) : ℤ :=
  if a.ftsStatp.stIno < b.ftsStatp.stIno then -1 else if b.ftsStatp.stIno < a.ftsStatp.stIno then 1 else 0

/-! ## The current directory -/

/-- `diropen` -/
def diropen (dir : List UInt8) : Action env ℤ := do
  let sp ← get
  openat (if sp.ftsOptions.cwdfd then sp.ftsCwdFd else atFdcwd) dir (!sp.ftsOptions.physical)

/-- `cwd_advance_fd` -/
def cwdAdvanceFd (fd : ℤ) (chdirDownOne : Bool) : Action env Unit := do
  let sp ← get
  let old := sp.ftsCwdFd
  if old = fd ∧ old ≠ atFdcwd then throw .advance
  if chdirDownOne then
    let (prevFdInSlot, ring) := sp.ftsFdRing.push old
    modify fun sp => { sp with ftsFdRing := ring }
    if 0 ≤ prevFdInSlot then let _ ← close prevFdInSlot
  else if !sp.ftsOptions.nochdir then
    if 0 ≤ old then let _ ← close old
  modify fun sp => { sp with ftsCwdFd := fd }

/-- The choice of a descriptor from the ring in `fts_safe_changedir`, with the name that is then to be
opened or checked. -/
def popParent (fd : ℤ) (dir : Option (List UInt8)) : Action env (ℤ × Option (List UInt8)) := do
  let sp ← get
  if fd < 0 ∧ dir = some dotdot ∧ sp.ftsOptions.cwdfd then
    match sp.ftsFdRing.pop with
    | none => return (fd, dir)
    | some (parentFd, ring) =>
      set { sp with ftsFdRing := ring }
      return if 0 ≤ parentFd then (parentFd, none) else (fd, dir)
  else return (fd, dir)

/-- The descriptor that `fts_safe_changedir` changes to. -/
def newDir (fd : ℤ) (dir : Option (List UInt8)) : Action env ℤ :=
  if 0 ≤ fd then return fd else diropen (dir.getD [])

/-- The check of the new directory in `fts_safe_changedir`, where it is needed. -/
def verifyDir (st : Stat) (dir : Option (List UInt8)) (newfd : ℤ) : Action env Bool := do
  if (← get).ftsOptions.logical ∨ dir = some dotdot then
    match ← fstat newfd with
    | none => return false
    | some sb =>
      if sb.devIno = st.devIno then return true
      else
        setErrno .enoent
        return false
  else return true

/-- `bail:` -/
def bail (fd newfd : ℤ) (ret : Bool) : Action env Bool := do
  if fd < 0 then
    let oerrno ← getErrno
    let _ ← close newfd
    setErrno oerrno
    return ret
  else return ret

/-- `fts_safe_changedir`, for an entry with this `fts_statp`; whether it fails. -/
def ftsSafeChangedir (st : Stat) (fd : ℤ) (dir : Option (List UInt8)) : Action env Bool := do
  let o := (← get).ftsOptions
  let isDotdot := dir == some dotdot
  if o.nochdir then
    if o.cwdfd ∧ 0 ≤ fd then let _ ← close fd
    return false
  else
    let (fd, dir) ← popParent fd dir
    let newfd ← newDir fd dir
    if newfd < 0 then return true
    else if ← verifyDir st dir newfd then
      if o.cwdfd then
        cwdAdvanceFd newfd (!isDotdot)
        return false
      else bail fd newfd (← fchdir newfd)
    else bail fd newfd true

/-- `fd_ring_clear`; the ring is empty after four rounds. -/
def fdRingClear : ℕ → Action env Unit
  | 0 => return
  | rounds + 1 => do
    let sp ← get
    match sp.ftsFdRing.pop with
    | none => return
    | some (fd, ring) =>
      set { sp with ftsFdRing := ring }
      if 0 ≤ fd then let _ ← close fd
      fdRingClear rounds

/-- `FCHDIR`; whether it fails. -/
def ftsFchdir (fd : ℤ) : Action env Bool := do
  let o := (← get).ftsOptions
  if o.nochdir then return false
  else if o.cwdfd then
    cwdAdvanceFd fd true
    return false
  else fchdir fd

/-- `restore_initial_cwd`; whether it fails. -/
def restoreInitialCwd : Action env Bool := do
  let sp ← get
  let fail ← ftsFchdir (if sp.ftsOptions.cwdfd then atFdcwd else sp.ftsRfd)
  fdRingClear 4
  return fail

/-! ## Entering and leaving -/

/-- `same_fd` -/
def sameFd (fd1 fd2 : ℤ) : Action env Bool := do
  match ← fstat fd1 with
  | none => return false
  | some sb1 =>
    match ← fstat fd2 with
    | none => return false
    | some sb2 => return sameInode sb1.devIno sb2.devIno

/-- The loop of `fd_ring_check`; the copy of the ring is empty after four rounds. -/
def fdRingCheckLoop : ℕ → IRing → ℤ → Action env Unit
  | 0, _, cwdFd => do let _ ← close cwdFd
  | rounds + 1, ring, cwdFd => do
    match ring.pop with
    | none => let _ ← close cwdFd
    | some (fd, ring) =>
      if fd < 0 then fdRingCheckLoop rounds ring cwdFd
      else
        let parentFd ← openat cwdFd dotdot true
        if parentFd < 0 then let _ ← close cwdFd
        else if ← sameFd fd parentFd then
          let _ ← close cwdFd
          fdRingCheckLoop rounds ring parentFd
        else throw .ring

/-- `fd_ring_check`, which is recorded. What it only prints is left out. -/
def fdRingCheck : Action env Unit := do
  let sp ← get
  modify fun sp => { sp with checks := ⟨sp.ftsCwdFd, sp.ftsFdRing, sp.kernel⟩ :: sp.checks }
  let cwdFd ← dupfd sp.ftsCwdFd
  fdRingCheckLoop 4 sp.ftsFdRing cwdFd

/-- `setup_dir` -/
def setupDir : Action env Bool := do
  let sp ← get
  if sp.ftsOptions.tight then
    let _ ← request
    let ht := env.table.create sp.kernel.now
    modify fun sp => { sp with ftsCycle := ht.map .ht }
    return ht.isSome
  else if ← allocated then
    modify fun sp' => { sp' with ftsCycle := some (.state (cycleCheckInit (env.rawState sp.kernel.now))) }
    return true
  else
    modify fun sp => { sp with ftsCycle := none }
    return false

/-- `enter_dir`, with the entry after it. -/
def enterDir (p : Ftsent) : Action env (Bool × Ftsent) := do
  let st := p.ftsStatp
  if (← get).ftsOptions.tight then
    if ← allocated then
      match (← get).ftsCycle with
      | some (.ht ht) =>
        match env.table.insert ht ⟨st.stDev, st.stIno, p.address⟩ with
        | none => throw .cycle
        | some (inserted, ht) =>
          modify fun sp => { sp with ftsCycle := some (.ht ht) }
          match inserted with
          | .noMemory => return (false, p)
          | .new => return (true, p)
          | .present ad => return (true, { p with ftsCycle := some ad.ftsEnt, ftsInfo := .dc })
      | _ => throw .cycle
    else return (false, p)
  else
    match (← get).ftsCycle with
    | some (.state state) =>
      match cycleCheck state st.devIno with
      | .error _ => throw .cycle
      | .ok (cycle, state) =>
        modify fun sp => { sp with ftsCycle := some (.state state) }
        return (true, if cycle then { p with ftsCycle := some p.address, ftsInfo := .dc } else p)
    | _ => throw .cycle

/-- `leave_dir`, of an entry with this parent. -/
def leaveDir (p : Ftsent) (parent : Option Ftsent) : Action env Unit := do
  let sp ← get
  let st := p.ftsStatp
  if sp.ftsOptions.tight then
    match sp.ftsCycle with
    | some (.ht ht) =>
      match env.table.remove ht st.devIno with
      | none => throw .cycle
      | some (found, ht) =>
        set { sp with ftsCycle := some (.ht ht) }
        if !found then throw .leave
    | _ => throw .cycle
  else
    match parent with
    | none => return
    | some parent =>
      if 0 ≤ parent.ftsLevel then
        match sp.ftsCycle with
        | some (.state state) =>
          match reflectChdirUp state parent.ftsStatp.devIno st.devIno with
          | .error _ => throw .cycle
          | .ok state => set { sp with ftsCycle := some (.state state) }
        | _ => throw .cycle

/-- `LEAVE_DIR` -/
def leaveDirChecked (p : Ftsent) (parent : Option Ftsent) : Action env Unit := do
  leaveDir p parent
  fdRingCheck

end Yalibct.Fts
