import Yalibct.Machine.Run
import Yalibct.Model.FtsDescent

/-! # `fts_open`, `fts_read`, `fts_set` and `fts_close`

Without `fts_children`, `fts_build` always reads for `fts_read`, and `fts_child` is empty between two
calls. Lists are freed, which leaves no trace, as their entries have no directory open.
-/

namespace Yalibct.Fts

open Machine CycleCheck

variable {env : Env}

/-- The entry that `fts_parent` points to, unless it is the parent of the roots. -/
def parent (parents : List (Ftsent × List Ftsent)) : Option Ftsent := parents.head?.map Prod.fst

/-- `fts_safe_changedir (sp, p->fts_parent, -1, "..")` -/
def changedirUp (parents : List (Ftsent × List Ftsent)) : Action env Bool := do
  match parent parents with
  | none => throw .uninitialized
  | some q => ftsSafeChangedir q.ftsStatp (-1) (some dotdot)

/-! ## `fts_build` -/

/-- The first part of `fts_build`: the descriptor to read from, or nothing when it returns `NULL`. -/
def buildOpen (cur : Ftsent) (parents : List (Ftsent × List Ftsent)) : Action env (Option ℤ × Ftsent) := do
  match cur.ftsDirp with
  | some dp =>
    let dirFd ← dirfd dp
    if dirFd < 0 then
      let dirfdErrno ← getErrno
      closedir dp
      return (none, { cur with ftsDirp := none, ftsInfo := .dnr, ftsErrno := dirfdErrno })
    else return (some dirFd, cur)
  | none =>
    let sp ← get
    let o := sp.ftsOptions
    let nofollow := o.physical && !(o.comfollow && cur.ftsLevel == rootLevel)
    let base := if !o.nochdir && o.cwdfd then sp.ftsCwdFd else atFdcwd
    match ← opendirat base (sp.accpath cur) (!nofollow) with
    | none => return (none, { cur with ftsInfo := .dnr, ftsErrno := ← getErrno })
    | some dp =>
      let cur := { cur with ftsDirp := some dp }
      let statOptimization := cur.ftsInfo = .nsok
      if statOptimization ∨ o.tightCycleCheck then
        if ¬ statOptimization then leaveDirChecked cur (parent parents)
        match ← fstat dp.fd with
        | none =>
          let fstatErrno ← getErrno
          closedir dp
          setErrno fstatErrno
          return (none, { cur with ftsDirp := none, ftsErrno := fstatErrno, ftsInfo := .ns })
        | some st =>
          let cur := { cur with ftsStatp := st }
          if statOptimization then return (some dp.fd, { cur with ftsInfo := .d })
          else
            let (entered, cur) ← enterDir cur
            if entered then return (some dp.fd, cur)
            else
              closedir dp
              setErrno .enomem
              return (none, { cur with ftsDirp := none })
      else return (some dp.fd, cur)

/-- `MIN_DIR_NLINK` -/
def minDirNlink : ℕ := 2

/-- A directory without subdirectories, where nothing else is to be found out about its entries. -/
def isLeaf (cur : Ftsent) : Action env Bool := do
  let o := (← get).ftsOptions
  if o.nostat && o.physical && !o.seedot && cur.ftsStatp.stNlink == minDirNlink then ask env.leafOptimization
  else return false

/-- The descriptor for the way down. -/
def descentFd (dirFd : ℤ) : Action env ℤ := do
  if (← get).ftsOptions.cwdfd then dupfd dirFd else return dirFd

/-- What becomes of a directory that cannot be entered. -/
def stayAbove (cur : Ftsent) (dirFd : ℤ) (descend : Bool) : Action env Ftsent := do
  let errno ← getErrno
  match cur.ftsDirp with
  | none => pure ()
  | some dp => closedir dp
  if (← get).ftsOptions.cwdfd ∧ 0 ≤ dirFd then let _ ← close dirFd
  return { cur with
    ftsErrno := if descend then errno else cur.ftsErrno, dontchdir := true, ftsDirp := none }

/-- The descent into a directory that was just opened; whether it succeeds. -/
def buildDescend (cur : Ftsent) (dirFd : ℤ) : Action env (Bool × Ftsent) := do
  let leaf ← isLeaf cur
  let dirFd ← descentFd dirFd
  if dirFd < 0 then return (false, ← stayAbove cur dirFd !leaf)
  else if ← ftsSafeChangedir cur.ftsStatp dirFd none then return (false, ← stayAbove cur dirFd !leaf)
  else return (true, cur)

/-- What the loop of `fts_build` leaves. -/
structure Listed where
  cur : Ftsent
  head : List Ftsent
  sortByInode : Bool
  /-- The loop returned `NULL`. -/
  gaveUp : Bool

/-- `readdir` returns `NULL`, with this `errno`. -/
def endOfDir (fd : ℕ) (continueReaddir : Bool) (cur : Ftsent) (head : List Ftsent) (sort : Bool) (errno : Errno) :
    Action env Listed := do
  setErrno errno
  let cur :=
    if errno ≠ 0 then
      { cur with ftsErrno := errno, ftsInfo := if continueReaddir ∨ head ≠ [] then .err else .dnr }
    else cur
  closedir ⟨fd, []⟩
  return ⟨{ cur with ftsDirp := none }, head, sort, false⟩

/-- The two ways to give up in the loop of `fts_build`. -/
def giveUp (fd : ℕ) (cur : Ftsent) (errno : Errno) : Action env Listed := do
  closedir ⟨fd, []⟩
  setStop
  setErrno errno
  return ⟨{ cur with ftsDirp := none, ftsInfo := .err }, [], false, true⟩

/-- `max_entries` -/
def Env.maxEntries (env : Env) : ℕ := if env.compar.isSome then 2 ^ 64 - 1 else env.maxReaddirEntries

/-- In `FTS_NOCHDIR` mode, store bytes in the path. -/
def writeNochdir (offset : ℕ) (run : List UInt8) : Action env Unit := do
  if (← get).ftsOptions.nochdir then writePath offset run

/-- The fields of a new entry, and what is known of its type. -/
def listEntry (cur p : Ftsent) (newLen len : ℕ) (dp : Dirent) : Action env Ftsent := do
  let o := (← get).ftsOptions
  let p := { p with
    ftsLevel := cur.ftsLevel + 1
    ftsPathlen := newLen
    ftsStatp := { p.ftsStatp with stIno := dp.dIno }
    ftsAccpath := if o.nochdir then .ftsPath else .ftsName }
  writeNochdir len (p.ftsName ++ [0])
  if env.compar.isNone ∨ o.deferStat then
    let skipStat := o.nostat ∧ dp.dType ≠ none ∧ dp.dType ≠ some .directory ∧
      (o.physical ∨ dp.dType ≠ some .symlink)
    let p := { p with ftsInfo := .nsok, ftsStatp := { p.ftsStatp with stMode := dp.dType } }
    return setStatRequired p (¬ skipStat)
  else ftsStat p false

/-- Room for a name in the path buffer; the new `maxlen`, or nothing without memory. -/
def growPath (namelen len maxlen : ℕ) : Action env (Option ℕ) := do
  if maxlen ≤ namelen then
    if ← ftsPalloc (namelen + len + 1) then return some ((← get).ftsPath.length - len)
    else return none
  else return some maxlen

/-- Whether to sort by inode, which is asked once. -/
def sortDecision (nitems : ℕ) (sort : Bool) : Action env Bool :=
  if nitems = env.inodeSortDirEntriesThreshold ∧ env.compar.isNone then ask env.inodeSortMayBeUseful
  else return sort

/-- The loop of `fts_build`; the entries of `head` are those read so far. -/
def buildLoop (fd len : ℕ) (continueReaddir : Bool) :
    List Dirent → Ftsent → List Ftsent → ℕ → Bool → Action env Listed
  | [], cur, head, _, sort => do
    setErrno 0
    endOfDir fd continueReaddir cur head sort ((← request).getD 0)
  | dp :: rest, cur, head, maxlen, sort => do
    setErrno 0
    match ← request with
    | some errno => endOfDir fd continueReaddir cur head sort errno
    | none =>
      if !(← get).ftsOptions.seedot && isDot dp.dName then buildLoop fd len continueReaddir rest cur head maxlen sort
      else
        match ← ftsAlloc dp.dName with
        | none => giveUp fd cur (← getErrno)
        | some p =>
          match ← growPath dp.dName.length len maxlen with
          | none => giveUp fd cur (← getErrno)
          | some maxlen =>
            let newLen := sizeT (len + dp.dName.length)
            if newLen < len then giveUp fd cur .enametoolong
            else
              let p ← listEntry cur p newLen len dp
              let sort ← sortDecision head.length sort
              let head := head ++ [p]
              if env.maxEntries ≤ head.length then
                return ⟨{ cur with ftsDirp := some ⟨fd, rest⟩ }, head, sort, false⟩
              else buildLoop fd len continueReaddir rest cur head maxlen sort

/-- The entries of a directory, if it is open. -/
def buildEntries (len : ℕ) (continueReaddir : Bool) (cur : Ftsent) : Action env Listed := do
  match cur.ftsDirp with
  | none => return ⟨cur, [], false, false⟩
  | some dp => buildLoop dp.fd len continueReaddir dp.rest cur [] ((← get).ftsPath.length - len) false

/-- The way back of `fts_build` when it found nothing; whether it fails. -/
def buildReturn (cur : Ftsent) (parents : List (Ftsent × List Ftsent)) : Action env Bool :=
  if cur.ftsLevel = rootLevel then restoreInitialCwd else changedirUp parents

/-- The end of `fts_build`, with the list of entries. -/
def buildSort (sortByInode : Bool) (head : List Ftsent) : Action env (List Ftsent) := do
  if sortByInode then ftsSortGiven (← ftsSort ftsCompareIno head) else ftsSortGiven head

/-- The rest of `fts_build`, after its loop. -/
def buildEnd (parents : List (Ftsent × List Ftsent)) (descended : Bool) (len : ℕ) (listed : Listed) :
    Action env (List Ftsent × Ftsent) := do
  let cur := listed.cur
  writeNochdir (if len = (← get).ftsPath.length ∨ listed.head = [] then len - 1 else len) [0]
  match listed.head with
  | [] =>
    if ← (if descended then buildReturn cur parents else pure false) then
      setStop
      return ([], { cur with ftsInfo := .err })
    else return ([], if cur.ftsInfo ≠ .dnr ∧ cur.ftsInfo ≠ .err then { cur with ftsInfo := .dp } else cur)
  | head => return (← buildSort listed.sortByInode head, cur)

/-- `fts_build`, once the directory is open. -/
def buildRest (parents : List (Ftsent × List Ftsent)) (continueReaddir descended : Bool) (cur : Ftsent) :
    Action env (List Ftsent × Ftsent) := do
  let len ← nappend cur
  writeNochdir len [slash]
  let listed ← buildEntries (len + 1) continueReaddir cur
  if listed.gaveUp then return ([], listed.cur)
  else buildEnd parents descended (len + 1) listed

/-- `fts_build (sp, BREAD)`, where `cur` is `fts_cur`; no entries are `NULL`. -/
def ftsBuild (cur : Ftsent) (parents : List (Ftsent × List Ftsent)) : Action env (List Ftsent × Ftsent) := do
  let continueReaddir := cur.ftsDirp.isSome
  match ← buildOpen cur parents with
  | (none, cur) => return ([], cur)
  | (some dirFd, cur) =>
    let (descend, cur) ← if continueReaddir then pure (true, cur) else buildDescend cur dirFd
    buildRest parents continueReaddir (!continueReaddir && descend) cur

/-! ## `fts_read` -/

/-- What follows the last slash, if `fts_load` takes it for the name. -/
def lastComponent (name : List UInt8) : List UInt8 :=
  let base := (name.reverse.takeWhile (· != slash)).reverse
  if slash ∈ name ∧ (name.length ≠ base.length + 1 ∨ base ≠ []) then base else name

/-- `fts_load` -/
def ftsLoad (p : Ftsent) : Action env Ftsent := do
  writePath 0 (p.ftsName ++ [0])
  return { p with
    ftsPathlen := p.ftsName.length
    ftsName := lastComponent p.ftsName
    ftsAccpath := .ftsPath }

def setCur (pos : Position) : Action env Unit := modify fun sp => { sp with ftsCur := some pos }

/-- Follow a symbolic link, and keep a descriptor of the directory that it is in. -/
def followLink (p : Ftsent) : Action env Ftsent := do
  let p ← ftsStat p true
  if p.ftsInfo = .d ∧ !(← get).ftsOptions.nochdir then
    let fd ← diropen [46]
    if fd < 0 then return { p with ftsSymfd := fd, ftsErrno := ← getErrno, ftsInfo := .err }
    else return { p with ftsSymfd := fd, symfollow := true }
  else return p

/-- The call of `fts_stat` that was put off. -/
def statDeferred (p : Ftsent) : Action env Ftsent := do
  if p.ftsInfo = .nsok then
    if p.ftsStatp.stSize = statRequired then ftsStat p false
    else if p.ftsStatp.stSize = noStatRequired then return p
    else throw .assertion
  else return p

/-- `check_for_dir:` -/
def checkForDir (pos : Position) : Action env (Option Ftsent) := do
  setCur pos
  let p ← statDeferred pos.cur
  setCur { pos with cur := p }
  if p.ftsInfo = .d then
    modify fun sp => { sp with ftsDev := if p.ftsLevel = rootLevel then p.ftsStatp.stDev else sp.ftsDev }
    let (entered, p) ← enterDir p
    setCur { pos with cur := p }
    if entered then return some p
    else
      setErrno .enomem
      return none
  else return some p

/-- `name:` -/
def name (pos : Position) : Action env (Option Ftsent) := do
  match parent pos.parents with
  | none => throw .uninitialized
  | some q =>
    let t ← nappend q
    writePath t (slash :: pos.cur.ftsName ++ [0])
    checkForDir pos

/-- Whether a change of directory fails, with the `errno` right after it. -/
def reportErrno (change : Action env Bool) : Action env (Bool × Errno) := do
  let lost ← change
  return (lost, ← getErrno)

/-- The way back from the entries of a directory. -/
def leaveEntries (p : Ftsent) (parents : List (Ftsent × List Ftsent)) : Action env (Bool × Errno) := do
  if p.ftsLevel = rootLevel then reportErrno restoreInitialCwd
  else if p.symfollow then
    let lost ← reportErrno (ftsFchdir p.ftsSymfd)
    let _ ← close p.ftsSymfd
    return lost
  else if !p.dontchdir then reportErrno (changedirUp parents)
  else return (false, 0)

/-- The end of `cd_dot_dot:`, when it is known whether the way back was lost. -/
def arrive (p : Ftsent) (link : List Ftsent) (parents : List (Ftsent × List Ftsent)) (lost : Bool) (errno : Errno) :
    Action env (Option Ftsent) := do
  if lost then setStop
  let p := if lost then { p with ftsErrno := errno } else p
  let p :=
    if p.ftsInfo ≠ .dc then { p with ftsInfo := if p.ftsErrno ≠ 0 then .err else .dp } else p
  setCur ⟨p, link, parents⟩
  if p.ftsInfo = .dp then leaveDirChecked p (parent parents)
  return if (← get).ftsOptions.stop then none else some p

/-- `cd_dot_dot:`, from the entry with these parents. -/
def cdDotDot : List (Ftsent × List Ftsent) → Action env (Option Ftsent)
  | [] => do
    modify fun sp => { sp with ftsCur := none }
    setErrno 0
    return none
  | (p, link) :: parents => do
    setCur ⟨p, link, parents⟩
    if p.ftsInfo = .nsok then throw .assertion
    writePath p.ftsPathlen [0]
    let (lost, errno) ← leaveEntries p parents
    arrive p link parents lost errno

/-- `next:`, from an entry with this list after it. -/
def next (tmp : Ftsent) (parents : List (Ftsent × List Ftsent)) : List Ftsent → Action env (Option Ftsent)
  | [] => do
    match parents with
    | [] =>
      -- The first entry of a stream has no `fts_parent`.
      if tmp.ftsInfo = .init then throw .uninitialized
      cdDotDot []
    | (p, link) :: above =>
      if p.ftsDirp.isSome then
        setCur ⟨p, link, above⟩
        writePath p.ftsPathlen [0]
        let (head, p) ← ftsBuild p above
        setCur ⟨p, link, above⟩
        match head with
        | [] => if (← get).ftsOptions.stop then return none else cdDotDot ((p, link) :: above)
        | child :: rest => name ⟨child, rest, (p, link) :: above⟩
      else cdDotDot parents
  | p :: link => do
    setCur ⟨p, link, parents⟩
    if p.ftsLevel = rootLevel then
      if ← restoreInitialCwd then
        setStop
        return none
      else
        let p ← ftsLoad p
        setCur ⟨p, link, parents⟩
        let _ ← setupDir
        checkForDir ⟨p, link, parents⟩
    else if p.ftsInstr = .skip then next p parents link
    else if p.ftsInstr = .follow then
      let p ← followLink p
      name ⟨{ p with ftsInstr := .noInstr }, link, parents⟩
    else name ⟨p, link, parents⟩

/-- The part of `fts_read` for a directory in pre-order. -/
def preorder (pos : Position) (instr : Instr) : Action env (Option Ftsent) := do
  let p := pos.cur
  let sp ← get
  if instr = .skip ∨ sp.ftsOptions.xdev ∧ p.ftsStatp.stDev ≠ sp.ftsDev then
    if p.symfollow then let _ ← close p.ftsSymfd
    let p := { p with ftsInfo := .dp }
    setCur { pos with cur := p }
    leaveDirChecked p (parent pos.parents)
    return some p
  else
    let (head, p) ← ftsBuild p pos.parents
    setCur { pos with cur := p }
    match head with
    | [] =>
      if (← get).ftsOptions.stop then return none
      else
        let p := if p.ftsErrno ≠ 0 ∧ p.ftsInfo ≠ .dnr then { p with ftsInfo := .err } else p
        setCur { pos with cur := p }
        leaveDirChecked p (parent pos.parents)
        return some p
    | child :: rest => name ⟨child, rest, (p, pos.link) :: pos.parents⟩

/-- `fts_read`; the entry that it returns a pointer to. -/
def ftsRead : Action env (Option Ftsent) := do
  let sp ← get
  match sp.ftsCur with
  | none => return none
  | some pos =>
    if sp.ftsOptions.stop then return none
    else
      let instr := pos.cur.ftsInstr
      let p := { pos.cur with ftsInstr := .noInstr }
      setCur { pos with cur := p }
      if instr = .again then
        let p ← ftsStat p false
        setCur { pos with cur := p }
        return some p
      else if instr = .follow ∧ (p.ftsInfo = .sl ∨ p.ftsInfo = .slnone) then
        let p ← followLink p
        checkForDir { pos with cur := p }
      else if p.ftsInfo = .d then preorder { pos with cur := p } instr
      else next p pos.parents pos.link

/-! ## The other calls -/

/-- `fts_set`, of the entry at an address. -/
def ftsSet (address : ℕ) (instr : ℤ) : Action env ℤ := do
  match Instr.ofInt instr with
  | none =>
    setErrno .einval
    return 1
  | some instr =>
    modify fun sp => { sp with
      ftsCur := sp.ftsCur.map fun pos => pos.update address fun p => { p with ftsInstr := instr } }
    return 0

/-- `fts_close`. The lists are freed, but no directory is closed. -/
def ftsClose : Action env ℤ := do
  let sp ← get
  let o := sp.ftsOptions
  let savedErrno ←
    if o.cwdfd then
      if 0 ≤ sp.ftsCwdFd then
        let ret ← close sp.ftsCwdFd
        if ret ≠ 0 then getErrno else pure 0
      else pure 0
    else if !o.nochdir then
      let lost ← fchdir sp.ftsRfd
      let savedErrno ← if lost then getErrno else pure 0
      let ret ← close sp.ftsRfd
      if ret ≠ 0 ∧ savedErrno = 0 then getErrno else pure savedErrno
    else pure 0
  fdRingClear 4
  if savedErrno ≠ 0 then
    setErrno savedErrno
    return -1
  else return 0

/-- The trimming of trailing slashes in `fts_open`: all but one of two or more, in a name longer than two. -/
def trimSlashes (v : List UInt8) : List UInt8 :=
  if 2 < v.length ∧ v.getLast? = some slash then
    (slash :: (v.reverse.dropWhile (· == slash))).reverse
  else v

/-- `fts_maxarglen` -/
def ftsMaxarglen (argv : List (List UInt8)) : ℕ := argv.foldl (fun len arg => max len arg.length) 0 + 1

/-- `MAXPATHLEN` -/
def maxpathlen : ℕ := 1024

/-- The loop of `fts_open` over its arguments; nothing without memory. -/
def openRoots : List (List UInt8) → List Ftsent → Action env (Option (List Ftsent))
  | [], root => return some root
  | arg :: argv, root => do
    let o := (← get).ftsOptions
    let deferStat := env.compar.isNone || o.deferStat
    match ← ftsAlloc (if o.verbatim then arg else trimSlashes arg) with
    | none => return none
    | some p =>
      let p := { p with ftsLevel := rootLevel, ftsAccpath := .ftsName }
      let p ←
        if deferStat && !root.isEmpty then pure (setStatRequired { p with ftsInfo := .nsok } true)
        else ftsStat p false
      openRoots argv (if env.compar.isSome then p :: root else root ++ [p])

/-- A stream after `calloc`. -/
def blank (options : Options) (kernel : Kernel env.fs.Node) : FTS env where
  ftsCur := none
  ftsDev := 0
  ftsPath := []
  ftsRfd := 0
  ftsCwdFd := 0
  ftsNitems := 0
  ftsOptions := options
  ftsCycle := none
  ftsFdRing := .init 0
  kernel := kernel
  checks := []

/-- The parent of the roots, if there are any; whether there is memory. -/
def openParent (argv : List (List UInt8)) : Action env Bool := if argv ≠ [] then allocated else return true

/-- The descriptor to come back by, without `FTS_CWDFD`. -/
def openRfd : Action env Unit := do
  let o := (← get).ftsOptions
  if !o.nochdir && !o.cwdfd then
    let rfd ← diropen [46]
    modify fun sp =>
      { sp with ftsRfd := rfd, ftsOptions := { sp.ftsOptions with nochdir := sp.ftsOptions.nochdir || rfd < 0 } }

/-- The last part of `fts_open`: an entry before the roots. -/
def openFirst (root : List Ftsent) : Action env Bool := do
  match ← ftsAlloc [] with
  | none => return false
  | some cur =>
    setCur ⟨{ cur with ftsInfo := .init, ftsLevel := 1 }, root, []⟩
    if ← setupDir then
      openRfd
      modify fun sp => { sp with ftsFdRing := .init (-1) }
      return true
    else return false

/-- The options of a new stream. A logical traversal turns on `FTS_NOCHDIR`. -/
def Options.opened (o : Options) : Options := if o.logical then { o with nochdir := true, cwdfd := false } else o

/-- `fts_open`, on the stream that `calloc` returned; whether it succeeds. -/
def ftsOpen (argv : List (List UInt8)) : Action env Bool := do
  let o := (← get).ftsOptions
  if o.nochdir ∧ o.cwdfd ∨ ¬ (o.logical ∨ o.physical) then
    setErrno .einval
    return false
  else if ← allocated then
    modify fun sp => { sp with ftsOptions := sp.ftsOptions.opened, ftsCwdFd := atFdcwd }
    if ← ftsPalloc (max (ftsMaxarglen argv) maxpathlen) then
      if ← openParent argv then
        match ← openRoots argv [] with
        | none => return false
        | some root => openFirst (← ftsSortGiven root)
      else return false
    else return false
  else return false

/-! ## Traversals -/

/-- What a program does with a stream: it reads the next entry, or sets the instruction of an entry. -/
inductive Call where
  | read (r : Option Ftsent)
  | set (address : ℕ) (instr : ℤ)

/-- The calls that return. Before the first entry is read, there is none to set an instruction of. -/
def traversal (env : Env) : System where
  State := FTS env
  Event := Call
  Step sp call sp' :=
    match call with
    | .read r => ftsRead.run sp = .ok r sp'
    | .set address instr =>
      (∀ pos, sp.ftsCur = some pos → pos.cur.ftsInfo ≠ .init) ∧ ∃ r, (ftsSet address instr).run sp = .ok r sp'

end Yalibct.Fts
