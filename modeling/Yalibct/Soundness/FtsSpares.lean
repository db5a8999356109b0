import Yalibct.Model.Fts

/-! # What the calls below leave alone

Most of what `fts_read` calls leaves the state of the cycle detection alone, the device of the argument and the
descriptor to come back by.
-/

namespace Yalibct.Fts

open Machine CycleCheck

variable {env : Env} {sp sp' sp'' : FTS env}

/-- The state of the cycle detection is what it was, and so are the device and the descriptor to come back by. -/
@[grind =] def Untouched (sp sp' : FTS env) : Prop :=
  sp'.ftsCycle = sp.ftsCycle ∧ sp'.ftsDev = sp.ftsDev ∧ sp'.ftsRfd = sp.ftsRfd

theorem Untouched.refl (sp : FTS env) : Untouched sp sp := ⟨rfl, rfl, rfl⟩

theorem Untouched.trans (first : Untouched sp sp') (second : Untouched sp' sp'') : Untouched sp sp'' := by
  obtain ⟨cycle, dev, rfd⟩ := first
  obtain ⟨cycle', dev', rfd'⟩ := second
  exact ⟨cycle'.trans cycle, dev'.trans dev, rfd'.trans rfd⟩

/-- A call leaves all of that alone. -/
def Spares (env : Env) {α : Type} (x : Action env α) : Prop := ∀ sp, Ends (fun _ _ => True) (fun _ sp' => Untouched sp sp') x sp

namespace Spares

variable {α β : Type} {x : Action env α} {f : α → Action env β}

theorem bind (first : Spares env x) (rest : ∀ a, Spares env (f a)) : Spares env (x >>= f) := fun sp =>
  (first sp).bind fun a t before => (rest a t).mono fun _ _ after => before.trans after

theorem pure (a : α) : Spares env (pure a : Action env α) := fun sp => .refl sp

theorem get : Spares env (MonadState.get : Action env (FTS env)) := fun sp => .refl sp

theorem modify (g : FTS env → FTS env) (untouched : ∀ sp, Untouched sp (g sp)) : Spares env (modify g : Action env PUnit) :=
  fun sp => untouched sp

theorem throw {e : Fault} : Spares env (throw e : Action env α) := fun _ => trivial

end Spares

grind_pattern Spares.bind => Spares env (x >>= f)
grind_pattern Spares.pure => Spares env (Pure.pure a : Action env α)
grind_pattern Spares.get => Spares env (MonadState.get : Action env (FTS env))
grind_pattern Spares.modify => Spares env (modify g : Action env PUnit)
grind_pattern Spares.throw => Spares env (throw e : Action env α)

/-! ## System calls -/

@[grind .]
theorem request_spares : Spares env (request) := by
  unfold request
  grind

@[grind .]
theorem setErrno_spares (errno : Errno) : Spares env (setErrno errno) := .modify _ fun sp => .refl sp

@[grind .]
theorem getErrno_spares : Spares env (getErrno) :=
  Spares.get.bind fun _ => .pure _

@[grind .]
theorem failed_spares (errno : Errno) : Spares env (failed errno) := (setErrno_spares errno).bind fun _ => .pure _

@[grind .]
theorem use_spares (fd : ℤ) : Spares env (use fd) := by
  unfold use
  grind

@[grind .]
theorem install_spares (node : env.fs.Node) : Spares env (install node) := by
  unfold install
  grind

@[grind .]
theorem openat_spares (fd : ℤ) (path : List UInt8) (follow : Bool) : Spares env (openat fd path follow) := by
  unfold openat
  grind

@[grind .]
theorem dupfd_spares (fd : ℤ) : Spares env (dupfd fd) := by
  unfold dupfd
  grind

@[grind .]
theorem close_spares (fd : ℤ) : Spares env (close fd) := by
  unfold close
  grind

@[grind .]
theorem fstat_spares (fd : ℤ) : Spares env (fstat fd) := by
  unfold fstat
  grind

@[grind .]
theorem fstatat_spares (fd : ℤ) (path : List UInt8) (follow : Bool) : Spares env (fstatat fd path follow) := by
  unfold fstatat
  apply request_spares.bind
  rintro (_ | errno)
  · apply (use_spares fd).bind
    grind
  · grind

@[grind .]
theorem fchdir_spares (fd : ℤ) : Spares env (fchdir fd) := by
  unfold fchdir
  apply request_spares.bind
  rintro (_ | errno)
  · grind
  · grind

@[grind .]
theorem fdopendir_spares (fd : ℤ) : Spares env (fdopendir fd) := by
  unfold fdopendir
  grind

@[grind .]
theorem opendirat_spares (fd : ℤ) (dir : List UInt8) (follow : Bool) : Spares env (opendirat fd dir follow) := by
  unfold opendirat
  grind

@[grind .]
theorem dirfd_spares (dirp : Dir) : Spares env (dirfd dirp) := by
  unfold dirfd
  grind

@[grind .]
theorem closedir_spares (dirp : Dir) : Spares env (closedir dirp) := by
  unfold closedir
  grind

@[grind .]
theorem allocated_spares : Spares env (allocated) := by
  unfold allocated
  grind

@[grind .]
theorem granted_spares (size : ℕ) : Spares env (granted size) := by
  unfold granted
  grind

@[grind .]
theorem ask_spares (answers : ℕ → Bool) : Spares env (ask answers) := by
  unfold ask
  grind

@[grind .]
theorem ftsStatDangling_spares (fd : ℤ) (path : List UInt8) (follow : Bool) :
    Spares env (ftsStatDangling fd path follow) := by
  unfold ftsStatDangling
  grind

@[grind .]
theorem sameFd_spares (fd1 fd2 : ℤ) : Spares env (sameFd fd1 fd2) := by
  unfold sameFd
  grind

@[grind .]
theorem diropen_spares (dir : List UInt8) : Spares env (diropen dir) := by
  unfold diropen
  grind

@[grind .]
theorem cwdAdvanceFd_spares (fd : ℤ) (chdirDownOne : Bool) : Spares env (cwdAdvanceFd fd chdirDownOne) := by
  unfold cwdAdvanceFd
  grind

@[grind .]
theorem newDir_spares (fd : ℤ) (dir : Option (List UInt8)) : Spares env (newDir fd dir) := by
  unfold newDir
  grind

@[grind .]
theorem verifyDir_spares (st : Stat) (dir : Option (List UInt8)) (newfd : ℤ) :
    Spares env (verifyDir st dir newfd) := by
  unfold verifyDir
  grind

@[grind .]
theorem bail_spares (fd newfd : ℤ) (ret : Bool) : Spares env (bail fd newfd ret) := by
  unfold bail
  grind

@[grind .]
theorem popParent_spares (fd : ℤ) (dir : Option (List UInt8)) : Spares env (popParent fd dir) := by
  intro sp
  apply Ends.get_bind
  split_ifs
  · cases sp.ftsFdRing.pop with
    | none => exact .refl sp
    | some popped => exact .refl sp
  · exact .refl sp

@[grind .]
theorem ftsSafeChangedir_spares (st : Stat) (fd : ℤ) (dir : Option (List UInt8)) :
    Spares env (ftsSafeChangedir st fd dir) := by
  unfold ftsSafeChangedir
  grind

@[grind .]
theorem fdRingClear_spares (rounds : ℕ) : Spares env (fdRingClear rounds) := by
  induction rounds with
  | zero => exact .pure _
  | succ rounds ih =>
    intro sp
    apply Ends.get_bind
    cases sp.ftsFdRing.pop with
    | none => exact .refl sp
    | some popped =>
      apply Ends.set_bind
      have rest : Spares env (do
        if 0 ≤ popped.1 then let _ ← close popped.1
        fdRingClear rounds) := by grind
      exact rest { sp with ftsFdRing := popped.2 }

@[grind .]
theorem ftsFchdir_spares (fd : ℤ) : Spares env (ftsFchdir fd) := by
  unfold ftsFchdir
  grind

@[grind .]
theorem restoreInitialCwd_spares : Spares env (restoreInitialCwd) := by
  unfold restoreInitialCwd
  grind

@[grind .]
theorem fdRingCheckLoop_spares (rounds : ℕ) (ring : IRing) (cwdFd : ℤ) :
    Spares env (fdRingCheckLoop rounds ring cwdFd) := by
  induction rounds generalizing ring cwdFd with
  | zero =>
    unfold fdRingCheckLoop
    grind
  | succ rounds ih =>
    unfold fdRingCheckLoop
    grind

@[grind .]
theorem fdRingCheck_spares : Spares env (fdRingCheck) := by
  unfold fdRingCheck
  grind

@[grind .]
theorem changedirUp_spares (parents : List (Ftsent × List Ftsent)) : Spares env (changedirUp parents) := by
  unfold changedirUp
  grind

@[grind .]
theorem isLeaf_spares (cur : Ftsent) : Spares env (isLeaf cur) := by
  unfold isLeaf
  grind

@[grind .]
theorem descentFd_spares (dirFd : ℤ) : Spares env (descentFd dirFd) := by
  unfold descentFd
  grind

@[grind .]
theorem sortDecision_spares (nitems : ℕ) (sort : Bool) : Spares env (sortDecision nitems sort) := by
  unfold sortDecision
  grind

@[grind .]
theorem buildReturn_spares (cur : Ftsent) (parents : List (Ftsent × List Ftsent)) :
    Spares env (buildReturn cur parents) := by
  unfold buildReturn
  grind

@[grind .]
theorem sortArray_spares (nitems : ℕ) : Spares env (sortArray nitems) := by
  unfold sortArray
  grind

/-! ## Reading a directory -/

@[grind .]
theorem writePath_spares (offset : ℕ) (run : List UInt8) : Spares env (writePath offset run) := by
  intro sp
  apply Ends.get_bind
  split_ifs
  · exact .refl sp
  · trivial

@[grind .]
theorem nappend_spares (p : Ftsent) : Spares env (nappend p) := by
  unfold nappend
  grind

@[grind .]
theorem ftsPalloc_spares (more : ℕ) : Spares env (ftsPalloc more) := by
  intro sp
  apply Ends.get_bind
  dsimp only
  split_ifs
  · have rest : Spares env (do
        setErrno .enametoolong
        return false) := by grind
    exact rest { sp with ftsPath := [] }
  · have rest : Spares env (do
        if ← granted (sizeT (sp.ftsPath.length + more + 256)) then
          modify fun sp' => { sp' with ftsPath := overwrite (env.rawPath sp.kernel.now (sizeT (sp.ftsPath.length + more + 256))) 0 sp.ftsPath }
          return true
        else
          modify fun sp => { sp with ftsPath := [] }
          return false) := by grind
    exact rest sp

@[grind .]
theorem ftsAlloc_spares (name : List UInt8) : Spares env (ftsAlloc name) := by
  unfold ftsAlloc
  grind

@[grind .]
theorem ftsStat_spares (p : Ftsent) (follow : Bool) : Spares env (ftsStat p follow) := by
  unfold ftsStat
  grind

@[grind .]
theorem writeNochdir_spares (offset : ℕ) (run : List UInt8) : Spares env (writeNochdir offset run) := by
  unfold writeNochdir
  grind

@[grind .]
theorem growPath_spares (namelen len maxlen : ℕ) : Spares env (growPath namelen len maxlen) := by
  unfold growPath
  grind

@[grind .]
theorem listEntry_spares (cur p : Ftsent) (newLen len : ℕ) (dp : Dirent) :
    Spares env (listEntry cur p newLen len dp) := by
  unfold listEntry
  grind

@[grind .]
theorem setStop_spares : Spares env (setStop) := by
  unfold setStop
  grind

@[grind .]
theorem ftsSort_spares (compare : Ftsent → Ftsent → ℤ) (head : List Ftsent) : Spares env (ftsSort compare head) := by
  unfold ftsSort
  grind

@[grind .]
theorem ftsSortGiven_spares (head : List Ftsent) : Spares env (ftsSortGiven head) := by
  unfold ftsSortGiven
  grind

@[grind .]
theorem buildSort_spares (sortByInode : Bool) (head : List Ftsent) : Spares env (buildSort sortByInode head) := by
  unfold buildSort
  grind

@[grind .]
theorem stayAbove_spares (cur : Ftsent) (dirFd : ℤ) (descend : Bool) : Spares env (stayAbove cur dirFd descend) := by
  unfold stayAbove
  grind

@[grind .]
theorem buildDescend_spares (cur : Ftsent) (dirFd : ℤ) : Spares env (buildDescend cur dirFd) := by
  unfold buildDescend
  grind

@[grind .]
theorem endOfDir_spares (fd : ℕ) (continueReaddir : Bool) (cur : Ftsent) (head : List Ftsent) (sort : Bool) (errno : Errno) :
    Spares env (endOfDir fd continueReaddir cur head sort errno) := by
  unfold endOfDir
  grind

@[grind .]
theorem giveUp_spares (fd : ℕ) (cur : Ftsent) (errno : Errno) : Spares env (giveUp fd cur errno) := by
  unfold giveUp
  grind

@[grind .]
theorem buildLoop_spares (fd len : ℕ) (continueReaddir : Bool) (rest : List Dirent) (cur : Ftsent) (head : List Ftsent)
    (maxlen : ℕ) (sort : Bool) : Spares env (buildLoop fd len continueReaddir rest cur head maxlen sort) := by
  induction rest generalizing head maxlen sort with
  | nil =>
    unfold buildLoop
    grind
  | cons e rest ih =>
    unfold buildLoop
    apply (setErrno_spares 0).bind
    intro _
    apply request_spares.bind
    rintro (_ | errno)
    · apply Spares.get.bind
      intro sp
      split_ifs
      · exact ih _ _ _
      · apply (ftsAlloc_spares _).bind
        rintro (_ | p)
        · grind
        · apply (growPath_spares _ _ _).bind
          rintro (_ | maxlen)
          · grind
          · grind
    · exact endOfDir_spares _ _ _ _ _ _

@[grind .]
theorem buildEntries_spares (len : ℕ) (continueReaddir : Bool) (cur : Ftsent) :
    Spares env (buildEntries len continueReaddir cur) := by
  unfold buildEntries
  grind

@[grind .]
theorem buildEnd_spares (parents : List (Ftsent × List Ftsent)) (descended : Bool) (len : ℕ) (listed : Listed) :
    Spares env (buildEnd parents descended len listed) := by
  unfold buildEnd
  grind

@[grind .]
theorem buildRest_spares (parents : List (Ftsent × List Ftsent)) (continueReaddir descended : Bool) (cur : Ftsent) :
    Spares env (buildRest parents continueReaddir descended cur) := by
  unfold buildRest
  grind

end Yalibct.Fts
