import Yalibct.Model.Fts

/-! # What goes on beside the path

Most of what `fts_read` calls leaves the current entry, the path buffer and the options alone, whatever
fails in it, and does not reach out of the buffer.
-/

namespace Yalibct.Fts

open Machine CycleCheck

variable {env : Env}

/-- The current entry, the path buffer and the options. -/
@[grind =] def FTS.view (sp : FTS env) : Option Position × List UInt8 × Options := (sp.ftsCur, sp.ftsPath, sp.ftsOptions)

/-- The view stays as it is, and results have a property. -/
def Gives {α : Type} (post : α → Prop) (x : Action env α) : Prop := Preserves (· ≠ .outOfBounds) FTS.view post x

/-- The view stays as it is. -/
def Aside (env : Env) {α : Type} (x : Action env α) : Prop := Gives (fun _ => True) x

namespace Aside

variable {α β : Type} {x : Action env α} {f : α → Action env β}

theorem bind (first : Aside env x) (rest : ∀ a, Aside env (f a)) : Aside env (x >>= f) := Preserves.bind first fun a _ => rest a

theorem pure (a : α) : Aside env (pure a : Action env α) := Preserves.pure trivial

theorem get : Aside env (MonadState.get : Action env (FTS env)) := Preserves.get

theorem modify (g : FTS env → FTS env) (same : ∀ sp, (g sp).view = sp.view) : Aside env (modify g : Action env PUnit) :=
  Preserves.modify same

theorem throw {e : Fault} (other : e ≠ .outOfBounds) : Aside env (throw e : Action env α) := Preserves.throw other

end Aside

grind_pattern Aside.bind => Aside env (x >>= f)
grind_pattern Aside.pure => Aside env (Pure.pure a : Action env α)
grind_pattern Aside.get => Aside env (MonadState.get : Action env (FTS env))
grind_pattern Aside.modify => Aside env (modify g : Action env PUnit)
grind_pattern Aside.throw => Aside env (throw e : Action env α)

/-! ## System calls -/

@[grind .]
theorem request_aside : Aside env (request) := by
  unfold request
  grind

@[grind .]
theorem setErrno_aside (errno : Errno) : Aside env (setErrno errno) := .modify _ fun _ => rfl

@[grind .]
theorem getErrno_aside : Aside env (getErrno) :=
  Aside.get.bind fun _ => .pure _

@[grind .]
theorem failed_aside (errno : Errno) : Aside env (failed errno) := (setErrno_aside errno).bind fun _ => .pure _

@[grind .]
theorem use_aside (fd : ℤ) : Aside env (use fd) := by
  unfold use
  grind

@[grind .]
theorem install_aside (node : env.fs.Node) : Aside env (install node) := by
  unfold install
  grind

@[grind .]
theorem openat_aside (fd : ℤ) (path : List UInt8) (follow : Bool) : Aside env (openat fd path follow) := by
  unfold openat
  grind

@[grind .]
theorem dupfd_aside (fd : ℤ) : Aside env (dupfd fd) := by
  unfold dupfd
  grind

@[grind .]
theorem close_aside (fd : ℤ) : Aside env (close fd) := by
  unfold close
  grind

@[grind .]
theorem fstat_aside (fd : ℤ) : Aside env (fstat fd) := by
  unfold fstat
  grind

@[grind .]
theorem fstatat_aside (fd : ℤ) (path : List UInt8) (follow : Bool) : Aside env (fstatat fd path follow) := by
  unfold fstatat
  apply request_aside.bind
  rintro (_ | errno)
  · apply (use_aside fd).bind
    grind
  · grind

@[grind .]
theorem fchdir_aside (fd : ℤ) : Aside env (fchdir fd) := by
  unfold fchdir
  apply request_aside.bind
  rintro (_ | errno)
  · grind
  · grind

@[grind .]
theorem fdopendir_aside (fd : ℤ) : Aside env (fdopendir fd) := by
  unfold fdopendir
  grind

@[grind .]
theorem opendirat_aside (fd : ℤ) (dir : List UInt8) (follow : Bool) : Aside env (opendirat fd dir follow) := by
  unfold opendirat
  grind

@[grind .]
theorem dirfd_aside (dirp : Dir) : Aside env (dirfd dirp) := by
  unfold dirfd
  grind

@[grind .]
theorem closedir_aside (dirp : Dir) : Aside env (closedir dirp) := by
  unfold closedir
  grind

@[grind .]
theorem allocated_aside : Aside env (allocated) := by
  unfold allocated
  grind

@[grind .]
theorem granted_aside (size : ℕ) : Aside env (granted size) := by
  unfold granted
  grind

@[grind .]
theorem ask_aside (answers : ℕ → Bool) : Aside env (ask answers) := by
  unfold ask
  grind

@[grind .]
theorem ftsStatDangling_aside (fd : ℤ) (path : List UInt8) (follow : Bool) :
    Aside env (ftsStatDangling fd path follow) := by
  unfold ftsStatDangling
  grind

@[grind .]
theorem sameFd_aside (fd1 fd2 : ℤ) : Aside env (sameFd fd1 fd2) := by
  unfold sameFd
  grind

@[grind .]
theorem diropen_aside (dir : List UInt8) : Aside env (diropen dir) := by
  unfold diropen
  grind

@[grind .]
theorem cwdAdvanceFd_aside (fd : ℤ) (chdirDownOne : Bool) : Aside env (cwdAdvanceFd fd chdirDownOne) := by
  unfold cwdAdvanceFd
  grind

@[grind .]
theorem newDir_aside (fd : ℤ) (dir : Option (List UInt8)) : Aside env (newDir fd dir) := by
  unfold newDir
  grind

@[grind .]
theorem verifyDir_aside (st : Stat) (dir : Option (List UInt8)) (newfd : ℤ) :
    Aside env (verifyDir st dir newfd) := by
  unfold verifyDir
  grind

@[grind .]
theorem bail_aside (fd newfd : ℤ) (ret : Bool) : Aside env (bail fd newfd ret) := by
  unfold bail
  grind

@[grind .]
theorem popParent_aside (fd : ℤ) (dir : Option (List UInt8)) : Aside env (popParent fd dir) := by
  intro sp
  apply Ends.get_bind
  dsimp only
  split_ifs
  · cases sp.ftsFdRing.pop with
    | none => exact ⟨trivial, rfl⟩
    | some popped => exact ⟨trivial, rfl⟩
  · exact ⟨trivial, rfl⟩

@[grind .]
theorem ftsSafeChangedir_aside (st : Stat) (fd : ℤ) (dir : Option (List UInt8)) :
    Aside env (ftsSafeChangedir st fd dir) := by
  unfold ftsSafeChangedir
  grind

@[grind .]
theorem fdRingClear_aside (rounds : ℕ) : Aside env (fdRingClear rounds) := by
  induction rounds with
  | zero => exact .pure _
  | succ rounds ih =>
    intro sp
    apply Ends.get_bind
    cases sp.ftsFdRing.pop with
    | none => exact ⟨trivial, rfl⟩
    | some popped =>
      apply Ends.set_bind
      have rest : Aside env (do
        if 0 ≤ popped.1 then let _ ← close popped.1
        fdRingClear rounds) := by grind
      exact rest { sp with ftsFdRing := popped.2 }

@[grind .]
theorem ftsFchdir_aside (fd : ℤ) : Aside env (ftsFchdir fd) := by
  unfold ftsFchdir
  grind

@[grind .]
theorem restoreInitialCwd_aside : Aside env (restoreInitialCwd) := by
  unfold restoreInitialCwd
  grind

@[grind .]
theorem fdRingCheckLoop_aside (rounds : ℕ) (ring : IRing) (cwdFd : ℤ) :
    Aside env (fdRingCheckLoop rounds ring cwdFd) := by
  induction rounds generalizing ring cwdFd with
  | zero =>
    unfold fdRingCheckLoop
    grind
  | succ rounds ih =>
    unfold fdRingCheckLoop
    grind

@[grind .]
theorem fdRingCheck_aside : Aside env (fdRingCheck) := by
  unfold fdRingCheck
  grind

@[grind .]
theorem setupDir_aside : Aside env (setupDir) := by
  unfold setupDir
  grind

@[grind .]
theorem leaveDir_aside (p : Ftsent) (parent : Option Ftsent) : Aside env (leaveDir p parent) := by
  intro sp
  apply Ends.get_bind
  dsimp only
  split_ifs
  · cases sp.ftsCycle with
    | none => nofun
    | some cycle =>
      cases cycle with
      | state state => nofun
      | ht ht =>
        dsimp only
        cases env.table.remove ht p.ftsStatp.devIno with
        | none => nofun
        | some removed =>
          apply Ends.set_bind
          have rest : Aside env (if !removed.1 then throw .leave else pure () : Action env Unit) := by grind
          exact rest { sp with ftsCycle := some (.ht removed.2) }
  · cases parent with
    | none => exact ⟨trivial, rfl⟩
    | some parent =>
      dsimp only
      split_ifs
      · cases sp.ftsCycle with
        | none => nofun
        | some cycle =>
          cases cycle with
          | ht ht => nofun
          | state state =>
            dsimp only
            cases reflectChdirUp state parent.ftsStatp.devIno p.ftsStatp.devIno with
            | error e => nofun
            | ok state => exact ⟨trivial, rfl⟩
      · exact ⟨trivial, rfl⟩

@[grind .]
theorem leaveDirChecked_aside (p : Ftsent) (parent : Option Ftsent) :
    Aside env (leaveDirChecked p parent) := by
  unfold leaveDirChecked
  grind

@[grind .]
theorem changedirUp_aside (parents : List (Ftsent × List Ftsent)) : Aside env (changedirUp parents) := by
  unfold changedirUp
  grind

@[grind .]
theorem isLeaf_aside (cur : Ftsent) : Aside env (isLeaf cur) := by
  unfold isLeaf
  grind

@[grind .]
theorem descentFd_aside (dirFd : ℤ) : Aside env (descentFd dirFd) := by
  unfold descentFd
  grind

@[grind .]
theorem sortDecision_aside (nitems : ℕ) (sort : Bool) : Aside env (sortDecision nitems sort) := by
  unfold sortDecision
  grind

@[grind .]
theorem buildReturn_aside (cur : Ftsent) (parents : List (Ftsent × List Ftsent)) :
    Aside env (buildReturn cur parents) := by
  unfold buildReturn
  grind

@[grind .]
theorem sortArray_aside (nitems : ℕ) : Aside env (sortArray nitems) := by
  unfold sortArray
  grind

private theorem reportErrno_aside {change : Action env Bool} (aside : Aside env change) :
    Aside env (reportErrno change) := by
  unfold reportErrno
  grind

theorem leaveEntries_aside (p : Ftsent) (parents : List (Ftsent × List Ftsent)) :
    Aside env (leaveEntries p parents) := by
  unfold leaveEntries
  grind [reportErrno_aside]

end Yalibct.Fts
