import Yalibct.Soundness.FtsAside
import Yalibct.Soundness.FtsBuild
import Yalibct.Soundness.FtsSpares

/-! # Where a stream is, in each of its modes

A physical stream that does not fail is at the directory whose entries it returns: with `FTS_CWDFD` by its
descriptor, without it by the directory of the process, and with `FTS_NOCHDIR` by the paths alone.
-/

namespace Yalibct.Fts.Place

open Machine

variable {env : Env} {sp sp' : FTS env} {start : env.fs.Node} {ds : List env.fs.Node} {dirs : List ℕ} {n : ℕ}
variable {fails : Fault → FTS env → Prop}

/-- The options of a physical stream that keeps no table of active directories. -/
structure Plain (o : Options) : Prop where
  physical : o.physical = true
  logical : o.logical = false
  tight : o.tightCycleCheck = false
  going : o.stop = false
  apart : o.nochdir = true → o.cwdfd = false

/-- The stream is in the first of the directories, below the others, or where it was started; these
directories are open. -/
inductive Here (sp : FTS env) (start : env.fs.Node) (ds : List env.fs.Node) (dirs : List ℕ) : Prop
  | nochdir (mode : sp.ftsOptions.nochdir = true) (stands : Stands sp [] [] dirs) (cwd : sp.kernel.cwd = start)
  | cwdfd (mode : sp.ftsOptions.nochdir = false) (cwdfd : sp.ftsOptions.cwdfd = true) (vs : List ℤ)
      (stands : Stands sp vs ds dirs) (cwd : sp.kernel.cwd = start)
  | chdir (mode : sp.ftsOptions.nochdir = false) (cwdfd : sp.ftsOptions.cwdfd = false) (rfd : ℕ)
      (back : sp.ftsRfd = rfd) (found : sp.kernel.fds.find rfd = some start) (stands : Stands sp [] [] (dirs ++ [rfd]))
      (chain : ds.IsChain (Climbs env.fs)) (cwd : sp.kernel.cwd = ds.headD start)

/-- What a call beside the way of the stream leaves as it is. -/
structure Still (sp sp' : FTS env) : Prop where
  view : sp'.view = sp.view
  untouched : Untouched sp sp'

theorem Still.refl (sp : FTS env) : Still sp sp := ⟨rfl, .refl sp⟩

theorem Still.trans {sp'' : FTS env} (first : Still sp sp') (second : Still sp' sp'') : Still sp sp'' :=
  ⟨second.view.trans first.view, first.untouched.trans second.untouched⟩

theorem Still.options (still : Still sp sp') : sp'.ftsOptions = sp.ftsOptions := (Prod.mk.inj (Prod.mk.inj still.view).2).2

theorem Still.of_ends {α : Type} {x : Action env α} {post : α → FTS env → Prop} (aside : Aside env x) (spares : Spares env x)
    (spec : Ends fails post x sp) : Ends fails (fun r sp' => post r sp' ∧ Still sp sp') x sp := by
  apply (spec.and ((aside sp).and (spares sp))).mono
  rintro r t ⟨holds, ⟨-, view⟩, untouched⟩
  exact ⟨holds, view, untouched⟩

namespace Here

/-- Descriptors that are not the stream's may come and go. -/
theorem leaves {fds : Descriptors env.fs.Node} {dirs' : List ℕ} (here : Here sp start ds dirs) (leaves : Leaves fds sp sp')
    (stands : ∀ {vs ds' others}, Stands sp vs ds' (dirs ++ others) → Stands sp' vs ds' (dirs' ++ others))
    (same : ∀ m ∉ dirs, (sp.kernel.fds.find m).isSome → fds.find m = sp.kernel.fds.find m) : Here sp' start ds dirs' := by
  have options : sp'.ftsOptions = sp.ftsOptions := by rw [leaves.rest]
  have alone : ∀ {vs ds'}, Stands sp vs ds' dirs → Stands sp' vs ds' dirs' := by
    intro vs ds' given
    have after := @stands vs ds' [] (by rw [List.append_nil]; exact given)
    rw [List.append_nil] at after
    exact after
  cases here with
  | nochdir mode stands' cwd => exact .nochdir (options ▸ mode) (alone stands') (leaves.cwd.trans cwd)
  | cwdfd mode cwdfd vs stands' cwd =>
    exact .cwdfd (options ▸ mode) (options ▸ cwdfd) vs (alone stands') (leaves.cwd.trans cwd)
  | chdir mode cwdfd rfd back found stands' chain cwd =>
    have other : rfd ∉ dirs := fun member =>
      List.disjoint_of_nodup_append (stands'.distinct.sublist (List.sublist_append_right ..)) member (List.mem_singleton_self _)
    refine .chdir (options ▸ mode) (options ▸ cwdfd) rfd ?_ ?_ (stands stands') chain (leaves.cwd.trans cwd)
    · rw [leaves.rest]
      exact back
    · rw [leaves.fds, same rfd other (found ▸ rfl), found]

theorem same (here : Here sp start ds dirs) (leaves : Leaves sp.kernel.fds sp sp') : Here sp' start ds dirs :=
  here.leaves leaves (fun stands => stands.same leaves) fun _ _ _ => rfl

/-- A new descriptor is one more. -/
theorem insert {node : env.fs.Node} (here : Here sp start ds dirs) (unused : n ∉ sp.kernel.fds.numbers)
    (leaves : Leaves (sp.kernel.fds.insert n node) sp sp') : Here sp' start ds (n :: dirs) := by
  refine here.leaves leaves (fun stands => stands.insert unused leaves) fun m _ found => ?_
  apply Descriptors.find_insert_of_ne
  rintro rfl
  exact unused (mem_numbers_of_isSome found)

/-- One of the other descriptors is closed. -/
theorem close (here : Here sp start ds (n :: dirs)) (leaves : Leaves (sp.kernel.fds.close n) sp sp') :
    Here sp' start ds dirs := by
  refine here.leaves leaves (fun stands => stands.close leaves) fun m other _ => ?_
  apply Descriptors.find_close_of_ne
  rintro rfl
  exact other (List.mem_cons_self ..)

/-- What changed is not what the stream stands on. -/
theorem beside (here : Here sp start ds dirs) (beside : Beside sp sp') (rfd : sp'.ftsRfd = sp.ftsRfd) :
    Here sp' start ds dirs := by
  cases here with
  | nochdir mode stands cwd => exact .nochdir (beside.options ▸ mode) (stands.beside beside) (beside.cwd.trans cwd)
  | cwdfd mode cwdfd vs stands cwd =>
    exact .cwdfd (beside.options ▸ mode) (beside.options ▸ cwdfd) vs (stands.beside beside) (beside.cwd.trans cwd)
  | chdir mode cwdfd k back found stands chain cwd =>
    refine .chdir (beside.options ▸ mode) (beside.options ▸ cwdfd) k (rfd.trans back) ?_ (stands.beside beside) chain
      (beside.cwd.trans cwd)
    rw [beside.fds, found]

/-- The node from which the names of a list are resolved, or their paths. -/
def pivot (o : Options) (start : env.fs.Node) (ds : List env.fs.Node) : env.fs.Node :=
  if o.nochdir then start else ds.headD start

theorem base (here : Here sp start ds dirs) :
    sp.kernel.base sp.ftsCwdFd = some (pivot sp.ftsOptions start ds) ∧
      sp.kernel.base (if !sp.ftsOptions.nochdir && sp.ftsOptions.cwdfd then sp.ftsCwdFd else atFdcwd) =
        some (pivot sp.ftsOptions start ds) := by
  have none : ∀ {dirs}, Stands sp [] [] dirs → sp.ftsCwdFd = atFdcwd := fun stands => stands.trail.1
  have process : sp.kernel.base atFdcwd = some sp.kernel.cwd := if_pos rfl
  unfold pivot
  cases here with
  | nochdir mode stands cwd =>
    simp only [mode, none stands, Bool.not_true, Bool.false_and, Bool.false_eq_true, ↓reduceIte, process, cwd, and_self]
  | cwdfd mode cwdfd vs stands cwd =>
    have there : origin sp ds = ds.headD start := by
      cases ds with
      | nil => exact cwd
      | cons d ds => rfl
    simp only [mode, cwdfd, Bool.not_false, Bool.and_self, Bool.false_eq_true, ↓reduceIte, stands.base, there, and_self]
  | chdir mode cwdfd rfd back found stands chain cwd =>
    simp only [mode, cwdfd, none stands, Bool.not_false, Bool.and_false, Bool.false_eq_true, ↓reduceIte, process, cwd, and_self]

/-- The descriptors of open directories are open. -/
theorem isOpen (here : Here sp start ds dirs) (member : n ∈ dirs) : (sp.kernel.fds.find n).isSome := by
  cases here with
  | nochdir mode stands cwd => exact stands.others n member
  | cwdfd mode cwdfd vs stands cwd => exact stands.others n member
  | chdir mode cwdfd rfd back found stands chain cwd => exact stands.others n (List.mem_append_left _ member)

end Here

/-! ## Changes of directory -/

/-- The process is in another directory. -/
def inside (sp : FTS env) (node : env.fs.Node) : FTS env := { sp with kernel := { sp.kernel with cwd := node } }

section Unfailing

variable (reliable : env.Reliable)

include reliable in
theorem fchdir_spec {node : env.fs.Node} (found : sp.kernel.fds.find n = some node) :
    Ends fails (fun r sp' => r = false ∧ Leaves sp.kernel.fds (inside sp node) sp') (fchdir n) sp := by
  apply Ends.bind (request_spec reliable)
  rintro _ t ⟨rfl, same⟩
  simp only [Int.not_lt.mpr (Int.natCast_nonneg n), ↓reduceIte]
  apply Ends.bind use_spec
  rintro _ u ⟨rfl, same'⟩
  simp only [same.base, base_natCast, found]
  have same := same.then_same same'
  apply Ends.modify_bind
  refine ⟨rfl, same.fds, rfl, ?_⟩
  rw [same.rest]
  rfl

/-- In another directory, a stream stands on the same. -/
theorem stands_inside {vs : List ℤ} (stands : Stands sp vs [] dirs) (node : env.fs.Node) : Stands (inside sp node) vs [] dirs :=
  ⟨stands.ring, stands.default, stands.trail, stands.others, stands.distinct, stands.chain, stands.checks⟩

include reliable in
theorem fdRingCheck_here (here : Here sp start ds dirs) :
    Ends fails (fun _ sp' => Here sp' start ds dirs ∧ Still sp sp') fdRingCheck sp := by
  apply Still.of_ends fdRingCheck_aside fdRingCheck_spares
  cases here with
  | nochdir mode stands cwd =>
    apply (fdRingCheck_spec reliable stands).mono
    rintro _ t ⟨steady, stands⟩
    exact .nochdir (steady.options ▸ mode) stands (steady.cwd.trans cwd)
  | cwdfd mode cwdfd vs stands cwd =>
    apply (fdRingCheck_spec reliable stands).mono
    rintro _ t ⟨steady, stands⟩
    exact .cwdfd (steady.options ▸ mode) (steady.options ▸ cwdfd) vs stands (steady.cwd.trans cwd)
  | chdir mode cwdfd rfd back found stands chain cwd =>
    apply ((fdRingCheck_spec reliable stands).and (fdRingCheck_spares sp)).mono
    rintro _ t ⟨⟨steady, stands⟩, -, -, same⟩
    refine .chdir (steady.options ▸ mode) (steady.options ▸ cwdfd) rfd (same.trans back) ?_ stands chain (steady.cwd.trans cwd)
    rw [steady.fds, found]

/-! ### The way down -/

theorem Plain.virtual {o : Options} (plain : Plain o) (mode : o.nochdir = false) (cwdfd : o.cwdfd = true) : o.Virtual :=
  ⟨cwdfd, mode, plain.logical, plain.physical⟩

include reliable in
theorem isLeaf_spec {p : Ftsent} : Ends fails (fun _ sp' => Leaves sp.kernel.fds sp sp') (isLeaf p) sp := by
  apply Ends.get_bind
  dsimp only
  split_ifs
  · exact ask_spec reliable
  · exact .refl sp

private theorem popParent_real (sp : FTS env) {dir : Option (List UInt8)} :
    Ends fails (fun r sp' => r = ((n : ℤ), dir) ∧ sp' = sp) (popParent n dir) sp := by
  apply Ends.get_bind
  rw [if_neg fun asked => absurd asked.1 (Int.not_lt.mpr (Int.natCast_nonneg n))]
  exact ⟨rfl, rfl⟩

private theorem newDir_real (sp : FTS env) {dir : Option (List UInt8)} :
    Ends fails (fun r sp' => r = (n : ℤ) ∧ sp' = sp) (newDir n dir) sp := by
  rw [newDir, if_pos (Int.natCast_nonneg n)]
  exact ⟨rfl, rfl⟩

private theorem changedir_nochdir {st : Stat} {fd : ℤ} {dir : Option (List UInt8)}
    (mode : sp.ftsOptions.nochdir = true)
    (cwdfd : sp.ftsOptions.cwdfd = false) : Ends fails (fun r sp' => r = false ∧ sp' = sp) (ftsSafeChangedir st fd dir) sp := by
  apply Ends.get_bind
  simp only [mode, cwdfd, Bool.false_eq_true, false_and, ↓reduceIte]
  exact ⟨rfl, rfl⟩

include reliable in
private theorem changedir_chdir {st : Stat} {c : env.fs.Node} (mode : sp.ftsOptions.nochdir = false)
    (cwdfd : sp.ftsOptions.cwdfd = false)
    (logical : sp.ftsOptions.logical = false) (found : sp.kernel.fds.find n = some c) :
    Ends fails (fun r sp' => r = false ∧ Leaves sp.kernel.fds (inside sp c) sp') (ftsSafeChangedir st n none) sp := by
  have real : ¬ (n : ℤ) < 0 := Int.not_lt.mpr (Int.natCast_nonneg n)
  apply Ends.get_bind
  simp only [mode, Bool.false_eq_true, ↓reduceIte]
  apply Ends.bind (popParent_real sp)
  rintro _ t ⟨rfl, unchanged⟩
  rw [unchanged]
  apply Ends.bind (newDir_real sp)
  rintro _ u ⟨rfl, unchanged⟩
  rw [unchanged, if_neg real]
  have passed : Ends fails (fun r u => r = true ∧ u = sp) (verifyDir st none n) sp := by
    apply Ends.get_bind
    rw [logical, if_neg (by nofun)]
    exact ⟨rfl, rfl⟩
  apply Ends.bind passed
  rintro _ v ⟨rfl, unchanged⟩
  rw [unchanged]
  simp only [cwdfd, Bool.false_eq_true, ↓reduceIte]
  apply Ends.bind (fchdir_spec reliable found)
  rintro _ w ⟨rfl, leaves⟩
  rw [bail, if_neg real]
  exact ⟨rfl, leaves⟩

include reliable in
/-- By the descriptor that it is read by, a stream goes into a directory. -/
theorem buildDescend_here {p : Ftsent} {c : env.fs.Node} (plain : Plain sp.ftsOptions) (here : Here sp start ds (n :: dirs))
    (found : sp.kernel.fds.find n = some c) (chain : (c :: ds).IsChain (Climbs env.fs)) :
    Ends fails (fun r sp' => r = (true, p) ∧ Here sp' start (c :: ds) (n :: dirs)) (buildDescend p n) sp := by
  refine .bind (isLeaf_spec reliable) fun _ t same => ?_
  have here' := here.same same
  have there := same.fds ▸ found
  have options : t.ftsOptions = sp.ftsOptions := same.kept.options
  have real : ¬ (n : ℤ) < 0 := Int.not_lt.mpr (Int.natCast_nonneg n)
  have copied : t.ftsOptions.cwdfd = false → Ends fails (fun r u => r = (n : ℤ) ∧ u = t) (descentFd n) t := by
    intro cwdfd
    apply Ends.get_bind
    rw [cwdfd, if_neg Bool.false_ne_true]
    exact ⟨rfl, rfl⟩
  cases here' with
  | nochdir mode stands cwd =>
    have cwdfd := options ▸ plain.apart (options ▸ mode)
    apply Ends.bind (copied cwdfd)
    rintro _ u ⟨rfl, unchanged⟩
    rw [unchanged, if_neg real]
    apply Ends.bind (changedir_nochdir mode cwdfd)
    rintro _ v ⟨rfl, unchanged⟩
    rw [unchanged]
    exact ⟨rfl, .nochdir mode stands cwd⟩
  | cwdfd mode cwdfd vs stands cwd =>
    have virtual := (options ▸ plain : Plain t.ftsOptions).virtual mode cwdfd
    have copy : Ends fails (Opens c t) (descentFd n) t := by
      apply Ends.get_bind
      rw [cwdfd, if_pos rfl]
      exact dupfd_spec reliable there
    apply Ends.bind copy
    rintro _ u ⟨m, rfl, unused, opens⟩
    rw [if_neg (Int.not_lt.mpr (Int.natCast_nonneg m))]
    have there : u.kernel.fds.find m = some c := by rw [opens.fds, Descriptors.find_insert_self]
    apply Ends.bind (changedir_spec reliable (opens.kept.options ▸ virtual) (stands.insert unused opens) there chain)
    rintro _ w ⟨rfl, kept, ws, stands⟩
    have options := kept.options.trans opens.kept.options
    exact ⟨rfl, .cwdfd (options ▸ mode) (options ▸ cwdfd) ws stands ((kept.cwd.trans opens.cwd).trans cwd)⟩
  | chdir mode cwdfd rfd back found' stands chain' cwd =>
    apply Ends.bind (copied cwdfd)
    rintro _ u ⟨rfl, unchanged⟩
    rw [unchanged, if_neg real]
    apply Ends.bind (changedir_chdir reliable mode cwdfd ((congrArg _ options).trans plain.logical) there)
    rintro _ u ⟨rfl, leaves⟩
    have options : u.ftsOptions = t.ftsOptions := leaves.kept.options
    refine ⟨rfl, .chdir (options ▸ mode) (options ▸ cwdfd) rfd ?_ ?_ ((stands_inside stands c).same leaves) chain leaves.cwd⟩
    · rw [leaves.rest]
      exact back
    · rw [leaves.fds, found']

/-! ### The way up -/

include reliable in
/-- Without `FTS_CWDFD`, the parent directory is opened by its name, and checked. -/
theorem changedirUp_chdir {st : Stat} {d u : env.fs.Node} (mode : sp.ftsOptions.nochdir = false)
    (cwdfd : sp.ftsOptions.cwdfd = false) (cwd : sp.kernel.cwd = d) (climbs : Climbs env.fs d u)
    (recorded : st.devIno = (env.fs.stat u).devIno) :
    Ends fails (fun r sp' => r = false ∧ ∃ m ∉ sp.kernel.fds.numbers,
      Leaves ((sp.kernel.fds.insert m u).close m) (inside sp u) sp') (ftsSafeChangedir st (-1) (some dotdot)) sp := by
  apply Ends.get_bind
  simp only [mode, Bool.false_eq_true, ↓reduceIte]
  have asked : Ends fails (fun r t => r = (-1, some dotdot) ∧ t = sp) (popParent (-1) (some dotdot)) sp := by
    apply Ends.get_bind
    simp only [cwdfd, Bool.false_eq_true, and_false, ↓reduceIte]
    exact ⟨rfl, rfl⟩
  apply Ends.bind asked
  rintro _ t ⟨rfl, unchanged⟩
  rw [unchanged]
  have opens : Ends fails (Opens u sp) (newDir (-1) (some dotdot)) sp := by
    apply Ends.get_bind
    rw [cwdfd, if_neg Bool.false_ne_true]
    exact openat_spec reliable (if_pos rfl) (cwd ▸ climbs.1 _) climbs.2
  apply Ends.bind opens
  rintro _ v ⟨m, rfl, unused, opens⟩
  rw [if_neg (Int.not_lt.mpr (Int.natCast_nonneg m))]
  have there : v.kernel.fds.find m = some u := by rw [opens.fds, Descriptors.find_insert_self]
  apply Ends.bind (verifyDir_spec reliable there recorded)
  rintro _ w ⟨rfl, same⟩
  have opens := opens.then_same same
  have options : w.ftsOptions = sp.ftsOptions := opens.kept.options
  have there : w.kernel.fds.find m = some u := same.fds ▸ there
  simp only [cwdfd, Bool.false_eq_true, ↓reduceIte]
  apply Ends.bind (fchdir_spec reliable there)
  rintro _ x ⟨rfl, moved⟩
  have there : x.kernel.fds.find m = some u := moved.fds ▸ there
  rw [bail, if_pos (by decide)]
  refine .bind getErrno_spec fun errno y same => ?_
  refine .bind (close_spec reliable (same.fds ▸ there)) fun _ z closed => ?_
  apply Ends.bind setErrno_spec
  intro _ z' last
  have after := ((moved.then_same same).trans closed).then_same last
  refine ⟨rfl, m, unused, ?_, after.cwd, ?_⟩
  · rw [after.fds, same.fds, moved.fds, opens.fds]
  · rw [after.rest]
    change { w with kernel := z'.kernel } = { sp with kernel := z'.kernel }
    rw [opens.rest]

include reliable in
/-- From a directory to that of the entry above. -/
theorem changedirUp_here {parents : List (Ftsent × List Ftsent)} {q : Ftsent} {d u : env.fs.Node} {us : List env.fs.Node}
    (plain : Plain sp.ftsOptions) (here : Here sp start (d :: u :: us) dirs) (above : parent parents = some q)
    (recorded : q.ftsStatp.devIno = (env.fs.stat u).devIno) :
    Ends fails (fun r sp' => r = false ∧ Here sp' start (u :: us) dirs) (changedirUp parents) sp := by
  unfold changedirUp
  rw [above]
  cases here with
  | nochdir mode stands cwd =>
    apply (changedir_nochdir mode (plain.apart mode)).mono
    rintro r t ⟨lost, unchanged⟩
    rw [unchanged]
    exact ⟨lost, .nochdir mode stands cwd⟩
  | cwdfd mode cwdfd vs stands cwd =>
    apply (ascend_spec reliable (plain.virtual mode cwdfd) stands recorded).mono
    rintro r t ⟨lost, kept, ws, stands⟩
    exact ⟨lost, .cwdfd (kept.options ▸ mode) (kept.options ▸ cwdfd) ws stands (kept.cwd.trans cwd)⟩
  | chdir mode cwdfd rfd back found stands chain cwd =>
    obtain ⟨climbs, chain⟩ := List.isChain_cons_cons.mp chain
    apply (changedirUp_chdir reliable mode cwdfd cwd climbs recorded).mono
    rintro r t ⟨lost, m, unused, leaves⟩
    rw [Descriptors.close_insert unused] at leaves
    have options : t.ftsOptions = sp.ftsOptions := leaves.kept.options
    refine ⟨lost, .chdir (options ▸ mode) (options ▸ cwdfd) rfd ?_ ?_ ((stands_inside stands u).same leaves) chain leaves.cwd⟩
    · rw [leaves.rest]
      exact back
    · rw [leaves.fds, found]

include reliable in
/-- Back to where the stream was started. -/
theorem restoreInitialCwd_here (plain : Plain sp.ftsOptions) (here : Here sp start ds dirs) :
    Ends fails (fun r sp' => r = false ∧ Here sp' start [] dirs) restoreInitialCwd sp := by
  have cleared : ∀ {t : FTS env}, t.ftsFdRing.Holds [] → Ends fails (fun _ u => u = t) (fdRingClear 4) t := by
    intro t holds
    apply Ends.get_bind
    rw [holds.pop_nil]
    exact rfl
  cases here with
  | nochdir mode stands cwd =>
    apply Ends.get_bind
    have stays : ∀ fd, Ends fails (fun r t => r = false ∧ t = sp) (ftsFchdir fd) sp := by
      intro fd
      apply Ends.get_bind
      rw [if_pos mode]
      exact ⟨rfl, rfl⟩
    apply Ends.bind (stays _)
    rintro _ t ⟨rfl, unchanged⟩
    rw [unchanged]
    apply Ends.bind (cleared stands.ring)
    rintro _ u unchanged
    rw [unchanged]
    exact ⟨rfl, .nochdir mode stands cwd⟩
  | cwdfd mode cwdfd vs stands cwd =>
    apply (restore_spec reliable (plain.virtual mode cwdfd) stands).mono
    rintro r t ⟨lost, kept, stands⟩
    exact ⟨lost, .cwdfd (kept.options ▸ mode) (kept.options ▸ cwdfd) [] stands (kept.cwd.trans cwd)⟩
  | chdir mode cwdfd rfd back found stands chain cwd =>
    apply Ends.get_bind
    rw [cwdfd, if_neg Bool.false_ne_true, back]
    have goes : Ends fails (fun r t => r = false ∧ Leaves sp.kernel.fds (inside sp start) t) (ftsFchdir rfd) sp := by
      apply Ends.get_bind
      simp only [mode, cwdfd, Bool.false_eq_true, ↓reduceIte]
      exact fchdir_spec reliable found
    apply Ends.bind goes
    rintro _ t ⟨rfl, leaves⟩
    have stands' := (stands_inside stands start).same leaves
    apply Ends.bind (cleared stands'.ring)
    rintro _ u unchanged
    rw [unchanged]
    have options : t.ftsOptions = sp.ftsOptions := leaves.kept.options
    refine ⟨rfl, .chdir (options ▸ mode) (options ▸ cwdfd) rfd ?_ ?_ stands' .nil leaves.cwd⟩
    · rw [leaves.rest]
      exact back
    · rw [leaves.fds, found]

end Unfailing

end Yalibct.Fts.Place
