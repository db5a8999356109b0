import Mathlib.Data.List.Chain
import Yalibct.Model.FtsDescent
import Yalibct.Soundness.CycleCheck
import Yalibct.Soundness.FtsCalls
import Yalibct.Soundness.Ring

/-! # The way down and up again

On the way down, the descriptors of the directories above are in the ring, the nearest one first, as far
as it reaches. On the way up they are taken from it; once it is empty, the parent directory is opened by
its name. No other descriptor of the traversal is touched.
-/

namespace Yalibct.Fts

open Machine

/-! ## What the ring refers to -/

section Trails

variable {Node : Type} {fds fds' : Descriptors Node} {v : ℤ} {vs : List ℤ} {d : Node} {ds : List Node} {n : ℕ}

/-- The descriptors among some values. -/
def opened (vs : List ℤ) : List ℕ := (vs.filter (0 ≤ ·)).map Int.toNat

/-- The values refer to the directories, as far as there are values; after the last directory comes
`AT_FDCWD`. -/
def Trail (fds : Descriptors Node) : List ℤ → List Node → Prop
  | [], _ => True
  | v :: vs, [] => v = atFdcwd ∧ vs = []
  | v :: vs, d :: ds => (∃ n : ℕ, v = n ∧ fds.find n = some d) ∧ Trail fds vs ds

@[simp] theorem opened_natCast : opened ((n : ℤ) :: vs) = n :: opened vs := by
  simp [opened]

@[simp] theorem opened_atFdcwd : opened (atFdcwd :: vs) = opened vs := by
  simp [opened, atFdcwd]

@[simp] theorem opened_nil : opened [] = [] := rfl

private theorem opened_append (vs ws : List ℤ) : opened (vs ++ ws) = opened vs ++ opened ws := by
  simp [opened]

private theorem opened_sublist {ws : List ℤ} (sublist : ws.Sublist vs) : (opened ws).Sublist (opened vs) :=
  (sublist.filter _).map _

theorem Trail.frame (trail : Trail fds vs ds) (same : ∀ n ∈ opened vs, fds'.find n = fds.find n) :
    Trail fds' vs ds := by
  induction vs generalizing ds with
  | nil => trivial
  | cons v vs ih =>
    cases ds with
    | nil => exact trail
    | cons d ds =>
      obtain ⟨⟨n, rfl, found⟩, rest⟩ := trail
      rw [opened_natCast] at same
      refine ⟨⟨n, rfl, ?_⟩, ih rest fun m member => same m (List.mem_cons_of_mem _ member)⟩
      rw [same n (List.mem_cons_self ..), found]

theorem Trail.take (trail : Trail fds vs ds) (count : ℕ) : Trail fds (vs.take count) ds := by
  induction vs generalizing ds count with
  | nil =>
    rw [List.take_nil]
    trivial
  | cons v vs ih =>
    cases count with
    | zero => trivial
    | succ count =>
      cases ds with
      | nil =>
        obtain ⟨rfl, rfl⟩ := trail
        exact ⟨rfl, List.take_nil⟩
      | cons d ds => exact ⟨trail.1, ih trail.2 count⟩

theorem Trail.isOpen (trail : Trail fds vs ds) (member : n ∈ opened vs) : (fds.find n).isSome := by
  induction vs generalizing ds with
  | nil => cases member
  | cons v vs ih =>
    cases ds with
    | nil =>
      obtain ⟨rfl, rfl⟩ := trail
      cases member
    | cons d ds =>
      obtain ⟨⟨m, rfl, found⟩, rest⟩ := trail
      rw [opened_natCast, List.mem_cons] at member
      rcases member with rfl | member
      · rw [found]
        rfl
      · exact ih rest member

/-- An open descriptor has a number in use. -/
theorem mem_numbers_of_isSome (found : (fds.find n).isSome) : n ∈ fds.numbers := by
  by_contra unused
  rw [Descriptors.find_eq_none unused] at found
  cases found

end Trails

variable {env : Env} {sp sp' : FTS env}

/-! ## What a check of the ring sees -/

/-- The values that a ring holds, as they are popped. -/
def popAll : ℕ → IRing → List ℤ
  | 0, _ => []
  | rounds + 1, ring =>
    match ring.pop with
    | none => []
    | some (v, ring) => v :: popAll rounds ring

private theorem popAll_eq {ring : IRing} {vs : List ℤ} {rounds : ℕ} (holds : ring.Holds vs)
    (bound : vs.length ≤ rounds) :
    popAll rounds ring = vs := by
  induction rounds generalizing ring vs with
  | zero => exact (List.length_eq_zero_iff.mp (Nat.le_zero.mp bound)).symm
  | succ rounds ih =>
    cases vs with
    | nil => rw [popAll, holds.pop_nil]
    | cons v vs =>
      obtain ⟨ring', popped, holds', -⟩ := holds.pop_cons
      rw [popAll, popped]
      exact congrArg (v :: ·) (ih holds' (Nat.le_of_succ_le_succ bound))

/-- The descriptors among the values refer to the parent of a directory, to the parent of that one, and
so on. -/
def Ancestors (fs : FileSystem) (fds : Descriptors fs.Node) : fs.Node → List ℤ → Prop
  | _, [] => True
  | d, v :: vs =>
    if v < 0 then Ancestors fs fds d vs
    else ∃ u, fs.resolve d dotdot true = .ok u ∧ fds.find v.toNat = some u ∧ Ancestors fs fds u vs

/-- The ring holds the ancestors of the current directory. -/
def Check.Sound {fs : FileSystem} (c : Check fs.Node) : Prop :=
  ∃ d, c.kernel.base c.cwdFd = some d ∧ Ancestors fs c.kernel.fds d (popAll 4 c.ring)

/-- From a directory, the name `..` leads to another one. -/
def Climbs (fs : FileSystem) (d u : fs.Node) : Prop :=
  (∀ follow, fs.resolve d dotdot follow = .ok u) ∧ (fs.stat u).stMode = some .directory

private theorem ancestors_of_trail {fs : FileSystem} {fds : Descriptors fs.Node} {d : fs.Node} {vs : List ℤ}
    {up : List fs.Node} (trail : Trail fds vs up) (chain : (d :: up).IsChain (Climbs fs)) :
    Ancestors fs fds d vs := by
  induction vs generalizing d up with
  | nil => trivial
  | cons v vs ih =>
    cases up with
    | nil =>
      obtain ⟨rfl, rfl⟩ := trail
      exact trivial
    | cons u up =>
      obtain ⟨⟨n, rfl, found⟩, rest⟩ := trail
      rw [List.isChain_cons_cons] at chain
      rw [Ancestors, if_neg (Int.not_lt.mpr (Int.natCast_nonneg n))]
      exact ⟨u, chain.1.1 true, found, ih rest chain.2⟩

/-! ## The standing of a stream -/

/-- The stream is in the first of the directories, below the others, and `vs` are in its ring; these
directories are open besides. -/
structure Stands (sp : FTS env) (vs : List ℤ) (ds : List env.fs.Node) (dirs : List ℕ) : Prop where
  ring : sp.ftsFdRing.Holds vs
  default : sp.ftsFdRing.irDefaultVal = -1
  trail : Trail sp.kernel.fds (sp.ftsCwdFd :: vs) ds
  others : ∀ n ∈ dirs, (sp.kernel.fds.find n).isSome
  distinct : (opened (sp.ftsCwdFd :: vs) ++ dirs).Nodup
  chain : ds.IsChain (Climbs env.fs)
  checks : ∀ c ∈ sp.checks, c.Sound

/-- A failure that has nothing to do with the ring. -/
def Excused (e : Fault) (sp : FTS env) : Prop := (e ≠ .ring ∧ e ≠ .advance) ∧ ∀ c ∈ sp.checks, c.Sound

theorem Excused.assertion {sp : FTS env} (checks : ∀ c ∈ sp.checks, c.Sound) : Excused .assertion sp :=
  ⟨⟨nofun, nofun⟩, checks⟩

/-- What changes of directory leave alone. -/
structure Kept (sp sp' : FTS env) : Prop where
  cur : sp'.ftsCur = sp.ftsCur
  path : sp'.ftsPath = sp.ftsPath
  options : sp'.ftsOptions = sp.ftsOptions
  cwd : sp'.kernel.cwd = sp.kernel.cwd

theorem Kept.refl (sp : FTS env) : Kept sp sp := ⟨rfl, rfl, rfl, rfl⟩

theorem Kept.trans {sp'' : FTS env} (first : Kept sp sp') (second : Kept sp' sp'') : Kept sp sp'' :=
  ⟨second.cur.trans first.cur, second.path.trans first.path, second.options.trans first.options,
    second.cwd.trans first.cwd⟩

theorem Leaves.kept {fds : Descriptors env.fs.Node} (leaves : Leaves fds sp sp') : Kept sp sp' := by
  rw [leaves.rest]
  exact ⟨rfl, rfl, rfl, leaves.cwd⟩

/-- What leaves the descriptors alone, too. -/
structure Steady (sp sp' : FTS env) : Prop extends Kept sp sp' where
  fds : sp'.kernel.fds = sp.kernel.fds

theorem Steady.trans {sp'' : FTS env} (first : Steady sp sp') (second : Steady sp' sp'') : Steady sp sp'' :=
  ⟨first.toKept.trans second.toKept, second.fds.trans first.fds⟩

theorem Leaves.steady (leaves : Leaves sp.kernel.fds sp sp') : Steady sp sp' := ⟨leaves.kept, leaves.fds⟩

variable {vs : List ℤ} {ds : List env.fs.Node} {dirs : List ℕ} {n : ℕ}

theorem Leaves.cwdFd {fds : Descriptors env.fs.Node} (leaves : Leaves fds sp sp') : sp'.ftsCwdFd = sp.ftsCwdFd := by
  rw [leaves.rest]

theorem Leaves.ring {fds : Descriptors env.fs.Node} (leaves : Leaves fds sp sp') : sp'.ftsFdRing = sp.ftsFdRing := by
  rw [leaves.rest]

theorem Leaves.checks {fds : Descriptors env.fs.Node} (leaves : Leaves fds sp sp') : sp'.checks = sp.checks := by
  rw [leaves.rest]

/-- Descriptors that are not the stream's may come and go. -/
theorem Stands.leaves {fds : Descriptors env.fs.Node} (stands : Stands sp vs ds dirs) (leaves : Leaves fds sp sp')
    (same : ∀ n ∈ opened (sp.ftsCwdFd :: vs) ++ dirs, fds.find n = sp.kernel.fds.find n) : Stands sp' vs ds dirs := by
  refine ⟨?_, ?_, ?_, fun n member => ?_, ?_, stands.chain, ?_⟩
  · rw [leaves.ring]
    exact stands.ring
  · rw [leaves.ring]
    exact stands.default
  · rw [leaves.cwdFd, leaves.fds]
    exact stands.trail.frame fun n member => same n (List.mem_append_left _ member)
  · rw [leaves.fds, same n (List.mem_append_right _ member)]
    exact stands.others n member
  · rw [leaves.cwdFd]
    exact stands.distinct
  · rw [leaves.checks]
    exact stands.checks

theorem Stands.same (stands : Stands sp vs ds dirs) (leaves : Leaves sp.kernel.fds sp sp') : Stands sp' vs ds dirs :=
  stands.leaves leaves fun _ _ => rfl

/-- The descriptors of a stream are open. -/
theorem Stands.isOpen (stands : Stands sp vs ds dirs) (member : n ∈ opened (sp.ftsCwdFd :: vs) ++ dirs) :
    (sp.kernel.fds.find n).isSome := by
  rcases List.mem_append.mp member with trail | dir
  · exact stands.trail.isOpen trail
  · exact stands.others n dir

theorem Stands.unused (stands : Stands sp vs ds dirs) (unused : n ∉ sp.kernel.fds.numbers) :
    n ∉ opened (sp.ftsCwdFd :: vs) ++ dirs :=
  fun member => unused (mem_numbers_of_isSome (stands.isOpen member))

/-- A new descriptor is one more. -/
theorem Stands.insert {node : env.fs.Node} (stands : Stands sp vs ds dirs) (unused : n ∉ sp.kernel.fds.numbers)
    (leaves : Leaves (sp.kernel.fds.insert n node) sp sp') : Stands sp' vs ds (n :: dirs) := by
  have fresh := stands.unused unused
  have kept : Stands sp' vs ds dirs := stands.leaves leaves fun m member =>
    Descriptors.find_insert_of_ne fun equal => fresh (equal ▸ member)
  refine ⟨kept.ring, kept.default, kept.trail, fun m member => ?_, ?_, kept.chain, kept.checks⟩
  · rcases List.mem_cons.mp member with rfl | member
    · rw [leaves.fds, Descriptors.find_insert_self]
      rfl
    · exact kept.others m member
  · rw [leaves.cwdFd]
    exact List.nodup_middle.mpr (List.nodup_cons.mpr ⟨fresh, stands.distinct⟩)

/-- One of the other descriptors is closed. -/
theorem Stands.close (stands : Stands sp vs ds (n :: dirs)) (leaves : Leaves (sp.kernel.fds.close n) sp sp') :
    Stands sp' vs ds dirs := by
  obtain ⟨fresh, distinct⟩ := List.nodup_cons.mp (List.nodup_middle.mp stands.distinct)
  have fewer : Stands sp vs ds dirs := ⟨stands.ring, stands.default, stands.trail,
    fun m member => stands.others m (List.mem_cons_of_mem _ member), distinct, stands.chain, stands.checks⟩
  exact fewer.leaves leaves fun m member => Descriptors.find_close_of_ne fun equal => fresh (equal ▸ member)

/-! ## The check of the ring -/

section Unfailing

variable {fails : Fault → FTS env → Prop} (reliable : env.Reliable)

include reliable in
theorem sameFd_spec {n m : ℕ} {node : env.fs.Node} (left : sp.kernel.fds.find n = some node)
    (right : sp.kernel.fds.find m = some node) :
    Ends fails (fun r sp' => r = true ∧ Leaves sp.kernel.fds sp sp') (sameFd n m) sp := by
  apply Ends.bind (fstat_spec reliable left)
  rintro _ t ⟨rfl, same⟩
  apply Ends.bind (fstat_spec reliable (same.fds ▸ right))
  rintro _ u ⟨rfl, same'⟩
  exact ⟨CycleCheck.sameInode_iff.mpr rfl, same.then_same same'⟩

include reliable in
/-- The loop opens the parent of a directory before it closes the directory. -/
theorem fdRingCheckLoop_spec {rounds k : ℕ} {ring : IRing} {d : env.fs.Node} {up : List env.fs.Node}
    {fds : Descriptors env.fs.Node} (holds : ring.Holds vs) (bound : vs.length ≤ rounds)
    (here : sp.kernel.fds = fds.insert k d) (fresh : k ∉ fds.numbers) (trail : Trail fds vs up)
    (chain : (d :: up).IsChain (Climbs env.fs)) :
    Ends fails (fun _ sp' => Leaves fds sp sp') (fdRingCheckLoop rounds ring k) sp := by
  have finish : ∀ {sp : FTS env} {k d}, sp.kernel.fds = fds.insert k d → k ∉ fds.numbers →
      Ends fails (fun _ sp' => Leaves fds sp sp') ((do let _ ← close k : Action env Unit)) sp := by
    intro sp k d here fresh
    have found : sp.kernel.fds.find k = some d := by rw [here, Descriptors.find_insert_self]
    refine .bind (close_spec reliable found) fun _ t closed => ?_
    rw [here, Descriptors.close_insert fresh] at closed
    exact closed
  induction rounds generalizing ring vs sp k d up with
  | zero => exact finish here fresh
  | succ rounds ih =>
    rw [fdRingCheckLoop]
    cases vs with
    | nil =>
      rw [holds.pop_nil]
      exact finish here fresh
    | cons v vs =>
      obtain ⟨ring', popped, holds', -⟩ := holds.pop_cons
      rw [popped]
      have bound' := Nat.le_of_succ_le_succ bound
      cases up with
      | nil =>
        obtain ⟨rfl, rfl⟩ := trail
        exact ih holds' bound' here fresh trivial chain
      | cons u up =>
        obtain ⟨⟨n, rfl, found⟩, rest⟩ := trail
        obtain ⟨climbs, chain'⟩ := List.isChain_cons_cons.mp chain
        simp only [Int.not_lt.mpr (Int.natCast_nonneg n), ↓reduceIte]
        have base : sp.kernel.base k = some d := by rw [base_natCast, here, Descriptors.find_insert_self]
        apply Ends.bind (openat_spec reliable base (climbs.1 true) climbs.2)
        rintro _ t ⟨m, rfl, unused, opens⟩
        simp only [Int.not_lt.mpr (Int.natCast_nonneg m), ↓reduceIte]
        rw [here] at unused opens
        simp only [Descriptors.numbers, Descriptors.insert, List.map_cons, List.mem_cons, not_or] at unused
        have first : n ≠ k := fun equal => fresh (equal ▸ mem_numbers_of_isSome (by rw [found]; rfl))
        have second : n ≠ m := fun equal => unused.2 (equal ▸ mem_numbers_of_isSome (by rw [found]; rfl))
        have left : t.kernel.fds.find n = some u := by
          rw [opens.fds, Descriptors.find_insert_of_ne second, Descriptors.find_insert_of_ne first, found]
        have right : t.kernel.fds.find m = some u := by rw [opens.fds, Descriptors.find_insert_self]
        apply Ends.bind (sameFd_spec reliable left right)
        rintro _ w ⟨rfl, same⟩
        have old : w.kernel.fds.find k = some d := by
          rw [same.fds, opens.fds, Descriptors.find_insert_of_ne (Ne.symm unused.1), Descriptors.find_insert_self]
        refine .bind (close_spec reliable old) fun _ x closed => ?_
        have left : x.kernel.fds = fds.insert m u := by
          rw [closed.fds, same.fds, opens.fds, Descriptors.close_insert_comm unused.1,
            Descriptors.close_insert fresh]
        exact (ih holds' bound' left unused.2 rest chain').mono fun _ y leaves =>
          ((opens.then_same same).trans closed).trans leaves

include reliable in
/-- The check passes, and is recorded with a sound ring. -/
theorem fdRingCheck_spec (stands : Stands sp vs ds dirs) :
    Ends fails (fun _ sp' => Steady sp sp' ∧ Stands sp' vs ds dirs) fdRingCheck sp := by
  have sound : Check.Sound ⟨sp.ftsCwdFd, sp.ftsFdRing, sp.kernel⟩ := by
    have popped := popAll_eq stands.ring stands.ring.bound
    cases ds with
    | nil =>
      obtain ⟨here, rfl⟩ := stands.trail
      refine ⟨sp.kernel.cwd, by rw [here]; exact if_pos rfl, ?_⟩
      rw [popped]
      trivial
    | cons d up =>
      obtain ⟨⟨n, here, found⟩, rest⟩ := stands.trail
      refine ⟨d, by rw [here, base_natCast, found], ?_⟩
      rw [popped]
      exact ancestors_of_trail rest stands.chain
  refine .get_bind (.modify_bind ?_)
  have recorded : Stands { sp with checks := ⟨sp.ftsCwdFd, sp.ftsFdRing, sp.kernel⟩ :: sp.checks } vs ds dirs :=
    { stands with checks := List.forall_mem_cons.mpr ⟨sound, stands.checks⟩ }
  have steady : Steady sp { sp with checks := ⟨sp.ftsCwdFd, sp.ftsFdRing, sp.kernel⟩ :: sp.checks } :=
    ⟨⟨rfl, rfl, rfl, rfl⟩, rfl⟩
  cases ds with
  | nil =>
    obtain ⟨here, rfl⟩ := stands.trail
    have none : ∀ {fd}, fd = atFdcwd → ∀ s : FTS env,
        Ends fails (fun r t => r = -1 ∧ Leaves s.kernel.fds s t) (dupfd fd) s := by
      rintro _ rfl s
      exact dupfd_atFdcwd_spec reliable
    apply Ends.bind (none here _)
    rintro _ t ⟨rfl, same⟩
    have empty : Ends fails (fun _ sp' => Leaves t.kernel.fds t sp') (fdRingCheckLoop 4 sp.ftsFdRing (-1)) t := by
      rw [fdRingCheckLoop, stands.ring.pop_nil]
      exact .bind (close_negative_spec (by decide)) fun _ _ leaves => leaves
    exact empty.mono fun _ u same' =>
      ⟨steady.trans (same.then_same same').steady, recorded.same (same.then_same same')⟩
  | cons d up =>
    obtain ⟨⟨n, here, found⟩, rest⟩ := stands.trail
    have copy : ∀ {fd : ℤ}, fd = n → ∀ s : FTS env, s.kernel.fds.find n = some d →
        Ends fails (Opens d s) (dupfd fd) s := by
      rintro _ rfl s found
      exact dupfd_spec reliable found
    refine .bind (copy here _ found) ?_
    rintro _ t ⟨k, rfl, unused, opens⟩
    refine (fdRingCheckLoop_spec reliable stands.ring stands.ring.bound opens.fds unused rest stands.chain).mono
      fun _ u leaves => ?_
    have same := opens.trans leaves
    exact ⟨steady.trans same.steady, recorded.same same⟩

/-! ## Entering and leaving -/

theorem Stands.cycle (stands : Stands sp vs ds dirs) (cycle : Option (Cycle env.table)) :
    Stands { sp with ftsCycle := cycle } vs ds dirs :=
  ⟨stands.ring, stands.default, stands.trail, stands.others, stands.distinct, stands.chain, stands.checks⟩

/-- Whatever the cycle detection answers, it does not touch the ring. -/
theorem leaveDir_spec {p : Ftsent} {q : Option Ftsent} (stands : Stands sp vs ds dirs) :
    Ends Excused (fun _ sp' => Steady sp sp' ∧ Stands sp' vs ds dirs) (leaveDir p q) sp := by
  have steady : ∀ cycle, Steady sp { sp with ftsCycle := cycle } := fun _ => ⟨⟨rfl, rfl, rfl, rfl⟩, rfl⟩
  have unchanged : Steady sp sp := ⟨.refl sp, rfl⟩
  have ended : Excused .cycle sp := ⟨⟨nofun, nofun⟩, stands.checks⟩
  apply Ends.get_bind
  dsimp only
  split_ifs with tight
  · split
    · split
      · exact ended
      · apply Ends.set_bind
        split_ifs
        · exact ⟨⟨nofun, nofun⟩, stands.checks⟩
        · exact ⟨steady _, stands.cycle _⟩
    · exact ended
  · split
    · exact ⟨unchanged, stands⟩
    · split_ifs
      · split
        · split
          · exact ended
          · exact ⟨steady _, stands.cycle _⟩
        · exact ended
      · exact ⟨unchanged, stands⟩

include reliable in
theorem leaveDirChecked_spec {p : Ftsent} {q : Option Ftsent} (stands : Stands sp vs ds dirs) :
    Ends Excused (fun _ sp' => Steady sp sp' ∧ Stands sp' vs ds dirs) (leaveDirChecked p q) sp :=
  .bind (leaveDir_spec stands) fun _ _ left =>
    (fdRingCheck_spec reliable left.2).mono fun _ _ checked => ⟨left.1.trans checked.1, checked.2⟩

/-- An entry that was entered, or found to be one that is active. -/
def Entered (p q : Ftsent) : Prop :=
  q = p ∨ ∃ ent, q = { p with ftsCycle := some ent, ftsInfo := .dc }

include reliable in
theorem enterDir_spec {p : Ftsent} (stands : Stands sp vs ds dirs) :
    Ends Excused (fun r sp' => Entered p r.2 ∧ Steady sp sp' ∧ Stands sp' vs ds dirs) (enterDir p) sp := by
  have ended : ∀ {t : FTS env}, Stands t vs ds dirs → Excused .cycle t := fun stands =>
    ⟨⟨nofun, nofun⟩, stands.checks⟩
  apply Ends.get_bind
  split_ifs with tight
  · apply Ends.bind (allocated_spec reliable)
    rintro _ t ⟨rfl, same⟩
    have stands' := stands.same same
    have steady : ∀ cycle, Steady sp { t with ftsCycle := cycle } := fun _ =>
      same.steady.trans ⟨⟨rfl, rfl, rfl, rfl⟩, rfl⟩
    simp only [↓reduceIte]
    apply Ends.get_bind
    split
    · split
      · exact ended stands'
      · apply Ends.modify_bind
        split
        · exact ⟨.inl rfl, steady _, stands'.cycle _⟩
        · exact ⟨.inl rfl, steady _, stands'.cycle _⟩
        · exact ⟨.inr ⟨_, rfl⟩, steady _, stands'.cycle _⟩
    · exact ended stands'
  · apply Ends.get_bind
    split
    · split
      · exact ended stands
      · apply Ends.modify_bind
        refine ⟨?_, ⟨⟨rfl, rfl, rfl, rfl⟩, rfl⟩, stands.cycle _⟩
        split_ifs
        · exact .inr ⟨_, rfl⟩
        · exact .inl rfl
    · exact ended stands

/-! ## Changing the directory -/

/-- `FTS_CWDFD` without `FTS_NOCHDIR`, in a physical traversal. -/
structure Options.Virtual (o : Options) : Prop where
  cwdfd : o.cwdfd = true
  nochdir : o.nochdir = false
  logical : o.logical = false
  physical : o.physical = true

/-- After pushing the current directory, and closing what the ring displaces. -/
structure Pushed (vs : List ℤ) (dirs : List ℕ) (fd : ℤ) (sp sp' : FTS env) : Prop where
  kept : Kept sp sp'
  cwdFd : sp'.ftsCwdFd = fd
  ring : sp'.ftsFdRing.Holds ((sp.ftsCwdFd :: vs).take 4)
  default : sp'.ftsFdRing.irDefaultVal = -1
  checks : sp'.checks = sp.checks
  same : ∀ n ∈ opened ((sp.ftsCwdFd :: vs).take 4) ++ dirs, sp'.kernel.fds.find n = sp.kernel.fds.find n

/-- A list of at most four values has a fourth one, or none. -/
theorem fourth_cases (bound : vs.length ≤ 4) (default : ℤ) :
    vs.getD 3 default = default ∧ vs.take 3 = vs ∨ ∃ w v, vs = w ++ [v] ∧ vs.getD 3 default = v ∧ vs.take 3 = w := by
  rcases Nat.lt_or_ge vs.length 4 with short | long
  · refine .inl ⟨?_, List.take_of_length_le (Nat.le_of_lt_succ short)⟩
    rw [List.getD_eq_getElem?_getD, List.getElem?_eq_none (Nat.le_of_lt_succ short)]
    rfl
  · obtain ⟨w, v, rfl⟩ := List.eq_nil_or_concat' vs |>.resolve_left (by rintro rfl; exact absurd long (by decide))
    have length : w.length = 3 := by
      rw [List.length_append, List.length_singleton] at bound long
      omega
    refine .inr ⟨w, v, rfl, ?_, ?_⟩
    · rw [List.getD_eq_getElem?_getD, List.getElem?_append_right (by omega), length]
      rfl
    · rw [List.take_append_of_le_length (by omega), List.take_of_length_le (by omega)]

include reliable in
theorem push_spec (dirs : List ℕ) {fd : ℤ} (holds : sp.ftsFdRing.Holds vs) (default : sp.ftsFdRing.irDefaultVal = -1)
    (found : ∀ n ∈ opened vs, (sp.kernel.fds.find n).isSome)
    (distinct : (opened (sp.ftsCwdFd :: vs) ++ dirs).Nodup) (other : sp.ftsCwdFd = fd → sp.ftsCwdFd = atFdcwd) :
    Ends fails (fun _ sp' => Pushed vs dirs fd sp sp') (cwdAdvanceFd fd true) sp := by
  apply Ends.get_bind
  have passed : ¬ (sp.ftsCwdFd = fd ∧ sp.ftsCwdFd ≠ atFdcwd) := fun both => both.2 (other both.1)
  obtain ⟨displaced, holds', default'⟩ := holds.push sp.ftsCwdFd
  simp only [passed, ↓reduceIte]
  apply Ends.modify_bind
  rw [displaced, default]
  have taken : (sp.ftsCwdFd :: vs).take 4 = sp.ftsCwdFd :: vs.take 3 := rfl
  rcases fourth_cases holds.bound (-1) with ⟨none, -⟩ | ⟨w, v, rfl, last, first⟩
  · rw [none, if_neg (by decide)]
    exact ⟨⟨rfl, rfl, rfl, rfl⟩, rfl, holds', default'.trans default, rfl, fun _ _ => rfl⟩
  · rw [last]
    split_ifs with real
    · obtain ⟨m, rfl⟩ := Int.eq_ofNat_of_zero_le real
      have member : m ∈ opened (w ++ [(m : ℤ)]) := by
        rw [opened_append, opened_natCast]
        exact List.mem_append_right _ (List.mem_singleton_self m)
      obtain ⟨node, there⟩ := Option.isSome_iff_exists.mp (found m member)
      refine .bind (close_spec reliable there) fun _ t closed => ?_
      refine ⟨⟨?_, ?_, ?_, closed.cwd⟩, rfl, ?_, ?_, ?_, fun n among => ?_⟩
      · exact closed.kept.cur
      · exact closed.kept.path
      · exact closed.kept.options
      · exact closed.ring ▸ holds'
      · exact (congrArg _ closed.ring).trans (default'.trans default)
      · exact closed.checks
      · change t.kernel.fds.find n = _
        rw [closed.fds]
        apply Descriptors.find_close_of_ne
        rintro rfl
        -- The displaced descriptor is none of the others.
        rw [taken, first] at among
        have once : (opened (sp.ftsCwdFd :: (w ++ [(n : ℤ)])) ++ dirs).Nodup := distinct
        rw [← List.cons_append, opened_append, opened_natCast, opened_nil, List.append_assoc] at once
        exact (List.nodup_cons.mp (List.nodup_middle.mp once)).1 among
    · exact ⟨⟨rfl, rfl, rfl, rfl⟩, rfl, holds', default'.trans default, rfl, fun _ _ => rfl⟩

include reliable in
/-- Into a directory that was opened. -/
theorem descend_spec {c : env.fs.Node} (stands : Stands sp vs ds (n :: dirs)) (found : sp.kernel.fds.find n = some c)
    (chain : (c :: ds).IsChain (Climbs env.fs)) :
    Ends fails (fun _ sp' => Kept sp sp' ∧ ∃ ws, Stands sp' ws (c :: ds) dirs) (cwdAdvanceFd n true) sp := by
  obtain ⟨fresh, distinct⟩ := List.nodup_cons.mp (List.nodup_middle.mp stands.distinct)
  have other : sp.ftsCwdFd = n → sp.ftsCwdFd = atFdcwd := fun equal => by
    rw [equal, opened_natCast] at fresh
    exact absurd (List.mem_append_left _ (List.mem_cons_self ..)) fresh
  have sublist : ∀ {ws : List ℤ}, ws.Sublist (sp.ftsCwdFd :: vs) → (opened ws).Sublist (opened (sp.ftsCwdFd :: vs)) :=
    opened_sublist
  have inRing : ∀ m ∈ opened vs, (sp.kernel.fds.find m).isSome := fun m member =>
    stands.trail.isOpen ((sublist (List.sublist_cons_self ..)).subset member)
  refine (push_spec reliable (n :: dirs) stands.ring stands.default inRing stands.distinct other).mono
    fun _ t pushed => ⟨pushed.kept, (sp.ftsCwdFd :: vs).take 4, ?_⟩
  have kept := sublist (List.take_sublist 4 (sp.ftsCwdFd :: vs))
  have same := pushed.same
  refine ⟨pushed.ring, pushed.default, ?_, fun m member => ?_, ?_, chain, pushed.checks ▸ stands.checks⟩
  · rw [pushed.cwdFd]
    refine ⟨⟨n, rfl, ?_⟩, (stands.trail.take 4).frame fun m member => same m (List.mem_append_left _ member)⟩
    rw [same n (List.mem_append_right _ (List.mem_cons_self ..)), found]
  · rw [same m (List.mem_append_right _ (List.mem_cons_of_mem _ member))]
    exact stands.others m (List.mem_cons_of_mem _ member)
  · rw [pushed.cwdFd, opened_natCast, List.cons_append]
    refine List.nodup_cons.mpr ⟨fun member => fresh ?_, distinct.sublist (kept.append_right _)⟩
    exact (kept.append_right _).subset member

include reliable in
theorem fdRingClear_spec {rounds : ℕ} (holds : sp.ftsFdRing.Holds vs) (bound : vs.length ≤ rounds)
    (default : sp.ftsFdRing.irDefaultVal = -1) (found : ∀ n ∈ opened vs ++ dirs, (sp.kernel.fds.find n).isSome)
    (distinct : (opened vs ++ dirs).Nodup) :
    Ends fails (fun _ sp' => Kept sp sp' ∧ sp'.ftsCwdFd = sp.ftsCwdFd ∧ sp'.checks = sp.checks ∧
      sp'.ftsFdRing.Holds [] ∧ sp'.ftsFdRing.irDefaultVal = -1 ∧ (∀ n ∈ dirs, (sp'.kernel.fds.find n).isSome) ∧
      sp'.kernel.fds = (opened vs).foldl Descriptors.close sp.kernel.fds) (fdRingClear rounds) sp := by
  induction rounds generalizing vs sp with
  | zero =>
    rw [List.length_eq_zero_iff.mp (Nat.le_zero.mp bound)] at holds found ⊢
    exact ⟨.refl sp, rfl, rfl, holds, default, found, rfl⟩
  | succ rounds ih =>
    apply Ends.get_bind
    cases vs with
    | nil =>
      rw [holds.pop_nil]
      exact ⟨.refl sp, rfl, rfl, holds, default, found, rfl⟩
    | cons v vs =>
      obtain ⟨ring, popped, holds', default'⟩ := holds.pop_cons
      have bound' := Nat.le_of_succ_le_succ bound
      rw [popped]
      apply Ends.set_bind
      split_ifs with real
      · obtain ⟨m, rfl⟩ := Int.eq_ofNat_of_zero_le real
        rw [opened_natCast, List.cons_append] at found distinct
        obtain ⟨fresh, distinct⟩ := List.nodup_cons.mp distinct
        obtain ⟨node, there⟩ := Option.isSome_iff_exists.mp (found m (List.mem_cons_self ..))
        refine .bind (close_spec reliable there) fun _ t closed => ?_
        have found' : ∀ n ∈ opened vs ++ dirs, (t.kernel.fds.find n).isSome := fun n member => by
          have differ : n ≠ m := by
            rintro rfl
            exact fresh member
          rw [closed.fds]
          refine (congrArg Option.isSome (Descriptors.find_close_of_ne differ)).trans ?_
          exact found n (List.mem_cons_of_mem _ member)
        refine (ih (closed.ring ▸ holds') bound' ((congrArg _ closed.ring).trans (default'.trans default)) found'
          distinct).mono ?_
        rintro _ u ⟨kept, cwdFd, checks, ring, default, others, fds⟩
        rw [closed.fds] at fds
        rw [opened_natCast, List.foldl_cons]
        exact ⟨⟨kept.cur.trans closed.kept.cur, kept.path.trans closed.kept.path,
          kept.options.trans closed.kept.options, kept.cwd.trans closed.cwd⟩, cwdFd.trans closed.cwdFd,
          checks.trans closed.checks, ring, default, others, fds⟩
      · have none : opened (v :: vs) = opened vs := by
          simp [opened, real]
        rw [none] at found distinct ⊢
        have rounds := @ih { sp with ftsFdRing := ring } vs holds' bound' (default'.trans default) found distinct
        apply rounds.mono
        rintro _ u ⟨kept, rest⟩
        exact ⟨⟨kept.cur, kept.path, kept.options, kept.cwd⟩, rest⟩

include reliable in
/-- Back to where the traversal started. -/
theorem restore_spec (virtual : sp.ftsOptions.Virtual) (stands : Stands sp vs ds dirs) :
    Ends fails (fun r sp' => r = false ∧ Kept sp sp' ∧ Stands sp' [] [] dirs) restoreInitialCwd sp := by
  apply Ends.get_bind
  rw [virtual.cwdfd, if_pos rfl]
  have inRing : ∀ m ∈ opened vs, (sp.kernel.fds.find m).isSome := fun m member =>
    stands.trail.isOpen ((opened_sublist (List.sublist_cons_self ..)).subset member)
  have changed : Ends fails (fun r t => r = false ∧ Pushed vs dirs atFdcwd sp t) (ftsFchdir atFdcwd) sp := by
    apply Ends.get_bind
    simp only [virtual.nochdir, virtual.cwdfd, Bool.false_eq_true, ↓reduceIte]
    exact .bind (push_spec reliable dirs stands.ring stands.default inRing stands.distinct id)
      fun _ t pushed => ⟨rfl, pushed⟩
  apply Ends.bind changed
  rintro _ t ⟨rfl, pushed⟩
  have sublist := opened_sublist (List.take_sublist 4 (sp.ftsCwdFd :: vs))
  have found : ∀ n ∈ opened ((sp.ftsCwdFd :: vs).take 4) ++ dirs, (t.kernel.fds.find n).isSome := fun n member => by
    rw [pushed.same n member]
    exact stands.isOpen ((sublist.append_right dirs).subset member)
  refine .bind (fdRingClear_spec reliable pushed.ring (List.length_take_le 4 _) pushed.default found
    (stands.distinct.sublist (sublist.append_right dirs))) ?_
  rintro _ u ⟨kept, cwdFd, checks, ring, default, others, -⟩
  have here : u.ftsCwdFd = atFdcwd := cwdFd.trans pushed.cwdFd
  refine ⟨rfl, pushed.kept.trans kept, ring, default, ⟨here, rfl⟩, others, ?_, .nil, ?_⟩
  · rw [here, opened_atFdcwd]
    exact stands.distinct.sublist (List.sublist_append_right ..)
  · rw [checks, pushed.checks]
    exact stands.checks

include reliable in
/-- One level up, to a directory that is open. -/
theorem retreat_spec {k : ℕ} {node : env.fs.Node} (virtual : sp.ftsOptions.Virtual) (here : sp.ftsCwdFd = k)
    (found : sp.kernel.fds.find k = some node) (other : n ≠ k) :
    Ends fails (fun _ sp' => Leaves (sp.kernel.fds.close k) { sp with ftsCwdFd := n } sp')
      (cwdAdvanceFd n false) sp := by
  apply Ends.get_bind
  have passed : ¬ (sp.ftsCwdFd = n ∧ sp.ftsCwdFd ≠ atFdcwd) := fun both => by
    have same := both.1
    rw [here] at same
    exact other (Int.natCast_inj.mp same).symm
  have real : 0 ≤ sp.ftsCwdFd := here ▸ Int.natCast_nonneg k
  simp only [passed, ↓reduceIte, virtual.nochdir, real, Bool.not_false, Bool.false_eq_true]
  have closes : ∀ {fd : ℤ}, fd = k → Ends fails (fun _ sp' => Leaves (sp.kernel.fds.close k) sp sp') (close fd) sp := by
    rintro _ rfl
    exact close_spec reliable found
  refine .bind (closes here) fun _ t closed => ?_
  refine ⟨closed.fds, closed.cwd, ?_⟩
  change { t with ftsCwdFd := (n : ℤ) } = { { sp with ftsCwdFd := (n : ℤ) } with kernel := t.kernel }
  rw [closed.rest]

/-- A descriptor of the ring is not checked. -/
theorem verifyDir_skip (sp : FTS env) {st : Stat} {newfd : ℤ} (virtual : sp.ftsOptions.Virtual) :
    Ends fails (fun r sp' => r = true ∧ sp' = sp) (verifyDir st none newfd) sp := by
  apply Ends.get_bind
  have skipped : ¬ (sp.ftsOptions.logical = true ∨ none = some dotdot) := by
    rw [virtual.logical]
    nofun
  rw [if_neg skipped]
  exact ⟨rfl, rfl⟩

/-- The change to a directory that has a descriptor: it is that of the entry, or one from the ring. -/
theorem ftsSafeChangedir_given {st : Stat} {fd : ℤ} {dir : Option (List UInt8)} {t : FTS env}
    {post : Bool → FTS env → Prop} (virtual : sp.ftsOptions.Virtual)
    (pops : Ends fails (fun r u => r = ((n : ℤ), none) ∧ u = t) (popParent fd dir) sp)
    (same : t.ftsOptions = sp.ftsOptions)
    (advance : Ends fails post (do cwdAdvanceFd n (!(dir == some dotdot)); return false) t) :
    Ends fails post (ftsSafeChangedir st fd dir) sp := by
  have real : ¬ (n : ℤ) < 0 := Int.not_lt.mpr (Int.natCast_nonneg n)
  have given : Ends fails (fun r u => r = (n : ℤ) ∧ u = t) (newDir n none) t := by
    rw [newDir, if_pos (Int.natCast_nonneg n)]
    exact ⟨rfl, rfl⟩
  apply Ends.get_bind
  simp only [virtual.nochdir, Bool.false_eq_true, ↓reduceIte]
  apply Ends.bind pops
  rintro _ u ⟨rfl, unchanged⟩
  rw [unchanged]
  apply Ends.bind given
  rintro _ v ⟨rfl, unchanged⟩
  rw [unchanged, if_neg real]
  apply Ends.bind (verifyDir_skip t (same ▸ virtual))
  rintro _ w ⟨rfl, unchanged⟩
  rw [unchanged]
  simp only [virtual.cwdfd, ↓reduceIte]
  exact advance

include reliable in
/-- The check of a parent directory that was opened by its name. -/
theorem verifyDir_spec {st : Stat} {u : env.fs.Node} (found : sp.kernel.fds.find n = some u)
    (recorded : st.devIno = (env.fs.stat u).devIno) :
    Ends fails (fun r sp' => r = true ∧ Leaves sp.kernel.fds sp sp') (verifyDir st (some dotdot) n) sp := by
  apply Ends.get_bind
  rw [if_pos (Or.inr rfl)]
  apply Ends.bind (fstat_spec reliable found)
  rintro _ t ⟨rfl, same⟩
  simp only [recorded, ↓reduceIte]
  exact ⟨rfl, same⟩

include reliable in
/-- To the parent directory, by a descriptor of the ring or by its name. -/
theorem ascend_spec {st : Stat} {d u : env.fs.Node} {us : List env.fs.Node} (virtual : sp.ftsOptions.Virtual)
    (stands : Stands sp vs (d :: u :: us) dirs) (recorded : st.devIno = (env.fs.stat u).devIno) :
    Ends fails (fun r sp' => r = false ∧ Kept sp sp' ∧ ∃ ws, Stands sp' ws (u :: us) dirs)
      (ftsSafeChangedir st (-1) (some dotdot)) sp := by
  obtain ⟨⟨k, here, found⟩, rest⟩ := stands.trail
  obtain ⟨climbs, chain⟩ := List.isChain_cons_cons.mp stands.chain
  have distinct := stands.distinct
  rw [here, opened_natCast, List.cons_append] at distinct
  obtain ⟨fresh, distinct'⟩ := List.nodup_cons.mp distinct
  -- What remains when the stream has a descriptor of the parent, and still the old one.
  have finish : ∀ {t : FTS env} {ws : List ℤ} {n : ℕ}, Kept sp t → t.ftsCwdFd = k → n ≠ k →
      Stands { t with ftsCwdFd := (n : ℤ) } ws (u :: us) (k :: dirs) →
      Ends fails (fun r sp' => r = false ∧ Kept sp sp' ∧ ∃ ws, Stands sp' ws (u :: us) dirs)
        (do cwdAdvanceFd n false; return false : Action env Bool) t := by
    intro t ws n kept cwdFd other stands'
    obtain ⟨node, there⟩ := Option.isSome_iff_exists.mp (stands'.others k (List.mem_cons_self ..))
    refine .bind (retreat_spec reliable (kept.options ▸ virtual) cwdFd there other) fun _ w leaves => ?_
    have kept' : Kept { t with ftsCwdFd := (n : ℤ) } w := leaves.kept
    exact ⟨rfl, kept.trans ⟨kept'.cur, kept'.path, kept'.options, kept'.cwd⟩, ws, stands'.close leaves⟩
  have asked : (-1 : ℤ) < 0 ∧ some dotdot = some dotdot ∧ sp.ftsOptions.cwdfd = true :=
    ⟨by decide, rfl, virtual.cwdfd⟩
  cases vs with
  | cons v vs =>
    obtain ⟨⟨n, rfl, there⟩, rest⟩ := rest
    obtain ⟨ring, popped, holds, default⟩ := stands.ring.pop_cons
    rw [opened_natCast, List.cons_append] at fresh distinct'
    have other : n ≠ k := by
      rintro rfl
      exact fresh (List.mem_cons_self ..)
    have taken : Ends fails (fun r t => r = ((n : ℤ), none) ∧ t = { sp with ftsFdRing := ring })
        (popParent (-1) (some dotdot)) sp := by
      apply Ends.get_bind
      rw [if_pos asked, popped]
      exact ⟨if_pos (Int.natCast_nonneg n), rfl⟩
    refine ftsSafeChangedir_given virtual taken rfl ?_
    refine finish ⟨rfl, rfl, rfl, rfl⟩ here other ⟨holds, default.trans stands.default, ⟨⟨n, rfl, there⟩, rest⟩, ?_, ?_,
      chain, stands.checks⟩
    · intro m member
      rcases List.mem_cons.mp member with rfl | member
      · change (sp.kernel.fds.find m).isSome
        rw [found]
        rfl
      · exact stands.others m member
    · rw [opened_natCast]
      exact List.nodup_middle.mpr distinct
  | nil =>
    have empty : Ends fails (fun r t => r = (-1, some dotdot) ∧ t = sp) (popParent (-1) (some dotdot)) sp := by
      apply Ends.get_bind
      rw [if_pos asked, stands.ring.pop_nil]
      exact ⟨rfl, rfl⟩
    apply Ends.get_bind
    simp only [virtual.nochdir, Bool.false_eq_true, ↓reduceIte]
    apply Ends.bind empty
    rintro _ t ⟨rfl, rfl⟩
    have base : t.kernel.base t.ftsCwdFd = some d := by rw [here, base_natCast, found]
    have opens : Ends fails (Opens u t) (newDir (-1) (some dotdot)) t := by
      rw [newDir, if_neg (by decide)]
      apply Ends.get_bind
      rw [virtual.cwdfd, if_pos rfl]
      exact openat_spec reliable base (climbs.1 _) climbs.2
    apply Ends.bind opens
    rintro _ w ⟨n, rfl, unused, opens⟩
    rw [if_neg (Int.not_lt.mpr (Int.natCast_nonneg n))]
    have there : w.kernel.fds.find n = some u := by rw [opens.fds, Descriptors.find_insert_self]
    apply Ends.bind (verifyDir_spec reliable there recorded)
    rintro _ x ⟨rfl, same⟩
    simp only [↓reduceIte, virtual.cwdfd]
    have opened' := opens.then_same same
    have stands' := stands.insert unused opened'
    have here' : x.ftsCwdFd = k := opened'.cwdFd.trans here
    have other : n ≠ k := by
      rintro rfl
      exact unused (mem_numbers_of_isSome (by rw [found]; rfl))
    refine finish opened'.kept here' other ⟨stands'.ring, stands'.default, ⟨⟨n, rfl, ?_⟩, trivial⟩, ?_, ?_, chain,
      stands'.checks⟩
    · rw [opened'.fds, Descriptors.find_insert_self]
    · intro m member
      rcases List.mem_cons.mp member with rfl | member
      · exact stands'.isOpen (List.mem_append_left _ (by rw [here', opened_natCast]; exact List.mem_cons_self ..))
      · exact stands'.others m (List.mem_cons_of_mem _ member)
    · have distinct := stands'.distinct
      rw [here', opened_natCast] at distinct
      rw [opened_natCast]
      exact (List.Perm.swap ..).nodup_iff.mp distinct

end Unfailing

end Yalibct.Fts
