import Yalibct.Model.Fts
import Yalibct.Soundness.FtsDescent

/-! # Reading a directory in a virtual working directory

Where nothing fails and no link is followed, `fts_build` goes down into the directory that it opens,
and up again if the directory is empty. The next parts of a long directory are read without moving.
-/

namespace Yalibct.Fts

open Machine

/-- A static tree: whatever is listed in a directory and is a directory has it for its parent. -/
structure Tree (fs : FileSystem) : Prop where
  up : ∀ {d c : fs.Node} {e : Dirent}, e ∈ fs.entries d → isDot e.dName = false →
    fs.resolve d e.dName false = .ok c → (fs.stat c).stMode = some .directory →
    ∀ follow, fs.resolve c dotdot follow = .ok d

variable {env : Env} {sp sp' sp'' : FTS env} {vs : List ℤ} {d c : env.fs.Node} {ds : List env.fs.Node} {dirs : List ℕ}
variable {p q : Ftsent} {arg : List UInt8} {n : ℕ}

/-! ## What goes on growing -/

/-- The options and the directory of the process are the same. -/
structure Moved (sp sp' : FTS env) : Prop where
  options : sp'.ftsOptions = sp.ftsOptions
  cwd : sp'.kernel.cwd = sp.kernel.cwd

theorem Moved.virtual (moved : Moved sp sp') (virtual : sp.ftsOptions.Virtual) : sp'.ftsOptions.Virtual :=
  moved.options ▸ virtual

/-- Besides, the path buffer still starts with what it held. -/
structure Grown (sp sp' : FTS env) : Prop extends Moved sp sp' where
  path : sp.ftsPath <+: sp'.ftsPath

theorem Grown.refl (sp : FTS env) : Grown sp sp := ⟨⟨rfl, rfl⟩, List.prefix_rfl⟩

theorem Grown.trans (first : Grown sp sp') (second : Grown sp' sp'') : Grown sp sp'' :=
  ⟨⟨second.options.trans first.options, second.cwd.trans first.cwd⟩, first.path.trans second.path⟩

theorem Kept.grown (kept : Kept sp sp') : Grown sp sp' := ⟨⟨kept.options, kept.cwd⟩, kept.path ▸ List.prefix_rfl⟩

theorem Leaves.grown {fds : Descriptors env.fs.Node} (leaves : Leaves fds sp sp') : Grown sp sp' := leaves.kept.grown

/-- What changed is not what a stream stands on. -/
structure Beside (sp sp' : FTS env) : Prop extends Moved sp sp' where
  ring : sp'.ftsFdRing = sp.ftsFdRing
  cwdFd : sp'.ftsCwdFd = sp.ftsCwdFd
  fds : sp'.kernel.fds = sp.kernel.fds
  checks : sp'.checks = sp.checks

theorem Beside.refl (sp : FTS env) : Beside sp sp := ⟨⟨rfl, rfl⟩, rfl, rfl, rfl, rfl⟩

theorem Beside.trans (first : Beside sp sp') (second : Beside sp' sp'') : Beside sp sp'' :=
  ⟨⟨second.options.trans first.options, second.cwd.trans first.cwd⟩, second.ring.trans first.ring,
    second.cwdFd.trans first.cwdFd, second.fds.trans first.fds, second.checks.trans first.checks⟩

theorem Leaves.beside (leaves : Leaves sp.kernel.fds sp sp') : Beside sp sp' :=
  ⟨leaves.grown.toMoved, leaves.ring, leaves.cwdFd, leaves.fds, leaves.checks⟩

theorem Stands.beside (stands : Stands sp vs ds dirs) (beside : Beside sp sp') : Stands sp' vs ds dirs := by
  refine ⟨?_, ?_, ?_, ?_, ?_, stands.chain, ?_⟩
  · rw [beside.ring]
    exact stands.ring
  · rw [beside.ring]
    exact stands.default
  · rw [beside.cwdFd, beside.fds]
    exact stands.trail
  · rw [beside.fds]
    exact stands.others
  · rw [beside.cwdFd]
    exact stands.distinct
  · rw [beside.checks]
    exact stands.checks

/-! ## Entries and directories -/

/-- Where the names of a list are resolved. -/
def origin (sp : FTS env) : List env.fs.Node → env.fs.Node
  | [] => sp.kernel.cwd
  | d :: _ => d

/-- Whether a link is followed there. -/
def followsRoot (sp : FTS env) (ds : List env.fs.Node) : Bool := sp.ftsOptions.comfollow && ds.isEmpty

theorem Moved.origin (moved : Moved sp sp') (ds : List env.fs.Node) : origin sp' ds = origin sp ds := by
  cases ds with
  | nil => exact moved.cwd
  | cons d ds => rfl

theorem Moved.followsRoot (moved : Moved sp sp') (ds : List env.fs.Node) : followsRoot sp' ds = followsRoot sp ds := by
  rw [Fts.followsRoot, Fts.followsRoot, moved.options]

/-- The descriptor of the current directory refers to where the names are resolved. -/
theorem Stands.base (stands : Stands sp vs ds dirs) : sp.kernel.base sp.ftsCwdFd = some (origin sp ds) := by
  cases ds with
  | nil =>
    obtain ⟨here, -⟩ := stands.trail
    rw [here]
    exact if_pos rfl
  | cons d ds =>
    obtain ⟨⟨n, here, found⟩, -⟩ := stands.trail
    rw [here, base_natCast, found]
    rfl

/-- The same entry, apart from what is found out about it. -/
def Same (p q : Ftsent) : Prop :=
  q = { p with
    ftsStatp := q.ftsStatp
    ftsInfo := q.ftsInfo
    ftsErrno := q.ftsErrno
    ftsCycle := q.ftsCycle
    ftsDirp := q.ftsDirp }

theorem Same.trans {r : Ftsent} (first : Same p q) (second : Same q r) : Same p r := by
  unfold Same at first second ⊢
  rw [second, first]

/-- A directory in pre-order, at this path, was found to be one. -/
def Found (sp : FTS env) (ds : List env.fs.Node) (path : List UInt8) (p : Ftsent) : Prop :=
  p.ftsInfo = .d → (ds ≠ [] → isDot p.ftsName = false) ∧
    ∃ c, env.fs.resolve (origin sp ds) path (followsRoot sp ds) = .ok c ∧
      (env.fs.stat c).stMode = some .directory ∧ p.ftsStatp.devIno = (env.fs.stat c).devIno

theorem Found.moved {path : List UInt8} (found : Found sp ds path p) (moved : Moved sp sp') : Found sp' ds path p := by
  unfold Found at found ⊢
  rw [moved.origin, moved.followsRoot]
  exact found

/-- The path of an entry below these directories, the last of which is at `arg`. -/
def spelling (ds : List env.fs.Node) (arg : List UInt8) (p : Ftsent) : List UInt8 := if ds = [] then arg else p.ftsName

/-- An entry below these directories, the last of which is at `arg`. -/
structure Placed (env : Env) (ds : List env.fs.Node) (arg : List UInt8) (p : Ftsent) : Prop where
  level : p.ftsLevel = ds.length
  chdir : p.dontchdir = false
  straight : p.symfollow = false
  instr : p.ftsInstr ≠ .follow
  long : arg.length ≤ p.ftsPathlen
  first : ds = [] → p.ftsAccpath = .ftsPath ∧ p.ftsPathlen = arg.length
  inside : ∀ d ∈ ds.head?, p.ftsAccpath = .ftsName ∧ ∃ e ∈ env.fs.entries d, e.dName = p.ftsName

theorem Placed.same (placed : Placed env ds arg p) (same : Same p q) : Placed env ds arg q := by
  rw [same]
  exact ⟨placed.level, placed.chdir, placed.straight, placed.instr, placed.long, placed.first, placed.inside⟩

theorem Placed.root (placed : Placed env ds arg p) : (p.ftsLevel == rootLevel) = ds.isEmpty := by
  rw [placed.level]
  cases ds with
  | nil => rfl
  | cons d ds => exact beq_eq_false_iff_ne.mpr (by simp [rootLevel]; omega)

theorem Found.ofInfo {path : List UInt8} (info : p.ftsInfo ≠ .d) : Found sp ds path p := fun found => absurd found info

/-- An argument of `fts_open` that is still to be read. -/
structure Root (p : Ftsent) : Prop where
  level : p.ftsLevel = rootLevel
  chdir : p.dontchdir = false
  straight : p.symfollow = false
  instr : p.ftsInstr ≠ .follow
  string : 0 ∉ p.ftsName

/-- An entry of a list that is still to be read. -/
structure Waits (sp : FTS env) (ds : List env.fs.Node) (arg : List UInt8) (p : Ftsent) : Prop where
  accpath : p.ftsAccpath = .ftsName
  closed : p.ftsDirp = none
  found : Found sp ds p.ftsName p
  placed : ds ≠ [] → Placed env ds arg p
  root : ds = [] → Root p

theorem Waits.moved (waits : Waits sp ds arg p) (moved : Moved sp sp') : Waits sp' ds arg p :=
  ⟨waits.accpath, waits.closed, waits.found.moved moved, waits.placed, waits.root⟩

theorem waits_moved {head : List Ftsent} (waits : ∀ p ∈ head, Waits sp ds arg p) (moved : Moved sp sp') :
    ∀ p ∈ head, Waits sp' ds arg p := fun p member => (waits p member).moved moved

/-- An entry whose directory was entered. -/
structure Opened (sp : FTS env) (d : env.fs.Node) (ds : List env.fs.Node) (arg : List UInt8) (p : Ftsent) : Prop where
  placed : Placed env ds arg p
  directory : (env.fs.stat d).stMode = some .directory
  recorded : p.ftsStatp.devIno = (env.fs.stat d).devIno
  reached : env.fs.resolve (origin sp ds) (spelling ds arg p) (followsRoot sp ds) = .ok d
  rest : ∀ dp, p.ftsDirp = some dp → ∀ e ∈ dp.rest, e ∈ env.fs.entries d

theorem Opened.moved (opened : Opened sp d ds arg p) (moved : Moved sp sp') : Opened sp' d ds arg p := by
  refine ⟨opened.placed, opened.directory, opened.recorded, ?_, opened.rest⟩
  rw [moved.origin, moved.followsRoot]
  exact opened.reached

theorem Opened.same (opened : Opened sp d ds arg p) (same : Same p q)
    (recorded : q.ftsStatp.devIno = (env.fs.stat d).devIno)
    (rest : ∀ dp, q.ftsDirp = some dp → ∀ e ∈ dp.rest, e ∈ env.fs.entries d) : Opened sp d ds arg q := by
  refine ⟨opened.placed.same same, opened.directory, recorded, ?_, rest⟩
  rw [same]
  exact opened.reached

/-- The entries above, with their directories. -/
def Above (sp : FTS env) (arg : List UInt8) : List (Ftsent × List Ftsent) → List env.fs.Node → Prop
  | [], [] => True
  | (p, link) :: parents, d :: ds =>
    Opened sp d ds arg p ∧ (∀ q ∈ link, Waits sp ds arg q) ∧ Above sp arg parents ds
  | _, _ => False

theorem Above.moved {parents : List (Ftsent × List Ftsent)} (above : Above sp arg parents ds) (moved : Moved sp sp') :
    Above sp' arg parents ds := by
  induction parents generalizing ds with
  | nil =>
    cases ds with
    | nil => trivial
    | cons d ds => exact above
  | cons entry parents ih =>
    cases ds with
    | nil => exact above
    | cons d ds =>
      obtain ⟨opened, waits, rest⟩ := above
      exact ⟨opened.moved moved, waits_moved waits moved, ih rest⟩

/-- The descriptor of a directory that is not yet read to its end. -/
def held (p : Ftsent) : List ℕ := (p.ftsDirp.map Dir.fd).toList

def dirFds (parents : List (Ftsent × List Ftsent)) : List ℕ := parents.flatMap fun entry => held entry.1

/-- The path buffer starts with the path of a root; where this is the whole path, it ends there. -/
structure Spelled (sp : FTS env) (ds : List env.fs.Node) (arg : List UInt8) : Prop where
  string : 0 ∉ arg
  buffer : arg <+: sp.ftsPath
  ended : ds = [] → arg ++ [0] <+: sp.ftsPath

theorem Spelled.grown (spelled : Spelled sp ds arg) (grown : Grown sp sp') : Spelled sp' ds arg :=
  ⟨spelled.string, spelled.buffer.trans grown.path, fun first => (spelled.ended first).trans grown.path⟩

theorem Spelled.below (spelled : Spelled sp ds arg) (d : env.fs.Node) : Spelled sp (d :: ds) arg :=
  ⟨spelled.string, spelled.buffer, nofun⟩

theorem FTS.path_eq {path : List UInt8} (shown : path ++ [0] <+: sp.ftsPath) (string : 0 ∉ path) : sp.path = path := by
  obtain ⟨rest, bytes⟩ := shown
  have others : ∀ c ∈ path, (c != 0) = true := fun c member => bne_iff_ne.mpr fun nul => string (nul ▸ member)
  rw [FTS.path, ← bytes, List.append_assoc, List.takeWhile_append_of_pos others]
  exact List.append_nil path

theorem Spelled.path (spelled : Spelled sp [] arg) : sp.path = arg := FTS.path_eq (spelled.ended rfl) spelled.string

/-- The path that an entry is found at. -/
theorem Placed.accpath (placed : Placed env ds arg p) (spelled : Spelled sp ds arg) :
    sp.accpath p = spelling ds arg p := by
  unfold FTS.accpath spelling
  cases ds with
  | nil => rw [(placed.first rfl).1, if_pos rfl, spelled.path]
  | cons d ds =>
    rw [(placed.inside d rfl).1]
    exact (if_neg (List.cons_ne_nil d ds)).symm

/-! ## Writing to the path -/

variable {fails : Fault → FTS env → Prop}

/-- What was written to the path is all that changed. -/
theorem writePath_spec {offset : ℕ} {run : List UInt8} (checks : ∀ c ∈ sp.checks, c.Sound) :
    Ends Excused (fun _ sp' => offset + run.length ≤ sp.ftsPath.length ∧
      sp' = { sp with ftsPath := overwrite sp.ftsPath offset run }) (writePath offset run) sp := by
  apply Ends.get_bind
  split_ifs with bound
  · exact ⟨bound, rfl⟩
  · exact ⟨⟨nofun, nofun⟩, checks⟩

theorem nappend_spec (checks : ∀ c ∈ sp.checks, c.Sound) :
    Ends Excused (fun t sp' => sp' = sp ∧
      (t = p.ftsPathlen ∨ t + 1 = p.ftsPathlen ∧ sp.ftsPath[t]? = some slash)) (nappend p) sp := by
  unfold nappend
  cases p.ftsPathlen with
  | zero => exact ⟨⟨nofun, nofun⟩, checks⟩
  | succ last =>
    apply Ends.get_bind
    split
    · exact ⟨⟨nofun, nofun⟩, checks⟩
    · rename_i c there
      refine ⟨rfl, ?_⟩
      split_ifs with ends
      · exact .inr ⟨rfl, ends ▸ there⟩
      · exact .inl rfl

/-- A slash that is written over the last one of a path changes nothing. -/
theorem prefix_overwrite_slash {bytes run : List UInt8} {t : ℕ} (starts : arg <+: bytes)
    (last : bytes[t]? = some slash) (place : arg.length ≤ t + 1) : arg <+: overwrite bytes t (slash :: run) := by
  have inside : t < bytes.length := (List.getElem?_eq_some_iff.mp last).1
  rcases Nat.lt_or_ge t arg.length with beyond | before
  · have length : arg.length = t + 1 := Nat.le_antisymm place beyond
    rw [List.prefix_iff_eq_take, length] at starts ⊢
    rw [take_overwrite bytes (Nat.le_of_lt inside) 1 (Nat.le_add_left ..)]
    rw [List.take_add_one, last] at starts
    exact starts
  · exact prefix_overwrite starts (Nat.le_of_lt inside) before

section Unfailing

variable (reliable : env.Reliable)

include reliable in
/-- A larger buffer starts with what the old one held; without one, the path is lost. -/
theorem ftsPalloc_spec {more : ℕ} :
    Ends fails (fun r sp' => Beside sp sp' ∧ (r = true → sp.ftsPath <+: sp'.ftsPath)) (ftsPalloc more) sp := by
  apply Ends.get_bind
  dsimp only
  split_ifs with overflow
  · exact ⟨⟨⟨rfl, rfl⟩, rfl, rfl, rfl, rfl⟩, nofun⟩
  · apply Ends.bind (granted_spec reliable)
    rintro granted t same
    cases granted with
    | false => exact ⟨same.beside.trans ⟨⟨rfl, rfl⟩, rfl, rfl, rfl, rfl⟩, nofun⟩
    | true =>
      refine ⟨same.beside.trans ⟨⟨rfl, rfl⟩, rfl, rfl, rfl, rfl⟩, fun _ => ?_⟩
      change sp.ftsPath <+: overwrite (env.rawPath sp.kernel.now _) 0 sp.ftsPath
      rw [overwrite, List.take_zero, List.nil_append]
      exact List.prefix_append ..

/-- A new entry. -/
structure Fresh (name : List UInt8) (p : Ftsent) : Prop where
  name : p.ftsName = name
  closed : p.ftsDirp = none
  chdir : p.dontchdir = false
  straight : p.symfollow = false
  instr : p.ftsInstr = .noInstr

include reliable in
theorem ftsAlloc_spec {name : List UInt8} :
    Ends fails (fun r sp' => (∀ p, r = some p → Fresh name p) ∧ Leaves sp.kernel.fds sp sp') (ftsAlloc name) sp := by
  apply Ends.get_bind
  apply Ends.bind (granted_spec reliable)
  intro got t same
  split_ifs
  · refine ⟨?_, same⟩
    rintro _ ⟨⟩
    exact ⟨rfl, rfl, rfl, rfl, rfl⟩
  · refine ⟨?_, same⟩
    rintro _ ⟨⟩

private theorem statInfo_eq_d {st : Stat} (info : statInfo p st = .d) :
    st.stMode = some .directory ∧ (p.ftsLevel ≠ rootLevel → isDot p.ftsName = false) := by
  unfold statInfo at info
  split_ifs at info with directory dot root
  · exact ⟨directory, fun inner => absurd root inner⟩
  · exact ⟨directory, fun _ => Bool.not_eq_true _ ▸ dot⟩

include reliable in
theorem ftsStatDangling_spec {fd : ℤ} {path : List UInt8} {follow : Bool} (base : sp.kernel.base fd = some d) :
    Ends fails (fun _ sp' => Leaves sp.kernel.fds sp sp') (ftsStatDangling fd path follow) sp := by
  refine .bind getErrno_spec fun errno t same => ?_
  split_ifs with again
  · exact (fstatat_spec reliable (same.base fd ▸ base)).mono fun _ u result => same.then_same result.2
  · exact same

include reliable in
/-- A directory that `fts_stat` finds is one, and its numbers are recorded. -/
theorem ftsStat_spec (virtual : sp.ftsOptions.Virtual) (base : sp.kernel.base sp.ftsCwdFd = some (origin sp ds))
    (level : p.ftsLevel = ds.length) :
    Ends fails (fun q sp' => Same p q ∧ Found sp' ds (sp.accpath p) q ∧ q.ftsDirp = p.ftsDirp ∧
      Leaves sp.kernel.fds sp sp') (ftsStat p false) sp := by
  apply Ends.get_bind
  have root : (p.ftsLevel == rootLevel) = ds.isEmpty := by
    rw [level]
    cases ds with
    | nil => rfl
    | cons d ds => exact beq_eq_false_iff_ne.mpr (by simp [rootLevel]; omega)
  have flag : (false || sp.ftsOptions.logical || sp.ftsOptions.comfollow && p.ftsLevel == rootLevel) =
      followsRoot sp ds := by
    rw [virtual.logical, root]
    rfl
  dsimp only
  rw [flag]
  apply Ends.bind (fstatat_spec reliable base)
  rintro _ t ⟨rfl, same⟩
  cases resolved : env.fs.resolve (origin sp ds) (sp.accpath p) (followsRoot sp ds) with
  | ok c =>
    refine ⟨rfl, Found.moved (fun info => ?_) same.grown.toMoved, rfl, same⟩
    obtain ⟨directory, inner⟩ := statInfo_eq_d info
    refine ⟨fun nonempty => inner ?_, c, resolved, directory, rfl⟩
    rw [level]
    cases ds with
    | nil => exact absurd rfl nonempty
    | cons d ds => simp [rootLevel]; omega
  | error errno =>
    apply Ends.bind (ftsStatDangling_spec reliable (same.base _ ▸ base))
    intro result u same'
    have left := same.then_same same'
    cases result with
    | some st =>
      exact .bind setErrno_spec fun _ v same'' => ⟨rfl, .ofInfo nofun, rfl, left.then_same same''⟩
    | none => exact ⟨rfl, .ofInfo nofun, rfl, left⟩

/-! ## The entries of a directory -/

include reliable in
theorem ask_spec {answers : ℕ → Bool} : Ends fails (fun _ sp' => Leaves sp.kernel.fds sp sp') (ask answers) sp :=
  .get_bind (.bind (request_spec reliable) fun _ _ result => result.2)

include reliable in
theorem sortDecision_spec {nitems : ℕ} {sort : Bool} :
    Ends fails (fun _ sp' => Leaves sp.kernel.fds sp sp') (sortDecision nitems sort) sp := by
  unfold sortDecision
  split_ifs
  · exact ask_spec reliable
  · exact .refl sp

theorem writeNochdir_spec {offset : ℕ} {run : List UInt8} (virtual : sp.ftsOptions.Virtual) :
    Ends fails (fun _ sp' => sp' = sp) (writeNochdir offset run) sp := by
  apply Ends.get_bind
  rw [virtual.nochdir]
  exact rfl

include reliable in
theorem growPath_spec {namelen len maxlen : ℕ} :
    Ends fails (fun r sp' => Beside sp sp' ∧ (r.isSome → sp.ftsPath <+: sp'.ftsPath)) (growPath namelen len maxlen) sp := by
  unfold growPath
  split_ifs
  · apply Ends.bind (ftsPalloc_spec reliable)
    rintro granted t ⟨beside, starts⟩
    cases granted with
    | false => exact ⟨beside, nofun⟩
    | true => exact ⟨beside, fun _ => starts rfl⟩
  · exact ⟨.refl sp, fun _ => List.prefix_rfl⟩

include reliable in
/-- An entry of the directory that the stream is in. -/
theorem listEntry_spec {newLen len : ℕ} {e : Dirent} (virtual : sp.ftsOptions.Virtual)
    (stands : Stands sp vs (d :: ds) dirs) (opened : Opened sp d ds arg q) (fresh : Fresh e.dName p)
    (listed : e ∈ env.fs.entries d) (long : arg.length ≤ newLen) :
    Ends fails (fun r sp' => Waits sp' (d :: ds) arg r ∧ Leaves sp.kernel.fds sp sp') (listEntry q p newLen len e) sp := by
  refine .get_bind (.bind (writeNochdir_spec virtual) ?_)
  intro _ t unchanged
  rw [unchanged]
  have level : q.ftsLevel + 1 = ((d :: ds).length : ℤ) := by
    rw [opened.placed.level, List.length_cons]
    rfl
  simp only [virtual.nochdir, Bool.false_eq_true, ↓reduceIte]
  have placed : ∀ {r : Ftsent}, r.ftsLevel = q.ftsLevel + 1 → r.dontchdir = p.dontchdir → r.symfollow = p.symfollow →
      r.ftsInstr = p.ftsInstr → r.ftsPathlen = newLen → r.ftsAccpath = .ftsName → r.ftsName = p.ftsName →
      Placed env (d :: ds) arg r := by
    intro r level' chdir straight instr length accpath name
    refine ⟨level'.trans level, chdir.trans fresh.chdir, straight.trans fresh.straight, ?_, length ▸ long, nofun, ?_⟩
    · rw [instr, fresh.instr]
      nofun
    · rintro _ ⟨⟩
      exact ⟨accpath, e, listed, fresh.name.symm.trans name.symm⟩
  split_ifs with deferred
  · exact ⟨⟨rfl, fresh.closed, .ofInfo nofun, fun _ => placed rfl rfl rfl rfl rfl rfl rfl, nofun⟩, .refl sp⟩
  · refine (ftsStat_spec reliable virtual stands.base ?_).mono ?_
    · exact level
    · rintro r t ⟨same, found, closed, leaves⟩
      have name : r.ftsName = p.ftsName := by rw [same]
      refine ⟨⟨?_, closed.trans fresh.closed, ?_, fun _ => ?_, nofun⟩, leaves⟩
      · rw [same]
      · rw [name]
        exact found
      · apply Placed.same ?_ same
        exact placed rfl rfl rfl rfl rfl rfl rfl

/-- The stream was stopped. -/
structure Halted (sp : FTS env) : Prop where
  stop : sp.ftsOptions.stop = true
  checks : ∀ c ∈ sp.checks, c.Sound

/-- What was read of a directory that the stream is in, with no more than this left open. -/
structure Gathered (vs : List ℤ) (d : env.fs.Node) (ds : List env.fs.Node) (dirs : List ℕ) (arg : List UInt8)
    (sp : FTS env) (r : Listed) (sp' : FTS env) : Prop where
  kept : r.gaveUp = false
  stands : Stands sp' vs (d :: ds) (held r.cur ++ dirs)
  opened : Opened sp' d ds arg r.cur
  waits : ∀ p ∈ r.head, Waits sp' (d :: ds) arg p
  ended : r.head = [] → r.cur.ftsDirp = none
  grown : Grown sp sp'

/-- The entries of a directory were read, or the stream was stopped. -/
def Reads (vs : List ℤ) (d : env.fs.Node) (ds : List env.fs.Node) (dirs : List ℕ) (arg : List UInt8)
    (sp : FTS env) (r : Listed) (sp' : FTS env) : Prop :=
  (r.head = [] ∧ r.gaveUp = true) ∧ Halted sp' ∨ Gathered vs d ds dirs arg sp r sp'

theorem Reads.after {r : Listed} (grown : Grown sp sp') (reads : Reads vs d ds dirs arg sp' r sp'') :
    Reads vs d ds dirs arg sp r sp'' := by
  rcases reads with halted | gathered
  · exact .inl halted
  · exact .inr { gathered with grown := grown.trans gathered.grown }

include reliable in
theorem endOfDir_spec {fd : ℕ} {continueReaddir sort : Bool} {head : List Ftsent} {errno : Errno}
    (stands : Stands sp vs (d :: ds) (fd :: dirs)) (opened : Opened sp d ds arg q)
    (waits : ∀ p ∈ head, Waits sp (d :: ds) arg p) :
    Ends fails (Reads vs d ds dirs arg sp) (endOfDir fd continueReaddir q head sort errno) sp := by
  refine .bind setErrno_spec fun _ t same => ?_
  have stands' := stands.same same
  obtain ⟨node, found⟩ := Option.isSome_iff_exists.mp (stands'.others fd (List.mem_cons_self ..))
  refine .bind (closedir_spec reliable found) fun _ u closed => ?_
  have grown := same.grown.trans closed.grown
  refine .inr ⟨rfl, stands'.close closed, ?_, waits_moved waits grown.toMoved, fun _ => rfl, grown⟩
  dsimp only
  split_ifs
  all_goals exact (opened.moved grown.toMoved).same rfl opened.recorded nofun

include reliable in
theorem giveUp_spec {fd : ℕ} {errno : Errno} (stands : Stands sp vs (d :: ds) (fd :: dirs)) :
    Ends fails (Reads vs d ds dirs arg sp') (giveUp fd q errno) sp := by
  obtain ⟨node, found⟩ := Option.isSome_iff_exists.mp (stands.others fd (List.mem_cons_self ..))
  refine .bind (closedir_spec reliable found) fun _ t closed => ?_
  refine .modify_bind (.bind setErrno_spec fun _ u same => .inl ⟨⟨rfl, rfl⟩, ?_, ?_⟩)
  · rw [same.rest]
  · rw [same.checks]
    exact (stands.close closed).checks

include reliable in
/-- The loop keeps what it has read, and what it has not, of the directory. -/
theorem buildLoop_spec {fd len maxlen : ℕ} {continueReaddir sort : Bool} {rest : List Dirent} {head : List Ftsent}
    (virtual : sp.ftsOptions.Virtual) (stands : Stands sp vs (d :: ds) (fd :: dirs)) (opened : Opened sp d ds arg q)
    (listed : ∀ e ∈ rest, e ∈ env.fs.entries d) (long : arg.length ≤ len)
    (waits : ∀ p ∈ head, Waits sp (d :: ds) arg p) :
    Ends fails (Reads vs d ds dirs arg sp) (buildLoop fd len continueReaddir rest q head maxlen sort) sp := by
  induction rest generalizing sp head maxlen sort with
  | nil =>
    refine .bind setErrno_spec fun _ t same => ?_
    refine .bind (request_spec reliable) ?_
    rintro _ u ⟨rfl, same'⟩
    have left := same.then_same same'
    exact (endOfDir_spec reliable (stands.same left) (opened.moved left.grown.toMoved) (waits_moved waits left.grown.toMoved)).mono
      fun r v reads => reads.after left.grown
  | cons e rest ih =>
    obtain ⟨member, listed⟩ := List.forall_mem_cons.mp listed
    refine .bind setErrno_spec fun _ t same => ?_
    refine .bind (request_spec reliable) ?_
    rintro _ u ⟨rfl, same'⟩
    have left := same.then_same same'
    apply Ends.get_bind
    split_ifs with dot
    · exact (ih (left.grown.virtual virtual) (stands.same left) (opened.moved left.grown.toMoved) listed
        (waits_moved waits left.grown.toMoved)).mono fun r v reads => reads.after left.grown
    apply Ends.bind (ftsAlloc_spec reliable)
    rintro new v ⟨fresh, same⟩
    have left := left.then_same same
    cases new with
    | none => exact .bind getErrno_spec fun _ x same => giveUp_spec reliable ((stands.same left).same same)
    | some p =>
    have fresh := fresh p rfl
    apply Ends.bind (growPath_spec reliable)
    rintro room w ⟨beside, starts⟩
    have stands' := (stands.same left).beside beside
    cases room with
    | none => exact .bind getErrno_spec fun _ x same => giveUp_spec reliable (stands'.same same)
    | some maxlen =>
      have grown := left.grown.trans ⟨beside.toMoved, starts rfl⟩
      dsimp only
      split_ifs with overflow
      · exact giveUp_spec reliable stands'
      have long' := long.trans (Nat.not_lt.mp overflow)
      apply Ends.bind (listEntry_spec reliable (grown.virtual virtual) stands' (opened.moved grown.toMoved) fresh member long')
      rintro p x ⟨waits', same⟩
      refine .bind (sortDecision_spec reliable) fun sort y same' => ?_
      have after := same.then_same same'
      have grown' := grown.trans after.grown
      have waits : ∀ q ∈ head ++ [p], Waits y (d :: ds) arg q := by
        intro q member
        rcases List.mem_append.mp member with old | new
        · exact waits_moved waits grown'.toMoved q old
        · rw [List.mem_singleton.mp new]
          exact waits'.moved same'.grown.toMoved
      split_ifs with enough
      · refine .inr ⟨rfl, stands'.same after, ?_, waits, fun none => ?_, grown'⟩
        · refine (opened.moved grown'.toMoved).same rfl opened.recorded ?_
          rintro _ ⟨⟩
          exact listed
        · exact absurd none (List.append_ne_nil_of_right_ne_nil _ nofun)
      · exact (ih (grown'.virtual virtual) (stands'.same after) (opened.moved grown'.toMoved) listed waits).mono
          fun r z reads => reads.after grown'

/-! ## The parts of `fts_build` -/

theorem Entered.same (entered : Entered p q) : Same p q := by
  rcases entered with rfl | ⟨ent, rfl⟩
  · exact rfl
  · exact rfl

theorem Entered.statp (entered : Entered p q) : q.ftsStatp = p.ftsStatp := by
  rcases entered with rfl | ⟨ent, rfl⟩
  · rfl
  · rfl

theorem Entered.dirp (entered : Entered p q) : q.ftsDirp = p.ftsDirp := by
  rcases entered with rfl | ⟨ent, rfl⟩
  · rfl
  · rfl

/-- An entry that may be returned: its directory is closed, and it was found where it is. -/
structure Visited (sp : FTS env) (ds : List env.fs.Node) (arg : List UInt8) (p : Ftsent) : Prop where
  placed : Placed env ds arg p
  closed : p.ftsDirp = none
  found : Found sp ds (spelling ds arg p) p

/-- The directory of an entry was opened for reading. -/
structure Begun (sp : FTS env) (vs : List ℤ) (ds : List env.fs.Node) (dirs : List ℕ) (arg : List UInt8)
    (c : env.fs.Node) (n : ℕ) (p : Ftsent) : Prop where
  stands : Stands sp vs ds (n :: dirs)
  there : sp.kernel.fds.find n = some c
  dirp : p.ftsDirp = some ⟨n, env.fs.entries c⟩
  opened : Opened sp c ds arg p
  chain : (c :: ds).IsChain (Climbs env.fs)

include reliable in
theorem buildOpen_spec {parents : List (Ftsent × List Ftsent)} (tree : Tree env.fs) (virtual : sp.ftsOptions.Virtual)
    (stands : Stands sp vs ds dirs) (visited : Visited sp ds arg p) (info : p.ftsInfo = .d) (spelled : Spelled sp ds arg)
    (inside : ∀ d ∈ ds.head?, (env.fs.stat d).stMode = some .directory) :
    Ends Excused (fun r sp' => Grown sp sp' ∧ ((∃ (c : env.fs.Node) (n : ℕ), r.1 = some (n : ℤ) ∧ Begun sp' vs ds dirs arg c n r.2) ∨
      r.1 = none ∧ Stands sp' vs ds dirs ∧ Visited sp' ds arg r.2)) (buildOpen p parents) sp := by
  obtain ⟨dots, c, resolved, directory, recorded⟩ := visited.found info
  have chain : (c :: ds).IsChain (Climbs env.fs) := by
    cases ds with
    | nil => exact List.isChain_singleton c
    | cons d ds =>
      obtain ⟨-, e, listed, name⟩ := visited.placed.inside d rfl
      refine List.isChain_cons_cons.mpr ⟨⟨?_, inside d rfl⟩, stands.chain⟩
      have up : env.fs.resolve d p.ftsName false = .ok c := by
        have flag : followsRoot sp (d :: ds) = false := Bool.and_false _
        rw [flag] at resolved
        exact resolved
      rw [← name] at up dots
      exact tree.up listed (dots (List.cons_ne_nil d ds)) up directory
  unfold buildOpen
  rw [visited.closed]
  apply Ends.get_bind
  have flag : (!(sp.ftsOptions.physical && !(sp.ftsOptions.comfollow && p.ftsLevel == rootLevel))) =
      followsRoot sp ds := by
    rw [virtual.physical, visited.placed.root, Bool.true_and, Bool.not_not]
    rfl
  simp only [flag, virtual.nochdir, virtual.cwdfd, Bool.not_false, Bool.and_self, ↓reduceIte]
  rw [visited.placed.accpath spelled]
  apply Ends.bind (opendirat_spec reliable stands.base resolved directory)
  rintro _ t ⟨n, rfl, unused, opens⟩
  have stands := stands.insert unused opens
  have there : t.kernel.fds.find n = some c := by rw [opens.fds, Descriptors.find_insert_self]
  have begun : ∀ {u : FTS env} {q : Ftsent}, Grown sp u → Same p q → q.ftsStatp.devIno = (env.fs.stat c).devIno →
      q.ftsDirp = some ⟨n, env.fs.entries c⟩ → u.kernel.fds = t.kernel.fds → Stands u vs ds (n :: dirs) →
      Begun u vs ds dirs arg c n q := by
    intro u q grown same recorded dirp fds stands
    refine ⟨stands, fds ▸ there, dirp, ⟨visited.placed.same same, directory, recorded, ?_, ?_⟩, chain⟩
    · rw [grown.origin, grown.followsRoot, same]
      exact resolved
    · rw [dirp]
      rintro _ ⟨⟩
      exact fun _ => id
  simp only [info, reduceCtorEq, false_or, not_false_eq_true, ↓reduceIte]
  split_ifs with tight
  · apply Ends.bind (leaveDirChecked_spec reliable stands)
    rintro _ u ⟨steady, stands⟩
    apply Ends.bind (fstat_spec reliable (steady.fds ▸ there))
    rintro _ v ⟨rfl, same⟩
    apply Ends.bind (enterDir_spec reliable (stands.same same))
    rintro ⟨success, q⟩ w ⟨entered, steady', stands⟩
    have steady := (steady.trans same.steady).trans steady'
    have grown := opens.grown.trans steady.grown
    have same : Same p q := entered.same
    have recorded : q.ftsStatp.devIno = (env.fs.stat c).devIno := by rw [entered.statp]
    dsimp only
    split_ifs with success
    · exact ⟨grown, .inl ⟨c, n, rfl, begun grown same recorded entered.dirp steady.fds stands⟩⟩
    · refine .bind (closedir_spec reliable (steady.fds ▸ there)) fun _ x closed => ?_
      refine .bind setErrno_spec fun _ y same' => ?_
      have grown := (grown.trans closed.grown).trans same'.grown
      refine ⟨grown, .inr ⟨rfl, (stands.close closed).same same', (visited.placed.same same).same rfl, rfl, fun _ => ?_⟩⟩
      rw [grown.origin, grown.followsRoot, same]
      exact ⟨dots, c, resolved, directory, recorded⟩
  · exact ⟨opens.grown, .inl ⟨c, n, rfl, begun opens.grown rfl recorded rfl rfl stands⟩⟩

include reliable in
/-- Into a directory that was opened, without a check. -/
theorem changedir_spec {st : Stat} (virtual : sp.ftsOptions.Virtual) (stands : Stands sp vs ds (n :: dirs))
    (found : sp.kernel.fds.find n = some c) (chain : (c :: ds).IsChain (Climbs env.fs)) :
    Ends fails (fun r sp' => r = false ∧ Kept sp sp' ∧ ∃ ws, Stands sp' ws (c :: ds) dirs)
      (ftsSafeChangedir st n none) sp := by
  have real : ¬ (n : ℤ) < 0 := Int.not_lt.mpr (Int.natCast_nonneg n)
  have stays : Ends fails (fun r t => r = ((n : ℤ), none) ∧ t = sp) (popParent n none) sp := by
    apply Ends.get_bind
    rw [if_neg fun asked => real asked.1]
    exact ⟨rfl, rfl⟩
  refine ftsSafeChangedir_given virtual stays rfl ?_
  exact .bind (descend_spec reliable stands found chain) fun _ x descended => ⟨rfl, descended⟩

include reliable in
theorem buildDescend_spec (virtual : sp.ftsOptions.Virtual) (begun : Begun sp vs ds dirs arg c n p) :
    Ends fails (fun r sp' => r = (true, p) ∧ Grown sp sp' ∧ ∃ ws, Stands sp' ws (c :: ds) (n :: dirs))
      (buildDescend p n) sp := by
  have leaf : Ends fails (fun _ sp' => Leaves sp.kernel.fds sp sp') (isLeaf p) sp := by
    apply Ends.get_bind
    dsimp only
    split_ifs
    · exact ask_spec reliable
    · exact .refl sp
  refine .bind leaf fun _ t same => ?_
  have copy : Ends fails (Opens c t) (descentFd n) t := by
    refine .get_bind ?_
    rw [(same.grown.virtual virtual).cwdfd, if_pos rfl]
    exact dupfd_spec reliable (same.fds ▸ begun.there)
  refine .bind copy ?_
  rintro _ u ⟨m, rfl, unused, opens⟩
  rw [if_neg (Int.not_lt.mpr (Int.natCast_nonneg m))]
  have virtual' := opens.grown.virtual (same.grown.virtual virtual)
  have stands := (begun.stands.same same).insert unused opens
  have there : u.kernel.fds.find m = some c := by rw [opens.fds, Descriptors.find_insert_self]
  apply Ends.bind (changedir_spec reliable virtual' stands there begun.chain)
  rintro _ w ⟨rfl, kept, descended⟩
  exact ⟨rfl, (same.grown.trans opens.grown).trans kept.grown, descended⟩

variable {parents : List (Ftsent × List Ftsent)}

include reliable in
/-- From a directory to that of the entry above. -/
theorem changedirUp_spec {u : env.fs.Node} {us : List env.fs.Node} (virtual : sp.ftsOptions.Virtual)
    (stands : Stands sp vs (d :: u :: us) dirs) (above : Above sp arg parents (u :: us)) :
    Ends fails (fun r sp' => r = false ∧ Kept sp sp' ∧ ∃ ws, Stands sp' ws (u :: us) dirs) (changedirUp parents) sp := by
  cases parents with
  | nil => exact absurd above id
  | cons entry parents =>
    obtain ⟨opened, -⟩ := above
    exact ascend_spec reliable virtual stands opened.recorded

include reliable in
theorem buildReturn_spec (virtual : sp.ftsOptions.Virtual) (stands : Stands sp vs (d :: ds) dirs)
    (placed : Placed env ds arg p) (above : Above sp arg parents ds) :
    Ends fails (fun r sp' => r = false ∧ Kept sp sp' ∧ ∃ ws, Stands sp' ws ds dirs) (buildReturn p parents) sp := by
  unfold buildReturn
  have root := placed.root
  cases ds with
  | nil =>
    rw [if_pos (beq_iff_eq.mp root)]
    exact (restore_spec reliable virtual stands).mono fun r t restored =>
      ⟨restored.1, restored.2.1, [], restored.2.2⟩
  | cons u us =>
    rw [if_neg (beq_eq_false_iff_ne.mp root)]
    exact changedirUp_spec reliable virtual stands above

include reliable in
theorem ftsSort_spec {compare : Ftsent → Ftsent → ℤ} {head : List Ftsent} :
    Ends fails (fun r sp' => r.Perm head ∧ Beside sp sp' ∧ sp'.ftsPath = sp.ftsPath) (ftsSort compare head) sp := by
  have array : ∀ nitems, Ends fails (fun _ sp' => Beside sp sp' ∧ sp'.ftsPath = sp.ftsPath) (sortArray nitems) sp := by
    intro nitems
    apply Ends.get_bind
    dsimp only
    split_ifs
    · apply Ends.bind (allocated_spec reliable)
      rintro _ t ⟨rfl, same⟩
      exact ⟨same.beside.trans ⟨⟨rfl, rfl⟩, rfl, rfl, rfl, rfl⟩, same.kept.path⟩
    · exact ⟨⟨⟨rfl, rfl⟩, rfl, rfl, rfl, rfl⟩, rfl⟩
    · exact ⟨.refl sp, rfl⟩
  refine .bind (array _) fun sortable t result => ?_
  cases sortable with
  | true => exact ⟨env.qsort_perm _ _, result⟩
  | false => exact ⟨.refl _, result⟩

include reliable in
theorem ftsSortGiven_spec {head : List Ftsent} :
    Ends fails (fun r sp' => r.Perm head ∧ Beside sp sp' ∧ sp'.ftsPath = sp.ftsPath) (ftsSortGiven head) sp := by
  unfold ftsSortGiven
  split
  · exact ⟨.refl _, .refl sp, rfl⟩
  · split_ifs
    · exact ftsSort_spec reliable
    · exact ⟨.refl _, .refl sp, rfl⟩

include reliable in
theorem buildSort_spec {sortByInode : Bool} {head : List Ftsent} :
    Ends fails (fun r sp' => r.Perm head ∧ Beside sp sp' ∧ sp'.ftsPath = sp.ftsPath) (buildSort sortByInode head) sp := by
  unfold buildSort
  split_ifs
  · apply Ends.bind (ftsSort_spec reliable)
    rintro listed t ⟨perm, beside, path⟩
    apply (ftsSortGiven_spec reliable).mono
    rintro r u ⟨perm', beside', path'⟩
    exact ⟨perm'.trans perm, beside.trans beside', path'.trans path⟩
  · exact ftsSortGiven_spec reliable

/-! ## `fts_build` -/

/-- The stream is in the directory of an entry, with these entries still to be read. -/
structure Inside (sp : FTS env) (d : env.fs.Node) (ds : List env.fs.Node) (dirs : List ℕ) (arg : List UInt8)
    (head : List Ftsent) (p : Ftsent) : Prop where
  stands : ∃ vs, Stands sp vs (d :: ds) (held p ++ dirs)
  opened : Opened sp d ds arg p
  waits : ∀ q ∈ head, Waits sp (d :: ds) arg q
  ended : head = [] → p.ftsDirp = none

include reliable in
theorem buildEntries_spec {len : ℕ} {continueReaddir : Bool} (virtual : sp.ftsOptions.Virtual)
    (stands : Stands sp vs (d :: ds) (held p ++ dirs)) (opened : Opened sp d ds arg p) (long : arg.length ≤ len)
    (isOpen : p.ftsDirp.isSome) :
    Ends fails (Reads vs d ds dirs arg sp) (buildEntries len continueReaddir p) sp := by
  obtain ⟨dp, dirp⟩ := Option.isSome_iff_exists.mp isOpen
  unfold buildEntries
  rw [held, dirp] at stands
  rw [dirp]
  apply Ends.get_bind
  exact buildLoop_spec reliable virtual stands opened (opened.rest dp dirp) long (List.forall_mem_nil _)

include reliable in
/-- With entries, the stream stays in the directory. -/
theorem buildEnd_cons_spec {descended : Bool} {len : ℕ} {r : Listed} (virtual : sp.ftsOptions.Virtual)
    (gathered : Gathered vs d ds dirs arg sp' r sp) (listed : r.head ≠ []) :
    Ends fails (fun s sp' => s.1 ≠ [] ∧ Inside sp' d ds dirs arg s.1 s.2 ∧ Grown sp sp')
      (buildEnd parents descended len r) sp := by
  refine .get_bind (.bind (writeNochdir_spec virtual) fun _ t unchanged => ?_)
  rw [unchanged]
  split
  · rename_i none
    exact absurd none listed
  · apply Ends.bind (buildSort_spec reliable)
    rintro head u ⟨perm, beside, path⟩
    have stands := gathered.stands.beside beside
    have grown : Grown sp u := ⟨beside.toMoved, path ▸ List.prefix_rfl⟩
    have some : head ≠ [] := fun none => listed (none ▸ perm).symm.eq_nil
    refine ⟨some, ⟨⟨_, stands⟩, gathered.opened.moved grown.toMoved, fun q member => ?_, fun none => absurd none some⟩, grown⟩
    exact (gathered.waits q (perm.mem_iff.mp member)).moved grown.toMoved

include reliable in
/-- Without entries, the stream leaves the directory if it has just entered it. -/
theorem buildEnd_nil_spec {len : ℕ} {r : Listed} (virtual : sp.ftsOptions.Virtual)
    (gathered : Gathered vs d ds dirs arg sp' r sp) (above : Above sp arg parents ds) (none : r.head = []) :
    Ends fails (fun s sp' => s.1 = [] ∧ (∃ ws, Stands sp' ws ds dirs) ∧ Visited sp' ds arg s.2 ∧ Grown sp sp')
      (buildEnd parents true len r) sp := by
  have closed := gathered.ended none
  have stands := gathered.stands
  rw [held, closed] at stands
  refine .get_bind (.bind (writeNochdir_spec virtual) fun _ t unchanged => ?_)
  rw [unchanged]
  split
  · apply Ends.bind (buildReturn_spec reliable virtual stands gathered.opened.placed above)
    rintro _ u ⟨rfl, kept, stands⟩
    refine ⟨rfl, stands, ⟨?_, ?_, .ofInfo ?_⟩, kept.grown⟩
    · dsimp only
      split_ifs
      · exact gathered.opened.placed.same rfl
      · exact gathered.opened.placed
    · dsimp only
      split_ifs
      · exact closed
      · exact closed
    · dsimp only
      split_ifs with clean
      · nofun
      · intro info
        exact clean (by rw [info]; exact ⟨nofun, nofun⟩)
  · rename_i head some
    exact absurd none some

include reliable in
theorem buildRest_spec {continueReaddir descended : Bool} {post : List Ftsent × Ftsent → FTS env → Prop}
    (virtual : sp.ftsOptions.Virtual) (stands : Stands sp vs (d :: ds) (held p ++ dirs)) (opened : Opened sp d ds arg p)
    (isOpen : p.ftsDirp.isSome) (halted : ∀ cur t, Halted t → post ([], cur) t)
    (finish : ∀ len r t, Gathered vs d ds dirs arg sp r t → Ends Excused post (buildEnd parents descended len r) t) :
    Ends Excused post (buildRest parents continueReaddir descended p) sp := by
  apply Ends.bind (nappend_spec stands.checks)
  rintro len t ⟨unchanged, place⟩
  rw [unchanged]
  refine .bind (writeNochdir_spec virtual) fun _ t unchanged => ?_
  rw [unchanged]
  have long : arg.length ≤ len + 1 := by
    have := opened.placed.long
    omega
  apply Ends.bind (buildEntries_spec reliable virtual stands opened long isOpen)
  rintro r t (⟨⟨-, gaveUp⟩, stopped⟩ | gathered)
  · rw [gaveUp]
    exact halted _ _ stopped
  · rw [gathered.kept]
    exact finish _ r t gathered

/-- What `fts_build` leaves when it opens a directory. -/
def Built (ds : List env.fs.Node) (dirs : List ℕ) (arg : List UInt8) (sp : FTS env) (r : List Ftsent × Ftsent)
    (sp' : FTS env) : Prop :=
  r.1 = [] ∧ Halted sp' ∨
  Grown sp sp' ∧ (r.1 = [] ∧ (∃ vs, Stands sp' vs ds dirs) ∧ Visited sp' ds arg r.2 ∨
    r.1 ≠ [] ∧ ∃ d, Inside sp' d ds dirs arg r.1 r.2)

include reliable in
theorem ftsBuild_spec (tree : Tree env.fs) (virtual : sp.ftsOptions.Virtual) (stands : Stands sp vs ds dirs)
    (visited : Visited sp ds arg p) (info : p.ftsInfo = .d) (spelled : Spelled sp ds arg)
    (inside : ∀ d ∈ ds.head?, (env.fs.stat d).stMode = some .directory) (above : Above sp arg parents ds) :
    Ends Excused (Built ds dirs arg sp) (ftsBuild p parents) sp := by
  unfold ftsBuild
  apply Ends.bind (buildOpen_spec reliable tree virtual stands visited info spelled inside)
  rintro ⟨fd, q⟩ t ⟨grown, ⟨c, n, rfl, begun⟩ | ⟨rfl, stands, visited⟩⟩
  · rw [visited.closed]
    apply Ends.bind (buildDescend_spec reliable (grown.virtual virtual) begun)
    rintro _ u ⟨rfl, grown', ws, stands⟩
    have grown := grown.trans grown'
    have virtual := grown.virtual virtual
    have opened := begun.opened.moved grown'.toMoved
    have isOpen : q.ftsDirp.isSome := by
      rw [begun.dirp]
      rfl
    have holding : Stands u ws (c :: ds) (held q ++ dirs) := by
      rw [held, begun.dirp]
      exact stands
    apply buildRest_spec reliable virtual holding opened isOpen (fun cur w halted => .inl ⟨rfl, halted⟩)
    intro len r w gathered
    have virtual := gathered.grown.virtual virtual
    have grown := grown.trans gathered.grown
    by_cases none : r.head = []
    · apply (buildEnd_nil_spec reliable virtual gathered (above.moved grown.toMoved) none).mono
      rintro s x ⟨none, stands, visited, grown'⟩
      exact .inr ⟨grown.trans grown', .inl ⟨none, stands, visited⟩⟩
    · apply (buildEnd_cons_spec reliable virtual gathered none).mono
      rintro s x ⟨some, inside, grown'⟩
      exact .inr ⟨grown.trans grown', .inr ⟨some, c, inside⟩⟩
  · exact .inr ⟨grown, .inl ⟨rfl, ⟨_, stands⟩, visited⟩⟩

include reliable in
/-- The next part of a directory. -/
theorem ftsBuild_next_spec (virtual : sp.ftsOptions.Virtual) (stands : Stands sp vs (d :: ds) (held p ++ dirs))
    (opened : Opened sp d ds arg p) (isOpen : p.ftsDirp.isSome) :
    Ends Excused (fun r sp' => r.1 = [] ∧ Halted sp' ∨ Grown sp sp' ∧ Inside sp' d ds dirs arg r.1 r.2)
      (ftsBuild p parents) sp := by
  obtain ⟨dp, dirp⟩ := Option.isSome_iff_exists.mp isOpen
  have read : Ends Excused (fun r sp' => r = (some (dp.fd : ℤ), p) ∧ Leaves sp.kernel.fds sp sp') (buildOpen p parents)
      sp := by
    unfold buildOpen
    rw [dirp]
    apply Ends.bind (dirfd_spec reliable)
    rintro _ t ⟨rfl, same⟩
    rw [if_neg (Int.not_lt.mpr (Int.natCast_nonneg _))]
    exact ⟨rfl, same⟩
  unfold ftsBuild
  apply Ends.bind read
  rintro _ t ⟨rfl, same⟩
  simp only [isOpen, ↓reduceIte]
  have virtual := same.grown.virtual virtual
  refine buildRest_spec reliable virtual (stands.same same) (opened.moved same.grown.toMoved) isOpen
    (fun cur w halted => .inl ⟨rfl, halted⟩) ?_
  intro len r w gathered
  have virtual := gathered.grown.virtual virtual
  have grown := same.grown.trans gathered.grown
  by_cases none : r.head = []
  · refine .get_bind (.bind (writeNochdir_spec virtual) fun _ x unchanged => ?_)
    rw [unchanged, none]
    have closed := gathered.ended none
    refine .inr ⟨grown, ?_⟩
    dsimp only
    split_ifs
    · refine ⟨⟨vs, gathered.stands⟩, ?_, List.forall_mem_nil _, fun _ => closed⟩
      exact gathered.opened.same rfl gathered.opened.recorded gathered.opened.rest
    · exact ⟨⟨vs, gathered.stands⟩, gathered.opened, List.forall_mem_nil _, fun _ => closed⟩
  · apply (buildEnd_cons_spec reliable virtual gathered none).mono
    rintro s x ⟨some, inside, grown'⟩
    exact .inr ⟨grown.trans grown', inside⟩

end Unfailing

end Yalibct.Fts
