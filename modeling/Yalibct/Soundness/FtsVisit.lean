import Yalibct.Soundness.FtsListing

/-! # What a call of `fts_read` returns

A stream that does not fail returns what the file system has, one visit after the other. Where it is after a
call determines what is still to be returned: that, behind what the call returned, is what was to be
returned before.
-/

namespace Yalibct.Fts.Visit

open Machine Place CycleCheck
open Yalibct.Fts.Path (unread)

/-- What a traversal is started with: the directory of the process, the options of the stream, and the
arguments. -/
structure Site (env : Env) where
  start : env.fs.Node
  o : Options
  roots : List (List UInt8)

variable {env : Env} {w : Site env} {args : ℕ → Option (List UInt8)} {fails : Fault → FTS env → Prop}
variable {sp sp' : FTS env} {p q : Ftsent} {pos : Position} {link : List Ftsent}
variable {parents : List (Ftsent × List Ftsent)} {c d : env.fs.Node} {ds : List env.fs.Node}
variable {above path : List UInt8} {k : ℕ} {vs : List Mark}

/-! ## The tree -/

/-- The directories below the arguments, with their paths. -/
inductive Reaches (w : Site env) : List UInt8 → env.fs.Node → Prop
  | root {arg c} (argument : arg ∈ w.roots) (found : env.fs.resolve w.start arg w.o.comfollow = .ok c) : Reaches w arg c
  | entry {path d c e} (above : Reaches w path d) (member : e ∈ env.fs.entries d) (plain : isDot e.dName = false)
      (found : env.fs.resolve d e.dName false = .ok c) (directory : (env.fs.stat c).stMode = some .directory) :
      Reaches w (Path.join path e.dName) c

/-- A finite tree whose directories can be told apart, and in which a path leads to what its names lead to. No
call fails in it, and its paths fit in the memory. In `FTS_NOCHDIR` mode, no argument ends in a slash; without
`FTS_CWDFD`, the directory of the process is called `.`. -/
structure Tree (w : Site env) (height : env.fs.Node → ℕ) : Prop where
  reliable : env.Reliable
  unresolved : Path.Unresolved env.fs
  names : Path.Names env.fs
  finite : Finite env.fs height
  distinct : ∀ {c d}, (env.fs.stat c).stMode = some .directory → (env.fs.stat d).stMode = some .directory →
    (env.fs.stat c).devIno = (env.fs.stat d).devIno → c = d
  climbs : ∀ {d c e}, e ∈ env.fs.entries d → isDot e.dName = false → env.fs.resolve d e.dName false = .ok c →
    (env.fs.stat c).stMode = some .directory → Climbs env.fs c d
  plain : Plain w.o
  strings : ∀ arg ∈ w.roots, 0 ∉ arg
  leads : ∀ {path d}, Reaches w path d → Leads env.fs w.o w.start d path
  roomy : ∀ {path d}, Reaches w path d → Roomy path (env.fs.entries d)
  unslashed : w.o.nochdir = true → ∀ arg ∈ w.roots, arg.getLast? ≠ some slash
  dot : w.o.nochdir = false → w.o.cwdfd = false →
    env.fs.resolve w.start [46] false = .ok w.start ∧ (env.fs.stat w.start).stMode = some .directory

/-! ## Entries of a position -/

/-- How the name of an entry in the first of the directories, or of a root, leads to a directory. -/
def Named (w : Site env) (args : ℕ → Option (List UInt8)) (p : Ftsent) (c : env.fs.Node) : List env.fs.Node → Prop
  | [] => ∃ arg ∈ w.roots, args p.address = some arg ∧ env.fs.resolve w.start arg w.o.comfollow = .ok c
  | d :: _ => (∃ e ∈ env.fs.entries d, e.dName = p.ftsName) ∧ isDot p.ftsName = false ∧
      env.fs.resolve d p.ftsName false = .ok c

/-- The entry of a directory. -/
structure Dir (w : Site env) (args : ℕ → Option (List UInt8)) (ds : List env.fs.Node) (p : Ftsent) (c : env.fs.Node) :
    Prop where
  directory : (env.fs.stat c).stMode = some .directory
  statp : p.ftsStatp = env.fs.stat c
  errno : p.ftsErrno = 0
  info : p.ftsInfo = .d
  level : p.ftsLevel = ds.length
  chdir : p.dontchdir = false
  straight : p.symfollow = false
  instr : p.ftsInstr = .noInstr
  accpath : p.ftsAccpath = if ds = [] ∨ w.o.nochdir then .ftsPath else .ftsName
  named : Named w args p c ds

/-- An entry that waits in a list: a root that is not yet loaded, or what was read of the first of the directories. -/
def Waits (w : Site env) : List env.fs.Node → Ftsent → Prop
  | [], p => Quiet p ∧ p.ftsLevel = rootLevel ∧ p.ftsName ∈ w.roots ∧
      (p.ftsInfo = .nsok ∧ p.ftsStatp.stSize = statRequired ∧ p.ftsErrno = 0 ∨
        mark p = seen env.fs w.start p.ftsName w.o.comfollow (unseen p.ftsName rootLevel))
  | d :: ds, p => Quiet p ∧ (p.ftsAccpath = if w.o.nochdir then .ftsPath else .ftsName) ∧
      ∃ e ∈ env.fs.entries d, mark p = listed env w.o d ((d :: ds).length : ℕ) e

/-- The entries above the current one are those of the directories that it is in. -/
def Nested (w : Site env) (args : ℕ → Option (List UInt8)) : List (Ftsent × List Ftsent) → List env.fs.Node → Prop
  | [], [] => True
  | (p, link) :: parents, d :: ds => Dir w args ds p d ∧ (∀ e ∈ unread p, e ∈ env.fs.entries d) ∧
      (∀ q ∈ link, Waits w ds q) ∧ Nested w args parents ds
  | _, _ => False

/-- The directory that the cycle detection recorded is one of these, after at most so many descents. -/
def Tracks (k : ℕ) (sp : FTS env) (scope : List env.fs.Node) : Prop :=
  ∃ state, sp.ftsCycle = some (.state state) ∧ state.magic = ccMagic ∧ state.chdirCounter ≤ k ∧
    (scope ≠ [] → state.chdirCounter ≠ 0) ∧
    (state.chdirCounter ≠ 0 → ∃ d ∈ scope, state.devIno = (env.fs.stat d).devIno)

/-- The entry that was returned last: a directory in pre-order, or something else. -/
inductive Current (w : Site env) (args : ℕ → Option (List UInt8)) (k : ℕ) (sp : FTS env) (ds : List env.fs.Node)
    (p : Ftsent) : Prop
  | entered (c : env.fs.Node) (dir : Dir w args ds p c) (tracks : Tracks k sp (c :: ds))
  | other (info : p.ftsInfo ≠ .d ∧ p.ftsInfo ≠ .init) (tracks : ds ≠ [] → Tracks k sp ds)

/-- Where a stream is, but for its path and its current entry. -/
structure Around (w : Site env) (args : ℕ → Option (List UInt8)) (sp : FTS env) (parents : List (Ftsent × List Ftsent))
    (link : List Ftsent) (ds : List env.fs.Node) : Prop where
  options : sp.ftsOptions = w.o
  here : Here sp w.start ds (dirFds parents)
  nested : Nested w args parents ds
  waits : ∀ q ∈ link, Waits w ds q

/-- Where a stream is after a call that returned an entry. -/
structure Core (w : Site env) (args : ℕ → Option (List UInt8)) (k : ℕ) (sp : FTS env) (pos : Position)
    (ds : List env.fs.Node) : Prop where
  current : sp.ftsCur = some pos
  around : Around w args sp pos.parents pos.link ds
  closed : pos.cur.ftsDirp = none
  instr : pos.cur.ftsInstr = .noInstr
  entry : Current w args k sp ds pos.cur

/-- What is returned after an entry, from this list on, in the first of the directories. -/
def Rest (w : Site env) (dev : ℕ) : List (Ftsent × List Ftsent) → List env.fs.Node → List Ftsent → List Mark → Prop
  | [], [], link, vs => Roots env w.o w.start (link.map Ftsent.ftsName) vs
  | (p, above) :: parents, d :: ds, link, vs => ∃ ws us, Tour env w.o dev d p.ftsLevel (link.map mark) (unread p) ws ∧
      Rest w dev parents ds above us ∧ vs = ws ++ (mark p).left :: us
  | _, _, _, _ => False

/-- What is returned between the two visits of a directory. -/
def Within (w : Site env) (dev : ℕ) (level : ℤ) (c : env.fs.Node) (inner : List Mark) : Prop :=
  if w.o.xdev ∧ (env.fs.stat c).stDev ≠ dev then inner = []
  else Tour env w.o dev c level [] (env.fs.entries c) inner

/-- What is returned after the current entry. -/
inductive Pending (w : Site env) (args : ℕ → Option (List UInt8)) (dev : ℕ) (pos : Position) (ds : List env.fs.Node) :
    List Mark → Prop
  | entered {c : env.fs.Node} {inner us : List Mark} (dir : Dir w args ds pos.cur c)
      (within : Within w dev pos.cur.ftsLevel c inner) (later : Rest w dev pos.parents ds pos.link us) :
      Pending w args dev pos ds (inner ++ (mark pos.cur).left :: us)
  | other {us : List Mark} (info : pos.cur.ftsInfo ≠ .d) (later : Rest w dev pos.parents ds pos.link us) :
      Pending w args dev pos ds us

/-- The entry that is returned, if there is one, is the current one, and begins what was to be returned. -/
inductive Returns (w : Site env) (args : ℕ → Option (List UInt8)) (k : ℕ) (goal : List Mark → Prop) (sp' : FTS env) :
    Option Ftsent → Prop
  | ended (current : sp'.ftsCur = none) (nothing : goal []) : Returns w args k goal sp' none
  | entry {pos : Position} {ds : List env.fs.Node} (core : Core w args k sp' pos ds)
      (first : ∀ vs, Pending w args sp'.ftsDev pos ds vs → goal (mark pos.cur :: vs)) : Returns w args k goal sp' (some pos.cur)

theorem Returns.mono {goal goal' : List Mark → Prop} {r : Option Ftsent} (returns : Returns w args k goal sp' r)
    (later : ∀ vs, goal vs → goal' vs) : Returns w args k goal' sp' r := by
  cases returns with
  | ended current nothing => exact .ended current (later _ nothing)
  | entry core first => exact .entry core fun vs pending => later _ (first vs pending)

/-! ## The detection of cycles -/

theorem Tracks.later {k' : ℕ} {scope : List env.fs.Node} (tracks : Tracks k sp scope) (later : k ≤ k') : Tracks k' sp scope := by
  obtain ⟨state, cycle, magic, few, counts, saved⟩ := tracks
  exact ⟨state, cycle, magic, few.trans later, counts, saved⟩

theorem Tracks.same {scope : List env.fs.Node} (tracks : Tracks k sp scope) (same : sp'.ftsCycle = sp.ftsCycle) :
    Tracks k sp' scope := by
  obtain ⟨state, cycle, rest⟩ := tracks
  exact ⟨state, same.trans cycle, rest⟩

theorem Plain.untight {o : Options} (plain : Plain o) : o.tight = false := by
  rw [Options.tight, plain.tight, plain.logical]
  rfl

/-- A directory is entered that is not one of those that may be recorded. -/
theorem enterDir_enters {scope : List env.fs.Node} (plain : Plain sp.ftsOptions) (tracks : Tracks k sp scope)
    (few : k + 1 < 2 ^ 64) (fresh : ∀ d ∈ scope, (env.fs.stat d).devIno ≠ (env.fs.stat c).devIno)
    (statp : p.ftsStatp = env.fs.stat c) :
    Ends fails (fun r sp' => r = (true, p) ∧ (∃ cycle, sp' = { sp with ftsCycle := cycle }) ∧
      Tracks (k + 1) sp' (c :: scope)) (enterDir p) sp := by
  obtain ⟨state, cycle, magic, counted, counts, saved⟩ := tracks
  have other : ¬ (state.chdirCounter ≠ 0 ∧ sameInode p.ftsStatp.devIno state.devIno = true) := by
    rintro ⟨some, same⟩
    obtain ⟨d, member, recorded⟩ := saved some
    rw [sameInode_iff, recorded, statp] at same
    exact fresh d member same.symm
  have next : (state.chdirCounter + 1) % 2 ^ 64 = state.chdirCounter + 1 := Nat.mod_eq_of_lt (by omega)
  have checked : ∃ state', cycleCheck state p.ftsStatp.devIno = .ok (false, state') ∧ state'.magic = ccMagic ∧
      state'.chdirCounter = state.chdirCounter + 1 ∧ ∃ d ∈ c :: scope, state'.devIno = (env.fs.stat d).devIno := by
    unfold cycleCheck
    rw [if_neg (not_not_intro magic), if_neg other]
    dsimp only
    rw [next]
    split_ifs with power wrapped
    · exact wrapped.elim
    · exact ⟨_, rfl, magic, rfl, c, List.mem_cons_self .., congrArg Stat.devIno statp⟩
    · refine ⟨_, rfl, magic, rfl, ?_⟩
      have some : state.chdirCounter ≠ 0 := by
        intro none
        rw [none] at power
        exact power rfl
      obtain ⟨d, member, recorded⟩ := saved some
      exact ⟨d, List.mem_cons_of_mem _ member, recorded⟩
  obtain ⟨state', passed, magic', count, recorded⟩ := checked
  apply Ends.get_bind
  rw [Plain.untight plain, if_neg Bool.false_ne_true]
  apply Ends.get_bind
  simp only [cycle, passed]
  apply Ends.modify_bind
  refine ⟨rfl, ⟨_, rfl⟩, state', rfl, magic', ?_, fun _ => ?_, fun _ => recorded⟩
  · omega
  · omega

/-- The parent of a directory is what may be recorded once it is left. -/
theorem leaveDir_leaves {q : Option Ftsent} (plain : Plain sp.ftsOptions) (tracks : Tracks k sp (c :: ds))
    (statp : p.ftsStatp = env.fs.stat c)
    (above : ∀ d ∈ ds.head?, ∃ parent, q = some parent ∧ 0 ≤ parent.ftsLevel ∧ parent.ftsStatp = env.fs.stat d)
    (outermost : ds = [] → q = none) :
    Ends fails (fun _ sp' => (∃ cycle, sp' = { sp with ftsCycle := cycle }) ∧ (ds ≠ [] → Tracks k sp' ds))
      (leaveDir p q) sp := by
  obtain ⟨state, cycle, magic, counted, counts, saved⟩ := tracks
  have some := counts (List.cons_ne_nil c ds)
  apply Ends.get_bind
  dsimp only
  rw [Plain.untight plain, if_neg Bool.false_ne_true]
  cases ds with
  | nil =>
    rw [outermost rfl]
    exact ⟨⟨sp.ftsCycle, rfl⟩, fun nonempty => absurd rfl nonempty⟩
  | cons d ds =>
    obtain ⟨parent, rfl, level, statp'⟩ := above d rfl
    simp only [level, ↓reduceIte, cycle, reflectChdirUp, some]
    split_ifs with same
    · exact ⟨⟨_, rfl⟩, fun _ => ⟨_, rfl, magic, counted, fun _ => some,
        fun _ => ⟨d, List.mem_cons_self .., congrArg Stat.devIno statp'⟩⟩⟩
    · refine ⟨⟨_, rfl⟩, fun _ => ⟨state, rfl, magic, counted, fun _ => some, fun _ => ?_⟩⟩
      obtain ⟨u, member, recorded⟩ := saved some
      rcases List.mem_cons.mp member with rfl | member
      · rw [sameInode_iff, recorded, statp] at same
        exact absurd rfl same
      · exact ⟨u, member, recorded⟩

/-! ## Where a directory is -/

section

variable {height : env.fs.Node → ℕ} (tree : Tree w height)
include tree

/-- A directory is lower than all that it is in. -/
theorem Nested.lower (nested : Nested w args parents ds) (dir : Dir w args ds p c) : ∀ d ∈ ds, height c < height d := by
  induction ds generalizing parents p c with
  | nil => exact List.forall_mem_nil _
  | cons d ds ih =>
    cases parents with
    | nil => exact nested.elim
    | cons entry parents =>
      obtain ⟨outer, -, -, nested⟩ := nested
      obtain ⟨⟨e, member, called⟩, plain, found⟩ := dir.named
      have first : height c < height d := tree.finite member (called ▸ plain) (called ▸ found) dir.directory
      exact List.forall_mem_cons.mpr ⟨first, fun u inside => first.trans (ih nested outer u inside)⟩

omit tree in
theorem Nested.directory (nested : Nested w args parents ds) : ∀ d ∈ ds, (env.fs.stat d).stMode = some .directory := by
  induction ds generalizing parents with
  | nil => exact List.forall_mem_nil _
  | cons d ds ih =>
    cases parents with
    | nil => exact nested.elim
    | cons entry parents => exact List.forall_mem_cons.mpr ⟨nested.1.directory, ih nested.2.2.2⟩

/-- A directory is not taken for one that it is in. -/
theorem Nested.fresh (nested : Nested w args parents ds) (dir : Dir w args ds p c) :
    ∀ d ∈ ds, (env.fs.stat d).devIno ≠ (env.fs.stat c).devIno := by
  intro d member same
  have equal := tree.distinct (nested.directory d member) dir.directory same
  have lower := nested.lower tree dir d member
  rw [equal] at lower
  exact Nat.lt_irrefl _ lower

theorem Nested.chain (nested : Nested w args parents ds) (dir : Dir w args ds p c) : (c :: ds).IsChain (Climbs env.fs) := by
  induction ds generalizing parents p c with
  | nil => exact List.isChain_singleton c
  | cons d ds ih =>
    cases parents with
    | nil => exact nested.elim
    | cons entry parents =>
      obtain ⟨outer, -, -, nested⟩ := nested
      obtain ⟨⟨e, member, called⟩, plain, found⟩ := dir.named
      exact List.isChain_cons_cons.mpr
        ⟨tree.climbs member (called ▸ plain) (called ▸ found) dir.directory, ih nested outer⟩

omit tree in
theorem Nested.recorded (nested : Nested w args parents ds) : ∀ d ∈ ds.head?, ∃ q, parent parents = some q ∧
    0 ≤ q.ftsLevel ∧ q.ftsStatp = env.fs.stat d := by
  cases ds with
  | nil => exact fun _ member => absurd member (Option.not_mem_none _)
  | cons d ds =>
    cases parents with
    | nil => exact nested.elim
    | cons entry parents =>
      rintro _ ⟨⟩
      refine ⟨entry.1, rfl, ?_, nested.1.statp⟩
      rw [nested.1.level]
      exact Int.natCast_nonneg _

omit tree in
theorem Nested.known (nested : Nested w args parents ds) : Recorded parents ds := by
  intro u member
  obtain ⟨q, above, -, statp⟩ := nested.recorded u member
  exact ⟨q, above, congrArg Stat.devIno statp⟩

omit tree in
theorem Nested.outermost (nested : Nested w args parents ds) : ds = [] ↔ parents = [] := by
  cases ds with
  | nil =>
    cases parents with
    | nil => exact iff_of_true rfl rfl
    | cons entry parents => exact nested.elim
  | cons d ds =>
    cases parents with
    | nil => exact nested.elim
    | cons entry parents => exact iff_of_false (List.cons_ne_nil _ _) (List.cons_ne_nil _ _)

omit tree in
/-- The directory of an entry is reached by the path of the entry. -/
theorem Dir.reaches {size : ℕ} (dir : Dir w args ds p c) (nested : Nested w args parents ds)
    (sits : Path.Sits True args size parents above path p) (outer : ∀ d ∈ ds.head?, Reaches w above d) :
    Reaches w path c := by
  have named := dir.named
  cases ds with
  | nil =>
    obtain ⟨arg, member, argument, found⟩ := named
    have same := (sits.first (nested.outermost.mp rfl)).2 trivial
    rw [argument] at same
    rw [← Option.some.inj same]
    exact .root member found
  | cons d ds =>
    obtain ⟨⟨e, member, called⟩, plain, found⟩ := named
    have inner : parents ≠ [] := fun none => List.cons_ne_nil d ds (nested.outermost.mpr none)
    rw [(sits.below inner).2.2 trivial, ← called]
    exact .entry (outer d rfl) member (called ▸ plain) (called ▸ found) dir.directory

omit tree in
/-- The directories of the entries above are reached by their paths. -/
theorem Nested.reaches {size : ℕ} (nested : Nested w args parents ds) (stack : Path.Stack True args size parents above) :
    ∀ d ∈ ds.head?, Reaches w above d := by
  induction ds generalizing parents above with
  | nil => exact fun _ member => absurd member (Option.not_mem_none _)
  | cons d ds ih =>
    cases parents with
    | nil => exact nested.elim
    | cons entry parents =>
      rintro _ ⟨⟩
      obtain ⟨dir, -, -, nested⟩ := nested
      obtain ⟨-, outer, stack, sits, -⟩ := stack
      exact dir.reaches nested sits (ih nested stack)

/-- The path in the buffer, or the name, leads to the directory of an entry. -/
theorem Dir.found (dir : Dir w args ds p c) (nested : Nested w args parents ds)
    (stack : Path.Stack True args sp.ftsPath.length parents above)
    (sits : Path.Sits True args sp.ftsPath.length parents above path p) (shown : path ++ [0] <+: sp.ftsPath) :
    env.fs.resolve (Here.pivot w.o w.start ds) (sp.accpath p) (w.o.comfollow && p.ftsLevel == rootLevel) = .ok c := by
  have named := dir.named
  cases ds with
  | nil =>
    obtain ⟨arg, member, argument, found⟩ := named
    have same := (sits.first (nested.outermost.mp rfl)).2 trivial
    rw [argument] at same
    rw [← Option.some.inj same] at shown
    have root : (p.ftsLevel == rootLevel) = true := beq_iff_eq.mpr dir.level
    have start : Here.pivot w.o w.start [] = w.start := ite_self w.start
    rw [FTS.accpath, dir.accpath, if_pos (.inl rfl), root, Bool.and_true, start]
    change env.fs.resolve w.start sp.path w.o.comfollow = _
    rw [FTS.path_eq shown (tree.strings arg member)]
    exact found
  | cons d ds =>
    obtain ⟨⟨e, member, called⟩, plain, found⟩ := named
    have inner : parents ≠ [] := fun none => List.cons_ne_nil d ds (nested.outermost.mpr none)
    have leads := tree.leads (nested.reaches stack d rfl)
    have deeper : (p.ftsLevel == rootLevel) = false := by
      rw [beq_eq_false_iff_ne, dir.level, rootLevel, List.length_cons]
      omega
    have accpath : p.ftsAccpath = if w.o.nochdir then .ftsPath else .ftsName := by
      rw [dir.accpath]
      simp only [reduceCtorEq, false_or]
    rw [deeper, Bool.and_false]
    refine (leads.accpath (called ▸ tree.names d e member) accpath (fun _ => ?_) false).trans found
    rw [← (sits.below inner).2.2 trivial]
    exact shown

end

/-! ## A look at an entry -/

section Unfailing

variable (reliable : env.Reliable)

include reliable in
private theorem statDeferred_checked {dir base : env.fs.Node} (logical : sp.ftsOptions.logical = false)
    (there : sp.kernel.base sp.ftsCwdFd = some base)
    (leads : ∀ follow, env.fs.resolve base (sp.accpath p) follow = env.fs.resolve dir path follow)
    (asked : p.ftsInfo = .nsok → p.ftsStatp.stSize = statRequired ∨ p.ftsStatp.stSize = noStatRequired) :
    Ends fails (fun r sp' => Restated p r ∧ Leaves sp.kernel.fds sp sp' ∧
      mark r = if p.ftsInfo = .nsok ∧ p.ftsStatp.stSize = statRequired then
        seen env.fs dir path (sp.ftsOptions.comfollow && p.ftsLevel == rootLevel) (mark p) else mark p)
      (statDeferred p) sp := by
  unfold statDeferred
  by_cases deferred : p.ftsInfo = .nsok
  · rw [if_pos deferred]
    rcases asked deferred with required | none
    · rw [if_pos required, if_pos ⟨deferred, required⟩]
      refine (ftsStat_seen reliable logical there leads).mono fun r t ⟨same, shows, leaves⟩ => ⟨same, leaves, ?_⟩
      rw [shows, Bool.false_or]
    · have other : p.ftsStatp.stSize ≠ statRequired := by
        rw [none]
        decide
      rw [if_neg other, if_pos none, if_neg fun both => other both.2]
      exact ⟨rfl, .refl sp, rfl⟩
  · rw [if_neg deferred, if_neg fun both => deferred both.1]
    exact ⟨rfl, .refl sp, rfl⟩

end Unfailing

/-- What is found of an entry, with the directory that it is, if it is one. -/
structure Finds (w : Site env) (args : ℕ → Option (List UInt8)) (ds : List env.fs.Node) (p : Ftsent) (m : Mark) : Prop where
  quiet : Quiet p
  level : p.ftsLevel = ds.length
  accpath : p.ftsAccpath = if ds = [] ∨ w.o.nochdir then .ftsPath else .ftsName
  started : m.info ≠ .init
  directory : m.info = .d → ∃ c, (env.fs.stat c).stMode = some .directory ∧ m.statp = env.fs.stat c ∧ m.errno = 0 ∧
    Named w args p c ds

theorem Finds.dir {m : Mark} (finds : Finds w args ds p m) (same : Restated p q) (shows : mark q = m) (info : m.info = .d) :
    ∃ c, Dir w args ds q c := by
  obtain ⟨c, directory, statp, errno, named⟩ := finds.directory info
  subst shows
  have info : q.ftsInfo = .d := info
  have recorded : q.ftsStatp = env.fs.stat c := by
    rw [← statp]
    exact (if_neg (by rw [info]; decide)).symm
  have address : q.address = p.address := by rw [same]
  have name : q.ftsName = p.ftsName := by rw [same]
  refine ⟨c, directory, recorded, errno, info, ?_, ?_, ?_, ?_, ?_, ?_⟩
  · rw [same]
    exact finds.level
  · rw [same]
    exact finds.quiet.chdir
  · rw [same]
    exact finds.quiet.straight
  · rw [same]
    exact finds.quiet.instr
  · rw [same]
    exact finds.accpath
  · cases ds with
    | nil =>
      obtain ⟨arg, member, argument, found⟩ := named
      exact ⟨arg, member, address ▸ argument, found⟩
    | cons d ds =>
      unfold Named
      rw [name]
      exact named

/-- What is returned from an entry on, if this is found of it. -/
inductive Ahead (w : Site env) (args : ℕ → Option (List UInt8)) (dev : ℕ) (parents : List (Ftsent × List Ftsent))
    (link : List Ftsent) (ds : List env.fs.Node) (p : Ftsent) (m : Mark) : List Mark → Prop
  | other {us : List Mark} (info : m.info ≠ .d) (later : Rest w dev parents ds link us) :
      Ahead w args dev parents link ds p m (m :: us)
  | directory {q : Ftsent} {c : env.fs.Node} {inner us : List Mark} (same : Restated p q) (shows : mark q = m)
      (dir : Dir w args ds q c) (within : Within w (if ds = [] then (env.fs.stat c).stDev else dev) p.ftsLevel c inner)
      (later : Rest w (if ds = [] then (env.fs.stat c).stDev else dev) parents ds link us) :
      Ahead w args dev parents link ds p m (m :: (inner ++ m.left :: us))

theorem Around.beside (around : Around w args sp parents link ds) (beside : Beside sp sp') (rfd : sp'.ftsRfd = sp.ftsRfd) :
    Around w args sp' parents link ds :=
  ⟨beside.options.trans around.options, around.here.beside beside rfd, around.nested, around.waits⟩

theorem Around.same (around : Around w args sp parents link ds) (leaves : Leaves sp.kernel.fds sp sp') :
    Around w args sp' parents link ds :=
  ⟨leaves.kept.options.trans around.options, around.here.same leaves, around.nested, around.waits⟩

section

variable {height : env.fs.Node → ℕ} (tree : Tree w height)
include tree

theorem checkForDir_visits {dir : env.fs.Node} {m : Mark} (around : Around w args sp pos.parents pos.link ds)
    (finds : Finds w args ds pos.cur m) (tracks : Tracks k sp ds) (few : k + 1 < 2 ^ 64)
    (leads : ∀ follow, env.fs.resolve (Here.pivot w.o w.start ds) (sp.accpath pos.cur) follow = env.fs.resolve dir path follow)
    (asked : pos.cur.ftsInfo = .nsok → pos.cur.ftsStatp.stSize = statRequired ∨ pos.cur.ftsStatp.stSize = noStatRequired)
    (sees : (if pos.cur.ftsInfo = .nsok ∧ pos.cur.ftsStatp.stSize = statRequired then
        seen env.fs dir path (w.o.comfollow && pos.cur.ftsLevel == rootLevel) (mark pos.cur) else mark pos.cur) = m) :
    Ends fails (fun r sp' => Returns w args (k + 1) (Ahead w args sp.ftsDev pos.parents pos.link ds pos.cur m) sp' r)
      (checkForDir pos) sp := by
  have plain : Plain sp.ftsOptions := around.options ▸ tree.plain
  have around : Around w args { sp with ftsCur := some pos } pos.parents pos.link ds :=
    around.beside ⟨⟨rfl, rfl⟩, rfl, rfl, rfl, rfl⟩ rfl
  have there := around.here.base.1
  rw [around.options] at there
  apply Ends.modify_bind
  have looks : Ends fails _ (statDeferred pos.cur) { sp with ftsCur := some pos } :=
    statDeferred_checked tree.reliable plain.logical there leads asked
  apply Ends.bind looks
  rintro q t ⟨same, leaves, shows⟩
  have around := around.same leaves
  have options : t.ftsOptions = sp.ftsOptions := leaves.kept.options
  have cycle : t.ftsCycle = sp.ftsCycle := by rw [leaves.rest]
  have device : t.ftsDev = sp.ftsDev := by rw [leaves.rest]
  have shows : mark q = m := shows.trans (by rw [← sees, ← around.options, options])
  have info : q.ftsInfo = m.info := by rw [← shows, mark]
  have closed : q.ftsDirp = none := by
    rw [same]
    exact finds.quiet.closed
  have instr : q.ftsInstr = .noInstr := by
    rw [same]
    exact finds.quiet.instr
  have level : q.ftsLevel = ds.length := by
    rw [same]
    exact finds.level
  have around : Around w args { t with ftsCur := some { pos with cur := q } } pos.parents pos.link ds :=
    around.beside ⟨⟨rfl, rfl⟩, rfl, rfl, rfl, rfl⟩ rfl
  apply Ends.modify_bind
  by_cases directory : q.ftsInfo = .d
  · rw [if_pos directory]
    obtain ⟨c, dir⟩ := finds.dir same shows (info.symm.trans directory)
    apply Ends.modify_bind
    have root : q.ftsLevel = rootLevel ↔ ds = [] := by
      rw [level, rootLevel]
      cases ds with
      | nil => exact iff_of_true rfl rfl
      | cons d ds => exact iff_of_false (by rw [List.length_cons]; omega) (List.cons_ne_nil d ds)
    simp only [root, dir.statp, device]
    have enters : Ends fails _ (enterDir q) { { t with ftsCur := some { pos with cur := q } } with
        ftsDev := if ds = [] then (env.fs.stat c).stDev else sp.ftsDev } :=
      enterDir_enters (options ▸ plain) (tracks.same cycle) few (around.nested.fresh tree dir) dir.statp
    apply Ends.bind enters
    rintro _ u ⟨rfl, ⟨cycle', entered⟩, tracks⟩
    have device : u.ftsDev = if ds = [] then (env.fs.stat c).stDev else sp.ftsDev := by rw [entered]
    have around : Around w args u pos.parents pos.link ds := by
      rw [entered]
      exact around.beside ⟨⟨rfl, rfl⟩, rfl, rfl, rfl, rfl⟩ rfl
    apply Ends.modify_bind
    rw [if_pos rfl]
    have core : Core w args (k + 1) { u with ftsCur := some { pos with cur := q } } { pos with cur := q } ds :=
      ⟨rfl, around.beside ⟨⟨rfl, rfl⟩, rfl, rfl, rfl, rfl⟩ rfl, closed, instr, .entered c dir (tracks.same rfl)⟩
    refine Returns.entry core fun vs pending => ?_
    rw [← shows]
    cases pending with
    | @entered c' inner us dir' within later =>
      have recorded : env.fs.stat c = env.fs.stat c' := dir.statp.symm.trans dir'.statp
      dsimp only at within later
      rw [device, recorded] at within later
      have level' : q.ftsLevel = pos.cur.ftsLevel := by rw [same]
      exact .directory same rfl dir' (level' ▸ within) later
    | other other later => exact absurd directory other
  · rw [if_neg directory]
    have core : Core w args (k + 1) { t with ftsCur := some { pos with cur := q } } { pos with cur := q } ds :=
      ⟨rfl, around, closed, instr, .other ⟨directory, info ▸ finds.started⟩ fun _ => (tracks.same cycle).later (Nat.le_succ k)⟩
    refine Returns.entry core fun vs pending => ?_
    cases pending with
    | entered dir' => exact absurd dir'.info directory
    | other other later =>
      rw [← shows] at info ⊢
      exact .other (info ▸ directory) (device ▸ later)

end

/-! ## The entries of a directory -/

private theorem listed_level (dir : env.fs.Node) (o : Options) (level : ℤ) (e : Dirent) :
    (listed env o dir level e).level = level := by
  unfold listed
  split_ifs
  · rfl
  · exact seen_level

private theorem listed_asked {dir : env.fs.Node} {o : Options} {level : ℤ} {e : Dirent}
    (info : (listed env o dir level e).info = .nsok) : (listed env o dir level e).statp.stSize = statRequired ∨
      (listed env o dir level e).statp.stSize = noStatRequired := by
  unfold listed at info ⊢
  split_ifs at info ⊢ with deferred
  · dsimp only
    split_ifs
    · exact .inr rfl
    · exact .inl rfl
  · exact absurd info seen_ne.1

/-- What shows of an entry tells whether its status is to be asked for. -/
theorem mark_asked (info : p.ftsInfo = .nsok) : (mark p).statp.stSize = p.ftsStatp.stSize := by
  rw [mark, known, if_pos info]

private theorem checked_mark {dir : env.fs.Node} : checked env.fs dir (mark p) =
    if p.ftsInfo = .nsok ∧ p.ftsStatp.stSize = statRequired then seen env.fs dir p.ftsName false (mark p) else mark p := by
  unfold checked
  refine if_congr ?_ rfl rfl
  refine and_congr_right fun info => ?_
  rw [mark_asked info]

theorem Waits.finds (waits : Waits w (d :: ds) p) : Finds w args (d :: ds) p (checked env.fs d (mark p)) ∧
    (p.ftsInfo = .nsok → p.ftsStatp.stSize = statRequired ∨ p.ftsStatp.stSize = noStatRequired) := by
  obtain ⟨quiet, accpath, e, member, shows⟩ := waits
  have name : p.ftsName = e.dName := by
    rw [← listed_name d ((d :: ds).length : ℕ) e, ← shows, mark]
  have level : p.ftsLevel = (d :: ds).length := by
    rw [← listed_level d w.o ((d :: ds).length : ℕ) e, ← shows, mark]
  refine ⟨⟨quiet, level, ?_, ?_, fun info => ?_⟩, fun info => ?_⟩
  · rw [accpath]
    simp only [reduceCtorEq, false_or]
  · rw [shows]
    rcases checked_listed (o := w.o) d ((d :: ds).length : ℕ) e with ⟨same, info⟩ | ⟨m, -, -, -, same⟩
    · rw [same, info]
      decide
    · rw [same]
      exact seen_ne.2.2
  · rw [shows] at info ⊢
    obtain ⟨c, found, directory, plain, same⟩ := listed_directory info (by rw [rootLevel, List.length_cons]; omega)
    rw [same]
    exact ⟨c, directory, rfl, rfl, ⟨e, member, name.symm⟩, name ▸ plain, name ▸ found⟩
  · rw [← mark_asked info, shows]
    refine listed_asked ?_
    rw [← shows]
    exact info

/-- What is found of the first of the entries of a directory, and what is returned after it. -/
theorem Ahead.rest {dev : ℕ} (waits : Waits w (d :: ds) p) (nested : Nested w args parents (d :: ds))
    (ahead : Ahead w args dev parents link (d :: ds) p (checked env.fs d (mark p)) vs) :
    Rest w dev parents (d :: ds) (p :: link) vs := by
  cases parents with
  | nil => exact nested.elim
  | cons entry parents =>
    cases ahead with
    | other info later =>
      obtain ⟨ws, us, tour, rest, rfl⟩ := later
      exact ⟨checked env.fs d (mark p) :: ws, us, .entry info tour, rest, rfl⟩
    | @directory q c inner us same shows dir within later =>
      obtain ⟨ws, us, tour, rest, rfl⟩ := later
      rw [if_neg (List.cons_ne_nil d ds)] at within tour rest
      have info : (checked env.fs d (mark p)).info = .d := by
        rw [← shows]
        exact dir.info
      have name : q.ftsName = p.ftsName := by rw [same]
      have found : env.fs.resolve d p.ftsName false = .ok c := name ▸ dir.named.2.2
      have level : p.ftsLevel = entry.1.ftsLevel + 1 := by
        have finds : Finds w args (d :: ds) p _ := waits.finds.1
        rw [finds.level, nested.1.level, List.length_cons]
        push_cast
        rfl
      unfold Within at within
      split_ifs at within with far
      · subst within
        exact ⟨checked env.fs d (mark p) :: (checked env.fs d (mark p)).left :: ws, us, .beyond info found far tour, rest, rfl⟩
      · rw [level] at within
        refine ⟨checked env.fs d (mark p) :: inner ++ (checked env.fs d (mark p)).left :: ws, us,
          .directory info found far within tour, rest, ?_⟩
        simp only [List.cons_append, List.append_assoc]

section

variable {height : env.fs.Node → ℕ} (tree : Tree w height)
include tree

theorem name_visits (around : Around w args sp pos.parents pos.link (d :: ds)) (waits : Waits w (d :: ds) pos.cur)
    (below : Path.Below True args sp.ftsPath pos.parents pos.link above) (kid : Path.Kid above sp.ftsPath.length pos.cur)
    (tracks : Tracks k sp (d :: ds)) (few : k + 1 < 2 ^ 64) :
    Ends fails (fun r sp' => Returns w args (k + 1)
      (Rest w sp.ftsDev pos.parents (d :: ds) (pos.cur :: pos.link)) sp' r) (name pos) sp := by
  obtain ⟨cur, link, parents⟩ := pos
  dsimp only at around waits below kid ⊢
  cases parents with
  | nil => exact around.nested.elim
  | cons entry parents =>
    obtain ⟨nonempty, outer, stack, sits, waiting⟩ := below.stack
    apply Ends.bind (Path.nappend_within below.starts sits.length nonempty)
    rintro _ t ⟨rfl, unchanged⟩
    rw [unchanged]
    have room := kid.room
    rw [kid.length, Path.length_join] at room
    have stored : (Path.stem above).length + (slash :: cur.ftsName ++ [0]).length ≤ sp.ftsPath.length := by
      rw [List.length_append, List.length_cons, List.length_singleton]
      omega
    apply Ends.bind (Path.writePath_within stored)
    rintro _ u rfl
    have shown : Path.join above cur.ftsName ++ [0] <+:
        overwrite sp.ftsPath (Path.stem above).length (slash :: cur.ftsName ++ [0]) := by
      rw [Path.join, List.append_assoc]
      exact append_prefix_overwrite (Path.stem_starts.trans below.starts)
    obtain ⟨finds, asked⟩ : Finds w args (d :: ds) cur (checked env.fs d (mark cur)) ∧ _ := waits.finds
    have leads := tree.leads (around.nested.reaches below.stack d rfl)
    have deeper : (cur.ftsLevel == rootLevel) = false := by
      rw [beq_eq_false_iff_ne, finds.level, rootLevel, List.length_cons]
      omega
    have sees : (if cur.ftsInfo = .nsok ∧ cur.ftsStatp.stSize = statRequired then
        seen env.fs d cur.ftsName (w.o.comfollow && cur.ftsLevel == rootLevel) (mark cur) else mark cur) =
          checked env.fs d (mark cur) := by
      rw [deeper, Bool.and_false]
      exact checked_mark.symm
    have visits : Ends fails (fun r sp' => Returns w args (k + 1)
        (Ahead w args sp.ftsDev (entry :: parents) link (d :: ds) cur (checked env.fs d (mark cur))) sp' r)
        (checkForDir ⟨cur, link, entry :: parents⟩)
        { sp with ftsPath := overwrite sp.ftsPath (Path.stem above).length (slash :: cur.ftsName ++ [0]) } :=
      checkForDir_visits tree (around.beside ⟨⟨rfl, rfl⟩, rfl, rfl, rfl, rfl⟩ rfl) finds (tracks.same rfl) few
        (leads.accpath kid.proper waits.2.1 fun _ => shown) asked sees
    exact visits.mono fun r v returns => returns.mono fun vs ahead => ahead.rest waits around.nested

/-! ## The way back -/

omit tree in
theorem Pending.rest {dev : ℕ} (pending : Pending w args dev pos ds vs) (info : pos.cur.ftsInfo ≠ .d) :
    Rest w dev pos.parents ds pos.link vs := by
  cases pending with
  | entered dir => exact absurd dir.info info
  | other _ later => exact later

/-- A directory that is left, after its entries. -/
def postorder (p : Ftsent) : Ftsent := { p with ftsDirp := none, ftsInfo := .dp }

omit tree in
theorem mark_postorder (info : p.ftsInfo = .d) : mark (postorder p) = (mark p).left := by
  rw [mark, mark, Mark.left, known, known, info]
  rfl

/-- A directory is returned in post-order. -/
theorem leaveDirChecked_visits (around : Around w args sp parents link ds) (dir : Dir w args ds p d)
    (tracks : Tracks k sp (d :: ds)) (current : sp.ftsCur = some ⟨postorder p, link, parents⟩) :
    Ends fails (fun _ sp' => Core w args k sp' ⟨postorder p, link, parents⟩ ds ∧ sp'.ftsDev = sp.ftsDev)
      (leaveDirChecked (postorder p) (parent parents)) sp := by
  have plain : Plain sp.ftsOptions := around.options ▸ tree.plain
  have outermost : ds = [] → parent parents = none := by
    intro first
    rw [around.nested.outermost.mp first]
    rfl
  have leaves : Ends fails _ (leaveDir (postorder p) (parent parents)) sp :=
    leaveDir_leaves plain tracks dir.statp around.nested.recorded outermost
  apply Ends.bind leaves
  rintro _ t ⟨⟨cycle, rfl⟩, tracks⟩
  have around : Around w args { sp with ftsCycle := cycle } parents link ds :=
    around.beside ⟨⟨rfl, rfl⟩, rfl, rfl, rfl, rfl⟩ rfl
  refine (fdRingCheck_here tree.reliable around.here).mono fun _ u ⟨here, still⟩ => ⟨⟨?_, ?_, rfl, dir.instr, ?_⟩, ?_⟩
  · exact (Prod.mk.inj still.view).1.trans current
  · exact ⟨still.options.trans around.options, here, around.nested, around.waits⟩
  · exact .other ⟨Info.noConfusion, Info.noConfusion⟩ fun inner => (tracks inner).same still.untouched.1
  · exact still.untouched.2.1

private theorem leaveEntries_here {dirs : List ℕ} (options : sp.ftsOptions = w.o)
    (here : Here sp w.start (d :: ds) dirs)
    (nested : Nested w args parents ds) (dir : Dir w args ds p d) :
    Ends fails (fun r sp' => r.1 = false ∧ Here sp' w.start ds dirs ∧ Still sp sp') (leaveEntries p parents) sp := by
  have plain : Plain sp.ftsOptions := options ▸ tree.plain
  have same : leaveEntries p parents = (reportErrno (buildReturn p parents) : Action env (Bool × Errno)) := by
    unfold leaveEntries buildReturn
    split_ifs with root straight chdir
    · rfl
    · exact absurd dir.straight (by rw [straight]; decide)
    · rfl
    · exact absurd dir.chdir (by simpa using chdir)
  rw [same]
  apply Ends.bind (buildReturn_here tree.reliable plain here dir.level nested.known)
  rintro lost t ⟨⟨rfl, here⟩, still⟩
  exact ⟨rfl, here, still⟩

/-- The end of `cd_dot_dot:`, if the way back was found. -/
theorem arrive_visits {errno : Errno} (around : Around w args sp parents link ds) (dir : Dir w args ds p d)
    (tracks : Tracks k sp (d :: ds)) (same : postorder q = postorder p) (closed : q.ftsDirp = none)
    (info : q.ftsInfo = .d ∨ q.ftsInfo = .dp) :
    Ends fails (fun r sp' => r = some (postorder p) ∧ Core w args k sp' ⟨postorder p, link, parents⟩ ds ∧
      sp'.ftsDev = sp.ftsDev) (arrive q link parents false errno) sp := by
  have errnos : (postorder q).ftsErrno = (postorder p).ftsErrno := congrArg Ftsent.ftsErrno same
  have clean : q.ftsErrno = 0 := errnos.trans dir.errno
  have left : (if q.ftsInfo ≠ .dc then { q with ftsInfo := if q.ftsErrno ≠ 0 then .err else .dp } else q) = postorder p := by
    rw [if_pos (by rcases info with info | info <;> rw [info] <;> decide), if_neg (not_not_intro clean),
      ← same, postorder, ← closed]
  unfold arrive
  simp only [Bool.false_eq_true, ↓reduceIte]
  rw [left]
  apply Ends.modify_bind
  rw [if_pos (show (postorder p).ftsInfo = .dp from rfl)]
  have leaves : Ends fails _ (leaveDirChecked (postorder p) (parent parents))
      { sp with ftsCur := some ⟨postorder p, link, parents⟩ } :=
    leaveDirChecked_visits tree (around.beside ⟨⟨rfl, rfl⟩, rfl, rfl, rfl, rfl⟩ rfl) dir (tracks.same rfl) rfl
  apply Ends.bind leaves
  rintro _ t ⟨core, device⟩
  apply Ends.get_bind
  have going : t.ftsOptions.stop = false := by
    rw [core.around.options]
    exact tree.plain.going
  rw [going, if_neg Bool.false_ne_true]
  exact ⟨rfl, core, device⟩

/-- Whether a directory was found to be at its end before or not, it is returned in post-order. -/
theorem cdDotDot_leaves (below : Path.Below True args sp.ftsPath ((q, link) :: parents) [] above)
    (options : sp.ftsOptions = w.o) (here : Here sp w.start (d :: ds) (dirFds parents)) (nested : Nested w args parents ds)
    (waits : ∀ q ∈ link, Waits w ds q) (dir : Dir w args ds p d) (tracks : Tracks k sp (d :: ds))
    (same : postorder q = postorder p) (closed : q.ftsDirp = none) (info : q.ftsInfo = .d ∨ q.ftsInfo = .dp) :
    Ends fails (fun r sp' => Returns w args k (fun vs => ∃ us, Rest w sp.ftsDev parents ds link us ∧
      vs = (mark p).left :: us) sp' r) (cdDotDot ((q, link) :: parents)) sp := by
  obtain ⟨nonempty, outer, stack, sits, waiting⟩ := below.stack
  have stored : q.ftsPathlen + [(0 : UInt8)].length ≤ sp.ftsPath.length := by
    have room := sits.room
    rw [sits.length, List.length_singleton]
    omega
  have alike : leaveEntries q parents = (leaveEntries p parents : Action env (Bool × Errno)) := by
    change leaveEntries (postorder q) parents = leaveEntries (postorder p) parents
    rw [same]
  apply Ends.modify_bind
  rw [if_neg (by rcases info with info | info <;> rw [info] <;> decide)]
  refine Ends.bind (Path.writePath_within stored) ?_
  rintro _ t rfl
  rw [alike]
  have back : Ends fails _ (leaveEntries p parents) { sp with
      ftsCur := some ⟨q, link, parents⟩, ftsPath := overwrite sp.ftsPath q.ftsPathlen [0] } :=
    leaveEntries_here tree options (here.beside ⟨⟨rfl, rfl⟩, rfl, rfl, rfl, rfl⟩ rfl) nested dir
  apply Ends.bind back
  rintro ⟨lost, errno⟩ u ⟨rfl, here, still⟩
  have around : Around w args u parents link ds := ⟨still.options.trans options, here, nested, waits⟩
  refine (arrive_visits tree around dir (tracks.same still.untouched.1) same closed info).mono ?_
  rintro _ v ⟨rfl, core, device⟩
  have device : v.ftsDev = sp.ftsDev := device.trans still.untouched.2.1
  refine Returns.entry core fun vs pending => ⟨vs, device ▸ pending.rest Info.noConfusion, ?_⟩
  rw [mark_postorder dir.info]

theorem cdDotDot_visits (below : Path.Below True args sp.ftsPath parents [] above) (around : Around w args sp parents [] ds)
    (tracks : ds ≠ [] → Tracks k sp ds) (closed : ∀ entry ∈ parents.head?, entry.1.ftsDirp = none) :
    Ends fails (fun r sp' => Returns w args k (Rest w sp.ftsDev parents ds []) sp' r) (cdDotDot parents) sp := by
  obtain ⟨options, here, nested, -⟩ := around
  cases parents with
  | nil =>
    rw [nested.outermost.mpr rfl]
    apply Ends.modify_bind
    apply Ends.bind setErrno_spec
    rintro _ t same
    exact .ended same.kept.cur .done
  | cons entry parents =>
    obtain ⟨p, link⟩ := entry
    cases ds with
    | nil => exact nested.elim
    | cons d ds =>
      obtain ⟨dir, -, waits, nested⟩ := nested
      have shut : p.ftsDirp = none := closed _ rfl
      have fds : dirFds ((p, link) :: parents) = dirFds parents := by
        rw [dirFds, List.flatMap_cons, held, shut]
        rfl
      rw [fds] at here
      apply (cdDotDot_leaves tree below options here nested waits dir (tracks (List.cons_ne_nil d ds)) rfl shut
        (.inl dir.info)).mono
      rintro r t returns
      refine returns.mono ?_
      rintro _ ⟨us, later, rfl⟩
      refine ⟨[], us, .done ?_, later, rfl⟩
      rw [unread, shut]
      rfl

end

end Yalibct.Fts.Visit
