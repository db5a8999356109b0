import Yalibct.Soundness.FtsPathLaw
import Yalibct.Soundness.FtsReads

/-! # Whole traversals

A stream that `fts_open` returns is before its roots. What is pending is bounded, and each call of `fts_read`
takes the first of it; so a program that calls it until it returns `NULL` sees a tour, and comes to its end.
-/

namespace Yalibct.Fts.Visit

open Machine Place CycleCheck
open Yalibct.Fts.Path (unread)

variable {env : Env} {w : Site env} {args : ℕ → Option (List UInt8)} {fails : Fault → FTS env → Prop}
variable {sp sp' : FTS env} {p q first : Ftsent} {pos : Position} {roots : List Ftsent}
variable {c d : env.fs.Node} {ds : List env.fs.Node} {k n : ℕ} {vs : List Mark}

/-! ## Something is pending -/

section

variable {height : env.fs.Node → ℕ} (tree : Tree w height)
include tree

/-- The entries that wait in a directory are followed by visits. -/
theorem Nested.exists {dev : ℕ} {link : List Ftsent} {parents : List (Ftsent × List Ftsent)}
    (nested : Nested w args parents ds) (waits : ∀ q ∈ link, Waits w ds q) (sp : FTS env) :
    ∃ vs, Rest w dev parents ds link vs := by
  induction parents generalizing ds link with
  | nil =>
    rw [nested.outermost.mpr rfl]
    exact Roots.exists tree.reliable sp tree.finite w.start _
  | cons entry parents ih =>
    cases ds with
    | nil => exact nested.elim
    | cons d ds =>
      obtain ⟨dir, inside, above, nested⟩ := nested
      obtain ⟨us, later⟩ := ih nested above
      have among : Among env w.o d entry.1.ftsLevel (link.map mark) (unread entry.1) := by
        refine ⟨fun m member => ?_, inside, ?_⟩
        · obtain ⟨q, listed, rfl⟩ := List.mem_map.mp member
          obtain ⟨-, -, e, read, shows⟩ := waits q listed
          refine ⟨e, read, ?_⟩
          rw [shows, dir.level, List.length_cons]
          rfl
        · rw [dir.level]
          exact Int.natCast_nonneg _
      obtain ⟨ws, tour⟩ : ∃ ws, Tour env w.o dev d entry.1.ftsLevel (link.map mark) (unread entry.1) ws :=
        Tour.exists tree.reliable sp tree.finite among (Nat.lt_succ_self (height d))
      exact ⟨_, ws, us, tour, later, rfl⟩

theorem Core.exists {dev : ℕ} (core : Core w args k sp pos ds) : ∃ vs, Pending w args dev pos ds vs := by
  obtain ⟨us, later⟩ := core.around.nested.exists tree core.around.waits sp
  cases core.entry with
  | other info => exact ⟨us, .other info.1 later⟩
  | entered c dir tracks =>
    by_cases far : w.o.xdev ∧ (env.fs.stat c).stDev ≠ dev
    · exact ⟨_, .entered dir (by rw [Within, if_pos far]) later⟩
    · have among : Among env w.o c pos.cur.ftsLevel [] (env.fs.entries c) := by
        refine ⟨List.forall_mem_nil _, fun _ => id, ?_⟩
        rw [dir.level]
        exact Int.natCast_nonneg _
      obtain ⟨inner, tour⟩ : ∃ inner, Tour env w.o dev c pos.cur.ftsLevel [] (env.fs.entries c) inner :=
        Tour.exists tree.reliable sp tree.finite among (Nat.lt_succ_self (height c))
      exact ⟨_, .entered dir (by rw [Within, if_neg far]; exact tour) later⟩

/-! ## Reading to the end -/

/-- The entry that is returned is at its path, too. -/
theorem ftsRead_goes (core : Core w args k sp pos ds) (shows : Path.Shows True args sp.ftsPath pos) (few : k + 1 < 2 ^ 64) :
    Ends fails (fun r sp' => Returns w args (k + 1) (Pending w args sp.ftsDev pos ds) sp' r ∧ Path.Arrives True args sp r sp')
      ftsRead sp := by
  have fits : Path.Fits True args sp := by
    intro _ pos' member
    rw [← Option.some.inj (core.current.symm.trans member)]
    exact .inr shows
  exact (ftsRead_visits tree core shows few).and
    (Path.ftsRead_within tree.unresolved tree.names fits (core.careful tree shows))

omit tree in
private theorem traverse_enough {m : ℕ} (traversed : traverse m sp = some vs) (enough : vs.length < n) :
    traverse n sp = some vs := by
  induction m generalizing n sp vs with
  | zero => cases traversed
  | succ m ih =>
    cases n with
    | zero => exact absurd enough (Nat.not_lt_zero _)
    | succ n =>
      unfold traverse at traversed ⊢
      split at traversed
      · obtain ⟨vs, later, rfl⟩ := Option.map_eq_some_iff.mp traversed
        rw [ih later (Nat.lt_of_succ_lt_succ enough)]
        rfl
      · exact traversed
      · cases traversed

private theorem traverse_pending (core : Core w args k sp pos ds) (shows : Path.Shows True args sp.ftsPath pos)
    (few : k + n < 2 ^ 64) (bounded : ∀ vs, Pending w args sp.ftsDev pos ds vs → vs.length < n) :
    ∃ vs, traverse n sp = some vs ∧ Pending w args sp.ftsDev pos ds vs := by
  induction n generalizing k sp pos ds with
  | zero =>
    obtain ⟨vs, pending⟩ : ∃ vs, Pending w args sp.ftsDev pos ds vs := core.exists tree
    exact absurd (bounded vs pending) (Nat.not_lt_zero _)
  | succ n ih =>
    have goes : Ends (fun _ _ => False) _ ftsRead sp := ftsRead_goes tree core shows (by omega)
    unfold Ends at goes
    unfold traverse
    cases ran : ftsRead.run sp with
    | error e t =>
      rw [ran] at goes
      exact goes.elim
    | ok r t =>
      rw [ran] at goes
      obtain ⟨returns, arrives⟩ := goes
      cases returns with
      | ended current nothing => exact ⟨[], rfl, nothing⟩
      | @entry pos' ds' core' first =>
        obtain ⟨pos'', current, -, shows'⟩ := arrives.shows _ rfl
        cases core'.current.symm.trans current
        obtain ⟨vs, later, pending⟩ := ih core' shows' (by omega) fun vs pending =>
          Nat.lt_of_succ_lt_succ (bounded _ (first vs pending))
        refine ⟨mark pos'.cur :: vs, ?_, first vs pending⟩
        dsimp only
        rw [later]
        rfl

end

/-! ## `fts_open` -/

private theorem ftsAlloc_clean (name : List UInt8) :
    Ends (fun _ _ => True) (fun r _ => ∀ p, r = some p → p.ftsErrno = 0) (ftsAlloc name) sp := by
  have granted : Ends (fun _ _ => True) (fun _ _ => True) (granted (ftsentSize name.length)) sp := by
    unfold Ends
    split
    · trivial
    · trivial
  apply Ends.get_bind
  apply granted.bind
  intro got t _
  split_ifs
  · rintro p ⟨⟩
    rfl
  · rintro p ⟨⟩

section Opening

variable (reliable : env.Reliable)

include reliable in
/-- The roots wait to be loaded, in their order if there is no function to sort them by. -/
theorem openRoots_waits {argv : List (List UInt8)} {root : List Ftsent} (options : sp.ftsOptions = w.o) (plain : Plain w.o)
    (fd : sp.ftsCwdFd = atFdcwd) (cwd : sp.kernel.cwd = w.start) (named : ∀ v ∈ argv, Path.argument w.o v ∈ w.roots)
    (waits : ∀ p ∈ root, Waits w [] p) :
    Ends fails (fun r sp' => Beside sp sp' ∧ ∀ listed ∈ r, (∀ p ∈ listed, Waits w [] p) ∧
      (env.compar = none → listed.map Ftsent.ftsName = root.map Ftsent.ftsName ++ argv.map (Path.argument w.o)))
      (openRoots argv root) sp := by
  induction argv generalizing sp root with
  | nil =>
    refine ⟨.refl sp, ?_⟩
    rintro _ ⟨⟩
    refine ⟨waits, fun _ => ?_⟩
    rw [List.map_nil, List.append_nil]
  | cons v argv ih =>
    obtain ⟨member, named⟩ := List.forall_mem_cons.mp named
    apply Ends.get_bind
    have spelled : (if sp.ftsOptions.verbatim then v else trimSlashes v) = Path.argument w.o v := by
      rw [options, Path.argument]
    dsimp only
    rw [spelled]
    have allocates : Ends fails _ (ftsAlloc (Path.argument w.o v)) sp := (ftsAlloc_spec reliable).and (ftsAlloc_clean _)
    apply Ends.bind allocates
    rintro new t ⟨⟨fresh, same⟩, clean⟩
    cases new with
    | none =>
      refine ⟨same.beside, ?_⟩
      rintro _ ⟨⟩
    | some p =>
      obtain ⟨name, closed, chdir, straight, instr⟩ := fresh p rfl
      have errno := clean p rfl
      have others : ∀ {u : FTS env} {q : Ftsent}, Beside sp u → Waits w [] q → q.ftsName = Path.argument w.o v →
          Ends fails (fun r sp' => Beside sp sp' ∧ ∀ listed ∈ r, (∀ p ∈ listed, Waits w [] p) ∧ (env.compar = none →
            listed.map Ftsent.ftsName = root.map Ftsent.ftsName ++ (v :: argv).map (Path.argument w.o)))
            (openRoots argv (if env.compar.isSome then q :: root else root ++ [q])) u := by
        intro u q beside first called
        apply (ih (beside.options.trans options) (beside.cwdFd.trans fd) (beside.cwd.trans cwd) named ?_).mono
        · rintro r x ⟨beside', listed⟩
          refine ⟨beside.trans beside', fun l result => ?_⟩
          obtain ⟨wait, ordered⟩ := listed l result
          refine ⟨wait, fun unsorted => ?_⟩
          have later := ordered unsorted
          rw [unsorted, Option.isSome_none, if_neg Bool.false_ne_true, List.map_append, List.map_singleton, called] at later
          rw [later, List.append_assoc, List.map_cons, List.singleton_append]
        · split_ifs
          · exact List.forall_mem_cons.mpr ⟨first, waits⟩
          · exact List.forall_mem_append.mpr ⟨waits, List.forall_mem_singleton.mpr first⟩
      dsimp only
      split
      · refine others same.beside ⟨⟨closed, chdir, straight, instr⟩, rfl, ?_, .inl ⟨rfl, rfl, errno⟩⟩ name
        exact name ▸ member
      · have options' : t.ftsOptions = w.o := same.kept.options.trans options
        have base : t.kernel.base t.ftsCwdFd = some w.start := by
          rw [same.cwdFd, fd, ← cwd, ← same.cwd]
          exact if_pos rfl
        have looks : Ends fails _ (ftsStat { p with ftsLevel := rootLevel, ftsAccpath := .ftsName } false) t :=
          ftsStat_seen reliable (options' ▸ plain.logical) base fun _ => rfl
        apply Ends.bind looks
        rintro q u ⟨alike, shows, same'⟩
        have called : q.ftsName = p.ftsName := by rw [alike]
        refine others (same.beside.trans same'.beside) ⟨?_, ?_, ?_, .inr ?_⟩ (called.trans name)
        · rw [alike]
          exact ⟨closed, chdir, straight, instr⟩
        · rw [alike]
        · rw [called, name]
          exact member
        · rw [shows, called, options']
          change seen env.fs w.start p.ftsName (false || w.o.comfollow && (rootLevel == rootLevel)) _ = _
          rw [beq_self_eq_true, Bool.and_true, Bool.false_or]
          exact seen_congr rfl rfl errno

end Opening

theorem ftsSortGiven_keeps {link : List Ftsent} (sp : FTS env) :
    Ends (fun _ _ => True) (fun r _ => env.compar = none → r = link) (ftsSortGiven link) sp := by
  unfold Ends
  split
  · rename_i ran
    intro unsorted
    unfold ftsSortGiven at ran
    rw [unsorted] at ran
    cases ran
    rfl
  · trivial

/-- A stream before its first root. -/
structure Ready (w : Site env) (sp : FTS env) (roots : List Ftsent) : Prop where
  current : ∃ first, sp.ftsCur = some ⟨first, roots, []⟩
  options : sp.ftsOptions = w.o
  here : Here sp w.start [] []
  waits : ∀ q ∈ roots, Waits w [] q
  ordered : env.compar = none → roots.map Ftsent.ftsName = w.roots

section

variable {height : env.fs.Node → ℕ} (tree : Tree w height)
include tree

/-- Without `FTS_CWDFD`, the descriptor to come back by is that of the directory of the process. -/
theorem openRfd_here (options : sp.ftsOptions = w.o) (fd : sp.ftsCwdFd = atFdcwd) (cwd : sp.kernel.cwd = w.start)
    (checks : sp.checks = []) :
    Ends fails (fun _ sp' => sp'.ftsCur = sp.ftsCur ∧ sp'.ftsOptions = w.o ∧
      Here { sp' with ftsFdRing := .init (-1) } w.start [] []) openRfd sp := by
  have stands : ∀ {t : FTS env} {dirs : List ℕ}, t.ftsCwdFd = atFdcwd → t.checks = [] → dirs.Nodup →
      (∀ n ∈ dirs, (t.kernel.fds.find n).isSome) → Stands { t with ftsFdRing := .init (-1) } [] [] dirs := by
    intro t dirs fd checks distinct isOpen
    refine ⟨IRing.holds_init (-1), rfl, ⟨fd, rfl⟩, isOpen, ?_, .nil, checks ▸ List.forall_mem_nil _⟩
    change (opened [t.ftsCwdFd] ++ dirs).Nodup
    rw [fd]
    exact distinct
  apply Ends.get_bind
  rw [options]
  dsimp only
  cases mode : w.o.nochdir with
  | true => exact ⟨rfl, options, .nochdir (options ▸ mode) (stands fd checks .nil (List.forall_mem_nil _)) cwd⟩
  | false =>
    cases cwdfd : w.o.cwdfd with
    | true =>
      exact ⟨rfl, options, .cwdfd (options ▸ mode) (options ▸ cwdfd) [] (stands fd checks .nil (List.forall_mem_nil _)) cwd⟩
    | false =>
      obtain ⟨found, directory⟩ := tree.dot mode cwdfd
      have opens : Ends fails (Opens w.start sp) (diropen [46]) sp := by
        apply Ends.get_bind
        rw [options, cwdfd, if_neg Bool.false_ne_true, tree.plain.physical]
        apply openat_spec tree.reliable (if_pos rfl) ?_ directory
        rw [cwd]
        exact found
      rw [if_pos (by rfl)]
      apply Ends.bind opens
      rintro _ t ⟨n, rfl, unused, leaves⟩
      have there : t.kernel.fds.find n = some w.start := by rw [leaves.fds, Descriptors.find_insert_self]
      have same : t.ftsOptions = w.o := leaves.kept.options.trans options
      have kept : { t.ftsOptions with nochdir := t.ftsOptions.nochdir || decide ((n : ℤ) < 0) } = w.o := by
        rw [same, decide_eq_false (Int.not_lt.mpr (Int.natCast_nonneg n)), Bool.or_false]
      refine ⟨leaves.kept.cur, kept, .chdir ?_ ?_ n rfl there ?_ .nil (leaves.cwd.trans cwd)⟩
      · exact (congrArg Options.nochdir kept).trans mode
      · exact (congrArg Options.cwdfd kept).trans cwdfd
      · have standing := @stands t [n] (leaves.cwdFd.trans fd) (leaves.checks.trans checks) (List.nodup_singleton n)
          (List.forall_mem_singleton.mpr (there ▸ rfl))
        exact ⟨standing.ring, standing.default, standing.trail, standing.others, standing.distinct, .nil, standing.checks⟩

private theorem openFirst_ready (options : sp.ftsOptions = w.o) (fd : sp.ftsCwdFd = atFdcwd)
    (cwd : sp.kernel.cwd = w.start)
    (checks : sp.checks = []) (waits : ∀ q ∈ roots, Waits w [] q)
    (ordered : env.compar = none → roots.map Ftsent.ftsName = w.roots) :
    Ends fails (fun r sp' => r = true → Ready w sp' roots) (openFirst roots) sp := by
  apply Ends.bind (ftsAlloc_spec tree.reliable)
  rintro new t ⟨-, same⟩
  cases new with
  | none => exact Bool.noConfusion
  | some first =>
    apply Ends.modify_bind
    have plain : Plain t.ftsOptions := same.kept.options.trans options ▸ tree.plain
    have starts : Ends fails _ setupDir { t with ftsCur := some ⟨{ first with ftsInfo := .init, ftsLevel := 1 }, roots, []⟩ } :=
      setupDir_tracks plain tree.reliable
    apply Ends.bind starts
    rintro _ u ⟨rfl, beside, -, -, -, current, -⟩
    have beside : Beside t u := ⟨⟨beside.options, beside.cwd⟩, beside.ring, beside.cwdFd, beside.fds, beside.checks⟩
    have beside := same.beside.trans beside
    rw [if_pos rfl]
    have returns : Ends fails _ openRfd u := openRfd_here tree (beside.options.trans options) (beside.cwdFd.trans fd)
      (beside.cwd.trans cwd) (beside.checks.trans checks)
    apply Ends.bind returns
    rintro _ v ⟨current', options, here⟩
    exact fun _ => ⟨⟨_, current'.trans current⟩, options, here, waits, ordered⟩

/-- A stream that is opened for these arguments waits for its first root. -/
theorem ftsOpen_ready {argv : List (List UInt8)} {kernel : Kernel env.fs.Node} (start : kernel.cwd = w.start)
    (arguments : w.roots = argv.map (Path.argument w.o)) :
    Ends fails (fun r sp' => r = true → ∃ roots, Ready w sp' roots) (ftsOpen argv) (blank w.o kernel) := by
  have opened : w.o.opened = w.o := by
    unfold Options.opened
    rw [tree.plain.logical]
    rfl
  apply Ends.get_bind
  change Ends fails _ (if w.o.nochdir ∧ w.o.cwdfd ∨ ¬ (w.o.logical ∨ w.o.physical) then _ else _) _
  split_ifs with refused
  · apply Ends.bind setErrno_spec
    exact fun _ t _ => Bool.noConfusion
  · apply Ends.bind (allocated_spec tree.reliable)
    rintro _ t ⟨rfl, same⟩
    rw [if_pos rfl]
    have made : Beside { blank w.o kernel with ftsCwdFd := atFdcwd }
        { t with ftsOptions := t.ftsOptions.opened, ftsCwdFd := atFdcwd } := by
      refine ⟨⟨?_, same.cwd⟩, same.ring, rfl, same.fds, same.checks⟩
      change t.ftsOptions.opened = w.o
      rw [show t.ftsOptions = w.o from same.kept.options, opened]
    apply Ends.modify_bind
    apply Ends.bind (ftsPalloc_spec tree.reliable)
    rintro room u ⟨beside, -⟩
    have made := made.trans beside
    cases room with
    | false => exact Bool.noConfusion
    | true =>
      rw [if_pos rfl]
      apply Ends.bind (openParent_spec tree.reliable)
      intro parent v beside
      have made := made.trans beside
      cases parent with
      | false => exact Bool.noConfusion
      | true =>
        rw [if_pos rfl]
        have lists : Ends fails _ (openRoots argv []) v :=
          openRoots_waits tree.reliable made.options tree.plain made.cwdFd (made.cwd.trans start)
            (fun v member => arguments ▸ List.mem_map_of_mem member) (List.forall_mem_nil _)
        apply Ends.bind lists
        rintro listed x ⟨beside, waits⟩
        have made := made.trans beside
        cases listed with
        | none => exact Bool.noConfusion
        | some listed =>
          obtain ⟨waits, ordered⟩ := waits listed rfl
          apply Ends.bind ((ftsSortGiven_spec tree.reliable).and (ftsSortGiven_keeps x))
          rintro sorted y ⟨⟨perm, beside, -⟩, kept⟩
          have made := made.trans beside
          have first : Ends fails _ (openFirst sorted) y := openFirst_ready tree made.options made.cwdFd
            (made.cwd.trans start) made.checks (fun q member => waits q (perm.mem_iff.mp member)) ?_
          · exact first.mono fun r z ready opens => ⟨sorted, ready opens⟩
          · intro unsorted
            rw [kept unsorted, ordered unsorted, arguments]
            rfl

/-! ## From the first call to the last -/

/-- The first call loads the first root. -/
theorem ftsRead_begins (ready : Ready w sp roots) (current : sp.ftsCur = some ⟨first, roots, []⟩) (nonempty : roots ≠ [])
    (starts : Path.Starts True args sp.ftsPath ⟨first, roots, []⟩) :
    Ends fails (fun r sp' => Returns w args 1 (Roots env w.o w.start (roots.map Ftsent.ftsName)) sp' r ∧
      Path.Arrives True args sp r sp') ftsRead sp := by
  obtain ⟨small, info, instr, -, unread⟩ := starts
  have fits : Path.Fits True args sp := by
    intro _ pos member
    rw [← Option.some.inj (current.symm.trans member)]
    exact .inl ⟨small, info, instr, rfl, unread⟩
  have going : sp.ftsOptions.stop = false := by
    rw [ready.options]
    exact tree.plain.going
  have none : Path.built sp = none := by
    unfold Path.built
    rw [current]
    dsimp only at info instr ⊢
    rw [going, instr, info, if_neg (by decide), if_neg (by decide)]
    cases roots with
    | nil => exact absurd rfl nonempty
    | cons p roots => exact if_neg fun inner => inner.1 (unread p (List.mem_cons_self ..)).level
  have careful : Path.Careful True sp (Path.built sp) := by
    intro _
    refine ⟨tree.reliable, fun mode => ?_, fun p built => ?_⟩
    · rw [ready.options] at mode ⊢
      exact tree.plain.apart mode
    · rw [none] at built
      cases built
  have reads : Ends fails (fun r sp' => Returns w args 1 (Roots env w.o w.start (roots.map Ftsent.ftsName)) sp' r) ftsRead sp := by
    apply Ends.get_bind
    rw [current]
    dsimp only at info instr ⊢
    rw [if_neg (by rw [going]; decide), instr]
    apply Ends.modify_bind
    rw [if_neg (by decide), if_neg (by rintro ⟨⟨⟩, -⟩), if_neg (by rw [info]; decide)]
    have around : Around w args { sp with ftsCur := some ⟨{ first with ftsInstr := .noInstr }, roots, []⟩ } [] roots [] :=
      ⟨ready.options, ready.here.beside ⟨⟨rfl, rfl⟩, rfl, rfl, rfl, rfl⟩ rfl, trivial, ready.waits⟩
    have below : Path.Below True args sp.ftsPath [] roots [] := ⟨small, rfl, unread, List.nil_prefix⟩
    have visits : Ends fails (fun r sp' => Returns w args (0 + 1) _ sp' r) (next { first with ftsInstr := .noInstr } [] roots)
        { sp with ftsCur := some ⟨{ first with ftsInstr := .noInstr }, roots, []⟩ } :=
      next_visits tree below around (fun inner => absurd rfl inner) (by decide) (.inr nonempty)
    exact visits
  exact reads.and (Path.ftsRead_within tree.unresolved tree.names fits careful)

end

/-- In a chain of directories, from its first one. -/
def chainSite (depth : ℕ) : Site (chainEnv depth) := ⟨(0 : ℕ), { cwdfd := true, physical := true }, [[97]]⟩

/-- How deep a directory is in a chain. -/
def depthOf {depth : ℕ} (d : (chainEnv depth).fs.Node) : ℕ := d

section Chains

variable {depth : ℕ} {c d : (chainEnv depth).fs.Node} {follow : Bool} {path : List UInt8} {e : Dirent}

private theorem chain_found (found : (chainEnv depth).fs.resolve d [97] follow = .ok c) :
    depthOf d < depth ∧ depthOf c = depthOf d + 1 := by
  have other : ([97] : List UInt8) ≠ dotdot := by decide
  dsimp only [chainEnv, chain] at found
  rw [if_neg other] at found
  split_ifs at found with below
  · cases found
    exact ⟨below.2, rfl⟩

private theorem chain_entry (listed : e ∈ (chainEnv depth).fs.entries d) : e.dName = [97] := by
  dsimp only [chainEnv, chain] at listed
  split_ifs at listed
  · rw [List.mem_singleton.mp listed]
  · cases listed

/-- The paths in a chain are short and hold no NUL. -/
theorem chain_reaches (reaches : Reaches (chainSite depth) path d) :
    path.length ≤ 2 * depthOf d ∧ depthOf d ≤ depth ∧ 0 ∉ path := by
  induction reaches with
  | root argument found =>
    cases List.mem_singleton.mp argument
    obtain ⟨below, next⟩ := chain_found found
    rw [next]
    exact ⟨by rw [List.length_singleton]; omega, below, by decide⟩
  | @entry path d c e above member plain found directory ih =>
    rw [chain_entry member] at found ⊢
    obtain ⟨below, next⟩ := chain_found found
    obtain ⟨short, -, string⟩ := ih
    have stem := @Path.length_stem_le path
    rw [next]
    refine ⟨?_, below, ?_⟩
    · rw [Path.length_join, List.length_singleton]
      omega
    · rw [Path.join, List.mem_append, not_or]
      exact ⟨fun nul => string (Path.stem_starts.subset nul), by decide⟩

/-- A chain that is not too long is such a tree. -/
theorem chain_tree (short : 4 * depth + 265 ≤ ptrdiffMax) : Tree (chainSite depth) fun d => depth - depthOf d where
  reliable _ := rfl
  unresolved d follow := ⟨.enoent, by simp [chainEnv, chain, dotdot]⟩
  names d e member := by
    rw [chain_entry member]
    exact ⟨by decide, by decide, by decide⟩
  finite member plain found directory := by
    rw [chain_entry member] at found
    obtain ⟨below, next⟩ := chain_found found
    dsimp only
    omega
  distinct _ _ same := congrArg CycleCheck.DevIno.ino same
  climbs member plain found directory := ⟨chain_up member found, rfl⟩
  plain := ⟨rfl, rfl, rfl, rfl, Bool.noConfusion⟩
  strings arg member := by
    cases List.mem_singleton.mp member
    decide
  leads reaches := ⟨(chain_reaches reaches).2.2, Bool.noConfusion⟩
  roomy := by
    intro path d reaches e member
    obtain ⟨length, inside, -⟩ := chain_reaches reaches
    have stem := @Path.length_stem_le path
    rw [chain_entry member, List.length_singleton]
    exact ⟨⟨by decide, by decide, by decide⟩, by omega⟩
  unslashed := Bool.noConfusion
  dot _ := Bool.noConfusion

end Chains

end Yalibct.Fts.Visit
