import Yalibct.Soundness.FtsVisit

/-! # Reading the entries of a stream one by one

A call of `fts_read` goes on from the entry that was returned last: it reads the directory, or what is left
of the one above, or it leaves that one, or loads the next root. Each way, what it returns begins what was
pending.
-/

namespace Yalibct.Fts.Visit

open Machine Place CycleCheck
open Yalibct.Fts.Path (unread)

variable {env : Env} {w : Site env} {args : ℕ → Option (List UInt8)} {fails : Fault → FTS env → Prop}
variable {sp sp' : FTS env} {p q : Ftsent} {pos : Position} {link : List Ftsent}
variable {parents : List (Ftsent × List Ftsent)} {c d : env.fs.Node} {ds : List env.fs.Node}
variable {above path : List UInt8} {k : ℕ} {vs : List Mark}

/-! ## Fewer descents -/

theorem Core.later {k' : ℕ} (core : Core w args k sp pos ds) (later : k ≤ k') : Core w args k' sp pos ds := by
  refine { core with entry := ?_ }
  cases core.entry with
  | entered c dir tracks => exact .entered c dir (tracks.later later)
  | other info tracks => exact .other info fun inner => (tracks inner).later later

theorem Returns.later {goal : List Mark → Prop} {k' : ℕ} {r : Option Ftsent} (returns : Returns w args k goal sp r) (later : k ≤ k') :
    Returns w args k' goal sp r := by
  cases returns with
  | ended current nothing => exact .ended current nothing
  | entry core first => exact .entry (core.later later) first

/-! ## Directories that are read -/

/-- Whether it is open or not, a directory is the same. -/
theorem Dir.reopened (dir : Dir w args ds p c) (same : q = { p with ftsDirp := q.ftsDirp }) : Dir w args ds q c := by
  rw [same]
  exact ⟨dir.directory, dir.statp, dir.errno, dir.info, dir.level, dir.chdir, dir.straight, dir.instr, dir.accpath, dir.named⟩

private theorem mark_reopened (same : q = { p with ftsDirp := q.ftsDirp }) : mark q = mark p := by
  rw [same]
  rfl

private theorem postorder_reopened (left : q = { p with ftsDirp := none, ftsInfo := .dp }) :
    postorder q = postorder p := by
  rw [left]
  rfl

section

variable {back : List env.fs.Node} {part : List Dirent × List Dirent} {r : List Ftsent × Ftsent}

/-- The entries that were found are in the directory. -/
theorem Built.waits (built : Built w.start c ds back (dirFds parents) p part r sp) (found : r.1 ≠ [])
    (options : sp.ftsOptions = w.o) (level : p.ftsLevel = ds.length) (inside : ∀ e ∈ part.1, e ∈ env.fs.entries c) :
    ∀ q ∈ r.1, Waits w (c :: ds) q := by
  cases built with
  | nothing empty => exact absurd empty found
  | entries _ _ same left here sorted quiet =>
    intro q member
    obtain ⟨calm, accpath⟩ := quiet q member
    have listing := sorted.perm.mem_iff.mp (List.mem_map_of_mem member)
    obtain ⟨e, read, shows⟩ := List.mem_map.mp listing
    refine ⟨calm, options ▸ accpath, e, inside e read, ?_⟩
    rw [← shows, options, level, List.length_cons]
    rfl

/-- What was found in a directory waits to be returned, with what is still to be read, before the directory is left. -/
theorem Built.around {rest : List Dirent} {dev : ℕ} (built : Built w.start c ds back (dirFds parents) p part r sp) (found : r.1 ≠ [])
    (options : sp.ftsOptions = w.o) (dir : Dir w args ds p c) (nested : Nested w args parents ds)
    (waits : ∀ q ∈ link, Waits w ds q) (read : batch w.o env.maxEntries rest [] = part)
    (inside : ∀ e ∈ rest, e ∈ env.fs.entries c) :
    Around w args sp ((r.2, link) :: parents) r.1 (c :: ds) ∧
      ∀ vs, Rest w dev ((r.2, link) :: parents) (c :: ds) r.1 vs → ∃ ws us, Tour env w.o dev c p.ftsLevel [] rest ws ∧
        Rest w dev parents ds link us ∧ vs = ws ++ (mark p).left :: us := by
  obtain ⟨before, after⟩ := mem_of_batch (show batch w.o env.maxEntries rest [] = (part.1, part.2) from read)
  have listed := built.waits found options dir.level fun e member => inside e (before.subset member)
  cases built with
  | nothing empty => exact absurd empty found
  | entries _ some same left here sorted quiet =>
    have fds : dirFds ((r.2, link) :: parents) = held r.2 ++ dirFds parents := List.flatMap_cons ..
    refine ⟨⟨options, fds ▸ here, ⟨dir.reopened same, fun e member => ?_, waits, nested⟩, listed⟩, ?_⟩
    · rw [left] at member
      exact inside e (after.subset member)
    · rintro vs ⟨ws, us, tour, later, rfl⟩
      have level : r.2.ftsLevel = p.ftsLevel := by rw [same]
      rw [level, left] at tour
      rw [options] at sorted
      exact ⟨ws, us, .read read some sorted tour, later, by rw [mark_reopened same]⟩

end

section

variable {height : env.fs.Node → ℕ} (tree : Tree w height)
include tree

/-- In `FTS_NOCHDIR` mode, no path of a directory ends in a slash. -/
theorem Reaches.unslashed (reaches : Reaches w path c) (mode : w.o.nochdir = true) : path.getLast? ≠ some slash := by
  cases reaches with
  | root argument found => exact tree.unslashed mode _ argument
  | @entry path d c e above member plain found directory =>
    obtain ⟨nonempty, single, string⟩ := tree.names d e member
    intro ends
    rw [Path.join, ← List.singleton_append, ← List.append_assoc, List.getLast?_append, List.getLast?_eq_some_getLast nonempty,
      Option.some_or] at ends
    exact single (Option.some.inj ends ▸ List.getLast_mem nonempty)

theorem Dir.reading {rest : List Dirent} (dir : Dir w args ds p c) (nested : Nested w args parents ds)
    (stack : Path.Stack True args sp.ftsPath.length parents above)
    (sits : Path.Sits True args sp.ftsPath.length parents above path p) (shown : path ++ [0] <+: sp.ftsPath)
    (small : sp.ftsPath.length ≤ ptrdiffMax) (nonempty : path ≠ []) (inside : ∀ e ∈ rest, e ∈ env.fs.entries c) :
    Reading w.o w.start c path rest p sp := by
  have reaches := dir.reaches nested sits (nested.reaches stack)
  refine ⟨tree.plain.logical, tree.leads reaches, fun e member => tree.roomy reaches e (inside e member), sits.length,
    nonempty, shown, small, ?_, dir.info⟩
  rw [dir.level]
  exact Int.natCast_nonneg _

/-- No slash gets lost where the directory is read. -/
theorem Dir.keeps (dir : Dir w args ds p c) (nested : Nested w args parents ds)
    (stack : Path.Stack True args sp.ftsPath.length parents above)
    (sits : Path.Sits True args sp.ftsPath.length parents above path p) (options : sp.ftsOptions = w.o) :
    True → ¬ Path.Loses path sp p := by
  intro _ loses
  exact (dir.reaches nested sits (nested.reaches stack)).unslashed tree (options ▸ loses.nochdir) loses.ends

/-! ## A directory in pre-order -/

/-- A directory is left of which nothing is returned. -/
theorem leave_visits (around : Around w args sp pos.parents pos.link ds) (dir : Dir w args ds pos.cur c)
    (tracks : Tracks k sp (c :: ds)) (left : q = postorder pos.cur) :
    Ends fails (fun r sp' => Returns w args k (fun vs => ∃ us, Rest w sp.ftsDev pos.parents ds pos.link us ∧
      vs = (mark pos.cur).left :: us) sp' r)
      (do
        setCur { pos with cur := q }
        leaveDirChecked q (parent pos.parents)
        return some q) sp := by
  rw [left]
  apply Ends.modify_bind
  have leaves : Ends fails _ (leaveDirChecked (postorder pos.cur) (parent pos.parents))
      { sp with ftsCur := some { pos with cur := postorder pos.cur } } :=
    leaveDirChecked_visits tree (around.beside ⟨⟨rfl, rfl⟩, rfl, rfl, rfl, rfl⟩ rfl) dir (tracks.same rfl) rfl
  apply Ends.bind leaves
  rintro _ t ⟨core, device⟩
  have device : t.ftsDev = sp.ftsDev := device
  refine Returns.entry core fun vs pending => ⟨vs, device ▸ pending.rest Info.noConfusion, ?_⟩
  rw [mark_postorder dir.info]

/-- The entry that is returned in pre-order is followed by what is in it. -/
theorem preorder_visits (shows : Path.Shows True args sp.ftsPath pos) (around : Around w args sp pos.parents pos.link ds)
    (dir : Dir w args ds pos.cur c) (closed : pos.cur.ftsDirp = none) (tracks : Tracks k sp (c :: ds)) (few : k + 1 < 2 ^ 64) :
    Ends fails (fun r sp' => Returns w args (k + 1) (Pending w args sp.ftsDev pos ds) sp' r) (preorder pos .noInstr) sp := by
  have plain : Plain sp.ftsOptions := around.options ▸ tree.plain
  have nothing : ∀ {t : FTS env}, t.ftsDev = sp.ftsDev → Within w sp.ftsDev pos.cur.ftsLevel c [] →
      Around w args t pos.parents pos.link ds → Tracks k t (c :: ds) → ∀ {q}, q = postorder pos.cur →
      Ends fails (fun r sp' => Returns w args (k + 1) (Pending w args sp.ftsDev pos ds) sp' r)
        (do
          setCur { pos with cur := q }
          leaveDirChecked q (parent pos.parents)
          return some q) t := by
    intro t device within around tracks q left
    apply (leave_visits tree around dir tracks left).mono
    intro r u returns
    apply (returns.later (Nat.le_succ k)).mono
    rintro _ ⟨us, later, rfl⟩
    exact .entered dir within (device ▸ later)
  have skipped : (Instr.noInstr = .skip ∨ sp.ftsOptions.xdev ∧ pos.cur.ftsStatp.stDev ≠ sp.ftsDev) ↔
      w.o.xdev ∧ (env.fs.stat c).stDev ≠ sp.ftsDev := by
    rw [around.options, dir.statp]
    exact or_iff_right Instr.noConfusion
  apply Ends.get_bind
  dsimp only
  by_cases far : w.o.xdev ∧ (env.fs.stat c).stDev ≠ sp.ftsDev
  · rw [if_pos (skipped.mpr far), if_neg (by rw [dir.straight]; decide)]
    refine nothing rfl ?_ around tracks ?_
    · rw [Within, if_pos far]
    · rw [postorder, ← closed]
  · rw [if_neg (mt skipped.mp far)]
    obtain ⟨small, above, path, stack, listed, sits, shown, empty⟩ := shows
    have nonempty : path ≠ [] := fun none => (empty none).2 dir.info
    have all : ∀ e ∈ env.fs.entries c, e ∈ env.fs.entries c := fun _ => id
    have reading := dir.reading tree around.nested stack sits shown small nonempty all
    rw [← around.options] at reading
    have found := dir.found tree around.nested stack sits shown
    rw [← around.options] at found
    have kept := dir.keeps tree around.nested stack sits around.options
    have builds : Ends fails _ (ftsBuild pos.cur pos.parents) sp :=
      (ftsBuild_first tree.reliable plain around.here closed found dir.directory (around.nested.chain tree dir) dir.level
        around.nested.known reading).and
        (Path.ftsBuild_within tree.names small sits.level sits.clean sits.length nonempty shown)
    apply Ends.bind builds
    rintro ⟨head, q⟩ t ⟨⟨built, options, untouched⟩, paths⟩
    have device : t.ftsDev = sp.ftsDev := untouched.2.1
    have tracks := tracks.same untouched.1
    rw [around.options] at built
    have options : t.ftsOptions = w.o := options.trans around.options
    have going : t.ftsOptions.stop = false := by
      rw [options]
      exact tree.plain.going
    apply Ends.modify_bind
    cases head with
    | nil =>
      apply Ends.get_bind
      rw [if_neg (by rw [going]; decide)]
      cases built with
      | entries some => exact absurd rfl some
      | nothing _ read left here =>
        have left : q = { pos.cur with ftsDirp := none, ftsInfo := .dp } := left
        have clean : ¬ (q.ftsErrno ≠ 0 ∧ q.ftsInfo ≠ .dnr) := by
          rw [left]
          exact fun failed => failed.1 dir.errno
        rw [if_neg clean]
        refine nothing device ?_ ⟨options, here.beside ⟨⟨rfl, rfl⟩, rfl, rfl, rfl, rfl⟩ rfl, around.nested, around.waits⟩
          (tracks.same rfl) left
        rw [Within, if_neg far]
        exact .done read
    | cons child rest =>
      obtain ⟨around', later⟩ := built.around (List.cons_ne_nil _ _) options dir around.nested around.waits rfl all
      rcases paths.below stack sits listed nonempty kept with ⟨none, -⟩ | ⟨-, path', below, -⟩
      · exact absurd none (List.cons_ne_nil _ _)
      · obtain ⟨⟨kid, -⟩, others⟩ := List.forall_mem_cons.mp below.listed
        obtain ⟨first, waits⟩ := List.forall_mem_cons.mp around'.waits
        have here : Around w args { t with ftsCur := some { pos with cur := q } } ((q, pos.link) :: pos.parents) rest (c :: ds) :=
          ⟨options, around'.here.beside ⟨⟨rfl, rfl⟩, rfl, rfl, rfl, rfl⟩ rfl, around'.nested, waits⟩
        have visits : Ends fails _ (name ⟨child, rest, (q, pos.link) :: pos.parents⟩)
            { t with ftsCur := some { pos with cur := q } } :=
          name_visits tree here first ⟨below.small, below.stack, others, below.starts⟩ kid (tracks.same rfl) few
        apply visits.mono
        intro r u returns
        refine returns.mono fun vs pending => ?_
        obtain ⟨ws, us, tour, after, rfl⟩ := later vs pending
        refine .entered dir ?_ (device ▸ after)
        rw [Within, if_neg far]
        exact device ▸ tour

/-! ## What comes next -/

variable {tmp : Ftsent}

/-- Behind the last entry that was read of a directory, more of it is read, or it is left. -/
theorem next_end_visits (below : Path.Below True args sp.ftsPath ((p, link) :: parents) [] above)
    (around : Around w args sp ((p, link) :: parents) [] (d :: ds)) (tracks : Tracks k sp (d :: ds)) (few : k + 1 < 2 ^ 64) :
    Ends fails (fun r sp' => Returns w args (k + 1) (Rest w sp.ftsDev ((p, link) :: parents) (d :: ds) []) sp' r)
      (next tmp ((p, link) :: parents) []) sp := by
  have plain : Plain sp.ftsOptions := around.options ▸ tree.plain
  obtain ⟨dir, inside, waits, nested⟩ := around.nested
  obtain ⟨nonempty, outer, stack, sits, waiting⟩ := below.stack
  unfold next
  dsimp only
  cases open? : p.ftsDirp with
  | none =>
    rw [if_neg (by decide)]
    apply (cdDotDot_visits tree below around (fun _ => tracks) ?_).mono
    · exact fun r t returns => returns.later (Nat.le_succ k)
    · rintro _ ⟨⟩
      exact open?
  | some dp =>
    obtain ⟨fd, rest⟩ := dp
    have left : unread p = rest := by
      rw [unread, open?]
      rfl
    rw [left] at inside
    have fds : dirFds ((p, link) :: parents) = fd :: dirFds parents := by
      rw [dirFds, List.flatMap_cons, held, open?]
      rfl
    have here := around.here
    rw [fds] at here
    have stored : p.ftsPathlen + [(0 : UInt8)].length ≤ sp.ftsPath.length := by
      have room := sits.room
      rw [sits.length, List.length_singleton]
      omega
    rw [Option.isSome_some, if_pos rfl]
    apply Ends.modify_bind
    refine Ends.bind (Path.writePath_within stored) ?_
    intro _ t written
    have size : t.ftsPath.length = sp.ftsPath.length := by
      rw [written]
      exact length_overwrite stored
    have shown : above ++ [0] <+: t.ftsPath := by
      rw [written, sits.length]
      exact append_prefix_overwrite below.starts
    have options : t.ftsOptions = w.o := by
      rw [written]
      exact around.options
    have device : t.ftsDev = sp.ftsDev := by rw [written]
    have here : Here t w.start (d :: ds) (fd :: dirFds parents) := by
      rw [written]
      exact here.beside ⟨⟨rfl, rfl⟩, rfl, rfl, rfl, rfl⟩ rfl
    have tracks : Tracks k t (d :: ds) := tracks.same (by rw [written])
    rw [← size] at stack sits waiting
    have small : t.ftsPath.length ≤ ptrdiffMax := by
      rw [size]
      exact below.small
    have reading := dir.reading tree nested stack sits shown small nonempty inside
    rw [← options] at reading
    have kept := dir.keeps tree nested stack sits options
    have builds : Ends fails _ (ftsBuild p parents) t := (ftsBuild_next tree.reliable here open? reading).and
      (Path.ftsBuild_within tree.names small sits.level sits.clean sits.length nonempty shown)
    apply Ends.bind builds
    rintro ⟨head, q⟩ u ⟨⟨built, options', untouched⟩, paths⟩
    have device : u.ftsDev = sp.ftsDev := untouched.2.1.trans device
    have tracks := tracks.same untouched.1
    rw [options] at built
    have options : u.ftsOptions = w.o := options'.trans options
    apply Ends.modify_bind
    cases head with
    | nil =>
      have going : u.ftsOptions.stop = false := by
        rw [options]
        exact tree.plain.going
      apply Ends.get_bind
      rw [if_neg (by rw [going]; decide)]
      cases built with
      | entries some => exact absurd rfl some
      | nothing _ read ended here =>
        rcases paths.below stack sits waiting nonempty kept with ⟨-, halts⟩ | ⟨-, path', below, -⟩
        · rw [halts.2] at going
          cases going
        · have ended : q = { p with ftsDirp := none, ftsInfo := .dp } := ended
          have leaves : Ends fails _ (cdDotDot ((q, link) :: parents)) { u with ftsCur := some ⟨q, link, parents⟩ } :=
            cdDotDot_leaves tree below options (here.beside ⟨⟨rfl, rfl⟩, rfl, rfl, rfl, rfl⟩ rfl) nested waits dir
              (tracks.same rfl) (postorder_reopened ended) (by rw [ended]) (.inr (by rw [ended]))
          apply leaves.mono
          intro r v returns
          apply (returns.later (Nat.le_succ k)).mono
          rintro _ ⟨us, after, rfl⟩
          refine ⟨[], us, .done ?_, device ▸ after, rfl⟩
          rw [left]
          exact read
    | cons child siblings =>
      obtain ⟨around', later⟩ := built.around (List.cons_ne_nil _ _) options dir nested waits rfl inside
      rcases paths.below stack sits waiting nonempty kept with ⟨none, -⟩ | ⟨-, path', below, -⟩
      · exact absurd none (List.cons_ne_nil _ _)
      · obtain ⟨⟨kid, -⟩, others⟩ := List.forall_mem_cons.mp below.listed
        obtain ⟨first, listed⟩ := List.forall_mem_cons.mp around'.waits
        have here : Around w args { u with ftsCur := some ⟨q, link, parents⟩ } ((q, link) :: parents) siblings (d :: ds) :=
          ⟨options, around'.here.beside ⟨⟨rfl, rfl⟩, rfl, rfl, rfl, rfl⟩ rfl, around'.nested, listed⟩
        have visits : Ends fails _ (name ⟨child, siblings, (q, link) :: parents⟩) { u with ftsCur := some ⟨q, link, parents⟩ } :=
          name_visits tree here first ⟨below.small, below.stack, others, below.starts⟩ kid (tracks.same rfl) few
        apply visits.mono
        intro r v returns
        refine returns.mono fun vs pending => ?_
        obtain ⟨ws, us, tour, after, rfl⟩ := later vs pending
        refine ⟨ws, us, ?_, device ▸ after, rfl⟩
        rw [left]
        exact device ▸ tour

omit tree in
/-- The detection of cycles begins anew. -/
theorem setupDir_tracks (plain : Plain sp.ftsOptions) (reliable : env.Reliable) :
    Ends fails (fun r sp' => r = true ∧ Beside sp sp' ∧ sp'.ftsRfd = sp.ftsRfd ∧ sp'.ftsDev = sp.ftsDev ∧
      sp'.ftsPath = sp.ftsPath ∧ sp'.ftsCur = sp.ftsCur ∧ Tracks 0 sp' []) setupDir sp := by
  apply Ends.get_bind
  rw [Plain.untight plain, if_neg Bool.false_ne_true]
  apply Ends.bind (allocated_spec reliable)
  rintro _ t ⟨rfl, same⟩
  have others : t.ftsRfd = sp.ftsRfd ∧ t.ftsDev = sp.ftsDev := by
    rw [same.rest]
    exact ⟨rfl, rfl⟩
  rw [if_pos rfl]
  apply Ends.modify_bind
  exact ⟨rfl, same.beside.trans ⟨⟨rfl, rfl⟩, rfl, rfl, rfl, rfl⟩, others.1, others.2, same.kept.path, same.kept.cur, _, rfl, rfl,
    Nat.le_refl _, fun inner => absurd rfl inner, fun counted => absurd rfl counted⟩

omit tree in
theorem Waits.root (waits : Waits w [] p) (argument : args p.address = some p.ftsName) :
    Finds w args [] (Path.loaded p) (rootSeen env w.o w.start p.ftsName) ∧
      (p.ftsInfo = .nsok → p.ftsStatp.stSize = statRequired) ∧
      (if p.ftsInfo = .nsok ∧ p.ftsStatp.stSize = statRequired then
        seen env.fs w.start p.ftsName w.o.comfollow (mark (Path.loaded p)) else mark (Path.loaded p)) =
        rootSeen env w.o w.start p.ftsName := by
  obtain ⟨quiet, level, member, looked⟩ := waits
  refine ⟨⟨⟨quiet.closed, quiet.chdir, quiet.straight, quiet.instr⟩, level, (if_pos (.inl rfl)).symm, seen_ne.2.2, ?_⟩, ?_, ?_⟩
  · intro info
    obtain ⟨c, found, directory, -, same⟩ := seen_eq_d (m := unseen p.ftsName rootLevel) info
    refine ⟨c, directory, ?_, ?_, p.ftsName, member, argument, found⟩
    · exact congrArg Mark.statp same
    · exact congrArg Mark.errno same
  · intro info
    rcases looked with ⟨-, required, -⟩ | shows
    · exact required
    · exact absurd ((congrArg Mark.info shows).symm.trans info) seen_ne.1
  · rcases looked with ⟨info, required, errno⟩ | shows
    · rw [if_pos ⟨info, required⟩, rootSeen, ← seen_root (by rfl)]
      exact seen_congr rfl level errno
    · have info : p.ftsInfo ≠ .nsok := fun info => absurd ((congrArg Mark.info shows).symm.trans info) seen_ne.1
      rw [if_neg fun both => info both.1, rootSeen, ← shows]
      rfl

omit tree in
theorem Ahead.root {dev dev' : ℕ} (level : p.ftsLevel = rootLevel) (argument : args p.address = some p.ftsName)
    (ahead : Ahead w args dev [] link [] (Path.loaded p) (rootSeen env w.o w.start p.ftsName) vs) :
    Rest w dev' [] [] (p :: link) vs := by
  cases ahead with
  | other info later => exact .entry info later
  | @directory q c inner us same shows dir within later =>
    obtain ⟨arg, member, called, found⟩ := dir.named
    have address : q.address = p.address := by rw [same]; rfl
    rw [address, argument] at called
    cases called
    have info : (rootSeen env w.o w.start p.ftsName).info = .d := by
      rw [← shows]
      exact dir.info
    have level : (Path.loaded p).ftsLevel = rootLevel := level
    rw [if_pos rfl, Within, if_neg (fun far => far.2 rfl), level] at within
    have roots := Roots.directory info found within later
    exact roots

/-- The next root is loaded. -/
theorem next_root_visits (below : Path.Below True args sp.ftsPath [] (p :: link) above)
    (around : Around w args sp [] (p :: link) []) (few : k + 1 < 2 ^ 64) :
    Ends fails (fun r sp' => Returns w args (k + 1) (Rest w sp.ftsDev [] [] (p :: link)) sp' r) (next tmp [] (p :: link)) sp := by
  have plain : Plain sp.ftsOptions := around.options ▸ tree.plain
  obtain ⟨waits, others⟩ := List.forall_mem_cons.mp around.waits
  obtain ⟨root, listed⟩ := List.forall_mem_cons.mp below.listed
  have root : Path.Unread True args sp.ftsPath.length p := root
  unfold next
  apply Ends.modify_bind
  rw [if_pos root.level]
  have here : Here { sp with ftsCur := some ⟨p, link, []⟩ } w.start [] (dirFds []) :=
    around.here.beside ⟨⟨rfl, rfl⟩, rfl, rfl, rfl, rfl⟩ rfl
  have back : Ends fails _ restoreInitialCwd { sp with ftsCur := some ⟨p, link, []⟩ } :=
    Still.of_ends restoreInitialCwd_aside restoreInitialCwd_spares (restoreInitialCwd_here tree.reliable plain here)
  apply Ends.bind back
  rintro _ t ⟨⟨rfl, here⟩, still⟩
  rw [if_neg Bool.false_ne_true]
  have options : t.ftsOptions = w.o := still.options.trans around.options
  have device : t.ftsDev = sp.ftsDev := still.untouched.2.1
  have bytes : t.ftsPath = sp.ftsPath := (Path.view_eq still.view).2
  have stored : 0 + (p.ftsName ++ [0]).length ≤ t.ftsPath.length := by
    rw [bytes, List.length_append, List.length_singleton, Nat.zero_add]
    exact root.room
  have loads : Ends fails (fun r u => r = Path.loaded p ∧ u = { t with ftsPath := overwrite t.ftsPath 0 (p.ftsName ++ [0]) })
      (ftsLoad p) t := by
    apply Ends.bind (Path.writePath_within stored)
    rintro _ u rfl
    exact ⟨rfl, rfl⟩
  apply Ends.bind loads
  rintro _ u ⟨rfl, loaded⟩
  have string : 0 ∉ p.ftsName := tree.strings _ waits.2.2.1
  have shown : p.ftsName ++ [0] <+: u.ftsPath := by
    rw [loaded]
    exact append_prefix_overwrite List.nil_prefix
  have beside : Beside t u ∧ u.ftsRfd = t.ftsRfd ∧ u.ftsDev = t.ftsDev := by
    rw [loaded]
    exact ⟨⟨⟨rfl, rfl⟩, rfl, rfl, rfl, rfl⟩, rfl, rfl⟩
  have options : u.ftsOptions = w.o := beside.1.options.trans options
  apply Ends.modify_bind
  have here : Here { u with ftsCur := some ⟨Path.loaded p, link, []⟩ } w.start [] (dirFds []) :=
    (here.beside beside.1 beside.2.1).beside ⟨⟨rfl, rfl⟩, rfl, rfl, rfl, rfl⟩ rfl
  have starts : Ends fails _ setupDir { u with ftsCur := some ⟨Path.loaded p, link, []⟩ } :=
    setupDir_tracks (show Plain u.ftsOptions from options ▸ tree.plain) tree.reliable
  apply Ends.bind starts
  rintro _ v ⟨rfl, beside', rfd, device', bytes', -, tracks⟩
  have around : Around w args v [] link [] := ⟨beside'.options.trans options, here.beside beside' rfd, trivial, others⟩
  obtain ⟨finds, asked, sees⟩ := waits.root (root.argument trivial)
  have first : (w.o.comfollow && (Path.loaded p).ftsLevel == rootLevel) = w.o.comfollow := by
    rw [show (Path.loaded p).ftsLevel = rootLevel from root.level, beq_self_eq_true, Bool.and_true]
  have leads : ∀ follow, env.fs.resolve (Here.pivot w.o w.start []) (v.accpath (Path.loaded p)) follow =
      env.fs.resolve w.start p.ftsName follow := by
    intro follow
    have start : Here.pivot w.o w.start [] = w.start := ite_self w.start
    have spelled : v.path = p.ftsName := FTS.path_eq (by rw [bytes']; exact shown) string
    rw [start, ← spelled]
    rfl
  have visits : Ends fails (fun r sp' => Returns w args (k + 1)
      (Ahead w args v.ftsDev [] link [] (Path.loaded p) (rootSeen env w.o w.start p.ftsName)) sp' r)
      (checkForDir ⟨Path.loaded p, link, []⟩) v :=
    checkForDir_visits tree around finds (tracks.later (Nat.zero_le k)) few leads (fun info => .inl (asked info))
      (by rw [first]; exact sees)
  exact visits.mono fun r x returns => returns.mono fun vs ahead => ahead.root root.level (root.argument trivial)

theorem next_visits (below : Path.Below True args sp.ftsPath parents link above) (around : Around w args sp parents link ds)
    (tracks : ds ≠ [] → Tracks k sp ds) (few : k + 1 < 2 ^ 64) (begun : tmp.ftsInfo ≠ .init ∨ link ≠ []) :
    Ends fails (fun r sp' => Returns w args (k + 1) (Rest w sp.ftsDev parents ds link) sp' r) (next tmp parents link) sp := by
  cases parents with
  | nil =>
    have outermost := around.nested.outermost.mpr rfl
    subst outermost
    cases link with
    | nil =>
      have started : tmp.ftsInfo ≠ .init := begun.resolve_right fun some => some rfl
      unfold next
      rw [if_neg started]
      apply (cdDotDot_visits tree below around (fun inner => absurd rfl inner) ?_).mono
      · exact fun r t returns => returns.later (Nat.le_succ k)
      · exact fun _ member => absurd member (Option.not_mem_none _)
    | cons p link => exact next_root_visits tree below around few
  | cons entry parents =>
    cases ds with
    | nil => exact around.nested.elim
    | cons d ds =>
      have tracks := tracks (List.cons_ne_nil d ds)
      cases link with
      | nil => exact next_end_visits tree below around tracks few
      | cons p link =>
        obtain ⟨⟨kid, -⟩, others⟩ := List.forall_mem_cons.mp below.listed
        obtain ⟨first, waits⟩ := List.forall_mem_cons.mp around.waits
        have instr : p.ftsInstr = .noInstr := first.1.instr
        unfold next
        apply Ends.modify_bind
        have inner : p.ftsLevel ≠ rootLevel := ne_of_gt kid.level
        rw [if_neg inner, if_neg (by rw [instr]; decide), if_neg (by rw [instr]; decide)]
        have here : Around w args { sp with ftsCur := some ⟨p, link, entry :: parents⟩ } (entry :: parents) link (d :: ds) :=
          ⟨around.options, around.here.beside ⟨⟨rfl, rfl⟩, rfl, rfl, rfl, rfl⟩ rfl, around.nested, waits⟩
        have visits : Ends fails _ (name ⟨p, link, entry :: parents⟩)
            { sp with ftsCur := some ⟨p, link, entry :: parents⟩ } :=
          name_visits tree here first ⟨below.small, below.stack, others, below.starts⟩ kid (tracks.same rfl) few
        exact visits

/-! ## A whole call -/

omit tree in
theorem Waits.quiet (waits : Waits w ds p) : Quiet p := by
  cases ds with
  | nil => exact waits.1
  | cons d ds => exact waits.1

omit tree in
/-- What is read next is a directory at its path. -/
theorem Core.built (core : Core w args k sp pos ds) (shows : Path.Shows True args sp.ftsPath pos)
    (built : Path.built sp = some p) :
    ∃ path c, Reaches w path c ∧ p.ftsPathlen = path.length ∧ path <+: sp.ftsPath ∧ path ≠ [] := by
  have nested := core.around.nested
  unfold Path.built at built
  rw [core.current] at built
  dsimp only at built
  split_ifs at built with stays directory skip
  · cases core.entry with
    | other info => exact absurd directory info.1
    | entered c dir tracks =>
      cases built
      obtain ⟨small, above, path, stack, listed, sits, shown, empty⟩ := shows
      exact ⟨path, c, dir.reaches nested sits (nested.reaches stack), sits.length, (List.prefix_append ..).trans shown,
        fun none => (empty none).2 dir.info⟩
  · obtain ⟨above, below⟩ := shows.below
    cases link? : pos.link with
    | cons q link =>
      rw [link?, Path.nextBuilt, (core.around.waits q (link? ▸ List.mem_cons_self ..)).quiet.instr] at built
      rw [if_neg (fun skipped => Instr.noConfusion skipped.2)] at built
      cases built
    | nil =>
      rw [link?, Path.nextBuilt, Option.filter_eq_some_iff] at built
      obtain ⟨first, -⟩ := built
      cases parents? : pos.parents with
      | nil =>
        rw [parents?] at first
        cases first
      | cons entry parents =>
        rw [parents?] at first nested below
        cases first
        cases ds with
        | nil => exact nested.elim
        | cons d ds =>
          obtain ⟨nonempty, outer, stack, sits, -⟩ := below.stack
          obtain ⟨dir, -, -, nested⟩ := nested
          exact ⟨above, d, dir.reaches nested sits (nested.reaches stack), sits.length, below.starts, nonempty⟩

/-- The paths of directories that are read do not end in a slash where it could get lost. -/
theorem Core.careful (core : Core w args k sp pos ds) (shows : Path.Shows True args sp.ftsPath pos) :
    Path.Careful True sp (Path.built sp) := by
  intro _
  have apart : sp.ftsOptions.nochdir = true → sp.ftsOptions.cwdfd = false := by
    rw [core.around.options]
    exact tree.plain.apart
  refine ⟨tree.reliable, apart, fun p built mode ends => ?_⟩
  obtain ⟨path, c, reaches, length, starts, nonempty⟩ := core.built shows built
  rw [length, Path.getElem?_last starts nonempty] at ends
  exact absurd ends (reaches.unslashed tree (core.around.options ▸ mode))

theorem ftsRead_visits (core : Core w args k sp pos ds) (shows : Path.Shows True args sp.ftsPath pos)
    (few : k + 1 < 2 ^ 64) :
    Ends fails (fun r sp' => Returns w args (k + 1) (Pending w args sp.ftsDev pos ds) sp' r) ftsRead sp := by
  have going : sp.ftsOptions.stop = false := by
    rw [core.around.options]
    exact tree.plain.going
  have same : ({ pos.cur with ftsInstr := .noInstr } : Ftsent) = pos.cur := by rw [← core.instr]
  apply Ends.get_bind
  rw [core.current]
  dsimp only
  rw [if_neg (by rw [going]; decide), core.instr]
  apply Ends.modify_bind
  rw [if_neg (by decide), if_neg (by rintro ⟨⟨⟩, -⟩)]
  have around : Around w args { sp with ftsCur := some pos } pos.parents pos.link ds :=
    core.around.beside ⟨⟨rfl, rfl⟩, rfl, rfl, rfl, rfl⟩ rfl
  cases core.entry with
  | entered c dir tracks =>
    rw [if_pos dir.info, same]
    exact preorder_visits tree shows around dir core.closed (tracks.same rfl) few
  | other info tracks =>
    rw [if_neg info.1, same]
    obtain ⟨above, below⟩ := shows.below
    have visits : Ends fails _ (next pos.cur pos.parents pos.link) { sp with ftsCur := some pos } :=
      next_visits tree below around (fun inner => (tracks inner).same rfl) few (.inl info.2)
    exact visits.mono fun r t returns => returns.mono fun vs later => .other info.1 later

end

end Yalibct.Fts.Visit
