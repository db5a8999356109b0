import Yalibct.Soundness.FtsPathWalk
import Yalibct.Soundness.FtsPlace
import Yalibct.Soundness.FtsTour

/-! # What is read of a directory

Without failures, the entries that `fts_build` makes show what the file system has, and so many of them are
made at a time that the buffer of the path can hold.
-/

namespace Yalibct.Fts.Visit

open Machine Place
open Yalibct.Fts.Path (unread)

variable {env : Env} {fails : Fault → FTS env → Prop} {sp sp' : FTS env} {p q cur : Ftsent} {start dir base : env.fs.Node}
variable {ds : List env.fs.Node} {dirs : List ℕ} {path : List UInt8}

/-! ## `fts_stat` -/

/-- The same entry, with another status. -/
def Restated (p q : Ftsent) : Prop := q = { p with ftsStatp := q.ftsStatp, ftsInfo := q.ftsInfo, ftsErrno := q.ftsErrno }

section Unfailing

variable (reliable : env.Reliable)

include reliable in
/-- A failed call leaves its error behind. -/
theorem fstatat_look {fd : ℤ} {name : List UInt8} {follow : Bool} (there : sp.kernel.base fd = some base)
    (leads : env.fs.resolve base name follow = env.fs.resolve dir path follow) :
    Ends fails (fun r sp' => (match env.fs.resolve dir path follow with
        | .ok node => r = some (env.fs.stat node)
        | .error errno => r = none ∧ sp'.kernel.errno = errno) ∧ Leaves sp.kernel.fds sp sp')
      (fstatat fd name follow) sp := by
  apply Ends.bind (request_spec reliable)
  rintro _ t ⟨rfl, same⟩
  apply Ends.bind use_spec
  rintro _ u ⟨rfl, same'⟩
  simp only [same.base, there, leads]
  cases env.fs.resolve dir path follow with
  | ok node => exact ⟨rfl, same.then_same same'⟩
  | error errno =>
    apply Ends.modify_bind
    refine ⟨⟨rfl, rfl⟩, (same.then_same same').then_same ⟨rfl, rfl, rfl⟩⟩

include reliable in
theorem ftsStat_seen {follow : Bool} (logical : sp.ftsOptions.logical = false) (there : sp.kernel.base sp.ftsCwdFd = some base)
    (leads : ∀ f, env.fs.resolve base (sp.accpath p) f = env.fs.resolve dir path f) :
    Ends fails (fun r sp' => Restated p r ∧
      mark r = seen env.fs dir path (follow || sp.ftsOptions.comfollow && p.ftsLevel == rootLevel) (mark p) ∧
      Leaves sp.kernel.fds sp sp') (ftsStat p follow) sp := by
  apply Ends.get_bind
  dsimp only
  rw [logical, Bool.or_false]
  generalize (follow || sp.ftsOptions.comfollow && p.ftsLevel == rootLevel) = follow
  apply Ends.bind (fstatat_look reliable there (leads _))
  rintro r t ⟨result, same⟩
  unfold seen
  cases found : env.fs.resolve dir path follow with
  | ok node =>
    rw [found] at result
    cases result
    refine ⟨rfl, ?_, same⟩
    exact congrArg (Mark.mk _ _ _ _) (if_neg kind_ne.1)
  | error errno =>
    rw [found] at result
    obtain ⟨rfl, failed⟩ := result
    have dangling : Ends fails (fun r u => (if follow ∧ errno = .enoent then match env.fs.resolve dir path false with
          | .ok node => r = some (env.fs.stat node)
          | .error errno => r = none ∧ u.kernel.errno = errno
        else r = none ∧ u.kernel.errno = errno) ∧ Leaves sp.kernel.fds sp u)
        (ftsStatDangling sp.ftsCwdFd (sp.accpath p) follow) t := by
      unfold ftsStatDangling
      change Ends _ _ (if follow ∧ t.kernel.errno = .enoent then
        fstatat sp.ftsCwdFd (sp.accpath p) false else pure none : Action env (Option Stat)) t
      rw [failed]
      split_ifs
      · exact (fstatat_look reliable ((same.base _).trans there) (leads false)).mono fun r u looked =>
          ⟨looked.1, same.then_same looked.2⟩
      · exact ⟨⟨rfl, failed⟩, same⟩
    apply Ends.bind dangling
    rintro r u ⟨result, same⟩
    have missed : ∀ {v : FTS env} {errno}, v.kernel.errno = errno → Leaves sp.kernel.fds sp v →
        Ends fails (fun r sp' => Restated p r ∧ mark r = missing errno (mark p) ∧ Leaves sp.kernel.fds sp sp')
        (do return { p with ftsErrno := ← getErrno, ftsStatp := .zero, ftsInfo := .ns } : Action env Ftsent) v := by
      rintro v _ rfl same
      exact ⟨rfl, rfl, same⟩
    dsimp only
    split_ifs at result ⊢
    · cases again : env.fs.resolve dir path false with
      | ok node =>
        rw [again] at result
        cases result
        exact .bind setErrno_spec fun _ v same' => ⟨rfl, rfl, same.then_same same'⟩
      | error errno =>
        rw [again] at result
        obtain ⟨rfl, failed⟩ := result
        exact missed failed same
    · obtain ⟨rfl, failed⟩ := result
      exact missed failed same

/-! ## Room for an entry -/

include reliable in
private theorem granted_small {size : ℕ} (small : size ≤ ptrdiffMax) :
    Ends fails (fun r sp' => r = true ∧ Leaves sp.kernel.fds sp sp') (granted size) sp := by
  apply (allocated_spec reliable).bind
  rintro _ t ⟨rfl, same⟩
  rw [if_neg (Nat.not_lt.mpr small)]
  exact ⟨rfl, same⟩

/-- A new entry, without an error. -/
structure New (name : List UInt8) (p : Ftsent) : Prop extends Fresh name p where
  errno : p.ftsErrno = 0

include reliable in
private theorem ftsAlloc_new {name : List UInt8} (small : ftsentSize name.length ≤ ptrdiffMax) :
    Ends fails (fun r sp' => ∃ p, r = some p ∧ New name p ∧ Leaves sp.kernel.fds sp sp') (ftsAlloc name) sp := by
  apply Ends.get_bind
  apply Ends.bind (granted_small reliable small)
  rintro _ t ⟨rfl, same⟩
  exact ⟨_, rfl, ⟨⟨rfl, rfl, rfl, rfl, rfl⟩, rfl⟩, same⟩

include reliable in
/-- A buffer of a size that an object may have. -/
theorem ftsPalloc_grows {more : ℕ} (small : sp.ftsPath.length + more + 256 ≤ ptrdiffMax) :
    Ends fails (fun r sp' => r = true ∧ Beside sp sp' ∧ sp'.ftsPath.length = sp.ftsPath.length + more + 256)
      (ftsPalloc more) sp := by
  have exactly : sizeT (sp.ftsPath.length + more + 256) = sp.ftsPath.length + more + 256 := by
    rw [sizeT_eq]
    rw [ptrdiffMax] at small
    omega
  apply Ends.get_bind
  dsimp only
  rw [exactly, if_neg (by omega)]
  apply Ends.bind (granted_small reliable small)
  rintro _ t ⟨rfl, same⟩
  refine ⟨rfl, same.beside.trans ⟨⟨rfl, rfl⟩, rfl, rfl, rfl, rfl⟩, ?_⟩
  change (overwrite (env.rawPath sp.kernel.now (sp.ftsPath.length + more + 256)) 0 sp.ftsPath).length = _
  rw [length_overwrite (by rw [env.length_rawPath]; omega), env.length_rawPath]

include reliable in
private theorem growPath_grows {namelen len : ℕ} (inside : len ≤ sp.ftsPath.length)
    (small : 2 * (len + namelen) + 257 ≤ ptrdiffMax) :
    Ends fails (fun r sp' => r.isSome ∧ Beside sp sp') (growPath namelen len (sp.ftsPath.length - len)) sp := by
  unfold growPath
  split_ifs with full
  · apply Ends.bind (ftsPalloc_grows reliable (by omega))
    rintro _ t ⟨rfl, beside, -⟩
    exact ⟨rfl, beside⟩
  · exact ⟨rfl, .refl sp⟩

/-! ## A new entry -/

/-- In `FTS_NOCHDIR` mode, the names in a directory are found below its path. -/
structure Leads (fs : FileSystem) (o : Options) (start dir : fs.Node) (path : List UInt8) : Prop where
  string : 0 ∉ path
  below : o.nochdir = true → ∀ name, Path.Proper name → ∀ follow,
    fs.resolve start (Path.join path name) follow = fs.resolve dir name follow

theorem Leads.accpath {o : Options} (leads : Leads env.fs o start dir path) (proper : Path.Proper p.ftsName) (accpath : p.ftsAccpath = if o.nochdir then .ftsPath else .ftsName)
    (shown : o.nochdir = true → Path.join path p.ftsName ++ [0] <+: sp.ftsPath) (follow : Bool) :
    env.fs.resolve (Here.pivot o start (dir :: ds)) (sp.accpath p) follow = env.fs.resolve dir p.ftsName follow := by
  unfold Here.pivot FTS.accpath
  rw [accpath]
  cases mode : o.nochdir with
  | false => rfl
  | true =>
    have string : 0 ∉ Path.join path p.ftsName := by
      rw [Path.join, List.mem_append, List.mem_cons, not_or, not_or]
      exact ⟨fun member => leads.string (Path.stem_starts.subset member), by decide, proper.string⟩
    change env.fs.resolve start sp.path follow = _
    rw [FTS.path_eq (shown mode) string]
    exact leads.below mode _ proper follow

/-- An entry without a directory, of which nothing was asked. -/
structure Quiet (p : Ftsent) : Prop where
  closed : p.ftsDirp = none
  chdir : p.dontchdir = false
  straight : p.symfollow = false
  instr : p.ftsInstr = .noInstr

private theorem writeNochdir_writes {offset : ℕ} {run : List UInt8}
    (room : sp.ftsOptions.nochdir = true → offset + run.length ≤ sp.ftsPath.length) :
    Ends fails (fun _ sp' => sp' = if sp.ftsOptions.nochdir then { sp with ftsPath := overwrite sp.ftsPath offset run } else sp)
      (writeNochdir offset run) sp := by
  apply Ends.get_bind
  split_ifs with mode
  · apply Ends.get_bind
    rw [if_pos (room mode)]
    exact rfl
  · exact rfl

private theorem written_beside {bytes : List UInt8}
    (written : sp' = if sp.ftsOptions.nochdir then { sp with ftsPath := bytes } else sp) :
    Beside sp sp' ∧ sp'.ftsRfd = sp.ftsRfd ∧ sp'.kernel = sp.kernel := by
  rw [written]
  cases sp.ftsOptions.nochdir with
  | false => exact ⟨.refl sp, rfl, rfl⟩
  | true => exact ⟨⟨⟨rfl, rfl⟩, rfl, rfl, rfl, rfl⟩, rfl, rfl⟩

include reliable in
private theorem listEntry_listed {len newLen : ℕ} {e : Dirent} (logical : sp.ftsOptions.logical = false)
    (here : Here sp start (dir :: ds) dirs) (leads : Leads env.fs sp.ftsOptions start dir path) (new : New e.dName p)
    (proper : Path.Proper e.dName) (level : 0 ≤ cur.ftsLevel) (length : len = (Path.stem path).length + 1)
    (shown : sp.ftsOptions.nochdir = true → Path.stem path ++ [slash] <+: sp.ftsPath)
    (room : len + e.dName.length < sp.ftsPath.length) :
    Ends fails (fun r sp' => mark r = listed env sp.ftsOptions dir (cur.ftsLevel + 1) e ∧ Quiet r ∧
      r.ftsAccpath = (if sp.ftsOptions.nochdir then .ftsPath else .ftsName) ∧ Beside sp sp' ∧
      sp'.ftsPath.length = sp.ftsPath.length ∧ (sp.ftsOptions.nochdir = true → Path.stem path ++ [slash] <+: sp'.ftsPath))
      (listEntry cur p newLen len e) sp := by
  apply Ends.get_bind
  dsimp only
  have stored : len + (e.dName ++ [0]).length ≤ sp.ftsPath.length := by
    rw [List.length_append, List.length_singleton]
    exact room
  rw [new.name]
  refine Ends.bind (writeNochdir_writes fun _ => stored) ?_
  intro _ t written
  obtain ⟨beside, rfd, -⟩ := written_beside written
  have size : t.ftsPath.length = sp.ftsPath.length := by
    rw [written]
    split_ifs
    · exact length_overwrite stored
    · rfl
  have same : Path.join path e.dName ++ [0] = Path.stem path ++ [slash] ++ (e.dName ++ [0]) := by
    rw [Path.join, List.append_assoc, List.append_assoc, List.cons_append, List.singleton_append]
  have starts : sp.ftsOptions.nochdir = true → Path.join path e.dName ++ [0] <+: t.ftsPath := by
    intro mode
    have place : len = (Path.stem path ++ [slash]).length := by
      rw [List.length_append, List.length_singleton, length]
    rw [written, if_pos mode, place, same]
    exact append_prefix_overwrite (shown mode)
  have kept : sp.ftsOptions.nochdir = true → Path.stem path ++ [slash] <+: t.ftsPath := by
    intro mode
    exact List.IsPrefix.trans ⟨e.dName ++ [0], same.symm⟩ (starts mode)
  unfold listed
  rcases Decidable.em (env.compar.isNone ∨ sp.ftsOptions.deferStat) with deferred | asked
  · rw [if_pos deferred, if_pos deferred]
    refine ⟨?_, ⟨new.closed, new.chdir, new.straight, new.instr⟩, rfl, beside, size, kept⟩
    change Mark.mk e.dName (cur.ftsLevel + 1) .nsok p.ftsErrno ⟨0, e.dIno, e.dType, 0, _⟩ = _
    rw [new.errno]
    simp only [setStatRequired, decide_eq_true_eq]
  · rw [if_neg asked, if_neg asked]
    have there := (here.beside beside rfd).base.1
    have found : ∀ {q : Ftsent} {follow : Bool}, q.ftsName = e.dName →
        q.ftsAccpath = (if sp.ftsOptions.nochdir then .ftsPath else .ftsName) →
        env.fs.resolve (Here.pivot t.ftsOptions start (dir :: ds)) (t.accpath q) follow = env.fs.resolve dir e.dName follow := by
      rintro q follow name accpath
      rw [beside.options, ← name]
      exact leads.accpath (name ▸ proper) accpath (name ▸ starts) follow
    have root : (cur.ftsLevel + 1 == rootLevel) = false := beq_eq_false_iff_ne.mpr (by rw [rootLevel]; omega)
    refine (ftsStat_seen reliable (beside.options ▸ logical) there fun follow => found rfl rfl).mono ?_
    rintro r u ⟨same, shows, leaves⟩
    refine ⟨?_, ?_, ?_, beside.trans leaves.beside, leaves.kept.path ▸ size, leaves.kept.path ▸ kept⟩
    · rw [shows]
      change seen env.fs dir e.dName (false || t.ftsOptions.comfollow && (cur.ftsLevel + 1 == rootLevel)) _ = _
      rw [root, Bool.and_false, Bool.or_false]
      exact seen_congr rfl rfl new.errno
    · rw [same]
      exact ⟨new.closed, new.chdir, new.straight, new.instr⟩
    · rw [same]

/-! ## The loop -/

private theorem sortDecision_byInode {count : ℕ} {sort : Bool} (before : ByInode env count sort) :
    Ends fails (fun r sp' => ByInode env (count + 1) r ∧ Leaves sp.kernel.fds sp sp')
      (sortDecision count sort) sp := by
  unfold sortDecision
  split_ifs with asked
  · have answered : Ends fails (fun r t => r = env.inodeSortMayBeUseful sp.kernel.now ∧ Leaves sp.kernel.fds sp t)
        (ask env.inodeSortMayBeUseful) sp := ⟨rfl, ⟨rfl, rfl, rfl⟩⟩
    apply answered.mono
    rintro r t ⟨answer, after⟩
    refine ⟨?_, after⟩
    rw [ByInode, if_pos ⟨asked.2, by omega⟩]
    exact ⟨_, answer⟩
  · refine ⟨?_, .refl sp⟩
    unfold ByInode at before ⊢
    have same : (env.compar.isNone ∧ env.inodeSortDirEntriesThreshold < count + 1) ↔
        (env.compar.isNone ∧ env.inodeSortDirEntriesThreshold < count) := by
      refine and_congr_right fun isNone => ?_
      have other : count ≠ env.inodeSortDirEntriesThreshold := fun equal => asked ⟨equal, isNone⟩
      omega
    simp only [same]
    exact before

/-- Entries in a directory, which show what was read of it. -/
structure Lists (o : Options) (dir : env.fs.Node) (level : ℤ) (es : List Dirent) (head : List Ftsent) : Prop where
  marks : head.map mark = es.map (listed env o dir level)
  quiet : ∀ p ∈ head, Quiet p ∧ p.ftsAccpath = if o.nochdir then .ftsPath else .ftsName

theorem Lists.length {o : Options} {level : ℤ} {es : List Dirent} {head : List Ftsent} (lists : Lists o dir level es head) :
    head.length = es.length := by
  have equal := congrArg List.length lists.marks
  rw [List.length_map, List.length_map] at equal
  exact equal

theorem Lists.concat {o : Options} {level : ℤ} {es : List Dirent} {head : List Ftsent} {e : Dirent}
    (lists : Lists o dir level es head) (shows : mark p = listed env o dir level e) (quiet : Quiet p)
    (accpath : p.ftsAccpath = if o.nochdir then .ftsPath else .ftsName) : Lists o dir level (es ++ [e]) (head ++ [p]) := by
  refine ⟨?_, fun q member => ?_⟩
  · rw [List.map_append, List.map_append, lists.marks, List.map_singleton, List.map_singleton, shows]
  · rcases List.mem_append.mp member with old | new
    · exact lists.quiet q old
    · rw [List.mem_singleton.mp new]
      exact ⟨quiet, accpath⟩

/-- What the loop leaves of a directory. -/
structure Parts (start : env.fs.Node) (dir : env.fs.Node) (ds : List env.fs.Node) (dirs : List ℕ) (fd : ℕ) (cur : Ftsent)
    (part : List Dirent × List Dirent) (o : Options) (r : Listed) (sp' : FTS env) : Prop where
  same : r.cur = { cur with ftsDirp := r.cur.ftsDirp }
  dirp : r.cur.ftsDirp = none ∧ part.2 = [] ∨ r.cur.ftsDirp = some ⟨fd, part.2⟩ ∧ part.1 ≠ []
  lists : Lists o dir (cur.ftsLevel + 1) part.1 r.head
  here : Here sp' start (dir :: ds) (held r.cur ++ dirs)
  sort : ByInode env r.head.length r.sortByInode
  options : sp'.ftsOptions = o
  going : r.gaveUp = false

include reliable in
private theorem endOfDir_parts {fd : ℕ} {o : Options} {continueReaddir sort : Bool} {head : List Ftsent}
    {es : List Dirent}
    (options : sp.ftsOptions = o) (here : Here sp start (dir :: ds) (fd :: dirs))
    (lists : Lists o dir (cur.ftsLevel + 1) es head) (choice : ByInode env head.length sort) :
    Ends fails (Parts start dir ds dirs fd cur (es, []) o) (endOfDir fd continueReaddir cur head sort 0) sp := by
  apply Ends.bind setErrno_spec
  intro _ t same
  have here := here.same same
  obtain ⟨node, found⟩ := Option.isSome_iff_exists.mp (here.isOpen (List.mem_cons_self ..))
  have closes : Ends fails _ (closedir ⟨fd, []⟩) t := closedir_spec reliable found
  apply Ends.bind closes
  intro _ u closed
  refine ⟨rfl, .inl ⟨rfl, rfl⟩, lists, here.close closed, choice, ?_, rfl⟩
  rw [closed.kept.options, same.kept.options, options]

include reliable in
private theorem buildLoop_parts {fd : ℕ} {continueReaddir sort : Bool} {rest es : List Dirent} {head : List Ftsent}
    {len : ℕ}
    {o : Options} (options : sp.ftsOptions = o) (logical : o.logical = false) (here : Here sp start (dir :: ds) (fd :: dirs))
    (leads : Leads env.fs o start dir path) (level : 0 ≤ cur.ftsLevel) (length : len = (Path.stem path).length + 1)
    (shown : o.nochdir = true → Path.stem path ++ [slash] <+: sp.ftsPath) (inside : len ≤ sp.ftsPath.length)
    (small : sp.ftsPath.length ≤ ptrdiffMax)
    (proper : ∀ e ∈ rest, Path.Proper e.dName ∧ 2 * (len + e.dName.length) + 257 ≤ ptrdiffMax)
    (lists : Lists o dir (cur.ftsLevel + 1) es head) (choice : ByInode env head.length sort) :
    Ends fails (Parts start dir ds dirs fd cur (batch o env.maxEntries rest es) o)
      (buildLoop fd len continueReaddir rest cur head (sp.ftsPath.length - len) sort) sp := by
  induction rest generalizing sp es head sort with
  | nil =>
    apply Ends.bind setErrno_spec
    intro _ t same
    apply Ends.bind (request_spec reliable)
    rintro _ u ⟨rfl, same'⟩
    exact endOfDir_parts reliable ((same.then_same same').kept.options.trans options) ((here.same same).same same') lists choice
  | cons e rest ih =>
    apply Ends.bind setErrno_spec
    intro _ t same
    apply Ends.bind (request_spec reliable)
    rintro _ u ⟨rfl, same'⟩
    have same := same.then_same same'
    have here := here.same same
    have options : u.ftsOptions = o := same.kept.options.trans options
    have bytes : u.ftsPath = sp.ftsPath := same.kept.path
    rw [← bytes] at shown inside small
    obtain ⟨⟨first', room⟩, proper⟩ := List.forall_mem_cons.mp proper
    apply Ends.get_bind
    rw [options, batch, ← bytes]
    rcases Bool.eq_false_or_eq_true (!o.seedot && isDot e.dName) with skipped | passed
    · rw [skipped, if_pos rfl, if_pos rfl]
      exact ih options here shown inside small proper lists choice
    rw [passed, if_neg Bool.false_ne_true, if_neg Bool.false_ne_true]
    have named : ftsentSize e.dName.length ≤ ptrdiffMax := by
      unfold ftsentSize
      rw [ptrdiffMax] at room ⊢
      omega
    apply Ends.bind (ftsAlloc_new reliable named)
    rintro _ v ⟨p, rfl, new, same'⟩
    have here := here.same same'
    have options : v.ftsOptions = o := same'.kept.options.trans options
    have bytes : v.ftsPath = u.ftsPath := same'.kept.path
    rw [← bytes] at shown inside small ⊢
    apply Ends.bind (((growPath_grows reliable inside room).and (Path.growPath_within small inside rfl named)).and
      (growPath_spares _ _ _ v))
    rintro maxlen w ⟨⟨⟨grown, beside⟩, apart, roomy⟩, untouched'⟩
    obtain ⟨maxlen, rfl⟩ := Option.isSome_iff_exists.mp grown
    obtain ⟨-, starts, small, rfl, enough⟩ := roomy maxlen rfl
    have exactly : sizeT (len + e.dName.length) = len + e.dName.length := by
      rw [sizeT_eq]
      rw [ptrdiffMax] at small
      omega
    dsimp only
    rw [exactly, if_neg (show ¬ len + e.dName.length < len by omega)]
    have here := here.beside beside untouched'.2.2
    have options : w.ftsOptions = o := beside.options.trans options
    have shown : o.nochdir = true → Path.stem path ++ [slash] <+: w.ftsPath := fun mode => (shown mode).trans starts
    subst options
    apply Ends.bind ((listEntry_listed reliable logical here leads new first' level length shown enough).and
      (listEntry_spares cur p _ len e w))
    rintro q x ⟨⟨shows, quiet, accpath, beside', size, shown⟩, untouched''⟩
    have here := here.beside beside' untouched''.2.2
    have lists := lists.concat shows quiet accpath
    apply Ends.bind (sortDecision_byInode choice)
    rintro sort y ⟨choice, same''⟩
    have here := here.same same''
    have count : (head ++ [q]).length = head.length + 1 := by rw [List.length_append, List.length_singleton]
    rw [← count] at choice
    rw [← lists.length]
    have options : y.ftsOptions = w.ftsOptions := same''.kept.options.trans beside'.options
    split_ifs with full
    · exact ⟨rfl, .inr ⟨rfl, List.append_ne_nil_of_right_ne_nil _ (List.cons_ne_nil _ _)⟩, lists, here, choice, options, rfl⟩
    · have bytes : y.ftsPath = x.ftsPath := same''.kept.path
      rw [← bytes] at shown size
      rw [← size] at small ⊢
      refine ih options here shown ?_ small proper lists choice
      rw [size]
      omega

/-! ## `fts_build` -/

private theorem ends_ran {α : Type} {post : α → FTS env → Prop} {x : Action env α} (ends : Ends fails post x sp) :
    Ends fails (fun a t => post a t ∧ x.run sp = .ok a t) x sp := by
  unfold Ends at ends ⊢
  cases ran : x.run sp with
  | ok a t =>
    rw [ran] at ends
    exact ⟨ends, rfl⟩
  | error e t =>
    rw [ran] at ends
    exact ends

include reliable in
private theorem buildSort_sorts {byInode : Bool} {head : List Ftsent} (choice : ByInode env head.length byInode) :
    Ends fails (fun r sp' => r.Perm head ∧ Sorts env (head.map mark) (r.map mark) ∧ Beside sp sp')
      (buildSort byInode head) sp := by
  apply (ends_ran (buildSort_spec reliable)).mono
  rintro r t ⟨⟨perm, beside, -⟩, ran⟩
  exact ⟨perm, ⟨byInode, head, r, sp, t, choice, ran, rfl, rfl⟩, beside⟩

/-- What `fts_build` makes of a directory, of which it reads a part: it finds nothing and is back in one of these
directories, or it is in the directory, of which there are entries. -/
inductive Built (start dir : env.fs.Node) (ds back : List env.fs.Node) (dirs : List ℕ) (cur : Ftsent)
    (part : List Dirent × List Dirent) (r : List Ftsent × Ftsent) (sp' : FTS env) : Prop
  | nothing (empty : r.1 = []) (read : part.1 = []) (left : r.2 = { cur with ftsDirp := none, ftsInfo := .dp })
      (here : Here sp' start back dirs)
  | entries (found : r.1 ≠ []) (read : part.1 ≠ []) (same : r.2 = { cur with ftsDirp := r.2.ftsDirp })
      (rest : unread r.2 = part.2) (here : Here sp' start (dir :: ds) (held r.2 ++ dirs))
      (sorted : Sorts env (part.1.map (listed env sp'.ftsOptions dir (cur.ftsLevel + 1))) (r.1.map mark))
      (quiet : ∀ p ∈ r.1, Quiet p ∧ p.ftsAccpath = if sp'.ftsOptions.nochdir then .ftsPath else .ftsName)

theorem Built.of_opened {back : List env.fs.Node} {part : List Dirent × List Dirent}
    {r : List Ftsent × Ftsent} {dirp : Option Dir}
    (built : Built start dir ds back dirs { cur with ftsDirp := dirp } part r sp') :
    Built start dir ds back dirs cur part r sp' := by
  cases built with
  | nothing empty read left here => exact .nothing empty read left here
  | entries found read same rest here sorted quiet =>
    exact .entries found read same rest here sorted quiet

include reliable in
private theorem buildEnd_built {parents : List (Ftsent × List Ftsent)} {descended : Bool} {len fd : ℕ} {o : Options}
    {part : List Dirent × List Dirent} {back : List env.fs.Node} {r : Listed}
    (parts : Parts start dir ds dirs fd cur part o r sp) (info : cur.ftsInfo = .d) (positive : 0 < len)
    (room : len ≤ sp.ftsPath.length)
    (returns : ∀ {t : FTS env}, t.ftsOptions = o → Here t start (dir :: ds) dirs →
      Ends fails (fun lost u => lost = false ∧ Here u start back dirs ∧ u.ftsOptions = o)
        (if descended then buildReturn r.cur parents else pure false) t) :
    Ends fails (fun s sp' => Built start dir ds back dirs cur part s sp' ∧ sp'.ftsOptions = o)
      (buildEnd parents descended len r) sp := by
  have stored : (if len = sp.ftsPath.length ∨ r.head = [] then len - 1 else len) + [(0 : UInt8)].length ≤ sp.ftsPath.length := by
    rw [List.length_singleton]
    split_ifs
    · omega
    · omega
  refine .get_bind (.bind (writeNochdir_writes fun _ => stored) fun _ t written => ?_)
  obtain ⟨beside, rfd, same⟩ := written_beside written
  have here := parts.here.beside beside rfd
  have options : t.ftsOptions = o := beside.options.trans parts.options
  have marks := parts.lists.marks
  have dirp := parts.dirp
  split
  · rename_i empty
    have read : part.1 = [] := by
      rw [empty, List.map_nil] at marks
      exact List.map_eq_nil_iff.mp marks.symm
    have closed : r.cur.ftsDirp = none := (dirp.resolve_right fun open' => open'.2 read).1
    have left : { r.cur with ftsInfo := .dp } = { cur with ftsDirp := none, ftsInfo := Info.dp } := by
      rw [parts.same, closed]
    have going : r.cur.ftsInfo ≠ .dnr ∧ r.cur.ftsInfo ≠ .err := by
      rw [parts.same]
      change cur.ftsInfo ≠ .dnr ∧ cur.ftsInfo ≠ .err
      rw [info]
      exact ⟨nofun, nofun⟩
    rw [held, closed] at here
    apply Ends.bind (returns options here)
    rintro _ u ⟨rfl, here, options⟩
    rw [if_pos going, left]
    exact ⟨.nothing rfl read rfl here, options⟩
  · rename_i head listed
    apply Ends.bind ((buildSort_sorts reliable parts.sort).and (buildSort_spares _ _ t))
    rintro sorted u ⟨⟨perm, sorts, beside'⟩, untouched⟩
    have options : u.ftsOptions = o := beside'.options.trans options
    have found : part.1 ≠ [] := fun empty => listed (by rw [empty] at marks; exact List.map_eq_nil_iff.mp marks)
    refine ⟨.entries (fun empty => listed ?_) found parts.same ?_ (here.beside beside' untouched.2.2) ?_ ?_,
      options⟩
    · rw [show sorted = [] from empty] at perm
      exact perm.symm.eq_nil
    · rcases dirp with ⟨closed, rest⟩ | ⟨opened, -⟩
      · rw [unread, closed, rest]
        rfl
      · rw [unread, opened]
        rfl
    · rw [options, ← marks]
      exact sorts
    · rw [options]
      exact fun p member => parts.lists.quiet p (perm.mem_iff.mp member)

/-- What there is to be read of a directory has proper names, for which there is memory. -/
def Roomy (path : List UInt8) (rest : List Dirent) : Prop :=
  ∀ e ∈ rest, Path.Proper e.dName ∧ 2 * ((Path.stem path).length + 1 + e.dName.length) + 257 ≤ ptrdiffMax

/-- A directory that is read, with its path in the buffer. -/
structure Reading (o : Options) (start dir : env.fs.Node) (path : List UInt8) (rest : List Dirent) (cur : Ftsent) (sp : FTS env) :
    Prop where
  logical : o.logical = false
  leads : Leads env.fs o start dir path
  roomy : Roomy path rest
  length : cur.ftsPathlen = path.length
  nonempty : path ≠ []
  shown : path ++ [0] <+: sp.ftsPath
  small : sp.ftsPath.length ≤ ptrdiffMax
  level : 0 ≤ cur.ftsLevel
  info : cur.ftsInfo = .d

include reliable in
private theorem buildRest_built {parents : List (Ftsent × List Ftsent)} {continueReaddir descended : Bool} {fd : ℕ}
    {o : Options}
    {rest : List Dirent} {back : List env.fs.Node} (reading : Reading o start dir path rest cur sp)
    (dirp : cur.ftsDirp = some ⟨fd, rest⟩) (options : sp.ftsOptions = o) (here : Here sp start (dir :: ds) (fd :: dirs))
    (returns : ∀ {q : Ftsent} {t : FTS env}, q.ftsLevel = cur.ftsLevel → t.ftsOptions = o → Here t start (dir :: ds) dirs →
      Ends fails (fun lost u => lost = false ∧ Here u start back dirs ∧ u.ftsOptions = o)
        (if descended then buildReturn q parents else pure false) t) :
    Ends fails (fun s sp' => Built start dir ds back dirs cur (batch o env.maxEntries rest []) s sp' ∧
      sp'.ftsOptions = o) (buildRest parents continueReaddir descended cur) sp := by
  obtain ⟨logical, leads, roomy, length, nonempty, shown, small, level, info⟩ := reading
  have starts : path <+: sp.ftsPath := (List.prefix_append ..).trans shown
  have inside : (Path.stem path).length + 1 ≤ sp.ftsPath.length := by
    have room := shown.length_le
    have := @Path.length_stem_le path
    rw [List.length_append, List.length_singleton] at room
    omega
  apply Ends.bind (Path.nappend_within starts length nonempty)
  rintro _ t ⟨rfl, unchanged⟩
  rw [unchanged]
  refine .bind (writeNochdir_writes fun _ => inside) fun _ t written => ?_
  obtain ⟨beside, rfd, same⟩ := written_beside written
  have here := here.beside beside rfd
  have size : t.ftsPath.length = sp.ftsPath.length := by
    rw [written]
    split_ifs
    · exact length_overwrite inside
    · rfl
  have slashed : o.nochdir = true → Path.stem path ++ [slash] <+: t.ftsPath := by
    intro mode
    rw [written, options, if_pos mode]
    exact append_prefix_overwrite (Path.stem_starts.trans starts)
  rw [← size] at inside small
  have entries : Ends fails (Parts start dir ds dirs fd cur (batch o env.maxEntries rest []) o)
      (buildEntries ((Path.stem path).length + 1) continueReaddir cur) t := by
    have lists : Lists o dir (cur.ftsLevel + 1) [] [] := ⟨rfl, List.forall_mem_nil _⟩
    have choice : ByInode env ([] : List Ftsent).length false := by
      rw [ByInode, if_neg fun asked => absurd asked.2 (Nat.not_lt_zero _)]
    unfold buildEntries
    rw [dirp]
    apply Ends.get_bind
    exact buildLoop_parts reliable (beside.options.trans options) logical here leads level rfl slashed inside small roomy lists
      choice
  apply Ends.bind (entries.and (Path.buildEntries_within level small inside (show Path.Clean cur from ?_)))
  · rintro r u ⟨parts, loops⟩
    rw [parts.going, if_neg Bool.false_ne_true]
    have keeps : (Path.stem path).length + 1 ≤ u.ftsPath.length := by
      rcases loops.ends with ⟨gaveUp, -⟩ | ⟨-, ⟨-, -, view, -⟩ | ⟨-, keeps, -⟩⟩
      · exact absurd (gaveUp.symm.trans parts.going) nofun
      · rw [(Path.view_eq view).2]
        exact inside
      · exact inside.trans keeps.longer
    have level' : r.cur.ftsLevel = cur.ftsLevel := by rw [parts.same]
    exact buildEnd_built reliable parts info (Nat.succ_pos _) keeps fun options here => returns level' options here
  · intro dp opened e member
    rw [dirp] at opened
    cases opened
    exact (roomy e member).1

/-- The entry above has the numbers of its directory. -/
def Recorded (parents : List (Ftsent × List Ftsent)) (ds : List env.fs.Node) : Prop :=
  ∀ u ∈ ds.head?, ∃ q, parent parents = some q ∧ q.ftsStatp.devIno = (env.fs.stat u).devIno

include reliable in
theorem buildReturn_here {parents : List (Ftsent × List Ftsent)} (plain : Plain sp.ftsOptions)
    (here : Here sp start (dir :: ds) dirs) (level : p.ftsLevel = ds.length) (recorded : Recorded parents ds) :
    Ends fails (fun lost sp' => (lost = false ∧ Here sp' start ds dirs) ∧ Still sp sp') (buildReturn p parents) sp := by
  apply Still.of_ends (buildReturn_aside p parents) (buildReturn_spares p parents)
  unfold buildReturn
  cases ds with
  | nil =>
    rw [if_pos (show p.ftsLevel = rootLevel from level)]
    exact restoreInitialCwd_here reliable plain here
  | cons u us =>
    obtain ⟨q, above, same⟩ := recorded u rfl
    rw [if_neg (by rw [level, rootLevel, List.length_cons]; omega)]
    exact changedirUp_here reliable plain here above same

include reliable in
private theorem buildOpen_opens {parents : List (Ftsent × List Ftsent)} {c : env.fs.Node}
    (plain : Plain sp.ftsOptions)
    (here : Here sp start ds dirs) (closed : cur.ftsDirp = none) (info : cur.ftsInfo = .d)
    (found : env.fs.resolve (Here.pivot sp.ftsOptions start ds) (sp.accpath cur)
      (sp.ftsOptions.comfollow && cur.ftsLevel == rootLevel) = .ok c) (directory : (env.fs.stat c).stMode = some .directory) :
    Ends fails (fun r sp' => ∃ n : ℕ, r = (some (n : ℤ), { cur with ftsDirp := some ⟨n, env.fs.entries c⟩ }) ∧
      n ∉ sp.kernel.fds.numbers ∧ Leaves (sp.kernel.fds.insert n c) sp sp' ∧ Untouched sp sp') (buildOpen cur parents) sp := by
  unfold buildOpen
  rw [closed]
  apply Ends.get_bind
  have flag : (!(sp.ftsOptions.physical && !(sp.ftsOptions.comfollow && cur.ftsLevel == rootLevel))) =
      (sp.ftsOptions.comfollow && cur.ftsLevel == rootLevel) := by
    rw [plain.physical, Bool.true_and, Bool.not_not]
  dsimp only
  rw [flag]
  apply Ends.bind ((opendirat_spec reliable here.base.2 found directory).and (opendirat_spares _ _ _ sp))
  rintro _ t ⟨⟨n, rfl, unused, opens⟩, untouched⟩
  have other : ¬ (cur.ftsInfo = .nsok ∨ sp.ftsOptions.tightCycleCheck = true) := by
    rw [info, plain.tight]
    rintro (asked | asked) <;> cases asked
  dsimp only
  rw [if_neg other]
  exact ⟨n, rfl, unused, opens, untouched⟩

include reliable in
/-- A directory that is opened. -/
theorem ftsBuild_first {parents : List (Ftsent × List Ftsent)} {c : env.fs.Node} (plain : Plain sp.ftsOptions)
    (here : Here sp start ds dirs) (closed : cur.ftsDirp = none)
    (found : env.fs.resolve (Here.pivot sp.ftsOptions start ds) (sp.accpath cur)
      (sp.ftsOptions.comfollow && cur.ftsLevel == rootLevel) = .ok c) (directory : (env.fs.stat c).stMode = some .directory)
    (chain : (c :: ds).IsChain (Climbs env.fs)) (level : cur.ftsLevel = ds.length) (recorded : Recorded parents ds)
    (reading : Reading sp.ftsOptions start c path (env.fs.entries c) cur sp) :
    Ends fails (fun s sp' => Built start c ds ds dirs cur (batch sp.ftsOptions env.maxEntries (env.fs.entries c) [])
      s sp' ∧ sp'.ftsOptions = sp.ftsOptions ∧ Untouched sp sp') (ftsBuild cur parents) sp := by
  unfold ftsBuild
  apply Ends.bind (buildOpen_opens reliable plain here closed reading.info found directory)
  rintro _ t ⟨n, rfl, unused, opens, untouched⟩
  rw [closed]
  have options : t.ftsOptions = sp.ftsOptions := opens.kept.options
  have there : t.kernel.fds.find n = some c := by rw [opens.fds, Descriptors.find_insert_self]
  have clean : Path.Clean { cur with ftsDirp := some ⟨n, env.fs.entries c⟩ } := by
    rintro dp ⟨⟩ e member
    exact (reading.roomy e member).1
  have descends : Ends fails _ (buildDescend { cur with ftsDirp := some ⟨n, env.fs.entries c⟩ } n) t :=
    buildDescend_here reliable (options ▸ plain) (here.insert unused opens) there chain
  apply Ends.bind ((descends.and (Path.buildDescend_within (Int.natCast_nonneg n) clean)).and (buildDescend_spares _ _ t))
  rintro _ u ⟨⟨⟨rfl, here⟩, ⟨-, -, view⟩, -⟩, untouched'⟩
  have options' : u.ftsOptions = sp.ftsOptions := (Path.view_eq view).1.options.trans options
  have bytes : u.ftsPath = sp.ftsPath := (Path.view_eq view).2.trans opens.kept.path
  have reading' : Reading sp.ftsOptions start c path (env.fs.entries c) { cur with ftsDirp := some ⟨n, env.fs.entries c⟩ } u :=
    ⟨reading.logical, reading.leads, reading.roomy, reading.length, reading.nonempty, bytes ▸ reading.shown,
      bytes ▸ reading.small, reading.level, reading.info⟩
  have returns : ∀ {q : Ftsent} {v : FTS env}, q.ftsLevel = cur.ftsLevel → v.ftsOptions = sp.ftsOptions →
      Here v start (c :: ds) dirs → Ends fails (fun lost w => lost = false ∧ Here w start ds dirs ∧ w.ftsOptions = sp.ftsOptions)
        (buildReturn q parents) v := by
    intro q v level' options here
    apply (buildReturn_here reliable (options ▸ plain) here (level'.trans level) recorded).mono
    rintro lost w ⟨⟨back, here⟩, still⟩
    exact ⟨back, here, still.options.trans options⟩
  apply ((buildRest_built reliable reading' rfl options' here returns).and (buildRest_spares _ _ _ _ u)).mono
  rintro r v ⟨⟨built, options⟩, untouched''⟩
  have untouched := untouched.trans untouched'
  exact ⟨built.of_opened, options, untouched.trans untouched''⟩

include reliable in
/-- The next part of a directory that is open. -/
theorem ftsBuild_next {parents : List (Ftsent × List Ftsent)} {fd : ℕ} {rest : List Dirent}
    (here : Here sp start (dir :: ds) (fd :: dirs)) (dirp : cur.ftsDirp = some ⟨fd, rest⟩)
    (reading : Reading sp.ftsOptions start dir path rest cur sp) :
    Ends fails (fun s sp' => Built start dir ds (dir :: ds) dirs cur (batch sp.ftsOptions env.maxEntries rest [])
      s sp' ∧ sp'.ftsOptions = sp.ftsOptions ∧ Untouched sp sp') (ftsBuild cur parents) sp := by
  have opens : Ends fails (fun r t => r = (some (fd : ℤ), cur) ∧ Leaves sp.kernel.fds sp t ∧ Untouched sp t)
      (buildOpen cur parents) sp := by
    unfold buildOpen
    rw [dirp]
    apply Ends.bind ((dirfd_spec reliable).and (dirfd_spares _ sp))
    rintro _ t ⟨⟨rfl, same⟩, untouched⟩
    rw [if_neg (Int.not_lt.mpr (Int.natCast_nonneg _))]
    exact ⟨rfl, same, untouched⟩
  unfold ftsBuild
  apply Ends.bind opens
  rintro _ t ⟨rfl, same, untouched⟩
  have reading' : Reading sp.ftsOptions start dir path rest cur t :=
    { reading with shown := same.kept.path ▸ reading.shown, small := same.kept.path ▸ reading.small }
  have stays : ∀ {q : Ftsent} {v : FTS env}, q.ftsLevel = cur.ftsLevel → v.ftsOptions = sp.ftsOptions →
      Here v start (dir :: ds) dirs → Ends fails (fun lost w => lost = false ∧ Here w start (dir :: ds) dirs ∧
        w.ftsOptions = sp.ftsOptions) (if false then buildReturn q parents else pure false) v :=
    fun _ options here => ⟨rfl, here, options⟩
  simp only [dirp, Option.isSome_some, ↓reduceIte]
  apply ((buildRest_built reliable reading' dirp same.kept.options (here.same same) stays).and (buildRest_spares _ _ _ _ t)).mono
  rintro r v ⟨⟨built, options⟩, untouched'⟩
  exact ⟨built.of_opened, options, untouched.trans untouched'⟩

end Unfailing

end Yalibct.Fts.Visit
