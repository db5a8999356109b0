import Yalibct.Soundness.FtsPathWalk
import Yalibct.Soundness.FtsRing

/-! # Paths over whole traversals

A stream that `fts_open` returns is before its roots, which fit the path buffer; `fts_set` moves nothing.
So all writes to the buffer are inside of it, whatever fails, and each entry that is returned is found there
at its path.
-/

namespace Yalibct.Fts.Path

open Machine

variable {env : Env} {sp sp' : FTS env} {exact : Prop} {args : ℕ → Option (List UInt8)}
variable {parents : List (Ftsent × List Ftsent)} {above path : List UInt8} {p : Ftsent} {pos : Position} {link : List Ftsent}
variable {size : ℕ}

/-! ## `fts_set` -/

/-- A change to entries that leaves each of them where it is. -/
structure Idle (f : Ftsent → Ftsent) : Prop where
  stays : ∀ p, Stays p (f p)
  dirp : ∀ p, (f p).ftsDirp = p.ftsDirp
  info : ∀ p, (f p).ftsInfo = p.ftsInfo

/-- The entries above, after a change to all of them. -/
def changed (f : Ftsent → Ftsent) (parents : List (Ftsent × List Ftsent)) : List (Ftsent × List Ftsent) :=
  parents.map fun (p, link) => (f p, link.map f)

section Changes

variable {f : Ftsent → Ftsent} (idle : Idle f)

include idle

theorem Idle.clean (clean : Clean p) : Clean (f p) := clean.same (idle.dirp p)

theorem Idle.unread (unread : Unread exact args size p) : Unread exact args size (f p) := by
  obtain ⟨address, name, level, -, -⟩ := idle.stays p
  refine ⟨level.trans unread.level, ?_, ?_, ?_, idle.clean unread.clean⟩
  · rw [name]
    exact unread.room
  · rw [address, name]
    exact unread.argument
  · rw [name, idle.info]
    exact unread.empty

theorem Idle.listing (listed : Listing exact args size parents path p) :
    Listing exact args size (changed f parents) path (f p) := by
  cases parents with
  | nil => exact idle.unread listed
  | cons entry parents => exact ⟨listed.1.stays (idle.stays p), idle.clean listed.2⟩

theorem Idle.listings (listed : ∀ p ∈ link, Listing exact args size parents path p) :
    ∀ p ∈ link.map f, Listing exact args size (changed f parents) path p :=
  List.forall_mem_map.mpr fun p member => idle.listing (listed p member)

theorem Idle.sits (sits : Sits exact args size parents above path p) :
    Sits exact args size (changed f parents) above path (f p) := by
  obtain ⟨length, room, first, below, clean⟩ := sits.stays (idle.stays p) (idle.clean sits.clean)
  refine ⟨length, room, fun outer => first (List.map_eq_nil_iff.mp outer), fun inner => below ?_, clean⟩
  rintro rfl
  exact inner rfl

theorem Idle.stack (stack : Stack exact args size parents path) : Stack exact args size (changed f parents) path := by
  induction parents generalizing path with
  | nil => exact stack
  | cons entry parents ih =>
    obtain ⟨nonempty, above, stack, sits, link⟩ := stack
    exact ⟨nonempty, above, ih stack, idle.sits sits, idle.listings link⟩

theorem Idle.shows {bytes : List UInt8} (shows : Shows exact args bytes pos) :
    Shows exact args bytes ⟨f pos.cur, pos.link.map f, changed f pos.parents⟩ := by
  obtain ⟨small, above, path, stack, listed, sits, shown, empty⟩ := shows
  refine ⟨small, above, path, idle.stack stack, idle.listings listed, idle.sits sits, shown, fun none => ?_⟩
  rw [(idle.stays pos.cur).accpath, idle.info]
  exact empty none

end Changes

private theorem idle_instr (address : ℕ) (instr : Instr) :
    Idle fun p => if p.address = address then { p with ftsInstr := instr } else p := by
  constructor
  · intro p
    split_ifs
    · exact ⟨rfl, rfl, rfl, rfl, rfl⟩
    · exact .refl p
  all_goals
    intro p
    split_ifs
    · rfl
    · rfl

private theorem ftsSet_within {address : ℕ} {instr : ℤ} (fits : Fits exact args sp)
    (read : ∀ pos, sp.ftsCur = some pos → pos.cur.ftsInfo ≠ .init) :
    Within (fun _ sp' => Alike sp sp' ∧ Fits exact args sp') (ftsSet address instr) sp := by
  unfold ftsSet
  split
  · exact ⟨.of_same rfl, fits⟩
  · rename_i i known
    refine ⟨.of_same rfl, fun going pos member => .inr ?_⟩
    obtain ⟨old, cur, rfl⟩ := Option.map_eq_some_iff.mp member
    rcases fits going old cur with starts | shows
    · exact absurd starts.info (read old cur)
    · exact (idle_instr address i).shows shows

/-! ## `fts_open` -/

/-- Requests are counted. -/
def Later {α : Type} (x : Action env α) : Prop :=
  ∀ sp, Ends (fun _ _ => True) (fun _ sp' => sp.kernel.now ≤ sp'.kernel.now) x sp

namespace Later

variable {α β : Type} {x : Action env α} {f : α → Action env β}

theorem bind (first : Later x) (rest : ∀ a, Later (f a)) : Later (x >>= f) := fun sp =>
  (first sp).bind fun a t before => (rest a t).mono fun _ _ after => before.trans after

theorem pure (a : α) : Later (pure a : Action env α) := fun _ => Nat.le_refl _

theorem get : Later (MonadState.get : Action env (FTS env)) := fun _ => Nat.le_refl _

theorem setErrno (errno : Errno) : Later (setErrno errno : Action env Unit) := fun _ => Nat.le_refl _

theorem getErrno : Later (getErrno : Action env Errno) := fun _ => Nat.le_refl _

theorem request : Later (request : Action env (Option Errno)) := fun _ => Nat.le_succ _

theorem fstatat (fd : ℤ) (path : List UInt8) (follow : Bool) :
    Later (fstatat fd path follow : Action env (Option Stat)) := by
  have refused : ∀ errno : Errno, Later (do
      Fts.setErrno errno
      return none : Action env (Option Stat)) := fun errno => (setErrno errno).bind fun _ => pure _
  apply request.bind
  rintro (_ | errno)
  · apply Later.bind
    · exact fun _ => Nat.le_refl _
    rintro (_ | dir)
    · exact refused .ebadf
    · dsimp only
      split
      · exact refused _
      · exact pure _
  · exact refused errno

theorem ftsStat (p : Ftsent) (follow : Bool) : Later (ftsStat p follow : Action env Ftsent) := by
  apply get.bind
  intro sp
  apply (fstatat _ _ _).bind
  rintro (_ | sb)
  · apply Later.bind
    · apply getErrno.bind
      intro errno
      split_ifs
      · exact fstatat _ _ _
      · exact pure _
    rintro (_ | sb)
    · exact getErrno.bind fun _ => pure _
    · exact (setErrno 0).bind fun _ => pure _
  · exact pure _

end Later

/-- The name of a new entry is the number of a request. -/
theorem ftsAlloc_fresh (name : List UInt8) :
    Ends (fun _ _ => True) (fun r sp' => ∀ p, r = some p → p.address = sp.kernel.now ∧ sp.kernel.now < sp'.kernel.now)
      (ftsAlloc name) sp := by
  have counts : Ends (fun _ _ => True) (fun _ sp' => sp.kernel.now < sp'.kernel.now)
      (granted (ftsentSize name.length)) sp := by
    have got : Ends (fun _ _ => True) (fun _ sp' => sp.kernel.now < sp'.kernel.now) allocated sp := by
      have asked : Ends (fun _ _ => True) (fun _ t => sp.kernel.now < t.kernel.now) request sp := Nat.lt_succ_self _
      apply asked.bind
      rintro (_ | errno) t later
      · exact later
      · exact later
    apply got.bind
    intro enough t later
    split_ifs
    · exact later
    · exact later
  apply Ends.get_bind
  apply counts.bind
  intro enough t later
  split_ifs
  · rintro p ⟨⟩
    exact ⟨rfl, later⟩
  · rintro p ⟨⟩

/-- What the entry of an argument is called. -/
def argument (o : Options) (v : List UInt8) : List UInt8 := if o.verbatim then v else trimSlashes v

private theorem length_trimSlashes_le (v : List UInt8) : (trimSlashes v).length ≤ v.length := by
  unfold trimSlashes
  split_ifs with slashes
  · obtain ⟨front, rfl⟩ := List.getLast?_eq_some_iff.mp slashes.2
    have shorter := (List.dropWhile_suffix (· == slash) (l := front.reverse)).length_le
    have last : ([slash].reverse ++ front.reverse).dropWhile (· == slash) = front.reverse.dropWhile (· == slash) := rfl
    rw [List.length_reverse] at shorter
    rw [List.reverse_append, last, List.length_reverse, List.length_cons, List.length_append, List.length_singleton]
    omega
  · exact Nat.le_refl _

private theorem length_argument_le (o : Options) (v : List UInt8) : (argument o v).length ≤ v.length := by
  unfold argument
  split_ifs
  · exact Nat.le_refl _
  · exact length_trimSlashes_le v

private theorem length_lt_ftsMaxarglen {argv : List (List UInt8)} {v : List UInt8} (member : v ∈ argv) :
    v.length < ftsMaxarglen argv := by
  have bound : ∀ len : ℕ, len ≤ argv.foldl (fun len arg => max len arg.length) len ∧
      ∀ v ∈ argv, v.length ≤ argv.foldl (fun len arg => max len arg.length) len := by
    clear member
    induction argv with
    | nil => exact fun len => ⟨Nat.le_refl _, List.forall_mem_nil _⟩
    | cons arg argv ih =>
      intro len
      obtain ⟨before, after⟩ := ih (max len arg.length)
      refine ⟨(Nat.le_max_left ..).trans before, List.forall_mem_cons.mpr ⟨?_, after⟩⟩
      exact (Nat.le_max_right ..).trans before
  exact Nat.lt_succ_of_le ((bound 0).2 v member)

private theorem ftsMaxarglen_le {argv : List (List UInt8)} {most : ℕ} (shorter : ∀ v ∈ argv, v.length ≤ most) :
    ftsMaxarglen argv ≤ most + 1 := by
  have bound : ∀ len ≤ most, argv.foldl (fun len arg => max len arg.length) len ≤ most := by
    induction argv with
    | nil => exact fun len small => small
    | cons arg argv ih =>
      intro len small
      obtain ⟨first, shorter⟩ := List.forall_mem_cons.mp shorter
      exact ih shorter _ (Nat.max_le.mpr ⟨small, first⟩)
  exact Nat.succ_le_succ (bound 0 (Nat.zero_le _))

/-- A root that is not yet loaded. -/
structure Loadable (size : ℕ) (p : Ftsent) : Prop where
  level : p.ftsLevel = rootLevel
  room : p.ftsName.length < size
  empty : p.ftsName = [] → p.ftsInfo ≠ .d
  closed : p.ftsDirp = none

/-- The entries of these names, with different numbers before the ones to come. -/
structure Roots (size now : ℕ) (names : List (List UInt8)) (roots : List Ftsent) : Prop where
  loadable : ∀ p ∈ roots, Loadable size p
  before : ∀ p ∈ roots, p.address < now
  distinct : (roots.map Ftsent.address).Nodup
  named : (roots.map Ftsent.ftsName).Perm names

theorem Roots.later {now now' : ℕ} {names : List (List UInt8)} (roots : Roots size now names link) (later : now ≤ now') :
    Roots size now' names link := { roots with before := fun p member => (roots.before p member).trans_le later }

theorem Roots.perm {now : ℕ} {names : List (List UInt8)} (roots : Roots size now names link) {link' : List Ftsent}
    (perm : link'.Perm link) : Roots size now names link' := by
  refine ⟨fun p member => ?_, fun p member => ?_, ?_, (perm.map _).trans roots.named⟩
  · exact roots.loadable p (perm.mem_iff.mp member)
  · exact roots.before p (perm.mem_iff.mp member)
  · exact ((perm.map _).nodup_iff).mpr roots.distinct

/-- Another root, in front. -/
theorem Roots.cons {now now' : ℕ} {names : List (List UInt8)} (roots : Roots size now names link)
    (loadable : Loadable size p) (address : p.address = now) (later : now < now') : Roots size now' (p.ftsName :: names) (p :: link) := by
  refine ⟨List.forall_mem_cons.mpr ⟨loadable, roots.loadable⟩, ?_, ?_, roots.named.cons _⟩
  · exact List.forall_mem_cons.mpr ⟨address ▸ later, fun q member => (roots.before q member).trans later⟩
  · refine List.nodup_cons.mpr ⟨fun member => ?_, roots.distinct⟩
    obtain ⟨q, listed, same⟩ := List.mem_map.mp member
    exact absurd (roots.before q listed) (by omega)

section Opening

variable (unresolved : Unresolved env.fs)

include unresolved in
private theorem openRoots_within {argv : List (List UInt8)} {root : List Ftsent} {names : List (List UInt8)}
    (room : ∀ v ∈ argv, v.length < size) (roots : Roots size sp.kernel.now names root) :
    Within (fun r sp' => sp'.view = sp.view ∧ ∀ listed, r = some listed →
      Roots size sp'.kernel.now (names ++ argv.map (argument sp.ftsOptions)) listed) (openRoots argv root) sp := by
  induction argv generalizing sp root names with
  | nil =>
    refine ⟨rfl, ?_⟩
    rintro _ ⟨⟩
    rw [List.map_nil, List.append_nil]
    exact roots
  | cons v argv ih =>
    obtain ⟨first, room⟩ := List.forall_mem_cons.mp room
    apply Ends.get_bind
    change Within _ (ftsAlloc (argument sp.ftsOptions v) >>= _) sp
    apply Ends.bind ((ftsAlloc_gives _ sp).and (ftsAlloc_fresh _))
    rintro new t ⟨⟨made, view⟩, fresh⟩
    obtain ⟨apart, -⟩ := view_eq view
    cases new with
    | none => exact ⟨view, fun _ absent => absurd absent nofun⟩
    | some p =>
      obtain ⟨name, closed, -⟩ := made p rfl
      obtain ⟨address, later⟩ := fresh p rfl
      have others : ∀ {u : FTS env} {q : Ftsent}, u.view = sp.view → t.kernel.now ≤ u.kernel.now → Loadable size q →
          q.address = p.address → q.ftsName = p.ftsName →
          Within (fun r sp' => sp'.view = sp.view ∧ ∀ listed, r = some listed →
              Roots size sp'.kernel.now (names ++ (v :: argv).map (argument sp.ftsOptions)) listed)
          (openRoots argv (if env.compar.isSome then q :: root else root ++ [q])) u := by
        intro u q view later' loadable same called
        have options : u.ftsOptions = sp.ftsOptions := (view_eq view).1.options
        have first := roots.cons loadable (same.trans address) (later.trans_le later')
        rw [called, name] at first
        have front : Roots size u.kernel.now (names ++ [argument sp.ftsOptions v]) (q :: root) :=
          { first with named := first.named.trans (List.perm_append_singleton _ _).symm }
        have roots' : Roots size u.kernel.now (names ++ [argument sp.ftsOptions v])
            (if env.compar.isSome then q :: root else root ++ [q]) := by
          split_ifs
          · exact front
          · exact front.perm (List.perm_append_singleton q root)
        apply (ih room roots').mono
        rintro r w ⟨view', listed⟩
        refine ⟨view'.trans view, fun l result => ?_⟩
        rw [List.map_cons, ← List.singleton_append, ← List.append_assoc, ← options]
        rw [← options] at listed
        exact listed l result
      have short : p.ftsName.length < size := by
        rw [name]
        exact (length_argument_le _ v).trans_lt first
      dsimp only
      split
      · exact others view (Nat.le_refl _) ⟨rfl, short, fun _ => nofun, closed⟩ rfl rfl
      · apply Ends.bind ((ftsStat_within unresolved).and (Later.ftsStat _ _ t))
        rintro q u ⟨⟨stays, dirp, view', info⟩, later'⟩
        refine others (view'.trans view) later' ⟨stays.level, ?_, fun none => info ?_, dirp.trans closed⟩ stays.address
          stays.name
        · rw [stays.name]
          exact short
        · exact stays.name.symm.trans none

/-- What `fts_open` returns: a stream that is before the roots of these names. -/
structure Begun (names : List (List UInt8)) (sp : FTS env) : Prop where
  small : sp.ftsPath.length ≤ ptrdiffMax
  nochdir : sp.ftsOptions.nochdir = true → sp.ftsOptions.cwdfd = false
  begins : ∃ first roots, sp.ftsCur = some ⟨first, roots, []⟩ ∧ first.ftsInfo = .init ∧ first.ftsInstr = .noInstr ∧
    ∃ now, Roots sp.ftsPath.length now names roots

private theorem openRfd_within (nochdir : sp.ftsOptions.nochdir = true → sp.ftsOptions.cwdfd = false) :
    Within (fun _ sp' => sp'.ftsCur = sp.ftsCur ∧ sp'.ftsPath = sp.ftsPath ∧
      (sp'.ftsOptions.nochdir = true → sp'.ftsOptions.cwdfd = false)) openRfd sp := by
  apply Ends.get_bind
  dsimp only
  split_ifs with inside
  · apply Ends.bind (diropen_aside [46] sp)
    rintro rfd t ⟨-, view⟩
    obtain ⟨apart, bytes⟩ := view_eq view
    refine ⟨apart.cur, bytes, fun _ => ?_⟩
    change t.ftsOptions.cwdfd = false
    rw [apart.options]
    exact Bool.not_eq_true' _ ▸ (Bool.and_eq_true _ _ ▸ inside).2
  · exact ⟨rfl, rfl, nochdir⟩

private theorem openFirst_within {names : List (List UInt8)} {roots : List Ftsent} {now : ℕ}
    (small : sp.ftsPath.length ≤ ptrdiffMax) (nochdir : sp.ftsOptions.nochdir = true → sp.ftsOptions.cwdfd = false)
    (listed : Roots sp.ftsPath.length now names roots) :
    Within (fun r sp' => r = true → Begun names sp') (openFirst roots) sp := by
  have instr : Gives (fun r => ∀ p, r = some p → p.ftsInstr = .noInstr) (ftsAlloc [] : Action env (Option Ftsent)) := by
    apply Preserves.bind .get
    intro t _
    apply Preserves.bind (granted_aside _)
    intro got _
    split_ifs
    · apply Preserves.pure
      rintro _ ⟨⟩
      rfl
    · apply Preserves.pure
      rintro _ ⟨⟩
  apply Ends.bind (instr sp)
  rintro new t ⟨fresh, view⟩
  obtain ⟨apart, bytes⟩ := view_eq view
  cases new with
  | none => exact nofun
  | some cur =>
    apply Ends.modify_bind
    apply Ends.bind (setupDir_aside _)
    rintro success u ⟨-, view'⟩
    obtain ⟨apart', bytes'⟩ := view_eq view'
    cases success with
    | false => exact nofun
    | true =>
      have options : u.ftsOptions = sp.ftsOptions := apart'.options.trans apart.options
      have bytes : u.ftsPath = sp.ftsPath := bytes'.trans bytes
      refine Ends.bind (openRfd_within (options ▸ nochdir)) fun _ v kept => ?_
      obtain ⟨current, same, nochdir⟩ := kept
      have same : v.ftsPath = sp.ftsPath := same.trans bytes
      refine fun _ => ⟨?_, nochdir, _, roots, current.trans apart'.cur, rfl, fresh cur rfl, now, ?_⟩
      · change v.ftsPath.length ≤ ptrdiffMax
        rw [same]
        exact small
      · change Roots v.ftsPath.length now names roots
        rw [same]
        exact listed

include unresolved in
theorem ftsOpen_within {argv : List (List UInt8)} {options : Options} {kernel : Kernel env.fs.Node}
    (objects : ∀ v ∈ argv, v.length < ptrdiffMax) :
    Within (fun r sp' => r = true → Begun (argv.map (argument options)) sp') (ftsOpen argv) (blank options kernel) := by
  apply Ends.get_bind
  change Within _ (if options.nochdir ∧ options.cwdfd ∨ ¬ (options.logical ∨ options.physical) then _ else _) _
  split_ifs with refused
  · exact .bind (setErrno_aside _ _) fun _ t _ => nofun
  · apply Ends.bind (allocated_aside _)
    rintro got t ⟨-, view⟩
    obtain ⟨apart, bytes⟩ := view_eq view
    split_ifs
    · have opened : options.opened.nochdir = true → options.opened.cwdfd = false := by
        unfold Options.opened
        split_ifs
        · exact fun _ => rfl
        · exact fun nochdir => Bool.eq_false_iff.mpr fun cwdfd => (not_or.mp refused).1 ⟨nochdir, cwdfd⟩
      have named : argument options.opened = argument options := by
        unfold Options.opened
        split_ifs
        · rfl
        · rfl
      have bound : max (ftsMaxarglen argv) maxpathlen + 256 < 2 ^ 64 := by
        have longest := ftsMaxarglen_le fun v member => (objects v member).le
        rw [maxpathlen]
        rw [ptrdiffMax] at longest
        omega
      apply Ends.modify_bind
      apply Ends.bind (ftsPalloc_within ?_ bound)
      · rintro room u ⟨apart', grown⟩
        cases room with
        | false => exact nofun
        | true =>
          obtain ⟨-, longer, small⟩ := grown rfl
          have options' : u.ftsOptions = options.opened := by
            rw [apart'.options]
            change t.ftsOptions.opened = _
            rw [apart.options]
            rfl
          have room : ∀ arg ∈ argv, arg.length < u.ftsPath.length := by
            intro arg member
            have shorter := length_lt_ftsMaxarglen member
            omega
          have more : Aside env (openParent argv) := by
            unfold openParent
            grind
          apply Ends.bind (more u)
          rintro parent v ⟨-, view⟩
          cases parent with
          | false => exact nofun
          | true =>
            apply Ends.bind (openRoots_within unresolved room ⟨List.forall_mem_nil _, List.forall_mem_nil _, .nil, .nil⟩)
            rintro roots w ⟨view', listed⟩
            cases roots with
            | none => exact nofun
            | some roots =>
              apply Ends.bind (ftsSortGiven_gives roots w)
              rintro sorted x ⟨perm, view''⟩
              obtain ⟨kept, bytes'⟩ := view_eq ((view''.trans view').trans view)
              have listed := listed roots rfl
              rw [(view_eq view).1.options, options', named, ← show x.ftsPath = u.ftsPath from bytes'] at listed
              refine openFirst_within ?_ ?_ (listed.perm perm)
              · rw [bytes']
                exact small
              · rw [kept.options, options']
                exact opened
      · change t.ftsPath.length ≤ ptrdiffMax
        rw [bytes]
        exact Nat.zero_le _
    · exact nofun

end Opening

/-! ## Between two calls -/

theorem Begun.fits {names : List (List UInt8)} (begun : Begun names sp)
    (rooted : exact → ∀ pos, sp.ftsCur = some pos → ∀ p ∈ pos.link, args p.address = some p.ftsName) :
    Fits exact args sp := by
  obtain ⟨first, roots, current, info, instr, now, listed⟩ := begun.begins
  refine fun _ pos member => .inl ?_
  rw [← Option.some.inj (current.symm.trans member)]
  refine ⟨begun.small, info, instr, rfl, fun p root => ?_⟩
  obtain ⟨level, room, empty, closed⟩ := listed.loadable p root
  exact ⟨level, room, fun asked => rooted asked _ current p root, empty, .of_none closed⟩

private theorem step_within (unresolved : Unresolved env.fs) (names : Names env.fs) {call : Call}
    (fits : Fits exact args sp)
    (careful : ∀ r, call = .read r → Careful exact sp (built sp))
    (step : (traversal env).Step sp call sp') : Alike sp sp' ∧ Fits exact args sp' := by
  cases call with
  | read r =>
    have arrives := (ftsRead_within unresolved names fits (careful r rfl)).of_ok step
    exact ⟨arrives.alike, arrives.fits⟩
  | set address instr =>
    obtain ⟨read, r, ran⟩ := step
    exact (ftsSet_within fits read).of_ok ran

/-! ## The way to an entry -/

/-- The number of the root that an entry is below, and the names on the way down from it. -/
def route (p : Ftsent) : List (Ftsent × List Ftsent) → ℕ × List (List UInt8)
  | [] => (p.address, [])
  | (q, _) :: parents => ((route q parents).1, (route q parents).2 ++ [p.ftsName])

/-- The argument of the root at an address, of those that a stream begins with. -/
def rootArg (sp : FTS env) (address : ℕ) : Option (List UInt8) :=
  sp.ftsCur.bind fun pos => (pos.link.find? (·.address = address)).map Ftsent.ftsName

theorem find?_address {roots : List Ftsent} (distinct : (roots.map Ftsent.address).Nodup) (root : p ∈ roots) :
    roots.find? (·.address = p.address) = some p := by
  induction roots with
  | nil => exact absurd root List.not_mem_nil
  | cons q roots ih =>
    obtain ⟨other, distinct⟩ := List.nodup_cons.mp distinct
    rcases List.mem_cons.mp root with rfl | later
    · exact List.find?_cons_of_pos (decide_eq_true rfl)
    · rw [List.find?_cons_of_neg, ih distinct later]
      intro same
      exact other (of_decide_eq_true same ▸ List.mem_map_of_mem later)

/-- An entry is at the argument of its root, followed by the names on the way to it. -/
theorem Sits.route (sits : Sits True args size parents above path p) (stack : Stack True args size parents above) :
    ∃ arg, args (route p parents).1 = some arg ∧ path = (route p parents).2.foldl join arg := by
  induction parents generalizing p above path with
  | nil => exact ⟨path, (sits.first rfl).2 trivial, rfl⟩
  | cons entry parents ih =>
    obtain ⟨-, above', stack, sits', -⟩ := stack
    obtain ⟨arg, root, spelled⟩ := ih sits' stack
    refine ⟨arg, root, ?_⟩
    rw [Path.route, List.foldl_append, List.foldl_cons, List.foldl_nil, ← spelled]
    exact (sits.below nofun).2.2 trivial

/-- No path holds a NUL, if no argument does. -/
theorem Sits.string (sits : Sits True args size parents above path p) (stack : Stack True args size parents above)
    (strings : ∀ address arg, args address = some arg → 0 ∉ arg) : 0 ∉ path := by
  induction parents generalizing p above path with
  | nil => exact strings _ _ ((sits.first rfl).2 trivial)
  | cons entry parents ih =>
    obtain ⟨-, above', stack, sits', -⟩ := stack
    obtain ⟨kid, -, spelled⟩ := sits.below nofun
    rw [spelled trivial, join, List.mem_append, List.mem_cons, not_or, not_or]
    exact ⟨fun member => ih sits' stack (stem_starts.subset member), by decide, kid.proper.string⟩

/-- Reading loses no slash at the end of the path of a directory. -/
def Clear (sp : FTS env) : Prop :=
  ∀ p, built sp = some p → sp.ftsOptions.nochdir = true → sp.ftsPath[p.ftsPathlen - 1]? = some slash → ¬ Blank sp p

/-! ## A directory whose name ends in a slash -/

instance (e : Dirent) : Decidable (Skipped sp e) := inferInstanceAs (Decidable (_ ∧ _))

instance (p : Ftsent) : Decidable (Blank sp p) :=
  inferInstanceAs (Decidable (∃ rest ∈ toRead sp p, ∀ e ∈ rest, Skipped sp e))

instance (sp : FTS env) : Decidable (Clear sp) :=
  inferInstanceAs (Decidable (∀ p ∈ built sp, sp.ftsOptions.nochdir = true →
    sp.ftsPath[p.ftsPathlen - 1]? = some slash → ¬ Blank sp p))

/-- A directory `d`, with a file `f` in it or with nothing. -/
def box (full : Bool) : FileSystem where
  Node := ℕ
  stat n := ⟨1, n, some (if n = 2 then .regular else .directory), 2, 0⟩
  resolve n path _ :=
    if n = 0 ∧ (path = [100] ∨ path = [100, slash]) then .ok 1
    else if n = 0 ∧ full ∧ path = [100, slash, 102] then .ok 2 else .error .enoent
  entries n := if n = 1 ∧ full then [⟨2, none, [102]⟩] else []

def boxEnv (full : Bool) : Env := { chainEnv 0 with fs := box full }

private theorem box_unresolved (full : Bool) : Unresolved (boxEnv full).fs := by
  intro n follow
  exact ⟨.enoent, by simp [boxEnv, box]⟩

private theorem box_names (full : Bool) : Names (boxEnv full).fs := by
  intro n e member
  dsimp only [boxEnv, box] at member
  split_ifs at member
  · rw [List.mem_singleton.mp member]
    exact ⟨by decide, by decide, by decide⟩
  · exact absurd member List.not_mem_nil

/-- The stream of the directory, in `FTS_NOCHDIR` mode. -/
def boxOpened (full : Bool) : Option (FTS (boxEnv full)) :=
  match (ftsOpen [[100, slash]]).run (blank { nochdir := true, physical := true } ⟨0, (0 : ℕ), [], 0, false⟩) with
  | .ok true sp => some sp
  | _ => none

private theorem boxOpened_eq_some {full : Bool} {s : FTS (boxEnv full)} (started : boxOpened full = some s) :
    (ftsOpen [[100, slash]]).run (blank { nochdir := true, physical := true } ⟨0, (0 : ℕ), [], 0, false⟩) = .ok true s := by
  unfold boxOpened at started
  split at started
  · rename_i opened
    cases started
    exact opened
  · cases started

/-- The next entry. -/
def returned (sp : FTS env) : Option (Ftsent × FTS env) :=
  match ftsRead.run sp with
  | .ok (some p) sp => some (p, sp)
  | _ => none

private theorem returned_eq_some (result : returned sp = some (p, sp')) : ftsRead.run sp = .ok (some p) sp' := by
  unfold returned at result
  split at result
  · rename_i read
    cases result
    exact read
  · cases result

/-- So many calls of `fts_read` that lose no slash. -/
def clearReads : ℕ → FTS env → Option (FTS env)
  | 0, sp => some sp
  | n + 1, sp => if Clear sp then (returned sp).bind fun (_, sp) => clearReads n sp else none

private theorem clearReads_run {n : ℕ} (read : clearReads n sp = some sp') :
    ∃ calls, Run ((traversal env).restrict fun sp call => ∀ r, call = .read r → Clear sp) sp calls sp' := by
  induction n generalizing sp with
  | zero =>
    cases read
    exact ⟨[], .done _⟩
  | succ n ih =>
    unfold clearReads at read
    split_ifs at read with clear
    obtain ⟨⟨p, t⟩, first, rest⟩ := Option.bind_eq_some_iff.mp read
    obtain ⟨calls, run⟩ := ih rest
    refine ⟨.read (some p) :: calls, .step ⟨fun _ _ => clear, returned_eq_some first⟩ run⟩

/-! ## Whole runs -/

/-- Every write to the path buffer is inside of it, whatever fails. -/
theorem path_write_in_bounds (unresolved : Unresolved env.fs) (names : Names env.fs) {argv : List (List UInt8)}
    {options : Options} {kernel : Kernel env.fs.Node} (objects : ∀ v ∈ argv, v.length < ptrdiffMax) {s t : FTS env}
    {calls : List Call} (opens : (ftsOpen argv).run (blank options kernel) = .ok true s) (run : Run (traversal env) s calls t) :
    ∀ t', ftsRead.run t ≠ .error .outOfBounds t' := by
  have begun := (ftsOpen_within unresolved objects).of_ok opens rfl
  have fits : Fits False (fun _ => none) t := by
    refine run.invariant (Fits False fun _ => none) ?_ (begun.fits nofun)
    exact fun fits step => (step_within unresolved names fits (fun _ _ asked => asked.elim) step).2
  exact fun t' fails => (ftsRead_within unresolved names fits fun asked => asked.elim).of_error fails rfl

/-- Reading the directory writes inside of the path buffer. -/
theorem box_path_write_in_bounds :
    ∃ t : FTS (boxEnv true), t.path = [100, slash, 102] ∧ ∀ t', ftsRead.run t ≠ .error .outOfBounds t' := by
  have seen : ((boxOpened true).bind fun s => (reads 2 s).map FTS.path) = some [100, slash, 102] := by decide +kernel
  obtain ⟨s, started, seen⟩ := Option.bind_eq_some_iff.mp seen
  obtain ⟨t, read, path⟩ := Option.map_eq_some_iff.mp seen
  obtain ⟨calls, run, -⟩ := reads_run read
  exact ⟨t, path, path_write_in_bounds (box_unresolved true) (box_names true) (by decide) (boxOpened_eq_some started) run⟩

/-- What holds between two calls that lose no slash. -/
structure Between (args : ℕ → Option (List UInt8)) (sp : FTS env) : Prop where
  fits : Fits True args sp
  nochdir : sp.ftsOptions.nochdir = true → sp.ftsOptions.cwdfd = false

/-- In every run that reads no directory in `FTS_NOCHDIR` mode where nothing is to be found and whose path
ends in a slash, the path of each entry that is returned is the argument of its root, followed by the names on the way to
it. -/
theorem path_spells_route (unresolved : Unresolved env.fs) (names : Names env.fs) (reliable : env.Reliable)
    {argv : List (List UInt8)} {options : Options} {kernel : Kernel env.fs.Node}
    (objects : ∀ v ∈ argv, v.length < ptrdiffMax) (strings : ∀ v ∈ argv, 0 ∉ v) {s : FTS env}
    (opens : (ftsOpen argv).run (blank options kernel) = .ok true s) :
    (∃ pos, s.ftsCur = some pos ∧ (pos.link.map Ftsent.address).Nodup ∧
      (pos.link.map Ftsent.ftsName).Perm (argv.map (argument options))) ∧
    ∀ calls t p t', Run ((traversal env).restrict fun sp call => ∀ r, call = .read r → Clear sp) s calls t → Clear t →
      ftsRead.run t = .ok (some p) t' → ∃ pos arg, t'.ftsCur = some pos ∧ pos.cur = p ∧
        rootArg s (route p pos.parents).1 = some arg ∧ t'.path = (route p pos.parents).2.foldl join arg ∧
        p.ftsPathlen = t'.path.length ∧ t'.ftsPath[p.ftsPathlen]? = some 0 := by
  have begun := (ftsOpen_within unresolved objects).of_ok opens rfl
  obtain ⟨first, roots, current, -, -, now, listed⟩ := begun.begins
  have rooted : ∀ pos, s.ftsCur = some pos → ∀ p ∈ pos.link, rootArg s p.address = some p.ftsName := by
    intro pos member p root
    rw [← Option.some.inj (current.symm.trans member)] at root
    rw [rootArg, current, Option.bind_some, find?_address listed.distinct root]
    rfl
  have strings : ∀ address arg, rootArg s address = some arg → 0 ∉ arg := by
    intro address arg root
    rw [rootArg, current, Option.bind_some] at root
    obtain ⟨p, found, rfl⟩ := Option.map_eq_some_iff.mp root
    have named := listed.named.mem_iff.mp (List.mem_map_of_mem (List.mem_of_find?_eq_some found))
    obtain ⟨v, member, called⟩ := List.mem_map.mp named
    rw [← called, argument]
    split_ifs
    · exact strings v member
    · exact fun nul => strings v member (mem_trimSlashes nul (by decide))
  refine ⟨⟨_, current, listed.distinct, listed.named⟩, fun calls t p t' run clear ran => ?_⟩
  obtain ⟨fits, nochdir⟩ : Between (rootArg s) t := by
    refine run.invariant (Between (rootArg s)) ?_ ⟨begun.fits fun _ => rooted, begun.nochdir⟩
    rintro sp call sp' ⟨fits, nochdir⟩ ⟨clear, step⟩
    obtain ⟨alike, fits⟩ := step_within unresolved names fits (fun r read _ => ⟨reliable, nochdir, clear r read⟩) step
    refine ⟨fits, ?_⟩
    rw [alike]
    exact nochdir
  have arrives := (ftsRead_within unresolved names fits fun _ => ⟨reliable, nochdir, clear⟩).of_ok ran
  obtain ⟨pos, current, cur, -, above, path, stack, -, sits, shown, -⟩ := arrives.shows p rfl
  obtain ⟨arg, root, spelled⟩ := sits.route stack
  have string := FTS.path_eq shown (sits.string stack strings)
  refine ⟨pos, arg, current, cur, cur ▸ root, cur ▸ string.trans spelled, ?_, ?_⟩
  · rw [← cur, sits.length, string]
  · obtain ⟨rest, bytes⟩ := shown
    rw [← cur, sits.length, ← bytes, List.append_assoc, List.getElem?_append_right (Nat.le_refl _), Nat.sub_self]
    rfl

/-- The slash gets lost when nothing is found in the directory, and `fts_pathlen` is too long. -/
theorem box_path_not_kept :
    ∃ (s t t' : FTS (boxEnv false)) (p q : Ftsent),
      (ftsOpen [[100, slash]]).run (blank { nochdir := true, physical := true } ⟨0, (0 : ℕ), [], 0, false⟩) = .ok true s ∧
      rootArg s q.address = some [100, slash] ∧
      ftsRead.run s = .ok (some p) t ∧ p.address = q.address ∧ p.ftsInfo = .d ∧ t.path = [100, slash] ∧
      ftsRead.run t = .ok (some q) t' ∧ q.ftsInfo = .dp ∧ t'.path = [100] ∧ q.ftsPathlen = 2 := by
  have seen : ((boxOpened false).bind fun s => (returned s).bind fun (p, t) => (returned t).map fun (q, t') => decide
      (rootArg s q.address = some [100, slash] ∧ p.address = q.address ∧ p.ftsInfo = .d ∧ t.path = [100, slash] ∧
        q.ftsInfo = .dp ∧ t'.path = [100] ∧ q.ftsPathlen = 2)) = some true := by decide +kernel
  obtain ⟨s, started, seen⟩ := Option.bind_eq_some_iff.mp seen
  obtain ⟨⟨p, t⟩, first, seen⟩ := Option.bind_eq_some_iff.mp seen
  obtain ⟨⟨q, t'⟩, second, seen⟩ := Option.map_eq_some_iff.mp seen
  obtain ⟨root, same, before, path, after, path', length⟩ := of_decide_eq_true seen
  exact ⟨s, t, t', p, q, boxOpened_eq_some started, root, returned_eq_some first, same, before, path,
    returned_eq_some second, after, path', length⟩

/-- With a file in the directory, the slash is there when it is left. -/
theorem box_path_spells_route :
    ∃ (s t' : FTS (boxEnv true)) (p : Ftsent) (pos : Position) (arg : List UInt8),
      p.ftsInfo = .dp ∧ t'.path = [100, slash] ∧ t'.ftsCur = some pos ∧ pos.cur = p ∧
        rootArg s (route p pos.parents).1 = some arg ∧ t'.path = (route p pos.parents).2.foldl join arg ∧
        p.ftsPathlen = t'.path.length ∧ t'.ftsPath[p.ftsPathlen]? = some 0 := by
  have seen : ((boxOpened true).bind fun s => (clearReads 2 s).bind fun t => (returned t).map fun (p, t') =>
      decide (Clear t ∧ p.ftsInfo = .dp ∧ t'.path = [100, slash])) = some true := by decide +kernel
  obtain ⟨s, started, seen⟩ := Option.bind_eq_some_iff.mp seen
  obtain ⟨t, read, seen⟩ := Option.bind_eq_some_iff.mp seen
  obtain ⟨⟨p, t'⟩, last, seen⟩ := Option.map_eq_some_iff.mp seen
  obtain ⟨clear, info, path⟩ := of_decide_eq_true seen
  obtain ⟨calls, run⟩ := clearReads_run read
  have law := path_spells_route (box_unresolved true) (box_names true) (fun _ => rfl) (by decide) (by decide)
    (boxOpened_eq_some started)
  obtain ⟨pos, arg, spelled⟩ := law.2 calls t p t' run clear (returned_eq_some last)
  exact ⟨s, t', p, pos, arg, info, path, spelled⟩

end Yalibct.Fts.Path
