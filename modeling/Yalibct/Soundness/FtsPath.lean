import Yalibct.Soundness.FtsAside
import Yalibct.Soundness.FtsCalls

/-! # The path buffer

All entries share one path buffer. What the entries rely on are the bytes of the directories above the
current entry: each of these starts with the one above it, and the innermost one is at the start of the
buffer. An entry that waits in a list has room behind its directory.

The invariant is the same for any traversal; with `exact` it says, besides, that the bytes are those of the
names, which may fail where a slash at the end of a root gets lost.
-/

namespace Yalibct.Fts.Path

open Machine

/-! ## Paths -/

/-- A path up to where `NAPPEND` lets the next name begin with a slash. -/
def stem (path : List UInt8) : List UInt8 := if path.getLast? = some slash then path.dropLast else path

/-- The path of an entry in a directory. -/
def join (path name : List UInt8) : List UInt8 := stem path ++ slash :: name

/-- A name that `readdir` may give. -/
structure Proper (name : List UInt8) : Prop where
  nonempty : name ≠ []
  single : slash ∉ name
  string : 0 ∉ name

section Paths

variable {path name bytes : List UInt8}

private theorem stem_of_slash (ends : path.getLast? = some slash) : stem path ++ [slash] = path := by
  rw [stem, if_pos ends, List.dropLast_append_getLast? slash ends]

private theorem stem_of_ne (ends : path.getLast? ≠ some slash) : stem path = path := if_neg ends

theorem length_stem_le : (stem path).length ≤ path.length := by
  unfold stem
  split_ifs
  · rw [List.length_dropLast]
    omega
  · exact Nat.le_refl _

private theorem le_length_stem : path.length ≤ (stem path).length + 1 := by
  unfold stem
  split_ifs
  · rw [List.length_dropLast]
    omega
  · omega

theorem stem_starts : stem path <+: path := by
  unfold stem
  split_ifs
  · exact List.dropLast_prefix path
  · exact List.prefix_rfl

/-- A path is at the start of what follows its stem after a slash. -/
theorem prefix_stem_slash : path <+: stem path ++ slash :: bytes := by
  rcases Decidable.em (path.getLast? = some slash) with ends | ends
  · refine ⟨bytes, ?_⟩
    calc
      path ++ bytes = stem path ++ [slash] ++ bytes := by rw [stem_of_slash ends]
      _ = stem path ++ slash :: bytes := by rw [List.append_assoc, List.singleton_append]
  · rw [stem_of_ne ends]
    exact List.prefix_append ..

theorem length_join : (join path name).length = (stem path).length + 1 + name.length := by
  rw [join, List.length_append, List.length_cons]
  omega

/-- A path is shorter than that of an entry. -/
theorem length_lt_join (nonempty : name ≠ []) : path.length < (join path name).length := by
  rw [length_join]
  have := List.length_pos_iff.mpr nonempty
  have := @le_length_stem path
  omega

theorem join_ne_nil : join path name ≠ [] := List.append_ne_nil_of_right_ne_nil _ nofun

/-- What a longer path starts with, its stem starts with. -/
theorem prefix_stem (starts : bytes <+: path) (shorter : bytes.length < path.length) : bytes <+: stem path :=
  List.prefix_of_prefix_length_le starts stem_starts (Nat.le_of_lt_succ (shorter.trans_le le_length_stem))

end Paths

/-! ## Entries and their paths -/

/-- An entry of the directory at a path, for which there is room in a buffer of some size. -/
structure Kid (path : List UInt8) (size : ℕ) (p : Ftsent) : Prop where
  length : p.ftsPathlen = (join path p.ftsName).length
  room : p.ftsPathlen < size
  level : 0 < p.ftsLevel
  proper : Proper p.ftsName

/-- What is left of an open directory has proper names. -/
def Clean (p : Ftsent) : Prop := ∀ dp, p.ftsDirp = some dp → ∀ e ∈ dp.rest, Proper e.dName

/-- An argument of `fts_open` that is still to be loaded; `args` gives the arguments by the addresses of
their entries. -/
structure Unread (exact : Prop) (args : ℕ → Option (List UInt8)) (size : ℕ) (p : Ftsent) : Prop where
  level : p.ftsLevel = rootLevel
  room : p.ftsName.length < size
  argument : exact → args p.address = some p.ftsName
  empty : p.ftsName = [] → p.ftsInfo ≠ .d
  clean : Clean p

/-- An entry that waits in a list, below these entries, the first of which is at a path. -/
def Listing (exact : Prop) (args : ℕ → Option (List UInt8)) (size : ℕ) :
    List (Ftsent × List Ftsent) → List UInt8 → Ftsent → Prop
  | [], _, p => Unread exact args size p
  | _ :: _, path, p => Kid path size p ∧ Clean p

/-- An entry whose path is in the buffer, below these entries, the first of which is at `above`. -/
structure Sits (exact : Prop) (args : ℕ → Option (List UInt8)) (size : ℕ) (parents : List (Ftsent × List Ftsent))
    (above path : List UInt8) (p : Ftsent) : Prop where
  length : p.ftsPathlen = path.length
  room : path.length < size
  first : parents = [] → p.ftsLevel = rootLevel ∧ (exact → args p.address = some path)
  below : parents ≠ [] → Kid above size p ∧ above <+: path ∧ (exact → path = join above p.ftsName)
  clean : Clean p

/-- The entries above the current one, the first of which is at a path. -/
def Stack (exact : Prop) (args : ℕ → Option (List UInt8)) (size : ℕ) : List (Ftsent × List Ftsent) → List UInt8 → Prop
  | [], path => path = []
  | (p, link) :: parents, path => path ≠ [] ∧ ∃ above, Stack exact args size parents above ∧
      Sits exact args size parents above path p ∧ ∀ q ∈ link, Listing exact args size parents above q

/-- The current entry of a stream, at the path in the buffer. -/
structure Shows (exact : Prop) (args : ℕ → Option (List UInt8)) (bytes : List UInt8) (pos : Position) : Prop where
  small : bytes.length ≤ ptrdiffMax
  shown : ∃ above path, Stack exact args bytes.length pos.parents above ∧
    (∀ q ∈ pos.link, Listing exact args bytes.length pos.parents above q) ∧
    Sits exact args bytes.length pos.parents above path pos.cur ∧ path ++ [0] <+: bytes ∧
    (path = [] → pos.cur.ftsAccpath = .ftsPath ∧ pos.cur.ftsInfo ≠ .d)

/-- The position before the first root. -/
structure Starts (exact : Prop) (args : ℕ → Option (List UInt8)) (bytes : List UInt8) (pos : Position) : Prop where
  small : bytes.length ≤ ptrdiffMax
  info : pos.cur.ftsInfo = .init
  instr : pos.cur.ftsInstr = .noInstr
  parents : pos.parents = []
  roots : ∀ q ∈ pos.link, Unread exact args bytes.length q

/-- Unless it was stopped, a stream is at a position that fits its buffer. -/
def Fits {env : Env} (exact : Prop) (args : ℕ → Option (List UInt8)) (sp : FTS env) : Prop :=
  sp.ftsOptions.stop = false →
    ∀ pos, sp.ftsCur = some pos → Starts exact args sp.ftsPath pos ∨ Shows exact args sp.ftsPath pos

section Growth

variable {exact : Prop} {args : ℕ → Option (List UInt8)} {size size' : ℕ} {parents : List (Ftsent × List Ftsent)}
variable {above path : List UInt8} {p q : Ftsent}

theorem Kid.grow (kid : Kid path size p) (grown : size ≤ size') : Kid path size' p :=
  { kid with room := kid.room.trans_le grown }

theorem Unread.grow (unread : Unread exact args size p) (grown : size ≤ size') : Unread exact args size' p :=
  { unread with room := unread.room.trans_le grown }

theorem Listing.grow (listed : Listing exact args size parents path p) (grown : size ≤ size') :
    Listing exact args size' parents path p := by
  cases parents with
  | nil => exact Unread.grow listed grown
  | cons entry parents => exact ⟨listed.1.grow grown, listed.2⟩

theorem Sits.grow (sits : Sits exact args size parents above path p) (grown : size ≤ size') :
    Sits exact args size' parents above path p :=
  ⟨sits.length, sits.room.trans_le grown, sits.first,
    fun inner => ⟨(sits.below inner).1.grow grown, (sits.below inner).2⟩, sits.clean⟩

theorem Stack.grow (stack : Stack exact args size parents path) (grown : size ≤ size') :
    Stack exact args size' parents path := by
  induction parents generalizing path with
  | nil => exact stack
  | cons entry parents ih =>
    obtain ⟨nonempty, above, stack, sits, link⟩ := stack
    exact ⟨nonempty, above, ih stack, sits.grow grown, fun q member => (link q member).grow grown⟩

/-- What is above an entry is at a shorter path. -/
theorem Sits.above_starts (sits : Sits exact args size parents above path p)
    (stack : Stack exact args size parents above) : above <+: stem path := by
  cases parents with
  | nil =>
    rw [show above = [] from stack]
    exact List.nil_prefix
  | cons entry parents =>
    obtain ⟨kid, starts, -⟩ := sits.below nofun
    apply prefix_stem starts
    rw [← sits.length, kid.length]
    exact length_lt_join kid.proper.nonempty

/-- The same entry, at the same place. -/
structure Stays (p q : Ftsent) : Prop where
  address : q.address = p.address
  name : q.ftsName = p.ftsName
  level : q.ftsLevel = p.ftsLevel
  pathlen : q.ftsPathlen = p.ftsPathlen
  accpath : q.ftsAccpath = p.ftsAccpath

theorem Stays.refl (p : Ftsent) : Stays p p := ⟨rfl, rfl, rfl, rfl, rfl⟩

theorem Stays.trans {r : Ftsent} (first : Stays p q) (second : Stays q r) : Stays p r :=
  ⟨second.address.trans first.address, second.name.trans first.name, second.level.trans first.level,
    second.pathlen.trans first.pathlen, second.accpath.trans first.accpath⟩

theorem Kid.stays (kid : Kid path size p) (stays : Stays p q) : Kid path size q := by
  refine ⟨?_, ?_, ?_, ?_⟩
  · rw [stays.pathlen, stays.name, kid.length]
  · rw [stays.pathlen]
    exact kid.room
  · rw [stays.level]
    exact kid.level
  · rw [stays.name]
    exact kid.proper

theorem Sits.stays (sits : Sits exact args size parents above path p) (stays : Stays p q) (clean : Clean q) :
    Sits exact args size parents above path q := by
  refine ⟨stays.pathlen.trans sits.length, sits.room, fun outer => ?_, fun inner => ?_, clean⟩
  · rw [stays.level, stays.address]
    exact sits.first outer
  · rw [stays.name]
    exact ⟨(sits.below inner).1.stays stays, (sits.below inner).2⟩

theorem Clean.of_none (closed : p.ftsDirp = none) : Clean p := fun _ opened => absurd (closed.symm.trans opened) nofun

theorem Clean.same (clean : Clean p) (dirp : q.ftsDirp = p.ftsDirp) : Clean q := by
  unfold Clean
  rw [dirp]
  exact clean

end Growth

/-! ## Writing to the buffer and making it larger -/

variable {env : Env} {sp sp' sp'' : FTS env} {exact : Prop} {args : ℕ → Option (List UInt8)}
variable {parents : List (Ftsent × List Ftsent)} {above path : List UInt8} {p q cur : Ftsent}

/-- No access is out of bounds, and then this holds. -/
abbrev Within {α : Type} (post : α → FTS env → Prop) (x : Action env α) (sp : FTS env) : Prop :=
  Ends (fun e _ => e ≠ .outOfBounds) post x sp

/-- The current entry and the options are the same. -/
structure Apart (sp sp' : FTS env) : Prop where
  cur : sp'.ftsCur = sp.ftsCur
  options : sp'.ftsOptions = sp.ftsOptions

theorem Apart.refl (sp : FTS env) : Apart sp sp := ⟨rfl, rfl⟩

theorem Apart.trans (first : Apart sp sp') (second : Apart sp' sp'') : Apart sp sp'' :=
  ⟨second.cur.trans first.cur, second.options.trans first.options⟩

theorem view_eq (same : sp'.view = sp.view) : Apart sp sp' ∧ sp'.ftsPath = sp.ftsPath := by
  obtain ⟨cur, rest⟩ := Prod.mk.inj same
  obtain ⟨path, options⟩ := Prod.mk.inj rest
  exact ⟨⟨cur, options⟩, path⟩

theorem writePath_within {fails : Fault → FTS env → Prop} {offset : ℕ} {run : List UInt8}
    (room : offset + run.length ≤ sp.ftsPath.length) :
    Ends fails (fun _ sp' => sp' = { sp with ftsPath := overwrite sp.ftsPath offset run }) (writePath offset run) sp := by
  apply Ends.get_bind
  rw [if_pos room]
  exact rfl

theorem nappend_within {fails : Fault → FTS env → Prop} (starts : path <+: sp.ftsPath) (length : p.ftsPathlen = path.length)
    (nonempty : path ≠ []) : Ends fails (fun t sp' => t = (stem path).length ∧ sp' = sp) (nappend p) sp := by
  obtain ⟨last, count⟩ := Nat.exists_eq_succ_of_ne_zero (Nat.ne_of_gt (List.length_pos_iff.mpr nonempty))
  have there : sp.ftsPath[last]? = path.getLast? := by
    obtain ⟨rest, bytes⟩ := starts
    rw [← bytes, List.getElem?_append_left (by omega), List.getLast?_eq_getElem?, count, Nat.succ_sub_one]
  unfold nappend
  rw [length, count]
  apply Ends.get_bind
  rw [there]
  cases last? : path.getLast? with
  | none => exact absurd (List.getLast?_eq_none_iff.mp last?) nonempty
  | some c =>
    refine ⟨?_, rfl⟩
    rcases Decidable.em (c = slash) with ends | ends
    · rw [if_pos ends, stem, if_pos (last?.trans (congrArg some ends)), List.length_dropLast, count, Nat.succ_sub_one]
    · rw [if_neg ends, stem_of_ne (by rw [last?]; exact fun equal => ends (Option.some.inj equal)), count]

private theorem granted_gives (size : ℕ) :
    Gives (fun got => got = true → size ≤ ptrdiffMax) (granted size : Action env Bool) := by
  apply Preserves.bind allocated_aside
  intro got _
  split_ifs with large
  · exact Preserves.bind (setErrno_aside _) fun _ _ => .pure nofun
  · exact .pure fun _ => Nat.le_of_not_lt large

theorem ftsPalloc_within {more : ℕ} (small : sp.ftsPath.length ≤ ptrdiffMax) (bound : more + 256 < 2 ^ 64) :
    Within (fun grown sp' => Apart sp sp' ∧ (grown = true → sp.ftsPath <+: sp'.ftsPath ∧
      sp.ftsPath.length + more < sp'.ftsPath.length ∧ sp'.ftsPath.length ≤ ptrdiffMax)) (ftsPalloc more) sp := by
  apply Ends.get_bind
  dsimp only
  split_ifs with wraps
  · exact ⟨⟨rfl, rfl⟩, nofun⟩
  apply Ends.bind (granted_gives _ sp)
  rintro got t ⟨large, same⟩
  obtain ⟨apart, -⟩ := view_eq same
  split_ifs with enough
  · have size := large enough
    have exactly : sizeT (sp.ftsPath.length + more + 256) = sp.ftsPath.length + more + 256 := by
      rw [sizeT_eq] at wraps ⊢
      rw [ptrdiffMax] at small
      omega
    have length : (overwrite (env.rawPath sp.kernel.now (sizeT (sp.ftsPath.length + more + 256))) 0 sp.ftsPath).length =
        sp.ftsPath.length + more + 256 := by
      rw [length_overwrite (by rw [env.length_rawPath, exactly]; omega), env.length_rawPath, exactly]
    refine ⟨⟨apart.cur, apart.options⟩, fun _ => ⟨?_, ?_, ?_⟩⟩
    · exact append_prefix_overwrite List.nil_prefix
    · change sp.ftsPath.length + more < List.length (overwrite ..)
      omega
    · change List.length (overwrite ..) ≤ ptrdiffMax
      omega
  · exact ⟨⟨apart.cur, apart.options⟩, nofun⟩

theorem ftsAlloc_gives (name : List UInt8) :
    Gives (fun r => ∀ p, r = some p → p.ftsName = name ∧ p.ftsDirp = none ∧ ftsentSize name.length ≤ ptrdiffMax)
      (ftsAlloc name : Action env (Option Ftsent)) := by
  apply Preserves.bind .get
  intro sp _
  apply Preserves.bind (granted_gives _)
  intro got large
  split_ifs with enough
  · apply Preserves.pure
    rintro _ ⟨⟩
    exact ⟨rfl, rfl, large enough⟩
  · apply Preserves.pure
    rintro _ ⟨⟩

theorem ftsStat_gives (p : Ftsent) (follow : Bool) :
    Gives (fun r => Stays p r ∧ r.ftsDirp = p.ftsDirp) (ftsStat p follow : Action env Ftsent) := by
  apply Preserves.bind .get
  intro sp _
  apply Preserves.bind (fstatat_aside _ _ _)
  rintro (_ | sb) _
  · apply Preserves.bind (ftsStatDangling_aside _ _ _)
    rintro (_ | sb) _
    · exact Preserves.bind getErrno_aside fun _ _ => .pure ⟨⟨rfl, rfl, rfl, rfl, rfl⟩, rfl⟩
    · exact Preserves.bind (setErrno_aside _) fun _ _ => .pure ⟨⟨rfl, rfl, rfl, rfl, rfl⟩, rfl⟩
  · exact .pure ⟨⟨rfl, rfl, rfl, rfl, rfl⟩, rfl⟩

/-- The empty path leads nowhere. -/
def Unresolved (fs : FileSystem) : Prop := ∀ dir follow, ∃ errno, fs.resolve dir [] follow = .error errno

private theorem fstatat_empty (unresolved : Unresolved env.fs) (fd : ℤ) (follow : Bool) :
    Gives (· = none) (fstatat fd [] follow : Action env (Option Stat)) := by
  apply Preserves.bind request_aside
  rintro (_ | errno) _
  · apply Preserves.bind (use_aside fd)
    rintro (_ | dir) _
    · exact Preserves.bind (setErrno_aside _) fun _ _ => .pure rfl
    · obtain ⟨errno, resolved⟩ := unresolved dir follow
      simp only [resolved]
      exact Preserves.bind (setErrno_aside _) fun _ _ => .pure rfl
  · exact Preserves.bind (setErrno_aside _) fun _ _ => .pure rfl

theorem ftsStat_empty (unresolved : Unresolved env.fs) {follow : Bool} (path : sp.accpath p = []) :
    Within (fun r _ => r.ftsInfo = .ns) (ftsStat p follow) sp := by
  apply Ends.get_bind
  dsimp only
  rw [path]
  apply Ends.bind (fstatat_empty unresolved _ _ sp)
  rintro _ t ⟨rfl, -⟩
  have dangling : Within (fun r _ => r = none)
      (ftsStatDangling sp.ftsCwdFd []
        (follow || sp.ftsOptions.logical || sp.ftsOptions.comfollow && p.ftsLevel == rootLevel)) t := by
    apply Ends.bind (getErrno_aside t)
    intro errno u _
    split_ifs
    · exact (fstatat_empty unresolved _ _ u).mono fun r _ result => result.1
    · exact rfl
  apply Ends.bind dangling
  rintro _ u rfl
  exact .bind (getErrno_aside u) fun _ _ _ => rfl

/-! ## Opening a directory -/

/-- What there is to read where a path leads. -/
def listing (sp : FTS env) (fd : ℤ) (path : List UInt8) (follow : Bool) : Option (List Dirent) :=
  (sp.kernel.base fd).bind fun dir => (env.fs.resolve dir path follow).toOption.map env.fs.entries

/-- What `fts_build` is about to read. -/
def toRead (sp : FTS env) (p : Ftsent) : Option (List Dirent) :=
  let o := sp.ftsOptions
  match p.ftsDirp with
  | some dp => some dp.rest
  | none => listing sp (if !o.nochdir && o.cwdfd then sp.ftsCwdFd else atFdcwd) (sp.accpath p)
      (!(o.physical && !(o.comfollow && p.ftsLevel == rootLevel)))

/-- An entry that is not passed on. -/
def Skipped (sp : FTS env) (e : Dirent) : Prop := sp.ftsOptions.seedot = false ∧ isDot e.dName = true

/-- There is nothing to be found in a directory. -/
def Blank (sp : FTS env) (p : Ftsent) : Prop := ∃ rest, toRead sp p = some rest ∧ ∀ e ∈ rest, Skipped sp e

private theorem request_within : Within (fun r sp' => (env.Reliable → r = none) ∧ sp'.view = sp.view ∧
    sp'.kernel.fds = sp.kernel.fds ∧ sp'.kernel.cwd = sp.kernel.cwd) request sp :=
  ⟨fun reliable => reliable _, rfl, rfl, rfl⟩

private theorem use_within {fd : ℤ} : Within (fun r sp' => r = sp.kernel.base fd ∧ sp'.view = sp.view) (use fd) sp :=
  ⟨rfl, rfl⟩

private theorem openat_within {fd : ℤ} {name : List UInt8} {follow : Bool} :
    Within (fun r sp' => sp'.view = sp.view ∧ (0 ≤ r → ∃ node, sp'.kernel.base r = some node ∧
      listing sp fd name follow = some (env.fs.entries node))) (openat fd name follow) sp := by
  have invalid : ¬ (0 : ℤ) ≤ -1 := by decide
  apply Ends.bind request_within
  rintro (_ | errno) t ⟨-, view, fds, cwd⟩
  · apply Ends.bind use_within
    rintro _ u ⟨rfl, view'⟩
    have base : t.kernel.base fd = sp.kernel.base fd := by rw [Kernel.base, Kernel.base, fds, cwd]
    have same : u.view = sp.view := view'.trans view
    rw [base, listing]
    cases sp.kernel.base fd with
    | none => exact ⟨same, fun opened => absurd opened invalid⟩
    | some dir =>
      simp only [Option.bind_some]
      cases env.fs.resolve dir name follow with
      | error errno => exact ⟨same, fun opened => absurd opened invalid⟩
      | ok node =>
        dsimp only
        split_ifs
        · refine ⟨same, fun _ => ⟨node, ?_, rfl⟩⟩
          rw [base_natCast]
          exact Descriptors.find_insert_self ..
        · exact ⟨same, fun opened => absurd opened invalid⟩
  · exact ⟨view, fun opened => absurd opened invalid⟩

private theorem fdopendir_within {fd : ℤ} :
    Within (fun r sp' => sp'.view = sp.view ∧ ∀ dp, r = some dp → ∃ node, sp.kernel.base fd = some node ∧
      dp.rest = env.fs.entries node) (fdopendir fd) sp := by
  apply Ends.bind request_within
  rintro (_ | errno) t ⟨-, view, fds, cwd⟩
  · apply Ends.bind use_within
    rintro _ u ⟨rfl, view'⟩
    have base : t.kernel.base fd = sp.kernel.base fd := by rw [Kernel.base, Kernel.base, fds, cwd]
    rw [base]
    cases sp.kernel.base fd with
    | none => exact ⟨view'.trans view, fun _ stream => absurd stream.symm (Option.some_ne_none _)⟩
    | some node =>
      refine ⟨view'.trans view, ?_⟩
      rintro _ ⟨⟩
      exact ⟨node, rfl, rfl⟩
  · exact ⟨view, fun _ stream => absurd stream.symm (Option.some_ne_none _)⟩

private theorem opendirat_within {fd : ℤ} {name : List UInt8} {follow : Bool} :
    Within (fun r sp' => sp'.view = sp.view ∧ ∀ dp, r = some dp → listing sp fd name follow = some dp.rest)
      (opendirat fd name follow) sp := by
  apply Ends.bind openat_within
  rintro newFd t ⟨view, opened⟩
  split_ifs with negative
  · exact ⟨view, nofun⟩
  obtain ⟨node, base, listed⟩ := opened (Int.not_lt.mp negative)
  apply Ends.bind fdopendir_within
  rintro (_ | dp) u ⟨view', read⟩
  · apply Ends.bind (getErrno_aside u)
    rintro errno v ⟨-, view''⟩
    apply Ends.bind (close_aside newFd v)
    rintro _ w ⟨-, entering⟩
    exact .bind (setErrno_aside errno w) fun _ x ⟨_, same⟩ =>
      ⟨(((same.trans entering).trans view'').trans view').trans view, nofun⟩
  · refine ⟨view'.trans view, ?_⟩
    rintro _ ⟨⟩
    obtain ⟨node', base', rest⟩ := read dp rfl
    rw [listed, rest, Option.some.inj (base.symm.trans base')]

theorem enterDir_gives (p : Ftsent) :
    Gives (fun r => Stays p r.2 ∧ r.2.ftsDirp = p.ftsDirp) (enterDir p : Action env (Bool × Ftsent)) := by
  apply Preserves.bind .get
  intro sp _
  split_ifs
  · apply Preserves.bind allocated_aside
    intro got _
    split_ifs
    · apply Preserves.bind .get
      intro t _
      split
      · split
        · exact .throw nofun
        · apply Preserves.bind
          · exact Preserves.modify fun _ => rfl
          rintro _ _
          split
          all_goals exact .pure ⟨⟨rfl, rfl, rfl, rfl, rfl⟩, rfl⟩
      · exact .throw nofun
    · exact .pure ⟨.refl p, rfl⟩
  · apply Preserves.bind .get
    intro t _
    split
    · split
      · exact .throw nofun
      · apply Preserves.bind
        · exact Preserves.modify fun _ => rfl
        rintro _ _
        apply Preserves.pure
        dsimp only
        split_ifs
        all_goals exact ⟨⟨rfl, rfl, rfl, rfl, rfl⟩, rfl⟩
    · exact .throw nofun

/-- The names that `readdir` gives are proper. -/
def Names (fs : FileSystem) : Prop := ∀ d, ∀ e ∈ fs.entries d, Proper e.dName

/-- A directory that was opened for reading. -/
structure Begins (sp : FTS env) (cur : Ftsent) (r : Option ℤ × Ftsent) : Prop where
  stays : Stays cur r.2
  clean : Clean r.2
  opened : ∀ fd, r.1 = some fd → 0 ≤ fd ∧ ∃ dp, r.2.ftsDirp = some dp ∧ toRead sp cur = some dp.rest

theorem Begins.closed {r : Ftsent} (stays : Stays cur r) (closed : r.ftsDirp = none) : Begins sp cur (none, r) :=
  ⟨stays, .of_none closed, nofun⟩

private theorem toRead_proper (names : Names env.fs) (clean : Clean cur) {rest : List Dirent}
    (read : toRead sp cur = some rest) :
    ∀ e ∈ rest, Proper e.dName := by
  unfold toRead at read
  cases open? : cur.ftsDirp with
  | some dp =>
    rw [open?] at read
    exact Option.some.inj read ▸ clean dp open?
  | none =>
    rw [open?] at read
    obtain ⟨dir, -, read⟩ := Option.bind_eq_some_iff.mp read
    obtain ⟨node, -, listed⟩ := Option.map_eq_some_iff.mp read
    exact listed ▸ names node

private theorem buildOpen_within (names : Names env.fs) (clean : Clean cur) :
    Within (fun r sp' => Begins sp cur r ∧ sp'.view = sp.view) (buildOpen cur parents) sp := by
  have opens : ∀ {fd : ℤ} {r : Ftsent} {dp : Dir}, 0 ≤ fd → Stays cur r → r.ftsDirp = some dp →
      toRead sp cur = some dp.rest → Begins sp cur (some fd, r) := by
    intro fd r dp real stays dirp rest
    refine ⟨stays, ?_, ?_⟩
    · intro dp' dirp'
      rw [← Option.some.inj (dirp.symm.trans dirp')]
      exact toRead_proper names clean rest
    · rintro _ ⟨⟩
      exact ⟨real, dp, dirp, rest⟩
  unfold buildOpen
  cases open? : cur.ftsDirp with
  | some dp =>
    apply Ends.bind (dirfd_aside dp sp)
    rintro dirFd t ⟨-, view⟩
    split_ifs with negative
    · apply Ends.bind (getErrno_aside t)
      rintro errno u ⟨-, view'⟩
      exact .bind (closedir_aside dp u) fun _ v ⟨_, view''⟩ =>
        ⟨.closed ⟨rfl, rfl, rfl, rfl, rfl⟩ rfl, (view''.trans view').trans view⟩
    · refine ⟨opens (Int.not_lt.mp negative) (.refl cur) open? ?_, view⟩
      rw [toRead, open?]
  | none =>
    apply Ends.get_bind
    apply Ends.bind opendirat_within
    rintro (_ | dp) t ⟨view, read⟩
    · exact .bind (getErrno_aside t) fun errno u ⟨_, view'⟩ => ⟨.closed ⟨rfl, rfl, rfl, rfl, rfl⟩ rfl, view'.trans view⟩
    · have rest : toRead sp cur = some dp.rest := by
        rw [toRead, open?]
        exact read dp rfl
      have failing : ∀ {u : FTS env} {r : Errno → Ftsent}, u.view = sp.view → (∀ errno, Stays cur (r errno)) →
          (∀ errno, (r errno).ftsDirp = none) → Within (fun r sp' => Begins sp cur r ∧ sp'.view = sp.view) (do
            let fstatErrno ← getErrno
            closedir dp
            setErrno fstatErrno
            return (none, r fstatErrno)) u := by
        intro u r same stays closed
        apply Ends.bind (getErrno_aside u)
        rintro errno v ⟨-, view⟩
        apply Ends.bind (closedir_aside dp v)
        rintro _ w ⟨-, view'⟩
        exact .bind (setErrno_aside errno w) fun _ x ⟨_, view''⟩ =>
          ⟨.closed (stays errno) (closed errno), ((view''.trans view').trans view).trans same⟩
      dsimp only
      split_ifs with again optimized
      · apply Ends.bind (fstat_aside _ t)
        rintro (_ | st) u ⟨-, view'⟩
        · exact failing (view'.trans view) (fun _ => ⟨rfl, rfl, rfl, rfl, rfl⟩) fun _ => rfl
        · exact ⟨opens (Int.natCast_nonneg _) ⟨rfl, rfl, rfl, rfl, rfl⟩ rfl rest, view'.trans view⟩
      · apply Ends.bind (leaveDirChecked_aside _ _ t)
        rintro _ u ⟨-, view'⟩
        apply Ends.bind (fstat_aside _ u)
        rintro (_ | st) v ⟨-, view''⟩
        · exact failing ((view''.trans view').trans view) (fun _ => ⟨rfl, rfl, rfl, rfl, rfl⟩) fun _ => rfl
        apply Ends.bind (enterDir_gives _ v)
        rintro ⟨entered, r⟩ w ⟨⟨stays, dirp⟩, entering⟩
        have same := ((entering.trans view'').trans view').trans view
        have stays : Stays cur r := ⟨stays.address, stays.name, stays.level, stays.pathlen, stays.accpath⟩
        dsimp only
        split_ifs
        · exact ⟨opens (Int.natCast_nonneg _) stays dirp rest, same⟩
        · apply Ends.bind (closedir_aside dp w)
          rintro _ x ⟨-, closed⟩
          exact .bind (setErrno_aside _ x) fun _ y ⟨_, set⟩ =>
            ⟨.closed ⟨stays.address, stays.name, stays.level, stays.pathlen, stays.accpath⟩ rfl,
              (set.trans closed).trans same⟩
      · exact ⟨opens (Int.natCast_nonneg _) ⟨rfl, rfl, rfl, rfl, rfl⟩ rfl rest, view⟩

private theorem stayAbove_gives (dirFd : ℤ) (descend : Bool) :
    Gives (fun r => Stays cur r ∧ r.ftsDirp = none) (stayAbove cur dirFd descend : Action env Ftsent) := by
  apply Preserves.bind getErrno_aside
  intro errno _
  have leave : ∀ r : Ftsent, Stays cur r → r.ftsDirp = none → Gives (fun r => Stays cur r ∧ r.ftsDirp = none) (do
      if (← (get : Action env (FTS env))).ftsOptions.cwdfd ∧ 0 ≤ dirFd then let _ ← close dirFd
      return r) := by
    intro r stays closed
    apply Preserves.bind .get
    intro sp _
    split_ifs
    · exact Preserves.bind (close_aside dirFd) fun _ _ => .pure ⟨stays, closed⟩
    · exact .pure ⟨stays, closed⟩
  dsimp only
  cases cur.ftsDirp with
  | none => exact leave _ ⟨rfl, rfl, rfl, rfl, rfl⟩ rfl
  | some dp => exact Preserves.bind (closedir_aside dp) fun _ _ => leave _ ⟨rfl, rfl, rfl, rfl, rfl⟩ rfl

/-- In `FTS_NOCHDIR` mode, there is nothing to descend into. -/
theorem buildDescend_within {dirFd : ℤ} (real : 0 ≤ dirFd) (clean : Clean cur) :
    Within (fun r sp' => (Stays cur r.2 ∧ Clean r.2 ∧ sp'.view = sp.view) ∧
      (sp.ftsOptions.nochdir = true → sp.ftsOptions.cwdfd = false → r.2 = cur)) (buildDescend cur dirFd) sp := by
  have stays : ∀ {t : FTS env} {fd : ℤ} {descend : Bool}, t.view = sp.view → (sp.ftsOptions.nochdir = true →
      sp.ftsOptions.cwdfd = false → False) → Within (fun r sp' => (Stays cur r.2 ∧ Clean r.2 ∧ sp'.view = sp.view) ∧
      (sp.ftsOptions.nochdir = true → sp.ftsOptions.cwdfd = false → r.2 = cur))
      (do return (false, ← stayAbove cur fd descend)) t := by
    intro t fd descend view never
    exact .bind (stayAbove_gives fd descend t) fun r u ⟨⟨stays, closed⟩, view'⟩ =>
      ⟨⟨stays, .of_none closed, view'.trans view⟩, fun nochdir cwdfd => absurd (never nochdir cwdfd) id⟩
  apply Ends.bind (isLeaf_aside cur sp)
  rintro leaf t ⟨-, view⟩
  have options : t.ftsOptions = sp.ftsOptions := (view_eq view).1.options
  have copy : Within (fun fd u => u.view = t.view ∧ (sp.ftsOptions.cwdfd = false → fd = dirFd)) (descentFd dirFd) t := by
    apply Ends.get_bind
    rw [options]
    split_ifs with cwdfd
    · exact (dupfd_aside dirFd t).mono fun fd u result => ⟨result.2, fun off => absurd cwdfd (Bool.eq_false_iff.mp off)⟩
    · exact ⟨rfl, fun _ => rfl⟩
  apply Ends.bind copy
  rintro fd u ⟨view', given⟩
  split_ifs with negative
  · exact stays (view'.trans view) fun _ cwdfd => absurd (given cwdfd ▸ negative) (Int.not_lt.mpr real)
  have change : Within (fun failed v => v.view = u.view ∧ (u.ftsOptions.nochdir = true → failed = false))
      (ftsSafeChangedir cur.ftsStatp fd none) u := by
    cases mode : u.ftsOptions.nochdir with
    | false => exact (ftsSafeChangedir_aside _ fd none u).mono fun failed v result => ⟨result.2, nofun⟩
    | true =>
      apply Ends.get_bind
      simp only [mode, ↓reduceIte]
      split_ifs
      · exact .bind (close_aside fd u) fun _ v result => ⟨result.2, fun _ => rfl⟩
      · exact ⟨rfl, fun _ => rfl⟩
  apply Ends.bind change
  rintro failed v ⟨view'', kept⟩
  have same := (view''.trans view').trans view
  have options' : u.ftsOptions = sp.ftsOptions := (view_eq (view'.trans view)).1.options
  split_ifs with lost
  · exact stays same fun nochdir _ => absurd lost (Bool.eq_false_iff.mp (kept (options' ▸ nochdir)))
  · exact ⟨⟨.refl cur, clean, same⟩, fun _ _ => rfl⟩

/-! ## The entries of a directory -/

/-- The stream was stopped in the meantime. -/
def Halts (sp sp' : FTS env) : Prop := sp'.ftsCur = sp.ftsCur ∧ sp'.ftsOptions = { sp.ftsOptions with stop := true }

theorem Halts.after (apart : Apart sp sp') (halts : Halts sp' sp'') : Halts sp sp'' :=
  ⟨halts.1.trans apart.cur, halts.2.trans (by rw [apart.options])⟩

private theorem giveUp_within {fd : ℕ} {errno : Errno} :
    Within (fun r sp' => Stays cur r.cur ∧ Clean r.cur ∧ r.gaveUp = true ∧ Halts sp sp') (giveUp fd cur errno) sp := by
  apply Ends.bind (closedir_aside _ sp)
  rintro _ t ⟨-, view⟩
  obtain ⟨apart, -⟩ := view_eq view
  apply Ends.modify_bind
  refine .bind (setErrno_aside errno _) fun _ u ⟨_, view'⟩ => ⟨⟨rfl, rfl, rfl, rfl, rfl⟩, .of_none rfl, rfl, ?_⟩
  obtain ⟨apart', -⟩ := view_eq view'
  exact ⟨apart'.cur.trans apart.cur, apart'.options.trans (by rw [← apart.options])⟩

private theorem endOfDir_within {fd : ℕ} {continueReaddir sort : Bool} {head : List Ftsent} {errno : Errno} :
    Within (fun r sp' => Stays cur r.cur ∧ Clean r.cur ∧ r.head = head ∧ r.gaveUp = false ∧ sp'.view = sp.view)
      (endOfDir fd continueReaddir cur head sort errno) sp := by
  apply Ends.bind (setErrno_aside errno sp)
  rintro _ t ⟨-, view⟩
  refine .bind (closedir_aside _ t) fun _ u ⟨_, view'⟩ => ⟨?_, .of_none rfl, rfl, rfl, view'.trans view⟩
  dsimp only
  split_ifs
  all_goals exact ⟨rfl, rfl, rfl, rfl, rfl⟩

/-- With room for a name behind the directory, the buffer may have grown. -/
structure Roomy (sp : FTS env) (len namelen : ℕ) (maxlen : ℕ) (sp' : FTS env) : Prop where
  apart : Apart sp sp'
  starts : sp.ftsPath <+: sp'.ftsPath
  small : sp'.ftsPath.length ≤ ptrdiffMax
  left : maxlen = sp'.ftsPath.length - len
  room : len + namelen < sp'.ftsPath.length

theorem growPath_within {namelen len maxlen : ℕ} (small : sp.ftsPath.length ≤ ptrdiffMax) (inside : len ≤ sp.ftsPath.length)
    (left : maxlen = sp.ftsPath.length - len) (named : ftsentSize namelen ≤ ptrdiffMax) :
    Within (fun r sp' => Apart sp sp' ∧ ∀ maxlen', r = some maxlen' → Roomy sp len namelen maxlen' sp')
      (growPath namelen len maxlen) sp := by
  unfold growPath
  split_ifs with full
  · have bound : namelen + len + 1 + 256 < 2 ^ 64 := by
      rw [ftsentSize, ptrdiffMax] at named
      rw [ptrdiffMax] at small
      omega
    apply Ends.bind (ftsPalloc_within small bound)
    rintro granted t ⟨apart, grown⟩
    split_ifs with enough
    · obtain ⟨starts, longer, small'⟩ := grown enough
      apply Ends.get_bind
      refine ⟨apart, ?_⟩
      rintro _ ⟨⟩
      exact ⟨apart, starts, small', rfl, by omega⟩
    · exact ⟨apart, nofun⟩
  · refine ⟨.refl sp, ?_⟩
    rintro _ ⟨⟩
    exact ⟨.refl sp, List.prefix_rfl, small, left, by omega⟩

private theorem writeNochdir_within {fails : Fault → FTS env → Prop} {offset : ℕ} {run : List UInt8}
    (room : offset + run.length ≤ sp.ftsPath.length) :
    Ends fails (fun _ sp' => Apart sp sp' ∧ sp'.ftsPath =
      if sp.ftsOptions.nochdir then overwrite sp.ftsPath offset run else sp.ftsPath) (writeNochdir offset run) sp := by
  apply Ends.get_bind
  split_ifs
  · apply (writePath_within room).mono
    rintro _ t rfl
    exact ⟨⟨rfl, rfl⟩, rfl⟩
  · exact ⟨.refl sp, rfl⟩

/-- The buffer is only written to behind some bytes, if at all. -/
structure Keeps (len : ℕ) (sp sp' : FTS env) : Prop where
  apart : Apart sp sp'
  longer : sp.ftsPath.length ≤ sp'.ftsPath.length
  small : sp'.ftsPath.length ≤ ptrdiffMax
  starts : ∀ start, start <+: sp.ftsPath → (sp.ftsOptions.nochdir = true → start.length ≤ len) → start <+: sp'.ftsPath

theorem Keeps.trans {len : ℕ} (first : Keeps len sp sp') (second : Keeps len sp' sp'') : Keeps len sp sp'' := by
  refine ⟨first.apart.trans second.apart, first.longer.trans second.longer, second.small, ?_⟩
  intro start starts before
  apply second.starts start (first.starts start starts before)
  rw [first.apart.options]
  exact before

theorem Keeps.of_view {len : ℕ} (small : sp.ftsPath.length ≤ ptrdiffMax) (view : sp'.view = sp.view) : Keeps len sp sp' := by
  obtain ⟨apart, path⟩ := view_eq view
  refine ⟨apart, ?_, ?_, fun start starts _ => ?_⟩
  · rw [path]
  · rw [path]
    exact small
  · rw [path]
    exact starts

theorem Roomy.keeps {len namelen maxlen : ℕ} (roomy : Roomy sp len namelen maxlen sp') : Keeps len sp sp' :=
  ⟨roomy.apart, roomy.starts.length_le, roomy.small, fun _ starts _ => starts.trans roomy.starts⟩

private theorem listEntry_within {newLen len : ℕ} {e : Dirent} (small : sp.ftsPath.length ≤ ptrdiffMax)
    (name : p.ftsName = e.dName) (room : len + e.dName.length < sp.ftsPath.length) (closed : p.ftsDirp = none) :
    Within (fun r sp' => (r.ftsPathlen = newLen ∧ r.ftsName = e.dName ∧ r.ftsLevel = cur.ftsLevel + 1 ∧
      r.ftsDirp = none) ∧ sp'.ftsPath.length = sp.ftsPath.length ∧ Keeps len sp sp') (listEntry cur p newLen len e) sp := by
  apply Ends.get_bind
  dsimp only
  rw [name]
  apply Ends.bind (writeNochdir_within (by rw [List.length_append, List.length_singleton]; omega))
  rintro _ t ⟨apart, path⟩
  have length : t.ftsPath.length = sp.ftsPath.length := by
    rw [path]
    split_ifs
    · exact length_overwrite (by rw [List.length_append, List.length_singleton]; omega)
    · exact rfl
  have keeps : Keeps len sp t := by
    refine ⟨apart, Nat.le_of_eq length.symm, length ▸ small, fun start starts before => ?_⟩
    rw [path]
    split_ifs with nochdir
    · exact prefix_overwrite starts (by omega) (before nochdir)
    · exact starts
  generalize (if sp.ftsOptions.nochdir = true then AccPath.ftsPath else .ftsName) = accpath
  split_ifs
  · exact ⟨⟨rfl, rfl, rfl, closed⟩, length, keeps⟩
  · apply (ftsStat_gives _ false t).mono
    rintro r u ⟨⟨stays, dirp⟩, view⟩
    refine ⟨⟨stays.pathlen, stays.name, stays.level, dirp.trans closed⟩, ?_, keeps.trans (.of_view keeps.small view)⟩
    rw [(view_eq view).2, length]

/-- What the loop leaves of a directory at a path: nothing was found, or all that was found has room. -/
def Collects (path : List UInt8) (rest : List Dirent) (head : List Ftsent) (sp : FTS env) (r : Listed) (sp' : FTS env) :
    Prop :=
  (r.head = [] ∧ head = [] ∧ sp'.view = sp.view ∧ (env.Reliable → ∀ e ∈ rest, Skipped sp e)) ∨
    r.head ≠ [] ∧ Keeps ((stem path).length + 1) sp sp' ∧ ∀ p ∈ r.head, Kid path sp'.ftsPath.length p ∧ Clean p

/-- The loop of `fts_build` ends, or gives up. -/
structure Loops (path : List UInt8) (cur : Ftsent) (rest : List Dirent) (head : List Ftsent) (sp : FTS env) (r : Listed)
    (sp' : FTS env) : Prop where
  stays : Stays cur r.cur
  clean : Clean r.cur
  ends : r.gaveUp = true ∧ Halts sp sp' ∨ r.gaveUp = false ∧ Collects path rest head sp r sp'

theorem Loops.after {rest : List Dirent} {head : List Ftsent} {r : Listed} {e : Dirent} (view : sp'.view = sp.view)
    (small : sp.ftsPath.length ≤ ptrdiffMax) (skipped : Skipped sp e) (loops : Loops path cur rest head sp' r sp'') :
    Loops path cur (e :: rest) head sp r sp'' := by
  obtain ⟨apart, -⟩ := view_eq view
  refine ⟨loops.stays, loops.clean, loops.ends.imp (fun halts => ⟨halts.1, halts.2.after apart⟩) ?_⟩
  rintro ⟨kept, nothing | found⟩
  · refine ⟨kept, .inl ⟨nothing.1, nothing.2.1, nothing.2.2.1.trans view, fun reliable => ?_⟩⟩
    refine List.forall_mem_cons.mpr ⟨skipped, fun e' member => ?_⟩
    have skipped' := nothing.2.2.2 reliable e' member
    unfold Skipped at skipped' ⊢
    rw [← apart.options]
    exact skipped'
  · exact ⟨kept, .inr ⟨found.1, Keeps.trans (.of_view small view) found.2.1, found.2.2⟩⟩

/-- What is found after an entry was added. -/
theorem Loops.added {rest rest' : List Dirent} {head : List Ftsent} {r : Listed}
    (keeps : Keeps ((stem path).length + 1) sp sp') (loops : Loops path cur rest (head ++ [p]) sp' r sp'') :
    Loops path cur rest' head sp r sp'' := by
  refine ⟨loops.stays, loops.clean, loops.ends.imp (fun halts => ⟨halts.1, halts.2.after keeps.apart⟩) ?_⟩
  rintro ⟨kept, nothing | found⟩
  · exact absurd nothing.2.1 (List.append_ne_nil_of_right_ne_nil _ nofun)
  · exact ⟨kept, .inr ⟨found.1, keeps.trans found.2.1, found.2.2⟩⟩

/-- The loop ends here. -/
theorem endOfDir_loops {fd : ℕ} {continueReaddir sort : Bool} {rest : List Dirent} {head : List Ftsent} {errno : Errno}
    (view : sp'.view = sp.view) (small : sp.ftsPath.length ≤ ptrdiffMax)
    (kids : ∀ p ∈ head, Kid path sp.ftsPath.length p ∧ Clean p) (finished : env.Reliable → rest = []) :
    Within (Loops path cur rest head sp) (endOfDir fd continueReaddir cur head sort errno) sp' := by
  apply Ends.mono endOfDir_within
  rintro r t ⟨stays, clean, same, kept, view'⟩
  have view := view'.trans view
  refine ⟨stays, clean, .inr ⟨kept, ?_⟩⟩
  cases head with
  | nil =>
    refine .inl ⟨same, rfl, view, fun reliable => ?_⟩
    rw [finished reliable]
    nofun
  | cons p head =>
    refine .inr ⟨same ▸ List.cons_ne_nil p head, .of_view small view, ?_⟩
    rw [same, (view_eq view).2]
    exact kids

private theorem giveUp_loops {fd : ℕ} {rest : List Dirent} {head : List Ftsent} {errno : Errno}
    (apart : Apart sp sp') :
    Within (Loops path cur rest head sp) (giveUp fd cur errno) sp' := by
  apply Ends.mono giveUp_within
  rintro r t ⟨stays, clean, stopped, halts⟩
  exact ⟨stays, clean, .inl ⟨stopped, halts.after apart⟩⟩

private theorem buildLoop_within {fd maxlen : ℕ} {continueReaddir sort : Bool} {rest : List Dirent}
    {head : List Ftsent}
    (level : 0 ≤ cur.ftsLevel) (small : sp.ftsPath.length ≤ ptrdiffMax)
    (inside : (stem path).length + 1 ≤ sp.ftsPath.length) (left : maxlen = sp.ftsPath.length - ((stem path).length + 1))
    (proper : ∀ e ∈ rest, Proper e.dName) (kids : ∀ p ∈ head, Kid path sp.ftsPath.length p ∧ Clean p) :
    Within (Loops path cur rest head sp)
      (buildLoop fd ((stem path).length + 1) continueReaddir rest cur head maxlen sort) sp := by
  induction rest generalizing sp head maxlen sort with
  | nil =>
    apply Ends.bind (setErrno_aside _ sp)
    rintro _ t ⟨-, view⟩
    apply Ends.bind (request_aside t)
    rintro errno u ⟨-, view'⟩
    exact endOfDir_loops (view'.trans view) small kids fun _ => rfl
  | cons e rest ih =>
    obtain ⟨named, proper⟩ := List.forall_mem_cons.mp proper
    apply Ends.bind (setErrno_aside _ sp)
    rintro _ t ⟨-, view⟩
    apply Ends.bind request_within
    rintro failure u ⟨working, view', -⟩
    have view := view'.trans view
    obtain ⟨apart, bytes⟩ := view_eq view
    cases failure with
    | some errno => exact endOfDir_loops view small kids fun reliable => nomatch working reliable
    | none =>
      apply Ends.get_bind
      split_ifs with dot
      · rw [Bool.and_eq_true, Bool.not_eq_true', apart.options] at dot
        rw [← bytes] at small inside left kids
        exact (ih small inside left proper kids).mono fun r v loops => loops.after view (bytes ▸ small) dot
      apply Ends.bind (ftsAlloc_gives e.dName u)
      rintro new v ⟨allocated, view'⟩
      have view := view'.trans view
      obtain ⟨apart, bytes⟩ := view_eq view
      cases new with
      | none =>
        apply Ends.bind (getErrno_aside v)
        rintro errno w ⟨-, view'⟩
        exact giveUp_loops (view_eq (view'.trans view)).1
      | some p =>
        obtain ⟨name, closed, size⟩ := allocated p rfl
        rw [← bytes] at small inside left
        apply Ends.bind (growPath_within small inside left size)
        rintro room w ⟨apart', roomy⟩
        cases room with
        | none =>
          apply Ends.bind (getErrno_aside w)
          rintro errno x ⟨-, view'⟩
          exact giveUp_loops ((apart.trans apart').trans (view_eq view').1)
        | some maxlen =>
          have roomy := roomy maxlen rfl
          have keeps : Keeps ((stem path).length + 1) sp w := (Keeps.of_view (bytes ▸ small) view).trans roomy.keeps
          have fits : sizeT ((stem path).length + 1 + e.dName.length) = (stem path).length + 1 + e.dName.length := by
            have small := roomy.small
            have room := roomy.room
            rw [ptrdiffMax] at small
            exact sizeT_of_lt (by omega)
          dsimp only
          rw [fits, if_neg (Nat.not_lt.mpr (Nat.le_add_right ..))]
          apply Ends.bind (listEntry_within roomy.small name roomy.room closed)
          rintro p x ⟨⟨pathlen, name, level', closed⟩, length, keeps'⟩
          apply Ends.bind (sortDecision_aside _ _ x)
          rintro sort y ⟨-, view'⟩
          have keeps' := keeps'.trans (.of_view keeps'.small view')
          have keeps'' := keeps.trans keeps'
          have kids : ∀ q ∈ head ++ [p], Kid path y.ftsPath.length q ∧ Clean q := by
            refine List.forall_mem_append.mpr ⟨fun q member => ?_, List.forall_mem_singleton.mpr ⟨?_, .of_none closed⟩⟩
            · exact ⟨(kids q member).1.grow keeps''.longer, (kids q member).2⟩
            · refine ⟨?_, ?_, ?_, name ▸ named⟩
              · rw [pathlen, name, length_join]
              · rw [pathlen]
                exact roomy.room.trans_le keeps'.longer
              · rw [level']
                omega
          split_ifs with enough
          · have found := List.append_ne_nil_of_right_ne_nil head (List.cons_ne_nil p [])
            refine ⟨⟨rfl, rfl, rfl, rfl, rfl⟩, ?_, .inr ⟨rfl, .inr ⟨found, keeps'', kids⟩⟩⟩
            rintro _ ⟨⟩
            exact proper
          · refine (ih keeps''.small ?_ ?_ proper kids).mono fun r z loops => loops.added keeps''
            · exact ((bytes ▸ inside : _ ≤ sp.ftsPath.length)).trans keeps''.longer
            · rw [roomy.left, (view_eq view').2, length]

private theorem ftsSort_gives (compare : Ftsent → Ftsent → ℤ) (head : List Ftsent) :
    Gives (·.Perm head) (ftsSort compare head : Action env (List Ftsent)) := by
  apply Preserves.bind (sortArray_aside _)
  intro sortable _
  apply Preserves.pure
  split_ifs
  · exact env.qsort_perm compare head
  · exact .refl head

theorem ftsSortGiven_gives (head : List Ftsent) :
    Gives (·.Perm head) (ftsSortGiven head : Action env (List Ftsent)) := by
  unfold ftsSortGiven
  split
  · exact .pure (.refl head)
  · split_ifs
    · exact ftsSort_gives _ head
    · exact .pure (.refl head)

theorem buildSort_gives (sortByInode : Bool) (head : List Ftsent) :
    Gives (·.Perm head) (buildSort sortByInode head : Action env (List Ftsent)) := by
  unfold buildSort
  split_ifs
  · apply Preserves.bind (ftsSort_gives _ head)
    intro listed perm
    exact (ftsSortGiven_gives listed).mono fun r perm' => perm'.trans perm
  · exact ftsSortGiven_gives head

/-! ## `fts_build` -/

/-- What is to be read of a directory that is open. -/
def unread (p : Ftsent) : List Dirent := (p.ftsDirp.map Dir.rest).getD []

theorem buildEntries_within {continueReaddir : Bool} (level : 0 ≤ cur.ftsLevel) (small : sp.ftsPath.length ≤ ptrdiffMax)
    (inside : (stem path).length + 1 ≤ sp.ftsPath.length) (clean : Clean cur) :
    Within (Loops path cur (unread cur) [] sp) (buildEntries ((stem path).length + 1) continueReaddir cur) sp := by
  unfold buildEntries unread
  cases open? : cur.ftsDirp with
  | none => exact ⟨.refl cur, clean, .inr ⟨rfl, .inl ⟨rfl, rfl, rfl, fun _ => nofun⟩⟩⟩
  | some dp =>
    apply Ends.get_bind
    exact buildLoop_within level small inside rfl (clean dp open?) (List.forall_mem_nil _)

/-- In `FTS_NOCHDIR` mode, a path ends in a slash that gets lost, and these entries are all skipped. -/
structure Trims (path : List UInt8) (rest : List Dirent) (sp : FTS env) : Prop where
  nochdir : sp.ftsOptions.nochdir = true
  ends : path.getLast? = some slash
  skipped : env.Reliable → ∀ e ∈ rest, Skipped sp e

/-- No entry was found. The path is still there, unless its slash is lost. -/
structure Emptied (path : List UInt8) (lost : Prop) (sp sp' : FTS env) : Prop where
  apart : Apart sp sp'
  longer : sp.ftsPath.length ≤ sp'.ftsPath.length
  small : sp'.ftsPath.length ≤ ptrdiffMax
  shown : ∃ path', path'.length = path.length ∧ stem path <+: path' ∧ path' ++ [0] <+: sp'.ftsPath ∧
    (path' = path ∨ lost)

/-- The entries that were found have room behind the path. -/
structure Filled (path : List UInt8) (head : List Ftsent) (sp sp' : FTS env) : Prop where
  apart : Apart sp sp'
  longer : sp.ftsPath.length ≤ sp'.ftsPath.length
  small : sp'.ftsPath.length ≤ ptrdiffMax
  starts : path <+: sp'.ftsPath
  kids : ∀ p ∈ head, Kid path sp'.ftsPath.length p ∧ Clean p

/-- What `fts_build` makes of a directory at a path. -/
structure Builds (path : List UInt8) (cur : Ftsent) (lost : Prop) (sp : FTS env) (r : List Ftsent × Ftsent)
    (sp' : FTS env) : Prop where
  stays : Stays cur r.2
  clean : Clean r.2
  ends : r.1 = [] ∧ Halts sp sp' ∨ r.1 = [] ∧ Emptied path lost sp sp' ∨ r.1 ≠ [] ∧ Filled path r.1 sp sp'

/-- With entries, the path ends where their names begin. -/
theorem buildEnd_filled {descended : Bool} {r : Listed} {lost : Prop} {before : FTS env}
    (apart : Apart before sp) (longer : before.ftsPath.length ≤ sp.ftsPath.length) (small : sp.ftsPath.length ≤ ptrdiffMax)
    (starts : ∃ start, start <+: sp.ftsPath ∧ path <+: start ∧
      (sp.ftsOptions.nochdir = true → start.length ≤ (stem path).length + 1))
    (stays : Stays cur r.cur) (clean : Clean r.cur) (found : r.head ≠ [])
    (kids : ∀ p ∈ r.head, Kid path sp.ftsPath.length p ∧ Clean p) :
    Within (Builds path cur lost before) (buildEnd parents descended ((stem path).length + 1) r) sp := by
  obtain ⟨start, starts, within', short⟩ := starts
  have room : (stem path).length + 1 < sp.ftsPath.length := by
    obtain ⟨p, member⟩ := List.exists_mem_of_ne_nil _ found
    obtain ⟨kid, -⟩ := kids p member
    have room := kid.room
    rw [kid.length, length_join] at room
    omega
  apply Ends.get_bind
  rw [if_neg (not_or.mpr ⟨Nat.ne_of_lt room, found⟩)]
  apply Ends.bind (writeNochdir_within (by rw [List.length_singleton]; omega))
  rintro _ t ⟨apart', bytes⟩
  have length : t.ftsPath.length = sp.ftsPath.length := by
    rw [bytes]
    split_ifs
    · exact length_overwrite (by rw [List.length_singleton]; omega)
    · exact rfl
  have kept : start <+: t.ftsPath := by
    rw [bytes]
    split_ifs with nochdir
    · exact prefix_overwrite starts (by omega) (short nochdir)
    · exact starts
  split
  · rename_i none
    exact absurd none found
  · apply Ends.bind (buildSort_gives _ _ t)
    rintro head u ⟨perm, view⟩
    obtain ⟨apart'', same⟩ := view_eq view
    refine ⟨stays, clean, .inr (.inr ⟨fun none => found (List.perm_nil.mp (none ▸ perm.symm)), ?_⟩)⟩
    refine ⟨(apart.trans apart').trans apart'', ?_, ?_, same ▸ within'.trans kept, fun p member => ?_⟩
    · rw [same, length]
      exact longer
    · rw [same, length]
      exact small
    · rw [same, length]
      exact kids p (perm.mem_iff.mp member)

theorem Emptied.of_view {lost : Prop} (emptied : Emptied path lost sp sp') (view : sp''.view = sp'.view) :
    Emptied path lost sp sp'' := by
  obtain ⟨apart, bytes⟩ := view_eq view
  obtain ⟨before, longer, small, shown⟩ := emptied
  rw [← bytes] at longer small shown
  exact ⟨before.trans apart, longer, small, shown⟩

/-- Without entries, the way back may fail. -/
theorem buildEnd_emptied {descended : Bool} {r : Listed} {lost : Prop} {before : FTS env}
    (room : (stem path).length < sp.ftsPath.length) (stays : Stays cur r.cur) (clean : Clean r.cur) (nothing : r.head = [])
    (after : ∀ t : FTS env, Apart sp t →
      t.ftsPath = (if sp.ftsOptions.nochdir then overwrite sp.ftsPath (stem path).length [0] else sp.ftsPath) →
      Emptied path lost before t) :
    Within (Builds path cur lost before) (buildEnd parents descended ((stem path).length + 1) r) sp := by
  apply Ends.get_bind
  rw [if_pos (.inr nothing), Nat.add_sub_cancel]
  apply Ends.bind (writeNochdir_within (by rw [List.length_singleton]; omega))
  rintro _ t ⟨apart, bytes⟩
  have emptied := after t apart bytes
  rw [nothing]
  have back : Aside env (if descended then buildReturn r.cur parents else pure false) := by grind
  apply Ends.bind (back t)
  rintro lost u ⟨-, view⟩
  have emptied := emptied.of_view view
  split_ifs
  · apply Ends.modify_bind
    exact ⟨⟨stays.address, stays.name, stays.level, stays.pathlen, stays.accpath⟩, clean,
      .inl ⟨rfl, emptied.apart.cur, by rw [← emptied.apart.options]⟩⟩
  · exact ⟨⟨stays.address, stays.name, stays.level, stays.pathlen, stays.accpath⟩, clean, .inr (.inl ⟨rfl, emptied⟩)⟩
  · exact ⟨stays, clean, .inr (.inl ⟨rfl, emptied⟩)⟩

/-- A slash and a NUL behind the stem leave the path, unless it ends in a slash itself. -/
theorem emptied_path {bytes : List UInt8} (shown : path ++ [0] <+: bytes) :
    ∃ path', path'.length = path.length ∧ stem path <+: path' ∧
      path' ++ [0] <+: overwrite (overwrite bytes (stem path).length [slash]) (stem path).length [0] ∧
      (path' = path ∨ path.getLast? = some slash) := by
  have starts : stem path <+: bytes := stem_starts.trans ((List.prefix_append ..).trans shown)
  rcases Decidable.em (path.getLast? = some slash) with ends | ends
  · obtain ⟨rest, rfl⟩ := shown
    refine ⟨stem path ++ [0], ?_, List.prefix_append .., ?_, .inr ends⟩
    · calc
        (stem path ++ [0]).length = (stem path ++ [slash]).length := by rw [List.length_append, List.length_append]; rfl
        _ = path.length := by rw [stem_of_slash ends]
    · have split : path ++ [0] ++ rest = stem path ++ [slash] ++ ([0] ++ rest) := by
        rw [stem_of_slash ends, List.append_assoc]
      rw [split, overwrite_middle rfl rfl, overwrite_middle rfl (show [0].length = [slash].length from rfl),
        ← List.append_assoc]
      exact List.prefix_append ..
  · refine ⟨path, rfl, stem_starts, ?_, .inl rfl⟩
    rw [stem_of_ne ends] at starts ⊢
    exact append_prefix_overwrite (prefix_overwrite starts starts.length_le (Nat.le_refl _))

private theorem buildRest_within {continueReaddir descended : Bool} (small : sp.ftsPath.length ≤ ptrdiffMax)
    (level : 0 ≤ cur.ftsLevel) (clean : Clean cur) (length : cur.ftsPathlen = path.length) (nonempty : path ≠ [])
    (shown : path ++ [0] <+: sp.ftsPath) :
    Within (Builds path cur (Trims path (unread cur) sp) sp) (buildRest parents continueReaddir descended cur) sp := by
  have starts : path <+: sp.ftsPath := (List.prefix_append ..).trans shown
  have room : path.length < sp.ftsPath.length := by
    have := shown.length_le
    rw [List.length_append, List.length_singleton] at this
    omega
  have shorter := @length_stem_le path
  apply Ends.bind (nappend_within starts length nonempty)
  rintro _ t ⟨rfl, unchanged⟩
  rw [unchanged]
  apply Ends.bind (writeNochdir_within (by rw [List.length_singleton]; omega))
  rintro _ u ⟨apart, bytes⟩
  have size : u.ftsPath.length = sp.ftsPath.length := by
    rw [bytes]
    split_ifs
    · exact length_overwrite (by rw [List.length_singleton]; omega)
    · exact rfl
  have small' : u.ftsPath.length ≤ ptrdiffMax := size ▸ small
  apply Ends.bind (buildEntries_within level small' (by omega) clean)
  rintro r v ⟨stays, clean', ends⟩
  rcases ends with ⟨gaveUp, halts⟩ | ⟨going, nothing | ⟨found, keeps, kids⟩⟩
  · rw [if_pos gaveUp]
    exact ⟨stays, clean', .inl ⟨rfl, halts.after apart⟩⟩
  · rw [if_neg (by rw [going]; nofun)]
    obtain ⟨nothing, -, view, skipped⟩ := nothing
    obtain ⟨apart', same⟩ := view_eq view
    apply buildEnd_emptied (by rw [same]; omega) stays clean' nothing
    intro w apart'' bytes'
    have overall := (apart.trans apart').trans apart''
    rw [apart'.options, apart.options, same, bytes] at bytes'
    have reliable : env.Reliable → ∀ e ∈ unread cur, Skipped sp e := by
      intro reliable e member
      have skipped := skipped reliable e member
      unfold Skipped at skipped ⊢
      rw [← apart.options]
      exact skipped
    cases mode : sp.ftsOptions.nochdir with
    | false =>
      simp only [mode, Bool.false_eq_true, ↓reduceIte] at bytes'
      exact ⟨overall, Nat.le_of_eq (by rw [bytes']), bytes' ▸ small, path, rfl, stem_starts, bytes' ▸ shown, .inl rfl⟩
    | true =>
      simp only [mode, ↓reduceIte] at bytes'
      have written := emptied_path shown
      rw [← bytes'] at written
      have length' : w.ftsPath.length = sp.ftsPath.length := by
        have length : ∀ {bytes run : List UInt8}, run.length = 1 → bytes.length = sp.ftsPath.length →
            (overwrite bytes (stem path).length run).length = sp.ftsPath.length := by
          intro bytes run one same
          rw [length_overwrite (by omega), same]
        rw [bytes']
        exact length List.length_singleton (length List.length_singleton rfl)
      obtain ⟨path', sized, starts', shown', kept⟩ := written
      refine ⟨overall, Nat.le_of_eq length'.symm, length' ▸ small, path', sized, starts', shown', ?_⟩
      exact kept.imp_right fun ends => ⟨mode, ends, reliable⟩
  · rw [if_neg (by rw [going]; nofun)]
    apply buildEnd_filled (apart.trans keeps.apart) (size ▸ keeps.longer) keeps.small _ stays clean' found kids
    cases mode : sp.ftsOptions.nochdir with
    | false =>
      simp only [mode, Bool.false_eq_true, ↓reduceIte] at bytes
      have other : ∀ {P : Prop}, u.ftsOptions.nochdir = true → P := by
        rw [apart.options, mode]
        nofun
      rw [keeps.apart.options]
      exact ⟨path, keeps.starts path (bytes ▸ starts) other, List.prefix_rfl, other⟩
    | true =>
      simp only [mode, ↓reduceIte] at bytes
      have length : (stem path ++ [slash]).length ≤ (stem path).length + 1 := by
        rw [List.length_append, List.length_singleton]
      have written : stem path ++ [slash] <+: u.ftsPath := bytes ▸ append_prefix_overwrite (stem_starts.trans starts)
      exact ⟨stem path ++ [slash], keeps.starts _ written fun _ => length, prefix_stem_slash, fun _ => length⟩

theorem Builds.of_view {lost lost' : Prop} {r : List Ftsent × Ftsent} {p : Ftsent} (view : sp'.view = sp.view)
    (stays : Stays cur p) (weaker : lost → lost') (builds : Builds path p lost sp' r sp'') :
    Builds path cur lost' sp r sp'' := by
  obtain ⟨apart, bytes⟩ := view_eq view
  refine ⟨stays.trans builds.stays, builds.clean, ?_⟩
  rcases builds.ends with halts | ⟨nothing, emptied⟩ | ⟨found, filled⟩
  · exact .inl ⟨halts.1, halts.2.after apart⟩
  · obtain ⟨before, longer, small, path', sized, starts, shown, kept⟩ := emptied
    refine .inr (.inl ⟨nothing, apart.trans before, bytes ▸ longer, small, path', sized, starts, shown, ?_⟩)
    exact kept.imp_right weaker
  · exact .inr (.inr ⟨found, apart.trans filled.apart, bytes ▸ filled.longer, filled.small, filled.starts, filled.kids⟩)

/-- A slash gets lost as the directory is blank. -/
structure Loses (path : List UInt8) (sp : FTS env) (p : Ftsent) : Prop where
  nochdir : sp.ftsOptions.nochdir = true
  ends : path.getLast? = some slash
  blank : env.Reliable → sp.ftsOptions.cwdfd = false → Blank sp p

theorem ftsBuild_within (names : Names env.fs) (small : sp.ftsPath.length ≤ ptrdiffMax) (level : 0 ≤ cur.ftsLevel)
    (clean : Clean cur) (length : cur.ftsPathlen = path.length) (nonempty : path ≠ []) (shown : path ++ [0] <+: sp.ftsPath) :
    Within (Builds path cur (Loses path sp cur) sp) (ftsBuild cur parents) sp := by
  apply Ends.bind (buildOpen_within names clean)
  rintro ⟨dirFd, p⟩ t ⟨begins, view⟩
  obtain ⟨apart, bytes⟩ := view_eq view
  cases dirFd with
  | none =>
    refine ⟨begins.stays, begins.clean, .inr (.inl ⟨rfl, apart, ?_, ?_, path, rfl, stem_starts, bytes ▸ shown, .inl rfl⟩)⟩
    · rw [bytes]
    · rw [bytes]
      exact small
  | some dirFd =>
    obtain ⟨real, dp, dirp, rest⟩ := begins.opened dirFd rfl
    dsimp only
    have after : ∀ {u : FTS env} {q : Ftsent} {continueReaddir descended : Bool}, u.view = t.view → Stays p q → Clean q →
        (t.ftsOptions.nochdir = true → t.ftsOptions.cwdfd = false → q = p) →
        Within (Builds path cur (Loses path sp cur) sp) (buildRest parents continueReaddir descended q) u := by
      intro u q continueReaddir descended view' stays clean same
      have stays' := begins.stays.trans stays
      obtain ⟨apart', bytes'⟩ := view_eq (view'.trans view)
      apply (buildRest_within (bytes' ▸ small) (stays'.level ▸ level) clean (stays'.pathlen.trans length) nonempty
        (bytes' ▸ shown)).mono
      intro r v builds
      refine builds.of_view (view'.trans view) stays' fun trims => ?_
      have nochdir : sp.ftsOptions.nochdir = true := apart'.options ▸ trims.nochdir
      refine ⟨nochdir, trims.ends, fun reliable cwdfd => ⟨dp.rest, rest, fun e member => ?_⟩⟩
      have here : q = p := same (apart.options ▸ nochdir) (apart.options ▸ cwdfd)
      have left : unread q = dp.rest := by
        rw [here, unread, show p.ftsDirp = some dp from dirp]
        rfl
      have skipped := trims.skipped reliable e (left ▸ member)
      unfold Skipped at skipped ⊢
      rw [← apart'.options]
      exact skipped
    split_ifs
    · exact after rfl (.refl p) begins.clean fun _ _ => rfl
    · apply Ends.bind (buildDescend_within real begins.clean)
      rintro ⟨descend, q⟩ u ⟨⟨stays, clean', view'⟩, same⟩
      exact after view' stays clean' same

end Yalibct.Fts.Path
