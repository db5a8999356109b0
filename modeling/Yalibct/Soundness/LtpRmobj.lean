import Mathlib.Data.List.Infix
import Yalibct.Model.LtpRmobj

/-! # What a removal leaves

Whatever may be refused in a tree, `rmobj` removes all that can be removed and nothing else, it returns 0 exactly
if the whole tree is gone, and no symbolic link leads it out of the tree.
-/

namespace Yalibct.Ltp.Rmobj

open Machine Getprogname

/-! ## What can be removed -/

section

variable (fs : FileSystem) (files : List (Path × Kind))

/-- A directory that cannot be entered. -/
def Shut (path : Path) : Prop :=
  (path, .directory) ∈ files ∧
    (fs.refuses .open path ≠ none ∨ fs.text path = [slash] ∨ fs.refuses .opendir path ≠ none)

/-- A path that the loop over its directory does not come to. -/
def Unlisted (path : Path) : Prop := ∃ above name, path = above ++ [name] ∧ name ∉ fs.listing above

/-- A file whose own removal fails. A directory with more than two links is not removed by `unlink`. -/
def Kept (path : Path) : Kind → Prop
  | .directory => fs.refuses .lstat path ≠ none ∨ 3 ≤ fs.nlink path ∨ fs.refuses .remove path ≠ none
  | _ => fs.refuses .unlink path ≠ none

/-- What the removal does not come to, or cannot remove. -/
def Spared (path : Path) (kind : Kind) : Prop :=
  Kept fs path kind ∨ ∃ above, above <+: path ∧ (Shut fs files above ∨ Unlisted fs above)

/-- What is spared, and what it is in. -/
def Survives (path : Path) : Prop := ∃ below kind, path <+: below ∧ (below, kind) ∈ files ∧ Spared fs files below kind

/-- The files of a tree, and what `readdir` says of them. -/
structure Tree : Prop where
  once : (files.map Prod.fst).Nodup
  above : ∀ {path name kind}, (path ++ [name], kind) ∈ files → (path, .directory) ∈ files
  named : ∀ {path name kind}, (path ++ [name], kind) ∈ files → name ≠ dot ∧ name ≠ dotDot
  listed : ∀ {path name}, name ∈ fs.listing path → name ≠ dot → name ≠ dotDot → ∃ kind, (path ++ [name], kind) ∈ files
  distinct : ∀ path, ((fs.listing path).filter fun name => name ≠ dot ∧ name ≠ dotDot).Nodup
  short : ∀ file ∈ files, (fs.text file.1).length < pathMax

end

variable {fs : FileSystem} {files : List (Path × Kind)} {path : Path} {kind : Kind} {s : Disk}

theorem Survives.above {below : Path} (survives : Survives fs files below) (under : path <+: below) :
    Survives fs files path := by
  obtain ⟨last, kind, inside, member, spared⟩ := survives
  exact ⟨last, kind, under.trans inside, member, spared⟩

namespace Tree

variable (tree : Tree fs files)
include tree

theorem directory_above {outer : Path} (member : (path, kind) ∈ files) (within : outer <+: path) (other : outer ≠ path) :
    (outer, .directory) ∈ files := by
  induction path using List.reverseRecOn generalizing kind with
  | nil => exact absurd (List.prefix_nil.mp within) other
  | append_singleton path name ih =>
    have directory := tree.above member
    rcases List.prefix_concat_iff.mp within with same | within
    · exact absurd same other
    · by_cases same : outer = path
      · rw [same]
        exact directory
      · exact ih directory within same

theorem kind_unique {other : Kind} (member : (path, kind) ∈ files) (member' : (path, other) ∈ files) : kind = other := by
  have same := List.inj_on_of_nodup_map tree.once member member' rfl
  exact (Prod.mk.inj same).2

theorem length_lt (member : (path, kind) ∈ files) : path.length < pathMax := by
  have short : (fs.text path).length < pathMax := tree.short _ member
  have names : ∀ path : Path, path.length ≤ (path.flatMap (slash :: ·)).length := by
    intro path
    induction path with
    | nil => exact Nat.zero_le _
    | cons name path ih =>
      rw [List.flatMap_cons, List.length_append, List.length_cons, List.length_cons]
      omega
  rw [FileSystem.text, List.length_append] at short
  have := names path
  omega

end Tree

/-! ## The calls -/

section

variable (tree : Tree fs files) (part : s.files.Sublist files)
include tree part

private theorem kind_eq (member : (path, kind) ∈ s.files) : s.kind path = some kind := by
  have once : (s.files.map Prod.fst).Nodup := tree.once.sublist (part.map Prod.fst)
  unfold Disk.kind
  generalize s.files = present at member once
  induction present with
  | nil => exact absurd member List.not_mem_nil
  | cons file present ih =>
    rw [List.map_cons, List.nodup_cons] at once
    rw [List.lookup_cons]
    rcases List.mem_cons.mp member with rfl | member
    · rw [beq_self_eq_true]
    · have other : path ≠ file.1 := fun same => once.1 (same ▸ List.mem_map_of_mem (f := Prod.fst) member)
      rw [beq_false_of_ne other]
      exact ih member once.2

private theorem resolve_eq (member : (path, kind) ∈ files) : s.resolve path = s := by
  have straight : s.through path = false := by
    rw [Disk.through, List.any_eq_false]
    rintro ⟨link, kind'⟩ present
    rw [decide_eq_true_iff]
    rintro ⟨rfl, within, other⟩
    have directory := tree.directory_above member within other
    exact absurd (tree.kind_unique (part.subset present) directory) (by decide)
  rw [Disk.resolve, straight, Bool.or_false]

end

section

variable (tree : Tree fs files) (part : s.files.Sublist files) (present : (path, kind) ∈ s.files)
include tree part present

private theorem openDirectory_ends {fails : Fault → Disk → Prop} :
    Ends fails (fun opened t => t = s ∧ (opened = true ↔ kind = .directory ∧ fs.refuses .open path = none))
      (openDirectory fs path) s := by
  refine .modify_bind (.get_bind ?_)
  rw [resolve_eq tree part (part.subset present), kind_eq tree part present]
  exact ⟨rfl, by simp⟩

private theorem opendir_ends {fails : Fault → Disk → Prop} (directory : kind = .directory) :
    Ends fails (fun opened t => t = s ∧ ((∃ errno, opened = .error errno ∧ fs.refuses .opendir path ≠ none) ∨
      opened = .ok (fs.listing path) ∧ fs.refuses .opendir path = none)) (opendir fs path) s := by
  refine .modify_bind (.get_bind ?_)
  rw [resolve_eq tree part (part.subset present), kind_eq tree part present, directory]
  cases refused : fs.refuses .opendir path with
  | none => exact ⟨rfl, .inr ⟨rfl, rfl⟩⟩
  | some errno => exact ⟨rfl, .inl ⟨errno, rfl, Option.some_ne_none errno⟩⟩

private theorem lstat_ends {fails : Fault → Disk → Prop} :
    Ends fails (fun found t => t = s ∧ ((∃ errno, found = .error errno ∧ fs.refuses .lstat path ≠ none) ∨
      found = .ok (fs.nlink path) ∧ fs.refuses .lstat path = none)) (lstat fs path) s := by
  refine .modify_bind (.get_bind ?_)
  rw [resolve_eq tree part (part.subset present), kind_eq tree part present]
  cases refused : fs.refuses .lstat path with
  | none => exact ⟨rfl, .inr ⟨rfl, rfl⟩⟩
  | some errno => exact ⟨rfl, .inl ⟨errno, rfl, Option.some_ne_none errno⟩⟩

private theorem unlink_ends {fails : Fault → Disk → Prop} :
    Ends fails (fun failed t => (∃ errno, failed = some errno) ∧ t = s ∧
      (kind = .directory ∨ fs.refuses .unlink path ≠ none) ∨
      failed = none ∧ t = s.delete path ∧ kind ≠ .directory ∧ fs.refuses .unlink path = none) (unlink fs path) s := by
  refine .modify_bind (.get_bind ?_)
  rw [resolve_eq tree part (part.subset present), kind_eq tree part present]
  cases kind with
  | directory => exact .inl ⟨⟨eisdir, rfl⟩, rfl, .inl rfl⟩
  | file | symlink =>
    cases refused : fs.refuses .unlink path with
    | none => exact .inr ⟨rfl, rfl, by decide, rfl⟩
    | some errno => exact .inl ⟨⟨errno, rfl⟩, rfl, .inr (Option.some_ne_none errno)⟩

private theorem remove_ends {fails : Fault → Disk → Prop} :
    Ends fails (fun failed t => (∃ errno, failed = some errno) ∧ t = s ∧
      (fs.refuses .remove path ≠ none ∨ s.isEmpty path = false) ∨
      failed = none ∧ t = s.delete path ∧ fs.refuses .remove path = none ∧ s.isEmpty path = true) (remove fs path) s := by
  refine .modify_bind (.get_bind ?_)
  rw [resolve_eq tree part (part.subset present), kind_eq tree part present]
  cases refused : fs.refuses .remove path with
  | some errno => exact .inl ⟨⟨errno, rfl⟩, rfl, .inl (Option.some_ne_none errno)⟩
  | none =>
    cases empty : s.isEmpty path with
    | false =>
      exact .inl ⟨⟨enotempty, rfl⟩, rfl, .inr rfl⟩
    | true =>
      exact .inr ⟨rfl, rfl, rfl, rfl⟩

end

/-! ## One file -/

section

variable (fs : FileSystem) (files : List (Path × Kind))

/-- What the returned value and the message say of a removal. -/
def Answers (path : Path) (s : Disk) (retVal : ℤ) (t : Disk) : Prop :=
  retVal = 0 ∧ ¬ Survives fs files path ∧ t.errmsg = s.errmsg ∨
    retVal = -1 ∧ Survives fs files path ∧
      ∃ message, t.errmsg = some message ∧ path <+: message.path ∧ Survives fs files message.path

/-- The end of a removal that is called in this state. -/
structure Leaves (path : Path) (s : Disk) (retVal : ℤ) (t : Disk) : Prop where
  left : ∀ file, file ∈ t.files ↔ file ∈ s.files ∧ (path <+: file.1 → Survives fs files file.1)
  part : t.files.Sublist s.files
  astray : t.astray = s.astray
  answers : Answers fs files path s retVal t

end

private theorem fail_leaves {m : Message} (names : m.path = path) (survives : Survives fs files path)
    (stay : ∀ file ∈ s.files, path <+: file.1 → Survives fs files file.1) {fails : Fault → Disk → Prop} :
    Ends fails (Leaves fs files path s) (fail m) s where
  left file := ⟨fun member => ⟨member, stay file member⟩, And.left⟩
  part := .refl _
  astray := rfl
  answers := .inr ⟨rfl, survives, m, rfl, by rw [names], by rwa [names]⟩

private theorem delete_leaves (gone : ¬ Survives fs files path)
    (alone : ∀ file ∈ s.files, path <+: file.1 → file.1 = path) : Leaves fs files path s 0 (s.delete path) where
  left file := by
    rw [Disk.delete, List.mem_filter, decide_eq_true_iff]
    constructor
    · rintro ⟨member, other⟩
      exact ⟨member, fun below => absurd (alone file member below) other⟩
    · rintro ⟨member, survives⟩
      refine ⟨member, fun same => gone ?_⟩
      rw [← same]
      exact survives (by rw [same])
  part := List.filter_sublist
  astray := rfl
  answers := .inl ⟨rfl, gone, rfl⟩

section

variable (fs : FileSystem) (files : List (Path × Kind))

/-- A call of `rmobj` for a path that its callers have come to. -/
structure Comes (path : Path) (s : Disk) : Prop where
  part : s.files.Sublist files
  whole : ∀ file ∈ files, path <+: file.1 → file ∈ s.files
  listed : ∀ above, above <+: path → ¬ Unlisted fs above
  entered : ∀ above, above <+: path → above ≠ path → ¬ Shut fs files above

end

/-- A directory that the removal does not enter keeps all that is in it. -/
theorem Shut.survives (shut : Shut fs files path) {file : Path × Kind} (member : file ∈ files) (below : path <+: file.1) :
    Survives fs files file.1 :=
  ⟨file.1, file.2, List.prefix_rfl, member, .inr ⟨path, below, .inl shut⟩⟩

section

variable (tree : Tree fs files)
include tree

/-- Only a directory has something in it. -/
theorem Tree.alone (member : (path, kind) ∈ files) (other : kind ≠ .directory) {file : Path × Kind}
    (inside : file ∈ files) (below : path <+: file.1) : file.1 = path := by
  by_contra strict
  exact other (tree.kind_unique member (tree.directory_above inside below (Ne.symm strict)))

/-- What comes to a path finds its own reasons to keep it. -/
theorem Comes.survives_iff (comes : Comes fs files path s) (member : (path, kind) ∈ files)
    (open' : ¬ Shut fs files path) : Survives fs files path ↔
      Kept fs path kind ∨ ∃ file ∈ files, path <+: file.1 ∧ file.1 ≠ path ∧ Survives fs files file.1 := by
  constructor
  · rintro ⟨below, kind', under, inside, spared⟩
    by_cases same : below = path
    · subst same
      rw [tree.kind_unique member inside]
      refine .inl (spared.resolve_right ?_)
      rintro ⟨above, within, shut | unlisted⟩
      · by_cases here : above = below
        · rw [here] at shut
          exact open' shut
        · exact comes.entered above within here shut
      · exact comes.listed above within unlisted
    · exact .inr ⟨(below, kind'), inside, under, same, below, kind', List.prefix_rfl, inside, spared⟩
  · rintro (kept | ⟨file, _, below, _, survives⟩)
    · exact ⟨path, kind, List.prefix_rfl, member, .inl kept⟩
    · exact survives.above below

end

private theorem unlink_leaves (tree : Tree fs files) (comes : Comes fs files path s) (member : (path, kind) ∈ files)
    (closed : ¬ (kind = .directory ∧ fs.refuses .open path = none)) {fails : Fault → Disk → Prop} :
    Ends fails (Leaves fs files path s) (unlink fs path >>= answer .unlink path) s := by
  have present := comes.whole _ member List.prefix_rfl
  refine (unlink_ends tree comes.part present).bind ?_
  by_cases directory : kind = .directory
  · subst directory
    have shut : Shut fs files path := ⟨member, .inl fun granted => closed ⟨rfl, granted⟩⟩
    rintro failed t (⟨⟨errno, rfl⟩, rfl, refused⟩ | ⟨rfl, rfl, other, granted⟩)
    · exact fail_leaves (m := .failed .unlink path errno) rfl (shut.survives member List.prefix_rfl)
        fun file inside => shut.survives (comes.part.subset inside)
    · exact absurd rfl other
  · have kept : Kept fs path kind ↔ fs.refuses .unlink path ≠ none := by
      cases kind with
      | directory => exact absurd rfl directory
      | file | symlink => rfl
    have entered : ¬ Shut fs files path := fun shut => directory (tree.kind_unique member shut.1)
    have alone (file : Path × Kind) (inside : file ∈ s.files) (below : path <+: file.1) : file.1 = path :=
      tree.alone member directory (comes.part.subset inside) below
    have survives := comes.survives_iff tree member entered
    rintro failed t (⟨⟨errno, rfl⟩, rfl, refused⟩ | ⟨rfl, rfl, other, granted⟩)
    · have stays : Survives fs files path := survives.mpr (.inl (kept.mpr (refused.resolve_left directory)))
      refine fail_leaves (m := .failed .unlink path errno) rfl stays fun file inside below => ?_
      rw [alone file inside below]
      exact stays
    · refine delete_leaves (fun stays => ?_) alone
      rcases survives.mp stays with refused | ⟨file, inside, below, strict, _⟩
      · exact kept.mp refused granted
      · exact strict (tree.alone member directory inside below)

/-! ## One directory -/

/-- What of a listing the loop does not skip. -/
def entries (names : List Name) : List Name := names.filter fun name => name ≠ dot ∧ name ≠ dotDot

/-- The loop is through with these names. -/
structure Purged (fs : FileSystem) (files : List (Path × Kind)) (path : Path) (names : List Name) (retVal : ℤ) (s : Disk)
    (final : ℤ) (t : Disk) : Prop where
  left : ∀ file, file ∈ t.files ↔
    file ∈ s.files ∧ ∀ name ∈ entries names, path ++ [name] <+: file.1 → Survives fs files file.1
  part : t.files.Sublist s.files
  astray : t.astray = s.astray
  answers : (∀ name ∈ entries names, ¬ Survives fs files (path ++ [name])) ∧ final = retVal ∧ t.errmsg = s.errmsg ∨
    (∃ name ∈ entries names, Survives fs files (path ++ [name])) ∧ final = -1 ∧
      ∃ message, t.errmsg = some message ∧ path <+: message.path ∧ Survives fs files message.path

/-- Different entries of a directory have nothing in common. -/
theorem prefix_disjoint {name other : Name} {file : Path} (below : path ++ [name] <+: file)
    (below' : path ++ [other] <+: file) : name = other := by
  have same := List.prefix_of_prefix_length_le below below' (by simp)
  simpa using same.eq_of_length (by simp)

theorem Comes.next {name other : Name} {retVal : ℤ} {t : Disk} (comes : Comes fs files (path ++ [other]) s)
    (leaves : Leaves fs files (path ++ [name]) s retVal t) (different : name ≠ other) :
    Comes fs files (path ++ [other]) t where
  part := leaves.part.trans comes.part
  whole file member below := (leaves.left file).mpr
    ⟨comes.whole file member below, fun below' => absurd (prefix_disjoint below' below) different⟩
  listed := comes.listed
  entered := comes.entered

/-- One name and the rest. -/
theorem Purged.cons {name : Name} {names : List Name} {removed retVal final : ℤ} {t u : Disk}
    (taken : entries (name :: names) = name :: entries names) (leaves : Leaves fs files (path ++ [name]) s removed t)
    (purged : Purged fs files path names (if removed ≠ 0 then -1 else retVal) t final u) :
    Purged fs files path (name :: names) retVal s final u where
  left file := by
    rw [purged.left, leaves.left, taken, List.forall_mem_cons, and_assoc]
  part := purged.part.trans leaves.part
  astray := purged.astray.trans leaves.astray
  answers := by
    rw [taken, List.forall_mem_cons, List.exists_mem_cons_iff]
    rcases leaves.answers with ⟨rfl, gone, quiet⟩ | ⟨rfl, stays, message, told, below, survives⟩
    · refine purged.answers.imp ?_ ?_
      · rintro ⟨others, same, quiet'⟩
        exact ⟨⟨gone, others⟩, same, quiet'.trans quiet⟩
      · rintro ⟨stay, failed⟩
        exact ⟨.inr stay, failed⟩
    · refine .inr ⟨.inl stays, ?_⟩
      rcases purged.answers with ⟨_, same, quiet⟩ | ⟨_, failed⟩
      · exact ⟨same, message, quiet.trans told, (List.prefix_append path [name]).trans below, survives⟩
      · exact failed

private theorem purgeEntries_ends {rmobj : Path → Removal ℤ} {names : List Name} {retVal : ℤ}
    (removes : ∀ name ∈ entries names, ∀ s, Comes fs files (path ++ [name]) s →
      Ends (fun _ _ => False) (Leaves fs files (path ++ [name]) s) (rmobj (path ++ [name])) s)
    (short : ∀ name ∈ entries names, (fs.text (path ++ [name])).length < pathMax)
    (distinct : (entries names).Nodup) (comes : ∀ name ∈ entries names, Comes fs files (path ++ [name]) s) :
    Ends (fun _ _ => False) (Purged fs files path names retVal s) (purgeEntries fs rmobj path names retVal) s := by
  induction names generalizing s retVal with
  | nil =>
    exact ⟨fun file => (and_iff_left fun _ member => absurd member List.not_mem_nil).symm, .refl _, rfl,
      .inl ⟨fun _ member => absurd member List.not_mem_nil, rfl, rfl⟩⟩
  | cons name names ih =>
    rw [purgeEntries]
    by_cases skipped : name = dot ∨ name = dotDot
    · rw [if_pos skipped]
      have same : entries (name :: names) = entries names := List.filter_cons_of_neg (by simpa [or_iff_not_imp_left] using skipped)
      rw [same] at removes short distinct comes
      refine (ih removes short distinct comes).mono fun final t purged => ?_
      exact ⟨by rw [same]; exact purged.left, purged.part, purged.astray, by rw [same]; exact purged.answers⟩
    · have taken : entries (name :: names) = name :: entries names := List.filter_cons_of_pos (by simpa using skipped)
      rw [taken] at removes short distinct comes
      rw [List.nodup_cons] at distinct
      rw [if_neg skipped, if_neg (Nat.not_le.mpr (short name List.mem_cons_self))]
      refine (removes name List.mem_cons_self s (comes name List.mem_cons_self)).bind fun removed t leaves => ?_
      have rest : Ends _ (Purged fs files path names (if removed ≠ 0 then -1 else retVal) t) _ t := ih
        (fun other member => removes other (List.mem_cons_of_mem _ member))
        (fun other member => short other (List.mem_cons_of_mem _ member)) distinct.2
        (fun other member => (comes other (List.mem_cons_of_mem _ member)).next leaves
          fun same => distinct.1 (same ▸ member))
      exact rest.mono fun final u purged => purged.cons taken leaves

theorem isEmpty_iff : s.isEmpty path = true ↔ ∀ file ∈ s.files, path <+: file.1 → file.1 = path := by
  rw [Disk.isEmpty, List.all_eq_true]
  simp only [decide_eq_true_iff, or_iff_not_imp_left, not_not]

private theorem removeEmptied_leaves (tree : Tree fs files) (part : s.files.Sublist files)
    (present : (path, .directory) ∈ s.files)
    (inside : ∀ file ∈ s.files, path <+: file.1 → file.1 ≠ path → Survives fs files file.1)
    (survives : Survives fs files path ↔ Kept fs path .directory ∨ s.isEmpty path = false)
    {fails : Fault → Disk → Prop} : Ends fails (Leaves fs files path s) (removeEmptied fs path) s := by
  have stay (stays : Survives fs files path) (file : Path × Kind) (member : file ∈ s.files) (below : path <+: file.1) :
      Survives fs files file.1 := by
    by_cases same : file.1 = path
    · rw [same]
      exact stays
    · exact inside file member below same
  have refuse (call : Call) (errno : ℕ) (stays : Survives fs files path) :
      Ends fails (Leaves fs files path s) (fail (.failed call path errno)) s :=
    fail_leaves (m := .failed call path errno) rfl stays (stay stays)
  refine (lstat_ends tree part present).bind ?_
  rintro found t ⟨rfl, ⟨errno, rfl, refused⟩ | ⟨rfl, granted⟩⟩
  · exact refuse .lstat errno (survives.mpr (.inl (.inl refused)))
  · by_cases linked : 3 ≤ fs.nlink path
    · simp only [linked, ↓reduceIte]
      refine (unlink_ends tree part present).bind ?_
      rintro failed u (⟨⟨errno, rfl⟩, rfl, _⟩ | ⟨_, _, other, _⟩)
      · exact refuse .unlink errno (survives.mpr (.inl (.inr (.inl linked))))
      · exact absurd rfl other
    · simp only [linked, ↓reduceIte]
      refine (remove_ends tree part present).bind ?_
      rintro failed u (⟨⟨errno, rfl⟩, rfl, refused | full⟩ | ⟨rfl, rfl, removable, empty⟩)
      · exact refuse .remove errno (survives.mpr (.inl (.inr (.inr refused))))
      · exact refuse .remove errno (survives.mpr (.inr full))
      · refine delete_leaves (fun stays => ?_) (isEmpty_iff.mp empty)
        rcases survives.mp stays with (refused | many | refused) | full
        · exact refused granted
        · exact linked many
        · exact refused removable
        · rw [empty] at full
          cases full

/-! ## The tree -/

/-- A path below another one goes through an entry of it. -/
theorem exists_entry {below : Path} (under : path <+: below) (strict : below ≠ path) :
    ∃ name, path ++ [name] <+: below := by
  obtain ⟨tail, rfl⟩ := under
  cases tail with
  | nil => exact absurd (List.append_nil path) strict
  | cons name tail => exact ⟨name, tail, by rw [List.append_assoc, List.singleton_append]⟩

/-- The directory itself is not touched by the loop. -/
theorem Purged.mem_self {names : List Name} {final : ℤ} {t : Disk} {file : Path × Kind} (same : file.1 = path)
    (purged : Purged fs files path names 0 s final t) : file ∈ t.files ↔ file ∈ s.files := by
  rw [purged.left, and_iff_left]
  intro name _ under
  have longer := under.length_le
  rw [same, List.length_append, List.length_singleton] at longer
  omega

section

variable (tree : Tree fs files)
include tree

private theorem mem_entries {name : Name} {below : Path} (member : (below, kind) ∈ files)
    (under : path ++ [name] <+: below) :
    name ∈ entries (fs.listing path) ↔ ¬ Unlisted fs (path ++ [name]) := by
  have named : name ≠ dot ∧ name ≠ dotDot := by
    by_cases same : path ++ [name] = below
    · exact tree.named (same ▸ member)
    · exact tree.named (tree.directory_above member under same)
  rw [entries, List.mem_filter, decide_eq_true_iff, and_iff_left named]
  constructor
  · rintro listed ⟨above, name', same, unlisted⟩
    have ends := List.append_inj' same rfl
    rw [ends.1, List.singleton_inj.mp ends.2] at listed
    exact unlisted listed
  · intro listed
    by_contra unlisted
    exact listed ⟨path, name, rfl, unlisted⟩

/-- Nothing is left of a directory that was gone through but what survives. -/
theorem Purged.emptied {final : ℤ} {t : Disk} (comes : Comes fs files path s)
    (purged : Purged fs files path (fs.listing path) 0 s final t) {file : Path × Kind} (below : path <+: file.1)
    (strict : file.1 ≠ path) : file ∈ t.files ↔ file ∈ files ∧ Survives fs files file.1 := by
  obtain ⟨name, under⟩ := exists_entry below strict
  rw [purged.left]
  constructor
  · rintro ⟨member, survive⟩
    have member := comes.part.subset member
    refine ⟨member, ?_⟩
    by_cases unlisted : Unlisted fs (path ++ [name])
    · exact ⟨file.1, file.2, List.prefix_rfl, member, .inr ⟨_, under, .inr unlisted⟩⟩
    · exact survive name ((mem_entries tree member under).mpr unlisted) under
  · rintro ⟨member, survives⟩
    exact ⟨comes.whole file member below, fun _ _ _ => survives⟩

/-- A directory with an entry that survives is left. -/
theorem Purged.leaves {t : Disk} (comes : Comes fs files path s)
    (purged : Purged fs files path (fs.listing path) 0 s (-1) t)
    (stays : ∃ name ∈ entries (fs.listing path), Survives fs files (path ++ [name]))
    (told : ∃ message, t.errmsg = some message ∧ path <+: message.path ∧ Survives fs files message.path) :
    Leaves fs files path s (-1) t where
  left file := by
    obtain ⟨name, _, survives⟩ := stays
    have here : Survives fs files path := survives.above (List.prefix_append path [name])
    by_cases below : path <+: file.1
    · by_cases same : file.1 = path
      · rw [purged.mem_self same, and_iff_left]
        rw [same]
        exact fun _ => here
      · rw [purged.emptied tree comes below same]
        exact ⟨fun ⟨member, survive⟩ => ⟨comes.whole file member below, fun _ => survive⟩,
          fun ⟨member, survive⟩ => ⟨comes.part.subset member, survive below⟩⟩
    · rw [purged.left]
      refine and_congr_right fun _ => ⟨fun _ inside => absurd inside below, fun _ name _ under => ?_⟩
      exact absurd ((List.prefix_append path [name]).trans under) below
  part := purged.part
  astray := purged.astray
  answers := by
    obtain ⟨name, _, survives⟩ := stays
    exact .inr ⟨rfl, survives.above (List.prefix_append path [name]), told⟩

/-- What is done about an emptied directory completes its removal. -/
theorem Purged.complete {final ret : ℤ} {t u : Disk} (comes : Comes fs files path s)
    (purged : Purged fs files path (fs.listing path) 0 s final t) (quiet : t.errmsg = s.errmsg)
    (leaves : Leaves fs files path t ret u) : Leaves fs files path s ret u where
  left file := by
    rw [leaves.left]
    by_cases below : path <+: file.1
    · by_cases same : file.1 = path
      · rw [purged.mem_self same]
      · rw [purged.emptied tree comes below same]
        exact ⟨fun ⟨⟨member, survive⟩, _⟩ => ⟨comes.whole file member below, fun _ => survive⟩,
          fun ⟨member, survive⟩ => ⟨⟨comes.part.subset member, survive below⟩, survive⟩⟩
    · rw [purged.left, and_assoc]
      refine and_congr_right fun _ => ⟨And.right, fun survive => ⟨fun name _ under => ?_, survive⟩⟩
      exact absurd ((List.prefix_append path [name]).trans under) below
  part := leaves.part.trans purged.part
  astray := leaves.astray.trans purged.astray
  answers := by
    have answers := leaves.answers
    rwa [Answers, quiet] at answers

/-- An entry is come to from its directory. -/
theorem Comes.entry (comes : Comes fs files path s) (entered : ¬ Shut fs files path) {name : Name}
    (listed : name ∈ entries (fs.listing path)) : Comes fs files (path ++ [name]) s where
  part := comes.part
  whole file member below := comes.whole file member ((List.prefix_append path [name]).trans below)
  listed above within := by
    rcases List.prefix_concat_iff.mp within with rfl | within
    · rw [entries, List.mem_filter, decide_eq_true_iff] at listed
      obtain ⟨kind, member⟩ := tree.listed listed.1 listed.2.1 listed.2.2
      refine (mem_entries tree member List.prefix_rfl).mp ?_
      rw [entries, List.mem_filter, decide_eq_true_iff]
      exact listed
    · exact comes.listed above within
  entered above within other := by
    rcases List.prefix_concat_iff.mp within with same | within
    · exact absurd same other
    · by_cases here : above = path
      · rw [here]
        exact entered
      · exact comes.entered above within here

private theorem purgeDir_ends {rmobj : Path → Removal ℤ} (comes : Comes fs files path s)
    (member : (path, .directory) ∈ files)
    (opens : fs.refuses .open path = none)
    (removes : ∀ name kind s, (path ++ [name], kind) ∈ files → Comes fs files (path ++ [name]) s →
      Ends (fun _ _ => False) (Leaves fs files (path ++ [name]) s) (rmobj (path ++ [name])) s) :
    Ends (fun _ _ => False) (fun retVal t => retVal = -1 ∧ Leaves fs files path s (-1) t ∨
      retVal = 0 ∧ ¬ Shut fs files path ∧ Purged fs files path (fs.listing path) 0 s 0 t ∧ t.errmsg = s.errmsg)
      (purgeDir fs rmobj path) s := by
  have present := comes.whole _ member List.prefix_rfl
  have refuse {m : Message} (shut : Shut fs files path) (names : m.path = path) :
      Ends (fun _ _ => False) (fun retVal t => retVal = -1 ∧ Leaves fs files path s (-1) t) (fail m) s := by
    have leaves : Ends (fun _ _ => False) (Leaves fs files path s) (fail m) s :=
      fail_leaves names (shut.survives member List.prefix_rfl) fun file inside =>
        shut.survives (comes.part.subset inside)
    exact ⟨rfl, leaves⟩
  rw [purgeDir]
  by_cases root : fs.text path = [slash]
  · rw [if_pos root]
    exact (refuse ⟨member, .inr (.inl root)⟩ rfl).mono fun _ _ => .inl
  · rw [if_neg root]
    refine (opendir_ends tree comes.part present rfl).bind ?_
    rintro opened t ⟨rfl, ⟨errno, rfl, refused⟩ | ⟨rfl, granted⟩⟩
    · exact (refuse ⟨member, .inr (.inr refused)⟩ rfl).mono fun _ _ => .inl
    · have entered : ¬ Shut fs files path := by
        rintro ⟨_, shut | shut | shut⟩
        · exact shut opens
        · exact root shut
        · exact shut granted
      have exists_kind {name : Name} (listed : name ∈ entries (fs.listing path)) :
          ∃ kind, (path ++ [name], kind) ∈ files := by
        rw [entries, List.mem_filter, decide_eq_true_iff] at listed
        exact tree.listed listed.1 listed.2.1 listed.2.2
      refine (purgeEntries_ends (fun name listed s comes => ?_) (fun name listed => ?_) (tree.distinct path)
        fun name listed => comes.entry tree entered listed).mono fun final u purged => ?_
      · obtain ⟨kind, inside⟩ := exists_kind listed
        exact removes name kind s inside comes
      · obtain ⟨kind, inside⟩ := exists_kind listed
        exact tree.short _ inside
      · rcases purged.answers with ⟨_, rfl, quiet⟩ | ⟨stays, rfl, told⟩
        · exact .inr ⟨rfl, entered, purged, quiet⟩
        · exact .inl ⟨rfl, purged.leaves tree comes stays told⟩

private theorem rmobj_leaves {fuel : ℕ} (comes : Comes fs files path s) (member : (path, kind) ∈ files)
    (enough : pathMax ≤ fuel + path.length) :
    Ends (fun _ _ => False) (Leaves fs files path s) (rmobj fs fuel path) s := by
  induction fuel generalizing path kind s with
  | zero =>
    have short := tree.length_lt member
    omega
  | succ fuel ih =>
    have present := comes.whole _ member List.prefix_rfl
    refine (openDirectory_ends tree comes.part present).bind ?_
    rintro opened t ⟨rfl, opens⟩
    cases opened with
    | false => exact unlink_leaves tree comes member fun opened => absurd (opens.mpr opened) (by decide)
    | true =>
      obtain ⟨rfl, granted⟩ := opens.mp rfl
      refine (purgeDir_ends tree comes member granted fun name kind s inside comes => ih comes inside ?_).bind ?_
      · rw [List.length_append, List.length_singleton]
        omega
      · rintro retVal u (⟨rfl, leaves⟩ | ⟨rfl, entered, purged, quiet⟩)
        · exact leaves
        · refine (removeEmptied_leaves tree (purged.part.trans comes.part) ((purged.mem_self rfl).mpr present)
            (fun file inside below strict => ((purged.emptied tree comes below strict).mp inside).2) ?_).mono
            fun ret v leaves => purged.complete tree comes quiet leaves
          rw [comes.survives_iff tree member entered, ← Bool.not_eq_true, isEmpty_iff]
          refine or_congr_right ?_
          push Not
          refine exists_congr fun file => ?_
          constructor
          · rintro ⟨inside, below, strict, survives⟩
            exact ⟨(purged.emptied tree comes below strict).mpr ⟨inside, survives⟩, below, strict⟩
          · rintro ⟨inside, below, strict⟩
            obtain ⟨inside, survives⟩ := (purged.emptied tree comes below strict).mp inside
            exact ⟨inside, below, strict, survives⟩

end

/-- A directory with a link `l` and a directory `a`, in which the file `f` cannot be removed. -/
def sticky : FileSystem where
  obj := [47, 116]
  refuses call path := if call = .unlink ∧ path = [[97], [102]] then some 13 else none
  listing path := if path = [] then [dot, [108], dotDot, [97]] else if path = [[97]] then [dot, dotDot, [102]] else []
  nlink _ := 2

def stickyFiles : List (Path × Kind) :=
  [([], .directory), ([[97]], .directory), ([[97], [102]], .file), ([[108]], .symlink)]

private theorem sticky_tree : Tree sticky stickyFiles where
  once := by decide
  above {path name kind} member := by
    have parents : ∀ file ∈ stickyFiles, file.1 = [] ∨ (file.1.dropLast, Kind.directory) ∈ stickyFiles := by decide
    simpa using parents _ member
  named {path name kind} member := by
    have names : ∀ file ∈ stickyFiles, ∀ name ∈ file.1, name ≠ dot ∧ name ≠ dotDot := by decide
    exact names _ member name (List.mem_append_right _ List.mem_cons_self)
  listed {path name} member other other' := by
    rw [sticky] at member
    dsimp only at member
    split_ifs at member with top inner
    · subst top
      simp only [List.mem_cons, List.not_mem_nil, other, other', false_or, or_false] at member
      rcases member with rfl | rfl
      · exact ⟨.symlink, by decide⟩
      · exact ⟨.directory, by decide⟩
    · subst inner
      simp only [List.mem_cons, List.not_mem_nil, other, other', false_or, or_false] at member
      rw [member]
      exact ⟨.file, by decide⟩
    · cases member
  distinct path := by
    rw [sticky]
    dsimp only
    split_ifs
    · decide
    · decide
    · exact List.nodup_nil
  short := by decide

end Yalibct.Ltp.Rmobj
