import Mathlib.Algebra.GroupWithZero.Nat
import Mathlib.Algebra.Order.BigOperators.Group.List
import Mathlib.Algebra.Order.Group.Nat
import Yalibct.Model.FtsTour
import Yalibct.Soundness.FtsBuild
import Yalibct.Soundness.FtsPath

/-! # The visits of a finite tree

Where every directory is lower than the one that it is in, there are visits, they are bounded in number, and
where sorting leaves no choice there is one list of them.
-/

namespace Yalibct.Fts.Visit

open Machine

variable {env : Env} {o : Options} {fs : FileSystem} {dev : ℕ} {level : ℤ} {m : Mark} {ms ms' vs vs' : List Mark}
variable {rest rest' head es : List Dirent} {e : Dirent} {name path : List UInt8} {follow : Bool}

/-! ## What is seen -/

private theorem kind_eq_d {sb : Stat} (info : kind name level sb = .d) :
    sb.stMode = some .directory ∧ (level ≠ rootLevel → isDot name = false) := by
  unfold kind at info
  split_ifs at info with directory dot root
  · exact ⟨directory, fun inner => absurd root inner⟩
  · exact ⟨directory, fun _ => Bool.not_eq_true _ ▸ dot⟩

private theorem kind_directory {sb : Stat} (directory : sb.stMode = some .directory)
    (plain : level ≠ rootLevel → isDot name = false) :
    kind name level sb = .d := by
  unfold kind
  rw [if_pos directory]
  split_ifs with dot root
  · rfl
  · rw [plain root] at dot
    cases dot
  · rfl

theorem kind_ne {sb : Stat} : kind name level sb ≠ .nsok ∧ kind name level sb ≠ .dp ∧ kind name level sb ≠ .init := by
  unfold kind
  split_ifs <;> exact ⟨nofun, nofun, nofun⟩

theorem seen_ne {dir : fs.Node} : (seen fs dir path follow m).info ≠ .nsok ∧ (seen fs dir path follow m).info ≠ .dp ∧
    (seen fs dir path follow m).info ≠ .init := by
  unfold seen
  split
  · exact kind_ne
  · split_ifs
    · split
      · exact ⟨nofun, nofun, nofun⟩
      · exact ⟨nofun, nofun, nofun⟩
    · exact ⟨nofun, nofun, nofun⟩

/-- A directory that is seen is one. -/
theorem seen_eq_d {dir : fs.Node} (info : (seen fs dir path follow m).info = .d) :
    ∃ c, fs.resolve dir path follow = .ok c ∧ (fs.stat c).stMode = some .directory ∧
      (m.level ≠ rootLevel → isDot m.name = false) ∧ seen fs dir path follow m = { m with info := .d, statp := fs.stat c } := by
  unfold seen at info ⊢
  cases resolved : fs.resolve dir path follow with
  | ok c =>
    rw [resolved] at info
    obtain ⟨directory, plain⟩ := kind_eq_d info
    refine ⟨c, rfl, directory, plain, ?_⟩
    change { m with info := kind m.name m.level (fs.stat c), statp := fs.stat c } = _
    rw [kind_directory directory plain]
  | error errno =>
    rw [resolved] at info
    dsimp only at info
    split_ifs at info
    · split at info
      · cases info
      · cases info
    · cases info

/-- What a root is called does not show in its kind. -/
theorem kind_root {name' : List UInt8} {sb : Stat} : kind name rootLevel sb = kind name' rootLevel sb := by
  unfold kind
  simp only [↓reduceIte, ite_self]

theorem seen_root {dir : fs.Node} (root : m.level = rootLevel) :
    seen fs dir path follow { m with name := name } = { seen fs dir path follow m with name := name } := by
  unfold seen missing
  cases fs.resolve dir path follow with
  | ok c =>
    change Mark.mk _ _ (kind name m.level (fs.stat c)) _ _ = Mark.mk _ _ (kind m.name m.level (fs.stat c)) _ _
    rw [root, kind_root]
  | error errno =>
    dsimp only
    split_ifs
    · cases fs.resolve dir path false with
      | ok c => rfl
      | error errno => rfl
    · rfl

/-! ## What is listed -/

/-- What was known before does not show. -/
theorem seen_congr {dir : fs.Node} {m' : Mark} (name : m.name = m'.name) (level : m.level = m'.level)
    (errno : m.errno = m'.errno) : seen fs dir path follow m = seen fs dir path follow m' := by
  unfold seen missing
  rw [name, level, errno]

private theorem seen_name {dir : fs.Node} : (seen fs dir path follow m).name = m.name := by
  unfold seen missing
  split
  · rfl
  · split_ifs
    · split
      · rfl
      · rfl
    · rfl

theorem seen_level {dir : fs.Node} : (seen fs dir path follow m).level = m.level := by
  unfold seen missing
  split
  · rfl
  · split_ifs
    · split
      · rfl
      · rfl
    · rfl

theorem listed_name (dir : env.fs.Node) (level : ℤ) (e : Dirent) : (listed env o dir level e).name = e.dName := by
  unfold listed
  split_ifs
  · rfl
  · exact seen_name

/-- An entry that was listed is not asked for, or its status is seen in the end. -/
theorem checked_listed (dir : env.fs.Node) (level : ℤ) (e : Dirent) :
    checked env.fs dir (listed env o dir level e) = listed env o dir level e ∧ (listed env o dir level e).info = .nsok ∨
      ∃ m, m.name = e.dName ∧ m.level = level ∧ m.errno = 0 ∧
        checked env.fs dir (listed env o dir level e) = seen env.fs dir e.dName false m := by
  unfold listed
  split_ifs with deferred
  · dsimp only
    split_ifs with required
    · exact .inl ⟨if_neg fun asked => absurd (show noStatRequired = statRequired from asked.2) (by decide), rfl⟩
    · exact .inr ⟨_, rfl, rfl, rfl, if_pos ⟨rfl, rfl⟩⟩
  · exact .inr ⟨_, rfl, rfl, rfl, if_neg fun asked => seen_ne.1 asked.1⟩

/-- A directory that was listed. -/
theorem listed_directory {dir : env.fs.Node} (info : (checked env.fs dir (listed env o dir level e)).info = .d)
    (inner : level ≠ rootLevel) : ∃ c, env.fs.resolve dir e.dName false = .ok c ∧
      (env.fs.stat c).stMode = some .directory ∧ isDot e.dName = false ∧
      checked env.fs dir (listed env o dir level e) = ⟨e.dName, level, .d, 0, env.fs.stat c⟩ := by
  rcases checked_listed dir level e with ⟨same, other⟩ | ⟨m, called, at_level, clean, result⟩
  · rw [same, other] at info
    cases info
  · rw [result] at info ⊢
    obtain ⟨c, resolved, directory, plain, same⟩ := seen_eq_d info
    rw [called, at_level] at plain
    refine ⟨c, resolved, directory, plain inner, ?_⟩
    rw [same, called, at_level, clean]

/-! ## Parts of a directory -/

private theorem batch_sublist (most : ℕ) (rest head : List Dirent) :
    ((batch o most rest head).1 ++ (batch o most rest head).2).Sublist (head ++ rest) := by
  induction rest generalizing head with
  | nil => exact List.Sublist.refl _
  | cons e rest ih =>
    unfold batch
    split_ifs
    · exact (ih head).trans ((List.sublist_cons_self e rest).append_left head)
    · rw [List.append_assoc, List.singleton_append]
    · have tail := ih (head ++ [e])
      rw [List.append_assoc, List.singleton_append] at tail
      exact tail

theorem mem_of_batch {most : ℕ} (part : batch o most rest [] = (es, rest')) : es.Sublist rest ∧ rest'.Sublist rest := by
  have sublist := @batch_sublist o most rest []
  rw [part, List.nil_append] at sublist
  exact ⟨(List.sublist_append_left ..).trans sublist, (List.sublist_append_right ..).trans sublist⟩

/-! ## Sizes -/

/-- Every directory is lower than the one that it is in. -/
def Finite (fs : FileSystem) (height : fs.Node → ℕ) : Prop :=
  ∀ {d c : fs.Node} {e : Dirent}, e ∈ fs.entries d → isDot e.dName = false → fs.resolve d e.dName false = .ok c →
    (fs.stat c).stMode = some .directory → height c < height d

/-- A bound for what is returned of an entry, with one for what is returned of a directory. -/
def weight (fs : FileSystem) (below : fs.Node → ℕ) (d : fs.Node) (name : List UInt8) : ℕ :=
  2 + match fs.resolve d name false with | .ok c => below c | .error _ => 0

/-- A bound for what is returned of these entries, and of those that are still to be read. -/
def total (fs : FileSystem) (below : fs.Node → ℕ) (d : fs.Node) (ms : List Mark) (rest : List Dirent) : ℕ :=
  (ms.map fun m => weight fs below d m.name).sum + (rest.map fun e => 1 + weight fs below d e.dName).sum

/-- A bound for what is returned of a directory that is not above this height. -/
def size (fs : FileSystem) : ℕ → fs.Node → ℕ
  | 0, _ => 0
  | h + 1, d => total fs (size fs h) d [] (fs.entries d)

/-- Entries of a directory, and what is still to be read of it. -/
structure Among (env : Env) (o : Options) (d : env.fs.Node) (level : ℤ) (ms : List Mark) (rest : List Dirent) : Prop where
  members : ∀ m ∈ ms, ∃ e ∈ env.fs.entries d, m = listed env o d (level + 1) e
  unread : ∀ e ∈ rest, e ∈ env.fs.entries d
  inner : 0 ≤ level

theorem Sorts.perm {env : Env} (sorts : Sorts env ms ms') : ms'.Perm ms := by
  obtain ⟨byInode, head, head', sp, sp', -, ran, rfl, rfl⟩ := sorts
  exact ((Path.buildSort_gives byInode head sp).of_ok ran).1.map mark

theorem Among.part {d : env.fs.Node} {most : ℕ} (among : Among env o d level [] rest) (part : batch o most rest [] = (es, rest'))
    (perm : ms.Perm (es.map (listed env o d (level + 1)))) : Among env o d level ms rest' := by
  obtain ⟨read, left⟩ := mem_of_batch part
  refine ⟨fun m member => ?_, fun e member => among.unread e (left.subset member), among.inner⟩
  obtain ⟨e, chosen, rfl⟩ := List.mem_map.mp (perm.mem_iff.mp member)
  exact ⟨e, among.unread e (read.subset chosen), rfl⟩

theorem Among.tail {d : env.fs.Node} (among : Among env o d level (m :: ms) rest) : Among env o d level ms rest :=
  { among with members := (List.forall_mem_cons.mp among.members).2 }

/-- A directory that is one of the entries. -/
theorem Among.directory {d : env.fs.Node} (among : Among env o d level (m :: ms) rest)
    (info : (checked env.fs d m).info = .d) : ∃ e ∈ env.fs.entries d, e.dName = m.name ∧ ∃ c,
      env.fs.resolve d m.name false = .ok c ∧ (env.fs.stat c).stMode = some .directory ∧ isDot m.name = false ∧
        checked env.fs d m = ⟨m.name, level + 1, .d, 0, env.fs.stat c⟩ := by
  obtain ⟨e, member, rfl⟩ := among.members m (List.mem_cons_self ..)
  have := among.inner
  obtain ⟨c, resolved, directory, plain, result⟩ := listed_directory info (by rw [rootLevel]; omega)
  rw [listed_name]
  exact ⟨e, member, rfl, c, resolved, directory, plain, result⟩

private theorem total_part {d : fs.Node} {below : fs.Node → ℕ} {most : ℕ}
    (part : batch o most rest [] = (es, rest')) :
    (es.map fun e => 1 + weight fs below d e.dName).sum + (rest'.map fun e => 1 + weight fs below d e.dName).sum ≤
      total fs below d [] rest := by
  have sublist := @batch_sublist o most rest []
  rw [part, List.nil_append] at sublist
  have shorter := (sublist.map fun e => 1 + weight fs below d e.dName).sum_le_sum fun _ _ => Nat.zero_le _
  rw [List.map_append, List.sum_append] at shorter
  rw [total, List.map_nil, List.sum_nil, Nat.zero_add]
  exact shorter

private theorem total_cons (below : fs.Node → ℕ) (d : fs.Node) (m : Mark) (ms : List Mark) (rest : List Dirent) :
    total fs below d (m :: ms) rest = weight fs below d m.name + total fs below d ms rest := by
  rw [total, total, List.map_cons, List.sum_cons, Nat.add_assoc]

/-- The entries that are read at once count less than they did before, as many as there are. -/
theorem total_sorted {d : env.fs.Node} {most : ℕ} (below : env.fs.Node → ℕ) (part : batch o most rest [] = (es, rest'))
    (perm : ms.Perm (es.map (listed env o d (level + 1)))) :
    es.length + total env.fs below d ms rest' ≤ total env.fs below d [] rest := by
  have parts := @total_part o env.fs rest rest' es d below most part
  have counted : (es.map fun e => 1 + weight env.fs below d e.dName).sum =
      es.length + (es.map fun e => weight env.fs below d e.dName).sum := by
    rw [List.sum_map_add, List.map_const', List.sum_replicate_nat, Nat.mul_one]
  have same : (ms.map fun m => weight env.fs below d m.name).sum = (es.map fun e => weight env.fs below d e.dName).sum := by
    rw [(perm.map _).sum_eq, List.map_map]
    simp only [Function.comp_def, listed_name]
  rw [total, same]
  omega

/-- What is returned is bounded. -/
theorem Tour.length_le {height : env.fs.Node → ℕ} (finite : Finite env.fs height) {d : env.fs.Node} {h : ℕ}
    (tour : Tour env o dev d level ms rest vs) (among : Among env o d level ms rest) (low : height d < h) :
    vs.length ≤ total env.fs (size env.fs (h - 1)) d ms rest := by
  induction tour generalizing h with
  | done nothing => exact Nat.zero_le _
  | read part found sorted later ih =>
    have bound := ih (among.part part sorted.perm) low
    have parts := total_sorted (size env.fs (h - 1)) part sorted.perm
    omega
  | @entry d level m ms rest vs other later ih =>
    have bound := ih among.tail low
    have first : 2 ≤ weight env.fs (size env.fs (h - 1)) d m.name := Nat.le_add_right ..
    rw [total_cons, List.length_cons]
    omega
  | @directory d level m ms rest c inner vs info found near within later ihc ih =>
    have bound := ih among.tail low
    obtain ⟨e, member, called, c', resolved, isDir, plain, -⟩ := among.directory info
    cases found.symm.trans resolved
    have lower := finite member (called ▸ plain) (called ▸ found) isDir
    have first : weight env.fs (size env.fs (h - 1)) d m.name = 2 + size env.fs (h - 1) c := by
      rw [weight, found]
    obtain ⟨k, rfl⟩ : ∃ k, h = k + 2 := ⟨h - 2, by omega⟩
    have contents := ihc ⟨List.forall_mem_nil _, fun _ => id, by have := among.inner; omega⟩
      (show height c < k + 1 by omega)
    change inner.length ≤ size env.fs (k + 1) c at contents
    rw [total_cons, first, List.length_append, List.length_cons, List.length_cons]
    change _ ≤ 2 + size env.fs (k + 1) c + _
    omega
  | @beyond d level m ms rest c vs info found far later ih =>
    have bound := ih among.tail low
    have first : 2 ≤ weight env.fs (size env.fs (h - 1)) d m.name := Nat.le_add_right ..
    rw [total_cons, List.length_cons, List.length_cons]
    omega

/-! ## There are visits -/

/-- An entry that shows this. -/
def showing (m : Mark) : Ftsent where
  address := 0
  ftsCycle := none
  ftsDirp := none
  ftsAccpath := .ftsName
  ftsErrno := m.errno
  ftsSymfd := 0
  ftsPathlen := 0
  ftsLevel := m.level
  ftsName := m.name
  ftsInfo := m.info
  dontchdir := false
  symfollow := false
  ftsInstr := .noInstr
  ftsStatp := m.statp

private theorem mark_showing (shown : known m.info m.statp = m.statp) : mark (showing m) = m := by
  change (⟨m.name, m.level, m.info, m.errno, known m.info m.statp⟩ : Mark) = m
  rw [shown]

private theorem known_listed (d : env.fs.Node) (level : ℤ) (e : Dirent) :
    known (listed env o d level e).info (listed env o d level e).statp = (listed env o d level e).statp := by
  unfold listed
  split_ifs
  · exact if_pos rfl
  · exact if_neg seen_ne.1

/-- Sorting always has a result. -/
theorem Sorts.exists (reliable : env.Reliable) (sp : FTS env) (d : env.fs.Node) (level : ℤ) (es : List Dirent) :
    ∃ ms, Sorts env (es.map (listed env o d level)) ms := by
  have head : ((es.map (listed env o d level)).map showing).map mark = es.map (listed env o d level) := by
    rw [List.map_map, List.map_map]
    exact List.map_congr_left fun e _ => mark_showing (known_listed d level e)
  have some : ∃ byInode, ByInode env es.length byInode := by
    unfold ByInode
    split_ifs
    · exact ⟨_, 0, rfl⟩
    · exact ⟨false, rfl⟩
  obtain ⟨byInode, choice⟩ := some
  have ends : Ends (fun _ _ => False) _ (buildSort byInode ((es.map (listed env o d level)).map showing)) sp :=
    buildSort_spec reliable
  unfold Ends at ends
  split at ends
  · rename_i sorted t ran
    refine ⟨_, byInode, _, sorted, sp, t, ?_, ran, head, rfl⟩
    rw [List.length_map, List.length_map]
    exact choice
  · exact ends.elim

/-- Entries of a directory, whatever is left of it, are followed by visits. -/
theorem Tour.exists {height : env.fs.Node → ℕ} (reliable : env.Reliable) (sp : FTS env) (finite : Finite env.fs height)
    {h : ℕ} {d : env.fs.Node} (among : Among env o d level ms rest) (low : height d < h) :
    ∃ vs, Tour env o dev d level ms rest vs := by
  induction bound : total env.fs (size env.fs (h - 1)) d ms rest using Nat.strong_induction_on
    generalizing d h level ms rest with
  | h n ih =>
    subst bound
    cases ms with
    | nil =>
      rcases part : batch o env.maxEntries rest [] with ⟨es, rest'⟩
      rcases eq_or_ne es [] with none | some
      · exact ⟨[], .done (by rw [part, none])⟩
      · obtain ⟨ms, sorted⟩ := Sorts.exists (o := o) reliable sp d (level + 1) es
        have parts := total_sorted (size env.fs (h - 1)) part sorted.perm
        have length := List.length_pos_iff.mpr some
        obtain ⟨vs, later⟩ := ih _ (by omega) (among.part part sorted.perm) low rfl
        exact ⟨vs, .read part some sorted later⟩
    | cons m ms =>
      have first : 2 ≤ weight env.fs (size env.fs (h - 1)) d m.name := Nat.le_add_right ..
      have sum := total_cons (size env.fs (h - 1)) d m ms rest
      obtain ⟨vs, later⟩ := ih _ (by omega) among.tail low rfl
      by_cases info : (checked env.fs d m).info = .d
      · obtain ⟨e, member, called, c, found, isDir, plain, -⟩ := among.directory info
        by_cases far : o.xdev ∧ (env.fs.stat c).stDev ≠ dev
        · exact ⟨_, .beyond info found far later⟩
        · have lower := finite member (called ▸ plain) (called ▸ found) isDir
          obtain ⟨k, rfl⟩ : ∃ k, h = k + 2 := ⟨h - 2, by omega⟩
          have less : total env.fs (size env.fs k) c [] (env.fs.entries c) < total env.fs (size env.fs (k + 1)) d (m :: ms) rest := by
            have weighed : weight env.fs (size env.fs (k + 1)) d m.name = 2 + size env.fs (k + 1) c := by
              rw [weight, found]
            rw [total_cons, weighed]
            change size env.fs (k + 1) c < _
            omega
          have inner : Among env o c (level + 1) [] (env.fs.entries c) :=
            ⟨List.forall_mem_nil _, fun _ => id, by have := among.inner; omega⟩
          obtain ⟨inside, within⟩ := ih _ less inner (show height c < k + 1 by omega) rfl
          exact ⟨_, .directory info found far within later⟩
      · exact ⟨_, .entry info later⟩

/-! ## Visits of the arguments -/

/-- A bound for what is returned of the arguments. -/
def most (env : Env) (o : Options) (start : env.fs.Node) (height : env.fs.Node → ℕ) (args : List (List UInt8)) : ℕ :=
  (args.map fun arg => 2 + match env.fs.resolve start arg o.comfollow with
    | .ok c => size env.fs (height c + 1) c
    | .error _ => 0).sum

theorem Roots.length_le {height : env.fs.Node → ℕ} (finite : Finite env.fs height) {start : env.fs.Node}
    {args : List (List UInt8)} (roots : Roots env o start args vs) : vs.length ≤ most env o start height args := by
  unfold most
  induction roots with
  | done => exact Nat.zero_le _
  | entry other later ih =>
    rw [List.length_cons, List.map_cons, List.sum_cons]
    omega
  | @directory arg args c inner vs directory found within later ih =>
    have contents := within.length_le finite ⟨List.forall_mem_nil _, fun _ => id, Int.le_refl _⟩ (Nat.lt_succ_self (height c))
    change inner.length ≤ size env.fs (height c + 1) c at contents
    rw [List.length_append, List.length_cons, List.length_cons, List.map_cons, List.sum_cons, found]
    dsimp only
    omega

theorem Roots.exists {height : env.fs.Node → ℕ} (reliable : env.Reliable) (sp : FTS env) (finite : Finite env.fs height)
    (start : env.fs.Node) (args : List (List UInt8)) : ∃ vs, Roots env o start args vs := by
  induction args with
  | nil => exact ⟨[], .done⟩
  | cons arg args ih =>
    obtain ⟨vs, later⟩ := ih
    by_cases info : (rootSeen env o start arg).info = .d
    · obtain ⟨c, found, -⟩ := seen_eq_d (m := unseen arg rootLevel) info
      have among : Among env o c rootLevel [] (env.fs.entries c) := ⟨List.forall_mem_nil _, fun _ => id, Int.le_refl _⟩
      obtain ⟨inner, within⟩ : ∃ inner, Tour env o (env.fs.stat c).stDev c rootLevel [] (env.fs.entries c) inner :=
        Tour.exists reliable sp finite among (Nat.lt_succ_self (height c))
      exact ⟨_, .directory info found within later⟩
    · exact ⟨_, .entry info later⟩

/-- The bound does not depend on the order of the arguments. -/
theorem most_perm {height : env.fs.Node → ℕ} {start : env.fs.Node} {args args' : List (List UInt8)} (perm : args'.Perm args) :
    most env o start height args' = most env o start height args :=
  (perm.map _).sum_eq

end Yalibct.Fts.Visit
