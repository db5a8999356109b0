import Yalibct.Model.FtsCalls

/-! # System calls that do not fail

Where no request is made to fail, a call depends on the file system and on the open descriptors only,
and changes nothing but these.
-/

namespace Yalibct.Fts

open Machine

variable {env : Env} {fails : Fault → FTS env → Prop} {sp sp' sp'' : FTS env}

/-- No request for memory and no system call is made to fail. -/
def Env.Reliable (env : Env) : Prop := ∀ n, env.fails n = none

/-- Only the kernel changed, in which these descriptors are open now. -/
structure Leaves (fds : Descriptors env.fs.Node) (sp sp' : FTS env) : Prop where
  fds : sp'.kernel.fds = fds
  cwd : sp'.kernel.cwd = sp.kernel.cwd
  rest : sp' = { sp with kernel := sp'.kernel }

namespace Leaves

variable {fds fds' : Descriptors env.fs.Node}

theorem refl (sp : FTS env) : Leaves sp.kernel.fds sp sp := ⟨rfl, rfl, rfl⟩

theorem trans (first : Leaves fds sp sp') (second : Leaves fds' sp' sp'') : Leaves fds' sp sp'' := by
  refine ⟨second.fds, second.cwd.trans first.cwd, ?_⟩
  rw [second.rest, first.rest]

/-- A change that leaves the descriptors of a state leaves those it had before. -/
theorem then_same (first : Leaves fds sp sp') (second : Leaves sp'.kernel.fds sp' sp'') : Leaves fds sp sp'' :=
  first.trans (first.fds ▸ second)

theorem base (leaves : Leaves sp.kernel.fds sp sp') (fd : ℤ) : sp'.kernel.base fd = sp.kernel.base fd := by
  rw [Kernel.base, Kernel.base, leaves.fds, leaves.cwd]

end Leaves

/-- A new descriptor is open, and refers to the node. -/
def Opens (node : env.fs.Node) (sp : FTS env) (r : ℤ) (sp' : FTS env) : Prop :=
  ∃ n : ℕ, r = n ∧ n ∉ sp.kernel.fds.numbers ∧ Leaves (sp.kernel.fds.insert n node) sp sp'

theorem Opens.after {node : env.fs.Node} {r : ℤ} (same : Leaves sp.kernel.fds sp sp')
    (opens : Opens node sp' r sp'') : Opens node sp r sp'' := by
  obtain ⟨n, rfl, unused, leaves⟩ := opens
  rw [same.fds] at unused leaves
  exact ⟨n, rfl, unused, same.trans leaves⟩

theorem base_natCast {Node : Type} (k : Kernel Node) (fd : ℕ) : k.base fd = k.fds.find fd := by
  have other : (fd : ℤ) ≠ atFdcwd := by
    rw [atFdcwd]
    omega
  rw [Kernel.base, if_neg other, if_pos (Int.natCast_nonneg fd), Int.toNat_natCast]

section Unfailing

variable (reliable : env.Reliable)

include reliable in
theorem request_spec : Ends fails (fun r sp' => r = none ∧ Leaves sp.kernel.fds sp sp') request sp :=
  ⟨reliable _, rfl, rfl, rfl⟩

theorem setErrno_spec {errno : Errno} :
    Ends fails (fun _ sp' => Leaves sp.kernel.fds sp sp') (setErrno errno) sp :=
  ⟨rfl, rfl, rfl⟩

theorem getErrno_spec : Ends fails (fun _ sp' => Leaves sp.kernel.fds sp sp') getErrno sp := .refl sp

theorem use_spec {fd : ℤ} :
    Ends fails (fun r sp' => r = sp.kernel.base fd ∧ Leaves sp.kernel.fds sp sp') (use fd) sp :=
  ⟨rfl, rfl, rfl, rfl⟩

theorem failed_spec {errno : Errno} :
    Ends fails (fun r sp' => r = -1 ∧ Leaves sp.kernel.fds sp sp') (failed errno) sp :=
  ⟨rfl, rfl, rfl, rfl⟩

theorem install_spec {node : env.fs.Node} : Ends fails (Opens node sp) (install node) sp :=
  ⟨_, rfl, env.numbering.unused, rfl, rfl, rfl⟩

include reliable in
theorem openat_spec {fd : ℤ} {path : List UInt8} {follow : Bool} {dir node : env.fs.Node}
    (base : sp.kernel.base fd = some dir) (resolved : env.fs.resolve dir path follow = .ok node)
    (directory : (env.fs.stat node).stMode = some .directory) :
    Ends fails (Opens node sp) (openat fd path follow) sp := by
  apply Ends.bind (request_spec reliable)
  rintro _ t ⟨rfl, same⟩
  apply Ends.bind use_spec
  rintro _ u ⟨rfl, same'⟩
  simp only [same.base, base, resolved, directory, ↓reduceIte]
  exact install_spec.mono fun r v opens => opens.after (same.then_same same')

include reliable in
theorem dupfd_spec {fd : ℕ} {node : env.fs.Node} (found : sp.kernel.fds.find fd = some node) :
    Ends fails (Opens node sp) (dupfd fd) sp := by
  apply Ends.bind (request_spec reliable)
  rintro _ t ⟨rfl, same⟩
  simp only [Int.not_lt.mpr (Int.natCast_nonneg fd), ↓reduceIte]
  apply Ends.bind use_spec
  rintro _ u ⟨rfl, same'⟩
  simp only [same.base, base_natCast, found]
  exact install_spec.mono fun r v opens => opens.after (same.then_same same')

include reliable in
/-- There is no copy of `AT_FDCWD`. -/
theorem dupfd_atFdcwd_spec :
    Ends fails (fun r sp' => r = -1 ∧ Leaves sp.kernel.fds sp sp') (dupfd atFdcwd) sp := by
  apply Ends.bind (request_spec reliable)
  rintro _ t ⟨rfl, same⟩
  exact failed_spec.mono fun r u result => ⟨result.1, same.then_same result.2⟩

include reliable in
theorem close_returns {fd : ℕ} {node : env.fs.Node} (found : sp.kernel.fds.find fd = some node) :
    Ends fails (fun r sp' => r = 0 ∧ Leaves (sp.kernel.fds.close fd) sp sp') (close fd) sp := by
  simp only [close, Int.not_lt.mpr (Int.natCast_nonneg fd), ↓reduceIte]
  apply Ends.bind use_spec
  rintro _ t ⟨rfl, same⟩
  simp only [base_natCast, found]
  apply Ends.modify_bind
  have closed : Leaves (sp.kernel.fds.close fd) sp
      { t with kernel := { t.kernel with fds := t.kernel.fds.close (fd : ℤ).toNat } } := by
    refine ⟨by rw [same.fds, Int.toNat_natCast], same.cwd, ?_⟩
    rw [same.rest]
  apply Ends.bind (request_spec reliable)
  rintro _ u ⟨rfl, same'⟩
  exact ⟨rfl, closed.then_same same'⟩

include reliable in
theorem close_spec {fd : ℕ} {node : env.fs.Node} (found : sp.kernel.fds.find fd = some node) :
    Ends fails (fun _ sp' => Leaves (sp.kernel.fds.close fd) sp sp') (close fd) sp :=
  (close_returns reliable found).mono fun _ _ result => result.2

theorem close_negative_spec {fd : ℤ} (negative : fd < 0) :
    Ends fails (fun _ sp' => Leaves sp.kernel.fds sp sp') (close fd) sp := by
  simp only [close, negative, ↓reduceIte]
  exact failed_spec.mono fun r t result => result.2

include reliable in
theorem fstat_spec {fd : ℕ} {node : env.fs.Node} (found : sp.kernel.fds.find fd = some node) :
    Ends fails (fun r sp' => r = some (env.fs.stat node) ∧ Leaves sp.kernel.fds sp sp') (fstat fd) sp := by
  apply Ends.bind (request_spec reliable)
  rintro _ t ⟨rfl, same⟩
  simp only [Int.not_lt.mpr (Int.natCast_nonneg fd), ↓reduceIte]
  apply Ends.bind use_spec
  rintro _ u ⟨rfl, same'⟩
  simp only [same.base, base_natCast, found]
  exact ⟨rfl, same.then_same same'⟩

include reliable in
theorem fstatat_spec {fd : ℤ} {path : List UInt8} {follow : Bool} {dir : env.fs.Node}
    (base : sp.kernel.base fd = some dir) :
    Ends fails (fun r sp' => r = (env.fs.resolve dir path follow).toOption.map env.fs.stat ∧
      Leaves sp.kernel.fds sp sp') (fstatat fd path follow) sp := by
  apply Ends.bind (request_spec reliable)
  rintro _ t ⟨rfl, same⟩
  apply Ends.bind use_spec
  rintro _ u ⟨rfl, same'⟩
  simp only [same.base, base]
  cases env.fs.resolve dir path follow with
  | ok node => exact ⟨rfl, same.then_same same'⟩
  | error errno =>
    exact .bind setErrno_spec fun _ v leaves => ⟨rfl, (same.then_same same').then_same leaves⟩

include reliable in
theorem fdopendir_spec {fd : ℕ} {node : env.fs.Node} (found : sp.kernel.fds.find fd = some node) :
    Ends fails (fun r sp' => r = some ⟨fd, env.fs.entries node⟩ ∧ Leaves sp.kernel.fds sp sp') (fdopendir fd) sp := by
  apply Ends.bind (request_spec reliable)
  rintro _ t ⟨rfl, same⟩
  apply Ends.bind use_spec
  rintro _ u ⟨rfl, same'⟩
  simp only [same.base, base_natCast, found]
  exact ⟨rfl, same.then_same same'⟩

include reliable in
theorem opendirat_spec {fd : ℤ} {path : List UInt8} {follow : Bool} {dir node : env.fs.Node}
    (base : sp.kernel.base fd = some dir) (resolved : env.fs.resolve dir path follow = .ok node)
    (directory : (env.fs.stat node).stMode = some .directory) :
    Ends fails (fun r sp' => ∃ n : ℕ, r = some ⟨n, env.fs.entries node⟩ ∧ n ∉ sp.kernel.fds.numbers ∧
      Leaves (sp.kernel.fds.insert n node) sp sp') (opendirat fd path follow) sp := by
  apply Ends.bind (openat_spec reliable base resolved directory)
  rintro _ t ⟨n, rfl, unused, opened⟩
  simp only [Int.not_lt.mpr (Int.natCast_nonneg n), ↓reduceIte]
  have found : t.kernel.fds.find n = some node := by rw [opened.fds, Descriptors.find_insert_self]
  apply Ends.bind (fdopendir_spec reliable found)
  rintro _ u ⟨rfl, same⟩
  exact ⟨n, rfl, unused, opened.then_same same⟩

include reliable in
theorem dirfd_spec {dirp : Dir} :
    Ends fails (fun (r : ℤ) sp' => r = dirp.fd ∧ Leaves sp.kernel.fds sp sp') (dirfd dirp) sp := by
  apply Ends.bind (request_spec reliable)
  rintro _ t ⟨rfl, same⟩
  exact ⟨rfl, same⟩

include reliable in
theorem closedir_spec {dirp : Dir} {node : env.fs.Node} (found : sp.kernel.fds.find dirp.fd = some node) :
    Ends fails (fun _ sp' => Leaves (sp.kernel.fds.close dirp.fd) sp sp') (closedir dirp) sp :=
  .bind (close_spec reliable found) fun _ _ leaves => leaves

include reliable in
theorem allocated_spec : Ends fails (fun r sp' => r = true ∧ Leaves sp.kernel.fds sp sp') allocated sp := by
  apply Ends.bind (request_spec reliable)
  rintro _ t ⟨rfl, same⟩
  exact ⟨rfl, same⟩

include reliable in
theorem granted_spec {size : ℕ} : Ends fails (fun _ sp' => Leaves sp.kernel.fds sp sp') (granted size) sp := by
  apply Ends.bind (allocated_spec reliable)
  rintro _ t ⟨rfl, same⟩
  split_ifs
  · exact .bind setErrno_spec fun _ u same' => same.then_same same'
  · exact same

end Unfailing

end Yalibct.Fts
