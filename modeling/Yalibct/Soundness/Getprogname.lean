import Mathlib.Data.Nat.Digits.Lemmas
import Yalibct.Model.Getprogname
import Yalibct.Soundness.GvisorPath

/-! # Where `getprogname` keeps its promises

The name is right and the descriptor closed when the call gives up before it has a name: because `/proc`
cannot be opened, is empty, or there is no memory. A failed read indexes behind the buffer, and a name that
is found leaves the descriptor open.
-/

namespace Yalibct.Getprogname

open Machine Gvisor

/-! ## The name -/

/-- What is behind the last separator. -/
def lastComponent (string : List UInt8) : List UInt8 := (string.reverse.takeWhile (· ≠ slash)).reverse

private theorem afterSlash_eq (string : List UInt8) : afterSlash string = lastComponent string := by
  unfold afterSlash lastComponent
  rcases Decidable.em (slash ∈ string) with member | absent
  · obtain ⟨x, y, split, free⟩ := List.eq_append_cons_of_mem (List.mem_reverse.mpr member)
    have whole : string = y.reverse ++ slash :: x.reverse := by
      rw [← List.reverse_reverse string, split, List.reverse_append, List.reverse_cons, List.append_assoc]
      rfl
    have last : (x ++ slash :: y).takeWhile (· ≠ slash) = x := text_of_run free y
    rw [split, last, whole, strrchr_append (fun there => free (List.mem_reverse.mp there))]
    dsimp only
    rw [List.drop_append, List.drop_of_length_le (Nat.le_succ _), Nat.add_sub_cancel_left]
    rfl
  · have all : string.reverse.takeWhile (· ≠ slash) = string.reverse := by
      apply List.takeWhile_eq_self_iff.mpr
      intro c member
      exact decide_eq_true fun same => absent (same ▸ List.mem_reverse.mp member)
    rw [strrchr_of_notMem absent, all, List.reverse_reverse]

/-- The name that a call should return: of the first string that is read, what is behind its last
separator, or `"?"`. -/
def expected (o : Outcomes) : List UInt8 :=
  match o.opening, o.reading with
  | some _, some data =>
    if data ≠ [] ∧ o.granted then lastComponent (text 0 (data.take (pathMax - 1))) else unknown
  | _, _ => unknown

/-! ## The buffer -/

private theorem length_cmdlinePath {pid : ℕ} (bound : pid < 2 ^ 31) : (cmdlinePath pid).length ≤ 24 := by
  have digits : (Nat.digits 10 pid).length ≤ 10 := (Nat.digits_length_le_iff (by decide) pid).mpr (by omega)
  rw [cmdlinePath, List.length_append, List.length_append, List.length_map, List.length_reverse]
  have dir : procDir.length = 6 := rfl
  have last : cmdline.length = 8 := rfl
  omega

private theorem text_append_nul (run rest : List UInt8) : text 0 (run ++ 0 :: rest) = text 0 run := by
  induction run with
  | nil => rfl
  | cons c run ih =>
    rw [List.cons_append, text_cons, text_cons, ih]

private theorem overwrite_start {buf run : List UInt8} : overwrite buf 0 run = run ++ buf.drop run.length := by
  rw [overwrite, List.take_zero, List.nil_append, Nat.zero_add]

/-- The path that is opened. -/
theorem path_spec {pid : ℕ} (bound : pid < 2 ^ 31) {buf : List UInt8} (size : buf.length = pathMax) :
    ∃ buf' path, putRun buf 0 (cmdlinePath pid ++ [0]) = .ok buf' ∧ stringOf buf' = .ok path ∧
      buf'.length = pathMax := by
  have short := length_cmdlinePath bound
  have room : 0 + (cmdlinePath pid ++ [0]).length ≤ buf.length := by
    rw [List.length_append, List.length_singleton, size, pathMax]
    omega
  refine ⟨_, _, putRun_of_le room, if_pos ?_, by rw [length_overwrite room, size]⟩
  rw [overwrite_start]
  exact List.mem_append_left _ (List.mem_append_right _ (List.mem_singleton_self 0))

/-- The bytes that were read, with a NUL behind them. -/
theorem terminated_spec {buf data : List UInt8} (size : buf.length = pathMax) (data_ne : data ≠ []) :
    ∃ n buf' buf'' string, readInto buf (some data) = .ok (n, buf') ∧ 0 < n ∧ put buf' n 0 = .ok buf'' ∧
      stringOf buf'' = .ok string ∧ string = text 0 (data.take (pathMax - 1)) := by
  have taken : (data.take (buf.length - 1)).length ≤ pathMax - 1 := by
    rw [size]
    exact List.length_take_le ..
  have positive : 0 < (data.take (buf.length - 1)).length := by
    rw [List.length_take, size, pathMax]
    have nonempty := List.length_pos_of_ne_nil data_ne
    omega
  set run := data.take (buf.length - 1) with cut
  have room : 0 + run.length ≤ buf.length := by
    rw [size, pathMax] at *
    omega
  have stored : overwrite buf 0 run = run ++ buf.drop run.length := overwrite_start
  have inside : run.length < buf.length := by
    rw [size, pathMax] at *
    omega
  obtain ⟨c, rest, behind⟩ : ∃ c rest, buf.drop run.length = c :: rest :=
    ⟨_, _, List.drop_eq_getElem_cons inside⟩
  have ended : (run ++ c :: rest).set run.length 0 = run ++ 0 :: rest := by
    rw [List.set_append_right _ _ (Nat.le_refl _), Nat.sub_self, List.set_cons_zero]
  refine ⟨run.length, overwrite buf 0 run, run ++ 0 :: rest, _, bind_eq_ok.mpr ⟨_, putRun_of_le room, rfl⟩, positive, ?_,
    if_pos (List.mem_append_right _ (List.mem_cons_self ..)), ?_⟩
  · rw [put_of_lt (by rw [length_overwrite room]; exact inside), stored, behind, ended]
  · rw [text_append_nul, cut, size]

/-! ## A call -/

/-- A call stays within its buffer, returns the right name and leaves the open descriptors as they were. -/
def Right (o : Outcomes) (fds : Descriptors (List UInt8)) (x : Except Fault Named) : Prop :=
  ∃ r, x = .ok r ∧ r.name = expected o ∧ r.fds = fds

/-- The call gives up: `/proc` cannot be opened; or it is empty, or there is no memory. -/
def GivesUp (o : Outcomes) : Prop :=
  o.opening = none ∨ ∃ data, o.reading = some data ∧ (data = [] ∨ o.granted = false)

variable {pid : ℕ} {buf : List UInt8} {fds : Descriptors (List UInt8)}

private theorem getprogname_unopened (bound : pid < 2 ^ 31) (size : buf.length = pathMax)
    (reading : Option (List UInt8))
    (granted : Bool) : getprogname pid ⟨none, reading, granted⟩ buf fds = .ok ⟨unknown, fds⟩ := by
  obtain ⟨buf', path, stored, string, _⟩ := path_spec bound size
  unfold getprogname
  rw [bind_of_ok stored, bind_of_ok string]

private theorem getprogname_failed (bound : pid < 2 ^ 31) (size : buf.length = pathMax) (fd : ℕ) (granted : Bool) :
    getprogname pid ⟨some fd, none, granted⟩ buf fds = .error .outOfBounds := by
  obtain ⟨buf', path, stored, string, length⟩ := path_spec bound size
  have outside : put buf' (2 ^ 64 - 1) 0 = .error .outOfBounds := if_neg (by rw [length, pathMax]; omega)
  have read : readInto buf' none = .ok (2 ^ 64 - 1, buf') := rfl
  unfold getprogname
  rw [bind_of_ok stored, bind_of_ok string]
  dsimp only
  rw [bind_of_ok read]
  dsimp only
  rw [if_pos (by decide), outside]
  rfl

private theorem getprogname_empty (bound : pid < 2 ^ 31) (size : buf.length = pathMax) {fd : ℕ}
    (unused : fd ∉ fds.numbers)
    (granted : Bool) : getprogname pid ⟨some fd, some [], granted⟩ buf fds = .ok ⟨unknown, fds⟩ := by
  obtain ⟨buf', path, stored, string, length⟩ := path_spec bound size
  have read : readInto buf' (some []) = .ok (0, buf') := by
    unfold readInto
    dsimp only
    rw [List.take_nil, bind_of_ok (putRun_of_le (Nat.zero_le _)), overwrite_start]
    rfl
  unfold getprogname
  rw [bind_of_ok stored, bind_of_ok string]
  dsimp only
  rw [bind_of_ok read, if_neg (Nat.lt_irrefl 0), Descriptors.close_insert unused]

/-- With bytes read, the descriptor is closed only if there is no memory for the name. -/
theorem getprogname_read (bound : pid < 2 ^ 31) (size : buf.length = pathMax) {fd : ℕ} (unused : fd ∉ fds.numbers)
    {data : List UInt8} (nonempty : data ≠ []) (granted : Bool) :
    ∃ path, getprogname pid ⟨some fd, some data, granted⟩ buf fds =
      .ok (if granted then ⟨lastComponent (text 0 (data.take (pathMax - 1))), fds.insert fd path⟩ else ⟨unknown, fds⟩) := by
  obtain ⟨buf', path, stored, string, length⟩ := path_spec bound size
  obtain ⟨n, read, terminated, name, reads, positive, ended, held, rfl⟩ := terminated_spec length nonempty
  refine ⟨path, ?_⟩
  unfold getprogname
  rw [bind_of_ok stored, bind_of_ok string]
  dsimp only
  rw [bind_of_ok reads]
  dsimp only
  rw [if_pos positive, bind_of_ok ended, bind_of_ok held, afterSlash_eq]
  cases granted with
  | true => rfl
  | false => rw [Descriptors.close_insert unused]; rfl

private theorem insert_ne (fd : ℕ) (path : List UInt8) : fds.insert fd path ≠ fds :=
  fun same => absurd (congrArg List.length same) (Nat.succ_ne_self _)

/-- A call keeps its promises exactly when it gives up. -/
theorem getprogname_right_iff (o : Outcomes) (bound : pid < 2 ^ 31) (size : buf.length = pathMax)
    (unused : ∀ fd, o.opening = some fd → fd ∉ fds.numbers) :
    Right o fds (getprogname pid o buf fds) ↔ GivesUp o := by
  obtain ⟨opening, reading, granted⟩ := o
  unfold Right GivesUp
  cases opening with
  | none =>
    rw [getprogname_unopened bound size]
    exact ⟨fun _ => .inl rfl, fun _ => ⟨_, rfl, rfl, rfl⟩⟩
  | some fd =>
    have fresh := unused fd rfl
    cases reading with
    | none =>
      rw [getprogname_failed bound size]
      constructor
      · rintro ⟨r, run, _⟩
        cases run
      · rintro (none | ⟨data, none, _⟩)
        · cases none
        · cases none
    | some data =>
      rcases Decidable.em (data = []) with rfl | nonempty
      · rw [getprogname_empty bound size fresh]
        exact ⟨fun _ => .inr ⟨[], rfl, .inl rfl⟩, fun _ => ⟨_, rfl, rfl, rfl⟩⟩
      · obtain ⟨path, run⟩ := getprogname_read bound size fresh nonempty granted
        rw [run]
        cases granted with
        | true =>
          constructor
          · rintro ⟨r, same, _, closed⟩
            cases same
            exact absurd closed (insert_ne fd path)
          · rintro (none | ⟨_, same, empty | refused⟩)
            · cases none
            · cases same
              exact absurd empty nonempty
            · cases refused
        | false =>
          refine ⟨fun _ => .inr ⟨data, rfl, .inr rfl⟩, fun _ => ⟨_, rfl, ?_, rfl⟩⟩
          simp [expected]

theorem empty_right : Right ⟨some 3, some [], true⟩ []
    (getprogname 1 ⟨some 3, some [], true⟩ (List.replicate pathMax 0) []) ↔ GivesUp ⟨some 3, some [], true⟩ :=
  getprogname_right_iff _ (by decide) List.length_replicate fun _ _ => List.not_mem_nil

/-- A failed read indexes behind the buffer, and a name that is found leaves the descriptor open. -/
theorem failed_read_and_leak :
    getprogname 1 ⟨some 3, none, true⟩ (List.replicate pathMax 0) [] = .error .outOfBounds ∧
      ¬ Right ⟨some 3, none, true⟩ [] (getprogname 1 ⟨some 3, none, true⟩ (List.replicate pathMax 0) []) ∧
      ¬ Right ⟨some 3, some [97], true⟩ [] (getprogname 1 ⟨some 3, some [97], true⟩ (List.replicate pathMax 0) []) := by
  refine ⟨getprogname_failed (by decide) List.length_replicate 3 true, ?_, ?_⟩
  · rintro ⟨r, run, _⟩
    rw [getprogname_failed (by decide) List.length_replicate] at run
    cases run
  · rintro ⟨r, run, _, closed⟩
    obtain ⟨path, run'⟩ := @getprogname_read 1 (List.replicate pathMax 0) [] (by decide) List.length_replicate 3
      List.not_mem_nil [97] nofun true
    rw [run] at run'
    cases run'
    exact insert_ne 3 path closed

end Yalibct.Getprogname
