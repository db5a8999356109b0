import Mathlib.Tactic.SplitIfs
import Yalibct.Model.TestDriver

/-! # The verdict of the test driver

Whatever the processes of a test do, the driver succeeds exactly when none of them recorded a failure and the
test process ended as it was configured to. The counter may wrap; the other field of the record does not.
-/

namespace Yalibct.TestDriver

open Machine

variable {config : TestConfig} {s t : Tests} {e : Event} {es : List Event} {record : TestFailures} {how : Ending}
variable {testPid seconds : ℕ} {r : ℤ}

/-! ## The record -/

/-- The first half of a call of `support_record_failure` is among the steps. -/
def Recorded (es : List Event) : Prop := ∃ pid, .store pid ∈ es

theorem recorded_append : Recorded (es ++ [e]) ↔ Recorded es ∨ ∃ pid, e = .store pid := by
  constructor
  · rintro ⟨pid, member⟩
    rcases List.mem_append.mp member with before | last
    · exact .inl ⟨pid, before⟩
    · exact .inr ⟨pid, (List.mem_singleton.mp last).symm⟩
  · rintro (⟨pid, before⟩ | ⟨pid, rfl⟩)
    · exact ⟨pid, List.mem_append_left _ before⟩
    · exact ⟨pid, List.mem_append_right _ (List.mem_singleton_self _)⟩

/-- A step marks the record as failed if it is the first half of such a call, and leaves the mark alone otherwise. -/
theorem failed_step (step : stepTests s e = some t) :
    (∃ pid, e = .store pid) ∧ t.record.failed = 1 ∨ (∀ pid, e ≠ .store pid) ∧ t.record.failed = s.record.failed := by
  cases e with
  | store pid =>
    simp only [stepTests] at step
    split_ifs at step
    cases step
    exact .inl ⟨⟨pid, rfl⟩, rfl⟩
  | fork parent child | add pid | gone pid | finish how =>
    simp only [stepTests] at step
    split_ifs at step
    cases step
    exact .inr ⟨nofun, rfl⟩

theorem failed_keeps (inv : s.record.failed ≠ 0 ↔ Recorded es) (step : stepTests s e = some t) :
    t.record.failed ≠ 0 ↔ Recorded (es ++ [e]) := by
  rw [recorded_append]
  rcases failed_step step with ⟨store, failed⟩ | ⟨other, failed⟩
  · rw [failed]
    exact ⟨fun _ => .inr store, fun _ => by decide⟩
  · rw [failed, inv]
    constructor
    · exact .inl
    · rintro (before | ⟨pid, same⟩)
      · exact before
      · exact absurd same (other pid)

/-- The mark is set exactly if a failure was recorded. -/
theorem failed_iff (run : Run tests begin es s) : s.record.failed ≠ 0 ↔ Recorded es := by
  have initial : begin.record.failed ≠ 0 ↔ Recorded [] := by
    constructor
    · exact fun nonzero => absurd rfl nonzero
    · rintro ⟨pid, member⟩
      cases member
  have marked : s.record.failed ≠ 0 ↔ Recorded ([] ++ es) :=
    run.history (fun es (s : Tests) => s.record.failed ≠ 0 ↔ Recorded es) failed_keeps initial
  exact marked

/-! ## The status of the child -/

private theorem exitStatus_lt (r : ℤ) : exitStatus r < 256 := by
  rw [exitStatus]
  omega

private theorem exitStatus_of_lt {n : ℕ} (byte : n < 256) : exitStatus n = n := by
  rw [exitStatus]
  omega

private theorem wait_exited : ∀ b : Fin 256, wifexited (b.val <<< 8) = true ∧ wexitstatus (b.val <<< 8) = b.val := by
  decide +kernel

private theorem wait_killed : ∀ n : Fin 65, wtermsig (n.val + 0) = n.val ∧ wtermsig (n.val + 0x80) = n.val := by
  decide +kernel

private theorem wtermsig_killed (signal : Signal) (core : Bool) :
    wtermsig (waitStatus (.killed signal core)) = signal.number := by
  have both := wait_killed ⟨signal.number, Nat.lt_succ_of_le signal.bound⟩
  cases core with
  | false => exact both.1
  | true => exact both.2

/-! ## The verdict -/

/-- The process ended with the signal that is expected, if there is one, and else with the expected status. -/
def AsConfigured (config : TestConfig) : Ending → Prop
  | .returned r => config.expectedSignal = 0 ∧ config.expectedStatus = exitStatus r
  | .exited r => config.expectedSignal = 0 ∧ config.expectedStatus = exitStatus r
  | .killed signal _ => config.expectedSignal ≠ 0 ∧ config.expectedSignal = signal.number

/-- A status that is no failure is overridden by a recorded one. -/
theorem exitStatus_adjust {n : ℕ} (byte : n < 256) :
    exitStatus (adjustExitStatus (some record) n) = 0 ↔ record.failed = 0 ∧ n = 0 := by
  simp only [adjustExitStatus, supportReportFailure]
  split_ifs with overridden
  · exact ⟨nofun, fun passes => absurd passes.1 overridden.2⟩
  · rw [exitStatus_of_lt byte]
    constructor
    · rintro rfl
      exact ⟨Decidable.byContradiction fun failed => overridden ⟨.inl rfl, failed⟩, rfl⟩
    · exact fun passes => passes.2

private theorem exitStatus_adjust_zero (record : TestFailures) :
    exitStatus (adjustExitStatus (some record) 0) = 0 ↔ record.failed = 0 := by
  have adjusted : exitStatus (adjustExitStatus (some record) (0 : ℕ)) = 0 ↔ record.failed = 0 ∧ 0 = 0 :=
    exitStatus_adjust (by decide)
  rw [eq_self, and_true] at adjusted
  exact adjusted

private theorem exitStatus_one : exitStatus 1 ≠ 0 := by decide

/-- The driver about a child that exited. -/
theorem judge_exited (one : config.expectedStatus = 0 ∨ config.expectedSignal = 0) :
    exitStatus (judge config (some record) testPid testPid (exitStatus r <<< 8)) = 0 ↔
      record.failed = 0 ∧ config.expectedSignal = 0 ∧ config.expectedStatus = exitStatus r := by
  obtain ⟨exits, status⟩ := wait_exited ⟨exitStatus r, exitStatus_lt r⟩
  dsimp only at exits status
  have child : (testPid : ℤ) ≠ -1 := by omega
  have zero := exitStatus_adjust_zero record
  simp only [judge, if_neg child, ne_eq, not_true_eq_false, ↓reduceIte, exits, status]
  split_ifs with noStatus noSignal same
  · rw [exitStatus_adjust (exitStatus_lt r), noStatus]
    exact ⟨fun passes => ⟨passes.1, noSignal, by rw [passes.2]; rfl⟩, fun passes => ⟨passes.1, by omega⟩⟩
  · exact ⟨fun passes => absurd passes exitStatus_one, fun passes => absurd passes.2.1 noSignal⟩
  · have noSignal := one.resolve_left noStatus
    exact ⟨fun passes => ⟨zero.mp passes, noSignal, same.symm⟩, fun passes => zero.mpr passes.1⟩
  · exact ⟨fun passes => absurd passes exitStatus_one, fun passes => absurd passes.2.2.symm same⟩

/-- The driver about a child that a signal killed. -/
theorem judge_killed (signal : Signal) (core : Bool) :
    exitStatus (judge config (some record) testPid testPid (waitStatus (.killed signal core))) = 0 ↔
      record.failed = 0 ∧ config.expectedSignal ≠ 0 ∧ config.expectedSignal = signal.number := by
  have term := wtermsig_killed signal core
  have killed : wifexited (waitStatus (.killed signal core)) = false := by
    rw [wifexited, term]
    exact decide_eq_false (Nat.pos_iff_ne_zero.mp signal.positive)
  have child : (testPid : ℤ) ≠ -1 := by omega
  have zero := exitStatus_adjust_zero record
  simp only [judge, if_neg child, ne_eq, not_true_eq_false, ↓reduceIte, killed, Bool.false_eq_true, term]
  split_ifs with noSignal same
  · exact ⟨fun passes => absurd passes exitStatus_one, fun passes => absurd noSignal passes.2.1⟩
  · exact ⟨fun passes => ⟨zero.mp passes, noSignal, same.symm⟩, fun passes => zero.mpr passes.1⟩
  · exact ⟨fun passes => absurd passes exitStatus_one, fun passes => absurd passes.2.2.symm same⟩

private theorem judge_iff (one : config.expectedStatus = 0 ∨ config.expectedSignal = 0) :
    exitStatus (judge config (some record) testPid testPid (waitStatus how)) = 0 ↔
      record.failed = 0 ∧ AsConfigured config how := by
  cases how with
  | returned r | exited r => exact judge_exited one
  | killed signal core => exact judge_killed signal core

/-- Without an expectation, the status of the child is that of the driver, but for recorded failures. -/
theorem judge_unexpected (noStatus : config.expectedStatus = 0) (noSignal : config.expectedSignal = 0) :
    judge config (some record) testPid testPid (waitStatus (.returned r)) =
      adjustExitStatus (some record) (exitStatus r) := by
  obtain ⟨exits, status⟩ := wait_exited ⟨exitStatus r, exitStatus_lt r⟩
  have child : (testPid : ℤ) ≠ -1 := by omega
  change judge config (some record) testPid testPid (exitStatus r <<< 8) = _
  dsimp only at exits status
  simp only [judge, if_neg child, ne_eq, not_true_eq_false, ↓reduceIte, exits, status, noStatus, noSignal]

/-! ## The direct mode -/

/-- The test function returns what is no failure. -/
def NoFailure (status : ℤ) : Prop := status = 0 ∨ status = exitUnsupported

/-- The direct mode differs from the other one only if a failure was recorded, and `exit` makes a number that reports
no failure of one that reports one. -/
theorem direct_eq_iff (noStatus : config.expectedStatus = 0) (noSignal : config.expectedSignal = 0)
    (ended : s.ended = some (.returned r)) :
    driverStatus config .direct s = driverStatus config (.forks testPid seconds) s ↔
      (s.record.failed ≠ 0 → NoFailure (exitStatus r) → NoFailure r) := by
  have forked : driverStatus config (.forks testPid seconds) s =
      some (exitStatus (adjustExitStatus (some s.record) (exitStatus r))) := by
    simp only [driverStatus, ended, judge_unexpected noStatus noSignal]
  have direct : driverStatus config .direct s = some (exitStatus (adjustExitStatus (some s.record) r)) := by
    simp only [driverStatus, ended]
  have twice : exitStatus (exitStatus r) = exitStatus r := exitStatus_of_lt (exitStatus_lt r)
  rw [direct, forked, Option.some.injEq]
  simp only [adjustExitStatus, supportReportFailure]
  by_cases failed : s.record.failed = 0
  · simp [failed, twice]
  by_cases low : NoFailure (exitStatus r)
  · have overridden : ((exitStatus r : ℤ) = 0 ∨ (exitStatus r : ℤ) = exitUnsupported) ∧ s.record.failed ≠ 0 :=
      ⟨low, failed⟩
    rw [if_pos overridden]
    by_cases whole : NoFailure r
    · have overridden : (r = 0 ∨ r = exitUnsupported) ∧ s.record.failed ≠ 0 := ⟨whole, failed⟩
      rw [if_pos overridden]
      exact ⟨fun _ _ _ => whole, fun _ => rfl⟩
    · rw [if_neg fun both => whole both.1]
      refine ⟨fun same => ?_, fun keeps => absurd (keeps failed low) whole⟩
      -- The lowest byte is that of a status which is no failure, and not one.
      exfalso
      have one : exitStatus 1 = 1 := rfl
      rw [same, one] at low
      rcases low with zero | unsupported
      · cases zero
      · cases unsupported
  · have kept : ¬ NoFailure r := by
      intro whole
      refine low ?_
      rcases whole with rfl | rfl
      · exact .inl rfl
      · exact .inr rfl
    rw [if_neg fun both => kept both.1, if_neg fun both => low both.1, twice]
    exact ⟨fun _ _ noFailure => absurd noFailure low, fun _ => rfl⟩

/-- The driver succeeds if and only if no failure was recorded and the process ended as it was configured to. With the
default configuration the direct mode has the same status, for every status that a test function can return. -/
theorem main_verdict {session : Session} (one : session.config.expectedStatus = 0 ∨ session.config.expectedSignal = 0)
    (forked : supportTestMain session = .forks testPid seconds) (run : Run tests begin es s) (ended : s.ended = some how) :
    (main true session s = some 0 ↔ ¬ Recorded es ∧ AsConfigured session.config how) ∧
      ∀ other : Session, other.config = session.config → supportTestMain other = .direct →
        session.config.expectedStatus = 0 → session.config.expectedSignal = 0 →
        ∀ r, how = .returned r → 0 ≤ r → r ≤ 255 → main true other s = main true session s := by
  have marked := failed_iff run
  constructor
  · change driverStatus session.config (supportTestMain session) s = some 0 ↔ _
    simp only [forked, driverStatus, ended, Option.some.injEq]
    rw [judge_iff one, ← marked, Decidable.not_not]
  · rintro other same direct noStatus noSignal r rfl nonneg byte
    change driverStatus other.config (supportTestMain other) s = driverStatus session.config (supportTestMain session) s
    rw [same, direct, forked, direct_eq_iff noStatus noSignal ended]
    have whole : (exitStatus r : ℤ) = r := by
      rw [exitStatus]
      omega
    rw [whole]
    exact fun _ => id

/-- No expectations, and nothing in the environment. -/
def plain : Session where
  testMainCalled := false
  binary := false
  config := ⟨0, 0, 0, false⟩
  env := ⟨none, none, none⟩
  opts := []
  calls := ⟨true, true, true, true, true, true, some 2⟩

/-- A child of the test process records a failure, and the test function returns zero. -/
def childFails : List Event := [.fork 0 1, .store 1, .add 1, .finish (.returned 0)]

private theorem childFails_run : ∃ s : Tests, Run tests begin childFails s ∧ s.ended = some (.returned 0) :=
  ⟨_, .step (m := tests) rfl (.step (m := tests) rfl (.step (m := tests) rfl (.step (m := tests) rfl
    (.done (m := tests) _)))), rfl⟩

theorem main_verdict_childFails :
    ∃ s : Tests, Run tests begin childFails s ∧ supportTestMain plain = .forks 2 20 ∧ main true plain s ≠ some 0 ∧
      main true { plain with opts := [.direct] } s = main true plain s := by
  obtain ⟨s, run, ended⟩ := childFails_run
  have forked : supportTestMain plain = .forks 2 20 := by decide
  obtain ⟨verdict, direct⟩ := @main_verdict _ _ _ _ _ plain (.inl rfl) forked run ended
  refine ⟨s, run, forked, fun passes => ?_, ?_⟩
  · exact (verdict.mp passes).1 ⟨1, by decide⟩
  · exact direct { plain with opts := [.direct] } rfl (by decide) rfl rfl 0 rfl (by decide) (by decide)

end Yalibct.TestDriver
