import Mathlib.Data.Char
import Mathlib.Data.List.Lex
import Yalibct.Model.TestWrappers

/-! # The wrappers show every failure of a test binary

Under errexit a wrapper succeeds if all its commands do, and the test binary is one of them. A wrapper
that succeeds silently has also found the output that it asks for.
-/

namespace Yalibct.TestRunner

open Shell

variable {tools : Tools}

/-- An execution of the test binary ended with a nonzero status. -/
def Wrapper.BinaryFails : Wrapper → Prop
  | .outputDiff _ x _ | .linesOnly _ x _ | .mtrace x => x.ran.status ≠ 0
  | .printfNetBSD x y => x.ran.status ≠ 0 ∨ y.ran.status ≠ 0

/-- What a wrapper asks of the commands that it runs, the test binary among them. -/
def Wrapper.AsExpected (tools : Tools) : Wrapper → Prop
  | .outputDiff command x file => command.commands tools x = ⟨0, file, []⟩
  | .linesOnly command x file =>
    let output := command.commands tools x
    let sorted := tools.sort output.stdout
    let only := tools.comm sorted.stdout file
    (output.status = 0 ∧ sorted.status = 0) ∧ (output.stderr = [] ∧ sorted.stderr = []) ∧
      (sorted.stdout = file ∨ only.status = 0 ∧ only.stderr = [] ∧ (tools.grep only.stdout).printed = [])
  | .mtrace x => x.ran = .quiet ∧ tools.mtrace x.trace = ⟨0, noMemoryLeaks, []⟩
  | .printfNetBSD x y => (x.ran.status = 0 ∧ x.ran.stdout = printfZero) ∧ y.ran.status = 0 ∧ y.ran.stderr = snprintfZero

private theorem diff_status {text file : Text} : (tools.diff text file).status = 0 ↔ text = file := by
  constructor
  · intro same
    by_contra other
    exact (tools.diff_other text file other).1 same
  · rintro rfl
    rw [tools.diff_same]
    rfl

private theorem diff_printed {text file : Text} : (tools.diff text file).printed = [] ↔ text = file := by
  constructor
  · intro none
    by_contra other
    exact (tools.diff_other text file other).2 (Ran.printed_eq_nil.mp none).1
  · rintro rfl
    rw [tools.diff_same]
    rfl

/-- A function in a pipeline adds nothing to commands that succeed. -/
theorem subshell_of_success {commands : Ran} (fine : commands.status = 0) : subshell commands = commands := if_pos fine

private theorem status_subshell (commands : Ran) : (subshell commands).status = commands.status := by
  unfold subshell
  split_ifs <;> rfl

private theorem status_evalMember {commands : Ran} : (evalMember tools commands).status = 0 ↔ commands.status = 0 :=
  tools.evalStatus_eq_zero _

private theorem evalMember_of_success {commands : Ran} (fine : commands.status = 0) :
    evalMember tools commands = commands := by
  rw [evalMember, subshell_of_success fine, (tools.evalStatus_eq_zero _).mpr fine, ← fine]

/-- Whatever is done with what the binary prints, its failure is one of the command. -/
theorem Evaluated.commands_fail {command : Evaluated} {x : Execution} (fails : x.ran.status ≠ 0) :
    (command.commands tools x).status ≠ 0 := by
  intro success
  cases command with
  | testRunner => exact fails success
  | filtered sed =>
    have binary := (Ran.status_pipe_eq_zero.mp success).1
    rw [status_subshell] at binary
    exact fails binary
  | doMtraceTest => exact fails (Ran.status_seq_eq_zero.mp success).1

/-- The status of a wrapper depends on every command before it. -/
theorem Wrapper.commands_fail {w : Wrapper} (fails : w.BinaryFails) : (w.commands tools).status ≠ 0 := by
  intro success
  cases w with
  | outputDiff command x file =>
    have evaluated := (Ran.status_pipe_eq_zero.mp success).1
    exact Evaluated.commands_fail fails (status_evalMember.mp evaluated)
  | linesOnly command x file =>
    have sorted := (Ran.status_seq_eq_zero.mp success).1
    have evaluated := (Ran.status_pipe_eq_zero.mp sorted).1
    exact Evaluated.commands_fail fails (status_evalMember.mp evaluated)
  | mtrace x => exact fails (Ran.status_seq_eq_zero.mp success).1
  | printfNetBSD x y =>
    obtain ⟨first, second⟩ := Ran.status_seq_eq_zero.mp success
    cases fails with
    | inl x_fails =>
      have binary := (Ran.status_pipe_eq_zero.mp first).1
      exact x_fails ((status_subshell x.ran).symm.trans binary)
    | inr y_fails => exact y_fails (Ran.status_pipe_eq_zero.mp second).1

/-! ## What a silent wrapper has seen -/

section Silence

variable {x y : Execution} {command : Evaluated} {file : Text}

/-- A sequence is silent if its commands are. -/
theorem silent_seq {first second : Ran} : ((first.seq second).status = 0 ∧ (first.seq second).printed = []) ↔
    (first.status = 0 ∧ first.printed = []) ∧ second.status = 0 ∧ second.printed = [] := by
  rw [Ran.status_seq_eq_zero]
  by_cases fine : first.status = 0
  · simp only [Ran.printed_eq_nil, Ran.output_seq fine, List.append_eq_nil_iff]
    tauto
  · simp only [fine, false_and]

/-- A comparison is silent if it finds what it asks for. -/
theorem silent_diff {left : Ran} :
    ((left.pipe fun text => tools.diff text file).status = 0 ∧ (left.pipe fun text => tools.diff text file).printed = []) ↔
      left = ⟨0, file, []⟩ := by
  rw [Ran.status_pipe_eq_zero, Ran.printed_pipe_eq_nil, diff_status, diff_printed]
  obtain ⟨status, stdout, stderr⟩ := left
  simp only [Ran.mk.injEq]
  tauto

/-- `(! grep .)` succeeds on what it prints nothing of. -/
theorem negated_grep {only : Text} (none : (tools.grep only).printed = []) : (tools.grep only).negated.status = 0 := by
  have unselected : (tools.grep only).status ≠ 0 := fun selected =>
    (tools.grep_status only).mp selected (Ran.printed_eq_nil.mp none).1
  exact if_neg unselected

private theorem evalMember_eq_success {ran : Ran} : evalMember tools ran = ⟨0, file, []⟩ ↔ ran = ⟨0, file, []⟩ := by
  constructor
  · intro same
    have fine : ran.status = 0 := status_evalMember.mp (congrArg Ran.status same)
    rw [← same, evalMember_of_success fine]
  · rintro rfl
    exact evalMember_of_success rfl

private theorem silent_doMtraceTest : ((doMtraceTest tools x).status = 0 ∧ (doMtraceTest tools x).printed = []) ↔
    (Wrapper.mtrace x).AsExpected tools := by
  rw [doMtraceTest, silent_seq, silent_seq, silent_diff]
  obtain ⟨⟨status, stdout, stderr⟩, trace⟩ := x
  simp only [testRunner, Wrapper.AsExpected, Ran.quiet, Ran.printed, Ran.mk.injEq, List.append_eq_nil_iff, and_true]

/-- The binary is sorted and compared only if it succeeds, and `comm` is run only if `cmp` sees a difference. -/
theorem silent_linesOnly : ((doOutputLinesOnlyInExecutableOutputTest tools command x file).status = 0 ∧
      (doOutputLinesOnlyInExecutableOutputTest tools command x file).printed = []) ↔
    (Wrapper.linesOnly command x file).AsExpected tools := by
  simp only [doOutputLinesOnlyInExecutableOutputTest, Wrapper.AsExpected, silent_seq]
  generalize command.commands tools x = output
  have start : (((evalMember tools output).pipe tools.sort).status = 0 ∧
      ({ (evalMember tools output).pipe tools.sort with stdout := [] } : Ran).printed = []) ↔
      (output.status = 0 ∧ (tools.sort output.stdout).status = 0) ∧
        output.stderr = [] ∧ (tools.sort output.stdout).stderr = [] := by
    rw [Ran.status_pipe_eq_zero, status_evalMember]
    by_cases fine : output.status = 0
    · rw [evalMember_of_success fine]
      simp only [Ran.printed, List.nil_append, Ran.pipe, List.append_eq_nil_iff]
    · simp only [fine, false_and]
  rw [start, and_assoc]
  refine and_congr_right fun success => and_congr_right fun _ => ?_
  have temp : ((evalMember tools output).pipe tools.sort).stdout = (tools.sort output.stdout).stdout := by
    rw [evalMember_of_success success.1]
    rfl
  rw [temp]
  by_cases same : (tools.sort output.stdout).stdout = file
  · simp only [same, ↓reduceIte, Ran.quiet, Ran.printed, List.append_nil, and_self, true_or]
  · rw [if_neg same, silent_seq, Ran.status_pipe_eq_zero, Ran.printed_pipe_eq_nil]
    constructor
    · rintro ⟨⟨⟨status, -⟩, errors, selected⟩, -⟩
      exact Or.inr ⟨status, errors, selected⟩
    · rintro (equal | ⟨status, errors, selected⟩)
      · exact absurd equal same
      · exact ⟨⟨⟨status, negated_grep selected⟩, errors, selected⟩, rfl, rfl⟩

private theorem silent_printfNetBSD :
    ((doPrintfNetBSD tools x y).status = 0 ∧ (doPrintfNetBSD tools x y).printed = []) ↔
      (Wrapper.printfNetBSD x y).AsExpected tools := by
  rw [doPrintfNetBSD, silent_seq, silent_diff, silent_diff]
  simp only [Wrapper.AsExpected, testRunner, Ran.mk.injEq, and_true, status_subshell]
  refine and_congr_left fun _ => and_congr_right fun fine => ?_
  rw [subshell_of_success fine]

end Silence

/-- A wrapper succeeds silently if and only if all is as it expects. -/
theorem Wrapper.silent_iff (w : Wrapper) :
    ((w.run tools).status = 0 ∧ (w.run tools).printed = []) ↔ w.AsExpected tools := by
  have evaluated : ((w.run tools).status = 0 ∧ (w.run tools).printed = []) ↔
      (w.commands tools).status = 0 ∧ (w.commands tools).printed = [] := by
    rw [run, status_evalMember]
    exact and_congr_right fun fine => by rw [evalMember_of_success fine]
  rw [evaluated]
  cases w with
  | outputDiff command x file => exact silent_diff.trans evalMember_eq_success
  | linesOnly command x file => exact silent_linesOnly
  | mtrace x => exact silent_doMtraceTest
  | printfNetBSD x y => exact silent_printfNetBSD

/-- A failure of the binary makes the wrapper fail, or print something. -/
theorem Wrapper.propagates (tools : Tools) (w : Wrapper) (fails : w.BinaryFails) :
    (w.run tools).status ≠ 0 ∨ (w.run tools).printed ≠ [] :=
  Or.inl fun success => commands_fail fails (status_evalMember.mp success)

/-- The tools on plain texts. -/
def Tools.plain : Tools where
  diff text file := if text = file then .quiet else ⟨1, ['-', '-', '-', '\n'], []⟩
  sort text := ⟨0, unlines ((lines text).mergeSort fun a b => decide (a ≤ b)), []⟩
  comm text file := ⟨0, unlines ((lines text).filter fun line => line ∉ lines file), []⟩
  grep text :=
    let selected := unlines ((lines text).filter fun line => line ≠ [])
    ⟨if selected = [] then 1 else 0, selected, []⟩
  mtrace trace := if trace = [] then ⟨0, noMemoryLeaks, []⟩ else ⟨1, "Memory not freed:\n".toList, []⟩
  evalStatus status := if status = 0 then 0 else 1
  diff_same text := if_pos rfl
  diff_other text file other := by
    rw [if_neg other]
    exact ⟨Nat.one_ne_zero, List.cons_ne_nil _ _⟩
  grep_status text := by
    simp only
    split_ifs with none
    · simp only [none, ne_eq, not_true_eq_false]
    · simp only [none, ne_eq, not_false_eq_true]
  evalStatus_eq_zero status := by
    simp only [ite_eq_left_iff, Nat.one_ne_zero, imp_false, not_not]

/-- A binary without leaks that writes nothing and fails, and the same binary when it succeeds. -/
theorem leak_free_failure_shown :
    (((Wrapper.mtrace ⟨⟨1, [], []⟩, []⟩).run .plain).status ≠ 0 ∨ ((Wrapper.mtrace ⟨⟨1, [], []⟩, []⟩).run .plain).printed ≠ []) ∧
      ((Wrapper.mtrace ⟨.quiet, []⟩).run .plain).printed = [] :=
  ⟨Wrapper.propagates .plain (.mtrace ⟨⟨1, [], []⟩, []⟩) Nat.one_ne_zero, by decide +kernel⟩

end Yalibct.TestRunner
