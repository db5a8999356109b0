import Yalibct.Model.Shell

/-! # The wrappers of `run_test_binaries.sh`

A wrapper runs a test binary and compares what it wrote with what it should write. `run_one_test`
evaluates it as a member of a pipeline. This is a subshell, where errexit and the ERR trap are in force
whatever stands to the right of the pipeline: a command that fails ends it. Temporary files can be made and
removed.
-/

namespace Yalibct.TestRunner

open Shell

/-- The programs that the wrappers call, and the shell. -/
structure Tools where
  /-- `diff -u - file` of its input and the file. -/
  diff : Text → Text → Ran
  sort : Text → Ran
  /-- `comm -23 - file` of its input and the file. -/
  comm : Text → Text → Ran
  /-- `grep .` -/
  grep : Text → Ran
  /-- `mtrace` of a binary and the trace that it left. -/
  mtrace : Text → Ran
  /-- What the shell ends `eval` with after a command that failed with this status. -/
  evalStatus : ℕ → ℕ
  diff_same : ∀ text, diff text text = .quiet
  diff_other : ∀ text file, text ≠ file → (diff text file).status ≠ 0 ∧ (diff text file).stdout ≠ []
  grep_status : ∀ text, (grep text).status = 0 ↔ (grep text).stdout ≠ []
  evalStatus_eq_zero : ∀ status, evalStatus status = 0 ↔ status = 0

/-- One execution of a test binary, with what it wrote to `MALLOC_TRACE`. -/
structure Execution where
  ran : Ran
  trace : Text
deriving DecidableEq

def noMemoryLeaks : Text := "No memory leaks.\n".toList
def printfZero : Text := "printf = 0\n".toList
def snprintfZero : Text := "snprintf = 0".toList

/-- What `trap_exit` prints. -/
def trapExit : Text := "A command run from this script failed!\n".toList

variable (tools : Tools)

/-- A function in a pipeline. Where a command in it fails, the trap prints and the subshell ends. -/
def subshell (commands : Ran) : Ran :=
  if commands.status = 0 then commands else { commands with stdout := commands.stdout ++ trapExit }

/-- `eval "$1"` in a pipeline. -/
def evalMember (commands : Ran) : Ran := { subshell commands with status := tools.evalStatus commands.status }

/-- `test_runner` -/
def testRunner (x : Execution) : Ran := x.ran

/-- `do_mtrace_test` -/
def doMtraceTest (x : Execution) : Ran :=
  (testRunner x).seq <|
    ((tools.mtrace x.trace).pipe fun report => tools.diff report noMemoryLeaks).seq <|
    -- `rm` and `unset`
    .quiet

/-- The commands that the script gives to the other wrappers. -/
inductive Evaluated where
  | testRunner
  /-- `test_runner … | sed …` -/
  | filtered (sed : Text → Text)
  | doMtraceTest

def Evaluated.commands : Evaluated → Execution → Ran
  | .testRunner, x => TestRunner.testRunner x
  | .filtered sed, x => (subshell (TestRunner.testRunner x)).pipe fun text => ⟨0, sed text, []⟩
  | .doMtraceTest, x => TestRunner.doMtraceTest tools x

/-- `do_output_diff_test` -/
def doOutputDiffTest (command : Evaluated) (x : Execution) (file : Text) : Ran :=
  (evalMember tools (command.commands tools x)).pipe fun output => tools.diff output file

/-- `do_output_lines_only_in_executable_output_test` -/
def doOutputLinesOnlyInExecutableOutputTest (command : Evaluated) (x : Execution) (file : Text) : Ran :=
  let sorted := (evalMember tools (command.commands tools x)).pipe tools.sort
  -- The output is in the temporary file.
  let temp := sorted.stdout
  let start : Ran := { sorted with stdout := [] }
  -- A difference found by `cmp -s` does not end the function, since it is to the left of `&&`.
  start.seq (if temp = file then .quiet else ((tools.comm temp file).pipe fun only => (tools.grep only).negated).seq .quiet)

/-- `do_printf_NetBSD_t`; the binary is executed twice. -/
def doPrintfNetBSD (x y : Execution) : Ran :=
  let first : Ran := { subshell (testRunner x) with stderr := [] }
  -- What the trap prints goes to `/dev/null` with the standard output.
  let second : Ran := ⟨(testRunner y).status, (testRunner y).stderr, []⟩
  (first.pipe fun output => tools.diff output printfZero).seq
    (second.pipe fun errors => tools.diff errors snprintfZero)

/-- A wrapper with the executions of its test binary. -/
inductive Wrapper where
  | outputDiff (command : Evaluated) (x : Execution) (file : Text)
  | linesOnly (command : Evaluated) (x : Execution) (file : Text)
  | mtrace (x : Execution)
  | printfNetBSD (x y : Execution)

def Wrapper.commands : Wrapper → Ran
  | .outputDiff command x file => doOutputDiffTest tools command x file
  | .linesOnly command x file => doOutputLinesOnlyInExecutableOutputTest tools command x file
  | .mtrace x => doMtraceTest tools x
  | .printfNetBSD x y => doPrintfNetBSD tools x y

/-- The wrapper where `run_one_test` evaluates it. -/
def Wrapper.run (w : Wrapper) : Ran := evalMember tools (w.commands tools)

end Yalibct.TestRunner
