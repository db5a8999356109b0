import Yalibct.Machine.Run
import Yalibct.Model.Shell

/-! # `run_test_binaries.sh`

`run_one_test` starts one background job per command. A job evaluates its command, looks at the
status and the output, and appends one line to the shared results file. Once every job is over the
script counts the lines of that file and picks its exit status. Jobs finish in any order.
-/

namespace Yalibct.TestRunner

open Machine Shell

/-- A command given to `run_one_test`: its text, its exit status, and all it prints on its two
output streams. The script passes one-line texts only. -/
structure Command where
  name : Text
  status : Fin 256
  output : List UInt8
  oneLine : '\n' ∉ name

/-- `grep .` in the caller's locale: whether it selects a line of its input. Newlines terminate
lines and belong to none, so an input of newlines alone has no line to select. -/
structure Grep where
  dot : List UInt8 → Bool
  dot_blank : ∀ input, (∀ byte ∈ input, byte = 10) → dot input = false

/-- `grep .` in a single-byte locale. -/
def Grep.posix : Grep where
  dot input := input.any (fun byte => byte != 10)
  dot_blank input blank := by
    simp only [List.any_eq_false, bne_iff_ne, ne_eq, Decidable.not_not]
    exact blank

/-- Exit status of `grep . 1>&2`. -/
def Grep.status (grep : Grep) (input : List UInt8) : ℕ := if grep.dot input then 0 else 1

/-- Status of `eval "$1" |& { ! grep . 1>&2; }`. -/
def evalStatus (grep : Grep) (c : Command) : ℕ :=
  pipefail [c.status.val, bang (grep.status c.output)]

def opening : Text := "Test '".toList
def succeededClosing : Text := "' succeeded".toList
def failedClosing : Text := "' failed with status ".toList

/-- `printf "Test '%s' succeeded\n"`, without its newline. -/
def succeededLine (name : Text) : Text := opening ++ name ++ succeededClosing

/-- `printf "Test '%s' failed with status $?\n"`, without its newline. -/
def failedLine (name : Text) (status : ℕ) : Text :=
  opening ++ name ++ failedClosing ++ decimal status

/-- The line that the job of `run_one_test` appends with `tee -a`. -/
def runOneTest (grep : Grep) (c : Command) : Text :=
  if evalStatus grep c = 0 then succeededLine c.name
  else failedLine c.name (evalStatus grep c)

/-- Commands still to start, jobs in the background, and `TEMP_TESTS_RESULTS_FILE`. -/
structure State where
  todo : List Command
  jobs : List Command
  results : Text

/-- The state the script is in before its first `run_one_test`. -/
def State.start (commands : List Command) : State := ⟨commands, [], []⟩

/-- The final `wait` has returned. -/
def State.Finished (s : State) : Prop := s.todo = [] ∧ s.jobs = []

inductive Event where
  | launch
  | finish (c : Command)

/-- A command is launched while no more jobs run than the processor count; any job may be the
next one to finish. -/
inductive Step (grep : Grep) (processors : ℕ) : State → Event → State → Prop
  | launch {c : Command} {todo jobs : List Command} {results : Text}
      (room : jobs.length ≤ processors) :
      Step grep processors ⟨c :: todo, jobs, results⟩ .launch ⟨todo, jobs ++ [c], results⟩
  | finish {c : Command} {todo before after : List Command} {results : Text} :
      Step grep processors ⟨todo, before ++ c :: after, results⟩ (.finish c)
        ⟨todo, before ++ after, results ++ (runOneTest grep c ++ ['\n'])⟩

/-- The script up to its final `wait`. -/
def runner (grep : Grep) (processors : ℕ) : System where
  State := State
  Event := Event
  Step := Step grep processors

def testMarker : Text := "Test ".toList
def failedMarker : Text := " failed with status ".toList

/-- The pattern `^Test .* failed with status ` and a tail up to the end of the line. -/
def matchesFailed (tail : Text → Bool) (line : Text) : Bool :=
  testMarker.isPrefixOf line && (line.drop testMarker.length).tails.any fun rest =>
    failedMarker.isPrefixOf rest && tail (rest.drop failedMarker.length)

/-- `.?.?.?$` -/
def upToThree (tail : Text) : Bool := decide (tail.length ≤ 3)

/-- `[0-9]+$` -/
def digits (tail : Text) : Bool := !tail.isEmpty && tail.all Char.isDigit

/-- What the script prints and returns at its end: the two counts, the lines listed under
`Failed tests:`, and the exit status. -/
structure Verdict where
  failed : ℕ
  total : ℕ
  listed : List Text
  exitStatus : ℕ
deriving DecidableEq

def tally (results : Text) : Verdict :=
  let failing := (lines results).filter (matchesFailed upToThree)
  let anyFailed := (lines results).any (matchesFailed digits)
  { failed := failing.length
    total := wcLines results
    listed := if anyFailed then failing else []
    exitStatus := if anyFailed then 1 else 0 }

/-- The command failed: a nonzero exit status, or any output at all. -/
def Command.Failed (c : Command) : Prop := c.status ≠ 0 ∨ c.output ≠ []

instance (c : Command) : Decidable c.Failed := inferInstanceAs (Decidable (_ ∨ _))

/-- `echo`: status zero, and an empty line of output. -/
def echo : Command := ⟨"echo".toList, 0, [10], by decide⟩

/-- Two commands that succeed, one of which prints, and one that fails. -/
def threeCommands : List Command :=
  [⟨"printf hi".toList, 0, [104, 105], by decide⟩, ⟨"true".toList, 0, [], by decide⟩, ⟨"false".toList, 1, [], by decide⟩]

/-- A verdict that reports every failed command, and no other. -/
def Reports (commands : List Command) (v : Verdict) : Prop :=
  (v.exitStatus = 1 ↔ ∃ c ∈ commands, c.Failed) ∧
  v.failed = commands.countP (fun c => decide c.Failed) ∧
  v.total = commands.length

end Yalibct.TestRunner
