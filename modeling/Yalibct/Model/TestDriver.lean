import Mathlib.Algebra.Group.Int.Defs
import Mathlib.Data.Int.Notation
import Yalibct.Machine.Run
import Yalibct.Machine.Strtoul

/-! # The test driver of glibc

The driver runs a test function, in a process of its own unless it is told not to. The processes of the test
share a record of failures with the driver. How the test has ended and what is recorded decide about the exit
status of the driver. What is printed is left out; no result depends on it.
-/

namespace Yalibct.TestDriver

open Machine

abbrev Text := List UInt8

def exitUnsupported : ℤ := 77
def defaultTimeout : ℤ := 20

/-! ## The record of failures -/

structure TestFailures where
  counter : UInt32
  failed : UInt32
deriving DecidableEq

/-- `support_record_failure_init`: nothing if the mapping fails, where the code exits. -/
def supportRecordFailureInit (mapped : Bool) : Option TestFailures := if mapped then some ⟨0, 0⟩ else none

/-- The store of `support_record_failure`, which comes first. -/
def TestFailures.store (state : TestFailures) : TestFailures := { state with failed := 1 }

/-- The addition of `support_record_failure`. -/
def TestFailures.add (state : TestFailures) : TestFailures := { state with counter := state.counter + 1 }

/-- `support_report_failure` -/
def supportReportFailure (state : Option TestFailures) (status : ℤ) : ℤ :=
  match state with
  | none => 1
  | some state =>
    let failed := state.failed ≠ 0
    if (status = 0 ∨ status = exitUnsupported) ∧ failed then 1 else status

/-- `adjust_exit_status` -/
def adjustExitStatus (state : Option TestFailures) (status : ℤ) : ℤ := supportReportFailure state status

/-! ## How a process ends -/

/-- The signals there are. -/
structure Signal where
  number : ℕ
  positive : 0 < number
  bound : number ≤ 64
deriving DecidableEq

/-- The test function returns, or the process exits, or a signal kills it, with or without a core dump. -/
inductive Ending where
  | returned (r : ℤ)
  | exited (r : ℤ)
  | killed (signal : Signal) (core : Bool)
deriving DecidableEq

/-- The exit status of a process that exits with a number. -/
def exitStatus (r : ℤ) : ℕ := (r % 256).toNat

/-- The status that `waitpid` stores. The child exits with what the test function returns. -/
def waitStatus : Ending → ℕ
  | .returned r => exitStatus r <<< 8
  | .exited r => exitStatus r <<< 8
  | .killed signal core => signal.number + if core then 0x80 else 0

/-- `WTERMSIG` -/
def wtermsig (status : ℕ) : ℕ := status &&& 0x7f

/-- `WIFEXITED` -/
def wifexited (status : ℕ) : Bool := wtermsig status = 0

/-- `WEXITSTATUS` -/
def wexitstatus (status : ℕ) : ℕ := (status &&& 0xff00) >>> 8

/-! ## The driver -/

/-- `struct test_config`, as far as it is read here. -/
structure TestConfig where
  timeout : ℤ
  expectedStatus : ℤ
  expectedSignal : ℤ
  noSetvbuf : Bool
deriving DecidableEq

/-- The environment variables, as far as they are read here. -/
structure Environment where
  waitForDebugger : Option Text
  timeoutfactor : Option Text
  testDirect : Option Text
deriving DecidableEq

/-- What `getopt_long` returns in turn. -/
inductive Opt where
  | questionMark
  | verbose
  | direct
  | testdir (optarg : Text)
  | other (opt : ℤ)
deriving DecidableEq

/-- Which calls succeed, and the child that `fork` returns; `printed` is about all calls that write the file of
`TEST_DIRECT`. -/
structure Calls where
  setenv : Bool
  chdir : Bool
  setvbuf : Bool
  atexit : Bool
  fopen : Bool
  printed : Bool
  fork : Option ℕ
deriving DecidableEq

/-- The number that the text of `TIMEOUTFACTOR` asks for, if it is one. -/
def requestedFactor (binary : Bool) (envstrTimeoutfactor : Text) : Option ℕ :=
  let (envFact, envstrConv) := strtoul binary envstrTimeoutfactor
  if envstrConv = [] ∧ envstrConv ≠ envstrTimeoutfactor then some (max envFact 1) else none

/-- The variable `timeoutfactor`, which is an `unsigned int`. -/
def timeoutfactor (binary : Bool) (envstrTimeoutfactor : Option Text) : ℕ :=
  match envstrTimeoutfactor with
  | none => 1
  | some text =>
    match requestedFactor binary text with
    | some factor => factor % 2 ^ 32
    | none => 1

/-- The loop over the options: whether to run directly, and the test directory; nothing where the code exits. -/
def readOptions : List Opt → Bool → Option Text → Option (Bool × Option Text)
  | [], direct, testDir => some (direct, testDir)
  | .questionMark :: _, _, _ => none
  | .direct :: opts, _, testDir => readOptions opts true testDir
  | .testdir optarg :: opts, direct, _ => readOptions opts direct (some optarg)
  | .verbose :: opts, direct, testDir => readOptions opts direct testDir
  | .other _ :: opts, direct, testDir => readOptions opts direct testDir

/-- What `support_test_main` comes to: it exits early, an assertion fails, it runs the test function directly, or
it has forked and set the alarm. -/
inductive Plan where
  | exits (status : ℤ)
  | aborts
  | direct
  | forks (testPid seconds : ℕ)
deriving DecidableEq

/-- A run of the driver. -/
structure Session where
  testMainCalled : Bool
  binary : Bool
  config : TestConfig
  env : Environment
  opts : List Opt
  calls : Calls
deriving DecidableEq

/-- `support_test_main`, up to the test. -/
def supportTestMain (s : Session) : Plan :=
  if s.testMainCalled then .exits 1
  else
    match readOptions s.opts s.env.waitForDebugger.isSome none with
    | none => .exits 1
    | some (direct, testDir) =>
      let timeoutfactor := timeoutfactor s.binary s.env.timeoutfactor
      if testDir.isSome ∧ s.calls.setenv = false then .aborts
      else if testDir.isSome ∧ s.calls.chdir = false then .exits 1
      else
        let timeout := if s.config.timeout = 0 then defaultTimeout else s.config.timeout
        if (s.config.noSetvbuf = false ∧ s.calls.setvbuf = false) ∨ s.calls.atexit = false then .aborts
        else if s.env.testDirect.isSome ∧ s.calls.fopen = false then .exits 1
        else if s.env.testDirect.isSome ∧ s.calls.printed = false then .aborts
        else if direct ∨ s.env.testDirect.isSome then .direct
        else
          match s.calls.fork with
          | none => .exits 1
          -- An `int` times an `unsigned int` is an `unsigned int`.
          | some testPid => .forks testPid ((timeout * timeoutfactor) % 2 ^ 32).toNat

/-- The rest of `support_test_main` once the child has ended: what it returns or exits with. -/
def judge (config : TestConfig) (state : Option TestFailures) (testPid termpid : ℤ) (status : ℕ) : ℤ :=
  if termpid = -1 then 1
  else if termpid ≠ testPid then 1
  else if wifexited status then
    if config.expectedStatus = 0 then
      if config.expectedSignal = 0 then adjustExitStatus state (wexitstatus status)
      else 1
    else if wexitstatus status ≠ config.expectedStatus then 1
    else adjustExitStatus state 0
  else if config.expectedSignal = 0 then 1
  else if wtermsig status ≠ config.expectedSignal then 1
  else adjustExitStatus state 0

/-! ## The processes of the test -/

/-- A process runs, or is between the two halves of `support_record_failure`. -/
inductive Phase where
  | running
  | recording
deriving DecidableEq

/-- The shared record, the processes that there are, and how the test process has ended. The test process is number
zero. -/
structure Tests where
  record : TestFailures
  procs : ℕ → Option Phase
  ended : Option Ending

inductive Event where
  /-- A process forks another one. -/
  | fork (parent child : ℕ)
  /-- The halves of `support_record_failure`. -/
  | store (pid : ℕ)
  | add (pid : ℕ)
  /-- Another process ends, in whatever way. -/
  | gone (pid : ℕ)
  /-- The test process ends. -/
  | finish (how : Ending)
deriving DecidableEq

/-- One step of one process. Only a signal ends the test process within `support_record_failure`. -/
def stepTests (s : Tests) : Event → Option Tests
  | .fork parent child =>
    if s.procs parent = some .running ∧ s.procs child = none ∧ child ≠ 0 then
      some { s with procs := fun pid => if pid = child then some .running else s.procs pid }
    else none
  | .store pid =>
    if s.procs pid = some .running then
      some { s with
        record := s.record.store
        procs := fun other => if other = pid then some .recording else s.procs other }
    else none
  | .add pid =>
    if s.procs pid = some .recording then
      some { s with
        record := s.record.add
        procs := fun other => if other = pid then some .running else s.procs other }
    else none
  | .gone pid =>
    if (s.procs pid).isSome ∧ pid ≠ 0 then
      some { s with procs := fun other => if other = pid then none else s.procs other }
    else none
  | .finish how =>
    let able : Bool :=
      match how with
      | .killed _ _ => (s.procs 0).isSome
      | _ => s.procs 0 = some .running
    if able then
      some { s with procs := fun other => if other = 0 then none else s.procs other, ended := some how }
    else none

def tests : System := .ofStep stepTests

/-- The test process alone, with an empty record. -/
def begin : Tests where
  record := ⟨0, 0⟩
  procs pid := if pid = 0 then some .running else none
  ended := none

/-- The exit status of the driver, if it has one: where it runs the test function itself, a signal kills the
driver, and a call of `exit` ends it. -/
def driverStatus (config : TestConfig) (plan : Plan) (s : Tests) : Option ℕ :=
  match plan, s.ended with
  | .exits status, _ => some (exitStatus status)
  | .aborts, _ => none
  | .direct, some (.returned r) => some (exitStatus (adjustExitStatus (some s.record) r))
  | .direct, some (.exited r) => some (exitStatus r)
  | .direct, _ => none
  | .forks testPid _, some how =>
    some (exitStatus (judge config (some s.record) testPid testPid (waitStatus how)))
  | .forks _ _, none => none

/-- `main`, once the processes of the test have come to these states. -/
def main (mapped : Bool) (session : Session) (s : Tests) : Option ℕ :=
  match supportRecordFailureInit mapped with
  | none => some (exitStatus 1)
  | some _ => driverStatus session.config (supportTestMain session) s

end Yalibct.TestDriver
