import Mathlib.Data.UInt
import Yalibct.Machine.Run

/-! # The harness of the Linux Test Project

One process, the library, forks a test process for each variant and waits for it. The test process calls the
test functions, which may fork children. All of them count results in shared memory, and the library makes an
exit status of the counters and of how the test processes ended. What is printed, the time-outs and the
temporary directory are left out.
-/

namespace Yalibct.Ltp

open Machine

/-! ## Results -/

/-- `TTYPE_RESULT` of a type of result. -/
inductive Ttype where
  | tpass | tfail | tbrok | twarn | tinfo | tconf
deriving DecidableEq

def Ttype.code : Ttype → ℕ
  | .tpass => 0
  | .tfail => 1
  | .tbrok => 2
  | .twarn => 4
  | .tinfo => 16
  | .tconf => 32

/-- The counters of `struct results`. -/
inductive Counter where
  | passed | skipped | failed | warnings | broken
deriving DecidableEq

def Counter.all : List Counter := [.passed, .skipped, .failed, .warnings, .broken]

/-- `struct results`, as far as it counts. -/
abbrev Results := Counter → UInt32

/-- The case of `update_results`. -/
def Ttype.counter : Ttype → Option Counter
  | .tconf => some .skipped
  | .tpass => some .passed
  | .twarn => some .warnings
  | .tfail => some .failed
  | .tbrok => some .broken
  | .tinfo => none

/-- `tst_atomic_inc` -/
def Results.inc (results : Results) (counter : Counter) : Results := fun other =>
  if other = counter then results other + 1 else results other

/-- What `tst_cvres` makes of a type. -/
def Ttype.cvres : Ttype → Ttype
  | .tbrok => .twarn
  | ttype => ttype

/-- What `tst_brk` supports. -/
def Ttype.supported (ttype : Ttype) : Bool := ttype = .tfail ∨ ttype = .tbrok ∨ ttype = .tconf

/-! ## Processes -/

/-- `struct tst_test` and the options, as far as they steer the run. -/
structure TstTest where
  test : Bool
  testAll : Bool
  tcnt : ℕ
  testVariants : ℕ
  iterations : ℕ
  /-- `parse_opts` accepts no other number. -/
  iterated : 0 < iterations
  /-- Whether a duration was given, in which the tests are repeated. -/
  timed : Bool

/-- `assert_test_fn`: the message of the failure. -/
def assertTestFn (t : TstTest) : Option String :=
  let cnt := (if t.test then 1 else 0) + if t.testAll then 1 else 0
  if cnt = 0 then some "No test function specified"
  else if cnt ≠ 1 then some "You can define only one test function"
  else if t.test ∧ t.tcnt = 0 then some "Number of tests (tcnt) must be > 0"
  else if ¬ t.test ∧ t.tcnt ≠ 0 then some "You can define tcnt only for test()"
  else none

/-- How many calls `run_tests` makes. -/
def TstTest.calls (t : TstTest) : ℕ := if t.test then t.tcnt else 1

/-- How many test processes there are to be. -/
def TstTest.variants (t : TstTest) : ℕ := if t.testVariants = 0 then 1 else t.testVariants

/-- How a process ends. -/
inductive Ending where
  | exited (code : ℕ)
  | killed
deriving DecidableEq

/-- The function of the test that a process is in. In the last one, `tst_brk_handler` is `tst_cvres`, and the
process exits with that code afterwards. -/
inductive Within where
  | setup
  | test
  | cleanup (code : ℕ)
deriving DecidableEq

/-- Where `testrun` is. The rounds counted so far and the number of the test function come first. A copy of the
counters is made one counter at a time, in any order. -/
inductive Testrun where
  | setup
  | between (i : ℕ)
  | saving (i k : ℕ) (saved : Counter → Option UInt32)
  | calling (i k : ℕ) (saved : Counter → Option UInt32)
  | reaping (i k : ℕ) (saved : Counter → Option UInt32)
  | comparing (i k : ℕ) (saved : Counter → Option UInt32) (rest : List Counter)
  | cleanup (code : ℕ)
  | ended (how : Ending)

def Testrun.within : Testrun → Option Within
  | .setup => some .setup
  | .calling _ _ _ => some .test
  | .cleanup code => some (.cleanup code)
  | _ => none

/-- A process that a test forked: the variant whose test process is its parent, if one is, the function that it was
forked in, and how it ended. -/
structure Child where
  pid : ℕ
  parent : Option ℕ
  within : Within
  ended : Option Ending
deriving DecidableEq

/-- The next counter that `do_exit` reads. -/
inductive Look where
  | passed | failed | skipped | passedAgain | warnings | broken | last
deriving DecidableEq

/-- Where the library is. Before `setup_ipc` there are no counters. -/
inductive Library where
  | starting
  | forking (variant ret : ℕ)
  | waiting (variant ret : ℕ)
  | leaving (look : Look) (ret : ℕ)
  | exited (status : ℕ)
deriving DecidableEq

structure Harness where
  results : Results
  library : Library
  testProcess : Option Testrun
  children : List Child

/-- The test process, or a child. -/
abbrev Who := Option ℕ

inductive Event where
  /-- The library prints its help, or calls `tst_brk` before and after `setup_ipc`. -/
  | help
  | refuse (ttype : Ttype)
  | mapped
  | libBrk
  /-- It forks a test process, waits for it, gives up after too many alarms, or reads a counter. -/
  | spawn
  | waited (code : ℕ)
  | waitedKilled
  | giveUp
  | look
  /-- The test process goes on. -/
  | setUp
  | round
  | save (counter : Counter)
  | call
  | returned
  | reap (pid : ℕ)
  | reapBad (pid : ℕ)
  | waitFails
  | childless
  | same
  | checked
  | unreported
  | finish
  | cleanedUp
  /-- What the functions of a test do, in any process of it. -/
  | report (who : Who) (ttype : Ttype)
  | brk (who : Who) (ttype : Ttype)
  | cvres (who : Who) (ttype : Ttype)
  | fork (who : Who) (pid : ℕ)
  | collect (pid : ℕ)
  | quit (who : Who) (n : ℕ)
  | killed (who : Who)
  /-- A child returns from the function that it was forked in. -/
  | runaway (pid : ℕ)
  | childReturned (pid : ℕ)
deriving DecidableEq

namespace Harness

def record (s : Harness) (ttype : Ttype) : Harness :=
  match ttype.counter with
  | some counter => { s with results := s.results.inc counter }
  | none => s

def child (s : Harness) (pid : ℕ) : Option Child := s.children.find? fun child => child.pid = pid

/-- The function of the test that a process runs. -/
def runs (s : Harness) : Who → Option Within
  | none => s.testProcess.bind Testrun.within
  | some pid =>
    match s.child pid with
    | some ⟨_, _, within, none⟩ => some within
    | _ => none

/-- Outside of the functions of the test, `heartbeat` may report two types of results. -/
def reports (s : Harness) (who : Who) (ttype : Ttype) : Bool :=
  if (s.runs who).isSome then ttype ≠ .tbrok
  else
    match who, s.testProcess with
    | none, some (.between _) => ttype = .twarn ∨ ttype = .tfail
    | _, _ => false

/-- A process ends. -/
def ends (s : Harness) (who : Who) (how : Ending) : Harness :=
  match who with
  | none => { s with testProcess := some (.ended how) }
  | some pid =>
    { s with children := s.children.map fun child => if child.pid = pid then { child with ended := some how } else child }

/-- `tst_vbrk_` in a process of the test: only the test process cleans up before it exits. -/
def tstVbrk (s : Harness) (who : Who) (ttype : Ttype) : Harness :=
  match who with
  | none => { s.record ttype with testProcess := some (.cleanup ttype.code) }
  | some _ => (s.record ttype).ends who (.exited ttype.code)

/-- `tst_vbrk_` in the library. -/
def libVbrk (s : Harness) (ttype : Ttype) : Harness :=
  { s.record ttype with library := .leaving .passed ttype.code }

/-- Where `tst_brk` ends a process: in the functions of the test, for what it supports, and in `get_time_ms`. -/
def breaks (s : Harness) (who : Who) (ttype : Ttype) : Bool :=
  match s.runs who with
  | some .setup | some .test => ttype.supported
  | some (.cleanup _) => false
  | none =>
    match who, s.testProcess with
    | none, some (.between _) => ttype = .tbrok
    | _, _ => false

/-- The variant whose test process runs. -/
def variant (s : Harness) : Option ℕ :=
  match s.library with
  | .waiting variant _ => some variant
  | _ => none

/-- Whether a process is a child of the test process. -/
def owns (s : Harness) (child : Child) : Bool := child.parent.isSome && child.parent = s.variant

/-- How a child of the test process ended, if it did. -/
def status (s : Harness) (pid : ℕ) : Option Ending :=
  match s.child pid with
  | some child => if s.owns child then child.ended else none
  | none => none

/-- `wait` has returned a child. -/
def remove (s : Harness) (pid : ℕ) : Harness :=
  { s with children := s.children.filter fun child => child.pid ≠ pid }

end Harness

/-- `check_child_status` accepts the child. -/
def checkChildStatus : Ending → Bool
  | .killed => false
  | .exited code => code = Ttype.tpass.code ∨ code = Ttype.tbrok.code ∨ code = Ttype.tconf.code

/-- The order of the comparisons in `results_equal`. -/
def resultsEqual : List Counter := [.passed, .failed, .skipped, .broken]

/-- After a round, `testrun` goes on as long as there are iterations or there is time. -/
def nextRound (t : TstTest) (i : ℕ) : Option ℕ :=
  if i < t.iterations then some (i + 1) else if t.timed then some i else none

/-- After a test function. -/
def nextTest (t : TstTest) (i k : ℕ) : Testrun :=
  if k + 1 < t.calls then .saving i (k + 1) fun _ => none else .between i

/-- The next step of `do_exit`. -/
def doExit (results : Results) : Look → ℕ → Look × ℕ
  | .passed, ret => (.failed, if results .passed ≠ 0 ∧ ret = Ttype.tconf.code then 0 else ret)
  | .failed, ret => (.skipped, if results .failed ≠ 0 then ret ||| Ttype.tfail.code else ret)
  | .skipped, ret => (if results .skipped ≠ 0 then .passedAgain else .warnings, ret)
  | .passedAgain, ret => (.warnings, if results .passed = 0 then ret ||| Ttype.tconf.code else ret)
  | .warnings, ret => (.broken, if results .warnings ≠ 0 then ret ||| Ttype.twarn.code else ret)
  | .broken, ret => (.last, if results .broken ≠ 0 then ret ||| Ttype.tbrok.code else ret)
  | .last, ret => (.last, ret)

/-- After a test process that exited, the loop of `tst_run_tcases`. -/
def nextVariant (t : TstTest) (variant ret : ℕ) : Library :=
  if ret &&& 0xffffffdf ≠ 0 then .leaving .passed ret
  else if variant + 1 < t.variants then .forking (variant + 1) ret
  else .leaving .passed ret

/-! ## Steps -/

/-- One step of the library. -/
def stepLibrary (t : TstTest) (s : Harness) : Event → Option Harness
  | .help => if s.library = .starting then some { s with library := .exited 0 } else none
  | .refuse ttype =>
    if s.library = .starting ∧ (ttype = .tbrok ∨ ttype = .tconf) then some { s with library := .exited ttype.code }
    else none
  | .mapped =>
    if s.library = .starting ∧ assertTestFn t = none then some { s with library := .forking 0 0 } else none
  | .libBrk =>
    match s.library with
    | .forking _ _ | .waiting _ _ => some (s.libVbrk .tbrok)
    | _ => none
  | .spawn =>
    match s.library with
    | .forking variant ret => some { s with library := .waiting variant ret, testProcess := some .setup }
    | _ => none
  | .waited code =>
    match s.library, s.testProcess with
    | .waiting variant ret, some (.ended (.exited exited)) =>
      if exited = code then
        some { s with library := nextVariant t variant (ret ||| code), testProcess := none }
      else none
    | _, _ => none
  | .waitedKilled =>
    match s.library, s.testProcess with
    | .waiting _ _, some (.ended .killed) => some { s.libVbrk .tbrok with testProcess := none }
    | _, _ => none
  | .giveUp =>
    match s.library with
    | .waiting _ _ => some { s with library := .exited Ttype.tfail.code }
    | _ => none
  | .look =>
    match s.library with
    | .leaving .last ret => some { s with library := .exited (ret % 256) }
    | .leaving look ret =>
      let (look, ret) := doExit s.results look ret
      some { s with library := .leaving look ret }
    | _ => none
  | _ => none

/-- One step of the test process, outside of the functions of the test. -/
def stepTestrun (t : TstTest) (s : Harness) (p : Testrun) : Event → Option Harness
  | .setUp =>
    match p with
    | .setup => some { s with testProcess := some (.between 0) }
    | _ => none
  | .round =>
    match p with
    | .between i =>
      match nextRound t i with
      | some i => some { s with testProcess := some (.saving i 0 fun _ => none) }
      | none => none
    | _ => none
  | .save counter =>
    match p with
    | .saving i k saved =>
      let saved := fun other => if other = counter then some (s.results counter) else saved other
      some { s with testProcess := some (.saving i k saved) }
    | _ => none
  | .call =>
    match p with
    | .saving i k saved =>
      if ∀ counter ∈ Counter.all, (saved counter).isSome then some { s with testProcess := some (.calling i k saved) } else none
    | _ => none
  | .returned =>
    match p with
    | .calling i k saved => some { s with testProcess := some (.reaping i k saved) }
    | _ => none
  | .reap pid =>
    match p, s.status pid with
    | .reaping _ _ _, some how => if checkChildStatus how then some (s.remove pid) else none
    | _, _ => none
  | .reapBad pid =>
    match p, s.status pid with
    | .reaping _ _ _, some how =>
      if checkChildStatus how then none else some ((s.remove pid).tstVbrk none .tbrok)
    | _, _ => none
  | .waitFails =>
    match p with
    | .reaping _ _ _ => some (s.tstVbrk none .tbrok)
    | _ => none
  | .childless =>
    match p with
    | .reaping i k saved =>
      if s.children.any s.owns then none else some { s with testProcess := some (.comparing i k saved resultsEqual) }
    | _ => none
  | .same =>
    match p with
    | .comparing i k saved (counter :: rest) =>
      if saved counter = some (s.results counter) then
        some { s with testProcess := some (.comparing i k saved rest) }
      else none
    | _ => none
  | .checked =>
    match p with
    | .comparing i k saved (counter :: _) =>
      if saved counter = some (s.results counter) then none
      else some { s with testProcess := some (nextTest t i k) }
    | _ => none
  | .unreported =>
    match p with
    | .comparing _ _ _ [] => some (s.tstVbrk none .tbrok)
    | _ => none
  | .finish =>
    match p with
    | .between i => if i < t.iterations then none else some { s with testProcess := some (.cleanup 0) }
    | _ => none
  | .cleanedUp =>
    match p with
    | .cleanup code => some (s.ends none (.exited code))
    | _ => none
  | _ => none

/-- One step of the functions of the test, in any process of it. A child that returns from the function that it was
forked in exits, and one that returns from `setup` calls `tst_brk`. -/
def stepTest (s : Harness) : Event → Option Harness
  | .report who ttype => if s.reports who ttype then some (s.record ttype) else none
  | .brk who ttype => if s.breaks who ttype then some (s.tstVbrk who ttype) else none
  | .cvres who ttype =>
    match s.runs who with
    | some (.cleanup _) => if ttype.supported then some (s.record ttype.cvres) else none
    | _ => none
  | .fork who pid =>
    match s.runs who with
    | some within =>
      let parent := if who = none then s.variant else none
      if (s.child pid).isNone then some { s with children := ⟨pid, parent, within, none⟩ :: s.children } else none
    | none => none
  | .collect pid =>
    if (s.runs none).isSome ∧ (s.status pid).isSome then some (s.remove pid) else none
  | .quit who n => if (s.runs who).isSome then some (s.ends who (.exited (n % 256))) else none
  | .killed who =>
    match who, s.testProcess with
    | none, some (.ended _) | none, none => none
    | none, some _ => some (s.ends none .killed)
    | some pid, _ => if (s.runs (some pid)).isSome then some (s.ends (some pid) .killed) else none
  | .runaway pid =>
    if s.runs (some pid) = some .setup then some (s.tstVbrk (some pid) .tbrok) else none
  | .childReturned pid =>
    match s.runs (some pid) with
    | some .test => some (s.ends (some pid) (.exited 0))
    | some (.cleanup code) => some (s.ends (some pid) (.exited code))
    | _ => none
  | _ => none

def step (t : TstTest) (s : Harness) (e : Event) : Option Harness :=
  match stepLibrary t s e with
  | some next => some next
  | none =>
    match s.testProcess.bind fun p => stepTestrun t s p e with
    | some next => some next
    | none => stepTest s e

def harness (t : TstTest) : System := .ofStep (step t)

def begin : Harness where
  results _ := 0
  library := .starting
  testProcess := none
  children := []

end Yalibct.Ltp
