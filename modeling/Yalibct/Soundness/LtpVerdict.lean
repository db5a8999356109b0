import Yalibct.Soundness.LtpHarness

/-! # What an exit status of zero means to the Linux Test Project

Every test process came to its end, each call of a test function recorded a result, and a test passed. The
invariant follows the rounds of the test process and the copies that it makes of the counters, whatever other
processes do in the meantime.
-/

namespace Yalibct.Ltp

open Machine

variable {t : TstTest} {s n mid : Harness} {e : Event} {es past rest : List Event} {c : Counter} {p : Testrun}
variable {who : Who} {ttype : Ttype} {status b ret : ℕ} {look : Look} {results : Results}

/-! ## The test processes -/

/-- A test process that the library has waited for: how many of its calls of test functions were found to have
recorded a result, and the code that it exited with. -/
structure TestProcess where
  checks : ℕ
  code : ℕ

/-- The checks since the last test process was forked, and all those that the library has waited for. -/
structure Tally where
  checks : ℕ
  processes : List TestProcess

def Tally.after (tally : Tally) : Event → Tally
  | .spawn => { tally with checks := 0 }
  | .checked => { tally with checks := tally.checks + 1 }
  | .waited code => { tally with processes := tally.processes ++ [⟨tally.checks, code⟩] }
  | _ => tally

def tally (es : List Event) : Tally := es.foldl Tally.after ⟨0, []⟩

/-- The codes of the test processes that the library has waited for. -/
def codes (es : List Event) : List ℕ := (tally es).processes.map TestProcess.code

/-- Whether the library forks a test process or has waited for one. -/
def Event.turns : Event → Bool
  | .spawn | .waited _ => true
  | _ => false

/-- How a step moves the test process, if the counters are these. -/
inductive Advance (t : TstTest) (results : Results) : Testrun → Event → Testrun → Prop
  | stay {p : Testrun} {e : Event} (quiet : e.turns = false) (other : e ≠ .checked) : Advance t results p e p
  | setUp : Advance t results .setup .setUp (.between 0)
  | round {i j : ℕ} (next : nextRound t i = some j) :
      Advance t results (.between i) .round (.saving j 0 fun _ => none)
  | save {i k : ℕ} {saved : Counter → Option UInt32} (counter : Counter) :
      Advance t results (.saving i k saved) (.save counter)
        (.saving i k fun other => if other = counter then some (results counter) else saved other)
  | call {i k : ℕ} {saved : Counter → Option UInt32} (whole : ∀ counter ∈ Counter.all, (saved counter).isSome) :
      Advance t results (.saving i k saved) .call (.calling i k saved)
  | returned {i k : ℕ} {saved : Counter → Option UInt32} :
      Advance t results (.calling i k saved) .returned (.reaping i k saved)
  | childless {i k : ℕ} {saved : Counter → Option UInt32} :
      Advance t results (.reaping i k saved) .childless (.comparing i k saved resultsEqual)
  | same {i k : ℕ} {saved : Counter → Option UInt32} {counter : Counter} {rest : List Counter} :
      Advance t results (.comparing i k saved (counter :: rest)) .same (.comparing i k saved rest)
  | checked {i k : ℕ} {saved : Counter → Option UInt32} {counter : Counter} {rest : List Counter}
      (differs : saved counter ≠ some (results counter)) :
      Advance t results (.comparing i k saved (counter :: rest)) .checked (nextTest t i k)
  | finish {i : ℕ} (last : t.iterations ≤ i) : Advance t results (.between i) .finish (.cleanup 0)
  | cleanedUp {code : ℕ} : Advance t results (.cleanup code) .cleanedUp (.ended (.exited code))
  | brk {p : Testrun} {e : Event} {ttype : Ttype} (quiet : e.turns = false) (other : e ≠ .checked)
      (supported : ttype.supported) : Advance t results p e (.cleanup ttype.code)
  | quit {p : Testrun} (m : ℕ) : Advance t results p (.quit none m) (.ended (.exited (m % 256)))
  | killed {p : Testrun} : Advance t results p (.killed none) (.ended .killed)

private theorem testrun_advance (here : s.testProcess = some p) (stepped : stepTestrun t s p e = some n) :
    ∃ q, n.testProcess = some q ∧ Advance t s.results p e q := by
  have broken : Ttype.tbrok.supported := rfl
  cases e <;> simp only [stepTestrun, reduceCtorEq] at stepped
  case setUp =>
    split at stepped <;> cases stepped
    exact ⟨_, rfl, .setUp⟩
  case round =>
    split at stepped
    · split at stepped
      · next next =>
        cases stepped
        exact ⟨_, rfl, .round next⟩
      · cases stepped
    · cases stepped
  case save counter =>
    split at stepped <;> cases stepped
    exact ⟨_, rfl, .save counter⟩
  case call =>
    split at stepped
    · split_ifs at stepped with whole
      cases stepped
      exact ⟨_, rfl, .call whole⟩
    · cases stepped
  case returned =>
    split at stepped <;> cases stepped
    exact ⟨_, rfl, .returned⟩
  case reap pid =>
    split at stepped
    · split_ifs at stepped
      cases stepped
      exact ⟨_, here, .stay rfl (by simp)⟩
    · cases stepped
  case reapBad pid =>
    split at stepped
    · split_ifs at stepped
      cases stepped
      exact ⟨_, rfl, .brk rfl (by simp) broken⟩
    · cases stepped
  case waitFails =>
    split at stepped <;> cases stepped
    exact ⟨_, rfl, .brk rfl (by simp) broken⟩
  case childless =>
    split at stepped
    · split_ifs at stepped
      cases stepped
      exact ⟨_, rfl, .childless⟩
    · cases stepped
  case same =>
    split at stepped
    · split_ifs at stepped
      cases stepped
      exact ⟨_, rfl, .same⟩
    · cases stepped
  case checked =>
    split at stepped
    · split_ifs at stepped with same
      cases stepped
      exact ⟨_, rfl, .checked same⟩
    · cases stepped
  case unreported =>
    split at stepped <;> cases stepped
    exact ⟨_, rfl, .brk rfl (by simp) broken⟩
  case finish =>
    split at stepped
    · split_ifs at stepped with more
      cases stepped
      exact ⟨_, rfl, .finish (Nat.le_of_not_lt more)⟩
    · cases stepped
  case cleanedUp =>
    split at stepped <;> cases stepped
    exact ⟨_, rfl, .cleanedUp⟩

private theorem supported_of_breaks (breaks : s.breaks who ttype) : ttype.supported := by
  unfold Harness.breaks at breaks
  split at breaks
  · exact breaks
  · exact breaks
  · cases breaks
  · split at breaks
    · rw [decide_eq_true_iff] at breaks
      rw [breaks]
      rfl
    · cases breaks

private theorem running_of_runs {within : Within} (runs : s.runs none = some within) :
    ∃ p, s.testProcess = some p := by
  unfold Harness.runs at runs
  obtain ⟨p, here, _⟩ := Option.bind_eq_some_iff.mp runs
  exact ⟨p, here⟩

private theorem running_of_breaks (breaks : s.breaks none ttype) : ∃ p, s.testProcess = some p := by
  unfold Harness.breaks at breaks
  split at breaks
  · next runs => exact running_of_runs runs
  · next runs => exact running_of_runs runs
  · cases breaks
  · split at breaks
    · next here => exact ⟨_, here⟩
    · cases breaks

/-- A step of the functions of the test leaves the test process where it is, or ends them in it. -/
theorem test_cases (stepped : stepTest s e = some n) :
    n.testProcess = s.testProcess ∧ e.turns = false ∧ e ≠ .checked ∨
      ∃ p q, s.testProcess = some p ∧ n.testProcess = some q ∧ Advance t s.results p e q := by
  cases e <;> simp only [stepTest, reduceCtorEq] at stepped
  case report who ttype =>
    split_ifs at stepped
    cases stepped
    exact .inl ⟨record_testProcess, rfl, by simp⟩
  case brk who ttype =>
    split_ifs at stepped with breaks
    cases stepped
    cases who with
    | none =>
      obtain ⟨p, here⟩ := running_of_breaks breaks
      exact .inr ⟨p, _, here, rfl, .brk rfl (by simp) (supported_of_breaks breaks)⟩
    | some pid => exact .inl ⟨tstVbrk_child, rfl, by simp⟩
  case cvres who ttype =>
    split at stepped
    · split_ifs at stepped
      cases stepped
      exact .inl ⟨record_testProcess, rfl, by simp⟩
    · cases stepped
  case fork who pid =>
    split at stepped
    · split_ifs at stepped <;> cases stepped <;> exact .inl ⟨rfl, rfl, by simp⟩
    · cases stepped
  case collect pid =>
    split_ifs at stepped
    cases stepped
    exact .inl ⟨rfl, rfl, by simp⟩
  case quit who m =>
    split_ifs at stepped with runs
    cases stepped
    cases who with
    | none =>
      obtain ⟨within, runs⟩ := Option.isSome_iff_exists.mp runs
      obtain ⟨p, here⟩ := running_of_runs runs
      exact .inr ⟨p, _, here, rfl, .quit m⟩
    | some pid => exact .inl ⟨rfl, rfl, by simp⟩
  case killed who =>
    split at stepped
    · cases stepped
    · cases stepped
    · next p _ here =>
      cases stepped
      exact .inr ⟨p, _, here, rfl, .killed⟩
    · split_ifs at stepped
      cases stepped
      exact .inl ⟨rfl, rfl, by simp⟩
  case runaway pid =>
    split_ifs at stepped
    cases stepped
    exact .inl ⟨tstVbrk_child, rfl, by simp⟩
  case childReturned pid =>
    split at stepped <;> cases stepped <;> exact .inl ⟨rfl, rfl, by simp⟩

/-- A step that is not one of the library moves the test process, or there is none. -/
theorem step_advance (stepped : step t s e = some n) : stepLibrary t s e = some n ∨ n.library = s.library ∧
    ∀ p, s.testProcess = some p → ∃ q, n.testProcess = some q ∧ Advance t s.results p e q := by
  rcases step_cases stepped with library | ⟨p, here, testrun⟩ | test
  · exact .inl library
  · refine .inr ⟨(testrun_effect testrun).2, fun q here' => ?_⟩
    cases here.symm.trans here'
    exact testrun_advance here testrun
  · refine .inr ⟨(test_effect test).2, fun p here => ?_⟩
    rcases test_cases (t := t) test with ⟨same, quiet, other⟩ | ⟨p', q, here', there, advance⟩
    · exact ⟨p, same.trans here, .stay quiet other⟩
    · cases here.symm.trans here'
      exact ⟨q, there, advance⟩

/-- The test processes that exited with zero have made their calls, and the current one so many. -/
structure Enough (t : TstTest) (es : List Event) (done : ℕ) : Prop where
  processes : ∀ process ∈ (tally es).processes, process.code = 0 → t.iterations * t.calls ≤ process.checks
  current : done ≤ (tally es).checks

variable {x y : ℕ}

private theorem tally_append : tally (es ++ [e]) = (tally es).after e := List.foldl_append

/-- An event that is no turn leaves the earlier test processes alone. -/
theorem tally_quiet (quiet : e.turns = false) : (tally (es ++ [e])).processes = (tally es).processes ∧
    (tally es).checks ≤ (tally (es ++ [e])).checks := by
  rw [tally_append]
  unfold Tally.after
  split
  · cases quiet
  · exact ⟨rfl, Nat.le_succ _⟩
  · cases quiet
  · exact ⟨rfl, le_rfl⟩

private theorem codes_quiet (quiet : e.turns = false) : codes (es ++ [e]) = codes es := by
  rw [codes, (tally_quiet quiet).1, ← codes]

private theorem codes_spawn : codes (es ++ [.spawn]) = codes es := by
  rw [codes, tally_append]
  rfl

private theorem codes_waited {code : ℕ} : codes (es ++ [.waited code]) = codes es ++ [code] := by
  rw [codes, tally_append]
  exact List.map_append

theorem Enough.mono (enough : Enough t es x) (quiet : e.turns = false) (less : y ≤ x) : Enough t (es ++ [e]) y := by
  obtain ⟨same, more⟩ := @tally_quiet e es quiet
  constructor
  · rw [same]
    exact enough.processes
  · exact less.trans (enough.current.trans more)

theorem Enough.checked (enough : Enough t es x) (next : y ≤ x + 1) : Enough t (es ++ [.checked]) y := by
  have current := enough.current
  constructor
  · rw [tally_append]
    exact enough.processes
  · rw [tally_append]
    exact next.trans (Nat.succ_le_succ current)

theorem Enough.spawn (enough : Enough t es x) : Enough t (es ++ [.spawn]) 0 := by
  constructor
  · rw [tally_append]
    exact enough.processes
  · exact Nat.zero_le _

/-- What a test process that exits with a code has done. -/
def Exits (t : TstTest) (es : List Event) (code : ℕ) : Prop :=
  code < 256 ∧ Enough t es (if code = 0 then t.iterations * t.calls else 0)

theorem Exits.of_ne_zero {code : ℕ} (small : code < 256) (nonzero : code ≠ 0) (enough : Enough t es 0) :
    Exits t es code := by
  refine ⟨small, ?_⟩
  rw [if_neg nonzero]
  exact enough

theorem Exits.mono {code : ℕ} (exits : Exits t es code) (quiet : e.turns = false) : Exits t (es ++ [e]) code :=
  ⟨exits.1, exits.2.mono quiet le_rfl⟩

theorem Exits.enough {code : ℕ} (exits : Exits t es code) : Enough t es 0 :=
  ⟨exits.2.processes, Nat.zero_le _⟩

/-- The test process joins those that were waited for. -/
theorem Exits.waited {code : ℕ} (exits : Exits t es code) : Enough t (es ++ [.waited code]) 0 := by
  constructor
  · rw [tally_append]
    intro process member zero
    rcases List.mem_append.mp member with before | last
    · exact exits.2.processes process before zero
    · rw [List.mem_singleton.mp last] at zero ⊢
      have current := exits.2.current
      rw [if_pos zero] at current
      exact current
  · exact Nat.zero_le _

def Progress (t : TstTest) (es : List Event) : Testrun → Prop
  | .setup | .ended .killed => Enough t es 0
  | .between i => Enough t es (i * t.calls)
  | .saving i k _ | .calling i k _ | .reaping i k _ | .comparing i k _ _ => Enough t es ((i - 1) * t.calls + k)
  | .cleanup code | .ended (.exited code) => Exits t es code

theorem Progress.enough (progress : Progress t es p) : Enough t es 0 := by
  have less {x : ℕ} (enough : Enough t es x) : Enough t es 0 := ⟨enough.processes, Nat.zero_le _⟩
  cases p with
  | ended how =>
    cases how with
    | exited code => exact progress.enough
    | killed => exact progress
  | cleanup code => exact progress.enough
  | setup | between _ | saving _ _ _ | calling _ _ _ | reaping _ _ _ | comparing _ _ _ _ => exact less progress

theorem Progress.mono (progress : Progress t es p) (quiet : e.turns = false) : Progress t (es ++ [e]) p := by
  cases p with
  | ended how =>
    cases how with
    | exited code => exact Exits.mono progress quiet
    | killed => exact Enough.mono progress quiet le_rfl
  | cleanup code => exact Exits.mono progress quiet
  | setup | between _ | saving _ _ _ | calling _ _ _ | reaping _ _ _ | comparing _ _ _ _ =>
    exact Enough.mono progress quiet le_rfl

/-- `tst_brk` ends the test process with a code that is not zero. -/
theorem Progress.cleanup (progress : Progress t es p) (supported : ttype.supported) :
    Progress t es (.cleanup ttype.code) := by
  refine Exits.of_ne_zero ?_ ?_ progress.enough <;> cases ttype <;> first | decide | cases supported

private theorem progress_nextTest {i k : ℕ} (enough : Enough t es ((i - 1) * t.calls + (k + 1))) :
    Progress t es (nextTest t i k) := by
  unfold nextTest
  split_ifs with more
  · exact enough
  · have whole : i * t.calls ≤ (i - 1) * t.calls + (k + 1) := by
      cases i with
      | zero => rw [Nat.zero_mul]; exact Nat.zero_le _
      | succ i => rw [Nat.add_sub_cancel, Nat.add_mul, Nat.one_mul]; omega
    exact ⟨enough.processes, whole.trans enough.current⟩

theorem Advance.turns {q : Testrun} (advance : Advance t results p e q) : e.turns = false := by
  cases advance with
  | stay quiet _ | brk quiet _ _ => exact quiet
  | setUp | round _ | save _ | call _ | returned | childless | same | checked _ | finish _ | cleanedUp | quit _
    | killed => rfl

/-- The test process does not call `exit` with a number that means success. -/
def Honest (es : List Event) : Prop := ∀ m, m % 256 = 0 → .quit none m ∉ es

variable {q : Testrun}

theorem progress_keeps (progress : Progress t es p) (honest : Honest [e]) (advance : Advance t s.results p e q) :
    Progress t (es ++ [e]) q := by
  cases advance with
  | stay quiet _ => exact progress.mono quiet
  | setUp => exact Enough.mono progress rfl (by omega)
  | @round i j next =>
    refine Enough.mono progress rfl ?_
    have before : (j - 1) * t.calls ≤ i * t.calls := by
      apply Nat.mul_le_mul_right
      unfold nextRound at next
      split_ifs at next <;> cases next <;> omega
    omega
  | save counter | call _ | returned | childless | same => exact Enough.mono progress rfl le_rfl
  | checked _ => exact progress_nextTest (Enough.checked progress (by omega))
  | @finish i last =>
    refine ⟨by decide, Enough.mono progress rfl ?_⟩
    rw [if_pos rfl]
    exact Nat.mul_le_mul_right _ last
  | cleanedUp => exact Exits.mono progress rfl
  | brk quiet _ supported => exact (progress.mono quiet).cleanup supported
  | quit m =>
    refine Exits.of_ne_zero (Nat.mod_lt _ (by decide)) ?_ (progress.mono rfl).enough
    exact fun zero => honest m zero (List.mem_singleton_self _)
  | killed => exact (progress.mono rfl).enough

/-! ## The copies of the counters -/

/-- A copy of all counters, in which those that nobody has incremented are zero. -/
def Copied (es : List Event) (saved : Counter → Option UInt32) : Prop :=
  ∀ c v, saved c = some v → c ∉ recorded es → v = 0

/-- Only some counters are compared, and their copies are there. -/
def Faithful (es : List Event) : Testrun → Prop
  | .saving _ _ saved => Copied es saved
  | .calling _ _ saved | .reaping _ _ saved => Copied es saved ∧ ∀ c ∈ Counter.all, (saved c).isSome
  | .comparing _ _ saved rest =>
    (Copied es saved ∧ ∀ c ∈ Counter.all, (saved c).isSome) ∧ ∀ c ∈ rest, c ∈ resultsEqual
  | _ => True

/-- A call that was checked has recorded a result. -/
def Reported (es : List Event) : Prop := .checked ∈ es → ∃ c ∈ resultsEqual, c ∈ recorded es

private theorem recorded_mono (missing : c ∉ recorded (es ++ [e])) : c ∉ recorded es := fun member =>
  missing (by rw [recorded_append]; exact List.mem_append_left _ member)

theorem Copied.mono {saved : Counter → Option UInt32} (copied : Copied es saved) : Copied (es ++ [e]) saved :=
  fun c v held missing => copied c v held (recorded_mono missing)

theorem Faithful.mono (faithful : Faithful es p) : Faithful (es ++ [e]) p := by
  cases p with
  | setup | between _ | cleanup _ | ended _ => trivial
  | saving _ _ saved => exact Copied.mono faithful
  | calling _ _ saved | reaping _ _ saved => exact ⟨faithful.1.mono, faithful.2⟩
  | comparing _ _ saved rest => exact ⟨⟨faithful.1.1.mono, faithful.1.2⟩, faithful.2⟩

theorem Reported.mono (reported : Reported es) (other : e ≠ .checked) : Reported (es ++ [e]) := by
  intro member
  rcases List.mem_append.mp member with before | last
  · obtain ⟨c, compared, noted⟩ := reported before
    exact ⟨c, compared, by rw [recorded_append]; exact List.mem_append_left _ noted⟩
  · exact absurd (List.mem_singleton.mp last).symm other

private theorem faithful_nextTest {i k : ℕ} : Faithful es (nextTest t i k) := by
  unfold nextTest
  split_ifs
  · rintro c v ⟨⟩
  · trivial

theorem faithful_keeps (counted : Counted es s) (faithful : Faithful es p) (advance : Advance t s.results p e q) :
    Faithful (es ++ [e]) q := by
  cases advance with
  | stay _ _ => exact faithful.mono
  | setUp | finish _ | cleanedUp | brk _ _ _ | quit _ | killed => trivial
  | round _ => rintro c v ⟨⟩
  | save counter =>
    rintro c v held missing
    have unrecorded := recorded_mono missing
    dsimp only at held
    split_ifs at held with same
    · subst same
      cases held
      rw [counted c, List.count_eq_zero.mpr unrecorded]
      rfl
    · exact faithful c v held unrecorded
  | call whole => exact ⟨Copied.mono faithful, whole⟩
  | returned => exact faithful.mono
  | childless => exact ⟨⟨faithful.1.mono, faithful.2⟩, fun _ member => member⟩
  | same => exact ⟨⟨faithful.1.1.mono, faithful.1.2⟩, fun c member => faithful.2 c (List.mem_cons_of_mem _ member)⟩
  | checked _ => exact faithful_nextTest

theorem reported_keeps (counted : Counted es s) (faithful : Faithful es p) (reported : Reported es)
    (advance : Advance t s.results p e q) : Reported (es ++ [e]) := by
  cases advance with
  | stay _ other | brk _ other _ => exact reported.mono other
  | setUp | round _ | save _ | call _ | returned | childless | same | finish _ | cleanedUp | quit _ | killed =>
    exact reported.mono (by simp)
  | @checked i k saved counter rest differs =>
    intro _
    refine ⟨counter, faithful.2 counter (List.mem_cons_self ..), ?_⟩
    rw [recorded_append]
    apply List.mem_append_left
    by_contra missing
    obtain ⟨v, held⟩ := Option.isSome_iff_exists.mp (faithful.1.2 counter (by cases counter <;> decide))
    rw [held, faithful.1.1 counter v held missing, counted counter, List.count_eq_zero.mpr missing] at differs
    exact differs rfl

/-! ## An exit status of zero -/

/-- The test processes that were waited for, before the variant with that number. -/
structure Rounds (t : TstTest) (es : List Event) (variant ret : ℕ) : Prop where
  count : (codes es).length = variant
  more : variant < t.variants
  kinds : ∀ code ∈ codes es, code = 0 ∨ code = Ttype.tconf.code
  gathered : ret = if Ttype.tconf.code ∈ codes es then Ttype.tconf.code else 0

/-- Until the library leaves. -/
def Account (t : TstTest) (es : List Event) (s : Harness) : Prop :=
  match s.library with
  | .starting => codes es = [] ∧ s.testProcess = none ∧ Reported es
  | .forking variant ret =>
    Rounds t es variant ret ∧ assertTestFn t = none ∧ s.testProcess = none ∧ Enough t es 0 ∧ Reported es
  | .waiting variant ret => Rounds t es variant ret ∧ assertTestFn t = none ∧
      ∃ p, s.testProcess = some p ∧ Progress t es p ∧ Faithful es p ∧ Reported es
  | _ => True

theorem Rounds.mono {variant : ℕ} (rounds : Rounds t es variant ret) (quiet : e.turns = false) :
    Rounds t (es ++ [e]) variant ret := by
  obtain ⟨count, more, kinds, gathered⟩ := rounds
  rw [← codes_quiet quiet] at count kinds gathered
  exact ⟨count, more, kinds, gathered⟩

theorem Rounds.spawn {variant : ℕ} (rounds : Rounds t es variant ret) : Rounds t (es ++ [.spawn]) variant ret := by
  obtain ⟨count, more, kinds, gathered⟩ := rounds
  rw [← codes_spawn] at count kinds gathered
  exact ⟨count, more, kinds, gathered⟩

/-- Without a test process, only the library and what earlier test processes have left behind step. -/
theorem step_idle (idle : s.testProcess = none) (stepped : step t s e = some n) : stepLibrary t s e = some n ∨
    n.library = s.library ∧ n.testProcess = none ∧ e.turns = false ∧ e ≠ .checked := by
  rcases step_cases stepped with library | ⟨p, here, _⟩ | test
  · exact .inl library
  · rw [idle] at here
    cases here
  · refine .inr ⟨(test_effect test).2, ?_⟩
    rcases test_cases (t := t) test with ⟨same, others⟩ | ⟨p, _, here, _, _⟩
    · exact ⟨same.trans idle, others⟩
    · rw [idle] at here
      cases here

theorem masked_byte : ∀ code : Fin 256,
    (code.val &&& 0xffffffdf = 0 → code.val = 0 ∨ code.val = Ttype.tconf.code) ∧
      (code.val &&& 0xffffffdf ≠ 0 → ∃ b : Fin 8, b.val ≠ 5 ∧ code.val.testBit b) := by
  decide +kernel

private theorem variants_pos : 0 < t.variants := by
  unfold TstTest.variants
  split_ifs <;> omega

/-- The next test process was waited for. -/
theorem Rounds.waited {variant code : ℕ} (rounds : Rounds t es variant ret) (small : code < 256)
    (fine : (ret ||| code) &&& 0xffffffdf = 0) :
    (codes (es ++ [.waited code])).length = variant + 1 ∧
      (∀ other ∈ codes (es ++ [.waited code]), other = 0 ∨ other = Ttype.tconf.code) ∧
      ret ||| code = if Ttype.tconf.code ∈ codes (es ++ [.waited code]) then Ttype.tconf.code else 0 := by
  rw [Nat.and_or_distrib_right, Nat.or_eq_zero_iff] at fine
  have kind : code = 0 ∨ code = Ttype.tconf.code := (masked_byte ⟨code, small⟩).1 fine.2
  rw [codes_waited]
  refine ⟨by rw [List.length_append, rounds.count, List.length_singleton], fun other member => ?_, ?_⟩
  · rcases List.mem_append.mp member with before | last
    · exact rounds.kinds other before
    · rw [List.mem_singleton.mp last]
      exact kind
  · rw [rounds.gathered]
    rcases kind with rfl | rfl
    · have other : Ttype.tconf.code ∉ [0] := by decide
      simp only [List.mem_append, other, or_false, Nat.or_zero]
    · have last : Ttype.tconf.code ∈ codes es ++ [Ttype.tconf.code] := by simp
      rw [if_pos last]
      split_ifs <;> rfl

/-- The library has not come to `do_exit`. -/
def Running : Library → Prop
  | .leaving _ _ | .exited _ => False
  | _ => True

/-- It does not come back. -/
theorem running_before (stepped : step t s e = some n) (running : Running n.library) : Running s.library := by
  rcases step_library stepped with library | same
  · cases here : s.library with
    | starting | forking _ _ | waiting _ _ => trivial
    | leaving look ret =>
      cases e <;> simp only [stepLibrary, here, reduceCtorEq, false_and, ↓reduceIte] at library
      case look =>
        split at library <;> cases library <;> exact running.elim
    | exited status =>
      cases e <;> simp only [stepLibrary, here, reduceCtorEq, false_and, ↓reduceIte] at library
  · rw [← same]
    exact running

private theorem account_starting (here : s.library = .starting) (account : Account t es s)
    (stepped : step t s e = some n)
    (running : Running n.library) : Account t (es ++ [e]) n := by
  rw [Account, here] at account
  obtain ⟨quiet, idle, reported⟩ := account
  rcases step_idle idle stepped with library | ⟨same, idle, code, other⟩
  · cases e <;> simp only [stepLibrary, here, reduceCtorEq, true_and, ↓reduceIte] at library
    case help =>
      cases library
      exact running.elim
    case refuse ttype =>
      split_ifs at library
      cases library
      exact running.elim
    case mapped =>
      split_ifs at library with function
      cases library
      have none : codes (es ++ [.mapped]) = [] := (codes_quiet rfl).trans quiet
      refine ⟨⟨by rw [none]; rfl, variants_pos, by rw [none]; simp, by rw [none]; rfl⟩, function, idle, ?_,
        reported.mono (by simp)⟩
      have unreaped : (tally (es ++ [.mapped])).processes = [] := List.map_eq_nil_iff.mp none
      refine ⟨?_, Nat.zero_le _⟩
      rw [unreaped]
      exact List.forall_mem_nil _
  · rw [Account, same, here]
    exact ⟨(codes_quiet code).trans quiet, idle, reported.mono other⟩

private theorem account_forking {variant : ℕ} (here : s.library = .forking variant ret) (account : Account t es s)
    (stepped : step t s e = some n) (running : Running n.library) : Account t (es ++ [e]) n := by
  rw [Account, here] at account
  obtain ⟨rounds, function, idle, enough, reported⟩ := account
  rcases step_idle idle stepped with library | ⟨same, idle, code, other⟩
  · cases e <;> simp only [stepLibrary, here, reduceCtorEq, false_and, ↓reduceIte] at library
    case libBrk =>
      cases library
      exact running.elim
    case spawn =>
      cases library
      exact ⟨rounds.spawn, function, .setup, rfl, enough.spawn, trivial, reported.mono (by simp)⟩
  · rw [Account, same, here]
    exact ⟨rounds.mono code, function, idle, enough.mono code le_rfl, reported.mono other⟩

private theorem account_waiting {variant : ℕ} (here : s.library = .waiting variant ret) (counted : Counted es s)
    (account : Account t es s) (honest : Honest [e]) (stepped : step t s e = some n) (running : Running n.library) :
    Account t (es ++ [e]) n := by
  rw [Account, here] at account
  obtain ⟨rounds, function, p, process, progress, faithful, reported⟩ := account
  rcases step_advance stepped with library | ⟨same, advances⟩
  · cases e <;> simp only [stepLibrary, here, reduceCtorEq, false_and, ↓reduceIte] at library
    case libBrk | giveUp =>
      cases library
      exact running.elim
    case waitedKilled =>
      split at library <;> cases library
      exact running.elim
    case waited code =>
      split at library
      · next variant' ret' exited same ended =>
        cases same
        split_ifs at library with same
        subst same
        cases library
        cases process.symm.trans ended
        by_cases fine : (ret ||| exited) &&& 0xffffffdf = 0
        · obtain ⟨count, kinds, gathered⟩ := rounds.waited progress.1 fine
          by_cases more : variant + 1 < t.variants
          · have next : nextVariant t variant (ret ||| exited) = .forking (variant + 1) (ret ||| exited) := by
              rw [nextVariant, if_neg (not_not_intro fine), if_pos more]
            rw [Account, next]
            exact ⟨⟨count, more, kinds, gathered⟩, function, rfl, progress.waited, reported.mono (by simp)⟩
          · rw [nextVariant, if_neg (not_not_intro fine), if_neg more] at running
            exact running.elim
        · rw [nextVariant, if_pos fine] at running
          exact running.elim
      · cases library
  · obtain ⟨q, there, advance⟩ := advances p process
    rw [Account, same, here]
    exact ⟨rounds.mono advance.turns, function, q, there, progress_keeps progress honest advance,
      faithful_keeps counted faithful advance, reported_keeps counted faithful reported advance⟩

theorem account_keeps (counted : Counted es s) (account : Running s.library → Account t es s) (honest : Honest [e])
    (stepped : step t s e = some n) (running : Running n.library) : Account t (es ++ [e]) n := by
  have before := running_before stepped running
  cases here : s.library with
  | starting => exact account_starting here (account before) stepped running
  | forking variant ret => exact account_forking here (account before) stepped running
  | waiting variant ret => exact account_waiting here counted (account before) honest stepped running
  | leaving look ret | exited status =>
    rw [here] at before
    exact before.elim

theorem Honest.before (honest : Honest es) (within : past <+: es) : Honest past :=
  fun m zero member => honest m zero (within.subset member)

private theorem account_run (run : Run (harness t) begin es s) (honest : Honest es) (running : Running s.library) :
    Account t es s := by
  have initial : Account t [] begin := ⟨rfl, rfl, fun member => absurd member List.not_mem_nil⟩
  have all : Counted es s ∧ (es <+: es → Running s.library → Account t es s) := by
    refine run.history (fun past (s : Harness) => Counted past s ∧ (past <+: es →
      Running s.library → Account t past s)) ?_ ⟨fun _ => rfl, fun _ _ => initial⟩
    rintro past s e n ⟨counted, account⟩ stepped
    refine ⟨counted_keeps counted stepped, fun within running => ?_⟩
    have here : Honest [e] := fun m zero member =>
      honest m zero (within.subset (List.mem_append_right past member))
    exact account_keeps counted (account ((List.prefix_append past [e]).trans within)) here stepped running
  exact all.2 List.prefix_rfl running

/-! ## An exit status of zero -/

/-- All test processes were waited for. Each one that exited with zero has made all its calls, and each of these
recorded a result. -/
structure Finished (t : TstTest) (es : List Event) : Prop where
  count : (tally es).processes.length = t.variants
  kinds : ∀ process ∈ (tally es).processes, process.code = 0 ∨ process.code = Ttype.tconf.code
  called : ∀ process ∈ (tally es).processes, process.code = 0 → t.iterations * t.calls ≤ process.checks

/-- How the library comes to `do_exit`, or to its end. -/
inductive Leaves (t : TstTest) (es : List Event) (e : Event) : Library → Prop
  | help (asked : e = .help) : Leaves t es e (.exited 0)
  | fails {status : ℕ} (nonzero : status ≠ 0) : Leaves t es e (.exited status)
  | broken {ret : ℕ} (records : e.records = some .broken) : Leaves t es e (.leaving .passed ret)
  | bad {ret b : ℕ} (small : b < 8) (other : b ≠ 5) (set : ret.testBit b) : Leaves t es e (.leaving .passed ret)
  | done {ret : ℕ} (finished : Finished t (es ++ [e])) (reported : Reported (es ++ [e]))
      (function : assertTestFn t = none)
      (gathered : ret = if Ttype.tconf.code ∈ codes (es ++ [e]) then Ttype.tconf.code else 0) :
      Leaves t es e (.leaving .passed ret)

private theorem leaves_waiting {variant : ℕ} (here : s.library = .waiting variant ret) (account : Account t es s)
    (stepped : step t s e = some n) (stopped : ¬ Running n.library) : Leaves t es e n.library := by
  rw [Account, here] at account
  obtain ⟨rounds, function, p, process, progress, _, reported⟩ := account
  rcases step_library stepped with library | same
  · cases e <;> simp only [stepLibrary, here, reduceCtorEq, false_and, ↓reduceIte] at library
    case libBrk =>
      cases library
      exact .broken rfl
    case giveUp =>
      cases library
      exact .fails (by decide)
    case waitedKilled =>
      split at library <;> cases library
      exact .broken rfl
    case waited code =>
      split at library
      · next variant' ret' exited same ended =>
        cases same
        split_ifs at library with same
        subst same
        cases library
        cases process.symm.trans ended
        by_cases fine : (ret ||| exited) &&& 0xffffffdf = 0
        · obtain ⟨count, kinds, gathered⟩ := rounds.waited progress.1 fine
          by_cases more : variant + 1 < t.variants
          · rw [nextVariant, if_neg (not_not_intro fine), if_pos more] at stopped
            exact absurd trivial stopped
          · rw [nextVariant, if_neg (not_not_intro fine), if_neg more]
            have last : variant + 1 = t.variants := Nat.le_antisymm rounds.more (Nat.le_of_not_lt more)
            rw [codes, List.length_map] at count
            refine .done ⟨count.trans last, fun process member => ?_, progress.waited.processes⟩ (reported.mono (by simp))
              function gathered
            exact kinds _ (List.mem_map_of_mem member)
        · rw [nextVariant, if_pos fine]
          have small : ret ||| exited < 2 ^ 8 := by
            refine Nat.or_lt_two_pow ?_ progress.1
            rw [rounds.gathered]
            split_ifs <;> decide
          obtain ⟨b, other, set⟩ := (masked_byte ⟨ret ||| exited, small⟩).2 fine
          exact .bad b.isLt other set
      · cases library
  · rw [same, here] at stopped
    exact absurd trivial stopped

theorem leaves (account : Account t es s) (running : Running s.library) (stepped : step t s e = some n)
    (stopped : ¬ Running n.library) : Leaves t es e n.library := by
  cases here : s.library with
  | waiting variant ret => exact leaves_waiting here account stepped stopped
  | starting =>
    rcases step_library stepped with library | same
    · cases e <;> simp only [stepLibrary, here, reduceCtorEq, true_and, ↓reduceIte] at library
      case help =>
        cases library
        exact .help rfl
      case refuse ttype =>
        split_ifs at library with kind
        cases library
        rcases kind with rfl | rfl
        · exact .fails (by decide)
        · exact .fails (by decide)
      case mapped =>
        split_ifs at library
        cases library
        exact absurd trivial stopped
    · rw [same, here] at stopped
      exact absurd trivial stopped
  | forking variant ret =>
    rcases step_library stepped with library | same
    · cases e <;> simp only [stepLibrary, here, reduceCtorEq, false_and, ↓reduceIte] at library
      case libBrk =>
        cases library
        exact .broken rfl
      case spawn =>
        cases library
        exact absurd trivial stopped
    · rw [same, here] at stopped
      exact absurd trivial stopped
  | leaving look ret | exited status =>
    rw [here] at running
    exact running.elim

/-- Once the library has exited, it has. -/
theorem exited_keeps (here : s.library = .exited status) (stepped : step t s e = some n) :
    n.library = .exited status := by
  rcases step_library stepped with library | same
  · cases e <;> simp only [stepLibrary, here, reduceCtorEq, false_and, ↓reduceIte] at library
  · exact same.trans here

private theorem calls_pos (function : assertTestFn t = none) : 0 < t.calls := by
  unfold TstTest.calls
  split_ifs with test
  · by_contra none
    have zero : t.tcnt = 0 := by omega
    simp only [assertTestFn, test, zero, ↓reduceIte, true_and] at function
    split_ifs at function
  · exact Nat.one_pos

/-- Where nothing was checked, no test process has a check. -/
theorem tally_unchecked (unchecked : .checked ∉ es) :
    (tally es).checks = 0 ∧ ∀ process ∈ (tally es).processes, process.checks = 0 := by
  induction es using List.reverseRecOn with
  | nil => exact ⟨rfl, List.forall_mem_nil _⟩
  | append_singleton es e ih =>
    obtain ⟨current, earlier⟩ := ih fun member => unchecked (List.mem_append_left _ member)
    have other : e ≠ .checked := fun same => unchecked (by simp [same])
    rw [tally_append]
    unfold Tally.after
    split
    · exact ⟨rfl, earlier⟩
    · exact absurd rfl other
    · refine ⟨current, fun process member => ?_⟩
      rcases List.mem_append.mp member with before | last
      · exact earlier process before
      · rw [List.mem_singleton.mp last]
        exact current
    · exact ⟨current, earlier⟩

/-- A call of a test function was checked if all test processes exited with zero. -/
theorem Finished.checked (finished : Finished t es) (function : assertTestFn t = none)
    (zeros : Ttype.tconf.code ∉ codes es) : .checked ∈ es := by
  have some : 0 < (tally es).processes.length := by
    rw [finished.count]
    exact variants_pos
  obtain ⟨process, member⟩ := List.exists_mem_of_length_pos some
  have zero : process.code = 0 := (finished.kinds process member).resolve_right fun conf =>
    zeros (conf ▸ List.mem_map_of_mem member)
  have called := finished.called process member zero
  have positive := Nat.mul_pos t.iterated (calls_pos function)
  by_contra unchecked
  rw [(tally_unchecked unchecked).2 process member] at called
  omega

/-- After the library has left, it waits for nothing. -/
theorem stopped_keeps (stopped : ¬ Running s.library) (stepped : step t s e = some n) :
    ¬ Running n.library ∧ e.turns = false := by
  refine ⟨fun running => stopped (running_before stepped running), ?_⟩
  rcases step_cases stepped with library | ⟨p, here, testrun⟩ | test
  · cases turns : e.turns with
    | false => rfl
    | true =>
      unfold Event.turns at turns
      split at turns
      · simp only [stepLibrary] at library
        split at library
        · next here =>
          rw [here] at stopped
          exact absurd trivial stopped
        · cases library
      · simp only [stepLibrary] at library
        split at library
        · next _ _ _ here _ =>
          rw [here] at stopped
          exact absurd trivial stopped
        · cases library
      · cases turns
  · exact (testrun_advance here testrun).choose_spec.2.turns
  · rcases test_cases (t := t) test with ⟨_, quiet, _⟩ | ⟨p, q, _, _, advance⟩
    · exact quiet
    · exact advance.turns

private theorem processes_stopped (stopped : ¬ Running s.library) (run : Run (harness t) s rest n) :
    (tally (past ++ rest)).processes = (tally past).processes := by
  have all : ¬ Running n.library ∧ (tally (past ++ rest)).processes = (tally past).processes := by
    refine run.history (fun es (s : Harness) =>
      ¬ Running s.library ∧ (tally es).processes = (tally past).processes) ?_ ⟨stopped, rfl⟩
    rintro es s e n ⟨stopped, same⟩ stepped
    obtain ⟨stopped, quiet⟩ := stopped_keeps stopped stepped
    exact ⟨stopped, (tally_quiet quiet).1.trans same⟩
  exact all.2

theorem Finished.stopped (finished : Finished t past) (stopped : ¬ Running s.library)
    (run : Run (harness t) s rest n) : Finished t (past ++ rest) := by
  obtain ⟨count, kinds, called⟩ := finished
  have same : (tally (past ++ rest)).processes = (tally past).processes := processes_stopped stopped run
  rw [← same] at count kinds called
  exact ⟨count, kinds, called⟩

/-- What a failure, or a skip without a pass, leaves in the status keeps it from being zero. -/
theorem status_ne_zero (counted : Counted past mid) (after : Run (harness t) mid rest s)
    (entry : mid.library = .leaving .passed ret) (counter : ttype.counter = some c) (noted : c ∈ recorded past)
    (shows : ttype.Shows (past ++ rest)) (short : (past ++ rest).length < 2 ^ 32)
    (exits : s.library = .exited status) : status ≠ 0 := by
  have shown : status &&& ttype.code ≠ 0 ∨ .giveUp ∈ past ++ rest ∧ status = Ttype.tfail.code := by
    refine status_after counted after (fun b c _ => ?_) counter noted shows short exits
    rw [entry]
    rintro ⟨⟩
  rintro rfl
  rcases shown with set | ⟨_, one⟩
  · exact set (Nat.zero_and _)
  · exact absurd one (by decide)

/-- A bit of the status that `do_exit` begins with. -/
theorem entry_ne_zero {b : ℕ} (small : b < 8) (unpassed : b = 5 → .passed ∉ recorded (past ++ rest))
    (set : ret.testBit b) (counted : Counted past mid) (after : Run (harness t) mid rest s)
    (entry : mid.library = .leaving .passed ret) (exits : s.library = .exited status) : status ≠ 0 := by
  have final : Shown b (fun _ => True) (past ++ rest) s.library := by
    refine shown_run small trivial (fun es s counted _ within look ret before _ => ?_) counted ?_ after
    · exact doExit_bit (fun fifth => passed_eq_zero counted within (unpassed fifth)) (before trivial)
    · rw [entry]
      exact fun _ => set
  rw [exits] at final
  rintro rfl
  rcases final with set | ⟨_, one⟩
  · rw [Nat.zero_testBit] at set
    cases set
  · exact absurd one (by decide)

private theorem zero_after {a b : Harness} (before : Run (harness t) begin past a) (here : Running a.library)
    (first : step t a e = some b) (there : ¬ Running b.library) (after : Run (harness t) b rest s)
    (exits : s.library = .exited 0) (unasked : .help ∉ past ++ [e] ++ rest) (honest : Honest past)
    (short : (past ++ [e] ++ rest).length < 2 ^ 32) :
    Finished t (past ++ [e] ++ rest) ∧ .passed ∈ recorded (past ++ [e] ++ rest) := by
  have counted : Counted (past ++ [e]) b := counted_keeps (counted_run before) first
  generalize entry : b.library = library
  have leaving := entry ▸ leaves (account_run before honest here) here first there
  cases leaving with
  | help asked => exact absurd (by simp [asked]) unasked
  | @fails status nonzero =>
    have kept : s.library = .exited status :=
      after.invariant (fun s : Harness => s.library = .exited status) exited_keeps entry
    rw [exits] at kept
    cases kept
    exact absurd rfl nonzero
  | broken records =>
    have noted : .broken ∈ recorded (past ++ [e]) := by simp [recorded_single, records]
    exact absurd rfl (status_ne_zero counted after entry rfl noted (.inr (.inl rfl)) short exits)
  | bad small other set =>
    exact absurd rfl (entry_ne_zero small (fun fifth => absurd fifth other) set counted after entry exits)
  | @done ret finished reported function gathered =>
    refine ⟨finished.stopped there after, ?_⟩
    by_contra unpassed
    by_cases skipped : Ttype.tconf.code ∈ codes (past ++ [e])
    · rw [if_pos skipped] at gathered
      have set : ret.testBit 5 := gathered ▸ by decide
      exact entry_ne_zero (by decide) (fun _ => unpassed) set counted after entry exits rfl
    · obtain ⟨c, compared, noted⟩ := reported (finished.checked function skipped)
      -- What was recorded instead of a pass shows in the status.
      have shows {ttype : Ttype} (counter : ttype.counter = some c) (kind : ttype.Shows (past ++ [e] ++ rest)) : False :=
        status_ne_zero counted after entry counter noted kind short exits rfl
      cases c with
      | passed => exact unpassed (recorded_grows (List.prefix_append _ _) noted)
      | failed => exact shows rfl (.inl rfl)
      | skipped => exact shows rfl (.inr (.inr (.inr ⟨rfl, unpassed⟩)))
      | broken => exact shows rfl (.inr (.inl rfl))
      | warnings => exact absurd compared (by decide)

end Yalibct.Ltp
