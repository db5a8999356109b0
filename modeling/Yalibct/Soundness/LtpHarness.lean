import Mathlib.Data.Nat.Bitwise
import Mathlib.Data.UInt
import Mathlib.Tactic.SplitIfs
import Yalibct.Model.LtpHarness

/-! # The exit status of the harness of the Linux Test Project

The counters count what the processes of a test record, in any interleaving. A failure, a breakage or a warning
that is recorded while a test process runs is in the exit status, and so is a skip if no test passes.
-/

namespace Yalibct.Ltp

open Machine

variable {t : TstTest} {s n mid : Harness} {e : Event} {es past rest : List Event} {c : Counter} {p : Testrun}
variable {who : Who} {ttype : Ttype} {status : ℕ}

/-! ## What a step records -/

/-- The counter that an event increments. -/
def Event.records : Event → Option Counter
  | .libBrk | .waitedKilled | .reapBad _ | .waitFails | .unreported | .runaway _ => some .broken
  | .report _ ttype | .brk _ ttype => ttype.counter
  | .cvres _ ttype => ttype.cvres.counter
  | _ => none

/-- The counters after an event. -/
def Results.after (results : Results) (counter : Option Counter) : Results :=
  match counter with
  | some counter => results.inc counter
  | none => results

@[simp] theorem record_results : (s.record ttype).results = s.results.after ttype.counter := by
  unfold Harness.record Results.after
  cases ttype.counter <;> rfl

@[simp] theorem record_library : (s.record ttype).library = s.library := by
  unfold Harness.record
  cases ttype.counter <;> rfl

@[simp] theorem record_testProcess : (s.record ttype).testProcess = s.testProcess := by
  unfold Harness.record
  cases ttype.counter <;> rfl

@[simp] theorem ends_results {how : Ending} : (s.ends who how).results = s.results := by
  cases who <;> rfl

@[simp] theorem ends_library {how : Ending} : (s.ends who how).library = s.library := by
  cases who <;> rfl

@[simp] theorem ends_child {how : Ending} {pid : ℕ} : (s.ends (some pid) how).testProcess = s.testProcess := rfl

@[simp] theorem tstVbrk_results : (s.tstVbrk who ttype).results = s.results.after ttype.counter := by
  cases who with
  | none => exact record_results
  | some pid => rw [Harness.tstVbrk, ends_results, record_results]

@[simp] theorem tstVbrk_library : (s.tstVbrk who ttype).library = s.library := by
  cases who with
  | none => exact record_library
  | some pid => rw [Harness.tstVbrk, ends_library, record_library]

@[simp] theorem tstVbrk_child {pid : ℕ} : (s.tstVbrk (some pid) ttype).testProcess = s.testProcess := by
  rw [Harness.tstVbrk, ends_child, record_testProcess]

/-- A step is one of the library, or one of the test process, or one of the functions of the test. -/
theorem step_cases (stepped : step t s e = some n) :
    stepLibrary t s e = some n ∨ (∃ p, s.testProcess = some p ∧ stepTestrun t s p e = some n) ∨ stepTest s e = some n := by
  unfold step at stepped
  split at stepped
  · next next library =>
    cases stepped
    exact .inl library
  · next idle =>
    split at stepped
    · next next testrun =>
      cases stepped
      obtain ⟨p, here, ran⟩ := Option.bind_eq_some_iff.mp testrun
      exact .inr (.inl ⟨p, here, ran⟩)
    · exact .inr (.inr stepped)

/-- The library records that it breaks off, and nothing else. -/
theorem library_results (stepped : stepLibrary t s e = some n) : n.results = s.results.after e.records := by
  cases e <;> simp only [stepLibrary, reduceCtorEq] at stepped
  case help | refuse | mapped =>
    split_ifs at stepped
    cases stepped
    rfl
  case libBrk =>
    split at stepped
    · cases stepped
      exact record_results
    · cases stepped
      exact record_results
    · cases stepped
  case spawn | giveUp =>
    split at stepped
    · cases stepped
      rfl
    · cases stepped
  case waited code =>
    split at stepped
    · split_ifs at stepped
      cases stepped
      rfl
    · cases stepped
  case waitedKilled =>
    split at stepped
    · cases stepped
      exact record_results
    · cases stepped
  case look =>
    split at stepped
    · cases stepped
      rfl
    · cases stepped
      rfl
    · cases stepped

/-- The test process records that it breaks off, and leaves the library where it is. -/
theorem testrun_effect (stepped : stepTestrun t s p e = some n) :
    n.results = s.results.after e.records ∧ n.library = s.library := by
  cases e <;> simp only [stepTestrun, reduceCtorEq] at stepped
  case setUp | save | returned =>
    split at stepped
    · cases stepped
      exact ⟨rfl, rfl⟩
    · cases stepped
  case round =>
    split at stepped
    · split at stepped
      · cases stepped
        exact ⟨rfl, rfl⟩
      · cases stepped
    · cases stepped
  case call | reap | childless | same | checked | finish =>
    split at stepped
    · split_ifs at stepped
      cases stepped
      exact ⟨rfl, rfl⟩
    · cases stepped
  case reapBad pid =>
    split at stepped
    · split_ifs at stepped
      cases stepped
      exact ⟨tstVbrk_results, tstVbrk_library⟩
    · cases stepped
  case waitFails | unreported =>
    split at stepped
    · cases stepped
      exact ⟨tstVbrk_results, tstVbrk_library⟩
    · cases stepped
  case cleanedUp =>
    split at stepped
    · cases stepped
      exact ⟨ends_results, ends_library⟩
    · cases stepped

/-- A process of the test records what it reports, and leaves the library where it is. -/
theorem test_effect (stepped : stepTest s e = some n) :
    n.results = s.results.after e.records ∧ n.library = s.library := by
  cases e <;> simp only [stepTest, reduceCtorEq] at stepped
  case report who ttype =>
    split_ifs at stepped
    cases stepped
    exact ⟨record_results, record_library⟩
  case brk who ttype =>
    split_ifs at stepped
    cases stepped
    exact ⟨tstVbrk_results, tstVbrk_library⟩
  case cvres who ttype =>
    split at stepped
    · split_ifs at stepped
      cases stepped
      exact ⟨record_results, record_library⟩
    · cases stepped
  case fork who pid =>
    split at stepped
    · split_ifs at stepped
      · cases stepped
        exact ⟨rfl, rfl⟩
      · cases stepped
        exact ⟨rfl, rfl⟩
    · cases stepped
  case collect pid =>
    split_ifs at stepped
    cases stepped
    exact ⟨rfl, rfl⟩
  case quit who code =>
    split_ifs at stepped
    cases stepped
    exact ⟨ends_results, ends_library⟩
  case killed who =>
    split at stepped
    · cases stepped
    · cases stepped
    · cases stepped
      exact ⟨ends_results, ends_library⟩
    · split_ifs at stepped
      cases stepped
      exact ⟨ends_results, ends_library⟩
  case runaway pid =>
    split_ifs at stepped
    cases stepped
    exact ⟨tstVbrk_results, tstVbrk_library⟩
  case childReturned pid =>
    split at stepped
    · cases stepped
      exact ⟨ends_results, ends_library⟩
    · cases stepped
      exact ⟨ends_results, ends_library⟩
    · cases stepped

private theorem step_results (stepped : step t s e = some n) : n.results = s.results.after e.records := by
  rcases step_cases stepped with library | ⟨p, _, testrun⟩ | test
  · exact library_results library
  · exact (testrun_effect testrun).1
  · exact (test_effect test).1

/-- The counters that were incremented, in order. -/
def recorded (es : List Event) : List Counter := es.filterMap Event.records

@[simp] theorem recorded_append : recorded (past ++ rest) = recorded past ++ recorded rest := List.filterMap_append

theorem recorded_single : recorded [e] = e.records.toList := by
  rw [recorded, List.filterMap_cons, List.filterMap_nil]
  cases e.records <;> rfl

/-- Nothing that is recorded is lost. -/
def Counted (es : List Event) (s : Harness) : Prop := ∀ c, s.results c = UInt32.ofNat ((recorded es).count c)

theorem counted_keeps (counted : Counted es s) (stepped : step t s e = some n) : Counted (es ++ [e]) n := by
  intro c
  rw [step_results stepped, recorded_append, recorded_single, List.count_append]
  cases records : e.records with
  | none =>
    change s.results c = _
    simpa using counted c
  | some counter =>
    change (if c = counter then s.results c + 1 else s.results c) = _
    rw [counted c]
    by_cases same : c = counter
    · subst same
      simp [UInt32.ofNat_add]
    · simp [same, List.count_eq_zero.mpr]

theorem counted_run (run : Run (harness t) begin es s) : Counted es s := by
  have initial : Counted [] begin := fun _ => rfl
  exact run.history Counted counted_keeps initial

/-- A counter that does not wrap is zero only if nothing was recorded. -/
theorem results_ne_zero (counted : Counted es s) (short : es.length < 2 ^ 32) (member : c ∈ recorded es) :
    s.results c ≠ 0 := by
  have positive : 0 < (recorded es).count c := List.count_pos_iff.mpr member
  have bound : (recorded es).count c ≤ es.length := by
    calc (recorded es).count c ≤ (recorded es).length := List.count_le_length
      _ ≤ es.length := List.length_filterMap_le _ _
  intro zero
  have same := congrArg UInt32.toNat ((counted c).symm.trans zero)
  rw [UInt32.toNat_zero, UInt32.toNat_ofNat', Nat.mod_eq_of_lt (by omega)] at same
  omega

private theorem mem_recorded (counted : Counted es s) (nonzero : s.results c ≠ 0) : c ∈ recorded es := by
  by_contra missing
  exact nonzero (by rw [counted c, List.count_eq_zero.mpr missing]; rfl)

/-! ## What the library shows -/

/-- Only the steps of the library change where it is. -/
theorem step_library (stepped : step t s e = some n) : stepLibrary t s e = some n ∨ n.library = s.library := by
  rcases step_cases stepped with library | ⟨p, _, testrun⟩ | test
  · exact .inl library
  · exact .inr (testrun_effect testrun).2
  · exact .inr (test_effect test).2

/-- The bit that a counter sets in the exit status. -/
def Counter.bit : Counter → Option ℕ
  | .failed => some 0
  | .broken => some 1
  | .warnings => some 2
  | .skipped => some 5
  | .passed => none

/-- The counters whose bits are in the status once `do_exit` has come this far. -/
def Look.read : Look → List Counter
  | .passed | .failed => []
  | .skipped | .passedAgain => [.failed]
  | .warnings => [.failed, .skipped]
  | .broken => [.failed, .skipped, .warnings]
  | .last => [.failed, .skipped, .warnings, .broken]

variable {b ret : ℕ} {look : Look} {results : Results}

private theorem testBit_set (ret : ℕ) {code : ℕ} (set : code.testBit b) : (ret ||| code).testBit b := by
  rw [Nat.testBit_or, set, Bool.or_true]

private theorem testBit_kept (code : ℕ) (set : ret.testBit b) : (ret ||| code).testBit b := by
  rw [Nat.testBit_or, set, Bool.true_or]

/-- A bit stays in the status, unless it is the only one and a test has passed. -/
theorem doExit_bit (unpassed : b = 5 → results .passed = 0) (set : ret.testBit b) :
    (doExit results look ret).2.testBit b := by
  cases look with
  | passed =>
    rw [doExit]
    split_ifs with cleared
    · obtain ⟨passed, rfl⟩ := cleared
      by_cases fifth : b = 5
      · exact absurd (unpassed fifth) passed
      · rw [show Ttype.tconf.code = 2 ^ 5 from rfl, Nat.testBit_two_pow_of_ne (Ne.symm fifth)] at set
        cases set
    · exact set
  | failed | passedAgain | warnings | broken =>
    rw [doExit]
    split_ifs
    · exact testBit_kept _ set
    · exact set
  | skipped | last => exact set

private theorem newly_read {d : Counter} {cs : List Counter} (already : c ∉ cs) (member : c ∈ cs ++ [d]) : c = d := by
  rcases List.mem_append.mp member with before | last
  · exact absurd before already
  · exact List.mem_singleton.mp last

/-- A counter that is read sets its bit. -/
theorem doExit_reads (bit : c.bit = some b) (nonzero : results c ≠ 0) (unpassed : b = 5 → results .passed = 0)
    (before : c ∈ look.read → ret.testBit b) (member : c ∈ (doExit results look ret).1.read) :
    (doExit results look ret).2.testBit b := by
  by_cases already : c ∈ look.read
  · exact doExit_bit unpassed (before already)
  cases look with
  | passed => cases member
  | failed =>
    cases List.mem_singleton.mp member
    cases bit
    rw [doExit, if_pos nonzero]
    exact testBit_set ret (by decide)
  | skipped =>
    simp only [doExit] at member
    split_ifs at member with zero
    · exact absurd member already
    · have skipped : c = .skipped := newly_read already member
      rw [skipped] at nonzero
      exact absurd nonzero zero
  | passedAgain =>
    have skipped : c = .skipped := newly_read already member
    subst skipped
    cases bit
    rw [doExit, if_pos (unpassed rfl)]
    exact testBit_set ret (by decide)
  | warnings =>
    have warnings : c = .warnings := newly_read already member
    subst warnings
    cases bit
    rw [doExit, if_pos nonzero]
    exact testBit_set ret (by decide)
  | broken =>
    have broken : c = .broken := newly_read already member
    subst broken
    cases bit
    rw [doExit, if_pos nonzero]
    exact testBit_set ret (by decide)
  | last => exact absurd member already

/-- From some look of `do_exit` on, a bit is in what becomes the exit status. -/
def Shown (b : ℕ) (shows : Look → Prop) (es : List Event) : Library → Prop
  | .starting => False
  | .forking _ _ | .waiting _ _ => ¬ shows .passed
  | .leaving look ret => shows look → ret.testBit b
  | .exited status => status.testBit b ∨ .giveUp ∈ es ∧ status = Ttype.tfail.code

theorem Shown.mono {shows : Look → Prop} {library : Library} (shown : Shown b shows es library) :
    Shown b shows (es ++ [e]) library := by
  cases library with
  | starting | forking _ _ | waiting _ _ | leaving _ _ => exact shown
  | exited status =>
    rcases shown with set | ⟨gave, one⟩
    · exact .inl set
    · exact .inr ⟨List.mem_append_left _ gave, one⟩

private theorem shown_nextVariant {shows : Look → Prop} {variant : ℕ} (unseen : ¬ shows .passed) :
    Shown b shows es (nextVariant t variant ret) := by
  unfold nextVariant
  split_ifs
  · exact fun seen => absurd seen unseen
  · exact unseen
  · exact fun seen => absurd seen unseen

/-- What `do_exit` keeps, every step keeps. -/
theorem shown_keeps {shows : Look → Prop} (small : b < 8) (last : shows .last)
    (exits : ∀ look ret, (shows look → ret.testBit b) → shows (doExit s.results look ret).1 →
      (doExit s.results look ret).2.testBit b)
    (shown : Shown b shows es s.library) (stepped : step t s e = some n) : Shown b shows (es ++ [e]) n.library := by
  rcases step_library stepped with library | same
  · cases e <;> simp only [stepLibrary, reduceCtorEq] at library
    case help | refuse | mapped =>
      split_ifs at library with starting
      first | rw [starting] at shown | rw [starting.1] at shown
      exact shown.elim
    case libBrk =>
      split at library
      · next here =>
        cases library
        rw [here] at shown
        exact fun seen => absurd seen shown
      · next here =>
        cases library
        rw [here] at shown
        exact fun seen => absurd seen shown
      · cases library
    case spawn =>
      split at library
      · next here =>
        cases library
        rw [here] at shown
        exact shown
      · cases library
    case waited code =>
      split at library
      · next here _ =>
        split_ifs at library
        cases library
        rw [here] at shown
        exact shown_nextVariant shown
      · cases library
    case waitedKilled =>
      split at library
      · next here _ =>
        cases library
        rw [here] at shown
        exact fun seen => absurd seen shown
      · cases library
    case giveUp =>
      split at library <;> cases library
      exact .inr ⟨by simp, rfl⟩
    case look =>
      split at library
      · next ret here =>
        cases library
        rw [here] at shown
        left
        rw [show 256 = 2 ^ 8 from rfl, Nat.testBit_mod_two_pow, shown last]
        simpa using small
      · next look ret _ here =>
        cases library
        rw [here] at shown
        exact exits look ret shown
      · cases library
  · rw [same]
    exact shown.mono

/-- While a bit is in the status, it stays there if it is not cleared for a test that passed. -/
theorem shown_run {shows : Look → Prop} (small : b < 8) (last : shows .last)
    (exits : ∀ (es : List Event) (s : Harness), Counted es s → past <+: es → es <+: past ++ rest → ∀ look ret,
      (shows look → ret.testBit b) → shows (doExit s.results look ret).1 → (doExit s.results look ret).2.testBit b)
    (counted : Counted past mid) (shown : Shown b shows past mid.library) (run : Run (harness t) mid rest s) :
    Shown b shows (past ++ rest) s.library := by
  have all : Counted (past ++ rest) s ∧ past <+: past ++ rest ∧
      (past ++ rest <+: past ++ rest → Shown b shows (past ++ rest) s.library) := by
    refine run.history (fun es (s : Harness) => Counted es s ∧ past <+: es ∧
      (es <+: past ++ rest → Shown b shows es s.library)) ?_ ⟨counted, List.prefix_rfl, fun _ => shown⟩
    rintro es s e n ⟨counted, before, shown⟩ stepped
    refine ⟨counted_keeps counted stepped, before.trans (List.prefix_append _ _), fun within => ?_⟩
    have within := (List.prefix_append es [e]).trans within
    exact shown_keeps small last (exits es s counted before within) (shown within) stepped
  exact all.2.2 List.prefix_rfl

/-- The types of results that the exit status shows. -/
def Ttype.Shows (whole : List Event) (ttype : Ttype) : Prop :=
  ttype = .tfail ∨ ttype = .tbrok ∨ ttype = .twarn ∨ ttype = .tconf ∧ .passed ∉ recorded whole

theorem Ttype.Shows.bit {whole : List Event} (shows : ttype.Shows whole) :
    ∃ c b, ttype.counter = some c ∧ c.bit = some b ∧ ttype.code = 2 ^ b ∧ b < 8 ∧ c ∈ Look.last.read ∧
      (b = 5 → .passed ∉ recorded whole) := by
  rcases shows with rfl | rfl | rfl | ⟨rfl, unpassed⟩
  · exact ⟨.failed, 0, rfl, rfl, rfl, by decide, by decide, fun fifth => absurd fifth (by decide)⟩
  · exact ⟨.broken, 1, rfl, rfl, rfl, by decide, by decide, fun fifth => absurd fifth (by decide)⟩
  · exact ⟨.warnings, 2, rfl, rfl, rfl, by decide, by decide, fun fifth => absurd fifth (by decide)⟩
  · exact ⟨.skipped, 5, rfl, rfl, rfl, by decide, by decide, fun _ => unpassed⟩

theorem recorded_grows (within : past <+: rest) (member : c ∈ recorded past) : c ∈ recorded rest :=
  (within.sublist.filterMap Event.records).subset member

theorem passed_eq_zero (counted : Counted es s) (within : es <+: rest) (unpassed : .passed ∉ recorded rest) :
    s.results .passed = 0 := by
  by_contra passed
  exact unpassed (recorded_grows within (mem_recorded counted passed))

/-- What is recorded before `do_exit` reads it is in the exit status. -/
theorem status_after (counted : Counted past mid) (after : Run (harness t) mid rest s)
    (unread : ∀ b c, c.bit = some b → Shown b (c ∈ Look.read ·) past mid.library) (counter : ttype.counter = some c)
    (noted : c ∈ recorded past) (shows : ttype.Shows (past ++ rest)) (short : (past ++ rest).length < 2 ^ 32)
    (exits : s.library = .exited status) :
    status &&& ttype.code ≠ 0 ∨ .giveUp ∈ past ++ rest ∧ status = Ttype.tfail.code := by
  obtain ⟨c', b, counter', bit, code, small, last, unpassed⟩ := shows.bit
  cases counter.symm.trans counter'
  have final : Shown b (c ∈ Look.read ·) (past ++ rest) s.library := by
    refine shown_run small last (fun es s counted since within look ret => ?_) counted (unread b c bit) after
    have nonzero := results_ne_zero counted (within.length_le.trans_lt short) (recorded_grows since noted)
    exact doExit_reads bit nonzero fun fifth => passed_eq_zero counted within (unpassed fifth)
  rw [exits] at final
  refine final.imp_left fun set => ?_
  rw [code, Nat.and_two_pow, set]
  exact Nat.mul_ne_zero (by decide) (Nat.two_pow_pos b).ne'

/-- What is recorded while the library waits for a test process is in the exit status. -/
theorem status_shows (before : Run (harness t) begin past mid) (after : Run (harness t) mid rest s) {variant : ℕ}
    (running : mid.library = .waiting variant ret) (event : e ∈ past) (records : e.records = ttype.counter)
    (shows : ttype.Shows (past ++ rest)) (short : (past ++ rest).length < 2 ^ 32) (exits : s.library = .exited status) :
    status &&& ttype.code ≠ 0 ∨ .giveUp ∈ past ++ rest ∧ status = Ttype.tfail.code := by
  obtain ⟨c, _, counter, _⟩ := shows.bit
  refine status_after (counted_run before) after (fun b c _ => ?_) counter
    (List.mem_filterMap.mpr ⟨e, event, records.trans counter⟩) shows short exits
  rw [running]
  rintro ⟨⟩

/-- One test function, called once. -/
def single : TstTest where
  test := false
  testAll := true
  tcnt := 0
  testVariants := 0
  iterations := 1
  iterated := Nat.one_pos
  timed := false

/-- A child of the test process records a result and exits. -/
def childReports (ttype : Ttype) : List Event :=
  [.mapped, .spawn, .setUp, .round] ++ Counter.all.map .save ++ [.call, .fork none 7, .report (some 7) ttype]

/-- The test process waits for the child, and the library for the test process; so many counters are the same. -/
def reaped (same : ℕ) : List Event :=
  [.childReturned 7, .returned, .reap 7, .childless] ++ List.replicate same .same ++
    [.checked, .finish, .cleanedUp, .waited 0] ++ List.replicate 6 .look

theorem status_shows_childFails : ∃ mid s : Harness, Run (harness single) begin (childReports .tfail) mid ∧
    Run (harness single) mid (reaped 1) s ∧ ∃ status, s.library = .exited status ∧ status &&& Ttype.tfail.code ≠ 0 := by
  have ran : ((childReports .tfail).foldlM (step single) begin).map Harness.library = some (.waiting 0 0) := by
    decide +kernel
  have ended : ((childReports .tfail ++ reaped 1).foldlM (step single) begin).map Harness.library = some (.exited 1) := by
    decide +kernel
  obtain ⟨s, computed, exits⟩ := Option.map_eq_some_iff.mp ended
  rw [List.foldlM_append] at computed
  obtain ⟨mid, before, after⟩ := Option.bind_eq_some_iff.mp computed
  rw [before] at ran
  have before := Run.of_foldlM before
  have after := Run.of_foldlM after
  refine ⟨mid, s, before, after, 1, exits, ?_⟩
  exact (status_shows (e := .report (some 7) .tfail) before after (Option.some.inj ran) (by decide) rfl (.inl rfl)
    (by decide) exits).resolve_right fun gave => absurd gave.1 (by decide)

end Yalibct.Ltp
