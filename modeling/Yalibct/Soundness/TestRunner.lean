import Yalibct.Model.TestRunner
import Mathlib.Data.List.Infix

/-! # What the verdict of the test runner says about the commands

The results file is always the lines of the finished jobs, in the order they finished, and a line
matches the patterns of the final tally exactly when its job took the failure branch. So the
verdict counts the commands whose pipeline status is nonzero. That misses one kind of failed
command: exit status zero with an output in which `grep .` selects nothing.
-/

namespace Yalibct.TestRunner

open Machine Shell

private theorem evalStatus_eq_zero_iff (grep : Grep) (c : Command) :
    evalStatus grep c = 0 ↔ c.status = 0 ∧ grep.dot c.output = false := by
  have status : c.status.val = 0 ↔ c.status = 0 := Fin.val_eq_zero_iff
  cases selected : grep.dot c.output <;>
    simp [evalStatus, pipefail, bang, Grep.status, selected, status]

private theorem evalStatus_lt (grep : Grep) (c : Command) : evalStatus grep c < 256 := by
  have bound := c.status.isLt
  simp only [evalStatus, pipefail, bang, Grep.status, List.foldl_cons, List.foldl_nil]
  split_ifs <;> omega

/-- A command whose pipeline fails has failed. -/
theorem Command.failed_of_evalStatus {grep : Grep} {c : Command} (nonzero : evalStatus grep c ≠ 0) :
    c.Failed := by
  by_contra passed
  obtain ⟨status, output⟩ := not_or.mp passed
  refine nonzero ((evalStatus_eq_zero_iff grep c).mpr ⟨not_not.mp status, ?_⟩)
  rw [not_not.mp output]
  exact grep.dot_blank [] (fun byte member => absurd member List.not_mem_nil)

section Lines

/-- The pattern selects the lines `Test … failed with status …` whose end the tail accepts. -/
theorem matchesFailed_iff (tail : Text → Bool) (line : Text) :
    matchesFailed tail line = true ↔
      ∃ name rest, line = testMarker ++ name ++ failedMarker ++ rest ∧ tail rest = true := by
  simp only [matchesFailed, Bool.and_eq_true, List.isPrefixOf_iff_prefix, List.any_eq_true,
    List.mem_tails]
  constructor
  · rintro ⟨⟨body, rfl⟩, found, ⟨name, split⟩, ⟨rest, rfl⟩, accepted⟩
    have body_eq : body = name ++ (failedMarker ++ rest) := split.symm
    refine ⟨name, rest, by simp only [body_eq, List.append_assoc], ?_⟩
    simpa only [List.drop_left] using accepted
  · rintro ⟨name, rest, rfl, accepted⟩
    refine ⟨⟨name ++ failedMarker ++ rest, by simp only [List.append_assoc]⟩,
      failedMarker ++ rest, ⟨name, ?_⟩, ⟨rest, rfl⟩, by simpa only [List.drop_left] using accepted⟩
    simp only [List.append_assoc, List.drop_left]

private theorem failedMarker_reverse :
    ∃ init, failedMarker.reverse = ' ' :: init := ⟨_, rfl⟩

private theorem succeededLine_reverse (name : Text) :
    ∃ init, (succeededLine name).reverse = 'd' :: 'e' :: 'd' :: 'e' :: init := by
  obtain ⟨init, letters⟩ : ∃ init, succeededClosing.reverse = 'd' :: 'e' :: 'd' :: 'e' :: init := ⟨_, rfl⟩
  refine ⟨init ++ (name.reverse ++ opening.reverse), ?_⟩
  simp only [succeededLine, List.reverse_append, letters, List.cons_append]

/-- A success line ends in four letters, so no marker with at most three characters after it,
and no digit, can end it. -/
theorem matchesFailed_succeededLine (tail : Text → Bool) (name : Text)
    (short : ∀ rest, tail rest = true → rest.length ≤ 3 ∨ ∃ c ∈ rest.getLast?, c.isDigit = true) :
    matchesFailed tail (succeededLine name) = false := by
  by_contra selected
  obtain ⟨start, rest, split, accepted⟩ :=
    (matchesFailed_iff tail _).mp (Bool.not_eq_false _ ▸ selected)
  obtain ⟨init, letters⟩ := succeededLine_reverse name
  obtain ⟨marker, space⟩ := failedMarker_reverse
  rw [split, List.reverse_append, List.reverse_append, space] at letters
  rcases short rest accepted with bound | ⟨c, last, digit⟩
  · rw [← List.length_reverse] at bound
    match reversed : rest.reverse with
    | [] => simp [reversed] at letters
    | [_] => simp [reversed] at letters
    | [_, _] => simp [reversed] at letters
    | [_, _, _] => simp [reversed] at letters
    | _ :: _ :: _ :: _ :: _ =>
      simp only [reversed, List.length_cons] at bound
      omega
  · rw [← List.head?_reverse] at last
    match reversed : rest.reverse with
    | [] => simp [reversed] at last
    | first :: others =>
      simp only [reversed, List.head?_cons, Option.mem_def, Option.some.injEq] at last
      simp only [reversed, List.cons_append, List.cons.injEq] at letters
      rw [← last, letters.1] at digit
      exact absurd digit (by decide)

private theorem upToThree_short (rest : Text) (accepted : upToThree rest = true) :
    rest.length ≤ 3 ∨ ∃ c ∈ rest.getLast?, c.isDigit = true :=
  .inl (of_decide_eq_true accepted)

private theorem digits_short (rest : Text) (accepted : digits rest = true) :
    rest.length ≤ 3 ∨ ∃ c ∈ rest.getLast?, c.isDigit = true := by
  simp only [digits, Bool.and_eq_true, Bool.not_eq_true', List.isEmpty_eq_false_iff,
    List.all_eq_true] at accepted
  exact .inr ⟨rest.getLast accepted.1, List.getLast?_eq_some_getLast accepted.1,
    accepted.2 _ (List.getLast_mem accepted.1)⟩

private theorem matchesFailed_failedLine (tail : Text → Bool) (name : Text) (status : ℕ)
    (accepted : tail (decimal status) = true) :
    matchesFailed tail (failedLine name status) = true := by
  refine (matchesFailed_iff tail _).mpr ⟨'\'' :: name ++ ['\''], decimal status, ?_, accepted⟩
  have first : opening = testMarker ++ ['\''] := by decide
  have last : failedClosing = '\'' :: failedMarker := by decide
  simp only [failedLine, first, last, List.append_assoc, List.cons_append, List.nil_append]

/-- Both patterns of the tally select a job's line exactly when its pipeline failed. -/
theorem matchesFailed_runOneTest (grep : Grep) (c : Command) (tail : Text → Bool)
    (short : ∀ rest, tail rest = true → rest.length ≤ 3 ∨ ∃ c ∈ rest.getLast?, c.isDigit = true)
    (status : ∀ n < 256, tail (decimal n) = true) :
    matchesFailed tail (runOneTest grep c) = decide (evalStatus grep c ≠ 0) := by
  unfold runOneTest
  split_ifs with passed
  · simp [passed, matchesFailed_succeededLine tail _ short]
  · simp only [ne_eq, passed, not_false_eq_true, decide_true]
    exact matchesFailed_failedLine tail _ _ (status _ (evalStatus_lt grep c))

private theorem upToThree_decimal (n : ℕ) (bound : n < 256) : upToThree (decimal n) = true :=
  decide_eq_true (decimal_status bound).2.1

private theorem digits_decimal (n : ℕ) (bound : n < 256) : digits (decimal n) = true := by
  simp [digits, (decimal_status bound).1, (decimal_status bound).2.2]

private theorem runOneTest_oneLine (grep : Grep) (c : Command) : '\n' ∉ runOneTest grep c := by
  have digits : '\n' ∉ decimal (evalStatus grep c) := by
    intro member
    have all := List.all_eq_true.mp (decimal_status (evalStatus_lt grep c)).2.2 _ member
    exact absurd all (by decide)
  have first : '\n' ∉ opening := by decide
  have succeeded : '\n' ∉ succeededClosing := by decide
  have failed : '\n' ∉ failedClosing := by decide
  unfold runOneTest
  split_ifs <;> simp only [succeededLine, failedLine, List.mem_append, not_or]
  · exact ⟨⟨first, c.oneLine⟩, succeeded⟩
  · exact ⟨⟨⟨first, c.oneLine⟩, failed⟩, digits⟩

end Lines

/-- The results file holds the lines of the jobs that are over, in the order they ended; these,
the running jobs and the commands still to start are the commands of the script. -/
def Accounts (grep : Grep) (commands : List Command) (s : State) : Prop :=
  ∃ ended : List Command, s.results = unlines (ended.map (runOneTest grep)) ∧
    (ended ++ (s.jobs ++ s.todo)).Perm commands

theorem Accounts.start (grep : Grep) (commands : List Command) :
    Accounts grep commands (.start commands) := ⟨[], rfl, .refl _⟩

theorem Accounts.step {grep : Grep} {processors : ℕ} {commands : List Command} {s t : State}
    {e : Event} (accounts : Accounts grep commands s) (step : Step grep processors s e t) :
    Accounts grep commands t := by
  obtain ⟨ended, file, perm⟩ := accounts
  cases step with
  | launch _ => exact ⟨ended, file, by simpa using perm⟩
  | @finish c todo before after results =>
    refine ⟨ended ++ [c], ?_, ?_⟩
    · change results ++ _ = _
      rw [show results = unlines (ended.map (runOneTest grep)) from file]
      simp [unlines_append]
    · refine List.Perm.trans ?_ perm
      simp only [List.append_assoc, List.cons_append, List.nil_append, List.perm_append_left_iff]
      exact List.perm_middle.symm

/-- When the final `wait` returns, the file holds one line per command, in some order. -/
theorem results_of_finished {grep : Grep} {processors : ℕ} {commands : List Command} {s : State}
    {events : List Event} (run : Run (runner grep processors) (.start commands) events s)
    (finished : s.Finished) :
    ∃ ended : List Command, ended.Perm commands ∧ s.results = unlines (ended.map (runOneTest grep)) := by
  obtain ⟨ended, file, perm⟩ :=
    run.invariant (Accounts grep commands) (fun inv step => inv.step step) (.start grep commands)
  refine ⟨ended, ?_, file⟩
  simpa only [finished.1, finished.2, List.append_nil] using perm

/-- The tally counts failing pipelines. -/
theorem tally_unlines (grep : Grep) (ended : List Command) :
    let v := tally (unlines (ended.map (runOneTest grep)))
    (v.exitStatus = 1 ↔ ∃ c ∈ ended, evalStatus grep c ≠ 0) ∧
    v.failed = ended.countP (fun c => decide (evalStatus grep c ≠ 0)) ∧
    v.total = ended.length := by
  have oneLine : ∀ entry ∈ ended.map (runOneTest grep), '\n' ∉ entry := by
    intro entry member
    obtain ⟨c, _, rfl⟩ := List.mem_map.mp member
    exact runOneTest_oneLine grep c
  have three := fun c => matchesFailed_runOneTest grep c upToThree upToThree_short upToThree_decimal
  have numeric := fun c => matchesFailed_runOneTest grep c digits digits_short digits_decimal
  simp only [tally, lines_unlines oneLine, wcLines_unlines oneLine]
  refine ⟨?_, ?_, List.length_map _⟩
  · simp [List.any_map, Function.comp_def, numeric]
  · rw [← List.countP_eq_length_filter, List.countP_map]
    exact List.countP_congr (fun c _ => by simp [three])

/-- Equal counts of a predicate and of a stronger one leave no element between the two. -/
private theorem of_countP_eq {α : Type} {p q : α → Bool} {items : List α}
    (stronger : ∀ a ∈ items, q a = true → p a = true) (equal : items.countP p = items.countP q) :
    ∀ a ∈ items, p a = true → q a = true := by
  have both : items.countP p = items.countP (fun a => p a && q a) := by
    rw [equal]
    exact List.countP_congr (fun a member => by
      simpa using stronger a member)
  intro a member holds
  by_contra fails
  have strict : items.countP (fun a => p a && q a) < items.countP p := by
    have split := List.countP_eq_countP_filter_add items p q
    have inside : items.countP (fun a => p a && q a) = (items.filter q).countP p := by
      rw [List.countP_filter]
    have outside : 0 < (items.filter (fun a => !q a)).countP p := by
      apply List.countP_pos_iff.mpr
      exact ⟨a, List.mem_filter.mpr ⟨member, by simpa using fails⟩, holds⟩
    omega
  omega

/-- Counting the commands with a failing pipeline instead of the failed ones goes wrong only for a
command of status zero whose output `grep .` reads past. -/
theorem reports_unlines_iff (grep : Grep) {commands ended : List Command} (perm : ended.Perm commands) :
    Reports commands (tally (unlines (ended.map (runOneTest grep)))) ↔
      ∀ c ∈ commands, c.status = 0 → c.output ≠ [] → grep.dot c.output = true := by
  obtain ⟨exitStatus, failed, total⟩ := tally_unlines grep ended
  have stronger : ∀ c ∈ commands, decide (evalStatus grep c ≠ 0) = true →
      decide c.Failed = true := fun c _ nonzero =>
    decide_eq_true (Command.failed_of_evalStatus (of_decide_eq_true nonzero))
  rw [Reports, exitStatus, failed, total, perm.countP_eq, perm.length_eq]
  simp only [perm.mem_iff]
  constructor
  · rintro ⟨-, counts, -⟩ c member status output
    have missed := of_countP_eq stronger counts.symm c member (decide_eq_true (.inr output))
    by_contra blank
    exact of_decide_eq_true missed
      ((evalStatus_eq_zero_iff grep c).mpr ⟨status, Bool.eq_false_iff.mpr blank⟩)
  · intro selected
    have detected : ∀ c ∈ commands, evalStatus grep c ≠ 0 ↔ c.Failed := by
      intro c member
      refine ⟨Command.failed_of_evalStatus, fun failure passed => ?_⟩
      obtain ⟨status, blank⟩ := (evalStatus_eq_zero_iff grep c).mp passed
      rcases failure with nonzero | output
      · exact nonzero status
      · exact absurd (selected c member status output) (by simp [blank])
    refine ⟨?_, List.countP_congr (fun c member => by simp [detected c member]), trivial⟩
    exact exists_congr (fun c => and_congr_right (detected c))

/-- The only running job finishes. -/
theorem Step.finishOnly {grep : Grep} {processors : ℕ} {c : Command} {todo : List Command}
    {results : Text} : Step grep processors ⟨todo, [c], results⟩ (.finish c)
      ⟨todo, [], results ++ (runOneTest grep c ++ ['\n'])⟩ :=
  @Step.finish grep processors c todo [] [] results

/-- Every list of commands has a run to the final `wait`, whatever the processor count. -/
theorem exists_finished_run (grep : Grep) (processors : ℕ) (commands : List Command) :
    ∃ events s, Run (runner grep processors) (.start commands) events s ∧ s.Finished := by
  suffices forAnyFile : ∀ results, ∃ events s,
      Run (runner grep processors) ⟨commands, [], results⟩ events s ∧ s.Finished from forAnyFile []
  induction commands with
  | nil => exact fun results => ⟨[], _, .done _, rfl, rfl⟩
  | cons c rest ih =>
    intro results
    obtain ⟨events, s, run, finished⟩ := ih (results ++ (runOneTest grep c ++ ['\n']))
    exact ⟨_, s, .step (.launch (Nat.zero_le _)) (.step .finishOnly run),
      finished⟩

/-- The script's verdict reports the failed commands exactly when `grep .` selects a line in the
output of every command that exits with status zero and prints something. -/
theorem tally_reports_iff (grep : Grep) (processors : ℕ) (commands : List Command) {s : State}
    {events : List Event} (run : Run (runner grep processors) (.start commands) events s)
    (finished : s.Finished) :
    Reports commands (tally s.results) ↔
      ∀ c ∈ commands, c.status = 0 → c.output ≠ [] → grep.dot c.output = true := by
  obtain ⟨ended, perm, file⟩ := results_of_finished run finished
  rw [file]
  exact reports_unlines_iff grep perm

/-- Two jobs run at once, and the first one is the last to finish. -/
theorem threeCommands_run : ∃ events s, Run (runner .posix 1) (.start threeCommands) events s ∧ s.Finished :=
  ⟨_, _, .step (.launch (by decide)) (.step (.launch (by decide))
    (.step (@Step.finish .posix 1 _ _ [⟨"printf hi".toList, 0, [104, 105], by decide⟩] [] _) (.step (.launch (by decide))
    (.step (@Step.finish .posix 1 _ _ [⟨"printf hi".toList, 0, [104, 105], by decide⟩] [] _)
    (.step .finishOnly (.done _)))))), rfl, rfl⟩

/-- Their failures are reported. -/
theorem tally_reports_three : ∃ events s, Run (runner .posix 1) (.start threeCommands) events s ∧ s.Finished ∧
    Reports threeCommands (tally s.results) := by
  obtain ⟨events, s, run, finished⟩ := threeCommands_run
  exact ⟨events, s, run, finished, (tally_reports_iff .posix 1 threeCommands run finished).mpr (by decide)⟩

/-- The empty line is output, so `echo` failed, but the script counts no failure. -/
theorem echo_unreported :
    ¬ ∀ events s, Run (runner .posix 1) (.start [echo]) events s → s.Finished →
      Reports [echo] (tally s.results) := by
  intro reported
  have report := reported _ _
    (.step (.launch (by decide)) (.step .finishOnly (.done _))) ⟨rfl, rfl⟩
  have verdict : (tally ([] ++ (runOneTest .posix echo ++ ['\n']))).exitStatus = 0 := by decide
  exact absurd (report.1.mpr ⟨echo, List.mem_singleton_self _, by decide⟩) (by rw [verdict]; decide)

end Yalibct.TestRunner
