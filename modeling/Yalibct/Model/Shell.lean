import Mathlib.Data.List.Basic
import Mathlib.Data.List.Count
import Mathlib.Data.List.Perm.Basic
import Mathlib.Tactic.SplitIfs

/-! # The shell and the text tools that the test runner is written in

Exit statuses are natural numbers and zero is success. A text file is its characters; `lines`
reads it the way `grep` does, `wcLines` counts it the way `wc -l` does, and the two agree on the
files that the runner builds, where every line is terminated.
-/

namespace Yalibct.Shell

abbrev Text := List Char

/-- Under `set -o pipefail` a pipeline has the status of its last failing member. -/
def pipefail (statuses : List ℕ) : ℕ :=
  statuses.foldl (fun last status => if status = 0 then last else status) 0

/-- The `!` in front of a command. -/
def bang (status : ℕ) : ℕ := if status = 0 then 1 else 0

/-- The lines of a file, an unterminated last one included. -/
def lines : Text → List Text
  | [] => []
  | c :: rest =>
    if c = '\n' then [] :: lines rest
    else
      match lines rest with
      | [] => [[c]]
      | first :: others => (c :: first) :: others

/-- `wc -l` counts newline characters. -/
def wcLines (file : Text) : ℕ := file.count '\n'

/-- `printf '%s\n'` of each line in turn. -/
def unlines (entries : List Text) : Text := entries.flatMap (· ++ ['\n'])

@[simp] theorem unlines_nil : unlines [] = [] := rfl

@[simp] theorem unlines_cons (entry : Text) (rest : List Text) :
    unlines (entry :: rest) = entry ++ '\n' :: unlines rest := by
  simp [unlines]

theorem unlines_append (first second : List Text) :
    unlines (first ++ second) = unlines first ++ unlines second :=
  List.flatMap_append ..

private theorem lines_append_newline {entry : Text} (oneLine : '\n' ∉ entry) (rest : Text) :
    lines (entry ++ '\n' :: rest) = entry :: lines rest := by
  induction entry with
  | nil => simp [lines]
  | cons c entry ih =>
    have different : c ≠ '\n' := fun same => oneLine (same ▸ List.mem_cons_self ..)
    have tail := ih (fun member => oneLine (List.mem_cons_of_mem _ member))
    simp only [List.cons_append, lines, different, ↓reduceIte, tail]

/-- Terminated lines are read back as they were written. -/
theorem lines_unlines {entries : List Text} (oneLine : ∀ entry ∈ entries, '\n' ∉ entry) :
    lines (unlines entries) = entries := by
  induction entries with
  | nil => rfl
  | cons entry rest ih =>
    rw [unlines_cons, lines_append_newline (oneLine entry (List.mem_cons_self ..)),
      ih (fun other member => oneLine other (List.mem_cons_of_mem _ member))]

theorem wcLines_unlines {entries : List Text} (oneLine : ∀ entry ∈ entries, '\n' ∉ entry) :
    wcLines (unlines entries) = entries.length := by
  induction entries with
  | nil => rfl
  | cons entry rest ih =>
    have none : entry.count '\n' = 0 := List.count_eq_zero.mpr (oneLine entry (List.mem_cons_self ..))
    have tail := ih (fun other member => oneLine other (List.mem_cons_of_mem _ member))
    simp only [wcLines] at tail ⊢
    simp only [unlines_cons, List.count_append, List.count_cons_self, none, tail, List.length_cons]
    omega

/-- `$?` is printed in decimal. -/
def decimal (status : ℕ) : Text := Nat.toDigits 10 status

/-- An exit status is one to three digits long. -/
theorem decimal_status {status : ℕ} (bound : status < 256) : decimal status ≠ [] ∧
    (decimal status).length ≤ 3 ∧ (decimal status).all Char.isDigit = true := by
  have all : ∀ status : Fin 256, decimal status.val ≠ [] ∧
      (decimal status.val).length ≤ 3 ∧ (decimal status.val).all Char.isDigit = true := by
    decide +kernel
  exact all ⟨status, bound⟩

/-! ## Commands -/

/-- What a command has done: its exit status and all it wrote. -/
structure Ran where
  status : ℕ
  stdout : Text
  stderr : Text
deriving DecidableEq

namespace Ran

/-- Nothing that matters here, and successfully. -/
def quiet : Ran := ⟨0, [], []⟩

/-- All that a command printed, on either stream. -/
def printed (ran : Ran) : Text := ran.stdout ++ ran.stderr

/-- `first; second` under errexit: a command that fails is the last one. -/
def seq (first second : Ran) : Ran :=
  if first.status = 0 then ⟨second.status, first.stdout ++ second.stdout, first.stderr ++ second.stderr⟩ else first

/-- `left | right` under pipefail. -/
def pipe (left : Ran) (right : Text → Ran) : Ran :=
  let last := right left.stdout
  ⟨pipefail [left.status, last.status], last.stdout, left.stderr ++ last.stderr⟩

/-- `! command` -/
def negated (ran : Ran) : Ran := { ran with status := bang ran.status }

theorem printed_eq_nil {ran : Ran} : ran.printed = [] ↔ ran.stdout = [] ∧ ran.stderr = [] :=
  List.append_eq_nil_iff

/-- A sequence succeeds if its commands do. -/
theorem status_seq_eq_zero {first second : Ran} : (first.seq second).status = 0 ↔ first.status = 0 ∧ second.status = 0 := by
  unfold seq
  split_ifs with fine
  · exact (and_iff_right fine).symm
  · exact iff_of_false fine fun both => fine both.1

/-- Where the first command succeeds, the output of both is there. -/
theorem output_seq {first second : Ran} (fine : first.status = 0) :
    (first.seq second).stdout = first.stdout ++ second.stdout ∧ (first.seq second).stderr = first.stderr ++ second.stderr := by
  rw [seq, if_pos fine]
  exact ⟨rfl, rfl⟩

/-- A pipeline succeeds if its members do. -/
theorem status_pipe_eq_zero {left : Ran} {right : Text → Ran} :
    (left.pipe right).status = 0 ↔ left.status = 0 ∧ (right left.stdout).status = 0 := by
  simp only [pipe, pipefail, List.foldl_cons, List.foldl_nil]
  split_ifs with last first
  · simp only [last, and_true, first]
  · simp only [first, false_and]
  · simp only [last, and_false]

theorem printed_pipe_eq_nil {left : Ran} {right : Text → Ran} :
    (left.pipe right).printed = [] ↔ left.stderr = [] ∧ (right left.stdout).printed = [] := by
  simp only [pipe, printed_eq_nil, List.append_eq_nil_iff]
  exact and_left_comm

end Ran

end Yalibct.Shell
