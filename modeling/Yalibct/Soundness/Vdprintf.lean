import Yalibct.Model.Vdprintf
import Yalibct.Soundness.Write

/-! # What `vdprintf` writes

The length that `vasnprintf` hands back counts the NUL, and `vdprintf` takes it for that of the
text. So it writes the NUL as well and returns one too many, on both buffer paths and whatever
the pattern of short writes and interruptions.
-/

namespace Yalibct

open Machine

variable {m : Malloc} {p : Printf} {format : p.Format} {args : p.Args}

/-- A text that fits the stack buffer reaches the descriptor with a NUL behind it. -/
theorem vdprintf_short_text (r : Requests) (buf : Vector UInt8 2000) (errno : Errno)
    {outcomes : List WriteOutcome} (fits : (p.text format args).length < 2000)
    (progress : Progress outcomes) (enough : (p.text format args).length < accepts outcomes) :
    vdprintf m p r buf outcomes errno format args =
      .ok ⟨(p.text format args).length + 1, p.text format args ++ [0]⟩ := by
  have bound : (p.text format args).length < intMax := by rw [intMax]; omega
  have length : (p.text format args ++ [0]).length = (p.text format args).length + 1 := by simp
  have cut : (overwrite buf.toList 0 (p.text format args ++ [0])).take
      ((p.text format args).length + 1) = p.text format args ++ [0] := by
    have stored := take_overwrite buf.toList (Nat.zero_le _)
      ((p.text format args).length + 1) (Nat.le_of_eq length.symm)
    rw [Nat.zero_add, List.take_zero, List.nil_append, ← length, List.take_length] at stored
    rw [← length]
    exact stored
  have through : (p.text format args ++ [0]).length ≤ accepts outcomes := by omega
  obtain ⟨t, ended, whole, written⟩ := fullWrite_progress progress errno through
  simp only [vdprintf, vasnprintf_fits r bound fits, bind, Except.bind, cut, ended, whole, written, length]
  have small : ¬ intMax < (p.text format args).length + 1 := by rw [intMax]; omega
  rw [if_neg (by omega), if_neg small]
  rfl

/-- Once `vasnprintf` has returned, the writing part reports failure or counts the NUL. -/
theorem vdprintf_ret (r : Requests) (buf : Vector UInt8 2000) (outcomes : List WriteOutcome)
    (errno : Errno) {printed : Printed} (bound : (p.text format args).length < intMax)
    (ran : vdprintf m p r buf outcomes errno format args = .ok printed) :
    printed.ret = -1 ∨ printed.ret = (p.text format args).length + 1 := by
  unfold vdprintf at ran
  cases formatted : vasnprintf m p r (some 2000) format args with
  | error stop =>
    rw [formatted] at ran
    cases ran
  | ok result =>
    obtain ⟨v, r'⟩ := result
    obtain ⟨length, -⟩ := vasnprintf_length r r' bound formatted
    have write : ∀ t : Transfer,
        (if t.result < v.length then (.ok ⟨-1, t.written⟩ : Except Stop Printed)
          else if intMax < v.length then .ok ⟨-1, t.written⟩
          else .ok ⟨v.length, t.written⟩) = .ok printed →
        printed.ret = -1 ∨ printed.ret = (p.text format args).length + 1 := by
      intro t wrote
      split_ifs at wrote <;> cases wrote
      · exact .inl rfl
      · exact .inl rfl
      · exact .inr (by simp only [length]; omega)
    simp only [formatted, bind, Except.bind] at ran
    split at ran
    · cases ran
      exact .inl rfl
    · split at ran
      · cases ran
      · exact write _ ran
    · split at ran
      · cases ran
      · exact write _ ran

/-- However the bytes are accepted, neither function writes and counts the text alone. -/
theorem vdprintf_never_exact (m : Malloc) (p : Printf) (r : Requests) (buf : Vector UInt8 2000)
    (outcomes : List WriteOutcome) (errno : Errno) (format : p.Format) (args : p.Args)
    (bound : (p.text format args).length < intMax) :
    (¬ ∃ printed, vdprintf m p r buf outcomes errno format args = .ok printed ∧
      printed.Exact (p.text format args)) ∧
    ¬ ∃ printed, dprintf m p r buf outcomes errno format args = .ok printed ∧
      printed.Exact (p.text format args) := by
  have never : ¬ ∃ printed, vdprintf m p r buf outcomes errno format args = .ok printed ∧
      printed.Exact (p.text format args) := by
    rintro ⟨printed, ran, -, counted⟩
    cases vdprintf_ret r buf outcomes errno bound ran with
    | inl failed => omega
    | inr extra => omega
  exact ⟨never, never⟩

/-- The text `hi`, with an interruption and two short writes on the way. -/
theorem vdprintf_hi_never_exact :
    (¬ ∃ printed, vdprintf .generous .string .none (Vector.replicate 2000 0)
      [.fail .EINTR, .accept 1, .accept 1, .accept 5] .ENOMEM () [[104, 105]] = .ok printed ∧
      printed.Exact [104, 105]) ∧
    ¬ ∃ printed, dprintf .generous .string .none (Vector.replicate 2000 0)
      [.fail .EINTR, .accept 1, .accept 1, .accept 5] .ENOMEM () [[104, 105]] = .ok printed ∧
      printed.Exact [104, 105] :=
  vdprintf_never_exact .generous .string .none _ _ _ () [[104, 105]] (by decide)

/-- `dprintf (fd, "%s", "hi")` writes a NUL after the text and returns 3. -/
theorem dprintf_writes_nul :
    dprintf .generous .string .none (Vector.replicate 2000 0) (List.replicate 3 (.accept 1)) .ENOMEM
      () [[104, 105]] = .ok ⟨3, [104, 105, 0]⟩ ∧
    ¬ Printed.Exact ⟨3, [104, 105, 0]⟩ (Printf.string.text () [[104, 105]]) := by
  have progress : Progress (List.replicate 3 (.accept 1)) := by
    intro outcome member
    exact .inr ⟨0, List.eq_of_mem_replicate member⟩
  have fits : (Printf.string.text () [[104, 105]]).length < 2000 := by decide
  refine ⟨vdprintf_short_text .none _ .ENOMEM fits progress ?_, ?_⟩
  · decide
  · rintro ⟨written, -⟩
    exact absurd written (by decide)

end Yalibct
