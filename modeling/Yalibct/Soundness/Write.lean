import Mathlib.Data.List.Count
import Mathlib.Tactic.SplitIfs
import Yalibct.Model.Write

/-! # Transfers that are retried

One call of `safe_write` ends with the first answer that is neither an interruption nor a complaint
about the length; `full_write` ends with the buffer, with an error, or with an answer that takes nothing.
The bytes taken by all answers together are a prefix of the buffer.
-/

namespace Yalibct

variable {errno : Errno} {outcomes : List WriteOutcome} {buf : List UInt8} {t : Transfer}

/-- How many of the answers call the request too long. -/
def refusals (outcomes : List WriteOutcome) : ℕ := outcomes.countP (· = .fail .EINVAL)

private theorem accepts_append (used rest : List WriteOutcome) :
    accepts (used ++ rest) = accepts used + accepts rest :=
  List.countP_append

private theorem refusals_append (used rest : List WriteOutcome) :
    refusals (used ++ rest) = refusals used + refusals rest :=
  List.countP_append

private theorem accepts_cons_le (outcome : WriteOutcome) (rest : List WriteOutcome) :
    accepts (outcome :: rest) ≤ accepts rest + 1 := by
  rw [accepts, List.countP_cons]
  split_ifs
  · exact Nat.le_refl _
  · exact Nat.le_succ _

private theorem refusals_le_cons (outcome : WriteOutcome) (rest : List WriteOutcome) :
    refusals rest ≤ refusals (outcome :: rest) := by
  unfold refusals
  rw [List.countP_cons]
  exact Nat.le_add_right ..

private theorem counts_split (earlier : List WriteOutcome) (last : WriteOutcome) (rest : List WriteOutcome) :
    accepts (earlier ++ last :: rest) ≤ accepts earlier + (accepts rest + 1) ∧
      refusals earlier + refusals rest ≤ refusals (earlier ++ last :: rest) := by
  rw [accepts_append, refusals_append]
  exact ⟨Nat.add_le_add_left (accepts_cons_le ..) _, Nat.add_le_add_left (refusals_le_cons ..) _⟩

private theorem accepts_interrupted (rest : List WriteOutcome) : accepts (.fail .EINTR :: rest) = accepts rest := by
  simp [accepts]

private theorem refusals_interrupted (rest : List WriteOutcome) :
    refusals (.fail .EINTR :: rest) = refusals rest := by
  simp [refusals]

private theorem refusals_refused (rest : List WriteOutcome) :
    refusals (.fail .EINVAL :: rest) = refusals rest + 1 := by
  simp [refusals]

/-! ## `safe_write` -/

/-- How often a request is cut. -/
def cuts (buf : List UInt8) : ℕ := if sysBufsizeMax < buf.length then 1 else 0

/-- A request that was cut is not cut again. -/
theorem cut_once (long : sysBufsizeMax < buf.length) :
    cuts buf = 1 ∧ cuts (buf.take sysBufsizeMax) = 0 ∧ buf.take sysBufsizeMax ≠ [] := by
  have cut : (buf.take sysBufsizeMax).length = sysBufsizeMax := List.length_take_of_le (Nat.le_of_lt long)
  refine ⟨if_pos long, if_neg (by omega), List.ne_nil_of_length_pos ?_⟩
  rw [cut]
  decide

/-- What `safe_write` makes of the last answer. -/
inductive SafeWritten (buf : List UInt8) (t : Transfer) : WriteOutcome → Prop
  | accepted {count : ℕ} (taken : ℕ) (result : t.result = taken) (inside : taken ≤ buf.length)
      (some : taken = 0 → count = 0) (written : t.written = buf.take taken) : SafeWritten buf t (.accept count)
  | failed (notEINTR : t.errno ≠ .EINTR) (result : t.result = -1) (written : t.written = []) :
      SafeWritten buf t (.fail t.errno)

theorem SafeWritten.of_cut {last : WriteOutcome} (cut : SafeWritten (buf.take sysBufsizeMax) t last) :
    SafeWritten buf t last := by
  cases cut with
  | accepted taken result inside some written =>
    rw [List.length_take] at inside
    rw [List.take_take, Nat.min_eq_left (Nat.le_trans inside (Nat.min_le_left ..))] at written
    exact .accepted taken result (Nat.le_trans inside (Nat.min_le_right ..)) some written
  | failed notEINTR result written => exact .failed notEINTR result written

theorem Transfer.written_after (t : Transfer) (earlier : List WriteCall) :
    (t.after earlier).written = earlier.flatMap WriteCall.accepted ++ t.written :=
  List.flatMap_append

theorem Transfer.used_after (t : Transfer) (earlier : List WriteCall) :
    (t.after earlier).used = earlier.map WriteCall.outcome ++ t.used :=
  List.map_append

/-- The answer of a failing call comes before the others. -/
private theorem Transfer.used_after_fail {earlier : List WriteOutcome} {last : WriteOutcome}
    (used : t.used = earlier ++ [last]) (split : outcomes = t.used ++ t.rest) (offered : List UInt8) (e : Errno) :
    (t.after [⟨offered, .fail e⟩]).used = (.fail e :: earlier) ++ [last] ∧
      .fail e :: outcomes = (t.after [⟨offered, .fail e⟩]).used ++ t.rest := by
  have before : (t.after [⟨offered, .fail e⟩]).used = .fail e :: t.used := t.used_after _
  constructor
  · rw [before, used]
    rfl
  · rw [before, split]
    rfl

/-- A failing call takes nothing. -/
theorem SafeWritten.after {last : WriteOutcome} (ends : SafeWritten buf t last) (offered : List UInt8) (e : Errno) :
    SafeWritten buf (t.after [⟨offered, .fail e⟩]) last := by
  have same : (t.after [⟨offered, .fail e⟩]).written = t.written := t.written_after _
  cases ends with
  | accepted taken result inside some written => exact .accepted taken result inside some (same.trans written)
  | failed notEINTR result written => exact .failed notEINTR result (same.trans written)

/-- At most one answer before the last one is not an interruption, and then it calls the request too long. -/
theorem safeWrite_spec (nonempty : buf ≠ []) (errno : Errno) (outcomes : List WriteOutcome) :
    safeWrite errno outcomes buf = none ∧ accepts outcomes ≤ min (cuts buf) (refusals outcomes) ∨
    ∃ t earlier last, safeWrite errno outcomes buf = some t ∧ t.used = earlier ++ [last] ∧ outcomes = t.used ++ t.rest ∧
      accepts earlier ≤ min (cuts buf) (refusals earlier) ∧ SafeWritten buf t last := by
  induction outcomes generalizing errno buf with
  | nil => exact .inl ⟨rfl, Nat.zero_le _⟩
  | cons outcome outcomes ih =>
    have positive := List.length_pos_iff.mpr nonempty
    cases outcome with
    | accept count =>
      right
      refine ⟨_, [], _, rfl, rfl, rfl, Nat.zero_le _, .accepted (min count buf.length) ?_ ?_ ?_ ?_⟩
      · dsimp only
        omega
      · exact Nat.min_le_right ..
      · omega
      · exact (List.append_nil _).trans List.take_eq_take_min
    | fail e =>
      rw [safeWrite]
      split_ifs with interrupted long
      · subst interrupted
        rcases ih nonempty .EINTR with ⟨none, few⟩ | ⟨t, earlier, last, some, used, split, few, ends⟩
        · refine .inl ⟨by rw [none]; rfl, ?_⟩
          rwa [accepts_interrupted, refusals_interrupted]
        · obtain ⟨used, split⟩ := t.used_after_fail used split buf .EINTR
          refine .inr ⟨_, .fail .EINTR :: earlier, last, by rw [some]; rfl, used, split, ?_, ends.after ..⟩
          rwa [accepts_interrupted, refusals_interrupted]
      · obtain ⟨rfl, long⟩ := long
        obtain ⟨once, never, nonempty'⟩ := cut_once long
        rw [once]
        rcases ih nonempty' .EINVAL with ⟨none, few⟩ | ⟨t, earlier, last, some, used, split, few, ends⟩
        · have count := accepts_cons_le (.fail .EINVAL) outcomes
          have refused := refusals_refused outcomes
          exact .inl ⟨by rw [none]; rfl, by omega⟩
        · have count := accepts_cons_le (.fail .EINVAL) earlier
          have refused := refusals_refused earlier
          obtain ⟨used, split⟩ := t.used_after_fail used split buf .EINVAL
          exact .inr ⟨_, .fail .EINVAL :: earlier, last, by rw [some]; rfl, used, split, by omega,
            ends.of_cut.after ..⟩
      · exact .inr ⟨⟨-1, [⟨buf, .fail e⟩], e, outcomes⟩, [], .fail e, rfl, rfl, rfl, Nat.zero_le _,
          .failed interrupted rfl rfl⟩

/-! ## `full_write` -/

/-- The answer that ends a transfer before its end, and the `errno` it leaves. -/
inductive Stops : WriteOutcome → Errno → Prop
  | zero : Stops (.accept 0) .ENOSPC
  | failed {e : Errno} (notEINTR : e ≠ .EINTR) : Stops (.fail e) e

/-- Each answer was given to a call. The bytes that the descriptor took in these calls are the first ones
of the buffer, once and in order, and their number is returned. If these are not all bytes, the last answer
says why. -/
structure FullWritten (buf : List UInt8) (outcomes : List WriteOutcome) (t : Transfer) : Prop where
  answered : outcomes = t.used ++ t.rest
  result : t.result = t.written.length
  written : t.written = buf.take t.result.toNat
  ends : t.result < buf.length → ∃ earlier last, t.used = earlier ++ [last] ∧ Stops last t.errno

theorem FullWritten.bound (full : FullWritten buf outcomes t) : 0 ≤ t.result ∧ t.result ≤ buf.length := by
  have length := congrArg List.length full.written
  rw [List.length_take] at length
  have result := full.result
  omega

/-- The first call of `safe_write` ends the transfer. -/
theorem FullWritten.stop {earlier : List WriteOutcome} {last : WriteOutcome} (zero : t.result = 0)
    (nothing : t.written = []) (used : t.used = earlier ++ [last]) (answered : outcomes = t.used ++ t.rest)
    (stops : Stops last t.errno) : FullWritten buf outcomes t where
  answered := answered
  result := by rw [zero, nothing, List.length_nil, Int.natCast_zero]
  written := by rw [zero, nothing, Int.toNat_zero, List.take_zero]
  ends _ := ⟨earlier, last, used, stops⟩

/-- A call of `safe_write` goes before. -/
theorem FullWritten.step {taken : ℕ} {u : Transfer} (inside : taken ≤ buf.length) (answered : outcomes = t.used ++ t.rest)
    (written : t.written = buf.take taken) (tail : FullWritten (buf.drop taken) t.rest u) :
    FullWritten buf outcomes { u.after t.calls with result := taken + u.result } := by
  have both : ({ u.after t.calls with result := taken + u.result } : Transfer).written = t.written ++ u.written :=
    u.written_after _
  have length : t.written.length = taken := by rw [written, List.length_take_of_le inside]
  constructor
  · have used : ({ u.after t.calls with result := taken + u.result } : Transfer).used = t.used ++ u.used := u.used_after _
    rw [used, List.append_assoc, answered]
    exact congrArg _ tail.answered
  · rw [both, List.length_append, length, Int.natCast_add, ← tail.result]
  · dsimp only
    rw [both, written, tail.written, Int.toNat_add (Int.natCast_nonneg _) tail.bound.1, Int.toNat_natCast, List.take_add]
  · intro short
    have bound := tail.ends
    rw [List.length_drop] at bound
    obtain ⟨earlier, last, splits, stops⟩ := bound (by dsimp only at short; omega)
    refine ⟨t.used ++ earlier, last, ?_, stops⟩
    rw [List.append_assoc, ← splits]
    exact u.used_after _

/-- Each byte takes at most one answer besides interruptions and complaints about the length, and at most
one of the latter. -/
theorem fullWrite_spec (errno : Errno) (outcomes : List WriteOutcome) (buf : List UInt8) :
    fullWrite errno outcomes buf = none ∧ accepts outcomes < min (2 * buf.length) (buf.length + refusals outcomes) ∨
    ∃ t, fullWrite errno outcomes buf = some t ∧ FullWritten buf outcomes t := by
  induction size : buf.length using Nat.strongRecOn generalizing outcomes errno buf with
  | ind size' ih =>
    subst size
    rw [fullWrite]
    by_cases empty : buf = []
    · rw [if_pos empty, empty]
      refine .inr ⟨_, rfl, rfl, rfl, rfl, fun short => ?_⟩
      exact absurd short (Int.lt_irrefl 0)
    · rw [if_neg empty]
      have positive := List.length_pos_iff.mpr empty
      have once : cuts buf ≤ 1 := by
        unfold cuts
        split_ifs <;> omega
      rcases safeWrite_spec empty errno outcomes with ⟨none, few⟩ | ⟨t, earlier, last, some, used, split, few, ends⟩
      · rw [none]
        exact .inl ⟨rfl, by omega⟩
      · rw [some]
        dsimp only
        cases ends with
        | failed notEINTR result written =>
          rw [if_pos (by omega)]
          exact .inr ⟨_, rfl, .stop rfl written used split (.failed notEINTR)⟩
        | @accepted offered taken result inside some written =>
          rw [if_neg (by omega)]
          by_cases zero : taken = 0
          · rw [if_pos (by omega)]
            rw [zero, List.take_zero] at written
            rw [some zero] at used
            exact .inr ⟨_, rfl, .stop (by dsimp only; omega) written used split .zero⟩
          · rw [if_neg (by omega), result, Int.toNat_natCast]
            obtain ⟨count, refused⟩ := counts_split earlier (.accept offered) t.rest
            have all : outcomes = earlier ++ .accept offered :: t.rest := by
              rw [split, used, List.append_assoc]
              rfl
            have shorter : (buf.drop taken).length = buf.length - taken := List.length_drop
            rcases ih (buf.drop taken).length (by omega) t.errno t.rest (buf.drop taken) rfl with
              ⟨none, few⟩ | ⟨u, some, rest⟩
            · rw [none, all]
              exact .inl ⟨rfl, by omega⟩
            · rw [some]
              exact .inr ⟨_, rfl, .step inside split written rest⟩

/-- Whatever the descriptor answers, a transfer that has come to an end has written the first bytes of
the buffer, once and in order; and it only waits for an answer while fewer than two for each byte were
other than interruptions. -/
theorem fullWrite_accounts (errno : Errno) (outcomes : List WriteOutcome) (buf : List UInt8) :
    (∀ t, fullWrite errno outcomes buf = some t → FullWritten buf outcomes t) ∧
    (fullWrite errno outcomes buf = none → accepts outcomes < 2 * buf.length) := by
  rcases fullWrite_spec errno outcomes buf with ⟨waits, few⟩ | ⟨t, ends, written⟩
  · refine ⟨fun t ended => ?_, fun _ => Nat.lt_of_lt_of_le few (Nat.min_le_left ..)⟩
    rw [waits] at ended
    cases ended
  · refine ⟨fun u ended => ?_, fun waits => ?_⟩
    · rw [ends] at ended
      cases ended
      exact written
    · rw [ends] at waits
      cases waits

/-! ## Short writes and interruptions -/

theorem Progress.tail {outcome : WriteOutcome} (progress : Progress (outcome :: outcomes)) : Progress outcomes :=
  fun other member => progress other (List.mem_cons_of_mem _ member)

theorem Progress.refusals_eq_zero (progress : Progress outcomes) : refusals outcomes = 0 := by
  apply List.countP_eq_zero.mpr
  intro outcome member
  rcases progress outcome member with rfl | ⟨count, rfl⟩
  · decide
  · simp

/-- A short write or an interruption does not end the transfer. -/
theorem Stops.not_progress {last : WriteOutcome} (stops : Stops last errno) :
    ¬ (last = .fail .EINTR ∨ ∃ count, last = .accept (count + 1)) := by
  cases stops with
  | zero =>
    rintro (other | ⟨count, other⟩)
    · cases other
    · cases other
  | failed notEINTR =>
    rintro (other | ⟨count, other⟩)
    · cases other
      exact notEINTR rfl
    · cases other

/-- With as many accepting answers as bytes, all bytes are written, in order, and counted. -/
theorem fullWrite_progress (progress : Progress outcomes) (errno : Errno) (enough : buf.length ≤ accepts outcomes) :
    ∃ t, fullWrite errno outcomes buf = some t ∧ t.result = buf.length ∧ t.written = buf := by
  have never := progress.refusals_eq_zero
  rcases fullWrite_spec errno outcomes buf with ⟨-, few⟩ | ⟨t, ends, full⟩
  · omega
  · have whole : t.result = buf.length := by
      apply Int.le_antisymm full.bound.2
      apply Int.not_lt.mp
      intro short
      obtain ⟨earlier, last, splits, stops⟩ := full.ends short
      have member : last ∈ outcomes := by
        rw [full.answered, splits]
        simp
      exact stops.not_progress (progress last member)
    refine ⟨t, ends, whole, ?_⟩
    rw [full.written, whole, Int.toNat_natCast, List.take_length]

end Yalibct
