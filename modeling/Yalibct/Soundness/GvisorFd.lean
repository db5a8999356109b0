import Mathlib.Algebra.GroupWithZero.Nat
import Mathlib.Data.List.Count
import Mathlib.Tactic.SplitIfs
import Yalibct.Model.Gvisor
import Yalibct.Soundness.Write

/-! # Files that are read and written whole

A transfer moves bytes from the front of a source. It would go on after an interruption if the macro
that retries compared with the value that a failed call returns; as it is, a transfer that meets an
interruption fails, and one that does not is as it should be.
-/

namespace Yalibct.Gvisor

open Machine

variable {σ : Type} {f : Callback σ} {count avail completed : ℕ} {image : ℕ → σ} {outcome : WriteOutcome}
variable {outcomes rest : List WriteOutcome}

/-! ## Callbacks that move bytes -/

/-- How many bytes an answer moves. -/
def moved (count avail completed offered : ℕ) : ℕ := min (min offered (count - completed)) (avail - completed)

/-- In the state `image completed`, the first `completed` bytes have been moved. -/
structure Moves (f : Callback σ) (count avail : ℕ) (image : ℕ → σ) : Prop where
  accept : ∀ completed offered, completed ≤ avail →
    f (image completed) completed (.accept offered) =
      ((moved count avail completed offered : ℤ), none, image (completed + moved count avail completed offered))
  fail : ∀ completed e, f (image completed) completed (.fail e) = (-1, some e, image completed)

private theorem writeFdLambda_moves (file buf : List UInt8) :
    Moves (writeFdLambda buf) buf.length buf.length fun completed => file ++ buf.take completed := by
  constructor
  · intro completed offered inside
    have same : moved buf.length buf.length completed offered = min offered (buf.length - completed) := by
      unfold moved
      omega
    rw [writeFdLambda, same, List.append_assoc, List.take_add]
  · intro completed e
    rfl

private theorem readFdLambda_moves (file buf : List UInt8) :
    Moves (readFdLambda buf.length) buf.length file.length fun completed =>
      (file.drop completed, overwrite buf 0 (file.take completed)) := by
  constructor
  · intro completed offered inside
    have same : moved buf.length file.length completed offered =
        min (min offered (buf.length - completed)) (file.drop completed).length := by
      rw [moved, List.length_drop]
    have taken : (file.take completed).length = completed := List.length_take_of_le inside
    have stored := @overwrite_append _ buf 0 (file.take completed)
      ((file.drop completed).take (moved buf.length file.length completed offered)) (Nat.zero_le _)
    rw [Nat.zero_add, taken, ← List.take_add] at stored
    rw [readFdLambda, ← same, stored, List.drop_drop]
  · intro completed e
    rfl

/-- Nothing is ever retried. -/
theorem Moves.retryEINTR_cons (moves : Moves f count avail image) (inside : completed ≤ avail) :
    retryEINTR f completed (outcome :: rest) (image completed) =
      some ⟨(f (image completed) completed outcome).1, (f (image completed) completed outcome).2.1,
        (f (image completed) completed outcome).2.2, rest⟩ := by
  rw [retryEINTR]
  apply if_pos
  cases outcome with
  | accept offered =>
    rw [moves.accept completed offered inside]
    exact .inr nofun
  | fail e =>
    rw [moves.fail]
    exact .inl (show (-1 : ℤ) ≠ 1 by decide)

private theorem apply_of_call {state : σ} {r : IoResult σ} (call : retryEINTR f completed outcomes state = some r) :
    applyFileIoSyscall f count completed outcomes state =
      if r.ret < 0 then some r
      else if r.ret = 0 then some { r with ret := completed }
      else if completed + r.ret.toNat < count then
        applyFileIoSyscall f count (completed + r.ret.toNat) r.rest r.state
      else some { r with ret := (completed + r.ret.toNat : ℕ) } := by
  rw [applyFileIoSyscall]
  split
  · next none =>
    rw [none] at call
    cases call
  · next other =>
    rw [other] at call
    cases call
    rfl

theorem Moves.apply_fail (moves : Moves f count avail image) (inside : completed ≤ avail) (e : Errno) :
    applyFileIoSyscall f count completed (.fail e :: rest) (image completed) =
      some ⟨-1, some e, image completed, rest⟩ := by
  rw [apply_of_call (moves.retryEINTR_cons inside), moves.fail]
  rfl

theorem Moves.apply_accept (moves : Moves f count avail image) (inside : completed ≤ avail) (offered : ℕ) :
    applyFileIoSyscall f count completed (.accept offered :: rest) (image completed) =
      if moved count avail completed offered ≠ 0 ∧ completed + moved count avail completed offered < count then
        applyFileIoSyscall f count (completed + moved count avail completed offered) rest
          (image (completed + moved count avail completed offered))
      else
        some ⟨(completed + moved count avail completed offered : ℕ), none,
          image (completed + moved count avail completed offered), rest⟩ := by
  rw [apply_of_call (moves.retryEINTR_cons inside), moves.accept completed offered inside]
  dsimp only
  rw [if_neg (Int.not_lt.mpr (Int.natCast_nonneg _)), Int.toNat_natCast]
  by_cases nothing : moved count avail completed offered = 0
  · rw [nothing, if_pos Int.natCast_zero, if_neg (fun both => both.1 rfl), Nat.add_zero]
  · rw [if_neg (by omega)]
    simp only [ne_eq, nothing, not_false_eq_true, true_and]

/-! ## Interruptions -/

/-- With so many bytes left to move, and so many asked for, an interruption is met: at once, or after an
answer that moves some of the bytes, but not all. -/
inductive Interrupted : ℕ → ℕ → List WriteOutcome → Prop
  | now {avail count : ℕ} {rest : List WriteOutcome} : Interrupted avail count (.fail .EINTR :: rest)
  | later {avail count offered : ℕ} {rest : List WriteOutcome} (some : 0 < min offered avail)
      (part : min offered avail < count)
      (next : Interrupted (avail - min offered avail) (count - min offered avail) rest) :
      Interrupted avail count (.accept offered :: rest)

/-- The bytes that the answers could move. -/
def offered (outcomes : List WriteOutcome) : ℕ :=
  (outcomes.map fun
    | .accept count => count
    | .fail _ => 0).sum

/-- A transfer that is only interrupted and cut short comes to its end, and one that fails has met another
error than an interruption. -/
structure Transfers (outcomes : List WriteOutcome) (count avail : ℕ) (done : σ) (run : Option (IoResult σ)) :
    Prop where
  completes : Progress outcomes → count ≤ avail → count ≤ offered outcomes → 0 < offered outcomes →
    ∃ r, run = some r ∧ r.ret = count ∧ r.state = done
  fails : ∀ r, run = some r → r.ret = -1 →
    ∃ used e, outcomes = used ++ r.rest ∧ .fail e ∈ used ∧ e ≠ .EINTR

/-- An interruption that is met ends the transfer. -/
theorem Moves.interrupted (moves : Moves f count avail image) (inside : completed ≤ avail)
    (met : Interrupted (avail - completed) (count - completed) outcomes) :
    ∃ r used, applyFileIoSyscall f count completed outcomes (image completed) = some r ∧ r.ret = -1 ∧
      outcomes = used ++ r.rest ∧ ∀ e, .fail e ∈ used → e = .EINTR := by
  induction outcomes generalizing completed with
  | nil => cases met
  | cons outcome rest ih =>
    cases met with
    | now =>
      refine ⟨_, [.fail .EINTR], moves.apply_fail inside _, rfl, rfl, fun e member => ?_⟩
      cases List.mem_singleton.mp member
      rfl
    | @later _ _ offered _ some part next =>
      have same : moved count avail completed offered = min offered (avail - completed) := by
        unfold moved
        omega
      rw [← same] at some part next
      have on : moved count avail completed offered ≠ 0 ∧ completed + moved count avail completed offered < count := by
        omega
      rw [Nat.sub_sub, Nat.sub_sub] at next
      obtain ⟨r, used, run, ret, split, only⟩ := ih (by omega) next
      refine ⟨r, .accept offered :: used, ?_, ret, by rw [split]; rfl, fun e member => ?_⟩
      · rw [moves.apply_accept inside, if_pos on, run]
      · rcases List.mem_cons.mp member with other | member
        · cases other
        · exact only e member

/-- Without one, a transfer fails only because of another error. -/
theorem Moves.fails (moves : Moves f count avail image) (inside : completed ≤ avail)
    (unmet : ¬ Interrupted (avail - completed) (count - completed) outcomes) {r : IoResult σ}
    (run : applyFileIoSyscall f count completed outcomes (image completed) = some r) (ret : r.ret = -1) :
    ∃ used e, outcomes = used ++ r.rest ∧ .fail e ∈ used ∧ e ≠ .EINTR := by
  induction outcomes generalizing completed with
  | nil =>
    rw [applyFileIoSyscall] at run
    cases run
  | cons outcome rest ih =>
    cases outcome with
    | fail e =>
      rw [moves.apply_fail inside] at run
      cases run
      refine ⟨[.fail e], e, rfl, List.mem_singleton_self _, fun same => unmet ?_⟩
      rw [same]
      exact .now
    | accept offered =>
      rw [moves.apply_accept inside] at run
      split_ifs at run with on
      · have same : moved count avail completed offered = min offered (avail - completed) := by
          unfold moved at on ⊢
          omega
        have bound : moved count avail completed offered ≤ avail - completed := Nat.min_le_right ..
        have unmet' : ¬ Interrupted (avail - (completed + moved count avail completed offered))
            (count - (completed + moved count avail completed offered)) rest := by
          intro met
          rw [← Nat.sub_sub, ← Nat.sub_sub, same] at met
          exact unmet (.later (by omega) (by omega) met)
        obtain ⟨used, e, split, member, other⟩ := ih (by omega) unmet' run
        exact ⟨.accept offered :: used, e, by rw [split]; rfl, List.mem_cons_of_mem _ member, other⟩
      · cases run
        exact absurd ret (by dsimp only; omega)

/-- Without one, enough short answers complete the transfer. -/
theorem Moves.completes (moves : Moves f count avail image) (inside : completed ≤ count)
    (unmet : ¬ Interrupted (avail - completed) (count - completed) outcomes) (progress : Progress outcomes)
    (available : count ≤ avail) (enough : count - completed ≤ offered outcomes) (positive : 0 < offered outcomes) :
    ∃ r, applyFileIoSyscall f count completed outcomes (image completed) = some r ∧ r.ret = count ∧
      r.state = image count := by
  induction outcomes generalizing completed with
  | nil => exact absurd positive (Nat.lt_irrefl 0)
  | cons outcome rest ih =>
    rcases progress outcome (List.mem_cons_self ..) with rfl | ⟨less, rfl⟩
    · exact absurd .now unmet
    · rw [moves.apply_accept (Nat.le_trans inside available)]
      have same : moved count avail completed (less + 1) = min (less + 1) (count - completed) := by
        unfold moved
        omega
      have sum : offered (.accept (less + 1) :: rest) = less + 1 + offered rest := by
        simp [offered]
      by_cases last : count - completed ≤ less + 1
      · have all : completed + moved count avail completed (less + 1) = count := by omega
        rw [all, if_neg (by omega)]
        exact ⟨_, rfl, rfl, rfl⟩
      · rw [if_pos (by omega)]
        apply ih
        · omega
        · intro met
          rw [← Nat.sub_sub, ← Nat.sub_sub] at met
          have least : moved count avail completed (less + 1) = min (less + 1) (avail - completed) := by omega
          rw [least] at met
          exact unmet (.later (by omega) (by omega) met)
        · exact progress.tail
        · omega
        · omega

theorem Moves.transfers_iff {done : σ} (moves : Moves f count avail image) (whole : count ≤ avail → image count = done) :
    Transfers outcomes count avail done (applyFileIoSyscall f count 0 outcomes (image 0)) ↔
      ¬ Interrupted avail count outcomes := by
  constructor
  · intro transfers met
    obtain ⟨r, used, run, ret, split, only⟩ := @Moves.interrupted _ _ _ _ 0 _ _ moves (Nat.zero_le _) met
    obtain ⟨used', e, split', member, other⟩ := transfers.fails r run ret
    rw [split] at split'
    rw [← List.append_cancel_right split'] at member
    exact other (only e member)
  · intro unmet
    constructor
    · intro progress available enough positive
      rw [← whole available]
      exact moves.completes (Nat.zero_le _) unmet progress available enough positive
    · intro r run ret
      exact moves.fails (Nat.zero_le _) unmet run ret

/-- Files are written and read as they should be exactly if no interruption is met. -/
theorem fd_transfers_iff (outcomes : List WriteOutcome) (file buf : List UInt8) :
    (Transfers outcomes buf.length buf.length (file ++ buf) (writeFd outcomes file buf) ↔
      ¬ Interrupted buf.length buf.length outcomes) ∧
    (Transfers outcomes buf.length file.length (file.drop buf.length, file.take buf.length) (readFd outcomes file buf) ↔
      ¬ Interrupted file.length buf.length outcomes) := by
  constructor
  · have written := @Moves.transfers_iff _ _ _ _ _ outcomes (file ++ buf) (writeFdLambda_moves file buf)
    rw [List.take_zero, List.append_nil] at written
    exact written fun _ => by rw [List.take_length]
  · have read := @Moves.transfers_iff _ _ _ _ _ outcomes (file.drop buf.length, file.take buf.length)
      (readFdLambda_moves file buf)
    rw [List.take_zero, List.drop_zero] at read
    apply read
    intro available
    rw [overwrite_whole (List.length_take_of_le available)]

/-- One interruption, and neither function does its work. -/
theorem interrupted_once :
    ¬ Transfers [.fail .EINTR, .accept 1] 1 1 [7] (writeFd [.fail .EINTR, .accept 1] [] [7]) ∧
    ¬ Transfers [.fail .EINTR, .accept 1] 1 1 ([], [7]) (readFd [.fail .EINTR, .accept 1] [7] [0]) := by
  constructor
  · intro transfers
    exact (@Moves.transfers_iff _ _ _ _ _ _ _ (writeFdLambda_moves [] [7]) fun _ => rfl).mp transfers .now
  · intro transfers
    exact (@Moves.transfers_iff _ _ _ _ _ _ _ (readFdLambda_moves [7] [0]) fun _ => rfl).mp transfers .now

end Yalibct.Gvisor
