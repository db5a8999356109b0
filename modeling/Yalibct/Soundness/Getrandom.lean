import Yalibct.Model.Getrandom

/-! # What `getrandom` reads from

The descriptor that is kept for a device is open on that device. How it was opened is up to the first call,
so a call reads as its flags say exactly when these agree with the flags of that call.
-/

namespace Yalibct.Getrandom

open Machine

/-- What the flags of a call select. -/
def selected (flags : UInt32) : Opened := ⟨randdevice (devrandom flags), oNonblock flags⟩

/-- A call that reads does so from a descriptor that was opened as its flags say. -/
def Right (e : Call × Answer) : Prop := ∀ fd, e.2.reads = some fd → e.2.source = some (selected e.1.flags)

/-- The descriptor that is kept for the device of a call, if there is one, was opened with the `O_NONBLOCK`
of the call. -/
def Agrees (s : State) (e : Call × Answer) : Prop :=
  ∀ o, 0 ≤ s.randfd (devrandom e.1.flags) → s.fds.find (s.randfd (devrandom e.1.flags)).toNat = some o →
    o.nonblock = oNonblock e.1.flags

/-- For each device there is no descriptor yet, or one that is open on it. -/
def Kept (s : State) : Prop :=
  ∀ device, s.randfd device = -1 ∨
    ∃ (fd : ℕ) (nonblock : Bool), s.randfd device = fd ∧ s.fds.find fd = some ⟨randdevice device, nonblock⟩

private theorem kept_start (fds : Descriptors Opened) : Kept (start fds) := fun _ => .inl rfl

/-- A call reads from the descriptor that is kept; or none is kept, and `open` fails or gives a new one. -/
theorem getrandom_cases (call : Call) {s : State} (kept : Kept s) :
    (∃ (fd : ℕ) (nonblock : Bool), s.randfd (devrandom call.flags) = fd ∧
      s.fds.find fd = some ⟨randdevice (devrandom call.flags), nonblock⟩ ∧
      getrandom call s = (readFrom call s fd, s)) ∨
    s.randfd (devrandom call.flags) = -1 ∧
      ((∃ answer, getrandom call s = (answer, s) ∧ answer.reads = none) ∨
        ∃ fd, call.opening = .ok fd ∧
          getrandom call s = (readFrom call ⟨Function.update s.randfd (devrandom call.flags) fd,
            s.fds.insert fd (selected call.flags)⟩ fd, ⟨Function.update s.randfd (devrandom call.flags) fd,
            s.fds.insert fd (selected call.flags)⟩)) := by
  unfold getrandom
  dsimp only
  rcases kept (devrandom call.flags) with closed | ⟨fd, nonblock, held, open_⟩
  · refine .inr ⟨closed, ?_⟩
    rw [if_pos (by rw [closed]; decide)]
    cases opening : call.opening with
    | error errno => exact .inl ⟨_, rfl, rfl⟩
    | ok fd => exact .inr ⟨fd, rfl, rfl⟩
  · refine .inl ⟨fd, nonblock, held, open_, ?_⟩
    rw [held, if_neg (Int.not_lt.mpr (Int.natCast_nonneg fd))]

theorem Kept.opened {s : State} (kept : Kept s) {fd : ℕ} (unused : fd ∉ s.fds.numbers) (flags : UInt32) :
    Kept ⟨Function.update s.randfd (devrandom flags) fd, s.fds.insert fd (selected flags)⟩ := by
  intro device
  change Function.update s.randfd (devrandom flags) (fd : ℤ) device = -1 ∨ _
  rcases Decidable.em (device = devrandom flags) with rfl | other
  · exact .inr ⟨fd, oNonblock flags, Function.update_self .., Descriptors.find_insert_self⟩
  · rw [Function.update_of_ne other]
    rcases kept device with closed | ⟨fd', nonblock, held, open_⟩
    · exact .inl closed
    · refine .inr ⟨fd', nonblock, ?_, ?_⟩
      · exact (Function.update_of_ne other _ _).trans held
      · rw [Descriptors.find_insert_of_ne, open_]
        rintro rfl
        rw [Descriptors.find_eq_none unused] at open_
        cases open_

/-- A call leaves what is kept open, and is right exactly if it agrees with that. -/
theorem step_spec {s t : State} {e : Call × Answer} (kept : Kept s) (step : calls.Step s e t) :
    Kept t ∧ (Right e ↔ Agrees s e) := by
  obtain ⟨call, answer⟩ := e
  obtain ⟨unused, run⟩ := step
  rcases getrandom_cases call kept with ⟨fd, nonblock, held, open_, result⟩ | ⟨closed, ⟨given, result, silent⟩ | ⟨fd, opening, result⟩⟩
  · rw [run] at result
    cases result
    refine ⟨kept, ?_⟩
    unfold Right Agrees
    rw [held, Int.toNat_natCast, open_]
    constructor
    · intro right o _ same
      have equal := (right fd rfl).symm.trans same
      cases equal
      rfl
    · intro agrees n _
      rw [selected, ← agrees _ (Int.natCast_nonneg fd) rfl]
  · rw [run] at result
    cases result
    refine ⟨kept, ⟨fun _ o held => ?_, fun _ fd reads => ?_⟩⟩
    · rw [closed] at held
      exact absurd held (by decide)
    · rw [silent] at reads
      cases reads
  · rw [run] at result
    cases result
    refine ⟨kept.opened (unused fd opening) call.flags, ⟨fun _ o held => ?_, fun _ n _ => ?_⟩⟩
    · rw [closed] at held
      exact absurd held (by decide)
    · change Descriptors.find (s.fds.insert fd (selected call.flags)) (fd : ℤ).toNat = _
      rw [Int.toNat_natCast, Descriptors.find_insert_self]

/-- In a run whose calls all agree with what is kept, all are right. -/
theorem right_of_agrees {s t : (calls.restrict Agrees).State} {es : List (calls.restrict Agrees).Event} (kept : Kept s)
    (run : Run (calls.restrict Agrees) s es t) : ∀ e ∈ es, Right e := by
  induction run with
  | done s =>
    intro e member
    cases member
  | step first rest ih =>
    obtain ⟨agrees, step⟩ := first
    obtain ⟨kept', law⟩ := step_spec kept step
    intro e member
    rcases List.mem_cons.mp member with rfl | later
    · exact law.mpr agrees
    · exact ih kept' e later

private theorem agrees_of_right {s t : calls.State} {es : List calls.Event} (kept : Kept s) (run : Run calls s es t)
    (right : ∀ e ∈ es, Right e) : Run (calls.restrict Agrees) s es t := by
  induction run with
  | done s => exact .done (m := calls.restrict Agrees) s
  | step first rest ih =>
    obtain ⟨kept', law⟩ := step_spec kept first
    have agrees := law.mp (right _ (List.mem_cons_self ..))
    exact .step (m := calls.restrict Agrees) ⟨agrees, first⟩
      (ih kept' fun e member => right e (List.mem_cons_of_mem _ member))

/-- The calls of a sequence all read as their flags say exactly when each agrees with the descriptor that
is kept before it. -/
theorem calls_right_iff {fds : Descriptors Opened} {es : List calls.Event} {t : calls.State}
    (run : Run calls (start fds) es t) : (∀ e ∈ es, Right e) ↔ Run (calls.restrict Agrees) (start fds) es t :=
  ⟨agrees_of_right (kept_start fds) run, right_of_agrees (kept_start fds)⟩

/-- A blocking call that reads 16 bytes, and what it leaves. -/
def blocking : Call := ⟨0, .ok 3, 16, .EINTR⟩
def blockingAnswer : Answer := ⟨16, .EINTR, some 3, some ⟨randdevice .nonce, false⟩⟩
def opened : State := ⟨Function.update (fun _ => -1) .nonce 3, [(3, ⟨randdevice .nonce, false⟩)]⟩

private theorem blocking_step : calls.Step (start []) (blocking, blockingAnswer) opened :=
  ⟨fun _ _ => List.not_mem_nil, rfl⟩

/-- A call that does not block, to the other device, and what it leaves. -/
def nonblocking : Call := ⟨grndRandom ||| grndNonblock, .ok 4, 8, .EINTR⟩
def nonblockingAnswer : Answer := ⟨8, .EINTR, some 4, some ⟨randdevice .random, true⟩⟩
def bothOpened : State :=
  ⟨Function.update opened.randfd .random 4, [(4, ⟨randdevice .random, true⟩), (3, ⟨randdevice .nonce, false⟩)]⟩

private theorem nonblocking_step : calls.Step opened (nonblocking, nonblockingAnswer) bothOpened := by
  refine ⟨fun fd opening => ?_, rfl⟩
  cases opening
  decide

/-- A call that could not open its device. -/
def unopened : Call := ⟨0, .error enoent, 16, .EINTR⟩

private theorem unopened_unused {s : State} : ∀ fd, unopened.opening = .ok fd → fd ∉ s.fds.numbers := by
  intro fd opening
  cases opening

/-- A device that is missing, one call of each kind, and a second call of the first kind. -/
def fourCalls : List (Call × Answer) :=
  [(unopened, ⟨-1, enosys, none, none⟩), (blocking, blockingAnswer), (nonblocking, nonblockingAnswer),
    (unopened, blockingAnswer)]

private theorem fourCalls_run : Run calls (start []) fourCalls bothOpened := by
  have last : Run calls bothOpened [(unopened, blockingAnswer)] bothOpened :=
    .step (m := calls) ⟨unopened_unused, rfl⟩ (.done (m := calls) bothOpened)
  have opens : Run calls (start []) ((blocking, blockingAnswer) :: (nonblocking, nonblockingAnswer) ::
      [(unopened, blockingAnswer)]) bothOpened :=
    .step (m := calls) blocking_step (.step (m := calls) nonblocking_step last)
  exact .step (m := calls) ⟨unopened_unused, rfl⟩ opens

theorem four_calls_right : ((∀ e ∈ fourCalls, Right e) ↔ Run (calls.restrict Agrees) (start []) fourCalls bothOpened) ∧
    ∀ e ∈ fourCalls, Right e := by
  refine ⟨calls_right_iff fourCalls_run, ?_⟩
  rintro e member fd reads
  simp only [fourCalls, List.mem_cons, List.not_mem_nil, or_false] at member
  rcases member with rfl | rfl | rfl | rfl
  · cases reads
  · rfl
  · rfl
  · rfl

/-- A call with `GRND_NONBLOCK` behind it reads from the descriptor that blocks. -/
theorem nonblocking_blocks : ∃ (es : List calls.Event) (t : calls.State), Run calls (start []) es t ∧ ¬ ∀ e ∈ es, Right e := by
  have second : calls.Step opened ((⟨grndNonblock, .ok 4, 16, .EINTR⟩, blockingAnswer) : Call × Answer) opened := by
    refine ⟨fun fd opening member => ?_, rfl⟩
    cases opening
    exact absurd member (by decide)
  refine ⟨_, _, .step (m := calls) blocking_step (.step (m := calls) second (.done (m := calls) opened)), ?_⟩
  intro right
  have wrong := right _ (List.mem_cons_of_mem _ (List.mem_cons_self ..)) 3 rfl
  cases wrong

end Yalibct.Getrandom
