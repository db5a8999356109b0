import Yalibct.Model.Capture
import Yalibct.Soundness.StringBuffer

/-! # What a capture holds

Whatever the order of writes, polls and reads, what is stored and what is still in the pipe is what the
child wrote. A byte is too short a text to be lost by a string buffer. The loop ends when both pipes
have ended, and not before.
-/

namespace Yalibct.Capture

open Machine StringBuffer

variable {m : Malloc} {x : XmemstreamOrStringBuffer} {bytes : List UInt8}

/-! ## Streams -/

/-- What was not refused in the end was not refused before. -/
theorem granted_before {before after : Bool} (refused : before = true → after = true)
    (granted : after = false) : before = false := by
  cases before with
  | false => rfl
  | true =>
    rw [refused rfl] at granted
    cases granted

/-- The stream holds these bytes, unless a request for memory was refused. -/
def XmemstreamOrStringBuffer.Holds : XmemstreamOrStringBuffer → List UInt8 → Prop
  | .xmemstream written, bytes => written = bytes
  | .stringBuffer r b, bytes => b.Valid ∧ (r.refused = false → b.error = false ∧ b.content = bytes)

open XmemstreamOrStringBuffer

theorem holds_init (space : Option (Vector UInt8 1024)) : (init space).Holds [] := by
  cases space with
  | none => rfl
  | some space => exact ⟨valid_sbInit space, fun _ => ⟨rfl, content_sbInit space⟩⟩

/-- A byte is stored as it is, since the room is never as short as that. -/
theorem kept_byte {b : StringBuffer} (valid : b.Valid) (c : UInt8) : b.kept [c] = [c] := by
  refine if_neg fun lines => ?_
  have large := lines.large valid
  simp at large

theorem putcUnlocked_spec (c : UInt8) (holds : x.Holds bytes) :
    ∃ y, putcUnlocked m c x = some y ∧ y.Holds (bytes ++ [c]) ∧ (x.refused = true → y.refused = true) := by
  cases x with
  | xmemstream written => exact ⟨_, rfl, congrArg (· ++ [c]) holds, id⟩
  | stringBuffer r b =>
    obtain ⟨valid, stored⟩ := holds
    have short : [c].length ≤ intMax := (by decide : 1 ≤ intMax)
    obtain ⟨code, r', b', run, valid', refused, result⟩ := @append_spec m char b valid r () c short
    have appended : @sbAppendf m char r b () c = some (code, r', b') := run
    refine ⟨.stringBuffer r' b', by rw [putcUnlocked, appended]; rfl, ⟨valid', fun granted => ?_⟩, refused⟩
    obtain ⟨error, content⟩ := result granted
    obtain ⟨clear, same⟩ := stored (granted_before refused granted)
    exact ⟨error.trans clear, by rw [content, same]; exact congrArg (bytes ++ ·) (kept_byte valid c)⟩

/-- The loop stores every byte; it ends early only without memory. -/
theorem fwriteLoop_spec (chunk : List UInt8) (holds : x.Holds bytes) :
    ∃ members y, fwriteLoop m chunk x = some (members, y) ∧ y.Holds (bytes ++ chunk) ∧
      (x.refused = true → y.refused = true) ∧ (y.refused = false → members = 1) := by
  induction chunk generalizing x bytes with
  | nil => exact ⟨1, x, rfl, by rwa [List.append_nil], id, fun _ => rfl⟩
  | cons c rest ih =>
    obtain ⟨y, run, holds', refused⟩ := putcUnlocked_spec (m := m) c holds
    simp only [fwriteLoop, run]
    cases failed : y.error with
    | true =>
      have refusal : y.refused = true := by
        cases y with
        | xmemstream => cases failed
        | stringBuffer r b =>
          by_contra granted
          obtain ⟨clear, -⟩ := holds'.2 (Bool.eq_false_iff.mpr granted)
          have set : b.error = true := failed
          rw [clear] at set
          cases set
      refine ⟨0, y, rfl, ?_, refused, fun granted => ?_⟩
      · cases y with
        | xmemstream => cases failed
        | stringBuffer r b =>
          refine ⟨holds'.1, fun granted => ?_⟩
          rw [show r.refused = true from refusal] at granted
          cases granted
      · rw [refusal] at granted
        cases granted
    | false =>
      obtain ⟨members, z, run', holds'', later, all⟩ := ih holds'
      refine ⟨members, z, run', ?_, fun before => later (refused before), all⟩
      rwa [List.append_assoc] at holds''

theorem fwrite_spec {chunk : List UInt8} (nonempty : chunk ≠ []) (holds : x.Holds bytes) :
    ∃ members y, x.fwrite m chunk = some (members, y) ∧ y.Holds (bytes ++ chunk) ∧
      (x.refused = true → y.refused = true) ∧ (y.refused = false → members = 1) := by
  cases x with
  | xmemstream written => exact ⟨1, _, rfl, congrArg (· ++ chunk) holds, id, fun _ => rfl⟩
  | stringBuffer r b =>
    rw [fwrite, if_neg nonempty]
    exact fwriteLoop_spec chunk holds

/-- Closing a stream gives its bytes and a NUL, with their number. -/
theorem xfclose_spec (holds : x.Holds bytes) (granted : (x.xfclose m).2.refused = false) :
    (x.xfclose m).1 = ⟨some (bytes ++ [0]), bytes.length⟩ ∧ x.refused = false := by
  cases x with
  | xmemstream written =>
    cases holds
    exact ⟨rfl, rfl⟩
  | stringBuffer r b =>
    obtain ⟨valid, stored⟩ := holds
    obtain ⟨refused, string⟩ := sbDupfree_spec (m := m) valid r
    have before : r.refused = false := granted_before refused granted
    obtain ⟨clear, rfl⟩ := stored before
    refine ⟨?_, before⟩
    simp only [xfclose]
    rw [string granted clear, valid.length_content]

/-! ## The loop -/

variable {s t : State} {past es : List Event} {fd other : Fd} {e : Event}

private theorem written_append (fd : Fd) (es fs : List Event) :
    written fd (es ++ fs) = written fd es ++ written fd fs := by
  induction es with
  | nil => rfl
  | cons e es ih =>
    cases e with
    | write other bytes =>
      simp only [List.cons_append, written, ih]
      split_ifs
      · rw [List.append_assoc]
      · rfl
    | close | poll | idle | interrupted | chunk | eof | error | again | stop => exact ih

/-- The state of a capture after some events without a read error. -/
structure Good (past : List Event) (s : State) : Prop where
  stored : s.pc ≠ .done → ∀ fd, ∃ got, (s.streams fd).Holds got ∧ written fd past = got ++ (s.pipes fd).pending
  ended : ∀ fd, .eof fd ∈ past → s.pipes fd = ⟨[], true⟩
  events : ∀ fd, s.events fd = false ↔ .eof fd ∈ past
  looping : s.pc = .poll ∨ s.pc = .transfer .out → ∃ fd, s.events fd = true
  verified : (∀ fd, (s.streams fd).refused = false) → s.failed = false
  finished : s.pc = .done → ∀ fd, .eof fd ∈ past ∧ ((s.streams fd).refused = false →
    s.results fd = some ⟨some (written fd past ++ [0]), (written fd past).length⟩)

private theorem good_start (spaces : Option (Fd → Vector UInt8 1024)) : Good [] (start spaces) where
  stored _ fd := ⟨[], holds_init _, rfl⟩
  ended _ := nofun
  events fd := iff_of_false (fun none => by cases none) List.not_mem_nil
  looping _ := ⟨.out, rfl⟩
  verified _ := rfl
  finished := nofun

/-- An event that writes nothing leaves what was written. -/
theorem written_append_of_nil (silent : written fd [e] = []) : written fd (past ++ [e]) = written fd past := by
  rw [written_append, silent, List.append_nil]

/-- An event that ends nothing leaves what has ended. -/
theorem eof_mem_append (ends : ∀ fd, e ≠ .eof fd) (fd : Fd) : Event.eof fd ∈ past ++ [e] ↔ .eof fd ∈ past := by
  rw [List.mem_append, List.mem_singleton]
  exact or_iff_left fun equal => ends fd equal.symm

/-- An event that writes nothing and ends nothing changes nothing that is counted. -/
theorem Good.silent (good : Good past s) {pc : Pc} {revents : Fd → Bool}
    (writes : ∀ fd, written fd [e] = []) (ends : ∀ fd, e ≠ .eof fd) (running : s.pc ≠ .done) (still : pc ≠ .done)
    (looping : pc = .poll ∨ pc = .transfer .out → ∃ fd, s.events fd = true) :
    Good (past ++ [e]) { s with revents := revents, pc := pc } := by
  have same : ∀ other, Event.eof other ∈ past ++ [e] ↔ .eof other ∈ past := eof_mem_append ends
  refine ⟨fun _ fd => ?_, fun fd ended => good.ended fd ((same fd).mp ended),
    fun fd => (good.events fd).trans (same fd).symm, looping, good.verified, fun done => absurd done still⟩
  rw [written_append_of_nil (writes fd)]
  exact good.stored running fd

/-- After the transfer from the first pipe comes the second one, then the test. -/
theorem Fd.next_cases (fd : Fd) : fd.next ≠ .poll ∧ fd.next ≠ .transfer .out ∧ fd.next ≠ .done := by
  cases fd with
  | out => exact ⟨nofun, nofun, nofun⟩
  | err => exact ⟨nofun, nofun, nofun⟩

/-- The child's steps change one pipe, which it has not closed. -/
theorem Good.child {pipe : Pipe} (good : Good past s) (live : (s.pipes fd).closed = false)
    (ends : ∀ other, e ≠ .eof other) (more : List UInt8)
    (writes : ∀ other, written other [e] = if other = fd then more else [])
    (kept : pipe.pending = (s.pipes fd).pending ++ more) :
    Good (past ++ [e]) { s with pipes := Function.update s.pipes fd pipe } := by
  have same : ∀ other, Event.eof other ∈ past ++ [e] ↔ .eof other ∈ past := eof_mem_append ends
  have notEnded : .eof fd ∉ past := fun ended => by
    rw [good.ended fd ended] at live
    cases live
  refine ⟨fun running other => ?_, fun other ended => ?_, fun other => (good.events other).trans (same other).symm,
    good.looping, good.verified, fun done => absurd (good.finished done fd).1 notEnded⟩
  · obtain ⟨got, holds, all⟩ := good.stored running other
    refine ⟨got, holds, ?_⟩
    change _ = got ++ (Function.update s.pipes fd pipe other).pending
    rw [written_append, all, writes, List.append_assoc]
    by_cases here : other = fd
    · subst here
      rw [if_pos rfl, Function.update_self, kept]
    · rw [if_neg here, Function.update_of_ne here, List.append_nil]
  · have old := (same other).mp ended
    have different : other ≠ fd := by
      rintro rfl
      exact notEnded old
    change Function.update s.pipes fd pipe other = _
    rw [Function.update_of_ne different]
    exact good.ended other old

/-- A chunk goes from its pipe to its stream, and the others keep theirs. -/
theorem Good.chunk {m : Fd → Malloc} {rest : List UInt8} {members : ℕ} {stream : XmemstreamOrStringBuffer}
    (good : Good past s) (here : s.pc = .transfer fd) (available : (s.pipes fd).pending = bytes ++ rest)
    (nonempty : bytes ≠ []) (ran : (s.streams fd).fwrite (m fd) bytes = some (members, stream)) :
    Good (past ++ [.chunk fd bytes]) { s with
      pipes := Function.update s.pipes fd { s.pipes fd with pending := rest }
      streams := Function.update s.streams fd stream
      failed := s.failed || members != 1
      pc := fd.next } := by
  obtain ⟨notPoll, notOut, notDone⟩ := fd.next_cases
  have running : s.pc ≠ .done := by rw [here]; nofun
  have same : ∀ other, Event.eof other ∈ past ++ [.chunk fd bytes] ↔ .eof other ∈ past := eof_mem_append nofun
  obtain ⟨got, holds, all⟩ := good.stored running fd
  obtain ⟨members', y, ran', holds', refused, verified⟩ := fwrite_spec (m := m fd) nonempty holds
  rw [ran, Option.some.injEq, Prod.mk.injEq] at ran'
  obtain ⟨rfl, rfl⟩ := ran'
  refine ⟨fun _ other => ?_, fun other ended => ?_, fun other => (good.events other).trans (same other).symm,
    fun first => (first.elim notPoll notOut).elim, fun granted => ?_, fun done => absurd done notDone⟩
  · rw [written_append_of_nil rfl]
    by_cases same : other = fd
    · subst same
      simp only [Function.update_self]
      exact ⟨got ++ bytes, holds', by rw [all, available, List.append_assoc]⟩
    · simp only [Function.update_of_ne same]
      exact good.stored running other
  · have old := good.ended other ((same other).mp ended)
    have different : other ≠ fd := by
      rintro rfl
      rw [old] at available
      exact nonempty (List.append_eq_nil_iff.mp available.symm).1
    change Function.update s.pipes fd _ other = _
    rw [Function.update_of_ne different, old]
  · have here := granted fd
    simp only [Function.update_self] at here
    have before : s.failed = false := good.verified fun other => by
      by_cases same : other = fd
      · exact same ▸ granted_before refused here
      · have there := granted other
        simp only [Function.update_of_ne same] at there
        exact there
    change (s.failed || members != 1) = false
    rw [before, verified here]
    rfl

/-- At the end of a pipe nothing is left in it, and the loop no longer waits for it. -/
theorem Good.eof {revents : Fd → Bool} (good : Good past s) (here : s.pc = .transfer fd)
    (closed : s.pipes fd = ⟨[], true⟩) :
    Good (past ++ [.eof fd]) { s with
      events := Function.update s.events fd false
      revents := revents
      pc := fd.next } := by
  obtain ⟨notPoll, notOut, notDone⟩ := fd.next_cases
  have running : s.pc ≠ .done := by rw [here]; nofun
  refine ⟨fun _ other => ?_, fun other ended => ?_, fun other => ?_,
    fun first => (first.elim notPoll notOut).elim, good.verified, fun done => absurd done notDone⟩
  · rw [written_append_of_nil rfl]
    exact good.stored running other
  · rcases List.mem_append.mp ended with old | new
    · exact good.ended other old
    · cases List.mem_singleton.mp new
      exact closed
  · rw [List.mem_append, List.mem_singleton, Event.eof.injEq]
    change Function.update s.events fd false other = false ↔ _
    by_cases same : other = fd
    · rw [same, Function.update_self]
      exact iff_of_true rfl (.inr rfl)
    · rw [Function.update_of_ne same, good.events other]
      exact (or_iff_left same).symm

/-- When the loop waits for neither pipe, the streams hold all that was written. -/
theorem Good.stop {m : Fd → Malloc} (good : Good past s) (here : s.pc = .test) (none : ∀ fd, s.events fd = false) :
    Good (past ++ [.stop]) { s with
      results := fun fd => some ((s.streams fd).xfclose (m fd)).1
      streams := fun fd => ((s.streams fd).xfclose (m fd)).2
      pc := .done } := by
  have running : s.pc ≠ .done := by rw [here]; nofun
  have same : ∀ fd, Event.eof fd ∈ past ++ [.stop] ↔ .eof fd ∈ past := eof_mem_append nofun
  have closes : ∀ fd, ∃ got, (s.streams fd).Holds got ∧ written fd (past ++ [.stop]) = got := by
    intro fd
    obtain ⟨got, holds, all⟩ := good.stored running fd
    rw [good.ended fd ((good.events fd).mp (none fd)), List.append_nil] at all
    exact ⟨got, holds, (written_append_of_nil rfl).trans all⟩
  refine ⟨fun still => absurd rfl still, fun fd ended => good.ended fd ((same fd).mp ended),
    fun fd => (good.events fd).trans (same fd).symm, nofun, fun granted => ?_, fun _ fd => ?_⟩
  · refine good.verified fun fd => ?_
    obtain ⟨got, holds, -⟩ := closes fd
    exact (xfclose_spec holds (granted fd)).2
  · refine ⟨(same fd).mpr ((good.events fd).mp (none fd)), fun granted => ?_⟩
    obtain ⟨got, holds, rfl⟩ := closes fd
    exact congrArg some (xfclose_spec holds granted).1

theorem Good.step {m : Fd → Malloc} (good : Good past s) (noError : ∀ fd, e ≠ .error fd) (step : Step m s e t) :
    Good (past ++ [e]) t := by
  cases step with
  | @write fd bytes live =>
    refine good.child live nofun bytes (fun other => ?_) rfl
    simp only [written, List.append_nil, eq_comm]
  | close live =>
    exact good.child live nofun [] (fun other => (ite_self _).symm) (List.append_nil _).symm
  | poll here reported sound some =>
    exact good.silent (fun _ => rfl) nofun (by rw [here]; nofun) nofun fun _ => good.looping (.inl here)
  | @idle fd here none =>
    obtain ⟨notPoll, notOut, notDone⟩ := fd.next_cases
    exact good.silent (fun _ => rfl) nofun (by rw [here]; nofun) notDone fun first =>
      (first.elim notPoll notOut).elim
  | interrupted here reported =>
    exact good.silent (fun _ => rfl) nofun (by rw [here]; nofun) (by rw [here]; nofun) good.looping
  | chunk here reported available nonempty fits ran => exact good.chunk here available nonempty ran
  | eof here reported closed => exact good.eof here closed
  | error here reported => exact absurd rfl (noError _)
  | again here listening =>
    exact good.silent (fun _ => rfl) nofun (by rw [here]; nofun) nofun fun _ => ⟨_, listening⟩
  | stop here none => exact good.stop here none

private theorem good_of_run {m : Fd → Malloc} {spaces : Option (Fd → Vector UInt8 1024)} {es : List Event} {t : State}
    (run : Run (capture m) (start spaces) es t) (noError : ∀ fd, Event.error fd ∉ es) : Good es t := by
  have kept : ∀ {past : List Event} {s e u}, ((∀ fd, Event.error fd ∉ past) → Good past s) → Step m s e u →
      (∀ fd, Event.error fd ∉ past ++ [e]) → Good (past ++ [e]) u := fun good step clean =>
    (good fun fd member => clean fd (List.mem_append_left _ member)).step
      (fun fd equal => clean fd (List.mem_append_right _ (List.mem_singleton.mpr equal.symm))) step
  exact run.history (fun (past : List Event) s => (∀ fd, Event.error fd ∉ past) → Good past s) kept
    (fun _ => good_start spaces) noError

/-- After both pipes have ended nothing is polled, and nothing is left to do but the second transfer. -/
theorem Good.not_first (good : Good past s) (ended : ∀ fd, .eof fd ∈ past) :
    s.pc ≠ .poll ∧ s.pc ≠ .transfer .out := by
  rw [← not_or]
  intro first
  obtain ⟨fd, listening⟩ := good.looping first
  rw [(good.events fd).mpr (ended fd)] at listening
  cases listening

/-- Once both pipes have ended, the loop ends after the transfer that is left, if any. -/
theorem Good.stops {m : Fd → Malloc} (good : Good past s) (ended : ∀ fd, .eof fd ∈ past) :
    ∃ (fs : List Event) (u : State), fs.length ≤ 2 ∧ (∀ fd, Event.error fd ∉ fs) ∧ Run (capture m) s fs u ∧
      u.pc = .done := by
  have silent : ∀ fd, s.events fd = false := fun fd => (good.events fd).mpr (ended fd)
  obtain ⟨notPoll, notOut⟩ := good.not_first ended
  cases here : s.pc with
  | poll => exact absurd here notPoll
  | test => exact ⟨[.stop], _, by decide, by simp, .step (Step.stop here silent) (.done _), rfl⟩
  | done => exact ⟨[], s, by decide, by simp, @Run.done (capture m) s, here⟩
  | transfer fd =>
    cases fd with
    | out => exact absurd here notOut
    | err =>
      cases reported : s.revents .err with
      | false =>
        exact ⟨[.idle .err, .stop], _, by decide, by simp,
          .step (Step.idle here reported) (.step (Step.stop rfl silent) (.done _)), rfl⟩
      | true =>
        have still : ∀ fd, Function.update s.events .err false fd = false := fun fd => by
          rw [Function.update_apply, silent, ite_self]
        exact ⟨[.eof .err, .stop], _, by decide, by simp,
          .step (Step.eof here reported (good.ended .err (ended .err))) (.step (Step.stop rfl still) (.done _)), rfl⟩

/-- A capture without a read error records no failure, ends as soon as both pipes have ended, and then
holds what the child wrote to each of them, terminated, with its length. -/
theorem captures_exactly {m : Fd → Malloc} {spaces : Option (Fd → Vector UInt8 1024)} {es : List Event} {t : State}
    (run : Run (capture m) (start spaces) es t) (noError : ∀ fd, Event.error fd ∉ es) :
    ((∀ fd, (t.streams fd).refused = false) → t.failed = false) ∧
    ((∀ fd, .eof fd ∈ es) → t.pc ≠ .poll ∧ t.pc ≠ .transfer .out ∧
      ∃ (fs : List Event) (u : State), fs.length ≤ 2 ∧ (∀ fd, Event.error fd ∉ fs) ∧ Run (capture m) t fs u ∧
        u.pc = .done) ∧
    (t.pc = .done → ∀ fd, .eof fd ∈ es ∧ ((t.streams fd).refused = false →
      t.results fd = some ⟨some (written fd es ++ [0]), (written fd es).length⟩)) := by
  have good := good_of_run run noError
  refine ⟨good.verified, fun ended => ?_, good.finished⟩
  obtain ⟨notPoll, notOut⟩ := good.not_first ended
  exact ⟨notPoll, notOut, good.stops ended⟩

/-- The events of a capture of two bytes, one of them NUL, from one pipe and one from the other. -/
def shortCapture : List Event :=
  [.write .out [65, 0], .poll, .interrupted .out, .chunk .out [65], .idle .err, .again, .write .err [66],
    .close .out, .close .err, .poll, .chunk .out [0], .chunk .err [66], .again, .poll, .eof .out, .eof .err,
    .stop]

private theorem shortCapture_run : ∃ t : State,
    Run (capture fun _ => .generous) (start none) shortCapture t ∧ t.pc = .done ∧
      ∀ fd, (t.streams fd).refused = false := by
  have first : ∀ {s : State}, s.Ready .out → ∀ fd, (fd == .out) = true → s.Ready fd := fun ready fd out => by
    rw [eq_of_beq out]
    exact ready
  have both : ∀ {s : State}, s.Ready .out → s.Ready .err → ∀ fd, true = true → s.Ready fd := fun out err fd _ => by
    cases fd with
    | out => exact out
    | err => exact err
  refine ⟨_, .step (m := capture fun _ => .generous) (Step.write [65, 0] rfl)
    (.step (Step.poll rfl (· == .out) (first (.inl ⟨rfl, nofun⟩)) ⟨.out, rfl⟩)
    (.step (Step.interrupted rfl rfl)
    (.step (@Step.chunk _ _ .out [65] [0] _ _ rfl rfl rfl nofun (by decide) rfl)
    (.step (Step.idle rfl rfl)
    (.step (@Step.again _ _ .out rfl rfl)
    (.step (Step.write [66] rfl)
    (.step (Step.close rfl)
    (.step (Step.close rfl)
    (.step (Step.poll rfl (fun _ => true) (both (.inr rfl) (.inr rfl)) ⟨.out, rfl⟩)
    (.step (@Step.chunk _ _ .out [0] [] _ _ rfl rfl rfl nofun (by decide) rfl)
    (.step (@Step.chunk _ _ .err [66] [] _ _ rfl rfl rfl nofun (by decide) rfl)
    (.step (@Step.again _ _ .out rfl rfl)
    (.step (Step.poll rfl (fun _ => true) (both (.inr rfl) (.inr rfl)) ⟨.out, rfl⟩)
    (.step (Step.eof rfl rfl rfl)
    (.step (Step.eof rfl rfl rfl)
    (.step (Step.stop rfl fun fd => ?ended) (.done _))))))))))))))))), rfl, fun fd => ?granted⟩
  all_goals
    cases fd with
    | out => rfl
    | err => rfl

/-- The two captured bytes of one pipe, and the one of the other. -/
theorem shortCapture_captured : ∃ t : State, Run (capture fun _ => .generous) (start none) shortCapture t ∧
    t.results .out = some ⟨some [65, 0, 0], 2⟩ ∧ t.results .err = some ⟨some [66, 0], 1⟩ := by
  obtain ⟨t, run, done, granted⟩ := shortCapture_run
  have clean : ∀ fd, Event.error fd ∉ shortCapture := fun fd => by
    cases fd with
    | out => decide
    | err => decide
  have captured := (captures_exactly run clean).2.2 done
  exact ⟨t, run, (captured .out).2 (granted .out), (captured .err).2 (granted .err)⟩

end Yalibct.Capture
