import Mathlib.Logic.Basic

/-! # Labelled systems, their finite runs and the invariants of runs

A `System` has states, events and a step relation; a `Run` is a finite sequence of steps that
records its events in order. An invariant that every step keeps holds at the end of every run,
and the same for a relation to the initial state. Restricting a system by a guard on the state
before each step describes the runs all of whose steps meet that guard.
-/

namespace Yalibct.Machine

/-- States, events, and the steps an event may cause. -/
structure System where
  State : Type
  Event : Type
  Step : State → Event → State → Prop

namespace System

/-- The steps that an event selects through a partial function. -/
def ofStep {State Event : Type} (step : State → Event → Option State) : System where
  State := State
  Event := Event
  Step s e t := step s e = some t

/-- Only the steps whose source and event meet the guard. -/
def restrict (m : System) (guard : m.State → m.Event → Prop) : System where
  State := m.State
  Event := m.Event
  Step s e t := guard s e ∧ m.Step s e t

end System

/-- A finite run from its source, by its events, to its target. -/
inductive Run (m : System) : m.State → List m.Event → m.State → Prop
  | done (s : m.State) : Run m s [] s
  | step {s mid t : m.State} {e : m.Event} {es : List m.Event}
      (first : m.Step s e mid) (rest : Run m mid es t) : Run m s (e :: es) t

namespace Run

variable {m : System}

/-- Two runs that meet form one run. -/
theorem trans {s mid t : m.State} {es fs : List m.Event} (left : Run m s es mid)
    (right : Run m mid fs t) : Run m s (es ++ fs) t := by
  induction left with
  | done _ => exact right
  | step first _ ih => exact .step first (ih right)

/-- A run of one event is a step. -/
theorem step_of_single {s t : m.State} {e : m.Event} (run : Run m s [e] t) : m.Step s e t := by
  cases run with
  | step first rest =>
    cases rest
    exact first

/-- A run can be cut between any two events. -/
theorem split {s t : m.State} {es fs : List m.Event} (run : Run m s (es ++ fs) t) :
    ∃ mid, Run m s es mid ∧ Run m mid fs t := by
  induction es generalizing s with
  | nil => exact ⟨s, .done s, run⟩
  | cons e es ih =>
    cases run with
    | step first rest =>
      obtain ⟨mid, before, after⟩ := ih rest
      exact ⟨mid, .step first before, after⟩

/-- What every step keeps holds at the end of a run that starts in it. -/
theorem invariant (inv : m.State → Prop)
    (keeps : ∀ {s e t}, inv s → m.Step s e t → inv t)
    {s t : m.State} {es : List m.Event} (run : Run m s es t) (initial : inv s) : inv t := by
  induction run with
  | done _ => exact initial
  | step first _ ih => exact ih (keeps initial first)

/-- What the steps of some events keep, runs of these events keep. -/
theorem invariant_of_events {p : m.Event → Prop} (inv : m.State → Prop)
    (keeps : ∀ {s e t}, p e → inv s → m.Step s e t → inv t)
    {s t : m.State} {es : List m.Event} (run : Run m s es t) (events : ∀ e ∈ es, p e)
    (initial : inv s) : inv t := by
  induction run with
  | done _ => exact initial
  | step first _ ih =>
    exact ih (fun f member => events f (List.mem_cons_of_mem _ member))
      (keeps (events _ (List.mem_cons_self ..)) initial first)

/-- An invariant that also speaks of the events consumed so far. -/
theorem history (inv : List m.Event → m.State → Prop)
    (keeps : ∀ {past s e t}, inv past s → m.Step s e t → inv (past ++ [e]) t)
    {s t : m.State} {es past : List m.Event} (run : Run m s es t) (initial : inv past s) :
    inv (past ++ es) t := by
  induction run generalizing past with
  | done _ => simpa using initial
  | step first _ ih => simpa using ih (keeps initial first)

/-- A run that leaves a set of states does so in one of its steps. -/
theorem crossing (p : m.State → Prop) {s t : m.State} {es : List m.Event} (run : Run m s es t) (initial : p s)
    (final : ¬ p t) : ∃ past e rest a b, es = past ++ e :: rest ∧ Run m s past a ∧ p a ∧ m.Step a e b ∧ ¬ p b ∧
      Run m b rest t := by
  induction run with
  | done _ => exact absurd initial final
  | @step s mid t e es first rest ih =>
    by_cases inside : p mid
    · obtain ⟨past, e', rest', a, b, rfl, before, here, crosses, outside, after⟩ := ih inside final
      exact ⟨e :: past, e', rest', a, b, rfl, .step first before, here, crosses, outside, after⟩
    · exact ⟨[], e, es, s, mid, rfl, .done s, initial, first, inside, rest⟩

/-- The steps of a partial function can be computed. -/
theorem of_foldlM {State Event : Type} {step : State → Event → Option State} {s t : State} {es : List Event}
    (computed : es.foldlM step s = some t) : Run (System.ofStep step) s es t := by
  induction es generalizing s with
  | nil =>
    cases computed
    exact .done (m := System.ofStep step) _
  | cons e es ih =>
    obtain ⟨mid, first, rest⟩ := Option.bind_eq_some_iff.mp computed
    exact .step (m := System.ofStep step) first (ih rest)

/-- A guarded run is a run. -/
theorem of_restrict {guard : m.State → m.Event → Prop} {s t : (m.restrict guard).State}
    {es : List (m.restrict guard).Event} (run : Run (m.restrict guard) s es t) :
    Run (m := m) s es t := by
  induction run with
  | done s => exact .done (m := m) s
  | step first _ ih => exact .step (m := m) first.2 ih

end Run

end Yalibct.Machine
