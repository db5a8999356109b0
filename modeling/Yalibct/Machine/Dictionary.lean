import Mathlib.Data.Multiset.AddSub
import Yalibct.Machine.Run

/-! # Dictionaries

A dictionary stores entries and finds them by a relation to the entry that is asked for. An entry
is stored only if none like it is. When the relation is an equivalence, the entry that a call
finds is determined.
-/

namespace Yalibct.Machine

namespace Dictionary

inductive Op (α : Type) where
  | insert (entry : α)
  | lookup (entry : α)
  | remove (entry : α)

variable {α : Type} [DecidableEq α] (same : α → α → Prop)

/-- What a call may return, and what is stored after it. -/
inductive Step : Multiset α → Op α × Option α → Multiset α → Prop
  | insert {S e} (absent : ∀ d ∈ S, ¬ same e d) : Step S (.insert e, some e) (e ::ₘ S)
  | present {S e d} (stored : d ∈ S) (found : same e d) : Step S (.insert e, some d) S
  | lookup {S e d} (stored : d ∈ S) (found : same e d) : Step S (.lookup e, some d) S
  | missing {S e} (absent : ∀ d ∈ S, ¬ same e d) : Step S (.lookup e, none) S
  | remove {S e d} (stored : d ∈ S) (found : same e d) : Step S (.remove e, some d) (S.erase d)
  | nothing {S e} (absent : ∀ d ∈ S, ¬ same e d) : Step S (.remove e, none) S

end Dictionary

/-- The runs of a dictionary. -/
def dictionary {α : Type} [DecidableEq α] (same : α → α → Prop) : System where
  State := Multiset α
  Event := Dictionary.Op α × Option α
  Step := Dictionary.Step same

namespace Dictionary

variable {α : Type} [DecidableEq α] {same : α → α → Prop} {S T : Multiset α}

/-- No two stored entries are the same. -/
def Separate (same : α → α → Prop) (S : Multiset α) : Prop := ∀ x ∈ S, ∀ y ∈ S.erase x, ¬ same x y

theorem Separate.step (symmetric : ∀ x y, same x y → same y x) {e : Op α × Option α}
    (separate : Separate same S) (step : Step same S e T) : Separate same T := by
  cases step with
  | @insert e absent =>
    intro x member y other alike
    rcases Decidable.em (x = e) with rfl | differ
    · rw [Multiset.erase_cons_head] at other
      exact absent y other alike
    · have stored := (Multiset.mem_cons.mp member).resolve_left differ
      rw [Multiset.erase_cons_tail_of_mem stored] at other
      rcases Multiset.mem_cons.mp other with rfl | other
      · exact absent x stored (symmetric _ _ alike)
      · exact separate x stored y other alike
  | remove =>
    intro x member y other
    rw [Multiset.erase_comm] at other
    exact separate x (Multiset.mem_of_mem_erase member) y (Multiset.mem_of_mem_erase other)
  | present | lookup | missing | nothing => exact separate

/-- A call can find one entry only. -/
theorem unique_of_run (equivalence : Equivalence same) {es : List (Op α × Option α)}
    (run : Run (dictionary same) (0 : Multiset α) es S) {e x y : α} (left : x ∈ S) (right : y ∈ S)
    (first : same e x) (second : same e y) : x = y := by
  have separate : Separate same S :=
    Run.invariant (m := dictionary same) (Separate same)
      (fun separate step => separate.step (fun _ _ => equivalence.symm) step) run nofun
  by_contra differ
  have other : y ∈ S.erase x := (Multiset.mem_erase_of_ne (Ne.symm differ)).mpr right
  exact separate x left y other (equivalence.trans (equivalence.symm first) second)

/-- What is stored stays until something is removed. -/
theorem stored_of_run {es : List (Op α × Option α)} (run : Run (dictionary same) S es T)
    (kept : ∀ e ∈ es, ∀ x, e.1 ≠ .remove x) {d : α} (stored : d ∈ S) : d ∈ T := by
  refine Run.invariant_of_events (m := dictionary same) (fun U : Multiset α => d ∈ U) ?_ run kept stored
  intro U e V stays stored step
  cases step with
  | insert absent => exact Multiset.mem_cons_of_mem stored
  | remove => exact absurd rfl (stays _)
  | present | lookup | missing | nothing => exact stored

end Dictionary

end Yalibct.Machine
