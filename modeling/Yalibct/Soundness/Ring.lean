import Mathlib.Tactic.SplitIfs
import Yalibct.Model.Ring

/-! # The ring is a stack that forgets

Of the values pushed and not popped it holds the latest four.
-/

namespace Yalibct.IRing

variable {ir : IRing} {x : ℤ} {xs : List ℤ}

/-- The values in the ring, the latest one first. -/
structure Holds (ir : IRing) (xs : List ℤ) : Prop where
  bound : xs.length ≤ 4
  empty : ir.irEmpty = xs.isEmpty
  back : ir.irBack = ir.irFront - Fin.ofNat 4 (xs.length - 1)
  data : ∀ i, ir.irData i = xs.getD (ir.irFront - i).val ir.irDefaultVal

/-! ## Indices modulo four -/

private theorem sub_nothing : ∀ front : Fin 4, front - Fin.ofNat 4 0 = front := by decide

private theorem add_nothing : ∀ front : Fin 4, front + 0 = front := by decide

/-- The distance of a slot grows with the front, but for the new front. -/
theorem distance_succ : ∀ {front i : Fin 4}, i ≠ front + 1 → (front + 1 - i).val = (front - i).val + 1 := by
  decide

private theorem distance_pred : ∀ {front i : Fin 4}, i ≠ front → (front - i).val = (front - 1 - i).val + 1 := by
  decide

private theorem distance_eq_zero : ∀ {front i : Fin 4}, (front - i).val = 0 → i = front := by decide

private theorem distance_next : ∀ front : Fin 4, (front - (front + 1)).val = 3 := by decide

private theorem distance_last : ∀ front : Fin 4, (front - 1 - front).val = 3 := by decide

/-- The back moves only when the front reaches it, that is, when there are four values. -/
theorem back_push : ∀ (n : Fin 4) (front : Fin 4),
    (if front + 1 = front - Fin.ofNat 4 n.val then front - Fin.ofNat 4 n.val + 1 else front - Fin.ofNat 4 n.val) =
      front + 1 - Fin.ofNat 4 (min 4 (n.val + 1 + 1) - 1) := by
  decide

private theorem back_pop : ∀ (n : Fin 4) (front : Fin 4), n.val ≠ 0 →
    front - Fin.ofNat 4 n.val = front - 1 - Fin.ofNat 4 (n.val - 1) := by
  decide

private theorem front_ne_back : ∀ (n : Fin 4) (front : Fin 4), n.val ≠ 0 → front ≠ front - Fin.ofNat 4 n.val := by
  decide

/-! ## Push and pop -/

theorem holds_init (defaultVal : ℤ) : (init defaultVal).Holds [] where
  bound := Nat.zero_le 4
  empty := rfl
  back := (sub_nothing _).symm
  data _ := rfl

theorem Holds.step (holds : ir.Holds xs) : ir.step = if xs = [] then 0 else 1 := by
  rw [IRing.step, holds.empty]
  cases xs with
  | nil => rfl
  | cons x xs => rfl

/-- The value that is displaced is the fourth latest, or the default. -/
theorem Holds.push (holds : ir.Holds xs) (val : ℤ) :
    (ir.push val).1 = xs.getD 3 ir.irDefaultVal ∧ (ir.push val).2.Holds ((val :: xs).take 4) ∧
      (ir.push val).2.irDefaultVal = ir.irDefaultVal := by
  have step := holds.step
  cases xs with
  | nil =>
    rw [if_pos rfl] at step
    have back : ir.irBack = ir.irFront := holds.back.trans (sub_nothing _)
    simp only [IRing.push, step, add_nothing]
    refine ⟨holds.data _, ⟨List.length_take_le 4 _, rfl, ?_, fun i => ?_⟩, trivial⟩
    · simp only [back, ↓reduceIte]
      exact (sub_nothing _).symm
    · simp only [Function.update_apply]
      split_ifs with here
      · simp only [here, Fin.sub_self]
        rfl
      · have far : (ir.irFront - i).val ≠ 0 := fun zero => here (distance_eq_zero zero)
        obtain ⟨n, far⟩ := Nat.exists_eq_succ_of_ne_zero far
        rw [holds.data, far]
        rfl
  | cons x xs =>
    rw [if_neg (List.cons_ne_nil x xs)] at step
    simp only [IRing.push, step]
    refine ⟨?_, ⟨List.length_take_le 4 _, rfl, ?_, fun i => ?_⟩, trivial⟩
    · rw [holds.data, distance_next]
    · have back := back_push ⟨xs.length, holds.bound⟩ ir.irFront
      rw [holds.back]
      simp only [List.length_take, List.length_cons, Nat.add_sub_cancel]
      exact back
    · simp only [Function.update_apply]
      split_ifs with here
      · simp only [here, Fin.sub_self]
        rfl
      · have near : (ir.irFront - i).val + 1 < 4 := by
          rw [← distance_succ here]
          exact Fin.isLt _
        simp only [holds.data, distance_succ here, List.getD_eq_getElem?_getD, List.getElem?_take_of_lt near,
          List.getElem?_cons_succ]

theorem Holds.pop_nil (holds : ir.Holds []) : ir.pop = none := by
  rw [IRing.pop, holds.empty]
  rfl

theorem Holds.pop_cons (holds : ir.Holds (x :: xs)) :
    ∃ ir', ir.pop = some (x, ir') ∧ ir'.Holds xs ∧ ir'.irDefaultVal = ir.irDefaultVal := by
  have top : ir.irData ir.irFront = x := by
    rw [holds.data, Fin.sub_self]
    rfl
  have full : ir.irEmpty = false := holds.empty
  have back : ir.irBack = ir.irFront - Fin.ofNat 4 xs.length := holds.back
  simp only [IRing.pop, full, Bool.false_eq_true, ↓reduceIte, top]
  refine ⟨_, rfl, ?_⟩
  cases xs with
  | nil =>
    have last : ir.irFront = ir.irBack := (back.trans (sub_nothing _)).symm
    rw [if_pos last]
    refine ⟨⟨Nat.zero_le 4, rfl, last.symm.trans (sub_nothing _).symm, fun i => ?_⟩, rfl⟩
    simp only [Function.update_apply]
    split_ifs with here
    · rfl
    · have far : (ir.irFront - i).val ≠ 0 := fun zero => here (distance_eq_zero zero)
      obtain ⟨n, far⟩ := Nat.exists_eq_succ_of_ne_zero far
      rw [holds.data, far]
      rfl
  | cons y ys =>
    have positive : ((⟨(y :: ys).length, holds.bound⟩ : Fin 4).val) ≠ 0 := Nat.succ_ne_zero _
    have more : ir.irFront ≠ ir.irBack := back ▸ front_ne_back _ _ positive
    rw [if_neg more]
    refine ⟨⟨Nat.le_of_succ_le holds.bound, rfl, ?_, fun i => ?_⟩, rfl⟩
    · exact back.trans (back_pop _ _ positive)
    · simp only [Function.update_apply]
      split_ifs with here
      · rw [here, distance_last, List.getD_eq_getElem?_getD, List.getElem?_eq_none (Nat.le_of_succ_le_succ holds.bound)]
        rfl
      · rw [holds.data, distance_pred here, List.getD_cons_succ]

end Yalibct.IRing
