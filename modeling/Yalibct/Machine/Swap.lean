import Mathlib.Data.List.Basic

/-! # Swapping blocks of a list

Two elements change places, or two blocks of the same length do, one pair of elements at a time.
-/

namespace Yalibct.Machine

variable {α : Type}

def swap (xs : List α) (i j : ℕ) : List α :=
  match xs[i]?, xs[j]? with
  | some x, some y => (xs.set i y).set j x
  | _, _ => xs

/-- Swap as many elements from two places on. -/
def swapBlocks (xs : List α) (i j : ℕ) : ℕ → List α
  | 0 => xs
  | count + 1 => swapBlocks (swap xs i j) (i + 1) (j + 1) count

theorem swap_append (before middle after : List α) (x y : α) :
    swap (before ++ x :: middle ++ y :: after) before.length (before.length + 1 + middle.length) =
      before ++ y :: middle ++ x :: after := by
  have first : (before ++ x :: middle ++ y :: after)[before.length]? = some x := by simp
  have length : (before ++ x :: middle).length = before.length + 1 + middle.length := by
    simp only [List.length_append, List.length_cons]
    omega
  have second : (before ++ x :: middle ++ y :: after)[before.length + 1 + middle.length]? = some y := by
    rw [← length, List.getElem?_append_right (Nat.le_refl _), Nat.sub_self]
    rfl
  rw [swap, first, second]
  have setFirst : (before ++ x :: middle ++ y :: after).set before.length y =
      before ++ y :: middle ++ y :: after := by simp
  have length' : (before ++ y :: middle).length = before.length + 1 + middle.length := by
    simp only [List.length_append, List.length_cons]
    omega
  simp only [setFirst]
  rw [← length', List.set_append_right _ _ (Nat.le_refl _), Nat.sub_self]
  rfl

/-- The blocks change places, and what is between them stays. -/
theorem swapBlocks_append {left right : List α} (same : left.length = right.length)
    (before middle after : List α) :
    swapBlocks (before ++ left ++ middle ++ right ++ after) before.length
        (before.length + left.length + middle.length) left.length =
      before ++ right ++ middle ++ left ++ after := by
  induction left generalizing right before middle with
  | nil =>
    cases right with
    | nil => rfl
    | cons y ys => cases same
  | cons x xs ih =>
    cases right with
    | nil => cases same
    | cons y ys =>
      have swapped : swap (before ++ x :: xs ++ middle ++ y :: ys ++ after) before.length
          (before.length + (x :: xs).length + middle.length) =
          (before ++ [y]) ++ xs ++ (middle ++ [x]) ++ ys ++ after := by
        have one := swap_append before (xs ++ middle) (ys ++ after) x y
        simp only [List.length_append, List.append_assoc, List.cons_append, List.length_cons] at one ⊢
        rw [show before.length + (xs.length + 1) + middle.length =
          before.length + 1 + (xs.length + middle.length) by omega, one]
        simp
      have rest := ih (Nat.succ.inj same) (before ++ [y]) (middle ++ [x])
      rw [List.length_cons, swapBlocks, ← List.length_cons, swapped]
      simp only [List.length_append, List.length_cons, List.length_nil, Nat.zero_add] at rest ⊢
      rw [show before.length + (xs.length + 1) + middle.length + 1 =
        before.length + 1 + xs.length + (middle.length + 1) by omega, rest]
      simp

end Yalibct.Machine
