import Mathlib.Data.List.Perm.Basic
import Mathlib.Logic.Function.Basic
import Mathlib.Tactic.SplitIfs

/-! # Linked chains

The nodes of a chain are named by addresses, each leads to the next, and address zero ends the
chain. Chains that share no node can be changed independently of each other.
-/

namespace Yalibct.Machine

/-- From an address, the nodes of the list follow each other and end the chain. -/
def Chain (next : ℕ → ℕ) : ℕ → List ℕ → Prop
  | p, [] => p = 0
  | p, q :: qs => p = q ∧ q ≠ 0 ∧ Chain next (next q) qs

/-- The nodes from an address on, if there are no more than the fuel. -/
def follow (next : ℕ → ℕ) : ℕ → ℕ → Option (List ℕ)
  | 0, p => if p = 0 then some [] else none
  | fuel + 1, p => if p = 0 then some [] else (follow next fuel (next p)).map (p :: ·)

namespace Chain

variable {next next' : ℕ → ℕ} {p q : ℕ} {ps qs qs' : List ℕ}

theorem of_zero (chain : Chain next 0 ps) : ps = [] := by
  cases ps with
  | nil => rfl
  | cons q qs => exact absurd chain.1.symm chain.2.1

theorem of_ne_zero (chain : Chain next p ps) (nonzero : p ≠ 0) :
    ∃ qs, ps = p :: qs ∧ Chain next (next p) qs := by
  cases ps with
  | nil => exact absurd chain nonzero
  | cons q qs =>
    obtain ⟨rfl, -, rest⟩ := chain
    exact ⟨qs, rfl, rest⟩

theorem ne_zero (chain : Chain next p ps) (member : q ∈ ps) : q ≠ 0 := by
  induction ps generalizing p with
  | nil => cases member
  | cons r rs ih =>
    cases List.mem_cons.mp member with
    | inl here => exact here ▸ chain.2.1
    | inr later => exact ih chain.2.2 later

/-- There is only one chain from an address on. -/
theorem eq_of_follow {fuel : ℕ} (chain : Chain next p ps) (followed : follow next fuel p = some qs) : ps = qs := by
  induction fuel generalizing p ps qs with
  | zero =>
    rw [follow] at followed
    split_ifs at followed with last
    cases followed
    subst last
    exact chain.of_zero
  | succ fuel ih =>
    rw [follow] at followed
    split_ifs at followed with last
    · cases followed
      subst last
      exact chain.of_zero
    · obtain ⟨rest, later, rfl⟩ := Option.map_eq_some_iff.mp followed
      obtain ⟨others, rfl, tail⟩ := chain.of_ne_zero last
      rw [ih tail later]

/-- Only the links of its own nodes matter. -/
theorem frame (chain : Chain next p ps) (same : ∀ q ∈ ps, next' q = next q) : Chain next' p ps := by
  induction ps generalizing p with
  | nil => exact chain
  | cons q qs ih =>
    refine ⟨chain.1, chain.2.1, ?_⟩
    rw [same q (List.mem_cons_self ..)]
    exact ih chain.2.2 fun r member => same r (List.mem_cons_of_mem _ member)

/-- The rest of a chain is a chain. -/
theorem suffix (chain : Chain next p (ps ++ q :: qs)) : Chain next (next q) qs := by
  induction ps generalizing p with
  | nil => exact chain.2.2
  | cons r rs ih => exact ih chain.2.2

/-- Leading the last of some nodes to the end of another chain joins the two. -/
theorem join {r last : ℕ} (chain : Chain next p (ps ++ last :: qs)) (other : Chain next' r qs')
    (same : ∀ x ∈ ps, next' x = next x) (led : next' last = r) : Chain next' p (ps ++ last :: qs') := by
  induction ps generalizing p with
  | nil => exact ⟨chain.1, chain.2.1, led ▸ other⟩
  | cons x xs ih =>
    refine ⟨chain.1, chain.2.1, ?_⟩
    rw [same x (List.mem_cons_self ..)]
    exact ih chain.2.2 fun y member => same y (List.mem_cons_of_mem _ member)

end Chain

/-! ## Replacing one element of a list of lists -/

/-- What one element changes, the whole changes. -/
theorem flatMap_set_perm {α β : Type} {f g : α → List β} {rows : List α} {i : ℕ} {r r' : α}
    {left right : List β} (here : rows[i]? = some r)
    (agree : ∀ j x, j ≠ i → rows[j]? = some x → g x = f x)
    (change : (left ++ g r').Perm (right ++ f r)) :
    (left ++ (rows.set i r').flatMap g).Perm (right ++ rows.flatMap f) := by
  induction rows generalizing i with
  | nil => cases here
  | cons x xs ih =>
    cases i with
    | zero =>
      cases here
      have others : xs.flatMap g = xs.flatMap f := by
        apply List.flatMap_congr
        intro y member
        obtain ⟨j, bound, rfl⟩ := List.getElem_of_mem member
        exact agree (j + 1) _ (Nat.succ_ne_zero j) (List.getElem?_eq_getElem bound)
      simp only [List.set_cons_zero, List.flatMap_cons, others, ← List.append_assoc]
      exact change.append_right _
    | succ i =>
      have first : g x = f x := agree 0 x (Nat.succ_ne_zero i).symm rfl
      have rest := ih here fun j y other there => agree (j + 1) y (by omega) there
      simp only [List.set_cons_succ, List.flatMap_cons, first]
      calc left ++ (f x ++ (xs.set i r').flatMap g)
          _ = (left ++ f x) ++ (xs.set i r').flatMap g := (List.append_assoc ..).symm
          _ |>.Perm ((f x ++ left) ++ (xs.set i r').flatMap g) := List.perm_append_comm.append_right _
          _ = f x ++ (left ++ (xs.set i r').flatMap g) := List.append_assoc ..
          _ |>.Perm (f x ++ (right ++ xs.flatMap f)) := rest.append_left _
          _ = (f x ++ right) ++ xs.flatMap f := (List.append_assoc ..).symm
          _ |>.Perm ((right ++ f x) ++ xs.flatMap f) := List.perm_append_comm.append_right _
          _ = right ++ (f x ++ xs.flatMap f) := List.append_assoc ..

end Yalibct.Machine
