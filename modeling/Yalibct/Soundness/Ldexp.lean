import Mathlib.Algebra.Field.Rat
import Mathlib.Algebra.Order.Ring.Rat
import Mathlib.Data.Nat.Bitwise
import Mathlib.Tactic.Linarith
import Mathlib.Tactic.Ring
import Yalibct.Model.Ldexp

/-! # Multiplying by a power of two

The loop multiplies by one square for each bit of the exponent. To leave it, the next bit must be an
`int`, so the exponent has to be below 2³⁰.
-/

namespace Yalibct.Ldexp

open Machine

variable {base x : ℚ} {exp i : ℕ}

/-- One more bit of an exponent. -/
theorem pow_mod_two_pow_succ {M : Type*} [Monoid M] (b : M) (n i : ℕ) :
    b ^ (n % 2 ^ (i + 1)) = if n &&& 2 ^ i ≠ 0 then b ^ (n % 2 ^ i) * b ^ 2 ^ i else b ^ (n % 2 ^ i) := by
  have bit : n &&& 2 ^ i = 2 ^ i * (n / 2 ^ i % 2) := by
    rw [Nat.and_two_pow, Nat.toNat_testBit, Nat.mul_comm]
  rw [Nat.mod_pow_succ, bit]
  rcases Nat.mod_two_eq_zero_or_one (n / 2 ^ i) with even | odd
  · simp [even]
  · simp [odd, pow_add]

/-- At the bit `2 ^ i`, the bits below are multiplied. -/
theorem ldexpLoop_spec (base x : ℚ) (below : 2 ^ i ≤ exp) (positive : 0 < 2 ^ i) :
    ldexpLoop exp (x * base ^ (exp % 2 ^ i)) (base ^ 2 ^ i) (2 ^ i) positive =
      if exp < 2 ^ 30 then .ok (x * base ^ exp) else .error .undefined := by
  induction left : 30 - i generalizing i with
  | zero =>
    have large : 2 ^ 30 ≤ 2 ^ i := Nat.pow_le_pow_right Nat.two_pos (Nat.le_of_sub_eq_zero left)
    rw [ldexpLoop, if_pos (by rw [intMax]; omega), if_neg (by omega)]
  | succ rounds ih =>
    have small : 2 ^ i ≤ 2 ^ 29 := Nat.pow_le_pow_right Nat.two_pos (by omega)
    have double : 2 * 2 ^ i = 2 ^ (i + 1) := (Nat.pow_succ').symm
    have multiplied : (if exp &&& 2 ^ i ≠ 0 then x * base ^ (exp % 2 ^ i) * base ^ 2 ^ i else x * base ^ (exp % 2 ^ i)) =
        x * base ^ (exp % 2 ^ (i + 1)) := by
      rw [pow_mod_two_pow_succ]
      split_ifs
      · exact mul_assoc ..
      · rfl
    have squared : base ^ 2 ^ i * base ^ 2 ^ i = base ^ 2 ^ (i + 1) := by
      rw [← pow_add, ← double, Nat.two_mul]
    rw [ldexpLoop, if_neg (by rw [intMax]; omega)]
    simp only [multiplied, double, squared]
    by_cases last : exp < 2 ^ (i + 1)
    · rw [if_pos last, if_pos (by omega), Nat.mod_eq_of_lt last]
    · rw [if_neg last]
      exact ih (Nat.le_of_not_lt last) _ (by omega)

/-- The whole loop. -/
theorem ldexpLoop_one (base x : ℚ) (some : 0 < exp) :
    ldexpLoop exp x base 1 Nat.one_pos = if exp < 2 ^ 30 then .ok (x * base ^ exp) else .error .undefined := by
  have loop := @ldexpLoop_spec exp 0 base x some Nat.one_pos
  simpa only [pow_zero, Nat.mod_one, mul_one, pow_one] using loop

/-- With an exponent that is not negative. -/
theorem ldexp_natCast (exp : ℕ) (nonzero : x ≠ 0) :
    ldexp x exp = if exp < 2 ^ 30 then .ok (x * 2 ^ exp) else .error .undefined := by
  have finite : ¬ x + x = x := fun same => nonzero (by linarith)
  simp only [ldexp, finite, ↓reduceIte, Int.not_lt.mpr (Int.natCast_nonneg exp)]
  change (if (0 : ℤ) < exp then ldexpLoop (exp : ℤ).toNat x 2 1 Nat.one_pos else .ok x) = _
  rcases Nat.eq_zero_or_pos exp with rfl | some
  · simp
  · rw [if_pos (Int.natCast_pos.mpr some)]
    exact ldexpLoop_one 2 x some

/-- With a negative exponent that has an opposite. -/
theorem ldexp_neg (nonzero : x ≠ 0) (some : 0 < exp) (bound : exp ≤ intMax) :
    ldexp x (-exp) = if exp < 2 ^ 30 then .ok (x * (1 / 2) ^ exp) else .error .undefined := by
  have finite : ¬ x + x = x := fun same => nonzero (by linarith)
  have negative : (-exp : ℤ) < 0 := by omega
  have opposite : toInt (-(-exp)) = .ok (exp : ℤ) := by
    rw [Int.neg_neg]
    apply toInt_of_isInt
    rw [IsInt, intMin]
    omega
  simp only [ldexp, finite, ↓reduceIte, negative, opposite]
  change (if (0 : ℤ) < exp then ldexpLoop (exp : ℤ).toNat x (1 / 2) 1 Nat.one_pos else .ok x) = _
  rw [if_pos (Int.natCast_pos.mpr some), Int.toNat_natCast, ldexpLoop_one (1 / 2) x some]

/-- The lowest `int` has no opposite. -/
theorem ldexp_intMin (nonzero : x ≠ 0) : ldexp x intMin = .error .undefined := by
  have finite : ¬ x + x = x := fun same => nonzero (by linarith)
  have none : toInt (-intMin) = .error .undefined := rfl
  simp only [ldexp, finite, ↓reduceIte, show intMin < 0 by decide, none]
  rfl

/-- A finite number is multiplied by the power of two if and only if the exponent is between -2³⁰ and
2³⁰; otherwise an `int` overflows. -/
theorem ldexp_exact_iff {x : ℚ} (nonzero : x ≠ 0) {exp : ℤ} (int : IsInt exp) :
    ldexp x exp = .ok (x * 2 ^ exp) ↔ -2 ^ 30 < exp ∧ exp < 2 ^ 30 := by
  obtain ⟨lower, upper⟩ := int
  rcases lt_or_ge exp 0 with negative | natural
  · obtain ⟨n, rfl⟩ : ∃ n : ℕ, exp = -n := ⟨exp.natAbs, by omega⟩
    rcases Nat.lt_or_ge intMax n with lowest | bound
    · have same : (-n : ℤ) = intMin := by
        rw [intMin] at lower ⊢
        rw [intMax] at lowest
        omega
      rw [same, ldexp_intMin nonzero, intMin]
      simp
    · rw [ldexp_neg nonzero (by omega) bound, zpow_neg, zpow_natCast, one_div, inv_pow]
      split_ifs with small
      · simp only [true_iff]
        omega
      · simp only [false_iff]
        omega
  · obtain ⟨n, rfl⟩ := Int.eq_ofNat_of_zero_le natural
    rw [ldexp_natCast n nonzero, zpow_natCast]
    split_ifs with small
    · simp only [true_iff]
      omega
    · simp only [false_iff]
      omega

/-- Five, three bits to the right. -/
theorem ldexp_five : ldexp 5 (-3) = .ok (5 * 2 ^ (-3 : ℤ)) ↔ (-2 ^ 30 < (-3 : ℤ) ∧ (-3 : ℤ) < 2 ^ 30) :=
  ldexp_exact_iff (by decide) (by decide)

/-- With the exponent 2³⁰, the next bit is no `int`; and the lowest `int` has no opposite. -/
theorem ldexp_overflows : ldexp 1 (2 ^ 30) = .error .undefined ∧ ldexp 1 intMin = .error .undefined := by
  have large := ldexp_natCast (2 ^ 30) (one_ne_zero (α := ℚ))
  rw [if_neg (Nat.lt_irrefl _)] at large
  exact ⟨large, ldexp_intMin one_ne_zero⟩

end Yalibct.Ldexp
