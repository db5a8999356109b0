import Mathlib.Algebra.Order.Field.Rat
import Mathlib.Data.Nat.Cast.Order.Field
import Mathlib.Data.Rat.Lemmas
import Mathlib.Tactic.FieldSimp
import Mathlib.Tactic.Linarith
import Mathlib.Tactic.NormNum
import Mathlib.Tactic.Positivity
import Yalibct.Machine.Binary32

/-! # Bounds on rounded results

Rounding keeps signs, is never off by more than the number itself and one, and does not round a
number that is at least one to zero. These bounds are coarse, but they hold for every rational.
-/

namespace Yalibct.Machine.Binary32

/-- Zero, positive or positive infinity. -/
def Nonneg : Binary32 → Prop
  | .nan => False
  | .inf negative => negative = false
  | .finite q => 0 ≤ q

def Positive : Binary32 → Prop
  | .nan => False
  | .inf negative => negative = false
  | .finite q => 0 < q

theorem Positive.nonneg {x : Binary32} (positive : x.Positive) : x.Nonneg := by
  cases x with
  | nan => exact positive
  | inf negative => exact positive
  | finite q => exact le_of_lt positive

theorem roundQuotient_le (num den : ℕ) : roundQuotient num den ≤ num / den + 1 := by
  simp only [roundQuotient]
  split_ifs <;> omega

theorem le_roundQuotient (num den : ℕ) : num / den ≤ roundQuotient num den := by
  simp only [roundQuotient]
  split_ifs <;> omega

/-- The unit in the last place of a number is not above it, except for numbers below one. -/
theorem lastPlace_le {num den : ℕ} (positive : 0 < num)
    (large : 0 ≤ lastPlace num den) : den * 2 ^ (lastPlace num den).toNat ≤ num := by
  have numLow : 2 ^ num.log2 ≤ num := Nat.log2_self_le (by omega)
  have denHigh : den < 2 ^ (den.log2 + 1) := Nat.lt_log2_self
  -- A power of two that leaves room for the leading bit of the denominator is small enough.
  have bounded : ∀ e : ℕ, den.log2 + 1 + e ≤ num.log2 → den * 2 ^ e ≤ num := fun e room =>
    calc den * 2 ^ e
      _ ≤ 2 ^ (den.log2 + 1) * 2 ^ e := Nat.mul_le_mul_right _ (le_of_lt denHigh)
      _ = 2 ^ (den.log2 + 1 + e) := (pow_add ..).symm
      _ ≤ 2 ^ num.log2 := Nat.pow_le_pow_right (by decide) room
      _ ≤ num := numLow
  simp only [lastPlace] at large ⊢
  split_ifs at large ⊢ with guess fits <;> exact bounded _ (by omega)

/-- A rounded quotient is off by one at most. -/
theorem cast_roundQuotient_le (num den : ℕ) : (roundQuotient num den : ℚ) ≤ num / den + 1 :=
  calc (roundQuotient num den : ℚ)
    _ ≤ ((num / den : ℕ) : ℚ) + 1 := by exact_mod_cast roundQuotient_le num den
    _ ≤ num / den + 1 := by
      have := Nat.cast_div_le (m := num) (n := den) (α := ℚ)
      linarith

/-- A positive number is rounded to a quotient that is not much above it. -/
theorem round_cases {q : ℚ} (positive : 0 < q) : ∃ n d : ℕ, 0 < d ∧ (1 ≤ q → 0 < n) ∧
    (n : ℚ) / d ≤ 2 * q + 1 ∧
    (round q = .inf false ∧ 2 ^ 128 ≤ (n : ℚ) / d ∨ round q = .finite ((n : ℚ) / d)) := by
  obtain ⟨num, numEq⟩ : ∃ num : ℕ, num = q.num.natAbs := ⟨_, rfl⟩
  obtain ⟨den, denEq⟩ : ∃ den : ℕ, den = q.den := ⟨_, rfl⟩
  have sign := Rat.num_pos.mpr positive
  have numPos : 0 < num := by omega
  have denPos : 0 < den := denEq ▸ q.den_pos
  have value : q = (num : ℚ) / den := by
    have exact_ : (num : ℤ) = q.num := by omega
    rw [denEq, ← Int.cast_natCast, exact_, Rat.num_div_den]
  obtain ⟨place, placeEq⟩ : ∃ place, place = lastPlace num den := ⟨_, rfl⟩
  obtain ⟨sig, sigEq⟩ : ∃ sig,
      sig = roundQuotient (num * 2 ^ (-place).toNat) (den * 2 ^ place.toNat) := ⟨_, rfl⟩
  have place_le : 0 ≤ place → den * 2 ^ place.toNat ≤ num := fun large => by
    rw [placeEq] at large ⊢
    exact lastPlace_le numPos large
  refine ⟨sig * 2 ^ place.toNat, 2 ^ (-place).toNat, by positivity, fun one => ?_, ?_, ?_⟩
  · -- A number that is at least one has a quotient of at least one.
    have large : den ≤ num := by
      rw [value, le_div_iff₀ (by exact_mod_cast denPos), one_mul] at one
      exact_mod_cast one
    have fits : den * 2 ^ place.toNat ≤ num * 2 ^ (-place).toNat := by
      rcases le_or_gt 0 place with up | down
      · exact le_trans (place_le up) (Nat.le_mul_of_pos_right _ (by positivity))
      · have flat : place.toNat = 0 := by omega
        rw [flat, pow_zero, mul_one]
        exact le_trans large (Nat.le_mul_of_pos_right _ (by positivity))
    have quotient := Nat.div_pos fits (by positivity)
    have lower := le_roundQuotient (num * 2 ^ (-place).toNat) (den * 2 ^ place.toNat)
    exact Nat.mul_pos (by omega) (by positivity)
  · -- The quotient is off by one unit of the last place at most.
    have quotient := cast_roundQuotient_le (num * 2 ^ (-place).toNat) (den * 2 ^ place.toNat)
    rw [← sigEq] at quotient
    have denNonzero : (den : ℚ) ≠ 0 := by positivity
    rcases le_or_gt 0 place with up | down
    · have flat : (-place).toNat = 0 := by omega
      have unit : (2 : ℚ) ^ place.toNat ≤ q := by
        rw [value, le_div_iff₀ (by exact_mod_cast denPos), mul_comm]
        exact_mod_cast place_le up
      rw [flat] at quotient ⊢
      push_cast at quotient ⊢
      have scaled := mul_le_mul_of_nonneg_right quotient (by positivity : (0 : ℚ) ≤ 2 ^ place.toNat)
      have cancel : ((num : ℚ) * 1 / (den * 2 ^ place.toNat) + 1) * 2 ^ place.toNat =
          q + 2 ^ place.toNat := by
        rw [value]
        field_simp
      rw [cancel] at scaled
      rw [div_one]
      linarith
    · have flat : place.toNat = 0 := by omega
      rw [flat] at quotient ⊢
      push_cast at quotient ⊢
      have exact_ : (num : ℚ) * 2 ^ (-place).toNat / (den * 1) = q * 2 ^ (-place).toNat := by
        rw [value]
        field_simp
      rw [exact_] at quotient
      have one : (1 : ℚ) ≤ 2 ^ (-place).toNat := one_le_pow₀ (by norm_num)
      rw [mul_one, div_le_iff₀ (by positivity)]
      nlinarith
  · have nonzero : q ≠ 0 := ne_of_gt positive
    have notNeg : ¬ q < 0 := not_lt_of_gt positive
    simp only [round, if_neg nonzero, if_neg notNeg, ← numEq, ← denEq, ← placeEq, ← sigEq]
    split_ifs with large
    · refine .inl ⟨by simp [notNeg], ?_⟩
      rw [le_div_iff₀ (by positivity)]
      exact_mod_cast large
    · right
      rw [Rat.mkRat_eq_div]
      push_cast
      rfl

theorem round_nonneg {q : ℚ} (nonneg : 0 ≤ q) : (round q).Nonneg := by
  rcases nonneg.eq_or_lt with rfl | positive
  · exact le_refl (0 : ℚ)
  · obtain ⟨n, d, -, -, -, ⟨result, -⟩ | result⟩ := round_cases positive
    · rw [result]
      rfl
    · rw [result]
      exact div_nonneg (Nat.cast_nonneg n) (Nat.cast_nonneg d)

theorem round_positive {q : ℚ} (one : 1 ≤ q) : (round q).Positive := by
  obtain ⟨n, d, den, num, -, ⟨result, -⟩ | result⟩ := round_cases (lt_of_lt_of_le one_pos one)
  · rw [result]
    rfl
  · rw [result]
    have numPos := num one
    simp only [Positive]
    positivity

/-- A number that is far from the largest one stays finite. -/
theorem round_finite {q b : ℚ} (nonneg : 0 ≤ q) (bound : q ≤ b) (small : 2 * b + 1 < 2 ^ 128) :
    ∃ r, round q = .finite r ∧ 0 ≤ r ∧ r ≤ 2 * b + 1 := by
  rcases nonneg.eq_or_lt with rfl | positive
  · exact ⟨0, rfl, le_refl 0, by linarith⟩
  · obtain ⟨n, d, -, -, above, ⟨-, huge⟩ | result⟩ := round_cases positive
    · linarith
    · exact ⟨_, result, by positivity, by linarith⟩

theorem ofNat_positive {n : ℕ} (positive : 0 < n) : (ofNat n).Positive :=
  round_positive (by exact_mod_cast positive)

theorem ofNat_nonneg (n : ℕ) : (ofNat n).Nonneg := round_nonneg (Nat.cast_nonneg n)

theorem Nonneg.mul_finite {x : Binary32} {q : ℚ} (nonneg : x.Nonneg) (positive : 0 < q) :
    (x.mul (.finite q)).Nonneg := by
  cases x with
  | nan => exact nonneg
  | inf negative =>
    cases nonneg
    have sign : ¬ q < 0 := not_lt_of_gt positive
    simp [mul, Nonneg, ne_of_gt positive, sign]
  | finite p => exact round_nonneg (mul_nonneg nonneg positive.le)

theorem Positive.mul {x y : Binary32} (left : x.Positive) (right : y.Positive) : (x.mul y).Nonneg := by
  cases x with
  | nan => exact left
  | inf negative =>
    cases left
    cases y with
    | nan => exact right
    | inf negative =>
      cases right
      rfl
    | finite q =>
      have positive : 0 < q := right
      have sign : ¬ q < 0 := not_lt_of_gt positive
      simp [Binary32.mul, Nonneg, ne_of_gt positive, sign]
  | finite p =>
    have positive : 0 < p := left
    cases y with
    | nan => exact right
    | inf negative =>
      cases right
      have sign : ¬ p < 0 := not_lt_of_gt positive
      simp [Binary32.mul, Nonneg, ne_of_gt positive, sign]
    | finite q => exact round_nonneg (mul_nonneg positive.le (le_of_lt right))

theorem Nonneg.div_finite {x : Binary32} {q : ℚ} (nonneg : x.Nonneg) (positive : 0 < q) :
    (x.div (.finite q)).Nonneg := by
  cases x with
  | nan => exact nonneg
  | inf negative =>
    cases nonneg
    have sign : ¬ q < 0 := not_lt_of_gt positive
    simp [div, Nonneg, sign]
  | finite p =>
    rw [div, if_neg (ne_of_gt positive)]
    exact round_nonneg (div_nonneg nonneg positive.le)

/-- A number below a limit is converted to an integer below it. -/
theorem Nonneg.toNat_lt {x : Binary32} {n : ℕ} (nonneg : x.Nonneg)
    (below : (Binary32.finite n).le x = false) : ∃ m, x.toNat = some m ∧ m < n := by
  cases x with
  | nan => exact nonneg.elim
  | inf negative =>
    cases nonneg
    cases below
  | finite q =>
    have sign : ¬ q < 0 := not_lt_of_ge nonneg
    have less : q < n := by
      simp only [le, decide_eq_false_iff_not, not_le] at below
      exact below
    refine ⟨q.floor.toNat, by rw [toNat, if_neg sign], ?_⟩
    have floor_lt : q.floor < (n : ℤ) := Rat.floor_lt_iff.mpr (by exact_mod_cast less)
    have positive : 0 < n := by exact_mod_cast lt_of_le_of_lt nonneg less
    omega

end Yalibct.Machine.Binary32
