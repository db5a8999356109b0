import Mathlib.Algebra.Field.Rat
import Mathlib.Algebra.Order.Field.Basic
import Mathlib.Algebra.Order.Ring.Rat
import Mathlib.Tactic.FieldSimp
import Mathlib.Tactic.Linarith
import Mathlib.Tactic.Positivity
import Mathlib.Tactic.Ring
import Yalibct.Model.Frexp

/-! # What `frexp` splits

Up to the tenth round, the powers are in the tables and the exponent makes up for the scaling. From the
range that is reached there, halving leads to a fraction between one half and one.
-/

namespace Yalibct.Frexp

open Machine

variable {s : Scaling} {x value : ℚ} {i : ℕ} {exponent : ℤ} {pow2 powh : Table}

/-! ## The tables -/

/-- The power of the round `i`. -/
def power (i : ℕ) : ℚ := 2 ^ 2 ^ i

private theorem power_pos (i : ℕ) : 0 < power i := pow_pos two_pos _

private theorem power_succ (i : ℕ) : power (i + 1) = power i * power i := by
  rw [power, power, ← pow_add, pow_succ, Nat.mul_two]

/-- The powers of the earlier rounds are in the tables. -/
structure Filled (pow2 powh : Table) (i : ℕ) : Prop where
  pow2 : ∀ j < i, pow2 j = some (power j)
  powh : ∀ j < i, powh j = some (power j)⁻¹

theorem Filled.load_pow2 (filled : Filled pow2 powh i) {j : ℕ} (below : j < i) (bound : i ≤ 64) :
    pow2.load j = .ok (power j) := by
  rw [Table.load, if_pos (by omega), filled.pow2 j below]

theorem Filled.load_powh (filled : Filled pow2 powh i) {j : ℕ} (below : j < i) (bound : i ≤ 64) :
    powh.load j = .ok (power j)⁻¹ := by
  rw [Table.load, if_pos (by omega), filled.powh j below]

theorem Filled.store (filled : Filled pow2 powh i) :
    Filled (pow2.store i (power i)) (powh.store i (power i)⁻¹) (i + 1) := by
  refine ⟨fun j below => ?_, fun j below => ?_⟩
  · unfold Table.store
    split_ifs with same
    · rw [same]
    · exact filled.pow2 j (by omega)
  · unfold Table.store
    split_ifs with same
    · rw [same]
    · exact filled.powh j (by omega)

theorem Filled.mono (filled : Filled pow2 powh i) {j : ℕ} (below : j ≤ i) : Filled pow2 powh j :=
  ⟨fun k less => filled.pow2 k (by omega), fun k less => filled.powh k (by omega)⟩

/-- The powers at the start of a round. -/
structure Tabled (s : Scaling) : Prop where
  pow2i : s.pow2i = power s.i
  powhi : s.powhi = (power s.i)⁻¹
  filled : Filled s.pow2 s.powh s.i

private theorem tabled_init (x : ℚ) : Tabled (.init x) := by
  refine ⟨?_, ?_, nofun, nofun⟩
  · exact (pow_one 2).symm
  · rw [power]
    norm_num [Scaling.init]

theorem Tabled.advance (tabled : Tabled s) (x : ℚ) (exponent : ℤ) :
    Tabled { s with exponent := exponent, x := x }.advance := by
  refine ⟨?_, ?_, ?_⟩
  · change s.pow2i * s.pow2i = power (s.i + 1)
    rw [tabled.pow2i, power_succ]
  · change s.powhi * s.powhi = (power (s.i + 1))⁻¹
    rw [tabled.powhi, power_succ, mul_inv]
  · change Filled (s.pow2.store s.i s.pow2i) (s.powh.store s.i s.powhi) (s.i + 1)
    rw [tabled.pow2i, tabled.powhi]
    exact tabled.filled.store

/-! ## Halving -/

private theorem inv_power_succ_mul (i : ℕ) : (power (i + 1))⁻¹ * power i = (power i)⁻¹ := by
  have positive := power_pos i
  rw [power_succ]
  field_simp

private theorem mul_zpow_sub (x : ℚ) (exponent : ℤ) (i : ℕ) :
    x * power i * 2 ^ (exponent - 2 ^ i) = x * 2 ^ exponent := by
  have same : (2 : ℚ) ^ exponent = power i * 2 ^ (exponent - 2 ^ i) := by
    have split : exponent = ((2 ^ i : ℕ) : ℤ) + (exponent - 2 ^ i) := by
      push_cast
      ring
    conv_lhs => rw [split, zpow_add₀ two_ne_zero, zpow_natCast]
    rfl
  rw [same]
  ring

/-- The last loop ends with a fraction, and the exponent makes up for it. -/
theorem halve_spec (filled : Filled pow2 powh i) (bound : i ≤ 30) (lower : (power i)⁻¹ ≤ x) (upper : x < 1)
    (least : intMin + 2 ^ i ≤ exponent) (most : exponent ≤ intMax) :
    ∃ f e, halve pow2 powh i x exponent = .ok (f, e) ∧ 1 / 2 ≤ f ∧ f < 1 ∧ f * 2 ^ e = x * 2 ^ exponent := by
  induction i generalizing x exponent with
  | zero =>
    refine ⟨x, exponent, rfl, ?_, upper, rfl⟩
    rw [power] at lower
    norm_num at lower ⊢
    exact lower
  | succ i ih =>
    have load := filled.load_powh (Nat.lt_succ_self i) (by omega)
    have load' := filled.load_pow2 (Nat.lt_succ_self i) (by omega)
    have below := filled.mono (Nat.le_succ i)
    have positive := power_pos i
    have double : (2 : ℤ) ^ (i + 1) = 2 ^ i + 2 ^ i := by
      rw [pow_succ]
      ring
    have some : (0 : ℤ) < 2 ^ i := by positivity
    rw [double] at least
    unfold halve
    rw [load]
    by_cases small : x < (power i)⁻¹
    · have scaled : (power i)⁻¹ ≤ x * power i := by
        rw [← inv_power_succ_mul]
        exact mul_le_mul_of_nonneg_right lower positive.le
      have less : x * power i < 1 := by
        rw [← inv_mul_cancel₀ positive.ne']
        exact mul_lt_mul_of_pos_right small positive
      have int : toInt (exponent - 2 ^ i) = .ok (exponent - 2 ^ i) := by
        apply toInt_of_isInt
        constructor
        · omega
        · omega
      obtain ⟨f, e, halved, fraction, one, same⟩ :=
        @ih (x * power i) (exponent - 2 ^ i) below (by omega) scaled less (by omega) (by omega)
      refine ⟨f, e, ?_, fraction, one, same.trans (mul_zpow_sub x exponent i)⟩
      simp only [bind, Except.bind, small, ↓reduceIte, shiftOne_of_lt (show i < 31 by omega), int, load', halved]
    · obtain ⟨f, e, halved, rest⟩ := ih below (by omega) (not_lt.mp small) upper (by omega) most
      refine ⟨f, e, ?_, rest⟩
      simp only [bind, Except.bind, small, ↓reduceIte, halved]

/-! ## Numbers from one on -/

/-- Walking back keeps the number below the power. -/
theorem walkBack_spec (tabled : Filled s.pow2 s.powh i) (bound : i ≤ 64) (below : s.x < power i) :
    ∃ j ≤ i, walkBack s i (power i)⁻¹ = .ok (j, (power j)⁻¹) ∧ s.x < power j := by
  induction i with
  | zero => exact ⟨0, Nat.le_refl 0, rfl, below⟩
  | succ i ih =>
    have load := tabled.load_pow2 (Nat.lt_succ_self i) bound
    have load' := tabled.load_powh (Nat.lt_succ_self i) bound
    unfold walkBack
    rw [load]
    by_cases small : s.x < power i
    · obtain ⟨j, less, walked, result⟩ := ih (tabled.mono (Nat.le_succ i)) (by omega) small
      refine ⟨j, by omega, ?_, result⟩
      simp only [bind, Except.bind, small, ↓reduceIte, load', walked]
    · refine ⟨i + 1, Nat.le_refl _, ?_, below⟩
      simp only [bind, Except.bind, small, ↓reduceIte]

/-- Before a round of the loop for a number from one on. -/
structure Down (value : ℚ) (s : Scaling) : Prop where
  tabled : Tabled s
  one : 1 ≤ s.x
  exponent : s.exponent = 2 ^ s.i - 1
  same : s.x * 2 ^ (2 ^ s.i - 1) = value

private theorem pred_two_pow (i : ℕ) : ((2 ^ i - 1 : ℕ) : ℤ) = 2 ^ i - 1 := by
  rw [Nat.cast_sub Nat.one_le_two_pow]
  push_cast
  rfl

theorem Down.mul_zpow (down : Down value s) : s.x * 2 ^ s.exponent = value := by
  rw [down.exponent, ← pred_two_pow, zpow_natCast]
  exact down.same

private theorem two_pow_pred_succ (i : ℕ) : (2 : ℚ) ^ (2 ^ (i + 1) - 1) = power i * 2 ^ (2 ^ i - 1) := by
  have positive := Nat.two_pow_pos i
  rw [power, ← pow_add]
  congr 1
  rw [Nat.pow_succ]
  omega

/-- In the tenth round, the number is below the power. -/
theorem Down.lt_ten (down : Down value s) (large : value < 2 ^ 1024) (more : s.pow2i ≤ s.x) : s.i < 10 := by
  by_contra late
  rw [down.tabled.pow2i] at more
  have least : (2 : ℚ) ^ (2 ^ (s.i + 1) - 1) ≤ value := by
    rw [two_pow_pred_succ, ← down.same]
    exact mul_le_mul_of_nonneg_right more (by positivity)
  have exponents := (pow_lt_pow_iff_right₀ (one_lt_two (α := ℚ))).mp (lt_of_le_of_lt least large)
  have doubled : 2 ^ 11 ≤ 2 ^ (s.i + 1) := Nat.pow_le_pow_right Nat.two_pos (by omega)
  omega

theorem Down.advance (down : Down value s) (more : s.pow2i ≤ s.x) :
    Down value { s with exponent := s.exponent + 2 ^ s.i, x := s.x * s.powhi }.advance := by
  have positive := power_pos s.i
  rw [down.tabled.pow2i] at more
  refine ⟨down.tabled.advance _ _, ?_, ?_, ?_⟩
  · change 1 ≤ s.x * s.powhi
    rw [down.tabled.powhi, ← mul_inv_cancel₀ positive.ne']
    exact mul_le_mul_of_nonneg_right more (inv_pos.mpr positive).le
  · change s.exponent + 2 ^ s.i = 2 ^ (s.i + 1) - 1
    rw [down.exponent, pow_succ]
    ring
  · change s.x * s.powhi * 2 ^ (2 ^ (s.i + 1) - 1) = value
    rw [two_pow_pred_succ, down.tabled.powhi, ← down.same]
    field_simp

theorem scaleDown_spec (down : Down value s) (large : value < 2 ^ 1024) :
    ∃ t, scaleDown s = .ok t ∧ Down value t ∧ t.x < power t.i ∧ (t.i ≤ 10 ∨ t.i = s.i) := by
  induction rounds : 10 - s.i generalizing s with
  | zero =>
    have last : ¬ s.pow2i ≤ s.x := fun more => by
      have := down.lt_ten large more
      omega
    refine ⟨s, ?_, down, ?_, .inr rfl⟩
    · rw [scaleDown, if_neg last]
    · rw [← down.tabled.pow2i]
      exact not_le.mp last
  | succ rounds ih =>
    rw [scaleDown]
    by_cases more : s.pow2i ≤ s.x
    · have early := down.lt_ten large more
      have power : (2 : ℤ) ^ s.i ≤ 2 ^ 9 := pow_le_pow_right₀ (by decide) (by omega)
      have positive : (0 : ℤ) < 2 ^ s.i := by positivity
      have int : toInt (s.exponent + 2 ^ s.i) = .ok (s.exponent + 2 ^ s.i) := by
        apply toInt_of_isInt
        rw [down.exponent, IsInt, intMin, intMax]
        omega
      obtain ⟨t, scaled, rest, below, bound⟩ := ih (down.advance more) (by change 10 - (s.i + 1) = _; omega)
      refine ⟨t, ?_, rest, below, .inl ?_⟩
      · simp only [more, ↓reduceIte, bind, Except.bind, shiftOne_of_lt (show s.i < 31 by omega), int,
          show s.i < 64 by omega, ↓reduceDIte, scaled]
      · change _ ∨ t.i = s.i + 1 at bound
        omega
    · refine ⟨s, if_neg more, down, ?_, .inr rfl⟩
      rw [← down.tabled.pow2i]
      exact not_le.mp more

/-! ## Numbers below one -/

/-- Before a round of the loop for a number below one. -/
structure Up (value : ℚ) (s : Scaling) : Prop where
  tabled : Tabled s
  one : s.x < 1
  exponent : s.exponent = 1 - 2 ^ s.i
  same : s.x = value * 2 ^ (2 ^ s.i - 1)

theorem Up.mul_zpow (up : Up value s) : s.x * 2 ^ s.exponent = value := by
  have opposite : s.exponent = -((2 ^ s.i - 1 : ℕ) : ℤ) := by
    rw [up.exponent, pred_two_pow]
    ring
  rw [opposite, zpow_neg, zpow_natCast, up.same]
  exact mul_inv_cancel_right₀ (pow_ne_zero _ two_ne_zero) value

theorem Up.lt_ten (up : Up value s) (small : (2 ^ 1074)⁻¹ ≤ value) (more : s.x < s.powhi) : s.i < 10 := by
  by_contra late
  rw [up.tabled.powhi, up.same] at more
  have most : value * 2 ^ (2 ^ (s.i + 1) - 1) < 1 := by
    have positive := power_pos s.i
    rw [two_pow_pred_succ, ← inv_mul_cancel₀ positive.ne']
    have scaled := mul_lt_mul_of_pos_right more positive
    linarith
  have least : (2 : ℚ) ^ (2 ^ (s.i + 1) - 1) < 2 ^ 1074 := by
    have scaled : (2 ^ 1074 : ℚ)⁻¹ * 2 ^ (2 ^ (s.i + 1) - 1) < 1 :=
      lt_of_le_of_lt (mul_le_mul_of_nonneg_right small (by positivity)) most
    rwa [inv_mul_lt_iff₀ (by positivity), mul_one] at scaled
  have exponents := (pow_lt_pow_iff_right₀ (one_lt_two (α := ℚ))).mp least
  have doubled : 2 ^ 11 ≤ 2 ^ (s.i + 1) := Nat.pow_le_pow_right Nat.two_pos (by omega)
  omega

theorem Up.advance (up : Up value s) (more : s.x < s.powhi) :
    Up value { s with exponent := s.exponent - 2 ^ s.i, x := s.x * s.pow2i }.advance := by
  have positive := power_pos s.i
  rw [up.tabled.powhi] at more
  refine ⟨up.tabled.advance _ _, ?_, ?_, ?_⟩
  · change s.x * s.pow2i < 1
    rw [up.tabled.pow2i, ← inv_mul_cancel₀ positive.ne']
    exact mul_lt_mul_of_pos_right more positive
  · change s.exponent - 2 ^ s.i = 1 - 2 ^ (s.i + 1)
    rw [up.exponent, pow_succ]
    ring
  · change s.x * s.pow2i = value * 2 ^ (2 ^ (s.i + 1) - 1)
    rw [two_pow_pred_succ, up.tabled.pow2i, up.same]
    ring

theorem scaleUp_spec (up : Up value s) (small : (2 ^ 1074)⁻¹ ≤ value) :
    ∃ t, scaleUp s = .ok t ∧ Up value t ∧ (power t.i)⁻¹ ≤ t.x ∧ (t.i ≤ 10 ∨ t.i = s.i) := by
  induction rounds : 10 - s.i generalizing s with
  | zero =>
    have last : ¬ s.x < s.powhi := fun more => by
      have := up.lt_ten small more
      omega
    refine ⟨s, ?_, up, ?_, .inr rfl⟩
    · rw [scaleUp, if_neg last]
    · rw [← up.tabled.powhi]
      exact not_lt.mp last
  | succ rounds ih =>
    rw [scaleUp]
    by_cases more : s.x < s.powhi
    · have early := up.lt_ten small more
      have power : (2 : ℤ) ^ s.i ≤ 2 ^ 9 := pow_le_pow_right₀ (by decide) (by omega)
      have positive : (0 : ℤ) < 2 ^ s.i := by positivity
      have int : toInt (s.exponent - 2 ^ s.i) = .ok (s.exponent - 2 ^ s.i) := by
        apply toInt_of_isInt
        rw [up.exponent, IsInt, intMin, intMax]
        omega
      obtain ⟨t, scaled, rest, below, bound⟩ := ih (up.advance more) (by change 10 - (s.i + 1) = _; omega)
      refine ⟨t, ?_, rest, below, .inl ?_⟩
      · simp only [more, ↓reduceIte, bind, Except.bind, shiftOne_of_lt (show s.i < 31 by omega), int,
          show s.i < 64 by omega, ↓reduceDIte, scaled]
      · change _ ∨ t.i = s.i + 1 at bound
        omega
    · refine ⟨s, if_neg more, up, ?_, .inr rfl⟩
      rw [← up.tabled.powhi]
      exact not_lt.mp more

/-! ## All numbers -/

/-- From the tables and the range of a number to the fraction. -/
theorem halve_tabled (tabled : Tabled s) (bound : s.i ≤ 10) (below : i ≤ s.i) (lower : (power i)⁻¹ ≤ x)
    (upper : x < 1) (least : -2 ^ 20 ≤ exponent) (most : exponent ≤ 2 ^ 20) :
    ∃ f e, halve s.pow2 s.powh i x exponent = .ok (f, e) ∧ 1 / 2 ≤ f ∧ f < 1 ∧ f * 2 ^ e = x * 2 ^ exponent := by
  have top : (2 : ℤ) ^ i ≤ 2 ^ 10 := pow_le_pow_right₀ (by decide) (by omega)
  apply halve_spec (tabled.filled.mono below) (by omega) lower upper
  · rw [intMin]
    omega
  · rw [intMax]
    omega

theorem frexpPositive_spec (small : (2 ^ 1074)⁻¹ ≤ x) (large : x < 2 ^ 1024) :
    ∃ f e, frexpPositive x = .ok (f, e) ∧ 1 / 2 ≤ f ∧ f < 1 ∧ f * 2 ^ e = x := by
  by_cases one : 1 ≤ x
  · have down : Down x (.init x) := ⟨tabled_init x, one, rfl, by simp [Scaling.init]⟩
    obtain ⟨s, scaled, down, below, bound⟩ := scaleDown_spec down large
    have ten : s.i ≤ 10 := bound.elim id fun same => same.le.trans (Nat.zero_le _)
    obtain ⟨i, less, walked, below⟩ := walkBack_spec down.tabled.filled (by omega) below
    have positive := power_pos i
    have top : (2 : ℤ) ^ i ≤ 2 ^ 10 := pow_le_pow_right₀ (by decide) (by omega)
    have top' : (2 : ℤ) ^ s.i ≤ 2 ^ 10 := pow_le_pow_right₀ (by decide) ten
    have some : (0 : ℤ) < 2 ^ i := by positivity
    have some' : (0 : ℤ) < 2 ^ s.i := by positivity
    have int : toInt (s.exponent + 2 ^ i) = .ok (s.exponent + 2 ^ i) := by
      apply toInt_of_isInt
      rw [down.exponent, IsInt, intMin, intMax]
      omega
    have lower : (power i)⁻¹ ≤ s.x * (power i)⁻¹ := le_mul_of_one_le_left (inv_pos.mpr positive).le down.one
    have upper : s.x * (power i)⁻¹ < 1 := by
      rwa [mul_inv_lt_iff₀ positive, one_mul]
    have exponent := down.exponent
    obtain ⟨f, e, halved, fraction, unit, same⟩ :=
      @halve_tabled s _ i (s.exponent + 2 ^ i) down.tabled ten less lower upper (by omega) (by omega)
    refine ⟨f, e, ?_, fraction, unit, same.trans ?_⟩
    · simp only [frexpPositive, one, ↓reduceIte, bind, Except.bind, scaled, down.tabled.powhi, walked,
        shiftOne_of_lt (show i < 31 by omega), int, halved]
    · rw [← mul_zpow_sub, inv_mul_cancel_right₀ positive.ne', add_sub_cancel_right]
      exact down.mul_zpow
  · have up : Up x (.init x) := ⟨tabled_init x, not_le.mp one, rfl, by simp [Scaling.init]⟩
    obtain ⟨s, scaled, up, lower, bound⟩ := scaleUp_spec up small
    have ten : s.i ≤ 10 := bound.elim id fun same => same.le.trans (Nat.zero_le _)
    have top : (2 : ℤ) ^ s.i ≤ 2 ^ 10 := pow_le_pow_right₀ (by decide) ten
    have some : (0 : ℤ) < 2 ^ s.i := by positivity
    have exponent := up.exponent
    obtain ⟨f, e, halved, fraction, unit, same⟩ :=
      @halve_tabled s _ s.i s.exponent up.tabled ten (Nat.le_refl _) lower up.one (by omega) (by omega)
    refine ⟨f, e, ?_, fraction, unit, same.trans ?_⟩
    · simp only [frexpPositive, one, ↓reduceIte, bind, Except.bind, scaled, halved]
    · exact up.mul_zpow

/-- The finite numbers of binary64. -/
def IsBinary64 (x : ℚ) : Prop := ∃ m e : ℤ, x = m * 2 ^ e ∧ |m| < 2 ^ 53 ∧ -1074 ≤ e ∧ e ≤ 971

theorem IsBinary64.bounds (finite : IsBinary64 x) (nonzero : x ≠ 0) : (2 ^ 1074)⁻¹ ≤ |x| ∧ |x| < 2 ^ 1024 := by
  obtain ⟨m, e, rfl, digits, least, most⟩ := finite
  have some : m ≠ 0 := by
    rintro rfl
    simp at nonzero
  have positive : (0 : ℚ) < 2 ^ e := zpow_pos two_pos e
  have unit : (1 : ℚ) ≤ |(m : ℚ)| := by
    exact_mod_cast Int.one_le_abs some
  have short : |(m : ℚ)| < 2 ^ 53 := by
    exact_mod_cast digits
  have low : (2 : ℚ) ^ (-1074 : ℤ) ≤ 2 ^ e := zpow_le_zpow_right₀ one_le_two least
  have high : (2 : ℚ) ^ e ≤ 2 ^ (971 : ℤ) := zpow_le_zpow_right₀ one_le_two most
  rw [abs_mul, abs_of_pos positive]
  constructor
  · calc
      ((2 : ℚ) ^ 1074)⁻¹ = 2 ^ (-1074 : ℤ) := (zpow_neg 2 1074).symm
      _ ≤ 2 ^ e := low
      _ ≤ |(m : ℚ)| * 2 ^ e := le_mul_of_one_le_left positive.le unit
  · calc
      |(m : ℚ)| * 2 ^ e < 2 ^ 53 * 2 ^ e := mul_lt_mul_of_pos_right short positive
      _ ≤ 2 ^ 53 * 2 ^ (971 : ℤ) := mul_le_mul_of_nonneg_left high (by positivity)
      _ = 2 ^ 53 * 2 ^ 971 := congrArg _ (zpow_natCast 2 971)
      _ = 2 ^ 1024 := (pow_add 2 53 971).symm

/-- A finite number is split into a fraction and an exponent: no `int` overflows, no element outside
the tables is used, and the fraction is at least one half, less than one, and has the sign of the number. -/
theorem frexp_splits {x : ℚ} (finite : IsBinary64 x) (nonzero : x ≠ 0) :
    ∃ f e, frexp x = .ok (f, e) ∧ x = f * 2 ^ e ∧ 1 / 2 ≤ |f| ∧ |f| < 1 ∧ (0 < f ↔ 0 < x) := by
  obtain ⟨small, large⟩ := finite.bounds nonzero
  have other : ¬ x + x = x := fun same => nonzero (by linarith)
  obtain ⟨f, e, split, fraction, unit, same⟩ := frexpPositive_spec small large
  have positive : 0 < f := by linarith
  rcases lt_or_gt_of_ne nonzero with negative | natural
  · rw [abs_of_neg negative] at split same
    refine ⟨-f, e, ?_, ?_, ?_, ?_, ?_⟩
    · simp only [frexp, other, ↓reduceIte, negative, split, bind, Except.bind]
    · linarith
    · rwa [abs_neg, abs_of_pos positive]
    · rwa [abs_neg, abs_of_pos positive]
    · constructor
      · intro
        linarith
      · intro
        linarith
  · rw [abs_of_pos natural] at split same
    refine ⟨f, e, ?_, same.symm, ?_, ?_, ?_⟩
    · simp only [frexp, other, ↓reduceIte, not_lt_of_gt natural, split, bind, Except.bind]
    · rwa [abs_of_pos positive]
    · rwa [abs_of_pos positive]
    · simp only [positive, natural]

/-- Twelve is three quarters of sixteen. -/
theorem frexp_twelve : (∃ f e, frexp 12 = .ok (f, e) ∧ 12 = f * 2 ^ e ∧ 1 / 2 ≤ |f| ∧ |f| < 1 ∧ (0 < f ↔ (0 : ℚ) < 12)) :=
  frexp_splits ⟨3, 2, by norm_num, by norm_num, by norm_num, by norm_num⟩ (by norm_num)

end Yalibct.Frexp
