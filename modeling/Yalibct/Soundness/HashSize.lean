import Yalibct.Machine.Fallible
import Yalibct.Machine.Rounding
import Yalibct.Model.HashTable

/-! # The sizes of tables

With valid tuning, every size that is computed in floating point is a number that a size can hold,
and the search for a prime ends. Any array that is asked for is a possible object.
-/

namespace Yalibct.Hash

open Machine

/-- All that a computation of a size may run into is too few rounds. -/
def Short (fuel : ℕ) (fault : Fault) : Prop := fault = .unfinished ∧ fuel ≤ sizeMax

variable {fuel candidate : ℕ} {tuning : HashTuning} {table : HashTable}

/-! ## Valid tuning -/

/-- What the conditions on the tuning are needed for. -/
structure HashTuning.Usable (tuning : HashTuning) : Prop where
  threshold : ∃ g, tuning.growthThreshold = .finite g ∧ 0 < g ∧ g ≤ 1
  grows : tuning.growthFactor.Positive
  shrinks : ∃ f, tuning.shrinkFactor = .finite f ∧ 0 ≤ f ∧ f ≤ 1

private theorem epsilon_eq : epsilon = .finite (13421773 / 134217728) := by decide +kernel

private theorem one_eq : Binary32.ofNat 1 = .finite 1 := by decide +kernel

private theorem zero_eq : Binary32.ofNat 0 = .finite 0 := by decide +kernel

private theorem one_sub_epsilon : (Binary32.finite 1).sub (.finite (13421773 / 134217728)) =
    .finite (15099494 / 16777216) := by decide +kernel

private theorem one_add_epsilon : (Binary32.finite 1).add (.finite (13421773 / 134217728)) =
    .finite (9227469 / 8388608) := by decide +kernel

theorem HashTuning.usable (valid : tuning.valid = true) : tuning.Usable := by
  simp only [HashTuning.valid, Bool.and_eq_true, epsilon_eq, one_eq, zero_eq, one_sub_epsilon,
    one_add_epsilon] at valid
  obtain ⟨⟨⟨⟨⟨⟨thresholdLow, thresholdHigh⟩, factor⟩, shrinkLow⟩, shrinkHigh⟩, shrinkOne⟩, -⟩ := valid
  refine ⟨?_, ?_, ?_⟩
  · cases threshold : tuning.growthThreshold with
    | nan => rw [threshold] at thresholdLow; cases thresholdLow
    | inf negative =>
      rw [threshold] at thresholdLow thresholdHigh
      cases negative
      · cases thresholdHigh
      · cases thresholdLow
    | finite g =>
      rw [threshold] at thresholdLow thresholdHigh
      simp only [Binary32.lt, decide_eq_true_eq] at thresholdLow thresholdHigh
      exact ⟨g, rfl, by linarith, by linarith⟩
  · cases growth : tuning.growthFactor with
    | nan => rw [growth] at factor; cases factor
    | inf negative =>
      rw [growth] at factor
      cases negative
      · rfl
      · cases factor
    | finite q =>
      rw [growth] at factor
      simp only [Binary32.lt, decide_eq_true_eq] at factor
      simp only [Binary32.Positive]
      linarith
  · -- The shrink factor is above a sum of two numbers that are not negative.
    have sum : (tuning.shrinkThreshold.add (.finite (13421773 / 134217728))).Nonneg := by
      cases shrink : tuning.shrinkThreshold with
      | nan => rw [shrink] at shrinkLow; cases shrinkLow
      | inf negative =>
        rw [shrink] at shrinkLow
        cases negative
        · rfl
        · cases shrinkLow
      | finite q =>
        rw [shrink] at shrinkLow
        simp only [Binary32.le, decide_eq_true_eq] at shrinkLow
        exact Binary32.round_nonneg (by linarith)
    generalize tuning.shrinkThreshold.add (.finite (13421773 / 134217728)) = low at sum shrinkHigh
    cases factor' : tuning.shrinkFactor with
    | nan => rw [factor'] at shrinkOne; cases shrinkOne
    | inf negative =>
      rw [factor'] at shrinkOne shrinkHigh
      cases negative
      · cases shrinkOne
      · -- Nothing is below negative infinity.
        simp only [Binary32.lt, reduceCtorEq] at shrinkHigh
    | finite f =>
      rw [factor'] at shrinkOne shrinkHigh
      simp only [Binary32.le, decide_eq_true_eq] at shrinkOne
      refine ⟨f, rfl, ?_, shrinkOne⟩
      cases low with
      | nan => exact sum.elim
      | inf negative =>
        cases sum
        cases shrinkHigh
      | finite q =>
        simp only [Binary32.lt, decide_eq_true_eq] at shrinkHigh
        exact le_of_lt (lt_of_le_of_lt sum shrinkHigh)

theorem valid_defaultTuning : defaultTuning.valid = true := by decide +kernel

/-- Valid tuning is left alone. -/
theorem checkTuning_of_valid (valid : table.tuning.valid = true) : (checkTuning table).2 = table := by
  rw [checkTuning, if_pos (.inr valid)]

/-! ## Primes -/

theorem isPrimeLoop_spec {divisor square : ℕ} (odd : candidate % 2 = 1) (divisorOdd : divisor % 2 = 1)
    (le : divisor ≤ candidate) :
    Outcome (fun fault => fault = .unfinished ∧ fuel ≤ candidate - divisor) (fun _ => True)
      (isPrimeLoop candidate fuel divisor square) := by
  induction fuel generalizing divisor square with
  | zero => exact ⟨rfl, Nat.zero_le _⟩
  | succ fuel ih =>
    rw [isPrimeLoop]
    by_cases more : square < candidate ∧ candidate % divisor ≠ 0
    · rw [if_pos more]
      -- An odd divisor that is not the candidate itself is two below it.
      have below : divisor + 2 ≤ candidate := by
        have differ : divisor ≠ candidate := fun equal => more.2 (equal ▸ Nat.mod_self _)
        omega
      refine (ih (by omega) below).mono ?_ fun _ _ => trivial
      rintro fault ⟨short, bound⟩
      exact ⟨short, by omega⟩
    · rw [if_neg more]
      trivial

theorem isPrime_spec (fuel : ℕ) (odd : candidate % 2 = 1) (large : 3 ≤ candidate) (bound : candidate ≤ sizeMax) :
    Outcome (Short fuel) (fun _ => True) (isPrime fuel candidate) := by
  refine (isPrimeLoop_spec odd rfl large).mono ?_ fun _ _ => trivial
  rintro fault ⟨short, rounds⟩
  exact ⟨short, by omega⟩

theorem nextPrimeLoop_spec {rounds : ℕ} (odd : candidate % 2 = 1) (large : 3 ≤ candidate)
    (bound : candidate ≤ sizeMax) :
    Outcome (fun fault => fault = .unfinished ∧ (rounds ≤ sizeMax ∨ fuel ≤ sizeMax - candidate))
      (fun n => candidate ≤ n ∧ n ≤ sizeMax) (nextPrimeLoop rounds fuel candidate) := by
  induction fuel generalizing candidate with
  | zero => exact ⟨rfl, .inr (Nat.zero_le _)⟩
  | succ fuel ih =>
    rw [nextPrimeLoop]
    by_cases last : candidate = sizeMax
    · rw [if_pos last]
      exact ⟨Nat.le_refl _, bound⟩
    rw [if_neg last]
    have tested := isPrime_spec rounds odd large bound
    cases result : isPrime rounds candidate with
    | error fault =>
      rw [result] at tested
      exact ⟨tested.1, .inl tested.2⟩
    | ok prime =>
      cases prime with
      | true => exact ⟨Nat.le_refl _, bound⟩
      | false =>
        -- The largest size is odd, so two steps up are still a size.
        have room : candidate + 2 ≤ sizeMax := by
          have maxOdd : sizeMax % 2 = 1 := by decide
          omega
        refine (ih (by omega) (by omega) room).mono ?_ ?_
        · rintro fault ⟨short, rounds | remaining⟩
          · exact ⟨short, .inl rounds⟩
          · exact ⟨short, .inr (by omega)⟩
        · rintro n ⟨lower, upper⟩
          exact ⟨by omega, upper⟩

/-- `next_prime` ends, and does not go down. -/
theorem nextPrime_spec (bound : candidate ≤ sizeMax) :
    Outcome (Short fuel) (fun n => candidate ≤ n ∧ 0 < n ∧ n ≤ sizeMax) (nextPrime fuel candidate) := by
  have maxLarge : 11 ≤ sizeMax := by decide
  have maxOdd : sizeMax % 2 = 1 := by decide
  simp only [nextPrime]
  have start : ∃ first, (if (if candidate < 10 then 10 else candidate) % 2 = 0
      then (if candidate < 10 then 10 else candidate) + 1 else if candidate < 10 then 10 else candidate) =
      first ∧ first % 2 = 1 ∧ 11 ≤ first ∧ candidate ≤ first ∧ first ≤ sizeMax := by
    refine ⟨_, rfl, ?_⟩
    split_ifs <;> omega
  obtain ⟨first, start, odd, large, le, limit⟩ := start
  rw [start]
  refine (nextPrimeLoop_spec odd (by omega) limit).mono ?_ ?_
  · rintro fault ⟨short, rounds | rounds⟩
    · exact ⟨short, rounds⟩
    · exact ⟨short, by omega⟩
  · rintro n ⟨lower, upper⟩
    exact ⟨by omega, by omega, upper⟩

/-! ## From floating point to sizes -/

private theorem ofNat_sizeMax : Binary32.ofNat sizeMax = .finite ((sizeMax + 1 : ℕ) : ℚ) := by decide +kernel

/-- A number that is not negative and below the largest size has a size. -/
theorem toSize_of_lt {x : Binary32} (nonneg : x.Nonneg)
    (below : (Binary32.ofNat sizeMax).le x = false) : ∃ n, toSize x = .ok n ∧ n ≤ sizeMax := by
  rw [ofNat_sizeMax] at below
  obtain ⟨n, value, bound⟩ := nonneg.toNat_lt below
  have le : n ≤ sizeMax := Nat.le_of_lt_succ bound
  exact ⟨n, by rw [toSize, value]; exact if_pos le, le⟩

/-- `compute_bucket_size`: none, or the length of a possible array. -/
theorem computeBucketSize_spec (fuel : ℕ) (usable : tuning.Usable) (bound : candidate ≤ sizeMax) :
    Outcome (Short fuel) (fun n => n * 8 ≤ ptrdiffMax) (computeBucketSize fuel candidate tuning) := by
  have prime : ∀ {c : ℕ}, c ≤ sizeMax → Outcome (Short fuel) (fun n => n * 8 ≤ ptrdiffMax)
      (nextPrime fuel c >>= fun n => if ptrdiffMax < n * 8 then .ok 0 else .ok n) := by
    intro c limit
    refine (nextPrime_spec limit).bind fun n _ => ?_
    split_ifs with large
    · exact Nat.zero_le _
    · exact Nat.le_of_not_lt large
  simp only [computeBucketSize]
  by_cases counted : tuning.isNBuckets = true
  · rw [if_pos counted]
    exact prime bound
  rw [if_neg counted]
  obtain ⟨g, threshold, positive, -⟩ := usable.threshold
  rw [threshold]
  have nonneg := (Binary32.ofNat_nonneg candidate).div_finite positive
  by_cases huge : (Binary32.ofNat sizeMax).le ((Binary32.ofNat candidate).div (.finite g)) = true
  · rw [if_pos huge]
    exact Nat.zero_le _
  rw [if_neg huge]
  obtain ⟨n, value, limit⟩ := toSize_of_lt nonneg (Bool.eq_false_iff.mpr huge)
  rw [value]
  exact prime limit

/-- The size to grow to is not negative. -/
theorem growCandidate_nonneg (usable : table.tuning.Usable) (nonempty : 0 < table.nBuckets) :
    (growCandidate table).Nonneg := by
  have grown := (Binary32.ofNat_positive nonempty).mul usable.grows
  simp only [growCandidate]
  split_ifs
  · exact grown
  · obtain ⟨g, threshold, positive, -⟩ := usable.threshold
    rw [threshold]
    exact grown.mul_finite positive

/-- The size to shrink to is a size. -/
theorem shrinkCandidate_toSize (usable : table.tuning.Usable) (possible : table.nBuckets * 8 ≤ ptrdiffMax) :
    ∃ n, toSize (shrinkCandidate table) = .ok n ∧ n ≤ sizeMax := by
  obtain ⟨f, factor, factorNonneg, factorOne⟩ := usable.shrinks
  obtain ⟨g, threshold, positive, thresholdOne⟩ := usable.threshold
  have count : (table.nBuckets : ℚ) ≤ 2 ^ 60 := by
    have nat : table.nBuckets ≤ 2 ^ 60 := by
      rw [ptrdiffMax] at possible
      omega
    exact_mod_cast nat
  -- Each of the three roundings at most doubles the number and adds one.
  obtain ⟨n, size, sizeNonneg, sizeBound⟩ :=
    Binary32.round_finite (Nat.cast_nonneg table.nBuckets) count (by norm_num)
  obtain ⟨m, shrunk, shrunkNonneg, shrunkBound⟩ :=
    Binary32.round_finite (mul_nonneg sizeNonneg factorNonneg)
      (le_trans (mul_le_of_le_one_right sizeNonneg factorOne) sizeBound) (by norm_num)
  have first : (Binary32.ofNat table.nBuckets).mul table.tuning.shrinkFactor = .finite m := by
    rw [factor, Binary32.ofNat, size]
    exact shrunk
  have limit : ∃ x, shrinkCandidate table = .finite x ∧ 0 ≤ x ∧ x < 2 ^ 64 := by
    simp only [shrinkCandidate, first]
    split_ifs
    · exact ⟨m, rfl, shrunkNonneg, lt_of_le_of_lt shrunkBound (by norm_num)⟩
    · obtain ⟨x, scaled, nonneg, bound⟩ :=
        Binary32.round_finite (mul_nonneg shrunkNonneg positive.le)
          (le_trans (mul_le_of_le_one_right shrunkNonneg thresholdOne) shrunkBound) (by norm_num)
      rw [threshold]
      exact ⟨x, scaled, nonneg, lt_of_le_of_lt bound (by norm_num)⟩
  obtain ⟨x, value, nonneg, bound⟩ := limit
  rw [value]
  refine toSize_of_lt nonneg ?_
  rw [ofNat_sizeMax]
  have max : ((sizeMax + 1 : ℕ) : ℚ) = 2 ^ 64 := by
    have nat : sizeMax + 1 = 2 ^ 64 := by decide
    rw [nat]
    norm_num
  rw [max]
  simpa [Binary32.le] using bound

/-! ## The fuel plays no part in a size -/

private theorem isPrimeLoop_unique {divisor square fuel' : ℕ} {prime prime' : Bool}
    (run : isPrimeLoop candidate fuel divisor square = .ok prime)
    (run' : isPrimeLoop candidate fuel' divisor square = .ok prime') : prime = prime' := by
  induction fuel generalizing fuel' divisor square with
  | zero => cases run
  | succ fuel ih =>
    cases fuel' with
    | zero => cases run'
    | succ fuel' =>
      rw [isPrimeLoop] at run run'
      split_ifs at run run' with more
      · exact ih run run'
      · cases run
        cases run'
        rfl

private theorem nextPrimeLoop_unique {rounds rounds' fuel' n n' : ℕ}
    (run : nextPrimeLoop rounds fuel candidate = .ok n)
    (run' : nextPrimeLoop rounds' fuel' candidate = .ok n') : n = n' := by
  induction fuel generalizing fuel' candidate with
  | zero => cases run
  | succ fuel ih =>
    cases fuel' with
    | zero => cases run'
    | succ fuel' =>
      rw [nextPrimeLoop] at run run'
      split_ifs at run run' with last
      · cases run
        cases run'
        rfl
      cases first : isPrime rounds candidate with
      | error fault =>
        rw [first] at run
        cases run
      | ok prime =>
        cases second : isPrime rounds' candidate with
        | error fault =>
          rw [second] at run'
          cases run'
        | ok prime' =>
          rw [first] at run
          rw [second, ← isPrimeLoop_unique first second] at run'
          cases prime with
          | false => exact ih run run'
          | true =>
            cases run
            cases run'
            rfl

theorem computeBucketSize_unique {fuel' n n' : ℕ} (run : computeBucketSize fuel candidate tuning = .ok n)
    (run' : computeBucketSize fuel' candidate tuning = .ok n') : n = n' := by
  have prime : ∀ {c : ℕ},
      (nextPrime fuel c >>= fun n => if ptrdiffMax < n * 8 then (.ok 0 : Except Fault ℕ) else .ok n) = .ok n →
      (nextPrime fuel' c >>= fun n => if ptrdiffMax < n * 8 then (.ok 0 : Except Fault ℕ) else .ok n) = .ok n' → n = n' := by
    intro c run run'
    obtain ⟨p, found, run⟩ := bind_eq_ok.mp run
    obtain ⟨p', found', run'⟩ := bind_eq_ok.mp run'
    cases nextPrimeLoop_unique found found'
    exact Except.ok.inj (run.symm.trans run')
  simp only [computeBucketSize] at run run'
  by_cases counted : tuning.isNBuckets = true
  · rw [if_pos counted] at run run'
    exact prime run run'
  rw [if_neg counted] at run run'
  by_cases huge : (Binary32.ofNat sizeMax).le ((Binary32.ofNat candidate).div tuning.growthThreshold) = true
  · rw [if_pos huge] at run run'
    exact Except.ok.inj (run.symm.trans run')
  · rw [if_neg huge] at run run'
    obtain ⟨size, converted, run⟩ := bind_eq_ok.mp run
    obtain ⟨size', converted', run'⟩ := bind_eq_ok.mp run'
    cases converted.symm.trans converted'
    exact prime run run'

end Yalibct.Hash
