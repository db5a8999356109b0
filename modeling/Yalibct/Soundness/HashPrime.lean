import Mathlib.Data.Nat.Prime.Basic
import Mathlib.Order.Bounds.Defs
import Mathlib.Tactic.Ring
import Yalibct.Soundness.HashSize

/-! # The search for a prime

The square that `is_prime` keeps wraps for the largest candidates. A square that has wrapped ends the
loop late, never early: a candidate with a proper divisor has one that the loop meets before the square
wraps. The loop still ends before it reaches the candidate, since one odd number has a square that wraps to
the largest size that a square can wrap to.
-/

namespace Yalibct.Hash

open Machine

variable {candidate divisor square stop fuel : ℕ} {tuning : HashTuning}

/-! ## One candidate -/

/-- The loop at an odd divisor: no smaller one divides, and the square is that of the divisor but for
wrapping. -/
structure Trial (candidate divisor square : ℕ) : Prop where
  odd : divisor % 2 = 1
  large : 3 ≤ divisor
  squared : square = divisor * divisor % 2 ^ 64
  passed : ∀ d, 3 ≤ d → d < divisor → d % 2 = 1 → candidate % d ≠ 0

private theorem trial_start (candidate : ℕ) : Trial candidate 3 9 where
  odd := rfl
  large := Nat.le_refl 3
  squared := rfl
  passed _ lower upper := absurd lower (Nat.not_le_of_lt upper)

theorem Trial.next (trial : Trial candidate divisor square) (more : candidate % divisor ≠ 0) :
    Trial candidate (divisor + 2) (sizeT (square + 4 * (divisor + 1))) where
  odd := by rw [Nat.add_mod_right, trial.odd]
  large := Nat.le_add_right_of_le trial.large
  squared := by
    have expand : (divisor + 2) * (divisor + 2) = divisor * divisor + 4 * (divisor + 1) := by ring
    rw [sizeT_eq, trial.squared, Nat.mod_add_mod, expand]
  passed := by
    intro d lower upper odd
    have divisorOdd := trial.odd
    rcases Nat.lt_or_ge d divisor with earlier | late
    · exact trial.passed d lower earlier odd
    · obtain rfl : d = divisor := by omega
      exact more

/-- The loop ends here at the latest. -/
def EndsAt (candidate stop : ℕ) : Prop := candidate ≤ stop * stop % 2 ^ 64 ∨ candidate % stop = 0

/-- Where the loop ends, and what it returns. -/
theorem isPrimeLoop_trial (trial : Trial candidate divisor square) (stopOdd : stop % 2 = 1)
    (before : divisor ≤ stop) (stops : EndsAt candidate stop) :
    Outcome (fun fault => fault = .unfinished ∧ fuel ≤ stop - divisor)
      (fun prime => ∃ last square, Trial candidate last square ∧ last ≤ stop ∧
        (candidate ≤ square ∨ candidate % last = 0) ∧ prime = decide (candidate % last ≠ 0))
      (isPrimeLoop candidate fuel divisor square) := by
  induction fuel generalizing divisor square with
  | zero => exact ⟨rfl, Nat.zero_le _⟩
  | succ fuel ih =>
    rw [isPrimeLoop]
    by_cases more : square < candidate ∧ candidate % divisor ≠ 0
    · rw [if_pos more]
      -- The loop goes on, so this is not yet where it stops.
      have differ : divisor ≠ stop := by
        rintro rfl
        rcases stops with squared | divides
        · rw [← trial.squared] at squared
          exact Nat.not_le_of_lt more.1 squared
        · exact more.2 divides
      have odd := trial.odd
      refine (ih (trial.next more.2) (by omega)).mono ?_ fun _ done => done
      rintro fault ⟨short, rounds⟩
      exact ⟨short, by omega⟩
    · rw [if_neg more]
      have ended : candidate ≤ square ∨ candidate % divisor = 0 := by omega
      exact ⟨divisor, square, trial, before, ended, rfl⟩

/-- A number whose square wraps to the largest size that is one more than a multiple of eight. -/
def wrappedRoot : ℕ := 1852311383259529397

private theorem endsAt_wrappedRoot (bound : candidate ≤ 2 ^ 64 - 7) : EndsAt candidate wrappedRoot :=
  .inl (Nat.le_trans bound (by decide))

/-- Every size stops the loop. -/
theorem exists_endsAt (bound : candidate ≤ sizeMax) :
    ∃ stop, stop % 2 = 1 ∧ 3 ≤ stop ∧ stop ≤ wrappedRoot ∧ EndsAt candidate stop := by
  rcases Nat.lt_or_ge (2 ^ 64 - 7) candidate with large | small
  · -- The last sizes each have a small divisor.
    have cases : candidate = 2 ^ 64 - 6 ∨ candidate = 2 ^ 64 - 5 ∨ candidate = 2 ^ 64 - 4 ∨
        candidate = 2 ^ 64 - 3 ∨ candidate = 2 ^ 64 - 2 ∨ candidate = 2 ^ 64 - 1 := by
      rw [sizeMax] at bound
      omega
    rcases cases with rfl | rfl | rfl | rfl | rfl | rfl
    · exact ⟨5, rfl, by decide, by decide, .inr rfl⟩
    · exact ⟨11, rfl, by decide, by decide, .inr rfl⟩
    · exact ⟨3, rfl, by decide, by decide, .inr rfl⟩
    · exact ⟨13, rfl, by decide, by decide, .inr rfl⟩
    · exact ⟨7, rfl, by decide, by decide, .inr rfl⟩
    · exact ⟨3, rfl, by decide, by decide, .inr rfl⟩
  · exact ⟨wrappedRoot, rfl, by decide, Nat.le_refl _, endsAt_wrappedRoot small⟩

/-- An odd candidate stops the loop before the divisor is the candidate itself. -/
theorem exists_endsAt_below (odd : candidate % 2 = 1) (large : 11 ≤ candidate) (bound : candidate ≤ sizeMax) :
    ∃ stop, stop % 2 = 1 ∧ 3 ≤ stop ∧ stop < candidate ∧ EndsAt candidate stop := by
  rcases Nat.lt_or_ge wrappedRoot candidate with wraps | small
  · obtain ⟨stop, stopOdd, lower, upper, stops⟩ := exists_endsAt bound
    exact ⟨stop, stopOdd, lower, Nat.lt_of_le_of_lt upper wraps, stops⟩
  rcases Nat.lt_or_ge (2 ^ 32) candidate with long | short
  · -- The largest odd number whose square does not wrap.
    refine ⟨2 ^ 32 - 1, rfl, by decide, by omega, .inl (Nat.le_trans small (by decide))⟩
  · -- The square of the odd number before the candidate is beyond it, and does not wrap.
    obtain ⟨stop, rfl⟩ : ∃ stop, candidate = stop + 2 := ⟨candidate - 2, by omega⟩
    have exact : stop * stop < 2 ^ 64 := by
      calc stop * stop < 2 ^ 32 * 2 ^ 32 := Nat.mul_self_lt_mul_self (by omega)
        _ = 2 ^ 64 := by decide
    have beyond : stop + 2 ≤ stop * stop := by
      calc stop + 2 ≤ 9 * stop := by omega
        _ ≤ stop * stop := Nat.mul_le_mul_right stop (by omega)
    exact ⟨stop, by omega, by omega, by omega, .inl (by rw [Nat.mod_eq_of_lt exact]; exact beyond)⟩

theorem Trial.not_prime (trial : Trial candidate divisor square) (below : divisor < candidate)
    (divides : candidate % divisor = 0) : ¬ candidate.Prime := by
  intro prime
  have large := trial.large
  rcases (Nat.dvd_prime prime).mp (Nat.dvd_of_mod_eq_zero divides) with one | itself
  · omega
  · omega

/-- A composite number has a divisor whose square has not wrapped. -/
theorem Trial.prime (trial : Trial candidate divisor square) (odd : candidate % 2 = 1) (large : 11 ≤ candidate)
    (bound : candidate ≤ sizeMax) (reached : candidate ≤ square) (last : candidate % divisor ≠ 0) :
    candidate.Prime := by
  by_contra composite
  have least := Nat.minFac_prime (show candidate ≠ 1 by omega)
  have factor : candidate % candidate.minFac = 0 := Nat.mod_eq_zero_of_dvd (Nat.minFac_dvd candidate)
  have factorOdd : candidate.minFac % 2 = 1 := by
    rcases least.eq_two_or_odd with two | isOdd
    · rw [two] at factor
      omega
    · exact isOdd
  have factorLarge : 3 ≤ candidate.minFac := by
    have two := least.two_le
    omega
  have ahead : divisor < candidate.minFac := by
    rcases Nat.lt_trichotomy divisor candidate.minFac with less | same | more
    · exact less
    · rw [same] at last
      exact absurd factor last
    · exact absurd factor (trial.passed _ factorLarge more factorOdd)
  have small : divisor * divisor < candidate :=
    calc divisor * divisor < candidate.minFac * candidate.minFac := Nat.mul_self_lt_mul_self ahead
      _ = candidate.minFac ^ 2 := (Nat.pow_two _).symm
      _ ≤ candidate := Nat.minFac_sq_le_self (by omega) composite
  have whole : square = divisor * divisor := by
    rw [trial.squared]
    exact Nat.mod_eq_of_lt (by rw [sizeMax] at bound; omega)
  omega

/-- `is_prime` ends for every size. -/
theorem isPrime_ends (bound : candidate ≤ sizeMax) (enough : wrappedRoot < fuel) :
    ∃ prime, isPrime fuel candidate = .ok prime := by
  obtain ⟨stop, stopOdd, lower, upper, stops⟩ := exists_endsAt bound
  have ended : Outcome _ _ (isPrime fuel candidate) :=
    isPrimeLoop_trial (trial_start candidate) stopOdd lower stops
  cases result : isPrime fuel candidate with
  | ok prime => exact ⟨prime, rfl⟩
  | error fault =>
    rw [result] at ended
    have rounds : fuel ≤ stop - 3 := ended.2
    omega

/-- `is_prime` tells the primes among the odd numbers that it is called with. -/
theorem isPrime_eq (odd : candidate % 2 = 1) (large : 11 ≤ candidate) (bound : candidate ≤ sizeMax) {prime : Bool}
    (result : isPrime fuel candidate = .ok prime) : prime = true ↔ candidate.Prime := by
  obtain ⟨stop, stopOdd, lower, upper, stops⟩ := exists_endsAt_below odd large bound
  have ended : Outcome _ _ (isPrime fuel candidate) :=
    isPrimeLoop_trial (trial_start candidate) stopOdd lower stops
  obtain ⟨last, square, trial, within, reached, rfl⟩ := ended.post_of_ok result
  rw [decide_eq_true_eq]
  constructor
  · intro passed
    rcases reached with squared | divides
    · exact trial.prime odd large bound squared passed
    · exact absurd divides passed
  · intro prime divides
    exact trial.not_prime (by omega) divides prime

/-! ## The next one -/

/-- No prime is skipped, and what is returned is one unless it is the last size. -/
theorem nextPrimeLoop_least {rounds : ℕ} (odd : candidate % 2 = 1) (large : 11 ≤ candidate)
    (bound : candidate ≤ sizeMax) (enough : wrappedRoot < rounds) :
    Outcome (fun fault => fault = .unfinished ∧ fuel ≤ sizeMax - candidate)
      (fun n => candidate ≤ n ∧ n ≤ sizeMax ∧ (n ≠ sizeMax → n.Prime) ∧ ∀ p, p.Prime → candidate ≤ p → n ≤ p)
      (nextPrimeLoop rounds fuel candidate) := by
  induction fuel generalizing candidate with
  | zero => exact ⟨rfl, Nat.zero_le _⟩
  | succ fuel ih =>
    rw [nextPrimeLoop]
    by_cases last : candidate = sizeMax
    · rw [if_pos last]
      exact ⟨Nat.le_refl _, bound, fun differ => absurd last differ, fun _ _ above => above⟩
    rw [if_neg last]
    obtain ⟨prime, tested⟩ := isPrime_ends bound enough
    have correct := isPrime_eq odd large bound tested
    rw [tested]
    cases prime with
    | true =>
      exact ⟨Nat.le_refl _, bound, fun _ => correct.mp rfl, fun _ _ above => above⟩
    | false =>
      have composite : ¬ candidate.Prime := fun prime => Bool.false_ne_true (correct.mpr prime)
      have room : candidate + 2 ≤ sizeMax := by
        have maxOdd : sizeMax % 2 = 1 := by decide
        omega
      refine (ih (by omega) (by omega) room).mono ?_ ?_
      · rintro fault ⟨short, remaining⟩
        exact ⟨short, by omega⟩
      · rintro n ⟨lower, upper, prime, least⟩
        refine ⟨by omega, upper, prime, fun p isPrime above => least p isPrime ?_⟩
        -- The number between the two candidates is even.
        have differ : p ≠ candidate := fun same => composite (same ▸ isPrime)
        have pOdd := isPrime.eq_two_or_odd
        omega

/-- The odd candidate to start from: the primes from it on are those from 11 on that are not below the
candidate. -/
theorem nextPrime_start (bound : candidate ≤ sizeMax) :
    ∃ first, (∀ fuel, nextPrime fuel candidate = nextPrimeLoop fuel fuel first) ∧ first % 2 = 1 ∧ 11 ≤ first ∧
      max candidate 11 ≤ first ∧ first ≤ sizeMax ∧ ∀ p, p.Prime → max candidate 11 ≤ p → first ≤ p := by
  have maxLarge : 11 ≤ sizeMax := by decide
  have maxOdd : sizeMax % 2 = 1 := by decide
  rcases Nat.lt_or_ge candidate 11 with small | large
  · refine ⟨11, fun fuel => ?_, rfl, Nat.le_refl 11, ?_, maxLarge, fun p _ above => ?_⟩
    · have ten : (if candidate < 10 then 10 else candidate) = 10 := by split_ifs <;> omega
      simp only [nextPrime, ten]
      rfl
    · omega
    · omega
  · have counted : (if candidate < 10 then 10 else candidate) = candidate := if_neg (by omega)
    rcases Nat.mod_two_eq_zero_or_one candidate with even | odd
    · refine ⟨candidate + 1, fun fuel => ?_, by omega, by omega, by omega, by omega, fun p prime above => ?_⟩
      · simp only [nextPrime, counted, if_pos even]
      · have pOdd := prime.eq_two_or_odd
        omega
    · refine ⟨candidate, fun fuel => ?_, odd, large, by omega, bound, fun p _ above => by omega⟩
      simp only [nextPrime, counted, if_neg (show ¬ candidate % 2 = 0 by omega)]

/-- `next_prime` returns the least prime, or the last size when there is none below it. -/
theorem nextPrime_least (bound : candidate ≤ sizeMax) (enough : sizeMax < fuel) :
    ∃ n, nextPrime fuel candidate = .ok n ∧ max candidate 11 ≤ n ∧ n ≤ sizeMax ∧ (n ≠ sizeMax → n.Prime) ∧
      ∀ p, p.Prime → max candidate 11 ≤ p → n ≤ p := by
  obtain ⟨first, start, odd, large, above, limit, skips⟩ := nextPrime_start bound
  have rounds : wrappedRoot < fuel := Nat.lt_trans (by decide) enough
  have searched : Outcome _ _ (nextPrimeLoop fuel fuel first) := nextPrimeLoop_least odd large limit rounds
  rw [start]
  cases result : nextPrimeLoop fuel fuel first with
  | error fault =>
    rw [result] at searched
    have remaining : fuel ≤ sizeMax - first := searched.2
    omega
  | ok n =>
    rw [result] at searched
    obtain ⟨lower, upper, prime, least⟩ := searched
    exact ⟨n, rfl, Nat.le_trans above lower, upper, prime, fun p isPrime beyond => least p isPrime (skips p isPrime beyond)⟩

/-- The sizes that `compute_bucket_size` chooses from. -/
def bucketSizes (candidate : ℕ) : Set ℕ := {p | p.Prime ∧ max candidate 11 ≤ p}

/-- With a candidate that counts buckets, `compute_bucket_size` ends. What it returns is the least prime from
the candidate and from 11 on; it is zero only if no array of that many entries is possible, nor one of that
many pointers. -/
theorem computeBucketSize_least (counted : tuning.isNBuckets = true) (bound : candidate ≤ sizeMax)
    (enough : sizeMax < fuel) :
    (∀ n ≤ sizeMax, ∃ prime, isPrime fuel n = .ok prime) ∧ (∃ n, nextPrime fuel candidate = .ok n) ∧
      ∃ size, computeBucketSize fuel candidate tuning = .ok size ∧
        (size ≠ 0 → IsLeast (bucketSizes candidate) size) ∧
        (size = 0 → ∀ p, IsLeast (bucketSizes candidate) p → ptrdiffMax < p * 8 ∧ ptrdiffMax < p * HashEntry.size) := by
  obtain ⟨n, next, above, upper, prime, least⟩ := nextPrime_least bound enough
  refine ⟨fun m limit => isPrime_ends limit (Nat.lt_trans (by decide) enough), ⟨n, next⟩, ?_⟩
  have computed : computeBucketSize fuel candidate tuning = if ptrdiffMax < n * 8 then .ok 0 else .ok n := by
    simp only [computeBucketSize, if_pos counted]
    exact bind_of_ok next
  rw [computed]
  by_cases large : ptrdiffMax < n * 8
  · rw [if_pos large]
    refine ⟨0, rfl, fun nonzero => absurd rfl nonzero, fun _ p isLeast => ?_⟩
    have beyond : n ≤ p := least p isLeast.1.1 isLeast.1.2
    rw [HashEntry.size]
    omega
  · rw [if_neg large]
    -- The last size is no possible size of an array.
    have inside : n ≠ sizeMax := by
      rintro rfl
      exact large (by decide)
    refine ⟨n, rfl, fun _ => ⟨⟨prime inside, above⟩, fun p member => least p member.1 member.2⟩, fun zero => ?_⟩
    omega

theorem computeBucketSize_least_twelve :
    computeBucketSize (sizeMax + 1) 12 { defaultTuning with isNBuckets := true } = .ok 13 ∧
      IsLeast (bucketSizes 12) 13 := by
  have value : computeBucketSize (sizeMax + 1) 12 { defaultTuning with isNBuckets := true } = .ok 13 := by
    decide +kernel
  have counted : ({ defaultTuning with isNBuckets := true } : HashTuning).isNBuckets = true := rfl
  obtain ⟨-, -, size, computed, least, -⟩ :=
    computeBucketSize_least counted (show 12 ≤ sizeMax by decide) (Nat.lt_succ_self sizeMax)
  obtain rfl : 13 = size := Except.ok.inj (value.symm.trans computed)
  exact ⟨value, least (by decide)⟩

end Yalibct.Hash
