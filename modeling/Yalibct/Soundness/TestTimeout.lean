import Mathlib.Tactic.SplitIfs
import Yalibct.Machine.Bytes
import Yalibct.Model.TestDriver

/-! # When the alarm of the test driver is set

The factor is an `unsigned long` when it is made at least one, and loses its upper half afterwards. The product
with the time-out wraps too. The first factor for which it wraps gives less than the one before it, so that up to a
factor all is well exactly when its product does not wrap.
-/

namespace Yalibct.TestDriver

open Machine

namespace Session

/-- The factor that the environment asks for, before it is narrowed. -/
def factor (s : Session) : ℕ := (s.env.timeoutfactor.bind (requestedFactor s.binary)).getD 1

/-- The configured time-out, or the default one. -/
def timeout (s : Session) : ℕ := if s.config.timeout = 0 then 20 else s.config.timeout.toNat

end Session

variable {s : Session} {testPid seconds : ℕ}

private theorem requestedFactor_pos {binary : Bool} {text : Text} {factor : ℕ}
    (requested : requestedFactor binary text = some factor) : 1 ≤ factor := by
  simp only [requestedFactor] at requested
  split_ifs at requested
  cases requested
  exact Nat.le_max_right ..

private theorem factor_pos (s : Session) : 1 ≤ s.factor := by
  rw [Session.factor]
  cases requested : s.env.timeoutfactor.bind (requestedFactor s.binary) with
  | none => exact Nat.le_refl 1
  | some factor =>
    obtain ⟨text, -, asked⟩ := Option.bind_eq_some_iff.mp requested
    exact requestedFactor_pos asked

/-- The variable of the code is the lower half of the factor. -/
theorem timeoutfactor_eq (s : Session) : timeoutfactor s.binary s.env.timeoutfactor = s.factor % 2 ^ 32 := by
  unfold timeoutfactor Session.factor
  cases s.env.timeoutfactor with
  | none => rfl
  | some text =>
    simp only [Option.bind_some]
    cases requestedFactor s.binary text with
    | none => rfl
    | some factor => rfl

/-- What the driver passes to `alarm`. -/
def Session.alarm (s : Session) : ℕ :=
  (((if s.config.timeout = 0 then defaultTimeout else s.config.timeout) *
    timeoutfactor s.binary s.env.timeoutfactor) % 2 ^ 32).toNat

private theorem product_eq (a b : ℕ) : ((a : ℤ) * b) % 2 ^ 32 = (a * b % 2 ^ 32 : ℕ) := by
  rw [Int.natCast_emod, Int.natCast_mul]
  rfl

/-- The alarm is the product, but for wrapping. -/
theorem alarm_eq_mod (nonneg : 0 ≤ s.config.timeout) : s.alarm = s.timeout * s.factor % 2 ^ 32 := by
  have timeout : (if s.config.timeout = 0 then defaultTimeout else s.config.timeout) = (s.timeout : ℤ) := by
    rw [Session.timeout]
    split_ifs
    · rfl
    · exact (Int.toNat_of_nonneg nonneg).symm
  rw [Session.alarm, timeout, timeoutfactor_eq, product_eq, Int.toNat_natCast, Nat.mul_mod, Nat.mod_mod,
    ← Nat.mul_mod]

private theorem timeout_pos (nonneg : 0 ≤ s.config.timeout) : 0 < s.timeout := by
  rw [Session.timeout]
  split_ifs <;> omega

/-- The same run with another value of `TIMEOUTFACTOR`. -/
def Session.asking (s : Session) (value : Option Text) : Session :=
  { s with env := { s.env with timeoutfactor := value } }

/-- Whether the driver forks does not depend on the factor. -/
private theorem forks_alarm (forked : supportTestMain s = .forks testPid seconds) (value : Option Text) :
    supportTestMain (s.asking value) = .forks testPid (s.asking value).alarm := by
  unfold supportTestMain at forked ⊢
  rcases read : readOptions s.opts s.env.waitForDebugger.isSome none with _ | ⟨direct, testDir⟩
  · simp only [read] at forked
    split_ifs at forked
  · rcases child : s.calls.fork with _ | pid
    · simp only [read, child] at forked
      split_ifs at forked
    · simp only [read, child] at forked
      generalize (if s.config.timeout = 0 then defaultTimeout else s.config.timeout) = timeout at forked
      split_ifs at forked with called setenv chdir stdio opened printed directly
      cases forked
      simp only [Session.asking, read, child, called, setenv, chdir, stdio, opened, printed, directly, ↓reduceIte]
      rfl

/-- A driver that forks sets its alarm to this. -/
theorem seconds_eq_mod (nonneg : 0 ≤ s.config.timeout) (forked : supportTestMain s = .forks testPid seconds) :
    seconds = s.timeout * s.factor % 2 ^ 32 := by
  have again : supportTestMain s = .forks testPid s.alarm := forks_alarm forked s.env.timeoutfactor
  rw [forked] at again
  cases again
  exact alarm_eq_mod nonneg

theorem forks_asking (nonneg : 0 ≤ s.config.timeout) (forked : supportTestMain s = .forks testPid seconds)
    (value : Option Text) :
    supportTestMain (s.asking value) = .forks testPid (s.timeout * (s.asking value).factor % 2 ^ 32) := by
  have product : (s.asking value).alarm = s.timeout * (s.asking value).factor % 2 ^ 32 := alarm_eq_mod nonneg
  rw [forks_alarm forked value, product]

/-- Every factor can be asked for. -/
theorem exists_asking (s : Session) {n : ℕ} (positive : 1 ≤ n) (bound : n ≤ ulongMax) :
    ∃ value, (s.asking value).factor = n := by
  refine ⟨some (octal n), ?_⟩
  have requested : requestedFactor s.binary (octal n) = some n := by
    rw [requestedFactor, strtoul_octal s.binary bound]
    dsimp only
    rw [if_pos ⟨rfl, (List.cons_ne_nil _ _).symm⟩, Nat.max_eq_left positive]
  rw [Session.factor]
  change (requestedFactor s.binary (octal n)).getD 1 = n
  rw [requested]
  rfl

/-- Among the factors up to that of the run, a larger one never shortens the time-out. -/
def Session.NeverShortens (s : Session) : Prop :=
  ∀ smaller larger pid pid' seconds seconds', (s.asking smaller).factor ≤ (s.asking larger).factor →
    (s.asking larger).factor ≤ s.factor → supportTestMain (s.asking smaller) = .forks pid seconds →
    supportTestMain (s.asking larger) = .forks pid' seconds' → seconds ≤ seconds'

/-- Products that do not wrap are in the order of the factors. -/
theorem neverShortens_of_lt (nonneg : 0 ≤ s.config.timeout) (small : s.timeout * s.factor < 2 ^ 32) :
    s.NeverShortens := by
  intro smaller larger pid pid' seconds seconds' order upper forked forked'
  have before : s.timeout * (s.asking smaller).factor ≤ s.timeout * (s.asking larger).factor :=
    Nat.mul_le_mul_left _ order
  have most : s.timeout * (s.asking larger).factor ≤ s.timeout * s.factor := Nat.mul_le_mul_left _ upper
  have first := seconds_eq_mod (s := s.asking smaller) nonneg forked
  have second := seconds_eq_mod (s := s.asking larger) nonneg forked'
  have timeout : (s.asking smaller).timeout = s.timeout ∧ (s.asking larger).timeout = s.timeout := ⟨rfl, rfl⟩
  rw [timeout.1] at first
  rw [timeout.2] at second
  omega

/-- The first product that wraps is less than the one before it. -/
theorem lt_of_neverShortens (nonneg : 0 ≤ s.config.timeout) (int : s.config.timeout ≤ intMax)
    (forked : supportTestMain s = .forks testPid seconds) (never : s.NeverShortens) : s.timeout * s.factor < 2 ^ 32 := by
  by_contra wraps
  have positive := timeout_pos nonneg
  have small : s.timeout < 2 ^ 31 := by
    rw [intMax] at int
    rw [Session.timeout]
    split_ifs <;> omega
  -- The last factor that does not wrap.
  obtain ⟨last, division⟩ : ∃ last, last = (2 ^ 32 - 1) / s.timeout := ⟨_, rfl⟩
  have least : 1 ≤ last := by
    rw [division]
    exact (Nat.one_le_div_iff positive).mpr (by omega)
  have below : s.timeout * last < 2 ^ 32 := by
    have product := Nat.mul_div_le (2 ^ 32 - 1) s.timeout
    rw [← division] at product
    omega
  have beyond : 2 ^ 32 ≤ s.timeout * last + s.timeout := by
    have product := Nat.lt_mul_div_succ (2 ^ 32 - 1) positive
    rw [← division, Nat.mul_succ] at product
    omega
  have next : s.timeout * (last + 1) = s.timeout * last + s.timeout := Nat.mul_succ ..
  have within : last + 1 ≤ s.factor := by
    by_contra more
    have order := Nat.mul_le_mul_left s.timeout (show s.factor ≤ last by omega)
    omega
  have few : last < 2 ^ 32 := Nat.lt_of_le_of_lt (Nat.le_mul_of_pos_left last positive) below
  obtain ⟨smaller, lastAsked⟩ := exists_asking s least (by rw [ulongMax]; omega)
  obtain ⟨larger, nextAsked⟩ := exists_asking s (Nat.le_add_left 1 last) (by rw [ulongMax]; omega)
  have order := never smaller larger testPid testPid _ _ (by omega) (by omega) (forks_asking nonneg forked smaller)
    (forks_asking nonneg forked larger)
  rw [lastAsked, nextAsked, next] at order
  omega

/-- The alarm is armed, not for less than the time-out, and up to this factor a larger one never shortens it, if and
only if the product of time-out and factor does not wrap. -/
theorem alarm_armed_iff (nonneg : 0 ≤ s.config.timeout) (int : s.config.timeout ≤ intMax)
    (forked : supportTestMain s = .forks testPid seconds) :
    seconds ≠ 0 ∧ s.timeout ≤ seconds ∧ s.NeverShortens ↔ s.timeout * s.factor < 2 ^ 32 := by
  constructor
  · rintro ⟨-, -, never⟩
    exact lt_of_neverShortens nonneg int forked never
  · intro small
    have set := seconds_eq_mod nonneg forked
    have positive := timeout_pos nonneg
    have least : s.timeout ≤ s.timeout * s.factor := Nat.le_mul_of_pos_right _ (factor_pos s)
    rw [Nat.mod_eq_of_lt small] at set
    exact ⟨by omega, by omega, neverShortens_of_lt nonneg small⟩

/-- A driver with the default time-out, and this value of `TIMEOUTFACTOR`. -/
def withFactor (text : Text) : Session where
  testMainCalled := false
  binary := false
  config := ⟨0, 0, 0, false⟩
  env := ⟨none, some text, none⟩
  opts := []
  calls := ⟨true, true, true, true, true, true, some 2⟩

/-- `"3"` -/
theorem alarm_armed_three : supportTestMain (withFactor [51]) = .forks 2 60 ∧ 20 ≤ 60 ∧ (withFactor [51]).NeverShortens := by
  have forked : supportTestMain (withFactor [51]) = .forks 2 60 := by decide
  have armed := (alarm_armed_iff (s := withFactor [51]) (by decide) (by decide) forked).mpr (by decide)
  exact ⟨forked, armed.2⟩

/-- `"4294967296"` -/
def twoToThe32 : Text := [52, 50, 57, 52, 57, 54, 55, 50, 57, 54]

/-- The alarm is not set at all. -/
theorem alarm_never : supportTestMain (withFactor twoToThe32) = .forks 2 0 ∧ (withFactor twoToThe32).timeout = 20 := by
  decide

end Yalibct.TestDriver
