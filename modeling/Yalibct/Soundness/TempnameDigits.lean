import Mathlib.Data.Int.CardIntervalMod
import Mathlib.Data.Nat.Digits.Defs
import Mathlib.Data.Set.Card
import Yalibct.Soundness.Tempname

/-! # Unbiased letters

The words that are kept are those below a multiple of 62¹⁰, so each sequence of up to ten digits belongs
to as many of them as any other.
-/

namespace Yalibct.Tempname

open Machine

variable {n : ℕ} {v : UInt64} {ds : List UInt64}

/-- The digits that are taken from a word, one after the other. -/
def digits : ℕ → UInt64 → List UInt64
  | 0, _ => []
  | n + 1, v => v % 62 :: digits n (v / 62)

/-- The letters are those of the digits. -/
theorem takeLetters_eq_digits (g : Generator) (enough : n ≤ g.vdigits) :
    ∃ g', takeLetters n g = some ((digits n g.vdigbuf).map letter, g') := by
  induction n generalizing g with
  | zero => exact ⟨g, rfl⟩
  | succ n ih =>
    have filled : refill g = some g := if_neg (by omega)
    obtain ⟨g', taken⟩ := ih { g with vdigbuf := g.vdigbuf / 62, vdigits := g.vdigits - 1 } (Nat.le_sub_one_of_lt enough)
    refine ⟨g', ?_⟩
    unfold takeLetters
    rw [filled]
    dsimp only
    rw [taken]
    rfl

/-- The number with these digits, the last one first. -/
def code (ds : List UInt64) : ℕ := Nat.ofDigits 62 (ds.map UInt64.toNat)

/-- The digits of a word are its rest. -/
theorem digits_eq_iff (bound : ∀ d ∈ ds, d < 62) : digits ds.length v = ds ↔ v.toNat % 62 ^ ds.length = code ds := by
  induction ds generalizing v with
  | nil => simp [digits, code, Nat.mod_one]
  | cons d ds ih =>
    obtain ⟨small, bound⟩ := List.forall_mem_cons.mp bound
    have rest := @ih (v / 62) bound
    have small : d.toNat < 62 := UInt64.lt_iff_toNat_lt.mp small
    have first : v % 62 = d ↔ v.toNat % 62 = d.toNat := by
      rw [← UInt64.toNat_inj, UInt64.toNat_mod]
      rfl
    have split : v.toNat % 62 ^ (d :: ds).length = v.toNat % 62 + 62 * (v.toNat / 62 % 62 ^ ds.length) := by
      rw [List.length_cons, Nat.pow_succ', Nat.mod_mul]
    have head : code (d :: ds) = d.toNat + 62 * code ds := Nat.ofDigits_cons ..
    rw [UInt64.toNat_div] at rest
    change _ ↔ v.toNat / 62 % _ = _ at rest
    rw [List.length_cons, digits, List.cons.injEq, first, rest, ← List.length_cons, split, head]
    omega

private theorem code_lt (bound : ∀ d ∈ ds, d < 62) : code ds < 62 ^ ds.length := by
  have digit : ∀ d ∈ ds.map UInt64.toNat, d < 62 := by
    intro d member
    obtain ⟨e, among, rfl⟩ := List.mem_map.mp member
    exact UInt64.lt_iff_toNat_lt.mp (bound e among)
  have below := Nat.ofDigits_lt_base_pow_length (by decide) digit
  rwa [List.length_map] at below

/-! ## Counting -/

/-- The words below a bound whose values have a property are as many as these values. -/
theorem ncard_lt (bound : UInt64) (p : ℕ → Prop) [DecidablePred p] :
    {v : UInt64 | v < bound ∧ p v.toNat}.ncard = bound.toNat.count p := by
  have image : UInt64.toNat '' {v : UInt64 | v < bound ∧ p v.toNat} =
      ((Finset.range bound.toNat).filter p : Set ℕ) := by
    ext m
    simp only [Set.mem_image, Set.mem_ofPred_eq, Finset.coe_filter, Finset.mem_range]
    constructor
    · rintro ⟨v, ⟨below, holds⟩, rfl⟩
      exact ⟨UInt64.lt_iff_toNat_lt.mp below, holds⟩
    · rintro ⟨below, holds⟩
      have whole : (UInt64.ofNat m).toNat = m := by
        rw [UInt64.toNat_ofNat']
        exact Nat.mod_eq_of_lt (Nat.lt_trans below bound.toNat_lt)
      refine ⟨UInt64.ofNat m, ⟨UInt64.lt_iff_toNat_lt.mpr (by rw [whole]; exact below), by rw [whole]; exact holds⟩, whole⟩
  rw [← Set.ncard_image_of_injective _ (fun _ _ => UInt64.toNat_inj.mp), image, Set.ncard_coe_finset,
    Nat.count_eq_card_filter_range]

/-- Below a multiple of a number, every rest occurs equally often. -/
theorem count_mod (k : ℕ) {r c : ℕ} (bound : c < r) : (k * r).count (fun m => m % r = c) = k := by
  have counted := Nat.count_modEq_card (k * r) (Nat.zero_lt_of_lt bound) c
  rw [Nat.mul_div_cancel k (Nat.zero_lt_of_lt bound), Nat.mul_mod_left, if_neg (Nat.not_lt_zero _), Nat.add_zero]
    at counted
  refine Eq.trans ?_ counted
  congr 1
  funext m
  rw [Nat.ModEq, Nat.mod_eq_of_lt bound]

private theorem biasedMin_toNat : biasedMin.toNat = 21 * 62 ^ base62Digits := by decide +kernel

/-- A word of high quality is kept if and only if it is below the bound. Of the words that are kept, as
many give one sequence of digits as give any other; and they are more than half of all words. -/
theorem kept_words_unbiased :
    (∀ s errno word draws, drawWord s errno (.getrandom word :: draws) =
      if word < biasedMin then some (word, errno, draws) else drawWord word errno draws) ∧
    (∀ word errno draws, ∀ n ≤ base62Digits, ∃ g,
      takeLetters n ⟨word, word, base62Digits, errno, draws⟩ = some ((digits n word).map letter, g)) ∧
    (∀ ds : List UInt64, ds.length ≤ base62Digits → (∀ d ∈ ds, d < 62) →
      {word | word < biasedMin ∧ digits ds.length word = ds}.ncard = 21 * 62 ^ (base62Digits - ds.length)) ∧
    2 ^ 64 ≤ 2 * {word | word < biasedMin}.ncard := by
  refine ⟨fun s errno word draws => ?_, fun word errno draws n short => ?_, fun ds short bound => ?_, ?_⟩
  · rw [drawWord_cons]
    simp only [Draw.kept, decide_eq_true_eq, randomBits]
  · exact takeLetters_eq_digits _ short
  · simp only [digits_eq_iff bound]
    rw [ncard_lt biasedMin fun m => m % 62 ^ ds.length = code ds, biasedMin_toNat]
    have whole : 21 * 62 ^ base62Digits = 21 * 62 ^ (base62Digits - ds.length) * 62 ^ ds.length := by
      rw [Nat.mul_assoc, ← Nat.pow_add, Nat.sub_add_cancel short]
    rw [whole]
    exact count_mod _ (code_lt bound)
  · have all := ncard_lt biasedMin fun _ => True
    simp only [and_true, Nat.count_true] at all
    rw [all, biasedMin_toNat]
    decide

end Yalibct.Tempname
