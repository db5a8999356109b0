import Mathlib.Data.List.Range
import Yalibct.Machine.Fallible
import Yalibct.Model.Rngset

/-! # What `rngset` stores

Every byte of the buffer is stored once, in order, and no other byte is. Without the internal generator the
bytes are those of the words of the seed function, which is called once for each word that is begun.
-/

namespace Yalibct.Rngset

open Machine

variable {fuel n m reseed : ℕ} {t : UInt64} {s : Fill}

/-! ## Bytes of words -/

/-- So many of the lowest bytes of a number. -/
def lowBytes (count n : ℕ) : List UInt8 := (List.range count).map fun i => UInt8.ofNat (n / 256 ^ i)

private theorem length_lowBytes (count n : ℕ) : (lowBytes count n).length = count := by simp [lowBytes]

private theorem lowBytes_succ (count n : ℕ) : lowBytes (count + 1) n = UInt8.ofNat n :: lowBytes count (n / 256) := by
  simp only [lowBytes, List.range_succ_eq_map, List.map_cons, List.map_map, Nat.pow_zero, Nat.div_one]
  congr 1
  apply List.map_congr_left
  intro i _
  rw [Function.comp_apply, Nat.pow_succ', Nat.div_div_eq_div_mul]

private theorem take_wordBytes {count : ℕ} (few : count ≤ 8) (n : ℕ) :
    (wordBytes n).take count = lowBytes count n := by
  rw [wordBytes, lowBytes, ← List.map_take, List.take_range, Nat.min_eq_left few]

private theorem toUInt8_eq (t : UInt64) : t.toUInt8 = UInt8.ofNat t.toNat := rfl

/-- A byte of a word, by its mask and its place. -/
theorem masked_byte {mask : UInt64} {k : ℕ} (small : k < 64) (ones : mask.toNat >>> k = 255) (t : UInt64) :
    ((mask &&& t) >>> UInt64.ofNat k).toUInt8 = UInt8.ofNat (t.toNat / 2 ^ k) := by
  apply UInt8.toNat_inj.mp
  have place : (UInt64.ofNat k).toNat % 64 = k := by
    rw [UInt64.toNat_ofNat', Nat.mod_eq_of_lt (Nat.lt_trans small (by decide)), Nat.mod_eq_of_lt small]
  have low : 255 &&& (t.toNat >>> k) = t.toNat >>> k % 256 := by
    rw [Nat.and_comm]
    exact Nat.and_two_pow_sub_one_eq_mod _ 8
  rw [UInt64.toNat_toUInt8, UInt64.toNat_shiftRight, UInt64.toNat_and, place, Nat.shiftRight_and_distrib, ones, low,
    UInt8.toNat_ofNat', Nat.shiftRight_eq_div_pow]
  omega

private theorem wordStores_eq (t : UInt64) : wordStores t = wordBytes t.toNat := by
  have digits : wordBytes t.toNat = [UInt8.ofNat (t.toNat / 2 ^ 0), UInt8.ofNat (t.toNat / 2 ^ 8),
      UInt8.ofNat (t.toNat / 2 ^ 16), UInt8.ofNat (t.toNat / 2 ^ 24), UInt8.ofNat (t.toNat / 2 ^ 32),
      UInt8.ofNat (t.toNat / 2 ^ 40), UInt8.ofNat (t.toNat / 2 ^ 48), UInt8.ofNat (t.toNat / 2 ^ 56)] := rfl
  simp only [digits, wordStores, List.cons.injEq, and_true]
  refine ⟨?_, ?_, ?_, ?_, ?_, ?_, ?_, ?_⟩ <;> exact masked_byte (by decide) (by decide) t

/-! ## The loops -/

@[simp] theorem put_nil (s : Fill) : s.put [] = s := by simp [Fill.put]

private theorem put_put (s : Fill) (bytes more : List UInt8) : (s.put bytes).put more = s.put (bytes ++ more) := by
  simp only [Fill.put, List.zipIdx_append, List.length_append, Nat.add_assoc, List.append_assoc]

private theorem byteLoop_eq (m : ℕ) (t : UInt64) (s : Fill) : (byteLoop m t s).2 = s.put (lowBytes m t.toNat) := by
  induction m generalizing t s with
  | zero => exact (put_nil s).symm
  | succ m ih =>
    have shifted : (t >>> 8).toNat = t.toNat / 256 := by
      rw [UInt64.toNat_shiftRight, Nat.shiftRight_eq_div_pow]
      rfl
    rw [byteLoop, ih, put_put, shifted, lowBytes_succ, toUInt8_eq]
    rfl

/-- The internal generator stores whole words, and leaves less than a word. -/
theorem mixLoop_eq (m : ℕ) (t : UInt64) (s : Fill) :
    ∃ t' out, mixLoop m t s = (m % 8, t', s.put out) ∧ out.length + m % 8 = m := by
  induction m using Nat.strongRecOn generalizing t s with
  | ind m ih =>
    rcases Nat.lt_or_ge m 8 with short | long
    · refine ⟨t, [], ?_, by rw [Nat.mod_eq_of_lt short]; exact Nat.zero_add m⟩
      rw [Nat.mod_eq_of_lt short, put_nil]
      unfold mixLoop
      split
      · omega
      · rfl
    · obtain ⟨m, rfl⟩ := Nat.exists_eq_add_of_le' long
      have first : ∃ t₁ word, mixLoop (m + 8) t s = mixLoop m t₁ (s.put word) ∧ word.length = 8 :=
        ⟨_, wordBytes _, by rw [mixLoop], length_wordBytes _⟩
      obtain ⟨t₁, word, first, eight⟩ := first
      obtain ⟨t', out, rest, length⟩ := ih m (by omega) t₁ (s.put word)
      refine ⟨t', word ++ out, ?_, ?_⟩
      · rw [first, rest, put_put, Nat.add_mod_right]
      · rw [List.length_append, eight, Nat.add_mod_right]
        omega

/-- The bytes stored, and the calls of the seed function made for them. -/
def Fill.after (s : Fill) (out : List UInt8) (calls : ℕ) : Fill := { s.put out with calls := s.calls + calls }

private theorem after_after (s : Fill) (out more : List UInt8) (calls again : ℕ) :
    (s.after out calls).after more again = s.after (out ++ more) (calls + again) := by
  have joined := put_put s out more
  simp only [Fill.put, Fill.mk.injEq] at joined
  simp only [Fill.after, Fill.put, Fill.mk.injEq, Nat.add_assoc]
  exact ⟨by rw [List.length_append], joined.2.1, trivial⟩

private theorem draw_eq (seed : Option (ℕ → UInt64)) (t : UInt64) (s : Fill) :
    ∃ t' calls, draw seed t s = (t', s.after [] calls) := by
  cases seed with
  | none => exact ⟨t, 0, by rw [draw, Fill.after, put_nil]; rfl⟩
  | some f => exact ⟨f s.calls, 1, by rw [draw, Fill.after, put_nil]⟩

private theorem put_after (s : Fill) (out more : List UInt8) (calls : ℕ) :
    (s.after out calls).put more = s.after (out ++ more) calls := by
  have joined := put_put s out more
  simp only [Fill.put, Fill.mk.injEq] at joined
  simp only [Fill.after, Fill.put, Fill.mk.injEq]
  exact ⟨by rw [List.length_append, Nat.add_assoc], joined.2.1, trivial⟩

/-- Each round stores some of the bytes that are left. -/
theorem rngLoop_round (seed : Option (ℕ → UInt64)) (progress : 0 < reseed) (left : n ≠ 0) (t : UInt64) (s : Fill) :
    ∃ t' out calls, rngLoop seed reseed (fuel + 1) n t s = rngLoop seed reseed fuel (n - out.length) t' (s.after out calls) ∧
      out ≠ [] ∧ out.length ≤ n := by
  obtain ⟨t₁, calls, drawn⟩ := draw_eq seed t s
  rw [rngLoop, if_neg left, drawn]
  by_cases mixed : seed.isNone = true ∨ 8 < reseed
  · simp only [if_pos mixed]
    have chosen : 0 < (if reseed < n then reseed else n) ∧ (if reseed < n then reseed else n) ≤ n := by
      split_ifs <;> omega
    generalize (if reseed < n then reseed else n) = m at chosen ⊢
    obtain ⟨t₂, out, words, length⟩ := mixLoop_eq m t₁ (s.after [] calls)
    rw [put_after, List.nil_append] at words
    have bytes := byteLoop_eq (m % 8) t₂ (s.after out calls)
    rw [put_after] at bytes
    rw [words]
    cases rest : byteLoop (m % 8) t₂ (s.after out calls) with
    | mk t₃ s₃ =>
      rw [rest] at bytes
      have whole : (out ++ lowBytes (m % 8) t₂.toNat).length = m := by
        rw [List.length_append, length_lowBytes, length]
      refine ⟨t₃, out ++ lowBytes (m % 8) t₂.toNat, calls, ?_, ?_, ?_⟩
      · rw [whole, ← bytes]
      · exact List.length_pos_iff.mp (by omega)
      · omega
  · simp only [if_neg mixed]
    by_cases long : 8 ≤ n
    · rw [if_pos long, put_after, List.nil_append]
      have whole : (wordStores t₁).length = 8 := rfl
      exact ⟨t₁, wordStores t₁, calls, by rw [whole], List.length_pos_iff.mp (by omega), by omega⟩
    · rw [if_neg long]
      have bytes := byteLoop_eq n t₁ (s.after [] calls)
      rw [put_after, List.nil_append] at bytes
      cases rest : byteLoop n t₁ (s.after [] calls) with
      | mk t₂ s₂ =>
        rw [rest] at bytes
        have whole : (lowBytes n t₁.toNat).length = n := length_lowBytes n _
        refine ⟨t₂, lowBytes n t₁.toNat, calls, ?_, ?_, ?_⟩
        · rw [whole, Nat.sub_self, ← bytes]
        · exact List.length_pos_iff.mp (by omega)
        · omega

/-- The loop ends, and every byte is stored. -/
theorem rngLoop_total (seed : Option (ℕ → UInt64)) (progress : 0 < reseed) (enough : n < fuel) (t : UInt64) (s : Fill) :
    ∃ out calls, rngLoop seed reseed fuel n t s = .ok (s.after out calls) ∧ out.length = n := by
  induction fuel generalizing n t s with
  | zero => exact absurd enough (Nat.not_lt_zero n)
  | succ fuel ih =>
    by_cases done : n = 0
    · subst done
      exact ⟨[], 0, by rw [rngLoop, if_pos rfl, Fill.after, put_nil]; rfl, rfl⟩
    · obtain ⟨t', out, calls, round, some, few⟩ := @rngLoop_round fuel n reseed seed progress done t s
      have some := List.length_pos_iff.mpr some
      obtain ⟨more, again, rest, length⟩ := ih (n := n - out.length) (by omega) t' (s.after out calls)
      refine ⟨out ++ more, calls + again, by rw [round, rest, after_after], ?_⟩
      rw [List.length_append]
      omega

/-- Without the internal generator, each round stores a word of the seed function, or what fits of it. -/
theorem rngLoop_word (f : ℕ → UInt64) (left : n ≠ 0) (t : UInt64) (s : Fill) :
    ∃ t', rngLoop (some f) 8 (fuel + 1) n t s =
      rngLoop (some f) 8 fuel (n - 8) t' (s.after ((wordBytes (f s.calls).toNat).take n) 1) := by
  have drawn : draw (some f) t s = (f s.calls, s.after [] 1) := by rw [draw, Fill.after, put_nil]
  have plain : ¬ ((some f).isNone = true ∨ 8 < 8) := by simp
  rw [rngLoop, if_neg left, drawn]
  simp only [if_neg plain]
  by_cases long : 8 ≤ n
  · rw [if_pos long, put_after, List.nil_append, wordStores_eq, List.take_of_length_le (by rw [length_wordBytes]; exact long)]
    exact ⟨f s.calls, rfl⟩
  · rw [if_neg long, take_wordBytes (by omega)]
    have bytes := byteLoop_eq n (f s.calls) (s.after [] 1)
    rw [put_after, List.nil_append] at bytes
    cases rest : byteLoop n (f s.calls) (s.after [] 1) with
    | mk t₂ s₂ =>
      rw [rest] at bytes
      refine ⟨t₂, ?_⟩
      rw [← bytes, Nat.sub_eq_zero_of_le (by omega)]

/-- The words that a seed function returns from some call on, as bytes. -/
def wordsFrom (f : ℕ → UInt64) (first count : ℕ) : List UInt8 :=
  (List.range' first count).flatMap fun call => wordBytes (f call).toNat

private theorem wordsFrom_succ (f : ℕ → UInt64) (first count : ℕ) :
    wordsFrom f first (count + 1) = wordBytes (f first).toNat ++ wordsFrom f (first + 1) count := by
  rw [wordsFrom, List.range'_succ, List.flatMap_cons]
  rfl

private theorem length_wordsFrom (f : ℕ → UInt64) (first count : ℕ) :
    (wordsFrom f first count).length = 8 * count := by
  induction count generalizing first with
  | zero => rfl
  | succ count ih =>
    rw [wordsFrom_succ, List.length_append, length_wordBytes, ih]
    omega

private theorem rngLoop_words (f : ℕ → UInt64) (enough : n < fuel) (t : UInt64) (s : Fill) :
    rngLoop (some f) 8 fuel n t s =
      .ok (s.after ((wordsFrom f s.calls ((n + 7) / 8)).take n) ((n + 7) / 8)) := by
  induction fuel generalizing n t s with
  | zero => exact absurd enough (Nat.not_lt_zero n)
  | succ fuel ih =>
    by_cases done : n = 0
    · subst done
      rw [rngLoop, if_pos rfl, List.take_zero, Fill.after, put_nil]
      rfl
    · obtain ⟨t', round⟩ := @rngLoop_word fuel n f done t s
      have count : (n + 7) / 8 = (n - 8 + 7) / 8 + 1 := by omega
      rw [round, ih (by omega), after_after, count, wordsFrom_succ, List.take_append, length_wordBytes,
        Nat.add_comm 1]
      rfl

/-- `rngset` ends, and has stored each byte of the buffer, and nothing else. What it stores without the internal
generator are the bytes of the words of the seed function, as far as there is room. -/
theorem rngset_fills (b : ℕ) (seed : Option (ℕ → UInt64)) (reseed : ℕ) (enough : n < fuel) :
    ∃ out calls, rngset fuel b n seed reseed = .ok (b, ⟨b + n, out.zipIdx b, calls⟩) ∧ out.length = n ∧
      ∀ f, seed = some f → reseed ≤ 8 → out = (wordsFrom f 0 ((n + 7) / 8)).take n ∧ calls = (n + 7) / 8 := by
  have stored : ∀ out calls, out.length = n → Fill.after ⟨b, [], 0⟩ out calls = ⟨b + n, out.zipIdx b, calls⟩ := by
    rintro out calls rfl
    simp [Fill.after, Fill.put]
  cases seed with
  | none =>
    have progress : 0 < 2 ^ 64 - 1 := by decide
    obtain ⟨out, calls, filled, length⟩ := rngLoop_total none progress enough (UInt64.ofNat reseed) ⟨b, [], 0⟩
    refine ⟨out, calls, ?_, length, nofun⟩
    rw [← stored out calls length]
    exact bind_of_ok filled
  | some f =>
    by_cases plain : reseed ≤ 8
    · have filled := rngLoop_words f enough 0 ⟨b, [], 0⟩
      have eight : (if reseed < 8 then 8 else reseed) = 8 := by split_ifs <;> omega
      have length : ((wordsFrom f 0 ((n + 7) / 8)).take n).length = n := by
        rw [List.length_take, length_wordsFrom]
        omega
      refine ⟨(wordsFrom f 0 ((n + 7) / 8)).take n, (n + 7) / 8, ?_, length, ?_⟩
      · rw [← stored _ _ length, rngset]
        simp only [eight]
        exact bind_of_ok filled
      · rintro g ⟨⟩ -
        exact ⟨rfl, rfl⟩
    · have progress : 0 < (if reseed < 8 then 8 else reseed) := by split_ifs <;> omega
      obtain ⟨out, calls, filled, length⟩ := rngLoop_total (some f) progress enough 0 ⟨b, [], 0⟩
      refine ⟨out, calls, ?_, length, fun _ _ small => absurd small plain⟩
      rw [← stored out calls length]
      exact bind_of_ok filled

/-- A seed function whose words count up. -/
def counting (call : ℕ) : UInt64 := UInt64.ofNat (0x0807060504030201 + call)

theorem rngset_fills_ten :
    ∃ out calls, rngset 11 100 10 (some counting) 0 = .ok (100, ⟨110, out.zipIdx 100, calls⟩) ∧
      out = [1, 2, 3, 4, 5, 6, 7, 8, 2, 2] ∧ calls = 2 := by
  have enough : 10 < 11 := by decide
  obtain ⟨out, calls, filled, -, plain⟩ := rngset_fills 100 (some counting) 0 enough
  obtain ⟨words, count⟩ := plain counting rfl (by decide)
  exact ⟨out, calls, filled, words.trans (by decide), count⟩

end Yalibct.Rngset
