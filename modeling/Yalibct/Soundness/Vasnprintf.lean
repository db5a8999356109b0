import Yalibct.Model.Vasnprintf

/-! # The two passes of `vasnprintf`

The second pass sees the arguments that the first one left. What it prints is the same text only
where these format the same.
-/

namespace Yalibct

open Machine

variable {m : Malloc} {p : Printf} {r : Requests} {buffer : Option ℕ} {format : p.Format} {args : p.Args}

/-- The whole text is handed back, in the caller's buffer if it fits there with its NUL, and otherwise in
a block, or `NULL` when there is none. -/
def TwoPassLaw (m : Malloc) (p : Printf) (r : Requests) (buffer : Option ℕ) (format : p.Format)
    (args : p.Args) : Prop :=
  let text := p.text format args
  if text.length < buffer.getD 0 then
    ∃ result r', vasnprintf m p r buffer format args = .ok (result, r') ∧
      result.returned = .caller ∧ result.stored = text ++ [0]
  else if (m.malloc r (text.length + 1)).1.isSome then
    ∃ result r', vasnprintf m p r buffer format args = .ok (result, r') ∧
      result.returned = .block (text ++ [0])
  else
    ∃ result r', vasnprintf m p r buffer format args = .ok (result, r') ∧ result.returned = .null

/-- A text that `vsnprintf` cannot count is never handed back. -/
theorem vasnprintf_long (long : intMax < (p.text format args).length) :
    vasnprintf m p r buffer format args =
      .ok (⟨.null, buffer.getD 0, p.image format args (buffer.getD 0)⟩, r) := by
  simp only [vasnprintf, Printf.returns, if_neg (Nat.not_le.mpr long)]
  rfl

private theorem vasnprintf_overflow (tight : (p.text format args).length = intMax) :
    vasnprintf m p r buffer format args = .error .overflow := by
  have counted := Printf.returns_of_le (Nat.le_of_eq tight)
  simp only [vasnprintf, counted, tight]
  rfl

/-- Without a block the second pass prints through a null pointer. -/
theorem vasnprintf_refused (bound : (p.text format args).length < intMax)
    (large : buffer.getD 0 ≤ (p.text format args).length)
    (refused : (m.malloc r ((p.text format args).length + 1)).1 = none) :
    vasnprintf m p r buffer format args = .error .nullPointer := by
  have nonneg : ¬ ((p.text format args).length : ℤ) < 0 := by omega
  have short : ¬ ((p.text format args).length : ℤ) = intMax := by omega
  obtain ⟨block, rest, asked⟩ : ∃ block rest,
      m.malloc r ((p.text format args).length + 1) = (block, rest) := ⟨_, _, rfl⟩
  rw [asked] at refused
  obtain rfl : block = none := refused
  simp only [vasnprintf, Printf.returns_of_le (Nat.le_of_lt bound), nonneg, short, ↓reduceIte,
    Int.toNat_natCast, Nat.not_lt.mpr large, asked]

/-- A block gets the text of the arguments that are left, if that is as long. -/
theorem vasnprintf_granted (bound : (p.text format args).length < intMax)
    (large : buffer.getD 0 ≤ (p.text format args).length)
    (granted : (m.malloc r ((p.text format args).length + 1)).1.isSome = true) :
    vasnprintf m p r buffer format args =
      if (p.text format (p.rest format args)).length = (p.text format args).length then
        .ok (⟨.block (p.text format (p.rest format args) ++ [0]), (p.text format args).length + 1,
          p.image format args (buffer.getD 0)⟩, ⟨r.calls + 1, r.refused⟩)
      else .error .assertion := by
  have nonneg : ¬ ((p.text format args).length : ℤ) < 0 := by omega
  have short : ¬ ((p.text format args).length : ℤ) = intMax := by omega
  rcases Malloc.malloc_cases (m := m) r ((p.text format args).length + 1) with
    ⟨block, asked, length, -⟩ | refused
  · simp only [vasnprintf, Printf.returns_of_le (Nat.le_of_lt bound), nonneg, short, ↓reduceIte,
      Int.toNat_natCast, Nat.not_lt.mpr large, asked]
    by_cases same : (p.text format (p.rest format args)).length = (p.text format args).length
    · have counted : p.returns format (p.rest format args) = ((p.text format args).length : ℤ) := by
        rw [Printf.returns_of_le (by omega), same]
      have image : p.image format (p.rest format args) ((p.text format args).length + 1) =
          p.text format (p.rest format args) ++ [0] := by
        rw [Printf.image, if_neg (Nat.succ_ne_zero _), List.take_of_length_le (by omega)]
      rw [if_pos counted, if_pos same, image, overwrite_whole]
      rw [List.length_append, List.length_singleton, length, same]
    · have counted : p.returns format (p.rest format args) ≠ ((p.text format args).length : ℤ) := by
        rw [Printf.returns]
        split_ifs <;> omega
      rw [if_neg counted, if_neg same]
  · rw [refused] at granted
    cases granted

/-- The law holds for a text below `INT_MAX` that fits, or that the arguments left by the first pass
give again into a granted block; and for a longer one only where `NULL` is asked for. -/
theorem twoPassLaw_iff (m : Malloc) (p : Printf) (r : Requests) (buffer : Option ℕ) (format : p.Format)
    (args : p.Args) :
    TwoPassLaw m p r buffer format args ↔
      (p.text format args).length < intMax ∧
        ((p.text format args).length < buffer.getD 0 ∨
          (m.malloc r ((p.text format args).length + 1)).1.isSome = true ∧
          p.text format (p.rest format args) = p.text format args) ∨
      intMax < (p.text format args).length ∧ buffer.getD 0 ≤ (p.text format args).length ∧
        (m.malloc r ((p.text format args).length + 1)).1.isSome = false := by
  rcases Nat.lt_trichotomy (p.text format args).length intMax with bound | tight | long
  · have notLong : ¬ intMax < (p.text format args).length := by omega
    simp only [TwoPassLaw, bound, notLong, true_and, false_and, or_false]
    by_cases fits : (p.text format args).length < buffer.getD 0
    · simp only [fits, ↓reduceIte, true_or, iff_true]
      cases buffer with
      | none => cases fits
      | some room => exact ⟨_, _, vasnprintf_fits r bound fits, rfl, rfl⟩
    · rw [if_neg fits]
      have large := Nat.not_lt.mp fits
      cases granted : (m.malloc r ((p.text format args).length + 1)).1.isSome with
      | true =>
        simp only [↓reduceIte, vasnprintf_granted bound large granted, fits, true_and, false_or]
        constructor
        · rintro ⟨result, r', ran, returned⟩
          split_ifs at ran
          cases ran
          exact List.append_cancel_right (Returned.block.inj returned)
        · intro same
          rw [same, if_pos rfl]
          exact ⟨_, _, rfl, rfl⟩
      | false =>
        have refused : (m.malloc r ((p.text format args).length + 1)).1 = none := by
          simpa using granted
        simp [vasnprintf_refused bound large refused, fits]
  · simp only [TwoPassLaw, vasnprintf_overflow tight, tight, Nat.lt_irrefl, false_and, or_self, iff_false]
    split_ifs <;> rintro ⟨_, _, ran, _⟩ <;> cases ran
  · have notShort : ¬ (p.text format args).length < intMax := by omega
    simp only [TwoPassLaw, vasnprintf_long long, notShort, false_and, long, true_and, false_or]
    by_cases fits : (p.text format args).length < buffer.getD 0
    · simp only [fits, ↓reduceIte, Nat.not_le.mpr fits, false_and, iff_false]
      rintro ⟨_, _, ran, returned, _⟩
      cases ran
      cases returned
    · simp only [fits, ↓reduceIte, Nat.not_lt.mp fits, true_and]
      cases (m.malloc r ((p.text format args).length + 1)).1.isSome with
      | true =>
        simp only [↓reduceIte, Bool.true_eq_false, iff_false]
        rintro ⟨_, _, ran, returned⟩
        cases ran
        cases returned
      | false =>
        simp only [Bool.false_eq_true, ↓reduceIte, iff_true]
        exact ⟨_, _, rfl, rfl⟩

/-- `"%s"` with the arguments `hi` and `no`, which does not fit in two bytes: the block holds `no`. -/
theorem second_pass_prints_next_argument :
    ¬ TwoPassLaw .generous .string .none (some 2) () [[104, 105], [110, 111]] ∧
    vasnprintf .generous .string .none (some 2) () [[104, 105], [110, 111]] =
      .ok (⟨.block [110, 111, 0], 3, [104, 0]⟩, ⟨1, false⟩) := by
  have ran : vasnprintf .generous .string .none (some 2) () [[104, 105], [110, 111]] =
      .ok (⟨.block [110, 111, 0], 3, [104, 0]⟩, ⟨1, false⟩) := by decide
  refine ⟨?_, ran⟩
  intro law
  obtain ⟨result, r', ran', returned⟩ : ∃ result r',
      vasnprintf .generous .string .none (some 2) () [[104, 105], [110, 111]] = .ok (result, r') ∧
        result.returned = .block [104, 105, 0] := law
  rw [ran] at ran'
  cases ran'
  cases returned

end Yalibct
