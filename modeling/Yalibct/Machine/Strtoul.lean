import Mathlib.Algebra.Group.Nat.Defs
import Mathlib.Data.List.TakeWhile
import Mathlib.Data.Nat.Digits.Defs
import Mathlib.Data.Nat.Notation

/-! # `strtoul`

The function is called with base 0, which leaves the base to the text. Since C23 a prefix for binary numbers
is known besides the one for hexadecimal numbers. A number that is too large gives the largest one.
-/

namespace Yalibct.Machine

def ulongMax : ℕ := 2 ^ 64 - 1

/-- `isspace` -/
def isspace (c : UInt8) : Bool := c = 32 ∨ 9 ≤ c ∧ c ≤ 13

/-- The value of a digit, which is beyond every base for other characters. -/
def digitValue (c : UInt8) : ℕ :=
  if 48 ≤ c ∧ c ≤ 57 then c.toNat - 48
  else if 97 ≤ c ∧ c ≤ 122 then c.toNat - 97 + 10
  else if 65 ≤ c ∧ c ≤ 90 then c.toNat - 65 + 10
  else 36

/-- The base that a text tells, and the text behind a prefix that is followed by a digit. -/
def baseOf (binary : Bool) (s : List UInt8) : ℕ × List UInt8 :=
  match s with
  | 48 :: x :: d :: rest =>
    if (x = 120 ∨ x = 88) ∧ digitValue d < 16 then (16, d :: rest)
    else if binary ∧ (x = 98 ∨ x = 66) ∧ digitValue d < 2 then (2, d :: rest)
    else (8, s)
  | 48 :: _ => (8, s)
  | _ => (10, s)

/-- `strtoul (s, &end, 0)`, with the text at `end`. -/
def strtoul (binary : Bool) (s : List UInt8) : ℕ × List UInt8 :=
  let (negative, unsigned) :=
    match s.dropWhile isspace with
    | 45 :: rest => (true, rest)
    | 43 :: rest => (false, rest)
    | rest => (false, rest)
  let (base, text) := baseOf binary unsigned
  let digits := text.takeWhile fun c => digitValue c < base
  if digits = [] then (0, s)
  else
    let n := digits.foldl (fun n c => base * n + digitValue c) 0
    let value := if ulongMax < n then ulongMax else if negative then (2 ^ 64 - n) % 2 ^ 64 else n
    (value, text.drop digits.length)

/-! ## Numbers in octal -/

/-- The character of an octal digit. -/
def octalDigit (d : ℕ) : UInt8 := UInt8.ofNat (48 + d)

/-- A number in octal, with the zero that tells the base. -/
def octal (n : ℕ) : List UInt8 := 48 :: (Nat.digits 8 n).reverse.map octalDigit

/-- An octal digit is a digit and no letter of a prefix. -/
private theorem octalDigit_spec {d : ℕ} (digit : d < 8) :
    digitValue (octalDigit d) = d ∧ octalDigit d ∉ [120, 88, 98, 66] := by
  have all : ∀ d : Fin 8, digitValue (octalDigit d) = d ∧ octalDigit d ∉ [120, 88, 98, 66] := by
    decide
  exact all ⟨d, digit⟩

/-- A zero that is followed by digits is no prefix of another base. -/
private theorem baseOf_octal (binary : Bool) {ds : List ℕ} (digits : ∀ d ∈ ds, d < 8) :
    baseOf binary (48 :: ds.map octalDigit) = (8, 48 :: ds.map octalDigit) := by
  cases ds with
  | nil => rfl
  | cons x rest =>
    cases rest with
    | nil => rfl
    | cons d rest =>
      have letters := (octalDigit_spec (digits x (List.mem_cons_self ..))).2
      simp only [List.mem_cons, List.not_mem_nil, or_false, not_or] at letters
      obtain ⟨lower16, upper16, lower2, upper2⟩ := letters
      simp only [List.map_cons, baseOf, lower16, upper16, lower2, upper2, or_self, and_false, false_and,
        ↓reduceIte]

/-- The loop over the digits, from the most significant one on. -/
private theorem foldl_octal {ds : List ℕ} (digits : ∀ d ∈ ds, d < 8) :
    (ds.reverse.map octalDigit).foldl (fun n c => 8 * n + digitValue c) 0 = Nat.ofDigits 8 ds := by
  rw [List.foldl_map, List.foldl_reverse]
  induction ds with
  | nil => rfl
  | cons d ds ih =>
    rw [List.foldr_cons, ih fun other member => digits other (List.mem_cons_of_mem _ member),
      (octalDigit_spec (digits d (List.mem_cons_self ..))).1, Nat.ofDigits_cons, Nat.add_comm]

/-- A number that is not too large is read as it was written. -/
theorem strtoul_octal (binary : Bool) {n : ℕ} (bound : n ≤ ulongMax) : strtoul binary (octal n) = (n, []) := by
  have digits : ∀ d ∈ (Nat.digits 8 n).reverse, d < 8 := fun d member =>
    Nat.digits_lt_base (by decide) (List.mem_reverse.mp member)
  have all : (octal n).takeWhile (fun c => digitValue c < 8) = octal n := by
    apply List.takeWhile_eq_self_iff.mpr
    intro c member
    rcases List.mem_cons.mp member with rfl | later
    · rfl
    · obtain ⟨d, within, rfl⟩ := List.mem_map.mp later
      rw [decide_eq_true_iff, (octalDigit_spec (digits d within)).1]
      exact digits d within
  have value : (octal n).foldl (fun n c => 8 * n + digitValue c) 0 = n :=
    (foldl_octal fun d member => digits d (List.mem_reverse.mpr member)).trans (Nat.ofDigits_digits 8 n)
  have nonempty : octal n ≠ [] := List.cons_ne_nil _ _
  have unprefixed : baseOf binary (octal n) = (8, octal n) := baseOf_octal binary digits
  have unsigned : strtoul binary (octal n) =
      let (base, text) := baseOf binary (octal n)
      let digits := text.takeWhile fun c => digitValue c < base
      if digits = [] then (0, octal n)
      else
        let read := digits.foldl (fun n c => base * n + digitValue c) 0
        (if ulongMax < read then ulongMax else read, text.drop digits.length) := rfl
  rw [unsigned, unprefixed]
  dsimp only
  rw [all, if_neg nonempty, value, if_neg (Nat.not_lt.mpr bound), List.drop_length]

end Yalibct.Machine
