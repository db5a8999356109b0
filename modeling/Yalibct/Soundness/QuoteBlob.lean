import Yalibct.Model.QuoteBlob
import Yalibct.Soundness.Capture

/-! # Quoted blobs are read back as they were

What is written for a byte is read back as that byte whatever comes behind it: octal escapes always have
three digits, so none can take a digit from the next byte. No text that is written is long enough to be
damaged by a string buffer.
-/

namespace Yalibct.QuoteBlob

open Machine StringBuffer Capture XmemstreamOrStringBuffer

/-! ## String literals -/

def isOctal (c : UInt8) : Bool := 48 ≤ c ∧ c ≤ 55

/-- As many octal digits as there are, but no more than `count`: their value behind the digits before them,
and what comes next. -/
def octalDigits : ℕ → ℕ → List UInt8 → ℕ × List UInt8
  | 0, value, text => (value, text)
  | _ + 1, value, [] => (value, [])
  | count + 1, value, c :: text =>
    if isOctal c then octalDigits count (value * 8 + (c.toNat - 48)) text else (value, c :: text)

private theorem length_octalDigits (count value : ℕ) (text : List UInt8) :
    (octalDigits count value text).2.length ≤ text.length := by
  induction count generalizing value text with
  | zero => exact Nat.le_refl _
  | succ count ih =>
    cases text with
    | nil => exact Nat.le_refl _
    | cons c text =>
      unfold octalDigits
      split_ifs with digit
      · exact Nat.le_succ_of_le (ih _ text)
      · exact Nat.le_refl _

/-- The byte of a simple escape. -/
def unescape (c : UInt8) : Option UInt8 :=
  [(39, 39), (34, 34), (63, 63), (92, 92), (97, 7), (98, 8), (102, 12), (110, 10), (114, 13), (116, 9), (118, 11)].lookup c

/-- The bytes that a string literal stands for; nothing if it is none. -/
def decode : List UInt8 → Option (List UInt8)
  | [] => some []
  | c :: text =>
    if c = backslash then
      match text with
      | [] => none
      | e :: rest =>
        if isOctal e then
          let digits := octalDigits 3 0 (e :: rest)
          if digits.1 < 256 then (decode digits.2).map (UInt8.ofNat digits.1 :: ·) else none
        else
          match unescape e with
          | some byte => (decode rest).map (byte :: ·)
          | none => none
    -- A quotation mark ends the literal, and there is no newline in it.
    else if c = 34 ∨ c = 10 then none
    else (decode text).map (c :: ·)
termination_by text => text.length
decreasing_by
  · have shorter := length_octalDigits 3 0 (e :: rest)
    simp only [List.length_cons] at shorter ⊢
    omega
  · simp only [List.length_cons]
    omega
  · simp only [List.length_cons]
    omega

/-! ## The text of a byte -/

/-- What is written for a byte, and for a blob. -/
def quotedByte (ch : UInt8) : List UInt8 :=
  match escapes.lookup ch with
  | some c => [backslash, c]
  | none => if ch < 32 ∨ 126 < ch then octal.text () ch else [ch]

def quoted (blob : List UInt8) : List UInt8 := blob.flatMap quotedByte

/-- The letters of the `switch` are those of simple escapes, and stand for the byte of their case. -/
theorem escapes_unescape {ch c : UInt8} (found : escapes.lookup ch = some c) :
    isOctal c = false ∧ unescape c = some ch := by
  have all : ∀ p ∈ escapes, isOctal p.2 = false ∧ unescape p.2 = some p.1 := by
    rw [← List.forall_iff_forall_mem]
    decide
  obtain ⟨before, after, split, _⟩ := List.lookup_eq_some_iff.mp found
  exact all (ch, c) (split ▸ List.mem_append_right _ (List.mem_cons_self ..))

theorem octalDigit_spec (n : ℕ) : isOctal (octalDigit n) = true ∧ (octalDigit n).toNat - 48 = n % 8 := by
  have value : (octalDigit n).toNat = 48 + n % 8 := by
    rw [octalDigit, UInt8.toNat_ofNat']
    omega
  refine ⟨?_, by omega⟩
  unfold isOctal
  rw [decide_eq_true_iff, UInt8.le_iff_toNat_le, UInt8.le_iff_toNat_le, value]
  exact ⟨Nat.le_add_right .., by change 48 + n % 8 ≤ 55; omega⟩

/-- Three digits are read as the byte they were written for, whatever comes next. -/
theorem octalDigits_text (ch : UInt8) (rest : List UInt8) :
    octalDigits 3 0 (octalDigit (ch.toNat / 64) :: octalDigit (ch.toNat / 8) :: octalDigit ch.toNat :: rest) =
      (ch.toNat, rest) := by
  have bound := ch.toNat_lt
  simp only [octalDigits, (octalDigit_spec _).1, (octalDigit_spec _).2, if_true]
  congr 1
  omega

private theorem decode_quotedByte (ch : UInt8) (rest : List UInt8) :
    decode (quotedByte ch ++ rest) = (decode rest).map (ch :: ·) := by
  unfold quotedByte
  cases found : escapes.lookup ch with
  | some c =>
    obtain ⟨letter, byte⟩ := escapes_unescape found
    rw [List.cons_append, List.cons_append, List.nil_append, decode, if_pos rfl]
    dsimp only
    rw [letter, byte]
    rfl
  | none =>
    dsimp only
    split_ifs with unprintable
    · change decode (backslash :: octalDigit (ch.toNat / 64) :: octalDigit (ch.toNat / 8) :: octalDigit ch.toNat :: rest) = _
      rw [decode, if_pos rfl]
      dsimp only
      rw [if_pos (octalDigit_spec _).1, octalDigits_text, if_pos ch.toNat_lt, UInt8.ofNat_toNat]
    · have noBackslash : ch ≠ backslash := by
        rintro rfl
        cases found
      have noEnd : ¬ (ch = 34 ∨ ch = 10) := by
        rintro (rfl | rfl)
        · cases found
        · cases found
      rw [List.singleton_append, decode.eq_def]
      dsimp only
      rw [if_neg noBackslash, if_neg noEnd]

private theorem decode_quoted (blob : List UInt8) : decode (quoted blob) = some blob := by
  induction blob with
  | nil =>
    unfold quoted
    simp only [List.flatMap_nil, decode]
  | cons ch blob ih =>
    have parts : quoted (ch :: blob) = quotedByte ch ++ quoted blob := List.flatMap_cons ..
    rw [parts, decode_quotedByte, ih]
    rfl

/-- Distinct blobs are written differently. -/
theorem quoted_injective : Function.Injective quoted := by
  intro blob blob' same
  have read := congrArg decode same
  rw [decode_quoted, decode_quoted, Option.some.injEq] at read
  exact read

/-- A character that can be printed, in ASCII. -/
def Printable (c : UInt8) : Prop := 32 ≤ c ∧ c ≤ 126

instance (c : UInt8) : Decidable (Printable c) := inferInstanceAs (Decidable (_ ∧ _))

private theorem printable_octalDigit (n : ℕ) : Printable (octalDigit n) := by
  have digit := (octalDigit_spec n).1
  unfold isOctal at digit
  rw [decide_eq_true_iff] at digit
  exact ⟨UInt8.le_trans (by decide) digit.1, UInt8.le_trans digit.2 (by decide)⟩

private theorem printable_quotedByte (ch : UInt8) : ∀ c ∈ quotedByte ch, Printable c := by
  unfold quotedByte
  cases found : escapes.lookup ch with
  | some letter =>
    have all : ∀ p ∈ escapes, Printable p.2 := by
      rw [← List.forall_iff_forall_mem]
      decide
    obtain ⟨before, after, split, _⟩ := List.lookup_eq_some_iff.mp found
    have last := all (ch, letter) (split ▸ List.mem_append_right _ (List.mem_cons_self ..))
    intro c member
    rcases List.mem_cons.mp member with rfl | member
    · decide
    · rw [List.mem_singleton.mp member]
      exact last
  | none =>
    dsimp only
    split_ifs with unprintable
    · intro c member
      change c ∈ [backslash, octalDigit (ch.toNat / 64), octalDigit (ch.toNat / 8), octalDigit ch.toNat] at member
      simp only [List.mem_cons, List.not_mem_nil, or_false] at member
      rcases member with rfl | rfl | rfl | rfl
      · decide
      · exact printable_octalDigit _
      · exact printable_octalDigit _
      · exact printable_octalDigit _
    · rw [not_or, UInt8.not_lt, UInt8.not_lt] at unprintable
      intro c member
      rw [List.mem_singleton.mp member]
      exact unprintable

/-! ## The stream -/

variable {m : Malloc} {out : XmemstreamOrStringBuffer} {bytes : List UInt8}

/-- The text of an octal escape is too short to be damaged. -/
theorem fprintf_spec (ch : UInt8) (holds : out.Holds bytes) :
    ∃ out', fprintf m ch out = some out' ∧ out'.Holds (bytes ++ octal.text () ch) ∧
      (out.refused = true → out'.refused = true) := by
  cases out with
  | xmemstream written => exact ⟨_, rfl, congrArg (· ++ octal.text () ch) holds, id⟩
  | stringBuffer r b =>
    obtain ⟨valid, stored⟩ := holds
    have short : (octal.text () ch).length ≤ intMax := (by decide : 4 ≤ intMax)
    have whole : b.kept (octal.text () ch) = octal.text () ch :=
      if_neg fun lines => absurd (lines.large valid) (by change ¬ 64 ≤ 4; decide)
    obtain ⟨code, r', b', run, valid', refused, result⟩ := @append_spec m octal b valid r () ch short
    have appended : @sbAppendvf m octal r b () ch = some (code, r', b') := run
    refine ⟨.stringBuffer r' b', by rw [fprintf, appended]; rfl, ⟨valid', fun granted => ?_⟩, refused⟩
    obtain ⟨error, content⟩ := result granted
    obtain ⟨clear, same⟩ := stored (granted_before refused granted)
    exact ⟨error.trans clear, by rw [content, same, whole]⟩

theorem quoteByte_spec (ch : UInt8) (holds : out.Holds bytes) :
    ∃ out', quoteByte m ch out = some out' ∧ out'.Holds (bytes ++ quotedByte ch) ∧
      (out.refused = true → out'.refused = true) := by
  unfold quoteByte quotedByte
  cases escapes.lookup ch with
  | some c =>
    obtain ⟨out1, first, holds1, refused1⟩ := putcUnlocked_spec (m := m) backslash holds
    obtain ⟨out2, second, holds2, refused2⟩ := putcUnlocked_spec (m := m) c holds1
    rw [List.append_assoc] at holds2
    exact ⟨out2, by dsimp only; rw [first]; exact second, holds2, refused2 ∘ refused1⟩
  | none =>
    dsimp only
    split_ifs with unprintable
    · exact fprintf_spec ch holds
    · exact putcUnlocked_spec ch holds

theorem loop_spec (blob : List UInt8) (holds : out.Holds bytes) :
    ∃ out', blob.foldlM (fun out ch => quoteByte m ch out) out = some out' ∧ out'.Holds (bytes ++ quoted blob) ∧
      (out.refused = true → out'.refused = true) := by
  induction blob generalizing out bytes with
  | nil => exact ⟨out, rfl, by rwa [quoted, List.flatMap_nil, List.append_nil], id⟩
  | cons ch blob ih =>
    obtain ⟨out1, first, holds1, refused1⟩ := quoteByte_spec (m := m) ch holds
    obtain ⟨out2, rest, holds2, refused2⟩ := ih holds1
    have parts : quoted (ch :: blob) = quotedByte ch ++ quoted blob := List.flatMap_cons ..
    refine ⟨out2, ?_, by rwa [parts, ← List.append_assoc], refused2 ∘ refused1⟩
    rw [List.foldlM_cons, first]
    exact rest

/-- The text that is returned for a blob, with its NUL, unless a request for memory was refused. -/
theorem supportQuoteBlob_spec (m : Malloc) (space : Option (Vector UInt8 1024)) (blob : List UInt8) :
    ∃ buffer out, supportQuoteBlob m space blob = some (buffer, out) ∧
      (out.refused = false → buffer = some (quoted blob ++ [0])) := by
  obtain ⟨out, run, holds, _⟩ := loop_spec (m := m) blob (holds_init space)
  refine ⟨(xfclose m out).1.buffer, (xfclose m out).2, ?_, fun granted => ?_⟩
  · unfold supportQuoteBlob
    rw [run]
    rfl
  · rw [(xfclose_spec holds granted).1, List.nil_append]

/-- With a memory stream and with a string buffer, the text of a blob is printable, is read back as the
blob, and so is the text of no other blob. -/
theorem quote_round_trip (m : Malloc) (space : Option (Vector UInt8 1024)) (blob : List UInt8) :
    ∃ buffer out, supportQuoteBlob m space blob = some (buffer, out) ∧
      (out.refused = false → ∃ text, buffer = some (text ++ [0]) ∧ decode text = some blob ∧
        (∀ c ∈ text, Printable c) ∧
        ∀ (m' : Malloc) (space' : Option (Vector UInt8 1024)) (blob' : List UInt8) (out' : XmemstreamOrStringBuffer),
          out'.refused = false → supportQuoteBlob m' space' blob' = some (some (text ++ [0]), out') → blob' = blob) := by
  obtain ⟨buffer, out, run, result⟩ := supportQuoteBlob_spec m space blob
  refine ⟨buffer, out, run, fun granted => ⟨quoted blob, result granted, decode_quoted blob, ?_, ?_⟩⟩
  · intro c member
    obtain ⟨ch, _, written⟩ := List.mem_flatMap.mp member
    exact printable_quotedByte ch c written
  · intro m' space' blob' out' granted' same
    obtain ⟨buffer', other, run', result'⟩ := supportQuoteBlob_spec m' space' blob'
    rw [run'] at same
    cases same
    have texts := Option.some.inj (result' granted')
    exact quoted_injective (List.append_cancel_right texts).symm

/-- The byte 1 and the digit `'7'` are written as `"\\0017"`. -/
theorem digit_behind_escape : ∃ buffer out, supportQuoteBlob .generous none [1, 55] = some (buffer, out) ∧
    ∃ text, buffer = some (text ++ [0]) ∧ decode text = some [1, 55] := by
  obtain ⟨buffer, out, run, result⟩ := quote_round_trip .generous none [1, 55]
  have written : supportQuoteBlob .generous none [1, 55] =
    some (some [92, 48, 48, 49, 55, 0], .xmemstream [92, 48, 48, 49, 55]) := rfl
  have granted : out.refused = false := by
    rw [run] at written
    cases written
    rfl
  obtain ⟨text, returned, read, _⟩ := result granted
  exact ⟨buffer, out, run, text, returned, read⟩

end Yalibct.QuoteBlob
