import Yalibct.Model.Capture

/-! # `support_quote_blob`

The bytes of a blob are written to a stream as they stand in a string literal of C: printable characters
as they are, some control characters and the quotes by simple escapes, and the others by octal ones.
-/

namespace Yalibct.QuoteBlob

open Machine StringBuffer Capture XmemstreamOrStringBuffer

def backslash : UInt8 := 92

/-- An octal digit of a byte. -/
def octalDigit (n : ℕ) : UInt8 := UInt8.ofNat (48 + n % 8)

/-- The format `"\\%03o"`, whose argument is an `unsigned char`. -/
def octal : Printf where
  Format := Unit
  Args := UInt8
  text _ ch := [backslash, octalDigit (ch.toNat / 64), octalDigit (ch.toNat / 8), octalDigit ch.toNat]
  rest _ ch := ch

variable (m : Malloc)

/-- `xmemstream_or_string_buffer_fprintf`; nothing when the code calls `abort`. -/
def fprintf (ch : UInt8) : XmemstreamOrStringBuffer → Option XmemstreamOrStringBuffer
  | .xmemstream written => some (.xmemstream (written ++ octal.text () ch))
  | .stringBuffer r b => (@sbAppendvf m octal r b () ch).map fun x => .stringBuffer x.2.1 x.2.2

/-- The cases of the `switch`, with the character behind the backslash. -/
def escapes : List (UInt8 × UInt8) :=
  [(7, 97), (8, 98), (12, 102), (10, 110), (13, 114), (9, 116), (11, 118), (92, 92), (39, 39), (34, 34)]

/-- The body of the loop. -/
def quoteByte (ch : UInt8) (out : XmemstreamOrStringBuffer) : Option XmemstreamOrStringBuffer :=
  match escapes.lookup ch with
  | some c => do
    let out ← putcUnlocked m backslash out
    putcUnlocked m c out
  | none => if ch < 32 ∨ 126 < ch then fprintf m ch out else putcUnlocked m ch out

/-- `support_quote_blob`: what is in the returned buffer, and the stream, which is a string buffer if it gets
a `space`. -/
def supportQuoteBlob (space : Option (Vector UInt8 1024)) (blob : List UInt8) :
    Option (Option (List UInt8) × XmemstreamOrStringBuffer) := do
  let out ← blob.foldlM (fun out ch => quoteByte m ch out) (init space)
  let (captured, out) := xfclose m out
  return (captured.buffer, out)

end Yalibct.QuoteBlob
