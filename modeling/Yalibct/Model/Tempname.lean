import Mathlib.Data.UInt
import Yalibct.Machine.CString
import Yalibct.Model.Write

/-! # `try_tempname_len`

The last Xs of a template are replaced by random letters until a name is accepted. Ten letters are
taken from one random word; words that would make some letters likelier than others are drawn again.
A run is `none` while the next random word is not there yet.
-/

namespace Yalibct.Tempname

open Machine

def enoent : Errno := .other 2
def eexist : Errno := .other 17

/-! ## Random words -/

/-- What a call of `random_bits` finds: a word from `getrandom`; or its error, and the clocks. -/
inductive Draw where
  | getrandom (value : UInt64)
  | clocks (errno : Errno) (time : Option (UInt64 × UInt64)) (clock : UInt64)

/-- `mix_random_values` -/
def mixRandomValues (r s : UInt64) : UInt64 := (2862933555777941757 * r + 3037000493) ^^^ s

/-- `random_bits`: whether the word is of high quality, the word, and the value of `errno`. -/
def randomBits (s : UInt64) (errno : Errno) : Draw → Bool × UInt64 × Errno
  | .getrandom value => (true, value, errno)
  | .clocks errno time clock =>
    let v := match time with
      | some (sec, nsec) => mixRandomValues (mixRandomValues s sec) nsec
      | none => s
    (false, mixRandomValues v clock, errno)

/-- `RANDOM_VALUE_MAX` -/
def randomValueMax : UInt64 := 2 ^ 64 - 1

/-- `BASE_62_POWER` -/
def base62Power : UInt64 := 62 * 62 * 62 * 62 * 62 * 62 * 62 * 62 * 62 * 62

/-- `BASE_62_DIGITS` -/
def base62Digits : ℕ := 10

/-- `biased_min` -/
def biasedMin : UInt64 := randomValueMax - randomValueMax % base62Power

/-- `letters` -/
def letters : List UInt8 :=
  "abcdefghijklmnopqrstuvwxyzABCDEFGHIJKLMNOPQRSTUVWXYZ0123456789".toList.map fun c => UInt8.ofNat c.toNat

/-- An element of `letters`. -/
def letter (digit : UInt64) : UInt8 := letters.getD digit.toNat 0

/-- The random variable, the digits that are left of it, `errno`, and the words still to be drawn. -/
structure Generator where
  v : UInt64
  vdigbuf : UInt64
  vdigits : ℕ
  errno : Errno
  draws : List Draw

/-- The loop that draws a word. -/
def drawWord (v : UInt64) (errno : Errno) : List Draw → Option (UInt64 × Errno × List Draw)
  | [] => none
  | draw :: draws =>
    let (good, v, errno) := randomBits v errno draw
    if good ∧ biasedMin ≤ v then drawWord v errno draws else some (v, errno, draws)

/-- A new word, when no digits are left. -/
def refill (g : Generator) : Option Generator :=
  if g.vdigits = 0 then
    (drawWord g.v g.errno g.draws).map fun (v, errno, draws) => ⟨v, v, base62Digits, errno, draws⟩
  else some g

/-- The next letters. -/
def takeLetters : ℕ → Generator → Option (List UInt8 × Generator)
  | 0, g => some ([], g)
  | n + 1, g =>
    match refill g with
    | none => none
    | some g =>
      (takeLetters n { g with vdigbuf := g.vdigbuf / 62, vdigits := g.vdigits - 1 }).map fun (run, g') =>
        (letter (g.vdigbuf % 62) :: run, g')

/-! ## Attempts -/

/-- `tryfunc` with its arguments: from their state and `errno`, the result for a name, `errno` and the
next state. -/
abbrev TryFunc (σ : Type) := σ → Errno → List UInt8 → ℤ × Errno × σ

/-- A call of `tryfunc`, with its result and `errno`. -/
structure Attempt where
  name : List UInt8
  result : ℤ
  errno : Errno
deriving DecidableEq

/-- The returned value, `errno`, the template, the calls of `tryfunc` and what became of its state. -/
structure Generated (σ : Type) where
  ret : ℤ
  errno : Errno
  tmpl : List UInt8
  calls : List Attempt
  state : σ

/-- The loop over the attempts; the Xs begin at `start`. -/
def attemptLoop {σ : Type} (tryfunc : TryFunc σ) (saveErrno : Errno) (start xSuffixLen : ℕ) :
    ℕ → List UInt8 → Generator → σ → Option (Generated σ)
  -- There are no more combinations to try.
  | 0, tmpl, _, state => some ⟨-1, eexist, tmpl, [], state⟩
  | attempts + 1, tmpl, g, state =>
    match takeLetters xSuffixLen g with
    | none => none
    | some (run, g) =>
      let tmpl := overwrite tmpl start run
      let (fd, errno, state) := tryfunc state g.errno tmpl
      if 0 ≤ fd then some ⟨fd, saveErrno, tmpl, [⟨tmpl, fd, errno⟩], state⟩
      else if errno ≠ eexist then some ⟨-1, errno, tmpl, [⟨tmpl, fd, errno⟩], state⟩
      else
        (attemptLoop tryfunc saveErrno start xSuffixLen attempts tmpl { g with errno := errno } state).map fun r =>
          { r with calls := ⟨tmpl, fd, errno⟩ :: r.calls }

/-- `ATTEMPTS_MIN` -/
def attemptsMin : ℕ := 62 * 62 * 62

/-- `attempts`, where `TMP_MAX` is known. -/
def attempts (tmpMax : ℕ) : ℕ := if attemptsMin < tmpMax then tmpMax else attemptsMin

def letterX : UInt8 := 88

/-- `try_tempname_len` -/
def tryTempnameLen {σ : Type} (tmpMax : ℕ) (tryfunc : TryFunc σ) (draws : List Draw) (errno : Errno) (state : σ)
    (tmpl : CString) (suffixlen xSuffixLen : ℕ) : Option (Generated σ) :=
  let len := tmpl.length
  let start := len - sizeT (xSuffixLen + suffixlen)
  if len < sizeT (xSuffixLen + suffixlen) ∨ strspn (tmpl.bytes.drop start) letterX < xSuffixLen then
    some ⟨-1, .EINVAL, tmpl.bytes, [], state⟩
  else attemptLoop tryfunc errno start xSuffixLen (attempts tmpMax) tmpl.bytes ⟨0, 0, 0, errno, draws⟩ state

end Yalibct.Tempname
