import Mathlib.Data.Int.Notation
import Yalibct.Machine.Swap

/-! # getopt

Each call returns the next option of an argument vector. Under the permuting order, arguments that
are no options are skipped, and later changed with the options behind them. What is printed about
errors is left out; no result depends on it. Texts are the bytes before the NUL.
-/

namespace Yalibct.Getopt

open Machine

abbrev Text := List UInt8

def dash : UInt8 := 45
def plus : UInt8 := 43
def colon : UInt8 := 58
def semicolon : UInt8 := 59
def equalsSign : UInt8 := 61
def letterW : UInt8 := 87

def questionMark : ℤ := 63

/-- The value of a `char`, which has a sign. -/
def charValue (c : UInt8) : ℤ := if c.toNat < 128 then c.toNat else (c.toNat : ℤ) - 256

/-- `struct option`; a flag is named by a number. -/
structure LongOption where
  name : Text
  hasArg : ℤ
  flag : Option ℕ
  val : ℤ
deriving DecidableEq

/-- `enum __ord` -/
inductive Order where
  | requireOrder
  | permute
  | returnInOrder
deriving DecidableEq

/-- `struct _getopt_data` -/
structure Data where
  optind : ℕ
  optopt : ℤ
  optarg : Option Text
  initialized : Bool
  nextchar : Option Text
  ordering : Order
  firstNonopt : ℕ
  lastNonopt : ℕ

/-! ## The argument vector -/

/-- `NONOPTION_P` -/
def nonoption : Text → Bool
  | c :: _ :: _ => c ≠ dash
  | _ => true

/-- The loop of `exchange`, which shortens one segment or the other. -/
def exchangeLoop (argv : List Text) : ℕ → ℕ → ℕ → ℕ → List Text
  | 0, _, _, _ => argv
  | fuel + 1, bottom, middle, top =>
    if middle < top ∧ bottom < middle then
      if middle - bottom < top - middle then
        -- Swap the bottom segment with the top part of the top segment.
        let len := middle - bottom
        exchangeLoop (swapBlocks argv bottom (top - (middle - bottom)) len) fuel bottom middle (top - len)
      else
        -- Swap the top segment with the bottom part of the bottom segment.
        let len := top - middle
        exchangeLoop (swapBlocks argv bottom middle len) fuel (bottom + len) middle top
    else argv

/-- `exchange` -/
def exchange (argv : List Text) (d : Data) : List Text × Data :=
  (exchangeLoop argv d.optind d.firstNonopt d.lastNonopt d.optind,
    { d with firstNonopt := d.firstNonopt + (d.optind - d.lastNonopt), lastNonopt := d.optind })

/-- The loop that skips arguments that are no options. -/
def skipNonoptions : List Text → ℕ → ℕ
  | [], optind => optind
  | arg :: rest, optind => if nonoption arg then skipNonoptions rest (optind + 1) else optind

/-! ## Long options -/

/-- The search for an exact match. -/
def exactMatch (name : Text) : List LongOption → ℕ → Option (ℕ × LongOption)
  | [], _ => none
  | p :: rest, index =>
    if p.name.take name.length = name ∧ name.length = p.name.length then some (index, p)
    else exactMatch name rest (index + 1)

/-- The search for abbreviations: the first match, and whether a later one is different. -/
def abbreviations (longOnly : Bool) (name : Text) :
    List LongOption → ℕ → Option (ℕ × LongOption) → Bool → Option (ℕ × LongOption) × Bool
  | [], _, pfound, ambiguous => (pfound, ambiguous)
  | p :: rest, index, pfound, ambiguous =>
    if p.name.take name.length = name then
      match pfound with
      | none => abbreviations longOnly name rest (index + 1) (some (index, p)) ambiguous
      | some (_, first) =>
        abbreviations longOnly name rest (index + 1) pfound (ambiguous || longOnly ||
          decide (first.hasArg ≠ p.hasArg ∨ first.flag ≠ p.flag ∨ first.val ≠ p.val))
    else abbreviations longOnly name rest (index + 1) pfound ambiguous

/-- What a missing argument is answered with. -/
def missing (optstring : Text) : ℤ := if optstring.head? = some colon then charValue colon else questionMark

/-- The value returned for an option; if it has a flag, that is set. -/
def LongOption.answer (p : LongOption) : ℤ := if p.flag.isSome then 0 else p.val

/-- The end of `process_long_option`, where the option is known. -/
def consumeLongOption (argv : List Text) (optstring nameend : Text) (optionIndex : ℕ)
    (pfound : LongOption) (d : Data) : ℤ × Option ℕ × Data :=
  let d := { d with optind := d.optind + 1, nextchar := none }
  if nameend ≠ [] then
    if pfound.hasArg ≠ 0 then
      (pfound.answer, some optionIndex, { d with optarg := some (nameend.drop 1) })
    else (questionMark, none, { d with optopt := pfound.val })
  else if pfound.hasArg = 1 then
    if d.optind < argv.length then
      (pfound.answer, some optionIndex,
        { d with optarg := some (argv.getD d.optind []), optind := d.optind + 1 })
    else (missing optstring, none, { d with optopt := pfound.val })
  else (pfound.answer, some optionIndex, d)

/-- `process_long_option`, with what is stored through `longind`. -/
def processLongOption (argv : List Text) (optstring : Text) (longopts : List LongOption)
    (longOnly : Bool) (d : Data) : ℤ × Option ℕ × Data :=
  let nextchar := d.nextchar.getD []
  let name := nextchar.takeWhile fun c => c ≠ equalsSign
  let nameend := nextchar.drop name.length
  match exactMatch name longopts 0 with
  | some (optionIndex, pfound) => consumeLongOption argv optstring nameend optionIndex pfound d
  | none =>
    match abbreviations longOnly name longopts 0 none false with
    | (_, true) =>
      (questionMark, none, { d with nextchar := some [], optind := d.optind + 1, optopt := 0 })
    | (none, false) =>
      if longOnly = false ∨ (argv.getD d.optind [])[1]? = some dash ∨
          (∃ c ∈ nextchar.head?, c ∉ optstring) then
        (questionMark, none, { d with nextchar := none, optind := d.optind + 1, optopt := 0 })
      else (-1, none, d)
    | (some (optionIndex, pfound), false) =>
      consumeLongOption argv optstring nameend optionIndex pfound d

/-! ## The call -/

/-- `_getopt_initialize`; the environment has `POSIXLY_CORRECT` or not. -/
def getoptInitialize (optstring : Text) (d : Data) (posixlyCorrect env : Bool) : Text × Data :=
  let optind := if d.optind = 0 then 1 else d.optind
  let d := { d with optind := optind, firstNonopt := optind, lastNonopt := optind, nextchar := none }
  let d := { d with initialized := true }
  if optstring.head? = some dash then (optstring.drop 1, { d with ordering := .returnInOrder })
  else if optstring.head? = some plus then (optstring.drop 1, { d with ordering := .requireOrder })
  else if posixlyCorrect || env then (optstring, { d with ordering := .requireOrder })
  else (optstring, { d with ordering := .permute })

/-- The branch for `-W foo`. -/
def longOptionOfW (argv : List Text) (optstring : Text) (longopts : List LongOption) (c : UInt8)
    (d : Data) : ℤ × Option ℕ × Data :=
  if d.nextchar.getD [] ≠ [] then processLongOption argv optstring longopts false d
  else if d.optind = argv.length then (missing optstring, none, { d with optopt := charValue c })
  else
    processLongOption argv optstring longopts false { d with nextchar := some (argv.getD d.optind []) }

/-- The part of `_getopt_internal_r` that looks at a short option: the character and what follows. -/
def shortOption (argv : List Text) (optstring : Text) (longopts : Option (List LongOption))
    (c : UInt8) (nextchar : Text) (d : Data) : ℤ × Option ℕ × Data :=
  -- `strchr (optstring, c)`
  let temp := optstring.dropWhile fun x => x ≠ c
  let d := { d with nextchar := some nextchar, optind := if nextchar = [] then d.optind + 1 else d.optind }
  if temp = [] ∨ c = colon ∨ c = semicolon then
    (questionMark, none, { d with optopt := charValue c })
  else
    match (if temp[0]? = some letterW ∧ temp[1]? = some semicolon then longopts else none) with
    | some longopts => longOptionOfW argv optstring longopts c d
    | none =>
      if temp[1]? = some colon then
        if temp[2]? = some colon then
          if nextchar ≠ [] then
            (charValue c, none,
              { d with optarg := some nextchar, optind := d.optind + 1, nextchar := none })
          else (charValue c, none, { d with optarg := none, nextchar := none })
        else if nextchar ≠ [] then
          (charValue c, none,
            { d with optarg := some nextchar, optind := d.optind + 1, nextchar := none })
        else if d.optind = argv.length then
          (missing optstring, none, { d with optopt := charValue c, nextchar := none })
        else
          (charValue c, none, { d with
            optarg := some (argv.getD d.optind [])
            optind := d.optind + 1
            nextchar := none })
      else (charValue c, none, d)

/-- The part of `_getopt_internal_r` that permutes. -/
def permuteArguments (argv : List Text) (d : Data) : List Text × Data :=
  let (argv, d) :=
    if d.firstNonopt ≠ d.lastNonopt ∧ d.lastNonopt ≠ d.optind then exchange argv d
    else if d.lastNonopt ≠ d.optind then (argv, { d with firstNonopt := d.optind })
    else (argv, d)
  let optind := skipNonoptions (argv.drop d.optind) d.optind
  (argv, { d with optind := optind, lastNonopt := optind })

/-- The part of `_getopt_internal_r` that passes `--`. -/
def endOfOptions (argv : List Text) (d : Data) : List Text × Data :=
  if d.optind ≠ argv.length ∧ argv.getD d.optind [] = [dash, dash] then
    let d := { d with optind := d.optind + 1 }
    let (argv, d) :=
      if d.firstNonopt ≠ d.lastNonopt ∧ d.lastNonopt ≠ d.optind then exchange argv d
      else if d.firstNonopt = d.lastNonopt then (argv, { d with firstNonopt := d.optind })
      else (argv, d)
    (argv, { d with lastNonopt := argv.length, optind := argv.length })
  else (argv, d)

/-- The part of `_getopt_internal_r` that has come to an element that is an option. -/
def optionElement (argv : List Text) (optstring : Text) (longopts : Option (List LongOption))
    (longOnly : Bool) (d : Data) : ℤ × Option ℕ × Data :=
  let arg := argv.getD d.optind []
  let short := shortOption argv optstring longopts (arg.getD 1 0) (arg.drop 2) d
  match longopts with
  | none => short
  | some longopts =>
    if arg[1]? = some dash then
      processLongOption argv optstring longopts longOnly { d with nextchar := some (arg.drop 2) }
    else if longOnly ∧ (arg.drop 2 ≠ [] ∨ arg.getD 1 0 ∉ optstring) then
      let code :=
        processLongOption argv optstring longopts longOnly { d with nextchar := some (arg.drop 1) }
      if code.1 ≠ -1 then code else short
    else short

/-- The part of `_getopt_internal_r` that advances to the next element. -/
def nextElement (argv : List Text) (optstring : Text) (longopts : Option (List LongOption))
    (longOnly : Bool) (d : Data) : ℤ × Option ℕ × List Text × Data :=
  let d := { d with lastNonopt := if d.optind < d.lastNonopt then d.optind else d.lastNonopt }
  let d := { d with firstNonopt := if d.optind < d.firstNonopt then d.optind else d.firstNonopt }
  let (argv, d) := if d.ordering = .permute then permuteArguments argv d else (argv, d)
  let (argv, d) := endOfOptions argv d
  if d.optind = argv.length then
    (-1, none, argv, if d.firstNonopt ≠ d.lastNonopt then { d with optind := d.firstNonopt } else d)
  else if nonoption (argv.getD d.optind []) then
    if d.ordering = .requireOrder then (-1, none, argv, d)
    else (1, none, argv, { d with optarg := some (argv.getD d.optind []), optind := d.optind + 1 })
  else
    let (ret, longind, d) := optionElement argv optstring longopts longOnly d
    (ret, longind, argv, d)

/-- `_getopt_internal_r` -/
def getoptInternalR (argv : List Text) (optstring : Text) (longopts : Option (List LongOption))
    (longOnly : Bool) (d : Data) (posixlyCorrect env : Bool) : ℤ × Option ℕ × List Text × Data :=
  if argv.length < 1 then (-1, none, argv, d)
  else
    let d := { d with optarg := none }
    let (optstring, d) :=
      if d.optind = 0 ∨ d.initialized = false then getoptInitialize optstring d posixlyCorrect env
      else if optstring.head? = some dash ∨ optstring.head? = some plus then (optstring.drop 1, d)
      else (optstring, d)
    match d.nextchar with
    | some (c :: nextchar) =>
      let (ret, longind, d) := shortOption argv optstring longopts c nextchar d
      (ret, longind, argv, d)
    | _ => nextElement argv optstring longopts longOnly d

/-- The variables that the calls share, and the argument vector. -/
structure State where
  argv : List Text
  optind : ℕ
  optarg : Option Text
  optopt : ℤ
  getoptData : Data

/-- What a call answers. -/
structure Result where
  ret : ℤ
  optarg : Option Text
  optopt : ℤ
  longind : Option ℕ
deriving DecidableEq

/-- `_getopt_internal` -/
def getoptInternal (optstring : Text) (longopts : Option (List LongOption)) (longOnly : Bool)
    (posixlyCorrect env : Bool) (s : State) : Result × State :=
  let (ret, longind, argv, d) := getoptInternalR s.argv optstring longopts longOnly
    { s.getoptData with optind := s.optind } posixlyCorrect env
  (⟨ret, d.optarg, d.optopt, longind⟩, ⟨argv, d.optind, d.optarg, d.optopt, d⟩)

/-- `getopt_long` -/
def getoptLong (optstring : Text) (longopts : Option (List LongOption)) (env : Bool) (s : State) :
    Result × State := getoptInternal optstring longopts false false env s

/-- `getopt`, which requires the order of POSIX. -/
def getopt (optstring : Text) (env : Bool) (s : State) : Result × State :=
  getoptInternal optstring none false true env s

/-- Call again and again until -1 is returned. -/
def nextOption (call : State → Result × State) (s : State) : Option (Result × State) :=
  if (call s).1.ret = -1 then none else some (call s)

end Yalibct.Getopt
