import Yalibct.Model.Getopt

/-! # A long option, with what is printed about it

This is `process_long_option` as a whole: the set of ambiguous options that is kept for the error
message, the requests of memory for it, and what is stored through `longind` and the flag.
-/

namespace Yalibct.Getopt

/-- What is printed on `stderr`, behind the name of the program. -/
inductive Diagnostic where
  /-- `option '%s%s' is ambiguous` -/
  | ambiguous (option : Text)
  /-- `option '%s%s' is ambiguous; possibilities:`, then ` '%s%s'` for each of them -/
  | possibilities (option : Text) (names : List Text)
  /-- `unrecognized option '%s%s'` -/
  | unrecognized (option : Text)
  /-- `option '%s%s' doesn't allow an argument` -/
  | allowsNone (option : Text)
  /-- `option '%s%s' requires an argument` -/
  | requires (option : Text)

/-- `ambig_set`, `ambig_malloced` and `ambig_fallback` -/
structure Ambiguity where
  set : Option (List Bool)
  malloced : Bool
  fallback : Bool

/-- A second match or a later one that is different; the request for the set is granted or not. -/
def Ambiguity.track (printErrors granted : Bool) (nOptions indfound optionIndex : ℕ) (a : Ambiguity) :
    Ambiguity :=
  if a.fallback then a
  else
    let a :=
      if printErrors = false then { a with fallback := true }
      else
        match a.set with
        | none =>
          if granted then
            { a with
              set := some ((List.replicate nOptions false).set indfound true)
              malloced := true }
          else { a with fallback := true }
        | some _ => a
    { a with set := a.set.map fun set => set.set optionIndex true }

/-- The loop over the abbreviations. -/
def abbreviationLoop (longOnly printErrors granted : Bool) (nOptions : ℕ) (name : Text) :
    List LongOption → ℕ → Option (ℕ × LongOption) → Ambiguity → Option (ℕ × LongOption) × Ambiguity
  | [], _, pfound, a => (pfound, a)
  | p :: rest, optionIndex, pfound, a =>
    let next := abbreviationLoop longOnly printErrors granted nOptions name rest (optionIndex + 1)
    if p.name.take name.length = name then
      match pfound with
      | none => next (some (optionIndex, p)) a
      | some (indfound, first) =>
        if longOnly ∨ first.hasArg ≠ p.hasArg ∨ first.flag ≠ p.flag ∨ first.val ≠ p.val then
          next pfound (a.track printErrors granted nOptions indfound optionIndex)
        else next pfound a
    else next pfound a

/-- What the two loops find. -/
inductive Found where
  | option (optionIndex : ℕ) (pfound : LongOption)
  | ambiguous (a : Ambiguity)
  | nothing

def searchLongOption (longOnly printErrors granted : Bool) (name : Text) (longopts : List LongOption) :
    Found :=
  match exactMatch name longopts 0 with
  | some (optionIndex, pfound) => .option optionIndex pfound
  | none =>
    match abbreviationLoop longOnly printErrors granted longopts.length name longopts 0 none
        ⟨none, false, false⟩ with
    | (pfound, a) =>
      if a.set.isSome ∨ a.fallback then .ambiguous a
      else
        match pfound with
        | some (indfound, pfound) => .option indfound pfound
        | none => .nothing

/-- The value that is returned, what is stored through `longind` and a flag, the data, what is printed,
and whether the memory for the set is still held. -/
structure LongAnswer where
  ret : ℤ
  longind : Option ℕ
  flag : Option (ℕ × ℤ)
  data : Data
  printed : List Diagnostic
  held : Bool

/-- The names of the options in the set. -/
def possible (set : List Bool) (longopts : List LongOption) : List Text :=
  ((List.range longopts.length).filter fun i => set.getD i false).map fun i =>
    (longopts.getD i ⟨[], 0, none, 0⟩).name

/-- The branch for an ambiguous option. -/
def ambiguousOption (printErrors : Bool) (longopts : List LongOption) (nextchar : Text) (a : Ambiguity)
    (d : Data) : LongAnswer where
  ret := questionMark
  longind := none
  flag := none
  data := { d with nextchar := some [], optind := d.optind + 1, optopt := 0 }
  printed :=
    if printErrors = false then []
    else if a.fallback then [.ambiguous nextchar]
    else [.possibilities nextchar (possible (a.set.getD []) longopts)]
  -- `free (ambig_set)`
  held := if a.malloced then false else a.set.isSome

/-- The branch for what is no long option. -/
def unknownOption (argv : List Text) (optstring : Text) (longOnly printErrors : Bool) (nextchar : Text)
    (d : Data) : LongAnswer :=
  if longOnly = false ∨ (argv.getD d.optind [])[1]? = some dash ∨ (∃ c ∈ nextchar.head?, c ∉ optstring) then
    { ret := questionMark
      longind := none
      flag := none
      data := { d with nextchar := none, optind := d.optind + 1, optopt := 0 }
      printed := if printErrors then [.unrecognized nextchar] else []
      held := false }
  else { ret := -1, longind := none, flag := none, data := d, printed := [], held := false }

/-- The end of the function, where the option is known. -/
def foundOption (argv : List Text) (optstring : Text) (printErrors : Bool) (nameend : Text)
    (optionIndex : ℕ) (pfound : LongOption) (d : Data) : LongAnswer :=
  let d := { d with optind := d.optind + 1, nextchar := none }
  let stored (d : Data) : LongAnswer :=
    { ret := pfound.answer
      longind := some optionIndex
      flag := pfound.flag.map fun flag => (flag, pfound.val)
      data := d
      printed := []
      held := false }
  let refused (ret : ℤ) (message : Diagnostic) : LongAnswer :=
    { ret := ret
      longind := none
      flag := none
      data := { d with optopt := pfound.val }
      printed := if printErrors then [message] else []
      held := false }
  if nameend ≠ [] then
    if pfound.hasArg ≠ 0 then stored { d with optarg := some (nameend.drop 1) }
    else refused questionMark (.allowsNone pfound.name)
  else if pfound.hasArg = 1 then
    if d.optind < argv.length then
      stored { d with optarg := some (argv.getD d.optind []), optind := d.optind + 1 }
    else refused (missing optstring) (.requires pfound.name)
  else stored d

/-- `process_long_option` -/
def processLongOptionPrinting (printErrors granted : Bool) (argv : List Text) (optstring : Text)
    (longopts : List LongOption) (longOnly : Bool) (d : Data) : LongAnswer :=
  let nextchar := d.nextchar.getD []
  let name := nextchar.takeWhile fun c => c ≠ equalsSign
  let nameend := nextchar.drop name.length
  match searchLongOption longOnly printErrors granted name longopts with
  | .ambiguous a => ambiguousOption printErrors longopts nextchar a d
  | .nothing => unknownOption argv optstring longOnly printErrors nextchar d
  | .option optionIndex pfound => foundOption argv optstring printErrors nameend optionIndex pfound d

end Yalibct.Getopt
