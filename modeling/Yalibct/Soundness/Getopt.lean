import Mathlib.Data.List.TakeWhile
import Mathlib.Tactic.SplitIfs
import Yalibct.Soundness.Exchange

/-! # getopt answers as a scan from left to right does

The reference is a scan of the arguments in their original order. It sets operands aside, and
takes the arguments of options from what follows them. The calls of `getopt_long` answer as this
scan does, and leave the options before the operands; `getopt` stops at the first operand.
-/

namespace Yalibct.Getopt

open Machine

/-! ## The reference -/

/-- The long option that a name selects: an exact match, or the one it abbreviates. -/
def findLong (longopts : List LongOption) (name : Text) : Option (ℕ × LongOption) :=
  match exactMatch name longopts 0 with
  | some found => some found
  | none =>
    match abbreviations false name longopts 0 none false with
    | (_, true) => none
    | (found, false) => found

/-- What an option answers, what is left to read of its element, and how many of the elements
behind it are its own. -/
structure Parsed where
  ret : ℤ
  optarg : Option Text
  complaint : Option ℤ
  longind : Option ℕ
  left : Text
  used : ℕ

/-- A long option that was found, with what follows its name. -/
def parseFound (optstring : Text) (index : ℕ) (p : LongOption) (value : Text) (after : List Text) :
    Parsed :=
  if value ≠ [] then
    if p.hasArg ≠ 0 then ⟨p.answer, some (value.drop 1), none, some index, [], 0⟩
    else ⟨questionMark, none, some p.val, none, [], 0⟩
  else if p.hasArg = 1 then
    match after with
    | [] => ⟨missing optstring, none, some p.val, none, [], 0⟩
    | arg :: _ => ⟨p.answer, some arg, none, some index, [], 1⟩
  else ⟨p.answer, none, none, some index, [], 0⟩

/-- A long option, given its name with a possible argument, and the elements behind it. -/
def parseLong (optstring : Text) (longopts : List LongOption) (text : Text) (after : List Text) :
    Parsed :=
  let name := text.takeWhile fun c => c ≠ equalsSign
  match findLong longopts name with
  | none => ⟨questionMark, none, some 0, none, [], 0⟩
  | some (index, p) => parseFound optstring index p (text.drop name.length) after

inductive ShortKind where
  | unknown
  | plain
  | optional
  | required
  | long (longopts : List LongOption)

/-- What the option characters say of one. -/
def kindOf (optstring : Text) (longopts : Option (List LongOption)) (c : UInt8) : ShortKind :=
  let temp := optstring.dropWhile fun x => x ≠ c
  if temp = [] ∨ c = colon ∨ c = semicolon then .unknown
  else
    match (if temp[0]? = some letterW ∧ temp[1]? = some semicolon then longopts else none) with
    | some longopts => .long longopts
    | none =>
      if temp[1]? = some colon then (if temp[2]? = some colon then .optional else .required)
      else .plain

/-- An option character, with the rest of its element and the elements behind it. -/
def parseShort (optstring : Text) (longopts : Option (List LongOption)) (c : UInt8) (text : Text)
    (after : List Text) : Parsed :=
  match kindOf optstring longopts c with
  | .unknown => ⟨questionMark, none, some (charValue c), none, text, 0⟩
  | .plain => ⟨charValue c, none, none, none, text, 0⟩
  | .optional => ⟨charValue c, if text = [] then none else some text, none, none, [], 0⟩
  | .required =>
    if text ≠ [] then ⟨charValue c, some text, none, none, [], 0⟩
    else
      match after with
      | [] => ⟨missing optstring, none, some (charValue c), none, [], 0⟩
      | arg :: _ => ⟨charValue c, some arg, none, none, [], 1⟩
  | .long longopts =>
    if text ≠ [] then parseLong optstring longopts text after
    else
      match after with
      | [] => ⟨missing optstring, none, some (charValue c), none, [], 0⟩
      | arg :: after =>
        let parsed := parseLong optstring longopts arg after
        { parsed with used := parsed.used + 1 }

/-- The first option of an element. -/
def parseElement (optstring : Text) (longopts : Option (List LongOption)) (arg : Text)
    (after : List Text) : Parsed :=
  let short := parseShort optstring longopts (arg.getD 1 0) (arg.drop 2) after
  match longopts with
  | none => short
  | some longopts =>
    if arg[1]? = some dash then parseLong optstring longopts (arg.drop 2) after else short

/-- The options so far with their arguments, the operands so far, and what is still to be read. -/
structure Scan where
  options : List Text
  operands : List Text
  rest : List Text
  left : Text
  optopt : ℤ

namespace Scan

/-- Set aside what is no option. -/
def setAside (permute : Bool) (s : Scan) : Scan :=
  if permute then
    { s with
      operands := s.operands ++ s.rest.takeWhile nonoption
      rest := s.rest.dropWhile nonoption }
  else s

def emit (s : Scan) (p : Parsed) : Result × Scan :=
  (⟨p.ret, p.optarg, p.complaint.getD s.optopt, p.longind⟩, {
    options := s.options ++ s.rest.take p.used
    operands := s.operands
    rest := s.rest.drop p.used
    left := p.left
    optopt := p.complaint.getD s.optopt })

/-- The next option of the scan. -/
def next (permute : Bool) (optstring : Text) (longopts : Option (List LongOption)) (s : Scan) :
    Option (Result × Scan) :=
  match s.left with
  | c :: text => some (s.emit (parseShort optstring longopts c text s.rest))
  | [] =>
    let s := s.setAside permute
    match s.rest with
    | [] => none
    | arg :: after =>
      if arg = [dash, dash] ∨ nonoption arg then none
      else
        some (({ s with options := s.options ++ [arg], rest := after } : Scan).emit
          (parseElement optstring longopts arg after))

/-- The end of the scan: what follows `--`, or the element it stopped at, are operands. -/
def close (permute : Bool) (s : Scan) : Scan :=
  let s := s.setAside permute
  match s.rest with
  | [] => s
  | arg :: after =>
    if arg = [dash, dash] then
      { s with options := s.options ++ [arg], operands := s.operands ++ after, rest := [] }
    else { s with operands := s.operands ++ arg :: after, rest := [] }

end Scan

/-! ## One option -/

variable {argv after : List Text} {optstring text elem : Text} {d : Data}

/-- The data after an option whose element, if it is read to its end, is passed with the arguments
that it uses. -/
def Data.answer (d : Data) (p : Parsed) (nextchar : Option Text) : Data :=
  { d with
    optind := d.optind + (if p.left = [] then 1 else 0) + p.used
    optarg := p.optarg
    optopt := p.complaint.getD d.optopt
    nextchar := nextchar }

private theorem getD_of_drop {i : ℕ} (here : argv.drop i = elem :: after) : argv.getD i [] = elem := by
  have first := congrArg List.head? here
  rw [List.head?_drop] at first
  rw [List.getD_eq_getElem?_getD, first]
  rfl

private theorem drop_of_drop {i : ℕ} (here : argv.drop i = elem :: after) : argv.drop (i + 1) = after := by
  rw [← List.tail_drop, here]
  rfl

/-- There are elements behind if and only if the index is not the last. -/
theorem lt_length_iff {i : ℕ} (here : argv.drop i = elem :: after) :
    i + 1 < argv.length ↔ after ≠ [] := by
  have length := congrArg List.length here
  rw [List.length_drop, List.length_cons] at length
  rw [← List.length_pos_iff]
  omega

theorem consumeLongOption_spec {index : ℕ} {p : LongOption} {value : Text}
    (here : argv.drop d.optind = elem :: after) (clear : d.optarg = none) :
    let parsed := parseFound optstring index p value after
    parsed.left = [] ∧ consumeLongOption argv optstring value index p d =
      (parsed.ret, parsed.longind, d.answer parsed none) := by
  have more := lt_length_iff here
  simp only [consumeLongOption, parseFound]
  split_ifs with attached takes separate behind
  · exact ⟨rfl, by simp [Data.answer]⟩
  · exact ⟨rfl, by simp [Data.answer, clear]⟩
  · cases after with
    | nil => exact absurd rfl (more.mp behind)
    | cons arg after =>
      refine ⟨rfl, ?_⟩
      rw [getD_of_drop (drop_of_drop here)]
      simp [Data.answer]
  · cases after with
    | nil => exact ⟨rfl, by simp [Data.answer, clear]⟩
    | cons arg after => exact absurd (more.mpr nofun) behind
  · exact ⟨rfl, by simp [Data.answer, clear]⟩

theorem processLongOption_spec (optstring : Text) (longopts : List LongOption)
    (here : argv.drop d.optind = elem :: after) (clear : d.optarg = none)
    (reads : d.nextchar = some text) :
    let parsed := parseLong optstring longopts text after
    parsed.left = [] ∧ ∃ nextchar, nextchar.getD [] = [] ∧
      processLongOption argv optstring longopts false d =
        (parsed.ret, parsed.longind, d.answer parsed nextchar) := by
  simp only [processLongOption, parseLong, findLong, reads, Option.getD_some]
  cases exactMatch (text.takeWhile fun c => c ≠ equalsSign) longopts 0 with
  | some found =>
    obtain ⟨left, consumed⟩ := consumeLongOption_spec here clear
    exact ⟨left, none, rfl, consumed⟩
  | none =>
    cases abbreviations false (text.takeWhile fun c => c ≠ equalsSign) longopts 0 none false with
    | mk found ambiguous =>
      cases ambiguous with
      | true => exact ⟨rfl, some [], rfl, by simp [Data.answer, clear]⟩
      | false =>
        cases found with
        | none => exact ⟨rfl, none, rfl, by simp [Data.answer, clear]⟩
        | some found =>
          obtain ⟨left, consumed⟩ := consumeLongOption_spec here clear
          exact ⟨left, none, rfl, consumed⟩

theorem shortOption_spec (optstring text : Text) (longopts : Option (List LongOption)) (c : UInt8)
    (here : argv.drop d.optind = elem :: after) (clear : d.optarg = none) :
    let parsed := parseShort optstring longopts c text after
    ∃ nextchar, nextchar.getD [] = parsed.left ∧
      shortOption argv optstring longopts c text d =
        (parsed.ret, parsed.longind, d.answer parsed nextchar) := by
  have more := lt_length_iff here
  have bound : d.optind + 1 ≤ argv.length := by
    have length := congrArg List.length here
    rw [List.length_drop, List.length_cons] at length
    omega
  have none_left : d.optind + 1 = argv.length ↔ after = [] := by
    rw [← not_iff_not, ← ne_eq after, ← more]
    omega
  simp only [shortOption, parseShort, kindOf]
  generalize optstring.dropWhile (fun x => x ≠ c) = temp
  by_cases unknown : temp = [] ∨ c = colon ∨ c = semicolon
  · rw [if_pos unknown, if_pos unknown]
    exact ⟨some text, rfl, by simp [Data.answer, clear]; split_ifs <;> rfl⟩
  rw [if_neg unknown, if_neg unknown]
  cases (if temp[0]? = some letterW ∧ temp[1]? = some semicolon then longopts else none) with
  | some longopts =>
    simp only [longOptionOfW, Option.getD_some]
    by_cases attached : text ≠ []
    · rw [if_pos attached, if_pos attached, if_neg attached]
      obtain ⟨left, nextchar, empty, processed⟩ := processLongOption_spec optstring longopts
        (d := { d with nextchar := some text }) here clear rfl
      exact ⟨nextchar, empty.trans left.symm, processed⟩
    · rw [if_neg attached, if_neg attached]
      obtain rfl := Decidable.not_not.mp attached
      simp only [↓reduceIte]
      cases after with
      | nil =>
        rw [if_pos (none_left.mpr rfl)]
        exact ⟨some [], rfl, by simp [Data.answer, clear]⟩
      | cons arg after =>
        rw [if_neg (fun last => List.cons_ne_nil _ _ (none_left.mp last)),
          getD_of_drop (drop_of_drop here)]
        obtain ⟨left, nextchar, empty, processed⟩ := processLongOption_spec optstring longopts
          (d := { d with nextchar := some arg, optind := d.optind + 1 }) (drop_of_drop here) clear rfl
        refine ⟨nextchar, empty.trans left.symm, processed.trans ?_⟩
        simp only [Data.answer, left, ↓reduceIte]
        congr 3
        omega
  | none =>
    by_cases argument : temp[1]? = some colon
    · by_cases optional : temp[2]? = some colon
      · cases text with
        | nil => exact ⟨none, by simp [argument, optional], by simp [argument, optional, Data.answer]⟩
        | cons x xs => exact ⟨none, by simp [argument, optional], by simp [argument, optional, Data.answer]⟩
      · cases text with
        | nil =>
          cases after with
          | nil =>
            have last := none_left.mpr rfl
            exact ⟨none, by simp [argument, optional],
              by simp [argument, optional, last, Data.answer, clear]⟩
          | cons arg after =>
            have notLast : d.optind + 1 ≠ argv.length := fun last =>
              List.cons_ne_nil _ _ (none_left.mp last)
            have separate := getD_of_drop (drop_of_drop here)
            rw [List.getD_eq_getElem?_getD] at separate
            exact ⟨none, by simp [argument, optional],
              by simp [argument, optional, notLast, separate, Data.answer]⟩
        | cons x xs =>
          exact ⟨none, by simp [argument, optional], by simp [argument, optional, Data.answer]⟩
    · refine ⟨some text, by simp [argument], ?_⟩
      cases text with
      | nil => simp [argument, Data.answer, clear]
      | cons x xs => simp [argument, Data.answer, clear]

/-- What is no operand starts with a dash and has more. -/
theorem option_cases {arg : Text} (option : nonoption arg = false) : ∃ c text, arg = dash :: c :: text := by
  match arg with
  | [] => cases option
  | [_] => cases option
  | c :: x :: text =>
    simp only [nonoption, decide_eq_false_iff_not, ne_eq, not_not] at option
    exact ⟨x, text, by rw [option]⟩

theorem optionElement_spec (optstring : Text) (longopts : Option (List LongOption)) {arg : Text}
    (here : argv.drop d.optind = arg :: after) (clear : d.optarg = none) (option : nonoption arg = false) :
    let parsed := parseElement optstring longopts arg after
    ∃ nextchar, nextchar.getD [] = parsed.left ∧
      optionElement argv optstring longopts false d =
        (parsed.ret, parsed.longind, d.answer parsed nextchar) := by
  obtain ⟨c, text, rfl⟩ := option_cases option
  have short := shortOption_spec optstring text longopts c here clear
  simp only [optionElement, parseElement, getD_of_drop here]
  cases longopts with
  | none => exact short
  | some longopts =>
    simp only [Bool.false_eq_true, false_and, ↓reduceIte]
    by_cases long : (dash :: c :: text)[1]? = some dash
    · rw [if_pos long, if_pos long]
      obtain ⟨left, nextchar, empty, processed⟩ := processLongOption_spec optstring longopts
        (d := { d with nextchar := some text }) here clear rfl
      exact ⟨nextchar, empty.trans left.symm, processed⟩
    · rw [if_neg long, if_neg long]
      exact short

/-- An option uses elements that are there. -/
theorem parseFound_used (optstring : Text) (index : ℕ) (p : LongOption) (value : Text)
    (after : List Text) : (parseFound optstring index p value after).used ≤ after.length := by
  simp only [parseFound]
  split_ifs
  · exact Nat.zero_le _
  · exact Nat.zero_le _
  · cases after with
    | nil => exact Nat.zero_le _
    | cons arg after => exact Nat.succ_le_succ (Nat.zero_le _)
  · exact Nat.zero_le _

private theorem parseLong_used (optstring : Text) (longopts : List LongOption) (text : Text)
    (after : List Text) : (parseLong optstring longopts text after).used ≤ after.length := by
  simp only [parseLong]
  split
  · exact Nat.zero_le _
  · exact parseFound_used ..

private theorem parseShort_used (optstring : Text) (longopts : Option (List LongOption)) (c : UInt8)
    (text : Text) (after : List Text) :
    (parseShort optstring longopts c text after).used ≤ after.length := by
  simp only [parseShort]
  cases kindOf optstring longopts c with
  | unknown | plain | optional => exact Nat.zero_le _
  | required =>
    simp only
    split_ifs
    · exact Nat.zero_le _
    · cases after with
      | nil => exact Nat.zero_le _
      | cons arg after => exact Nat.succ_le_succ (Nat.zero_le _)
  | long longopts =>
    simp only
    split_ifs
    · exact parseLong_used ..
    · cases after with
      | nil => exact Nat.zero_le _
      | cons arg after => exact Nat.succ_le_succ (parseLong_used ..)

private theorem parseElement_used (optstring : Text) (longopts : Option (List LongOption)) (arg : Text)
    (after : List Text) : (parseElement optstring longopts arg after).used ≤ after.length := by
  cases longopts with
  | none => exact parseShort_used ..
  | some longopts =>
    simp only [parseElement]
    split_ifs
    · exact parseLong_used ..
    · exact parseShort_used ..

/-! ## Where the elements are -/

/-- The options that were passed before the operands and behind them, and the indices between them.
Of the last option a part may still be to be read. -/
structure Lies (program : Text) (permute : Bool) (pending : ℕ) (before behind : List Text)
    (argv : List Text) (d : Data) (t : Scan) : Prop where
  argv : argv = program :: (before ++ t.operands ++ behind ++ t.rest)
  options : t.options = before ++ behind
  optind : d.optind + pending = 1 + before.length + t.operands.length + behind.length
  first : d.firstNonopt = 1 + before.length
  last : d.lastNonopt = 1 + before.length + t.operands.length
  ordering : d.ordering = if permute then .permute else .requireOrder
  initialized : d.initialized = true
  optopt : d.optopt = t.optopt
  strict : permute = false → t.operands = []

/-- Whether the element of the last option is still being read. -/
def pendingOf (left : Text) : ℕ := if left = [] then 0 else 1

private theorem passed_add_pending (left : Text) : (if left = [] then 1 else 0) + pendingOf left = 1 := by
  rw [pendingOf]
  split_ifs <;> rfl

/-- Between two calls. -/
structure Tracks (program : Text) (permute : Bool) (before behind : List Text) (argv : List Text)
    (d : Data) (t : Scan) : Prop
    extends Lies program permute (pendingOf t.left) before behind argv d t where
  nextchar : d.nextchar.getD [] = t.left
  cluster : t.left ≠ [] → behind ≠ []

variable {program : Text} {permute : Bool} {pending : ℕ} {before behind : List Text} {t : Scan}

namespace Lies

theorem length (lies : Lies program permute pending before behind argv d t) :
    argv.length = d.optind + pending + t.rest.length := by
  rw [lies.optind, lies.argv]
  simp only [List.length_cons, List.length_append]
  omega

/-- What is not passed is still to be scanned. -/
theorem drop (lies : Lies program permute 0 before behind argv d t) : argv.drop d.optind = t.rest := by
  have length : (program :: (before ++ t.operands ++ behind)).length = d.optind := by
    have optind := lies.optind
    simp only [List.length_cons, List.length_append]
    omega
  have shape : argv = program :: (before ++ t.operands ++ behind) ++ t.rest := lies.argv
  rw [← length, shape, List.drop_left]

/-- The element that is being read comes before what is still to be scanned. -/
theorem drop_pending (lies : Lies program permute 1 before (behind ++ [elem]) argv d t) :
    argv.drop d.optind = elem :: t.rest := by
  have length : (program :: (before ++ t.operands ++ behind)).length = d.optind := by
    have optind := lies.optind
    simp only [List.length_cons, List.length_append, List.length_nil] at optind ⊢
    omega
  have shifted : argv = program :: (before ++ t.operands ++ behind) ++ elem :: t.rest := by
    rw [lies.argv]
    simp
  rw [← length, shifted, List.drop_left]

/-- The answer to an option passes the arguments it uses. -/
theorem emit (lies : Lies program permute 1 before behind argv d t) (current : behind ≠ []) {p : Parsed}
    (used : p.used ≤ t.rest.length) {nextchar : Option Text} (left : nextchar.getD [] = p.left) :
    Tracks program permute before (behind ++ t.rest.take p.used) argv (d.answer p nextchar) (t.emit p).2 where
  argv := by
    rw [lies.argv]
    simp only [Scan.emit, List.append_assoc, List.take_append_drop]
  options := by rw [Scan.emit, lies.options, List.append_assoc]
  optind := by
    have optind := lies.optind
    simp only [Data.answer, Scan.emit, List.length_append, List.length_take, Nat.min_eq_left used]
    have passed := passed_add_pending p.left
    omega
  first := lies.first
  last := lies.last
  ordering := lies.ordering
  initialized := lies.initialized
  optopt := by rw [Scan.emit, Data.answer, lies.optopt]
  strict := lies.strict
  nextchar := left
  cluster _ := List.append_ne_nil_of_left_ne_nil current _

/-- `exchange` moves the options before the operands. -/
theorem exchange_argv (lies : Lies program permute 0 before behind argv d t) :
    (exchange argv d).1 = program :: (t.options ++ t.operands ++ t.rest) := by
  have optind := lies.optind
  have exchanged := exchangeLoop_spec d.optind (program :: before) t.operands behind t.rest
    (by omega)
  have first : (program :: before).length = d.firstNonopt := by
    rw [lies.first, List.length_cons, Nat.add_comm]
  have last : d.firstNonopt + t.operands.length = d.lastNonopt := by rw [lies.last, lies.first]
  have top : d.lastNonopt + behind.length = d.optind := by
    rw [lies.last]
    omega
  have shape : argv = program :: before ++ t.operands ++ behind ++ t.rest := lies.argv
  rw [first, last, top, ← shape] at exchanged
  rw [exchange, exchanged, lies.options]
  rfl

end Lies

private theorem skipNonoptions_eq (rest : List Text) (i : ℕ) :
    skipNonoptions rest i = i + (rest.takeWhile nonoption).length := by
  induction rest generalizing i with
  | nil => rfl
  | cons arg rest ih =>
    rw [skipNonoptions, List.takeWhile_cons]
    cases nonoption arg with
    | true =>
      simp only [↓reduceIte, List.length_cons]
      rw [ih]
      omega
    | false => rfl

/-- After the exchange the operands so far come behind all options. -/
theorem gather_spec (lies : Lies program permute 0 before behind argv d t)  : ∃ last,
    (if d.firstNonopt ≠ d.lastNonopt ∧ d.lastNonopt ≠ d.optind then exchange argv d
      else if d.lastNonopt ≠ d.optind then (argv, { d with firstNonopt := d.optind })
      else (argv, d)) =
    (program :: (t.options ++ t.operands ++ t.rest),
      { d with firstNonopt := 1 + t.options.length, lastNonopt := last }) := by
  have optind := lies.optind
  have first := lies.first
  have last := lies.last
  have options : t.options.length = before.length + behind.length := by
    rw [lies.options, List.length_append]
  split_ifs with both alone
  · refine ⟨d.optind, Prod.ext lies.exchange_argv ?_⟩
    simp only [exchange]
    congr 1
    omega
  · -- There are no operands yet.
    have none : t.operands = [] := List.length_eq_zero_iff.mp (by omega)
    have shape : argv = program :: (t.options ++ t.operands ++ t.rest) := by
      rw [lies.argv, lies.options, none, List.append_nil, List.append_nil]
    have index : d.optind = 1 + t.options.length := by
      rw [none, List.length_nil] at optind
      omega
    exact ⟨d.lastNonopt, by rw [← shape, ← index]⟩
  · have none : behind = [] := List.length_eq_zero_iff.mp (by omega)
    have shape : argv = program :: (t.options ++ t.operands ++ t.rest) := by
      rw [lies.argv, lies.options, none, List.append_nil, List.append_nil]
    have index : d.firstNonopt = 1 + t.options.length := by
      rw [none, List.length_nil] at options
      omega
    exact ⟨d.lastNonopt, by rw [← shape, ← index]⟩

/-- The permuting part brings the options together and sets the next operands aside. -/
theorem permuteArguments_spec (lies : Lies program true 0 before behind argv d t) :
    Lies program true 0 t.options [] (permuteArguments argv d).1 (permuteArguments argv d).2
      (t.setAside true) ∧ (permuteArguments argv d).2.optarg = d.optarg := by
  have optind := lies.optind
  have options : t.options.length = before.length + behind.length := by
    rw [lies.options, List.length_append]
  obtain ⟨last, gathered⟩ := gather_spec lies
  have dropped : (program :: (t.options ++ t.operands ++ t.rest)).drop d.optind = t.rest := by
    have length : (program :: (t.options ++ t.operands)).length = d.optind := by
      simp only [List.length_cons, List.length_append]
      omega
    have shape : program :: (t.options ++ t.operands ++ t.rest) =
        program :: (t.options ++ t.operands) ++ t.rest := rfl
    rw [← length, shape, List.drop_left]
  simp only [permuteArguments, gathered, dropped, skipNonoptions_eq]
  refine ⟨⟨?_, ?_, ?_, rfl, ?_, lies.ordering, lies.initialized, lies.optopt, nofun⟩, trivial⟩
  · simp only [Scan.setAside, ↓reduceIte, List.append_nil, List.append_assoc,
      List.takeWhile_append_dropWhile]
  · simp only [Scan.setAside, ↓reduceIte, List.append_nil]
  · simp only [Scan.setAside, ↓reduceIte, List.length_append, List.length_nil]
    omega
  · simp only [Scan.setAside, ↓reduceIte, List.length_append]
    omega

/-- The parts of a call that come before an element is looked at. -/
theorem advance_spec (lies : Lies program permute 0 before behind argv d t) :
    ∃ before' behind' argv' d',
      (if d.ordering = .permute then permuteArguments argv d else (argv, d)) = (argv', d') ∧
      Lies program permute 0 before' behind' argv' d' (t.setAside permute) ∧ d'.optarg = d.optarg ∧
      ((t.setAside permute).operands = [] ∨ behind' = []) := by
  cases permute with
  | true =>
    obtain ⟨lies', optarg⟩ := permuteArguments_spec lies
    exact ⟨_, _, _, _, if_pos lies.ordering, lies', optarg, .inr rfl⟩
  | false =>
    refine ⟨before, behind, argv, d, if_neg ?_, lies, rfl, .inl (lies.strict rfl)⟩
    rw [lies.ordering]
    exact nofun

/-- What a call leaves when there are no more options. -/
structure Closed (program : Text) (argv : List Text) (d : Data) (t : Scan) : Prop where
  argv : argv = program :: (t.options ++ t.operands)
  optind : d.optind = 1 + t.options.length
  optarg : d.optarg = none
  optopt : d.optopt = t.optopt

/-- The end of the scan backs over the operands. -/
theorem Closed.back (shape : argv = program :: (t.options ++ t.operands))
    (first : d.firstNonopt ≠ d.lastNonopt → d.firstNonopt = 1 + t.options.length)
    (last : d.firstNonopt = d.lastNonopt → d.optind = 1 + t.options.length) (clear : d.optarg = none)
    (optopt : d.optopt = t.optopt) :
    Closed program argv
      (if d.firstNonopt ≠ d.lastNonopt then { d with optind := d.firstNonopt } else d) t := by
  by_cases none : d.firstNonopt = d.lastNonopt
  · rw [if_neg (not_not_intro none)]
    exact ⟨shape, last none, clear, optopt⟩
  · rw [if_pos none]
    exact ⟨shape, first none, clear, optopt⟩

/-- The part of a call that passes `--`, and backs over the operands. -/
theorem endOfOptions_dashes (lies : Lies program permute 0 before behind argv d t)
    (clear : d.optarg = none) (apart : t.operands = [] ∨ behind = [])
    (rest : t.rest = [dash, dash] :: after) :
    ∃ argv' d', endOfOptions argv d = (argv', d') ∧ d'.optind = argv'.length ∧
      Closed program argv' (if d'.firstNonopt ≠ d'.lastNonopt then { d' with optind := d'.firstNonopt }
        else d')
        { t with options := t.options ++ [[dash, dash]], operands := t.operands ++ after, rest := [] } := by
  have here : argv.drop d.optind = [dash, dash] :: after := lies.drop.trans rest
  have length := lies.length
  rw [rest, List.length_cons] at length
  have optind := lies.optind
  have first := lies.first
  have last := lies.last
  have options : t.options.length = before.length + behind.length := by
    rw [lies.options, List.length_append]
  rw [endOfOptions, if_pos ⟨by omega, getD_of_drop here⟩]
  by_cases none : t.operands = []
  · -- Without operands nothing is moved.
    have same : d.firstNonopt = d.lastNonopt := by
      rw [first, last, none]
      rfl
    rw [none, List.length_nil] at optind
    simp only [same, ne_eq, not_true_eq_false, false_and, ↓reduceIte]
    refine ⟨argv, _, rfl, rfl, Closed.back ?_ ?_ ?_ clear lies.optopt⟩
    · rw [lies.argv, lies.options, none, rest]
      simp
    · intro _
      simp only [List.length_append, List.length_singleton]
      omega
    · intro equal
      simp only [List.length_append, List.length_singleton] at equal ⊢
      omega
  · -- The dashes go before the operands, like an option.
    obtain rfl := apart.resolve_left none
    have some := List.length_pos_iff.mpr none
    have moves : d.firstNonopt ≠ d.lastNonopt ∧ d.lastNonopt ≠ d.optind + 1 := by
      simp only [List.length_nil] at optind
      omega
    simp only [if_pos moves]
    have passed : Lies program permute 0 before [[dash, dash]] argv { d with optind := d.optind + 1 }
        { t with options := t.options ++ [[dash, dash]], rest := after } := by
      refine ⟨?_, ?_, ?_, first, last, lies.ordering, lies.initialized, lies.optopt, lies.strict⟩
      · rw [lies.argv, rest]
        simp
      · rw [lies.options, List.append_nil]
      · simp only [List.length_nil, List.length_singleton] at optind ⊢
        omega
    have exchanged := passed.exchange_argv
    refine ⟨_, _, rfl, rfl, Closed.back ?_ ?_ ?_ clear lies.optopt⟩
    · rw [exchanged, List.append_assoc]
    · intro _
      simp only [exchange, List.length_append, List.length_cons, List.length_nil] at optind options ⊢
      omega
    · intro equal
      simp only [exchange, List.length_append, List.length_cons, List.length_nil] at equal optind options ⊢
      omega

/-- Nothing but `--` is passed as the end of the options. -/
theorem endOfOptions_other (other : d.optind = argv.length ∨ argv.getD d.optind [] ≠ [dash, dash]) :
    endOfOptions argv d = (argv, d) :=
  if_neg fun both => other.elim both.1 fun differ => differ both.2

/-- A call and the scan both end, or they answer the same and stay together. -/
def Agrees (program : Text) (permute : Bool) (answer : ℤ × Option ℕ × List Text × Data)
    (scanned : Option (Result × Scan)) (closed : Scan) : Prop :=
  (scanned = none ∧ answer.1 = -1 ∧ Closed program answer.2.2.1 answer.2.2.2 closed) ∨
  ∃ result t before behind, scanned = some (result, t) ∧
    result = ⟨answer.1, answer.2.2.2.optarg, answer.2.2.2.optopt, answer.2.1⟩ ∧
    Tracks program permute before behind answer.2.2.1 answer.2.2.2 t

/-- What is set aside does not come next. -/
theorem rest_setAside {arg : Text} (permuted : permute = true)
    (rest : (t.setAside permute).rest = arg :: after) : nonoption arg = false := by
  have first := List.head?_dropWhile_not nonoption t.rest
  rw [Scan.setAside, if_pos permuted] at rest
  rw [show t.rest.dropWhile nonoption = arg :: after from rest] at first
  simpa using first

/-- A call that looks at the next element does what the scan does. -/
theorem nextElement_spec (optstring : Text) (longopts : Option (List LongOption))
    (lies : Lies program permute 0 before behind argv d t) (left : t.left = []) (clear : d.optarg = none) :
    Agrees program permute (nextElement argv optstring longopts false d)
      (t.next permute optstring longopts) (t.close permute) := by
  have optind := lies.optind
  have first := lies.first
  have last := lies.last
  have lastClamp : (if d.optind < d.lastNonopt then d.optind else d.lastNonopt) = d.lastNonopt :=
    if_neg (by omega)
  have firstClamp : (if d.optind < d.firstNonopt then d.optind else d.firstNonopt) = d.firstNonopt :=
    if_neg (by omega)
  obtain ⟨before', behind', argv', d', advanced, lies', optarg, apart⟩ := advance_spec lies
  have clear' : d'.optarg = none := optarg.trans clear
  simp only [nextElement, lastClamp, firstClamp, advanced, Scan.next, Scan.close, left]
  have aside : ∀ {arg after}, permute = true → (t.setAside permute).rest = arg :: after →
      nonoption arg = false := rest_setAside
  generalize t.setAside permute = u at lies' apart aside
  have optind' := lies'.optind
  have first' := lies'.first
  have last' := lies'.last
  have length := lies'.length
  have options' : u.options.length = before'.length + behind'.length := by
    rw [lies'.options, List.length_append]
  cases rest : u.rest with
  | nil =>
    have ended : d'.optind = argv'.length := by
      rw [rest, List.length_nil] at length
      omega
    rw [endOfOptions_other (.inl ended)]
    simp only [ended, ↓reduceIte]
    refine .inl ⟨rfl, rfl, Closed.back ?_ ?_ ?_ clear' lies'.optopt⟩
    · rw [lies'.argv, lies'.options, rest]
      rcases apart with none | none
      · rw [none]
        simp
      · rw [none]
        simp
    · intro some
      have none : behind' = [] := apart.resolve_left fun none => some (by rw [first', last', none]; rfl)
      rw [none, List.length_nil] at options'
      omega
    · intro same
      omega
  | cons arg after =>
    have here : argv'.drop d'.optind = arg :: after := lies'.drop.trans rest
    have more : d'.optind ≠ argv'.length := by
      rw [rest, List.length_cons] at length
      omega
    simp only
    by_cases dashes : arg = [dash, dash]
    · subst dashes
      obtain ⟨argv'', d'', passed, ended, closed⟩ := endOfOptions_dashes lies' clear' apart rest
      rw [passed]
      simp only [ended, ↓reduceIte, true_or]
      exact .inl ⟨rfl, rfl, closed⟩
    rw [endOfOptions_other (.inr (by rw [getD_of_drop here]; exact dashes))]
    simp only [more, ↓reduceIte, getD_of_drop here, dashes, false_or]
    by_cases operand : nonoption arg = true
    · have ordered : permute = false := by
        by_contra permuted
        rw [aside (eq_true_of_ne_false permuted) rest] at operand
        cases operand
      have none := lies'.strict ordered
      have order : d'.ordering = .requireOrder := by
        rw [lies'.ordering, ordered]
        rfl
      simp only [operand, order, ↓reduceIte]
      refine .inl ⟨rfl, rfl, ?_, ?_, clear', lies'.optopt⟩
      · rw [lies'.argv, lies'.options, rest, none]
        simp
      · rw [none, List.length_nil] at optind'
        dsimp only
        omega
    · have option := Bool.eq_false_iff.mpr operand
      simp only [option, Bool.false_eq_true, ↓reduceIte]
      obtain ⟨nextchar, read, run⟩ := optionElement_spec optstring longopts
        here clear' option
      have current : Lies program permute 1 before' (behind' ++ [arg]) argv' d'
          { u with options := u.options ++ [arg], rest := after } := by
        refine ⟨?_, ?_, ?_, first', last', lies'.ordering, lies'.initialized, lies'.optopt, lies'.strict⟩
        · rw [lies'.argv, rest]
          simp
        · rw [lies'.options, List.append_assoc]
        · simp only [List.length_append, List.length_singleton]
          omega
      rw [run]
      refine .inr ⟨_, _, before', _, rfl, ?_, current.emit (by simp) (parseElement_used ..) read⟩
      simp only [Data.answer, lies'.optopt]

/-! ## What the options answer -/

/-- The options the claims of the manual are about: seven-bit characters, no other order asked for, and
no option that answers as the end of the options does. -/
structure Proper (optstring : Text) (longopts : Option (List LongOption)) : Prop where
  sevenBit : ∀ c ∈ optstring, c.toNat < 128
  ordered : optstring.head? ≠ some dash ∧ optstring.head? ≠ some plus
  values : ∀ ps, longopts = some ps → ∀ p ∈ ps, p.flag = none → p.val ≠ -1

variable {longopts : Option (List LongOption)}

private theorem exactMatch_mem {name : Text} {ps : List LongOption} {i index : ℕ} {p : LongOption}
    (found : exactMatch name ps i = some (index, p)) : p ∈ ps := by
  induction ps generalizing i with
  | nil => cases found
  | cons q ps ih =>
    rw [exactMatch] at found
    split_ifs at found
    · cases found
      exact List.mem_cons_self ..
    · exact List.mem_cons_of_mem _ (ih found)

private theorem abbreviations_mem {longOnly ambiguous : Bool} {name : Text} {ps : List LongOption} {i index : ℕ}
    {p : LongOption} {start : Option (ℕ × LongOption)}
    (found : (abbreviations longOnly name ps i start ambiguous).1 = some (index, p)) :
    p ∈ ps ∨ start = some (index, p) := by
  induction ps generalizing i start ambiguous with
  | nil => exact .inr found
  | cons q ps ih =>
    simp only [abbreviations] at found
    split_ifs at found
    · cases start with
      | none =>
        rcases ih found with later | here
        · exact .inl (List.mem_cons_of_mem _ later)
        · cases here
          exact .inl (List.mem_cons_self ..)
      | some first => exact (ih found).imp_left (List.mem_cons_of_mem _)
    · exact (ih found).imp_left (List.mem_cons_of_mem _)

private theorem findLong_mem {name : Text} {ps : List LongOption} {index : ℕ} {p : LongOption}
    (found : findLong ps name = some (index, p)) : p ∈ ps := by
  rw [findLong] at found
  cases exact_ : exactMatch name ps 0 with
  | some first =>
    rw [exact_] at found
    cases found
    exact exactMatch_mem exact_
  | none =>
    rw [exact_] at found
    cases search : abbreviations false name ps 0 none false with
    | mk first ambiguous =>
      rw [search] at found
      cases ambiguous with
      | true => cases found
      | false =>
        have place := abbreviations_mem (congrArg Prod.fst search |>.trans found)
        exact place.resolve_right nofun

theorem missing_ne (optstring : Text) : missing optstring ≠ -1 := by
  rw [missing]
  split_ifs <;> decide

private theorem parseLong_ret {ps : List LongOption} (values : ∀ p ∈ ps, p.flag = none → p.val ≠ -1)
    (optstring text : Text) (after : List Text) : (parseLong optstring ps text after).ret ≠ -1 := by
  simp only [parseLong]
  split
  · exact (by decide : questionMark ≠ -1)
  · next index p found =>
    have answer : p.answer ≠ -1 := by
      rw [LongOption.answer]
      split_ifs with flagged
      · decide
      · exact values p (findLong_mem found) (by simpa using flagged)
    simp only [parseFound]
    split_ifs
    · exact answer
    · exact (by decide : questionMark ≠ -1)
    · cases after with
      | nil => exact missing_ne _
      | cons arg after => exact answer
    · exact answer

private theorem kindOf_cases (optstring : Text) (longopts : Option (List LongOption)) (c : UInt8) :
    kindOf optstring longopts c = .unknown ∨ c ∈ optstring ∧
      (kindOf optstring longopts c = .plain ∨ kindOf optstring longopts c = .optional ∨
        kindOf optstring longopts c = .required ∨
        ∃ ps, longopts = some ps ∧ kindOf optstring longopts c = .long ps) := by
  have listed : optstring.dropWhile (fun x => x ≠ c) ≠ [] → c ∈ optstring := fun found => by
    by_contra absent
    refine found (List.dropWhile_eq_nil_iff.mpr fun x member => decide_eq_true ?_)
    exact fun equal => absent (equal ▸ member)
  simp only [kindOf]
  generalize optstring.dropWhile (fun x => x ≠ c) = temp at listed
  by_cases unknown : temp = [] ∨ c = colon ∨ c = semicolon
  · rw [if_pos unknown]
    exact .inl rfl
  rw [if_neg unknown]
  refine .inr ⟨listed fun empty => unknown (.inl empty), ?_⟩
  cases longopts with
  | none => split_ifs <;> simp
  | some ps => split_ifs <;> simp

private theorem charValue_ne {c : UInt8} (sevenBit : c.toNat < 128) : charValue c ≠ -1 := by
  rw [charValue, if_pos sevenBit]
  omega

private theorem parseShort_ret (proper : Proper optstring longopts) (c : UInt8) (text : Text) (after : List Text) :
    (parseShort optstring longopts c text after).ret ≠ -1 := by
  simp only [parseShort]
  rcases kindOf_cases optstring longopts c with
    kind | ⟨listed, kind | kind | kind | ⟨ps, given, kind⟩⟩ <;> rw [kind]
  · exact (by decide : questionMark ≠ -1)
  · exact charValue_ne (proper.sevenBit c listed)
  · exact charValue_ne (proper.sevenBit c listed)
  · have value := charValue_ne (proper.sevenBit c listed)
    simp only
    split_ifs
    · exact value
    · cases after with
      | nil => exact missing_ne _
      | cons arg after => exact value
  · have values := proper.values ps given
    simp only
    split_ifs
    · exact parseLong_ret values _ _ _
    · cases after with
      | nil => exact missing_ne _
      | cons arg after => exact parseLong_ret values _ _ _

private theorem parseElement_ret (proper : Proper optstring longopts) (arg : Text) (after : List Text) :
    (parseElement optstring longopts arg after).ret ≠ -1 := by
  cases longopts with
  | none => exact parseShort_ret proper _ _ _
  | some ps =>
    simp only [parseElement]
    split_ifs
    · exact parseLong_ret (proper.values ps rfl) _ _ _
    · exact parseShort_ret proper _ _ _

/-- The scan has an option for every result. -/
theorem Scan.next_ret (proper : Proper optstring longopts) {t u : Scan} {result : Result}
    (next : t.next permute optstring longopts = some (result, u)) : result.ret ≠ -1 := by
  rw [Scan.next] at next
  split at next
  · cases next
    exact parseShort_ret proper _ _ _
  · simp only at next
    split at next
    · cases next
    · split_ifs at next
      cases next
      exact parseElement_ret proper _ _

/-! ## The scan ends -/

/-- What there is to read. -/
def textSize : List Text → ℕ
  | [] => 0
  | arg :: rest => arg.length + 1 + textSize rest

private theorem textSize_sublist {part whole : List Text} (sublist : part.Sublist whole) :
    textSize part ≤ textSize whole := by
  induction sublist with
  | slnil => exact Nat.le_refl _
  | cons _ _ ih => exact Nat.le_trans ih (Nat.le_add_left _ _)
  | cons_cons _ _ ih => exact Nat.add_le_add_left ih _

def Scan.size (t : Scan) : ℕ := t.left.length + textSize t.rest

private theorem parseLong_left (optstring : Text) (ps : List LongOption) (text : Text) (after : List Text) :
    (parseLong optstring ps text after).left = [] := by
  simp only [parseLong]
  split
  · rfl
  · simp only [parseFound]
    split_ifs
    · rfl
    · rfl
    · cases after <;> rfl
    · rfl

private theorem parseShort_left (optstring : Text) (longopts : Option (List LongOption)) (c : UInt8)
    (text : Text) (after : List Text) :
    (parseShort optstring longopts c text after).left.length ≤ text.length := by
  simp only [parseShort]
  cases kindOf optstring longopts c with
  | unknown | plain => exact Nat.le_refl _
  | optional => exact Nat.zero_le _
  | required =>
    simp only
    split_ifs
    · exact Nat.zero_le _
    · cases after <;> exact Nat.zero_le _
  | long ps =>
    simp only
    split_ifs
    · rw [parseLong_left]
      exact Nat.zero_le _
    · cases after with
      | nil => exact Nat.zero_le _
      | cons arg after =>
        simp only [parseLong_left]
        exact Nat.zero_le _

private theorem parseElement_left (optstring : Text) (longopts : Option (List LongOption)) (arg : Text)
    (after : List Text) : (parseElement optstring longopts arg after).left.length ≤ arg.length := by
  have short := parseShort_left optstring longopts (arg.getD 1 0) (arg.drop 2) after
  rw [List.length_drop] at short
  cases longopts with
  | none => exact Nat.le_trans short (Nat.sub_le _ _)
  | some ps =>
    simp only [parseElement]
    split_ifs
    · rw [parseLong_left]
      exact Nat.zero_le _
    · exact Nat.le_trans short (Nat.sub_le _ _)

/-- Every option leaves less to read. -/
theorem Scan.next_size {t u : Scan} {result : Result}
    (next : t.next permute optstring longopts = some (result, u)) : u.size < t.size := by
  rw [Scan.next] at next
  split at next
  · next c text left =>
    cases next
    have shorter := parseShort_left optstring longopts c text t.rest
    have fewer := textSize_sublist
      (List.drop_sublist (parseShort optstring longopts c text t.rest).used t.rest)
    simp only [Scan.size, left, List.length_cons] at *
    omega
  · simp only at next
    split at next
    · cases next
    · next arg after rest =>
      split_ifs at next
      cases next
      have aside : textSize (t.setAside permute).rest ≤ textSize t.rest := by
        rw [Scan.setAside]
        split_ifs
        · exact textSize_sublist (List.dropWhile_sublist _)
        · exact Nat.le_refl _
      have shorter := parseElement_left optstring longopts arg after
      have fewer := textSize_sublist
        (List.drop_sublist (parseElement optstring longopts arg after).used after)
      rw [rest, textSize] at aside
      simp only [Scan.size] at *
      omega

/-! ## The calls -/

/-- The data that a call works with, which the first call initializes. -/
def prepare (optstring : Text) (posixlyCorrect env : Bool) (d : Data) : Data :=
  if d.optind = 0 ∨ d.initialized = false then (getoptInitialize optstring d posixlyCorrect env).2 else d

variable {posixlyCorrect env : Bool}

theorem getoptInternalR_spec (proper : Proper optstring longopts) (clear : d.optarg = none)
    (tracks : Tracks program permute before behind argv (prepare optstring posixlyCorrect env d) t) :
    Agrees program permute (getoptInternalR argv optstring longopts false d posixlyCorrect env)
      (t.next permute optstring longopts) (t.close permute) := by
  have some_ : ¬ argv.length < 1 := by
    rw [tracks.argv, List.length_cons]
    omega
  have optarg : (prepare optstring posixlyCorrect env d).optarg = none := by
    rw [prepare]
    split_ifs
    · simp only [getoptInitialize]
      split_ifs <;> exact clear
    · exact clear
  have prepared : (if d.optind = 0 ∨ d.initialized = false then
        getoptInitialize optstring { d with optarg := none } posixlyCorrect env
      else if optstring.head? = some dash ∨ optstring.head? = some plus then
        (optstring.drop 1, { d with optarg := none })
      else (optstring, { d with optarg := none })) =
      (optstring, prepare optstring posixlyCorrect env d) := by
    have same : { d with optarg := none } = d := by rw [← clear]
    rw [same, prepare]
    by_cases first : d.optind = 0 ∨ d.initialized = false
    · rw [if_pos first, if_pos first]
      simp only [getoptInitialize, proper.ordered.1, proper.ordered.2, ↓reduceIte]
      split_ifs <;> rfl
    · rw [if_neg first, if_neg first, if_neg (not_or_intro proper.ordered.1 proper.ordered.2)]
  simp only [getoptInternalR, if_neg some_, prepared]
  generalize prepare optstring posixlyCorrect env d = d' at tracks optarg
  cases left : t.left with
  | nil =>
    have lies : Lies program permute 0 before behind argv d' t := by
      have lies := tracks.toLies
      rw [left] at lies
      exact lies
    have next := nextElement_spec optstring longopts lies left optarg
    have read := tracks.nextchar
    rw [left] at read
    cases nextchar : d'.nextchar with
    | none => exact next
    | some text =>
      rw [nextchar] at read
      obtain rfl : text = [] := read
      exact next
  | cons c text =>
    have read := tracks.nextchar
    have lies : Lies program permute 1 before behind argv d' t := by
      have lies := tracks.toLies
      rw [left] at lies
      exact lies
    obtain ⟨passed, elem, rfl⟩ : ∃ passed elem, behind = passed ++ [elem] := by
      have current := tracks.cluster (by rw [left]; exact List.cons_ne_nil _ _)
      exact (List.eq_nil_or_concat' behind).resolve_left current
    rw [left] at read
    obtain ⟨nextchar, rest, run⟩ := shortOption_spec optstring text longopts c
      lies.drop_pending optarg
    have whole : d'.nextchar = some (c :: text) := by
      cases nextchar : d'.nextchar with
      | none =>
        rw [nextchar] at read
        cases read
      | some read' =>
        rw [nextchar] at read
        exact congrArg some read
    simp only [whole, run]
    refine .inr ⟨_, _, before, _, by rw [Scan.next, left], ?_,
      lies.emit (by simp) (parseShort_used ..) rest⟩
    simp only [Data.answer, lies.optopt]
    rfl

/-- A state between two calls: the next one works as it does from data that follow the scan. -/
def Follows (program : Text) (permute : Bool) (optstring : Text) (longopts : Option (List LongOption))
    (posixlyCorrect env : Bool) (s : State) (t : Scan) : Prop :=
  ∃ before behind d, d.optarg = none ∧
    Tracks program permute before behind s.argv (prepare optstring posixlyCorrect env d) t ∧
    getoptInternalR s.argv optstring longopts false { s.getoptData with optind := s.optind }
      posixlyCorrect env = getoptInternalR s.argv optstring longopts false d posixlyCorrect env

/-- The state after the call that ends the options. -/
structure Ended (program : Text) (s : State) (t : Scan) : Prop where
  argv : s.argv = program :: (t.options ++ t.operands)
  optind : s.optind = 1 + t.options.length
  optarg : s.optarg = none
  optopt : s.optopt = t.optopt

/-- No call reads the argument of the option before. -/
theorem getoptInternalR_optarg (argv : List Text) (optstring : Text)
    (longopts : Option (List LongOption)) (d : Data) (posixlyCorrect env : Bool) (some_ : argv ≠ []) :
    getoptInternalR argv optstring longopts false d posixlyCorrect env =
      getoptInternalR argv optstring longopts false { d with optarg := none } posixlyCorrect env := by
  have length : ¬ argv.length < 1 := by
    have positive := List.length_pos_iff.mpr some_
    omega
  simp only [getoptInternalR, if_neg length]

/-- Data that follow the scan are not initialized again. -/
theorem Tracks.prepare (tracks : Tracks program permute before behind argv d t) (optarg : Option Text) :
    prepare optstring posixlyCorrect env { d with optarg := optarg } = { d with optarg := optarg } := by
  refine if_neg (not_or_intro ?_ (by simp [tracks.initialized]))
  have optind := tracks.optind
  dsimp only
  by_cases pending : t.left = []
  · rw [pendingOf, if_pos pending] at optind
    omega
  · have current := List.length_pos_iff.mpr (tracks.cluster pending)
    rw [pendingOf, if_neg pending] at optind
    omega

/-- Each call follows the scan. -/
theorem getoptInternal_spec {s : State} (proper : Proper optstring longopts)
    (follows : Follows program permute optstring longopts posixlyCorrect env s t) :
    let answer := getoptInternal optstring longopts false posixlyCorrect env s
    (t.next permute optstring longopts = none ∧ answer.1.ret = -1 ∧
      Ended program answer.2 (t.close permute)) ∨
    ∃ u, t.next permute optstring longopts = some (answer.1, u) ∧
      Follows program permute optstring longopts posixlyCorrect env answer.2 u := by
  obtain ⟨before, behind, d, clear, tracks, same⟩ := follows
  have agrees := getoptInternalR_spec proper clear tracks
  rw [← same] at agrees
  simp only [getoptInternal]
  rcases agrees with ⟨last, ret, closed⟩ | ⟨result, u, before', behind', next, rfl, tracks'⟩
  · exact .inl ⟨last, ret, closed.argv, closed.optind, closed.optarg, closed.optopt⟩
  · have nonempty := List.ne_nil_of_mem (tracks'.argv ▸ List.mem_cons_self ..)
    refine .inr ⟨u, next, before', behind', _, rfl, ?_, getoptInternalR_optarg _ _ _ _ _ _ nonempty⟩
    dsimp only
    rw [tracks'.prepare]
    exact { tracks' with }

/-- The calls end as the scan ends, with the same results. -/
theorem calls_spec {s : State} (proper : Proper optstring longopts)
    (follows : Follows program permute optstring longopts posixlyCorrect env s t) :
    ∃ results s' t', Exhausts (nextOption (getoptInternal optstring longopts false posixlyCorrect env))
        s results s' ∧
      Exhausts (Scan.next permute optstring longopts) t results t' ∧
      (getoptInternal optstring longopts false posixlyCorrect env s').1.ret = -1 ∧
      Ended program (getoptInternal optstring longopts false posixlyCorrect env s').2
        (t'.close permute) := by
  have together : ∀ s t, Follows program permute optstring longopts posixlyCorrect env s t →
      (nextOption (getoptInternal optstring longopts false posixlyCorrect env) s = none ∧
        t.next permute optstring longopts = none) ∨
      ∃ result s' u, nextOption (getoptInternal optstring longopts false posixlyCorrect env) s =
          some (result, s') ∧ t.next permute optstring longopts = some (result, u) ∧
        Follows program permute optstring longopts posixlyCorrect env s' u ∧ u.size < t.size := by
    intro s t follows
    rcases getoptInternal_spec proper follows with ⟨last, ret, _⟩ | ⟨u, next, follows'⟩
    · exact .inl ⟨if_pos ret, last⟩
    · exact .inr ⟨_, _, u, if_neg (Scan.next_ret proper next), next, follows', Scan.next_size next⟩
  obtain ⟨results, s', t', calls, scans, follows'⟩ := Exhausts.lockstep _ _ together follows
  refine ⟨results, s', t', calls, scans, ?_⟩
  rcases getoptInternal_spec proper follows' with ⟨_, ret, ended⟩ | ⟨u, next, _⟩
  · exact ⟨ret, ended⟩
  · rw [scans.last] at next
    cases next

/-! ## What the scan covers -/

def Scan.start (args : List Text) (optopt : ℤ) : Scan := ⟨[], [], args, [], optopt⟩

/-- The options, the operands and the rest are the arguments, and each of the two is in its order. -/
structure Scan.Covers (args : List Text) (t : Scan) : Prop where
  perm : (t.options ++ t.operands ++ t.rest).Perm args
  options : (t.options ++ t.rest).Sublist args
  operands : (t.operands ++ t.rest).Sublist args

namespace Scan.Covers

variable {args : List Text}

theorem start (args : List Text) (optopt : ℤ) : (Scan.start args optopt).Covers args :=
  ⟨.refl _, .refl _, .refl _⟩

theorem setAside (permute : Bool) (covers : t.Covers args) : (t.setAside permute).Covers args := by
  cases permute with
  | false => exact covers
  | true =>
    have split : t.rest.takeWhile nonoption ++ t.rest.dropWhile nonoption = t.rest :=
      List.takeWhile_append_dropWhile
    refine ⟨?_, ?_, ?_⟩
    · have perm := covers.perm
      rw [← split] at perm
      simpa only [Scan.setAside, ↓reduceIte, List.append_assoc] using perm
    · exact (List.Sublist.append_left (List.dropWhile_sublist _) _).trans covers.options
    · have operands := covers.operands
      rw [← split] at operands
      simpa only [Scan.setAside, ↓reduceIte, List.append_assoc] using operands

/-- Elements that are no operands go to the options. -/
theorem take (covers : t.Covers args) (taken : List Text) {rest : List Text} (split : t.rest = taken ++ rest)
    (left : Text) (optopt : ℤ) :
    (⟨t.options ++ taken, t.operands, rest, left, optopt⟩ : Scan).Covers args := by
  have perm := covers.perm
  have options := covers.options
  have operands := covers.operands
  rw [split] at perm options operands
  refine ⟨.trans ?_ perm, ?_, ?_⟩
  · simp only [List.append_assoc]
    apply List.Perm.append_left _
    rw [← List.append_assoc, ← List.append_assoc]
    exact List.perm_append_comm.append_right _
  · rwa [List.append_assoc]
  · exact (List.Sublist.append_left (List.sublist_append_right taken rest) _).trans operands

theorem emit (covers : t.Covers args) (p : Parsed) : (t.emit p).2.Covers args :=
  covers.take _ (List.take_append_drop p.used t.rest).symm _ _

theorem next (covers : t.Covers args) {u : Scan} {result : Result}
    (next : t.next permute optstring longopts = some (result, u)) : u.Covers args := by
  rw [Scan.next] at next
  split at next
  · cases next
    exact covers.emit _
  · simp only at next
    split at next
    · cases next
    · next arg after rest =>
      split_ifs at next
      cases next
      exact ((covers.setAside permute).take [arg] rest _ _).emit _

/-- All that is left goes to the operands. -/
theorem finish (covers : t.Covers args) (left : Text) (optopt : ℤ) :
    (⟨t.options, t.operands ++ t.rest, [], left, optopt⟩ : Scan).Covers args := by
  refine ⟨?_, ?_, ?_⟩
  · simpa only [List.append_nil, List.append_assoc] using covers.perm
  · rw [List.append_nil]
    exact (List.sublist_append_left _ _).trans covers.options
  · rw [List.append_nil]
    exact covers.operands

theorem close (permute : Bool) (covers : t.Covers args) : (t.close permute).Covers args := by
  have aside := covers.setAside permute
  simp only [Scan.close]
  generalize t.setAside permute = u at aside
  cases rest : u.rest with
  | nil => exact aside
  | cons arg after =>
    simp only
    split_ifs
    · exact (aside.take [arg] rest u.left u.optopt).finish u.left u.optopt
    · rw [← rest]
      exact aside.finish u.left u.optopt

end Scan.Covers

/-- A scan that sets nothing aside keeps the order. -/
def Scan.InOrder (args : List Text) (t : Scan) : Prop :=
  t.operands = [] ∧ t.options ++ t.rest = args

theorem Scan.InOrder.next {args : List Text} {u : Scan} {result : Result} (inOrder : t.InOrder args)
    (next : t.next false optstring longopts = some (result, u)) : u.InOrder args := by
  obtain ⟨none, order⟩ := inOrder
  rw [Scan.next] at next
  split at next
  · cases next
    refine ⟨none, ?_⟩
    simp only [List.append_assoc, List.take_append_drop, order]
  · simp only at next
    split at next
    · cases next
    · next arg after rest =>
      split_ifs at next
      cases next
      refine ⟨none, ?_⟩
      rw [show t.rest = arg :: after from rest] at order
      rw [← List.take_append_drop (parseElement optstring longopts arg after).used after] at order
      simpa only [Scan.setAside, Bool.false_eq_true, ↓reduceIte, Scan.emit, List.append_assoc,
        List.cons_append, List.nil_append] using order

theorem Scan.InOrder.close {args : List Text} (inOrder : t.InOrder args) :
    (t.close false).options ++ (t.close false).operands = args := by
  obtain ⟨none, order⟩ := inOrder
  have same : t.setAside false = t := if_neg Bool.false_ne_true
  simp only [Scan.close, same]
  cases rest : t.rest with
  | nil =>
    rw [rest, List.append_nil] at order
    simp only [none, List.append_nil, order]
  | cons arg after =>
    rw [rest] at order
    simp only
    split_ifs
    · simpa only [none, List.nil_append, List.append_assoc, List.singleton_append] using order
    · simpa only [none, List.nil_append] using order

/-! ## The whole scan -/

/-- A scan may start in a fresh state, or after `optind` is set to 0, or to 1 where a scan in the same
order came to its end. -/
structure Starts (permute : Bool) (program : Text) (args : List Text) (s : State) : Prop where
  argv : s.argv = program :: args
  optind : s.optind = 0 ∨ s.optind = 1 ∧ (s.getoptData.initialized = false ∨
    s.getoptData.nextchar.getD [] = [] ∧ 1 ≤ s.getoptData.firstNonopt ∧ 1 ≤ s.getoptData.lastNonopt ∧
      s.getoptData.ordering = if permute then .permute else .requireOrder)

/-- The calls until -1 have the results of the scan, and leave the vector and `optind` as it says: the
options with their arguments, then the operands, each in the order they had. -/
def AnswersAs (permute : Bool) (optstring : Text) (longopts : Option (List LongOption))
    (call : State → Result × State) (program : Text) (args : List Text) (s : State) : Prop :=
  ∃ results s' t, Exhausts (nextOption call) s results s' ∧
    Exhausts (Scan.next permute optstring longopts) (Scan.start args s.getoptData.optopt) results t ∧
    (call s').1.ret = -1 ∧ Ended program (call s').2 (t.close permute) ∧
    ((t.close permute).options ++ (t.close permute).operands).Perm args ∧
    (t.close permute).options.Sublist args ∧ (t.close permute).operands.Sublist args ∧
    (permute = false → (call s').2.argv = program :: args)

theorem Scan.close_rest (permute : Bool) (t : Scan) : (t.close permute).rest = [] := by
  simp only [Scan.close]
  cases rest : (t.setAside permute).rest with
  | nil => exact rest
  | cons arg after =>
    simp only
    split_ifs <;> rfl

/-- At the first element, operands of an earlier scan are forgotten. -/
theorem getoptInternalR_again (optstring : Text) (longopts : Option (List LongOption))
    (posixlyCorrect env : Bool) (some_ : argv ≠ []) (optind : d.optind = 1)
    (nextchar : d.nextchar.getD [] = []) (initialized : d.initialized = true)
    (first : 1 ≤ d.firstNonopt) (last : 1 ≤ d.lastNonopt) :
    getoptInternalR argv optstring longopts false d posixlyCorrect env =
      getoptInternalR argv optstring longopts false { d with firstNonopt := 1, lastNonopt := 1 }
        posixlyCorrect env := by
  have length : ¬ argv.length < 1 := by
    have positive := List.length_pos_iff.mpr some_
    omega
  have clamped : ∀ n, 1 ≤ n → (if 1 < n then 1 else n) = 1 := fun n positive => by
    split_ifs <;> omega
  obtain ⟨_, optopt, optarg, _, chars, ordering, firstNonopt, lastNonopt⟩ := d
  obtain rfl : _ = 1 := optind
  obtain rfl : _ = true := initialized
  have here : ∀ optstring, nextElement argv optstring longopts false
      ⟨1, optopt, none, true, chars, ordering, firstNonopt, lastNonopt⟩ =
      nextElement argv optstring longopts false ⟨1, optopt, none, true, chars, ordering, 1, 1⟩ := by
    intro optstring
    simp only [nextElement, clamped _ first, clamped _ last, Nat.lt_irrefl, ↓reduceIte]
  simp only [getoptInternalR, if_neg length, Nat.one_ne_zero, Bool.true_eq_false, or_self, ↓reduceIte]
  match chars, nextchar with
  | none, _ => split_ifs <;> exact here _
  | some [], _ => split_ifs <;> exact here _

variable {args : List Text} {s : State}

theorem Starts.follows (starts : Starts permute program args s)
    (order : permute = !(posixlyCorrect || env)) (proper : Proper optstring longopts) :
    Follows program permute optstring longopts posixlyCorrect env s
      (Scan.start args s.getoptData.optopt) := by
  have nonempty : s.argv ≠ [] := by
    rw [starts.argv]
    exact List.cons_ne_nil _ _
  have begins : ∀ d : Data, d.optind = 1 → d.firstNonopt = 1 → d.lastNonopt = 1 →
      d.ordering = (if permute then .permute else .requireOrder) → d.initialized = true →
      d.optopt = s.getoptData.optopt → d.nextchar.getD [] = [] →
      Tracks program permute [] [] s.argv d (Scan.start args s.getoptData.optopt) := fun d optind
      first last ordering initialized optopt nextchar =>
    ⟨⟨starts.argv, rfl, optind, first, last, ordering, initialized, optopt, fun _ => rfl⟩, nextchar,
      fun left => absurd rfl left⟩
  by_cases fresh : s.optind = 0 ∨ s.getoptData.initialized = false
  · refine ⟨[], [], { s.getoptData with optind := s.optind, optarg := none }, rfl, ?_,
      getoptInternalR_optarg _ _ _ _ _ _ nonempty⟩
    have index : (if s.optind = 0 then 1 else s.optind) = 1 := by
      rcases starts.optind with zero | ⟨one, _⟩
      · rw [if_pos zero]
      · rw [one]
        rfl
    have prepared : prepare optstring posixlyCorrect env
        { s.getoptData with optind := s.optind, optarg := none } =
        { s.getoptData with
          optind := 1, optarg := none, initialized := true, nextchar := none, firstNonopt := 1,
          lastNonopt := 1, ordering := if permute then .permute else .requireOrder } := by
      rw [prepare, if_pos fresh, order]
      simp only [getoptInitialize, index, proper.ordered.1, proper.ordered.2, ↓reduceIte]
      cases posixlyCorrect || env <;> rfl
    rw [prepared]
    exact begins _ rfl rfl rfl rfl rfl rfl rfl
  · obtain ⟨started, initialized⟩ := not_or.mp fresh
    obtain ⟨optind, state⟩ := starts.optind.resolve_left started
    obtain ⟨nextchar, first, last, ordering⟩ := state.resolve_left initialized
    have again := getoptInternalR_again (d := { s.getoptData with optind := s.optind }) optstring longopts
      posixlyCorrect env nonempty optind nextchar (eq_true_of_ne_false initialized) first last
    refine ⟨[], [], _, rfl, ?_, again.trans (getoptInternalR_optarg _ _ _ _ _ _ nonempty)⟩
    rw [prepare, if_neg fresh]
    exact begins _ optind rfl rfl ordering (eq_true_of_ne_false initialized) rfl nextchar

theorem Starts.answers (starts : Starts permute program args s)
    (order : permute = !(posixlyCorrect || env)) (proper : Proper optstring longopts) :
    AnswersAs permute optstring longopts (getoptInternal optstring longopts false posixlyCorrect env)
      program args s := by
  obtain ⟨results, s', t, calls, scans, ret, ended⟩ := calls_spec proper (starts.follows order proper)
  have covers := (scans.invariant (Scan.Covers args) (fun covers next => covers.next next)
    (Scan.Covers.start args _)).close permute
  have perm := covers.perm
  have options := covers.options
  have operands := covers.operands
  rw [Scan.close_rest, List.append_nil] at perm options operands
  refine ⟨results, s', t, calls, scans, ret, ended, perm, options, operands, ?_⟩
  rintro rfl
  have inOrder := scans.invariant (Scan.InOrder args) (fun inOrder next => inOrder.next next) ⟨rfl, rfl⟩
  rw [ended.argv, inOrder.close]

def freshState (argv : List Text) : State :=
  ⟨argv, 1, none, 63, ⟨0, 0, none, false, none, .requireOrder, 0, 0⟩⟩

def prog : Text := [112, 114, 111, 103]

/-- `a -x --all b`, with the options `x` and `--all`. -/
def mixedArgs : List Text := [[97], [45, 120], [45, 45, 97, 108, 108], [98]]

def mixedOptions : List LongOption := [⟨[97, 108, 108], 0, none, 97⟩]

private theorem mixed_proper : Proper [120] (some mixedOptions) := by
  refine ⟨?_, by decide, ?_⟩
  · intro c member
    obtain rfl := List.mem_singleton.mp member
    decide
  · rintro _ ⟨⟩ p member _
    obtain rfl := List.mem_singleton.mp member
    decide

private theorem starts_fresh (permute : Bool) (program : Text) (args : List Text) :
    Starts permute program args (freshState (program :: args)) := ⟨rfl, .inr ⟨rfl, .inl rfl⟩⟩

end Yalibct.Getopt
