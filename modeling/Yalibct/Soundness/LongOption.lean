import Mathlib.Data.List.Basic
import Mathlib.Tactic.SplitIfs
import Yalibct.Model.LongOption
import Yalibct.Soundness.Getopt

/-! # Which long option a name selects

An exact match is selected, or else an abbreviation that is not ambiguous. Neither printing nor the
memory for it changes what is selected and answered.
-/

namespace Yalibct.Getopt

/-- Nothing tells the two options apart but their names. -/
def LongOption.Agrees (p q : LongOption) : Prop := p.hasArg = q.hasArg ∧ p.flag = q.flag ∧ p.val = q.val

instance (p q : LongOption) : Decidable (p.Agrees q) := inferInstanceAs (Decidable (_ ∧ _))

/-- The name is that of the option, or a prefix of it. -/
def abbreviates (name : Text) (p : LongOption) : Bool := name.isPrefixOf p.name

/-- The option that a name selects, with its index: the first with this name; or, if there is none, the
first of which the name is a prefix, if all others of these agree with it, or are none for `long_only`. -/
def Selects (longOnly : Bool) (name : Text) (longopts : List LongOption) (index : ℕ) (p : LongOption) : Prop :=
  (longopts.find? (fun q => q.name = name) = some p ∧
    index = longopts.findIdx fun q => q.name = name) ∨
  ((∀ q ∈ longopts, q.name ≠ name) ∧ ∃ others,
    longopts.filter (abbreviates name) = p :: others ∧
    index = longopts.findIdx (abbreviates name) ∧
    if longOnly then others = [] else ∀ q ∈ others, p.Agrees q)

variable {longOnly ambiguous : Bool} {name : Text} {longopts : List LongOption} {p : LongOption}

private theorem exact_iff {p : LongOption} :
    (p.name.take name.length = name ∧ name.length = p.name.length) ↔ p.name = name := by
  constructor
  · rintro ⟨taken, length⟩
    rwa [List.take_of_length_le (Nat.le_of_eq length.symm)] at taken
  · rintro rfl
    exact ⟨List.take_length, rfl⟩

private theorem abbreviates_iff {p : LongOption} :
    p.name.take name.length = name ↔ abbreviates name p = true := by
  rw [abbreviates, List.isPrefixOf_iff_prefix, List.prefix_iff_eq_take, eq_comm]

private theorem exactMatch_eq (name : Text) (longopts : List LongOption) (i : ℕ) :
    exactMatch name longopts i = (longopts.find? fun q => q.name = name).map fun p =>
      (i + longopts.findIdx fun q => q.name = name, p) := by
  induction longopts generalizing i with
  | nil => rfl
  | cons q rest ih =>
    rw [exactMatch, List.find?_cons, List.findIdx_cons]
    by_cases same : q.name = name
    · rw [if_pos (exact_iff.mpr same)]
      simp [same]
    · rw [if_neg (fun found => same (exact_iff.mp found)), ih]
      simp only [same, decide_false, cond_false]
      congr 1
      funext p
      rw [Nat.add_right_comm, Nat.add_assoc]

/-- After the first match, a different one makes the name ambiguous. -/
theorem abbreviations_some (rest : List LongOption) (i k : ℕ) (first : LongOption) :
    abbreviations longOnly name rest i (some (k, first)) ambiguous =
      (some (k, first), ambiguous || (rest.filter (abbreviates name)).any fun q =>
        longOnly || !decide (first.Agrees q)) := by
  induction rest generalizing i ambiguous with
  | nil => simp [abbreviations]
  | cons q rest ih =>
    simp only [abbreviations, abbreviates_iff]
    by_cases found : abbreviates name q = true
    · have differs : decide (first.hasArg ≠ q.hasArg ∨ first.flag ≠ q.flag ∨ first.val ≠ q.val) =
          !decide (first.Agrees q) := by
        rw [← decide_not]
        exact decide_eq_decide.mpr (by simp only [LongOption.Agrees, not_and_or, ne_eq])
      rw [if_pos found, ih, List.filter_cons_of_pos found, List.any_cons, differs]
      simp only [Bool.or_assoc]
    · rw [if_neg found, ih, List.filter_cons_of_neg found]

/-- The first match, and whether a later one makes the name ambiguous. -/
theorem abbreviations_eq (name : Text) (longopts : List LongOption) (i : ℕ) :
    abbreviations longOnly name longopts i none ambiguous =
      match longopts.filter (abbreviates name) with
      | [] => (none, ambiguous)
      | p :: others => (some (i + longopts.findIdx (abbreviates name), p),
          ambiguous || others.any fun q => longOnly || !decide (p.Agrees q)) := by
  induction longopts generalizing i with
  | nil => rfl
  | cons q rest ih =>
    simp only [abbreviations, abbreviates_iff]
    by_cases found : abbreviates name q = true
    · rw [if_pos found, abbreviations_some, List.filter_cons_of_pos found, List.findIdx_cons, found]
      rfl
    · rw [if_neg found, ih, List.filter_cons_of_neg found, List.findIdx_cons]
      simp only [Bool.not_eq_true] at found
      rw [found]
      simp only [cond_false]
      cases rest.filter (abbreviates name) with
      | nil => rfl
      | cons p others => rw [Nat.add_right_comm, Nat.add_assoc]

/-! ## The set of ambiguous options -/

/-- Whether the name is taken for ambiguous. -/
def Ambiguity.any (a : Ambiguity) : Bool := a.set.isSome || a.fallback

theorem Ambiguity.track_any (printErrors granted : Bool) (nOptions indfound optionIndex : ℕ)
    (a : Ambiguity) : (a.track printErrors granted nOptions indfound optionIndex).any = true := by
  obtain ⟨set, malloced, fallback⟩ := a
  cases fallback <;> cases printErrors <;> cases granted <;> cases set <;> rfl

private theorem abbreviationLoop_eq (longOnly printErrors granted : Bool) (name : Text) (nOptions : ℕ)
    (rest : List LongOption) (i : ℕ)
    (pfound : Option (ℕ × LongOption)) (a : Ambiguity) :
    ((abbreviationLoop longOnly printErrors granted nOptions name rest i pfound a).1,
      (abbreviationLoop longOnly printErrors granted nOptions name rest i pfound a).2.any) =
    abbreviations longOnly name rest i pfound a.any := by
  induction rest generalizing i pfound a with
  | nil => rfl
  | cons q rest ih =>
    simp only [abbreviationLoop, abbreviations]
    by_cases found : q.name.take name.length = name
    · rw [if_pos found, if_pos found]
      cases pfound with
      | none => exact ih _ _ _
      | some first =>
        obtain ⟨k, first⟩ := first
        simp only
        by_cases differs : longOnly = true ∨ first.hasArg ≠ q.hasArg ∨ first.flag ≠ q.flag ∨
            first.val ≠ q.val
        · rw [if_pos differs, ih, Ambiguity.track_any]
          rcases differs with long | differs
          · rw [long, Bool.or_true, Bool.true_or]
          · rw [decide_eq_true differs, Bool.or_true]
        · rw [if_neg differs, ih]
          obtain ⟨short, agree⟩ := not_or.mp differs
          rw [Bool.not_eq_true] at short
          rw [short, decide_eq_false agree, Bool.or_false, Bool.or_false]
    · rw [if_neg found, if_neg found]
      exact ih _ _ _

private theorem exactMatch_eq_none :
    exactMatch name longopts 0 = none ↔ ∀ q ∈ longopts, q.name ≠ name := by
  rw [exactMatch_eq, Option.map_eq_none_iff, List.find?_eq_none]
  simp only [decide_eq_true_eq, ne_eq]

/-- What the loops find if no name matches exactly. -/
theorem searchLongOption_abbreviation (longOnly printErrors granted : Bool)
    (inexact : exactMatch name longopts 0 = none) :
    match longopts.filter (abbreviates name) with
    | [] => searchLongOption longOnly printErrors granted name longopts = .nothing
    | p :: others =>
      if others.any fun q => longOnly || !decide (p.Agrees q) then
        ∃ a, searchLongOption longOnly printErrors granted name longopts = .ambiguous a
      else
        searchLongOption longOnly printErrors granted name longopts =
          .option (longopts.findIdx (abbreviates name)) p := by
  have loop := abbreviationLoop_eq longOnly printErrors granted name
    longopts.length longopts 0 none ⟨none, false, false⟩
  have none_yet : Ambiguity.any ⟨none, false, false⟩ = false := rfl
  rw [none_yet, abbreviations_eq] at loop
  simp only [searchLongOption, inexact]
  generalize abbreviationLoop longOnly printErrors granted longopts.length name longopts 0 none
    ⟨none, false, false⟩ = result at loop ⊢
  obtain ⟨pfound, a⟩ := result
  have taken : (a.set.isSome = true ∨ a.fallback = true) ↔ a.any = true := by
    rw [Ambiguity.any, Bool.or_eq_true]
  simp only [taken]
  cases found : longopts.filter (abbreviates name) with
  | nil =>
    rw [found] at loop
    obtain ⟨rfl, any⟩ := Prod.mk.inj loop
    rw [any]
    rfl
  | cons p others =>
    rw [found] at loop
    obtain ⟨rfl, any⟩ := Prod.mk.inj loop
    rw [any, Bool.false_or, Nat.zero_add]
    simp only
    split_ifs with differs
    · exact ⟨a, rfl⟩
    · rfl

/-- Of the names that are abbreviated, none is different. -/
theorem any_differs_iff (longOnly : Bool) (p : LongOption) (others : List LongOption) :
    (others.any fun q => longOnly || !decide (p.Agrees q)) = false ↔
      if longOnly then others = [] else ∀ q ∈ others, p.Agrees q := by
  cases longOnly with
  | true =>
    cases others with
    | nil => simp
    | cons q others => simp
  | false => simp

/-- The loops find the option that the name selects. -/
theorem searchLongOption_iff (printErrors granted : Bool) {index : ℕ} :
    searchLongOption longOnly printErrors granted name longopts = .option index p ↔
      Selects longOnly name longopts index p := by
  cases exact_ : exactMatch name longopts 0 with
  | some found =>
    have search : searchLongOption longOnly printErrors granted name longopts =
        .option found.1 found.2 := by
      rw [searchLongOption, exact_]
    have matched := exactMatch_eq name longopts 0
    rw [exact_, eq_comm, Option.map_eq_some_iff] at matched
    obtain ⟨q, first, rfl⟩ := matched
    rw [search]
    dsimp only
    rw [Nat.zero_add]
    constructor
    · rintro ⟨⟩
      exact .inl ⟨first, rfl⟩
    · rintro (⟨first', rfl⟩ | ⟨inexact, _⟩)
      · rw [first] at first'
        cases first'
        rfl
      · have named : q.name = name := by simpa using List.find?_some first
        exact absurd named (inexact q (List.mem_of_find?_eq_some first))
  | none =>
    have inexact := exactMatch_eq_none.mp exact_
    have search := searchLongOption_abbreviation longOnly printErrors granted exact_
    have first : longopts.find? (fun q => q.name = name) ≠ some p := by
      intro first
      have named : p.name = name := by simpa using List.find?_some first
      exact inexact p (List.mem_of_find?_eq_some first) named
    simp only [Selects, first, false_and, false_or]
    cases found : longopts.filter (abbreviates name) with
    | nil =>
      rw [found] at search
      simp only at search
      rw [search]
      simp
    | cons q others =>
      rw [found] at search
      simp only at search
      cases differs : others.any fun r => longOnly || !decide (q.Agrees r) with
      | true =>
        rw [differs, if_pos rfl] at search
        obtain ⟨a, search⟩ := search
        rw [search]
        constructor
        · rintro ⟨⟩
        · rintro ⟨_, _, listed, _, agree⟩
          cases listed
          rw [(any_differs_iff longOnly _ others).mpr agree] at differs
          cases differs
      | false =>
        rw [differs, if_neg Bool.false_ne_true] at search
        rw [search]
        constructor
        · rintro ⟨⟩
          exact ⟨inexact, others, rfl, rfl, (any_differs_iff longOnly _ others).mp differs⟩
        · rintro ⟨_, _, listed, rfl, _⟩
          cases listed
          rfl

/-- What is found does not depend on what is printed, but for the set of ambiguous options. -/
theorem searchLongOption_same (longOnly printErrors granted printErrors' granted' : Bool) (name : Text)
    (longopts : List LongOption) :
    searchLongOption longOnly printErrors granted name longopts =
      searchLongOption longOnly printErrors' granted' name longopts ∨
    ∃ a a', searchLongOption longOnly printErrors granted name longopts = .ambiguous a ∧
      searchLongOption longOnly printErrors' granted' name longopts = .ambiguous a' := by
  cases exact_ : exactMatch name longopts 0 with
  | some found => exact .inl (by rw [searchLongOption, searchLongOption, exact_])
  | none =>
    have search := searchLongOption_abbreviation longOnly printErrors granted exact_
    have search' := searchLongOption_abbreviation longOnly printErrors' granted' exact_
    cases found : longopts.filter (abbreviates name) with
    | nil =>
      rw [found] at search search'
      exact .inl (search.trans search'.symm)
    | cons q others =>
      rw [found] at search search'
      simp only at search search'
      split_ifs at search search'
      · obtain ⟨a, search⟩ := search
        obtain ⟨a', search'⟩ := search'
        exact .inr ⟨a, a', search, search'⟩
      · exact .inl (search.trans search'.symm)

/-! ## The whole function -/

/-- All that is not printed. -/
def LongAnswer.observable (answer : LongAnswer) : ℤ × Option ℕ × Option (ℕ × ℤ) × Data :=
  (answer.ret, answer.longind, answer.flag, answer.data)

variable {argv : List Text} {optstring : Text} {d : Data}

private theorem foundOption_observable (argv : List Text) (optstring nameend : Text) (printErrors printErrors' : Bool)
    (index : ℕ) (p : LongOption) (d : Data) :
    (foundOption argv optstring printErrors nameend index p d).observable =
      (foundOption argv optstring printErrors' nameend index p d).observable := by
  simp only [foundOption]
  split_ifs <;> rfl

private theorem unknownOption_observable (argv : List Text) (optstring nextchar : Text)
    (longOnly printErrors printErrors' : Bool) (d : Data) :
    (unknownOption argv optstring longOnly printErrors nextchar d).observable =
      (unknownOption argv optstring longOnly printErrors' nextchar d).observable := by
  simp only [unknownOption]
  split_ifs <;> rfl

private theorem processLongOptionPrinting_observable (printErrors granted printErrors' granted' : Bool)
    (argv : List Text) (optstring : Text) (longopts : List LongOption) (longOnly : Bool) (d : Data) :
    (processLongOptionPrinting printErrors granted argv optstring longopts longOnly d).observable =
      (processLongOptionPrinting printErrors' granted' argv optstring longopts longOnly d).observable := by
  simp only [processLongOptionPrinting]
  rcases searchLongOption_same longOnly printErrors granted printErrors' granted'
    ((d.nextchar.getD []).takeWhile fun c => c ≠ equalsSign) longopts with same | ⟨a, a', search, search'⟩
  · rw [same]
    split
    · rfl
    · exact unknownOption_observable ..
    · exact foundOption_observable ..
  · rw [search, search']
    rfl

private theorem foundOption_ret (argv : List Text) (optstring nameend : Text) (printErrors : Bool) (index : ℕ)
    (p : LongOption) (d : Data) :
    (foundOption argv optstring printErrors nameend index p d).ret = p.answer ∨
      (foundOption argv optstring printErrors nameend index p d).ret = questionMark ∨
      (foundOption argv optstring printErrors nameend index p d).ret = missing optstring := by
  simp only [foundOption]
  split_ifs
  · exact .inl rfl
  · exact .inr (.inl rfl)
  · exact .inr (.inl rfl)
  · exact .inl rfl
  · exact .inr (.inr rfl)
  · exact .inr (.inr rfl)
  · exact .inl rfl

/-- Only for `long_only` it is left to the short options, and then nothing has changed. -/
theorem processLongOptionPrinting_unchanged (values : ∀ p ∈ longopts, p.flag = none → p.val ≠ -1)
    (printErrors granted : Bool)
    (none_ : (processLongOptionPrinting printErrors granted argv optstring longopts longOnly d).ret = -1) :
    longOnly = true ∧
      processLongOptionPrinting printErrors granted argv optstring longopts longOnly d =
        ⟨-1, none, none, d, [], false⟩ := by
  simp only [processLongOptionPrinting] at none_ ⊢
  split at none_
  · cases none_
  · simp only [unknownOption] at none_ ⊢
    by_cases known : longOnly = false ∨ (argv.getD d.optind [])[1]? = some dash ∨
        ∃ c ∈ (d.nextchar.getD []).head?, c ∉ optstring
    · rw [if_pos known] at none_
      cases none_
    · rw [if_neg known]
      exact ⟨by simpa using (not_or.mp known).1, rfl⟩
  · next index p search =>
    -- The value of a listed option is not -1.
    have listed : p ∈ longopts := by
      rcases (searchLongOption_iff _ _).mp search with ⟨first, _⟩ | ⟨_, others, found, _⟩
      · exact List.mem_of_find?_eq_some first
      · exact List.mem_of_mem_filter (found ▸ List.mem_cons_self ..)
    have answer : p.answer ≠ -1 := by
      rw [LongOption.answer]
      split_ifs with flagged
      · decide
      · exact values p listed (by simpa using flagged)
    rcases foundOption_ret argv optstring _ printErrors index p d with ret | ret | ret <;> rw [ret] at none_
    · exact absurd none_ answer
    · cases none_
    · exact absurd none_ (missing_ne optstring)

/-- Without what is printed, this is the function that the scan of the arguments calls. -/
theorem processLongOptionPrinting_eq (printErrors granted : Bool) (argv : List Text) (optstring : Text)
    (longopts : List LongOption) (longOnly : Bool) (d : Data) :
    let answer := processLongOptionPrinting printErrors granted argv optstring longopts longOnly d
    (answer.ret, answer.longind, answer.data) = processLongOption argv optstring longopts longOnly d := by
  have consumes : ∀ nameend index p,
      let answer := foundOption argv optstring printErrors nameend index p d
      (answer.ret, answer.longind, answer.data) =
        consumeLongOption argv optstring nameend index p d := by
    intro nameend index p
    simp only [foundOption, consumeLongOption]
    split_ifs <;> rfl
  simp only [processLongOptionPrinting, processLongOption]
  generalize (d.nextchar.getD []).takeWhile (fun c => c ≠ equalsSign) = name
  cases exact_ : exactMatch name longopts 0 with
  | some found =>
    rw [searchLongOption, exact_]
    exact consumes _ _ _
  | none =>
    have search := searchLongOption_abbreviation longOnly printErrors granted exact_
    rw [abbreviations_eq]
    cases found : longopts.filter (abbreviates name) with
    | nil =>
      rw [found] at search
      simp only at search
      rw [search]
      simp only [unknownOption]
      split_ifs <;> rfl
    | cons p others =>
      rw [found] at search
      simp only [Bool.false_or, Nat.zero_add] at search ⊢
      cases differs : others.any fun q => longOnly || !decide (p.Agrees q) with
      | true =>
        rw [differs, if_pos rfl] at search
        obtain ⟨a, search⟩ := search
        rw [search]
        rfl
      | false =>
        rw [differs, if_neg Bool.false_ne_true] at search
        rw [search]
        exact consumes _ _ _

end Yalibct.Getopt
