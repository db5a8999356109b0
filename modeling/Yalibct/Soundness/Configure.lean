import Mathlib.Data.List.Induction
import Mathlib.Tactic.SplitIfs
import Yalibct.Model.CMakeLists

/-! # What the cache remembers between configure runs

A run defines variables and appends definitions, and takes nothing back. So the next run takes what a
check has found for what the user supplied, and its definitions are those of all runs so far.
-/

namespace Yalibct.Configure

variable {constants : Constants} {host : Host} {cache : Cache} {names : List String}

/-! ## Reading the cache -/

@[simp] theorem vars_setOnCommandLine (name value : String) :
    (cache.setOnCommandLine name value).vars = cache.vars := rfl

@[simp] theorem vars_set (name value : String) : (cache.set name value).vars name = some value :=
  Function.update_self ..

private theorem vars_set_of_ne {name other : String} (different : other ≠ name) (value : String) :
    (cache.set name value).vars other = cache.vars other :=
  Function.update_of_ne different _ _

@[simp] theorem onCommandLine_setOnCommandLine (name value : String) :
    (cache.setOnCommandLine name value).onCommandLine name = some value :=
  Function.update_self ..

private theorem value_of_some {name v : String} (defined : cache.vars name = some v) : cache.value name = v := by
  rw [Cache.value, defined]
  rfl

private theorem value_of_none {name : String} (undefined : cache.vars name = none) : cache.value name = "" := by
  rw [Cache.value, undefined]
  rfl

/-- A variable that is true is defined. -/
theorem defined_of_isTrue {name : String} (holds : constants.isTrue (cache.value name) = true) :
    ∃ v, cache.vars name = some v := by
  cases defined : cache.vars name with
  | some v => exact ⟨v, rfl⟩
  | none =>
    rw [value_of_none defined, constants.isTrue_empty] at holds
    cases holds

/-! ## One step after another -/

/-- What checks of some variables do: those that are defined keep their values, no others change, and a
definition is appended for each that is true in the end. -/
structure Appends (constants : Constants) (names : List String) (before after : Cache) : Prop where
  kept : ∀ name v, before.vars name = some v → after.vars name = some v
  others : ∀ name, name ∉ names → after.vars name = before.vars name
  flags : ∀ ds, before.compileDefinitions = some ds → ∃ new,
    after.compileDefinitions = some (ds ++ new) ∧
      ∀ name, .flag name ∈ new ↔ name ∈ names ∧ constants.isTrue (after.value name) = true

/-- A variable that is defined is read as before. -/
theorem Appends.value_eq {after : Cache} {name v : String} (step : Appends constants names cache after)
    (defined : cache.vars name = some v) : after.value name = cache.value name := by
  rw [value_of_some defined, value_of_some (step.kept name v defined)]

theorem Appends.nil (cache : Cache) : Appends constants [] cache cache where
  kept _ _ defined := defined
  others _ _ := rfl
  flags ds has := ⟨[], by rw [List.append_nil, has], fun name => by simp only [List.not_mem_nil, false_and]⟩

theorem Appends.trans {middle after : Cache} {more : List String}
    (first : Appends constants names cache middle) (second : Appends constants more middle after) :
    Appends constants (names ++ more) cache after where
  kept name v defined := second.kept name v (first.kept name v defined)
  others name absent := by
    rw [List.mem_append, not_or] at absent
    exact (second.others name absent.2).trans (first.others name absent.1)
  flags ds has := by
    obtain ⟨new, has₁, flags₁⟩ := first.flags ds has
    obtain ⟨later, has₂, flags₂⟩ := second.flags _ has₁
    refine ⟨new ++ later, by rw [has₂, List.append_assoc], fun name => ?_⟩
    rw [List.mem_append, flags₁, flags₂, List.mem_append]
    constructor
    · rintro (⟨member, holds⟩ | ⟨member, holds⟩)
      · obtain ⟨v, defined⟩ := defined_of_isTrue holds
        rw [← second.value_eq defined] at holds
        exact ⟨.inl member, holds⟩
      · exact ⟨.inr member, holds⟩
    · rintro ⟨member, holds⟩
      by_cases checked : name ∈ more
      · exact .inr ⟨checked, holds⟩
      · refine .inl ⟨member.resolve_right checked, ?_⟩
        rw [Cache.value, second.others name checked] at holds
        exact holds

private theorem appends_ifTrue (name : String) (cache : Cache) :
    Appends constants [name] cache (appendMacroToCompilerFlagsIfTrue constants name cache) := by
  rw [appendMacroToCompilerFlagsIfTrue]
  split_ifs with holds
  · refine ⟨fun _ _ defined => defined, fun _ _ => rfl, fun ds has => ⟨[.flag name], ?_, fun other => ?_⟩⟩
    · change some (cache.compileDefinitions.getD [] ++ _) = _
      rw [has]
      rfl
    · rw [List.mem_singleton, List.mem_singleton, Definition.flag.injEq]
      refine ⟨?_, And.left⟩
      rintro rfl
      exact ⟨rfl, holds⟩
  · refine ⟨fun _ _ defined => defined, fun _ _ => rfl, fun ds has => ⟨[], ?_, fun other => ?_⟩⟩
    · rw [List.append_nil, has]
    · rw [List.mem_singleton]
      refine ⟨nofun, ?_⟩
      rintro ⟨rfl, true⟩
      exact absurd true holds

private theorem appends_tracked (tracked : List String) (cache : Cache) :
    Appends constants tracked cache (appendTracked constants tracked cache) := by
  induction tracked generalizing cache with
  | nil => exact .nil cache
  | cons name rest ih => exact (appends_ifTrue name cache).trans (ih _)

/-! ## Checks -/

/-- The variable of a check before its value is passed on. -/
def checked (constants : Constants) (found : Bool) (macroName : String) (cache : Cache) : Cache :=
  match cache.vars macroName with
  | none =>
    (invertCheckCacheValue constants macroName
      (cache.set macroName (if found then "1" else ""))).setOnCommandLine macroName ""
  | some _ => checkSetCacheValueFromCommandLine macroName cache

private theorem check_eq (found : Bool) (macroName : String) (cache : Cache) :
    check constants found macroName cache =
      appendMacroToCompilerFlagsIfTrue constants macroName (checked constants found macroName cache) := rfl

/-- A variable that is defined is taken to be the user's. -/
theorem checked_of_some {found : Bool} {macroName v : String} (defined : cache.vars macroName = some v) :
    checked constants found macroName cache = cache.setOnCommandLine macroName "1" := by
  have same : Function.update cache.vars macroName (some v) = cache.vars := by
    rw [← defined, Function.update_eq_self]
  simp only [checked, defined, checkSetCacheValueFromCommandLine, Cache.set, value_of_some defined, same]

/-- Otherwise its value is the opposite of what the host has. -/
theorem checked_of_none {found : Bool} {macroName : String} (undefined : cache.vars macroName = none) :
    checked constants found macroName cache =
      (cache.set macroName (if found then "" else "1")).setOnCommandLine macroName "" := by
  have value : ∀ v, (cache.set macroName v).value macroName = v := fun v =>
    value_of_some (Function.update_self ..)
  have again : ∀ v w, (cache.set macroName v).set macroName w = cache.set macroName w := fun v w => by
    simp only [Cache.set, Function.update_idem]
  simp only [checked, undefined, invertCheckCacheValue, value]
  cases found with
  | true =>
    simp only [if_true, constants.isTrue_one, again]
  | false =>
    simp only [Bool.false_eq_true, if_false, constants.isTrue_empty, again]

private theorem vars_check (item : Item) (macroName : String) (cache : Cache) :
    (item.check constants host macroName cache).vars = (checked constants (host item) macroName cache).vars ∧
    (item.check constants host macroName cache).onCommandLine =
      (checked constants (host item) macroName cache).onCommandLine := by
  have plain : ∀ found, (check constants found macroName cache).vars =
      (checked constants found macroName cache).vars ∧ (check constants found macroName cache).onCommandLine =
      (checked constants found macroName cache).onCommandLine := by
    intro found
    rw [check_eq, appendMacroToCompilerFlagsIfTrue]
    split_ifs
    · exact ⟨rfl, rfl⟩
    · exact ⟨rfl, rfl⟩
  cases item with
  | libcSymbol symbol headers =>
    simp only [Item.check, checkLibcSymbol]
    split_ifs
    · exact plain _
    · exact plain _
  | includeFile | libcStructHasMember | libcTypeExists | sourceCompiles | sourceRuns => exact plain _

/-- Before the value is passed on, only the variable of the check may have changed. -/
private theorem checked_keeps (found : Bool) (macroName : String) (cache : Cache) :
    (∀ name v, cache.vars name = some v → (checked constants found macroName cache).vars name = some v) ∧
    (∀ name, name ≠ macroName → (checked constants found macroName cache).vars name = cache.vars name) ∧
    (checked constants found macroName cache).compileDefinitions = cache.compileDefinitions := by
  cases defined : cache.vars macroName with
  | some v =>
    rw [checked_of_some defined]
    exact ⟨fun _ _ old => old, fun _ _ => rfl, rfl⟩
  | none =>
    rw [checked_of_none defined]
    refine ⟨fun name v old => ?_, fun name other => vars_set_of_ne other _, rfl⟩
    have other : name ≠ macroName := by
      rintro rfl
      rw [defined] at old
      cases old
    exact (vars_set_of_ne other _).trans old

private theorem appends_found (found : Bool) (macroName : String) (cache : Cache) :
    Appends constants [macroName] cache (check constants found macroName cache) := by
  obtain ⟨kept, others, same⟩ := @checked_keeps constants found macroName cache
  have step := @appends_ifTrue constants macroName (checked constants found macroName cache)
  constructor
  · exact fun name v defined => step.kept name v (kept name v defined)
  · exact fun name other => (step.others name other).trans (others name (List.ne_of_not_mem_cons other))
  · exact fun ds has => step.flags ds (same.trans has)

private theorem appends_check (item : Item) (macroName : String) (cache : Cache) :
    Appends constants [macroName] cache (item.check constants host macroName cache) := by
  cases item with
  | libcSymbol symbol headers =>
    have step := @appends_found constants (host (.libcSymbol symbol headers)) macroName cache
    simp only [Item.check, checkLibcSymbol]
    split_ifs
    -- The symbol that is missing is defined as well.
    · refine ⟨step.kept, step.others, fun ds has => ?_⟩
      obtain ⟨new, has', flags⟩ := step.flags ds has
      refine ⟨new ++ [.valued symbol ("THE_LIBC_THIS_WAS_COMPILED_UNDER_DOESNT_HAVE_" ++ symbol)], ?_,
        fun name => ?_⟩
      · change some (Option.getD _ [] ++ _) = _
        rw [has']
        exact congrArg some (List.append_assoc ..)
      · rw [List.mem_append, List.mem_singleton]
        exact (or_iff_left nofun).trans (flags name)
    · exact step
  | includeFile | libcStructHasMember | libcTypeExists | sourceCompiles | sourceRuns => exact appends_found ..

private theorem fst_run (x : Check) (cache : Cache) :
    (x.run constants host cache).1 = x.item.check constants host x.macroName cache := by
  rw [Check.run]
  split
  · rfl
  · rfl

private theorem appends_run (x : Check) (cache : Cache) :
    Appends constants [x.macroName] cache (x.run constants host cache).1 := by
  rw [fst_run]
  exact appends_check x.item x.macroName cache

private theorem checkAll_cons (x : Check) (rest : List Check) (cache : Cache) :
    (checkAll constants host (x :: rest) cache).2 = (x.run constants host cache).2 ++
      (checkAll constants host rest (x.run constants host cache).1).2 := rfl

private theorem appends_checkAll (checks : List Check) (cache : Cache) :
    Appends constants (checks.map Check.macroName) cache (checkAll constants host checks cache).1 := by
  induction checks generalizing cache with
  | nil => exact .nil cache
  | cons x rest ih => exact (appends_run x cache).trans (ih _)

/-! ## Options -/

theorem option_keeps {default : Option String} {name other v : String} (defined : cache.vars other = some v) :
    (option constants default name cache).vars other = some v := by
  simp only [option]
  split
  · exact defined
  next undefined =>
    have different : other ≠ name := by
      rintro rfl
      rw [undefined] at defined
      cases defined
    exact (vars_set_of_ne different _).trans defined

private theorem option_others {default : Option String} {name other : String} (different : other ≠ name) :
    (option constants default name cache).vars other = cache.vars other := by
  simp only [option]
  split
  · rfl
  · exact vars_set_of_ne different _

private theorem option_defines (default : Option String) (name : String) (cache : Cache) :
    (option constants default name cache).vars name ≠ none := by
  simp only [option]
  split
  next v has =>
    rw [has]
    exact Option.some_ne_none v
  · rw [vars_set]
    exact Option.some_ne_none _

theorem setOptions_keeps {options : List (String × Option String)} {name v : String}
    (defined : cache.vars name = some v) : (setOptions constants options cache).vars name = some v := by
  induction options generalizing cache with
  | nil => exact defined
  | cons x rest ih => exact ih (option_keeps defined)

/-- What is no option keeps its variable. -/
theorem setOptions_others {options : List (String × Option String)} {name : String}
    (other : name ∉ options.map Prod.fst) : (setOptions constants options cache).vars name = cache.vars name := by
  induction options generalizing cache with
  | nil => rfl
  | cons x rest ih =>
    rw [List.map_cons, List.mem_cons, not_or] at other
    exact (ih other.2).trans (option_others other.1)

/-- Options are defined from then on. -/
theorem defined_setOptions (options : List (String × Option String)) (cache : Cache) (name : String)
    (defined : cache.vars name ≠ none ∨ ∃ default, (name, default) ∈ options) :
    (setOptions constants options cache).vars name ≠ none := by
  induction options generalizing cache with
  | nil => exact defined.resolve_right nofun
  | cons x rest ih =>
    apply ih _
    rcases defined with defined | ⟨default, member⟩
    · obtain ⟨v, value⟩ := Option.ne_none_iff_exists'.mp defined
      rw [option_keeps value]
      exact .inl (Option.some_ne_none v)
    · rcases List.mem_cons.mp member with rfl | later
      · exact .inl (option_defines default name cache)
      · exact .inr ⟨default, later⟩

/-- No variable is anything but `OFF`. -/
def Cache.Off (cache : Cache) : Prop := ∀ name v, cache.vars name = some v → v = "OFF"

theorem Cache.Off.not_isTrue (off : cache.Off) (isOff : constants.isTrue "OFF" = false) (name : String) :
    constants.isTrue (cache.value name) = false := by
  cases has : cache.vars name with
  | none => rw [value_of_none has, constants.isTrue_empty]
  | some v => rw [value_of_some has, off name v has, isOff]

/-- An option is off unless some variable is on: its default is `OFF` or another variable. -/
theorem off_setOptions {options : List (String × Option String)} (off : constants.isOn "OFF" = false)
    (unset : constants.isOn "" = false) (initially : cache.Off) : (setOptions constants options cache).Off := by
  induction options generalizing cache with
  | nil => exact initially
  | cons x rest ih =>
    apply ih
    intro name v defined
    simp only [option] at defined
    split at defined
    · exact initially name v defined
    · have initial : constants.isOn ((x.2.map cache.value).getD "OFF") = false := by
        cases x.2 with
        | none => exact off
        | some default =>
          change constants.isOn (cache.value default) = false
          cases has : cache.vars default with
          | none => rwa [value_of_none has]
          | some w =>
            rw [value_of_some has, initially default w has]
            exact off
      rw [initial] at defined
      by_cases here : name = x.1
      · rw [here, vars_set] at defined
        exact (Option.some.inj defined).symm
      · rw [vars_set_of_ne here] at defined
        exact initially name v defined

/-! ## The definitions of many runs -/

/-- The tracked options and the variables of the checks. -/
def Script.macros (script : Script) : List String := script.tracked ++ script.checks.map Check.macroName

/-- The definitions that a run starts from. -/
def Cache.definitions (cache : Cache) : List Definition := cache.compileDefinitions.getD initialDefinitions

private theorem compileDefinitions_setOptions (options : List (String × Option String)) (cache : Cache) :
    (setOptions constants options cache).compileDefinitions = cache.compileDefinitions := by
  induction options generalizing cache with
  | nil => rfl
  | cons x rest ih =>
    apply (ih _).trans
    simp only [option]
    split
    · rfl
    · rfl

private theorem setCompileDefinitions_eq (cache : Cache) :
    setCompileDefinitions cache = { cache with compileDefinitions := some cache.definitions } := by
  rw [setCompileDefinitions, Cache.definitions]
  split
  next has =>
    rw [has]
    exact congrArg (Cache.mk _ _) has
  next none =>
    rw [none]
    rfl

private theorem vars_appendTracked (tracked : List String) (cache : Cache) :
    (appendTracked constants tracked cache).vars = cache.vars := by
  induction tracked generalizing cache with
  | nil => rfl
  | cons name rest ih =>
    apply (ih _).trans
    simp only [appendMacroToCompilerFlagsIfTrue]
    split_ifs
    · rfl
    · rfl

/-- The cache that the checks start from has the variables that the options leave. -/
theorem vars_before_checks (script : Script) (cache : Cache) :
    (appendTracked constants script.tracked (setCompileDefinitions
      (setOptions constants script.options cache))).vars = (setOptions constants script.options cache).vars := by
  rw [vars_appendTracked, setCompileDefinitions_eq]

/-- A run keeps the values of the variables that are defined. -/
theorem configure_keeps {script : Script} {name v : String} (defined : cache.vars name = some v) :
    (configure constants host script cache).1.vars name = some v := by
  apply (appends_checkAll script.checks _).kept
  rw [vars_before_checks]
  exact setOptions_keeps defined

/-- A run appends the variables that are true at its end. -/
theorem configure_definitions (script : Script) (cache : Cache) :
    let after := (configure constants host script cache).1
    ∃ new, after.compileDefinitions = some (cache.definitions ++ new) ∧
      ∀ name, .flag name ∈ new ↔ name ∈ script.macros ∧ constants.isTrue (after.value name) = true := by
  have start : (setCompileDefinitions (setOptions constants script.options cache)).compileDefinitions =
      some cache.definitions := by
    rw [setCompileDefinitions_eq]
    exact congrArg (some <| Option.getD · initialDefinitions) (compileDefinitions_setOptions _ _)
  exact ((appends_tracked script.tracked _).trans (appends_checkAll script.checks _)).flags _ start

/-- After some runs, what was true at the end of one of them is defined. -/
theorem configures_definitions (script : Script) (start : Cache) (inputs : List Input) (name : String) :
    .flag name ∈ (configures constants script start inputs).definitions ↔
      .flag name ∈ start.definitions ∨ name ∈ script.macros ∧ ∃ earlier, earlier ≠ [] ∧
        earlier <+: inputs ∧ constants.isTrue ((configures constants script start earlier).value name) = true := by
  induction inputs using List.reverseRecOn with
  | nil =>
    refine (or_iff_left ?_).symm
    rintro ⟨-, earlier, nonempty, before, -⟩
    exact nonempty (List.prefix_nil.mp before)
  | append_singleton inputs last ih =>
    have step : configures constants script start (inputs ++ [last]) =
        (configure constants last.host script
          ((configures constants script start inputs).apply last.settings)).1 := by
      rw [configures, List.foldl_append]
      rfl
    obtain ⟨new, has, flags⟩ := @configure_definitions constants last.host script
      ((configures constants script start inputs).apply last.settings)
    rw [← step] at has flags
    have now : (configures constants script start (inputs ++ [last])).definitions =
        (configures constants script start inputs).definitions ++ new := by
      rw [Cache.definitions, has]
      rfl
    rw [now, List.mem_append, ih, flags, or_assoc]
    apply or_congr_right
    rw [← and_or_left]
    refine and_congr_right fun _ => ?_
    constructor
    · rintro (⟨earlier, nonempty, before, holds⟩ | holds)
      · exact ⟨earlier, nonempty, before.trans (List.prefix_append ..), holds⟩
      · exact ⟨inputs ++ [last], List.append_ne_nil_of_right_ne_nil _ (List.cons_ne_nil _ _), List.prefix_refl _,
          holds⟩
    · rintro ⟨earlier, nonempty, before, holds⟩
      rcases List.prefix_concat_iff.mp before with rfl | before
      · exact .inr holds
      · exact .inl ⟨earlier, nonempty, before, holds⟩

/-- After the last run, exactly the variables that are true are defined. -/
def HistoryIndependent (constants : Constants) (script : Script) (start : Cache) (inputs : List Input) : Prop :=
  ∀ name ∈ script.macros, .flag name ∈ (configures constants script start inputs).definitions ↔
    constants.isTrue ((configures constants script start inputs).value name) = true

/-- Definitions are independent of earlier runs if and only if no variable that was true in one of them
is not true in the last run. -/
theorem historyIndependent_iff (constants : Constants) (script : Script) (start : Cache)
    (inputs : List Input) (last : Input) :
    HistoryIndependent constants script start (inputs ++ [last]) ↔
      ∀ name ∈ script.macros, (.flag name ∈ start.definitions ∨ ∃ earlier, earlier ≠ [] ∧ earlier <+: inputs ∧
          constants.isTrue ((configures constants script start earlier).value name) = true) →
        constants.isTrue ((configures constants script start (inputs ++ [last])).value name) = true := by
  refine forall₂_congr fun name tracked => ?_
  rw [configures_definitions]
  simp only [tracked, true_and]
  constructor
  · rintro same (initially | ⟨earlier, nonempty, before, holds⟩)
    · exact same.mp (.inl initially)
    · exact same.mp (.inr ⟨earlier, nonempty, before.trans (List.prefix_append ..), holds⟩)
  · intro kept
    constructor
    · rintro (initially | ⟨earlier, nonempty, before, holds⟩)
      · exact kept (.inl initially)
      · rcases List.prefix_concat_iff.mp before with rfl | before
        · exact holds
        · exact kept (.inr ⟨earlier, nonempty, before, holds⟩)
    · intro holds
      exact .inr ⟨inputs ++ [last], List.append_ne_nil_of_right_ne_nil _ (List.cons_ne_nil _ _),
        List.prefix_refl _, holds⟩

/-- Whatever the script tracks stays defined when it is on in one run and off in the next. -/
theorem stays_defined {script : Script} {start : Cache} {name on off : String} (first last : Host)
    (tracked : name ∈ script.macros) (isOn : constants.isTrue on = true) (isOff : constants.isTrue off = false) :
    ¬ HistoryIndependent constants script start [⟨[(name, some on)], first⟩, ⟨[(name, some off)], last⟩] := by
  intro independent
  have keeps : ∀ (cache : Cache) value host,
      (configures constants script cache [⟨[(name, some value)], host⟩]).value name = value :=
    fun _ _ _ => value_of_some (configure_keeps (Function.update_self ..))
  have same := independent name tracked
  rw [configures_definitions] at same
  have now : (configures constants script start
      [⟨[(name, some on)], first⟩, ⟨[(name, some off)], last⟩]).value name = off :=
    keeps (configures constants script start [⟨[(name, some on)], first⟩]) off last
  rw [now, isOff] at same
  have before : constants.isTrue ((configures constants script start [⟨[(name, some on)], first⟩]).value name) =
      true := by
    rw [keeps]
    exact isOn
  cases same.mp (.inr ⟨tracked, [⟨[(name, some on)], first⟩], List.cons_ne_nil _ _, ⟨[_], rfl⟩, before⟩)

/-- The constants of CMake, without its numbers. -/
def Constants.named : Constants where
  isTrue value := value ∈ ["1", "ON", "YES", "TRUE", "Y"]
  isOn value := value ∈ ["1", "ON", "YES", "TRUE", "Y"]
  isTrue_one := by decide
  isTrue_empty := by decide

/-- A new build directory. -/
def Cache.empty : Cache := ⟨fun _ => none, fun _ => none, none⟩

/-- The first option that `CMakeLists.txt` tracks stays defined when it is switched off. -/
theorem switched_off_stays : ¬ ∀ constants script start inputs, HistoryIndependent constants script start inputs := by
  intro independent
  have on : Constants.named.isTrue "ON" = true := by decide
  have off : Constants.named.isTrue "OFF" = false := by decide
  have tracked : "YALIBCT_DISABLE_LC_NUMERIC_TESTS" ∈ cmakeLists.macros :=
    List.mem_append_left _ (List.mem_cons_self ..)
  exact stays_defined (fun _ => true) (fun _ => true) tracked on off
    (independent .named cmakeLists .empty _)

/-! ## The errors of a second run -/

/-- A check defines its variable. -/
theorem defined_check (item : Item) (macroName : String) (cache : Cache) :
    (item.check constants host macroName cache).vars macroName ≠ none := by
  rw [(vars_check item macroName cache).1]
  cases defined : cache.vars macroName with
  | some v =>
    rw [checked_of_some defined, vars_setOnCommandLine, defined]
    exact Option.some_ne_none v
  | none =>
    rw [checked_of_none defined, vars_setOnCommandLine, vars_set]
    exact Option.some_ne_none _

private theorem defined_run (x : Check) (cache : Cache) : (x.run constants host cache).1.vars x.macroName ≠ none := by
  rw [fst_run]
  exact defined_check x.item x.macroName cache

theorem Appends.defined {after : Cache} {name : String} (step : Appends constants names cache after)
    (defined : cache.vars name ≠ none) : after.vars name ≠ none := by
  obtain ⟨v, value⟩ := Option.ne_none_iff_exists'.mp defined
  rw [step.kept name v value]
  exact Option.some_ne_none v

private theorem defined_checkAll (checks : List Check) (cache : Cache) :
    ∀ x ∈ checks, (checkAll constants host checks cache).1.vars x.macroName ≠ none := by
  induction checks generalizing cache with
  | nil => exact nofun
  | cons x rest ih =>
    intro y member
    rcases List.mem_cons.mp member with rfl | later
    · exact (appends_checkAll rest _).defined (defined_run y cache)
    · exact ih _ y later

private theorem reported_check {x : Check} {error : SendError} (reported : error ∈ (x.run constants host cache).2) :
    x.macroName = error.macroName ∧ x.mandatedBy = some error.standard := by
  rw [Check.run] at reported
  split at reported
  next standard mandated =>
    simp only [checkStandard] at reported
    split_ifs at reported
    · rw [List.mem_singleton.mp reported]
      exact ⟨rfl, mandated⟩
    · cases reported
  · cases reported

/-- What one check reports: the item of a standard that is enforced, if its variable is new and the host
has it not. -/
theorem run_errors (x : Check) (cache : Cache) : (x.run constants host cache).2 = [] ↔
    ∀ standard, x.mandatedBy = some standard →
      constants.isTrue (cache.value standard.disableMandating) = true ∨ cache.vars x.macroName ≠ none ∨
        host x.item = true := by
  rw [Check.run]
  cases x.mandatedBy with
  | none => exact iff_of_true rfl nofun
  | some standard =>
    obtain ⟨vars, onCommandLine⟩ := @vars_check constants host x.item x.macroName cache
    simp only [checkStandard, Cache.value, vars, onCommandLine, Option.some.injEq, forall_eq']
    cases defined : cache.vars x.macroName with
    | some v =>
      rw [checked_of_some defined, onCommandLine_setOnCommandLine]
      simp [constants.isTrue_one]
    | none =>
      rw [checked_of_none defined, onCommandLine_setOnCommandLine, vars_setOnCommandLine, vars_set]
      cases host x.item with
      | true => simp [constants.isTrue_empty]
      | false => simp [constants.isTrue_empty, constants.isTrue_one]

/-- The second run has nothing to report, since every variable is defined. -/
theorem checkAll_silent {checks : List Check} (defined : ∀ x ∈ checks, cache.vars x.macroName ≠ none) :
    (checkAll constants host checks cache).2 = [] := by
  induction checks generalizing cache with
  | nil => rfl
  | cons x rest ih =>
    have first := @appends_run constants host x cache
    rw [checkAll_cons]
    refine List.append_eq_nil_iff.mpr ⟨(run_errors x cache).mpr fun _ _ =>
      .inr (.inl (defined x (List.mem_cons_self ..))), ih fun y member => ?_⟩
    exact first.defined (defined y (List.mem_cons_of_mem _ member))

/-- The checks report nothing, if each item that is enforced is found or has a variable already. -/
theorem checkAll_errors {checks : List Check}
    (enforced : ∀ standard : Standard, cache.vars standard.disableMandating ≠ none) :
    (checkAll constants host checks cache).2 = [] ↔
      ∀ before x after, checks = before ++ x :: after → ∀ standard, x.mandatedBy = some standard →
        constants.isTrue (cache.value standard.disableMandating) = true ∨ cache.vars x.macroName ≠ none ∨
          x.macroName ∈ before.map Check.macroName ∨ host x.item = true := by
  induction checks generalizing cache with
  | nil =>
    refine iff_of_true rfl fun before x after split => ?_
    cases before with
    | nil => cases split
    | cons => cases split
  | cons x rest ih =>
    have first := @appends_run constants host x cache
    have defines := @defined_run constants host x cache
    -- The standards' options are read before and after the check with the same result.
    have same : ∀ standard : Standard, (x.run constants host cache).1.value standard.disableMandating =
        cache.value standard.disableMandating := by
      intro standard
      obtain ⟨v, value⟩ := Option.ne_none_iff_exists'.mp (enforced standard)
      exact first.value_eq value
    have later : ∀ name, (x.run constants host cache).1.vars name ≠ none ↔
        cache.vars name ≠ none ∨ name = x.macroName := by
      intro name
      by_cases here : name = x.macroName
      · exact iff_of_true (here ▸ defines) (.inr here)
      · rw [first.others name (fun member => here (List.mem_singleton.mp member))]
        exact (or_iff_left here).symm
    rw [checkAll_cons, List.append_eq_nil_iff, run_errors, ih fun standard => first.defined (enforced standard)]
    simp only [same, later]
    constructor
    · rintro ⟨now, after⟩ before y rest' split standard mandated
      cases before with
      | nil =>
        cases split
        rcases now standard mandated with disabled | defined | found
        · exact .inl disabled
        · exact .inr (.inl defined)
        · exact .inr (.inr (.inr found))
      | cons z before =>
        cases split
        rcases after before y rest' rfl standard mandated with disabled | (defined | here) | earlier | found
        · exact .inl disabled
        · exact .inr (.inl defined)
        · exact .inr (.inr (.inl (here ▸ List.mem_cons_self ..)))
        · exact .inr (.inr (.inl (List.mem_cons_of_mem _ earlier)))
        · exact .inr (.inr (.inr found))
    · intro all
      constructor
      · intro standard mandated
        rcases all [] x rest rfl standard mandated with disabled | defined | earlier | found
        · exact .inl disabled
        · exact .inr (.inl defined)
        · cases earlier
        · exact .inr (.inr found)
      · rintro before y rest' rfl standard mandated
        rcases all (x :: before) y rest' rfl standard mandated with disabled | defined | earlier | found
        · exact .inl disabled
        · exact .inr (.inl (.inl defined))
        · rcases List.mem_cons.mp earlier with here | earlier
          · exact .inr (.inl (.inr here))
          · exact .inr (.inr (.inl earlier))
        · exact .inr (.inr (.inr found))

/-! ## Whole runs -/

/-- Variables given on the command line. -/
def Cache.supply (cache : Cache) (user : List (String × String)) : Cache :=
  cache.apply (user.map fun x => (x.1, some x.2))

private theorem supply_nil (cache : Cache) : cache.supply [] = cache := rfl

private theorem defined_supply (user : List (String × String)) (cache : Cache) (name : String)
    (defined : cache.vars name ≠ none) : (cache.supply user).vars name ≠ none := by
  induction user generalizing cache with
  | nil => exact defined
  | cons x rest ih =>
    apply ih (cache.set x.1 x.2)
    by_cases here : name = x.1
    · rw [here, vars_set]
      exact Option.some_ne_none _
    · rwa [vars_set_of_ne here]

/-! ## The advice of an error -/

/-- The variables that the text of an error says to define. -/
def SendError.advice (error : SendError) : List (String × String) :=
  [(error.macroName, error.item.suppressing), (error.standard.disableMandating, "ON")]

theorem SendError.text_advises {error : SendError} {given : String × String} (advised : given ∈ error.advice) :
    ∃ before after, error.text = before ++ (given.1 ++ " to " ++ given.2 ++ " to suppress this error") ++ after := by
  have one : " to suppress this error, or " = " to suppress this error" ++ ", or " := by decide
  have all : " to ON to suppress this error for every function of the " =
      " to " ++ "ON" ++ " to suppress this error" ++ " for every function of the " := by decide
  simp only [advice, List.mem_cons, List.not_mem_nil, or_false] at advised
  rcases advised with rfl | rfl
  · refine ⟨error.standard.name ++ " requires that " ++ error.item.described ++
      " be present, but it was not found on the system ! (note: define ",
      ", or " ++ error.standard.disableMandating ++ " to ON to suppress this error for every function of the " ++
        error.standard.name ++ " standard)", ?_⟩
    rw [text, one]
    simp only [String.append_assoc]
  · refine ⟨error.standard.name ++ " requires that " ++ error.item.described ++
      " be present, but it was not found on the system ! (note: define " ++ error.macroName ++ " to " ++
        error.item.suppressing ++ " to suppress this error, or ",
      " for every function of the " ++ error.standard.name ++ " standard)", ?_⟩
    rw [text, all]
    simp only [String.append_assoc]

/-- A variable that is defined, or a standard that is not enforced, is reported by no check. -/
theorem not_reported {checks : List Check} {error : SendError}
    (settled : cache.vars error.macroName ≠ none ∨
      constants.isTrue (cache.value error.standard.disableMandating) = true) :
    error ∉ (checkAll constants host checks cache).2 := by
  induction checks generalizing cache with
  | nil => exact List.not_mem_nil
  | cons x rest ih =>
    have first := @appends_run constants host x cache
    rw [checkAll_cons, List.mem_append, not_or]
    constructor
    · intro reported
      obtain ⟨names, mandated⟩ := reported_check reported
      have silent : (x.run constants host cache).2 = [] := by
        refine (run_errors x cache).mpr fun standard by_ => ?_
        cases mandated.symm.trans by_
        rw [names]
        exact settled.elim (.inr ∘ .inl) .inl
      rw [silent] at reported
      cases reported
    · apply ih
      rcases settled with defined | disabled
      · exact .inl (first.defined defined)
      · obtain ⟨v, value⟩ := defined_of_isTrue disabled
        rw [← first.value_eq value] at disabled
        exact .inr disabled

/-- A run that follows the advice of an error does not report it. -/
theorem advice_silences {script : Script} {error : SendError} {given : String × String}
    (on : constants.isTrue "ON" = true) (advised : given ∈ error.advice) :
    error ∉ (configure constants host script (cache.supply [given])).2 := by
  have supplied : (appendTracked constants script.tracked (setCompileDefinitions
      (setOptions constants script.options (cache.supply [given])))).vars given.1 = some given.2 := by
    rw [vars_before_checks]
    exact setOptions_keeps (Function.update_self ..)
  simp only [SendError.advice, List.mem_cons, List.not_mem_nil, or_false] at advised
  apply not_reported
  rcases advised with rfl | rfl
  · rw [supplied]
    exact .inl (Option.some_ne_none _)
  · rw [value_of_some supplied]
    exact .inr on

/-! ## Two equal runs -/

/-- A run after another one, with or without the same variables on the command line, reports nothing. -/
theorem second_run_silent (script : Script) (cache : Cache) (user : List (String × String)) :
    (configure constants host script
      ((configure constants host script cache).1.supply user)).2 = [] := by
  refine checkAll_silent fun x member => ?_
  rw [vars_before_checks]
  refine defined_setOptions _ _ _ (.inl (defined_supply _ _ _ ?_))
  exact defined_checkAll script.checks _ x member

/-- The second of two equal runs reports the same errors if and only if the first one reports none: each
item that is enforced is found, or its variable was defined before it was checked. -/
theorem same_verdict_iff (constants : Constants) (host : Host) (script : Script) (start : Cache)
    (user : List (String × String)) (repeated : Bool) :
    let cache := start.supply user
    let first := configure constants host script cache
    let second := configure constants host script (first.1.supply (if repeated then user else []))
    (∀ e, e ∈ second.2 ↔ e ∈ first.2) ↔
      ∀ before x after, script.checks = before ++ x :: after → ∀ standard, x.mandatedBy = some standard →
        let options := setOptions constants script.options cache
        constants.isTrue (options.value standard.disableMandating) = true ∨
          options.vars x.macroName ≠ none ∨ x.macroName ∈ before.map Check.macroName ∨ host x.item = true := by
  intro cache first second
  have silent : second.2 = [] := second_run_silent script cache _
  have vars := @vars_before_checks constants script cache
  have none : (∀ e, e ∈ second.2 ↔ e ∈ first.2) ↔ first.2 = [] := by
    rw [silent, List.eq_nil_iff_forall_not_mem]
    exact forall_congr' fun e => ⟨fun same reported => (List.not_mem_nil : e ∉ []) (same.mpr reported),
      fun absent => iff_of_false List.not_mem_nil absent⟩
  refine none.trans ((checkAll_errors fun standard => ?_).trans ?_)
  · rw [vars]
    exact defined_setOptions _ _ _ (.inr (script.mandating standard))
  · simp only [Cache.value, vars]

/-- `yalibct_check_c99_libc_symbol(NAN math.h YALIBCT_LIBC_DOESNT_HAVE_NAN)` -/
def nanCheck : Check := .c99LibcSymbol "NAN" "math.h" "YALIBCT_LIBC_DOESNT_HAVE_NAN"

/-- In a new build directory, the first run of `CMakeLists.txt` rejects a C library without `NAN`, and the
second one accepts it. -/
theorem second_run_accepts : ¬ ∀ constants host script (start : Cache) user,
    ∀ e, e ∈ (configure constants host script (configure constants host script (start.supply user)).1).2 ↔
      e ∈ (configure constants host script (start.supply user)).2 := by
  intro same
  have same := same .named (fun _ => false) cmakeLists .empty []
  have second := @second_run_silent .named (fun _ => false) cmakeLists .empty []
  rw [supply_nil] at same second
  rw [second] at same
  have first : (configure .named (fun _ => false) cmakeLists .empty).2 = [] :=
    List.eq_nil_iff_forall_not_mem.mpr fun e reported => List.not_mem_nil ((same e).mpr reported)
  have off : (setOptions .named cmakeLists.options .empty).Off :=
    off_setOptions (by decide) (by decide) fun _ _ defined => nomatch defined
  have vars := @vars_before_checks .named cmakeLists .empty
  have found := (checkAll_errors fun standard => ?_).mp first (libcChecks.take 8) nanCheck (libcChecks.drop 9) rfl
    .c99 rfl
  · rw [Cache.value, vars] at found
    rcases found with disabled | defined | earlier | found
    · have enforced := @Cache.Off.not_isTrue .named _ off (by decide) Standard.c99.disableMandating
      exact Bool.false_ne_true (enforced.symm.trans disabled)
    · apply defined
      rw [setOptions_others]
      · rfl
      · decide +kernel
    · revert earlier
      decide +kernel
    · cases found
  · rw [vars]
    exact defined_setOptions _ _ _ (.inr (cmakeLists.mandating standard))

end Yalibct.Configure
