import Mathlib.Logic.Function.Basic

/-! # `CMakeLists.txt`

A configure run reads and writes the cache of the build directory, which the next run starts from.
Options get their defaults, the options that are tracked are passed on to the compiler, and the host
is checked for what the test suite uses. What a check finds is kept in the cache.
-/

namespace Yalibct.Configure

/-- The strings that CMake takes as true in `if ("…")`, and as on in `option`. -/
structure Constants where
  isTrue : String → Bool
  isOn : String → Bool
  isTrue_one : isTrue "1" = true
  isTrue_empty : isTrue "" = false

/-- `-D<name>` or `-D<name>=<value>` -/
inductive Definition where
  | flag (name : String)
  | valued (name value : String)
deriving DecidableEq

/-- The cache of a build directory. No variable of the first kind has a name that ends in
`_DEFINED_ON_COMMAND_LINE`. -/
structure Cache where
  vars : String → Option String
  /-- `<macro>_DEFINED_ON_COMMAND_LINE` -/
  onCommandLine : String → Option String
  /-- `YALIBCT_COMPILE_DEFINITIONS` -/
  compileDefinitions : Option (List Definition)

namespace Cache

/-- `${name}` -/
def value (cache : Cache) (name : String) : String := (cache.vars name).getD ""

/-- `set (name value CACHE INTERNAL name)` -/
def set (cache : Cache) (name value : String) : Cache :=
  { cache with vars := Function.update cache.vars name (some value) }

def setOnCommandLine (cache : Cache) (name value : String) : Cache :=
  { cache with onCommandLine := Function.update cache.onCommandLine name (some value) }

/-- `list (APPEND YALIBCT_COMPILE_DEFINITIONS …)`, also in the cache. -/
def append (cache : Cache) (definition : Definition) : Cache :=
  { cache with compileDefinitions := some (cache.compileDefinitions.getD [] ++ [definition]) }

end Cache

inductive Standard where
  | c89 | c95 | c99 | c11 | c23 | posix
deriving DecidableEq

def Standard.name : Standard → String
  | .c89 => "C89"
  | .c95 => "C95"
  | .c99 => "C99"
  | .c11 => "C11"
  | .c23 => "C23"
  | .posix => "POSIX"

def Standard.disableMandating (standard : Standard) : String :=
  "YALIBCT_DISABLE_MANDATING_" ++ standard.name ++ "_SYMBOLS"

/-- What the host is checked for. -/
inductive Item where
  | includeFile (headers : String)
  | libcSymbol (symbol headers : String)
  | libcStructHasMember (struct member headers : String)
  | libcTypeExists (type headers : String)
  | sourceCompiles (code : String)
  | sourceRuns (code : String)
deriving DecidableEq

/-- The outcome of each check. -/
abbrev Host := Item → Bool

/-- A call of a check function, or of the variant for what a standard mandates. -/
structure Check where
  item : Item
  macroName : String
  mandatedBy : Option Standard

/-- `message (SEND_ERROR …)`; it does not end the run. -/
structure SendError where
  standard : Standard
  item : Item
  macroName : String
deriving DecidableEq

/-- What is missing, as the message names it. -/
def Item.described : Item → String
  | .includeFile headers => headers
  | .libcSymbol symbol _ => symbol
  | .libcStructHasMember struct member _ => struct ++ "::" ++ member
  | .libcTypeExists type _ => type
  | .sourceCompiles code => code
  | .sourceRuns code => code

/-- The value that a message asks for: the ones for types and members say the wrong one. -/
def Item.suppressing : Item → String
  | .libcSymbol _ _ => "ON"
  | _ => "OFF"

def SendError.text (error : SendError) : String :=
  error.standard.name ++ " requires that " ++ error.item.described ++
    " be present, but it was not found on the system ! (note: define " ++ error.macroName ++ " to " ++
    error.item.suppressing ++ " to suppress this error, or " ++ error.standard.disableMandating ++
    " to ON to suppress this error for every function of the " ++ error.standard.name ++ " standard)"

variable (constants : Constants)

/-! ## Options and definitions -/

/-- `option (name … "${default}")`, or with `OFF` -/
def option (default : Option String) (name : String) (cache : Cache) : Cache :=
  match cache.vars name with
  | some _ => cache
  | none =>
    let initial := (default.map cache.value).getD "OFF"
    cache.set name (if constants.isOn initial then "ON" else "OFF")

/-- What `YALIBCT_COMPILE_DEFINITIONS` is at first. -/
def initialDefinitions : List Definition :=
  [.flag "_GNU_SOURCE", .flag "_ALL_SOURCE", .flag "_NETBSD_SOURCE", .flag "_BSD_SOURCE",
    .flag "_DEFAULT_SOURCE", .valued "_FILE_OFFSET_BITS" "64", .flag "_XOPEN_SOURCE_EXTENDED",
    .valued "_XOPEN_SOURCE" "700", .valued "_POSIX_C_SOURCE" "200809L", .flag "_DARWIN_C_SOURCE",
    .flag "__EXTENSIONS__", .flag "_OPENBSD_SOURCE", .flag "_POSIX_SOURCE",
    .valued "_POSIX_1_SOURCE" "2", .flag "_POSIX_PTHREAD_SEMANTICS", .flag "__STDC_WANT_LIB_EXT1__",
    .flag "__STDC_WANT_IEC_60559_ATTRIBS_EXT__", .flag "__STDC_WANT_IEC_60559_BFP_EXT__",
    .flag "__STDC_WANT_IEC_60559_DFP_EXT__", .flag "__STDC_WANT_IEC_60559_EXT__",
    .flag "__STDC_WANT_IEC_60559_FUNCS_EXT__", .flag "__STDC_WANT_IEC_60559_TYPES_EXT__",
    .flag "__STDC_WANT_LIB_EXT2__", .flag "__STDC_WANT_MATH_SPEC_FUNCS__", .flag "_TANDEM_SOURCE",
    .flag "_COSMO_SOURCE"]

/-- The list is set only if there is none in the cache. -/
def setCompileDefinitions (cache : Cache) : Cache :=
  match cache.compileDefinitions with
  | some _ => cache
  | none => { cache with compileDefinitions := some initialDefinitions }

/-- `yalibct_append_macro_to_compiler_flags` -/
def appendMacroToCompilerFlags (macroName : String) (cache : Cache) : Cache := cache.append (.flag macroName)

/-- `yalibct_append_macro_to_compiler_flags_if_true` -/
def appendMacroToCompilerFlagsIfTrue (macroName : String) (cache : Cache) : Cache :=
  if constants.isTrue (cache.value macroName) then appendMacroToCompilerFlags macroName cache else cache

/-! ## Checks -/

/-- `yalibct_invert_check_cache_value` -/
def invertCheckCacheValue (macroName : String) (cache : Cache) : Cache :=
  if constants.isTrue (cache.value macroName) then cache.set macroName "" else cache.set macroName "1"

/-- `yalibct_check_set_cache_value_from_command_line` -/
def checkSetCacheValueFromCommandLine (macroName : String) (cache : Cache) : Cache :=
  (cache.set macroName (cache.value macroName)).setOnCommandLine macroName "1"

/-- The check functions differ in what they look for only. The variable of a check is set to `1` when
it succeeds, and inverted. -/
def check (found : Bool) (macroName : String) (cache : Cache) : Cache :=
  let cache :=
    match cache.vars macroName with
    | none =>
      let cache := cache.set macroName (if found then "1" else "")
      (invertCheckCacheValue constants macroName cache).setOnCommandLine macroName ""
    | some _ => checkSetCacheValueFromCommandLine macroName cache
  appendMacroToCompilerFlagsIfTrue constants macroName cache

variable (host : Host)

/-- `yalibct_check_include_file` -/
def checkIncludeFile (headers macroName : String) : Cache → Cache :=
  check constants (host (.includeFile headers)) macroName

/-- `yalibct_check_libc_symbol_define_libc_doesnt_have_symbol` -/
def checkLibcSymbolDefineLibcDoesntHaveSymbol (symbol : String) (cache : Cache) : Cache :=
  cache.append (.valued symbol ("THE_LIBC_THIS_WAS_COMPILED_UNDER_DOESNT_HAVE_" ++ symbol))

/-- `yalibct_check_libc_symbol` -/
def checkLibcSymbol (symbol headers macroName : String) (cache : Cache) : Cache :=
  let cache := check constants (host (.libcSymbol symbol headers)) macroName cache
  if constants.isTrue (cache.value macroName) then checkLibcSymbolDefineLibcDoesntHaveSymbol symbol cache
  else cache

/-- `yalibct_check_libc_struct_has_member` -/
def checkLibcStructHasMember (struct member headers macroName : String) : Cache → Cache :=
  check constants (host (.libcStructHasMember struct member headers)) macroName

/-- `yalibct_check_libc_type_exists` -/
def checkLibcTypeExists (type headers macroName : String) : Cache → Cache :=
  check constants (host (.libcTypeExists type headers)) macroName

/-- `yalibct_check_source_compiles` -/
def checkSourceCompiles (code macroName : String) : Cache → Cache :=
  check constants (host (.sourceCompiles code)) macroName

/-- `yalibct_check_source_runs` -/
def checkSourceRuns (code macroName : String) : Cache → Cache :=
  check constants (host (.sourceRuns code)) macroName

/-- The check function for an item. -/
def Item.check (macroName : String) : Item → Cache → Cache
  | .includeFile headers => checkIncludeFile constants host headers macroName
  | .libcSymbol symbol headers => checkLibcSymbol constants host symbol headers macroName
  | .libcStructHasMember struct member headers =>
    checkLibcStructHasMember constants host struct member headers macroName
  | .libcTypeExists type headers => checkLibcTypeExists constants host type headers macroName
  | .sourceCompiles code => checkSourceCompiles constants host code macroName
  | .sourceRuns code => checkSourceRuns constants host code macroName

/-- `yalibct_check_standard_libc_symbol`, and those for types and members. The variable of the
standard is read by the caller. -/
def checkStandard (item : Item) (macroName : String) (standard : Standard) (cache : Cache) :
    Cache × List SendError :=
  let errorControlling := cache.value standard.disableMandating
  let cache := item.check constants host macroName cache
  let missing := !constants.isTrue errorControlling && constants.isTrue (cache.value macroName) &&
    !constants.isTrue ((cache.onCommandLine macroName).getD "")
  (cache, if missing then [⟨standard, item, macroName⟩] else [])

/-- One call of the script. -/
def Check.run (x : Check) (cache : Cache) : Cache × List SendError :=
  match x.mandatedBy with
  | some standard => checkStandard constants host x.item x.macroName standard cache
  | none => (x.item.check constants host x.macroName cache, [])

/-- The checks in turn, with all errors. -/
def checkAll : List Check → Cache → Cache × List SendError
  | [], cache => (cache, [])
  | x :: rest, cache =>
    let (cache, errors) := x.run constants host cache
    let (cache, later) := checkAll rest cache
    (cache, errors ++ later)

/-! ## Runs -/

/-- The options with their defaults, the options that are passed on, and the checks. For each standard
there is an option that disables its errors. -/
structure Script where
  options : List (String × Option String)
  tracked : List String
  checks : List Check
  mandating : ∀ standard : Standard, ∃ default, (standard.disableMandating, default) ∈ options

def setOptions (options : List (String × Option String)) (cache : Cache) : Cache :=
  options.foldl (fun cache x => option constants x.2 x.1 cache) cache

def appendTracked (tracked : List String) (cache : Cache) : Cache :=
  tracked.foldl (fun cache name => appendMacroToCompilerFlagsIfTrue constants name cache) cache

/-- A configure run: the cache that it leaves and the errors that it reports. -/
def configure (script : Script) (cache : Cache) : Cache × List SendError :=
  let cache := setOptions constants script.options cache
  let cache := setCompileDefinitions cache
  let cache := appendTracked constants script.tracked cache
  checkAll constants host script.checks cache

/-- Between runs, variables are set or unset. -/
structure Input where
  settings : List (String × Option String)
  host : Host

def Cache.apply (cache : Cache) (settings : List (String × Option String)) : Cache :=
  { cache with vars := settings.foldl (fun vars x => Function.update vars x.1 x.2) cache.vars }

/-- Run after run in one build directory. -/
def configures (script : Script) (cache : Cache) (inputs : List Input) : Cache :=
  inputs.foldl (fun cache input => (configure constants input.host script (cache.apply input.settings)).1)
    cache

end Yalibct.Configure
