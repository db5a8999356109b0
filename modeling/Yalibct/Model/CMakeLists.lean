import Yalibct.Model.Configure

/-! # The options and checks of `CMakeLists.txt`

They are listed in the order of the script. A check that `if(0)` disables is not among them.
-/

namespace Yalibct.Configure

/-! ## Calls -/

namespace Check

/-- `yalibct_check_include_file` -/
def includeFile (headers macroName : String) : Check := ⟨.includeFile headers, macroName, none⟩

/-- `yalibct_check_libc_symbol` -/
def libcSymbol (symbol headers macroName : String) : Check := ⟨.libcSymbol symbol headers, macroName, none⟩

/-- `yalibct_check_libc_struct_has_member` -/
def libcStructHasMember (struct member headers macroName : String) : Check :=
  ⟨.libcStructHasMember struct member headers, macroName, none⟩

/-- `yalibct_check_libc_type_exists` -/
def libcTypeExists (type headers macroName : String) : Check :=
  ⟨.libcTypeExists type headers, macroName, none⟩

/-- `yalibct_check_source_compiles` -/
def sourceCompiles (code macroName : String) : Check := ⟨.sourceCompiles code, macroName, none⟩

/-- `yalibct_check_standard_libc_symbol` -/
def standardLibcSymbol (standard : Standard) (symbol headers macroName : String) : Check :=
  ⟨.libcSymbol symbol headers, macroName, some standard⟩

/-- `yalibct_check_c23_libc_symbol` -/
def c23LibcSymbol : String → String → String → Check := standardLibcSymbol .c23

/-- `yalibct_check_c11_libc_symbol` -/
def c11LibcSymbol : String → String → String → Check := standardLibcSymbol .c11

/-- `yalibct_check_c99_libc_symbol` -/
def c99LibcSymbol : String → String → String → Check := standardLibcSymbol .c99

/-- `yalibct_check_c95_libc_symbol` -/
def c95LibcSymbol : String → String → String → Check := standardLibcSymbol .c95

/-- `yalibct_check_c89_libc_symbol` -/
def c89LibcSymbol : String → String → String → Check := standardLibcSymbol .c89

/-- `yalibct_check_posix_libc_symbol` -/
def posixLibcSymbol : String → String → String → Check := standardLibcSymbol .posix

/-- `yalibct_check_posix_libc_struct_has_member` -/
def posixLibcStructHasMember (struct member headers macroName : String) : Check :=
  ⟨.libcStructHasMember struct member headers, macroName, some .posix⟩

end Check

/-! ## Programs, without the comments that they start with -/

def sameLongDoubleAsDouble : String :=
  "\n#include <float.h>\n" ++
  "typedef int check[sizeof (long double) == sizeof (double)\n" ++
  "                              && LDBL_MANT_DIG == DBL_MANT_DIG\n" ++
  "                              && LDBL_MAX_EXP == DBL_MAX_EXP\n" ++
  "                              && LDBL_MIN_EXP == DBL_MIN_EXP\n" ++
  "                              ? 1 : -1];\n" ++
  "\nint main()\x7b\x7d\n  "

def memcpyChk : String :=
  "\n#include <stddef.h>\n" ++
  "void *__memcpy_chk(void *dest, const void *src, size_t len, size_t destlen);\n" ++
  "void *memcpy_chk_ptr = __memcpy_chk;\n" ++
  "\nint main()\x7breturn !memcpy_chk_ptr;\x7d\n  "

def libBcrypt : String :=
  "\n\n#include <windows.h>\n" ++
  "#if !(_WIN32_WINNT >= _WIN32_WINNT_WIN7)\n" ++
  "  cannot assume it\n" ++
  "#endif\n" ++
  "\nint main()\x7b\x7d\n  "

/-! ## The script -/

/-- The options with the options that their defaults are taken from. -/
def cmakeOptions : List (String × Option String) :=
  [("YALIBCT_DISABLE_ALL_POSSIBLE_TESTS", none),
   ("YALIBCT_DISABLE_C89_TESTS", some "YALIBCT_DISABLE_ALL_POSSIBLE_TESTS"),
   ("YALIBCT_DISABLE_MANDATING_C89_SYMBOLS", some "YALIBCT_DISABLE_C89_TESTS"),
   ("YALIBCT_DISABLE_LONG_DOUBLE_TESTS", some "YALIBCT_DISABLE_C89_TESTS"),
   ("YALIBCT_DISABLE_PRINTF_C_CONVERSION_SPECIFIER_TESTS", some "YALIBCT_DISABLE_C89_TESTS"),
   ("YALIBCT_DISABLE_PRINTF_I_CONVERSION_SPECIFIER_TESTS", some "YALIBCT_DISABLE_C89_TESTS"),
   ("YALIBCT_DISABLE_PRINTF_PRECISION_TESTS", some "YALIBCT_DISABLE_C89_TESTS"),
   ("YALIBCT_DISABLE_PRINTF_PRECISION_ON_WIDE_S_CONVERSION_SPECIFIER_TESTS",
     some "YALIBCT_DISABLE_PRINTF_PRECISION_TESTS"),
   ("YALIBCT_DISABLE_PRINTF_PRECISION_ON_WIDE_C_CONVERSION_SPECIFIER_TESTS",
     some "YALIBCT_DISABLE_PRINTF_PRECISION_TESTS"),
   ("YALIBCT_DISABLE_PRINTF_0_FLAG_TESTS", some "YALIBCT_DISABLE_C89_TESTS"),
   ("YALIBCT_DISABLE_PRINTF_LOWERCASE_F_CONVERSION_SPECIFIER_TESTS", some "YALIBCT_DISABLE_C89_TESTS"),
   ("YALIBCT_DISABLE_PRINTF_N_CONVERSION_SPECIFIER_TESTS", some "YALIBCT_DISABLE_C89_TESTS"),
   ("YALIBCT_DISABLE_PRINTF_HASH_FLAG_TESTS", some "YALIBCT_DISABLE_C89_TESTS"),
   ("YALIBCT_DISABLE_PRINTF_UPPERCASE_L_LENGTH_MODIFIER_TESTS", some "YALIBCT_DISABLE_LONG_DOUBLE_TESTS"),
   ("YALIBCT_DISABLE_PRINTF_G_CONVERSION_SPECIFIER_TESTS", some "YALIBCT_DISABLE_C89_TESTS"),
   ("YALIBCT_DISABLE_PRINTF_E_CONVERSION_SPECIFIER_TESTS", some "YALIBCT_DISABLE_C89_TESTS"),
   ("YALIBCT_DISABLE_PRINTF_H_LENGTH_MODIFIER_TESTS", some "YALIBCT_DISABLE_C89_TESTS"),
   ("YALIBCT_DISABLE_PRINTF_LOWERCASE_L_LENGTH_MODIFIER_TESTS", some "YALIBCT_DISABLE_C89_TESTS"),
   ("YALIBCT_DISABLE_PRINTF_UPPERCASE_X_CONVERSION_SPECIFIER_TESTS", some "YALIBCT_DISABLE_C89_TESTS"),
   ("YALIBCT_DISABLE_PRINTF_MINUS_FLAG_TESTS", some "YALIBCT_DISABLE_C89_TESTS"),
   ("YALIBCT_DISABLE_PRINTF_PLUS_FLAG_WITH_S_CONVERSION_SPECIFIER_TESTS", some "YALIBCT_DISABLE_C89_TESTS"),
   ("YALIBCT_DISABLE_PRINTF_PLUS_FLAG_WITH_C_CONVERSION_SPECIFIER_TESTS", some "YALIBCT_DISABLE_C89_TESTS"),
   ("YALIBCT_DISABLE_PRINTF_FIELD_WIDTH_TESTS", some "YALIBCT_DISABLE_C89_TESTS"),
   ("YALIBCT_DISABLE_PRINTF_FIELD_WIDTH_ON_S_CONVERSION_SPECIFIER_TESTS",
     some "YALIBCT_DISABLE_PRINTF_FIELD_WIDTH_TESTS"),
   ("YALIBCT_DISABLE_PRINTF_FIELD_WIDTH_ON_WIDE_S_CONVERSION_SPECIFIER_TESTS",
     some "YALIBCT_DISABLE_PRINTF_FIELD_WIDTH_ON_S_CONVERSION_SPECIFIER_TESTS"),
   ("YALIBCT_DISABLE_PRINTF_FIELD_WIDTH_ON_WIDE_C_CONVERSION_SPECIFIER_TESTS",
     some "YALIBCT_DISABLE_PRINTF_FIELD_WIDTH_ON_S_CONVERSION_SPECIFIER_TESTS"),
   ("YALIBCT_DISABLE_PRINTF_S_CONVERSION_SPECIFIER_TESTS", some "YALIBCT_DISABLE_C89_TESTS"),
   ("YALIBCT_DISABLE_PRINTF_OUTPUT_ERROR_RETURN_VALUE_TESTS", some "YALIBCT_DISABLE_C89_TESTS"),
   ("YALIBCT_DISABLE_SCANF_LOWERCASE_F_CONVERSION_SPECIFIER_TESTS", some "YALIBCT_DISABLE_C89_TESTS"),
   ("YALIBCT_DISABLE_SCANF_LOWERCASE_X_CONVERSION_SPECIFIER_TESTS", some "YALIBCT_DISABLE_C89_TESTS"),
   ("YALIBCT_DISABLE_SCANF_LEFT_SQUARE_BRACKET_CONVERSION_SPECIFIER_TESTS", some "YALIBCT_DISABLE_C89_TESTS"),
   ("YALIBCT_WORK_AROUND_NAMESPACE_VIOLATIONS", some "YALIBCT_DISABLE_C89_TESTS"),
   ("YALIBCT_DISABLE_C95_TESTS", some "YALIBCT_DISABLE_C89_TESTS"),
   ("YALIBCT_DISABLE_MANDATING_C95_SYMBOLS", some "YALIBCT_DISABLE_C95_TESTS"),
   ("YALIBCT_DISABLE_PRINTF_L_FLAG_ON_C_CONVERSION_SPECIFIER_TESTS", some "YALIBCT_DISABLE_C95_TESTS"),
   ("YALIBCT_DISABLE_PRINTF_L_FLAG_ON_S_CONVERSION_SPECIFIER_TESTS", some "YALIBCT_DISABLE_C95_TESTS"),
   ("YALIBCT_DISABLE_C99_TESTS", some "YALIBCT_DISABLE_C95_TESTS"),
   ("YALIBCT_DISABLE_MANDATING_C99_SYMBOLS", some "YALIBCT_DISABLE_C99_TESTS"),
   ("YALIBCT_DISABLE_PRINTF_A_CONVERSION_SPECIFIER_TESTS", some "YALIBCT_DISABLE_C99_TESTS"),
   ("YALIBCT_DISABLE_PRINTF_T_LENGTH_MODIFIER_TESTS", some "YALIBCT_DISABLE_C99_TESTS"),
   ("YALIBCT_DISABLE_PRINTF_HH_LENGTH_MODIFIER_TESTS", some "YALIBCT_DISABLE_C99_TESTS"),
   ("YALIBCT_DISABLE_SNPRINTF_SIZE_LARGER_THAN_ACTUAL_BUFFER_TESTS", some "YALIBCT_DISABLE_C99_TESTS"),
   ("YALIBCT_DISABLE_SCANF_J_LENGTH_MODIFIER_TESTS", some "YALIBCT_DISABLE_C99_TESTS"),
   ("YALIBCT_DISABLE_SCANF_Z_LENGTH_MODIFIER_TESTS", some "YALIBCT_DISABLE_C99_TESTS"),
   ("YALIBCT_DISABLE_SCANF_T_LENGTH_MODIFIER_TESTS", some "YALIBCT_DISABLE_C99_TESTS"),
   ("YALIBCT_DISABLE_SCANF_P_CONVERSION_SPECIFIER_TESTS", some "YALIBCT_DISABLE_C99_TESTS"),
   ("YALIBCT_DISABLE_C11_TESTS", some "YALIBCT_DISABLE_C99_TESTS"),
   ("YALIBCT_DISABLE_MANDATING_C11_SYMBOLS", some "YALIBCT_DISABLE_C11_TESTS"),
   ("YALIBCT_DISABLE_C23_TESTS", some "YALIBCT_DISABLE_C11_TESTS"),
   ("YALIBCT_DISABLE_MANDATING_C23_SYMBOLS", some "YALIBCT_DISABLE_C23_TESTS"),
   ("YALIBCT_DISABLE_PRINTF_LOWERCASE_B_CONVERSION_SPECIFIER_TESTS", some "YALIBCT_DISABLE_C23_TESTS"),
   ("YALIBCT_DISABLE_PRINTF_UPPERCASE_B_CONVERSION_SPECIFIER_TESTS", some "YALIBCT_DISABLE_C23_TESTS"),
   ("YALIBCT_DISABLE_POSIX_TESTS", some "YALIBCT_DISABLE_ALL_POSSIBLE_TESTS"),
   ("YALIBCT_DISABLE_MANDATING_POSIX_SYMBOLS", some "YALIBCT_DISABLE_POSIX_TESTS"),
   ("YALIBCT_DISABLE_PRINTF_APOSTROPHE_FLAG_TESTS", some "YALIBCT_DISABLE_POSIX_TESTS"),
   ("YALIBCT_DISABLE_PRINTF_UPPERCASE_C_CONVERSION_SPECIFIER_TESTS", some "YALIBCT_DISABLE_POSIX_TESTS"),
   ("YALIBCT_DISABLE_PRINTF_UPPERCASE_S_CONVERSION_SPECIFIER_TESTS", some "YALIBCT_DISABLE_POSIX_TESTS"),
   ("YALIBCT_DISABLE_PRINTF_NUMBERED_ARGUMENTS_TESTS", some "YALIBCT_DISABLE_POSIX_TESTS"),
   ("YALIBCT_DISABLE_PRINTF_ERRNO_TESTS", some "YALIBCT_DISABLE_POSIX_TESTS"),
   ("YALIBCT_DISABLE_SCANF_NUMBERED_ARGUMENTS_TESTS", some "YALIBCT_DISABLE_POSIX_TESTS"),
   ("YALIBCT_DISABLE_ALL_NON_STANDARD_TESTS", some "YALIBCT_DISABLE_ALL_POSSIBLE_TESTS"),
   ("YALIBCT_DISABLE_ALL_NON_STANDARD_LOCALE_TESTS", some "YALIBCT_DISABLE_ALL_NON_STANDARD_TESTS"),
   ("YALIBCT_DISABLE_RARE_LOCALE_TESTS", some "YALIBCT_DISABLE_ALL_NON_STANDARD_LOCALE_TESTS"),
   ("YALIBCT_DISABLE_PRINTF_ROUNDING_DIRECTION_TESTS", some "YALIBCT_DISABLE_ALL_NON_STANDARD_TESTS"),
   ("YALIBCT_DISABLE_LC_NUMERIC_TESTS", some "YALIBCT_DISABLE_ALL_NON_STANDARD_TESTS"),
   ("YALIBCT_DISABLE_DEFAULT_UTF_8_LOCALE_TESTS", some "YALIBCT_DISABLE_ALL_NON_STANDARD_TESTS")]

/-- The options that are passed on to the compiler. -/
def trackedMacros : List String :=
  ["YALIBCT_DISABLE_LC_NUMERIC_TESTS",
   "YALIBCT_DISABLE_PRINTF_ROUNDING_DIRECTION_TESTS",
   "YALIBCT_DISABLE_RARE_LOCALE_TESTS",
   "YALIBCT_DISABLE_PRINTF_LOWERCASE_B_CONVERSION_SPECIFIER_TESTS",
   "YALIBCT_DISABLE_PRINTF_UPPERCASE_B_CONVERSION_SPECIFIER_TESTS",
   "YALIBCT_DISABLE_PRINTF_E_CONVERSION_SPECIFIER_TESTS",
   "YALIBCT_DISABLE_PRINTF_G_CONVERSION_SPECIFIER_TESTS",
   "YALIBCT_DISABLE_PRINTF_UPPERCASE_L_LENGTH_MODIFIER_TESTS",
   "YALIBCT_DISABLE_PRINTF_A_CONVERSION_SPECIFIER_TESTS",
   "YALIBCT_DISABLE_PRINTF_NUMBERED_ARGUMENTS_TESTS",
   "YALIBCT_DISABLE_PRINTF_UPPERCASE_S_CONVERSION_SPECIFIER_TESTS",
   "YALIBCT_DISABLE_PRINTF_HASH_FLAG_TESTS",
   "YALIBCT_DISABLE_PRINTF_L_FLAG_ON_S_CONVERSION_SPECIFIER_TESTS",
   "YALIBCT_DISABLE_PRINTF_N_CONVERSION_SPECIFIER_TESTS",
   "YALIBCT_DISABLE_PRINTF_UPPERCASE_C_CONVERSION_SPECIFIER_TESTS",
   "YALIBCT_DISABLE_PRINTF_LOWERCASE_F_CONVERSION_SPECIFIER_TESTS",
   "YALIBCT_DISABLE_PRINTF_0_FLAG_TESTS",
   "YALIBCT_DISABLE_PRINTF_L_FLAG_ON_C_CONVERSION_SPECIFIER_TESTS",
   "YALIBCT_DISABLE_ALL_NON_STANDARD_LOCALE_TESTS",
   "YALIBCT_DISABLE_PRINTF_HH_LENGTH_MODIFIER_TESTS",
   "YALIBCT_DISABLE_PRINTF_PRECISION_TESTS",
   "YALIBCT_DISABLE_PRINTF_T_LENGTH_MODIFIER_TESTS",
   "YALIBCT_DISABLE_PRINTF_APOSTROPHE_FLAG_TESTS",
   "YALIBCT_DISABLE_PRINTF_C_CONVERSION_SPECIFIER_TESTS",
   "YALIBCT_DISABLE_SCANF_LOWERCASE_F_CONVERSION_SPECIFIER_TESTS",
   "YALIBCT_DISABLE_SCANF_J_LENGTH_MODIFIER_TESTS",
   "YALIBCT_DISABLE_SCANF_Z_LENGTH_MODIFIER_TESTS",
   "YALIBCT_DISABLE_SCANF_T_LENGTH_MODIFIER_TESTS",
   "YALIBCT_DISABLE_SCANF_P_CONVERSION_SPECIFIER_TESTS",
   "YALIBCT_DISABLE_PRINTF_ERRNO_TESTS",
   "YALIBCT_DISABLE_PRINTF_H_LENGTH_MODIFIER_TESTS",
   "YALIBCT_DISABLE_SCANF_NUMBERED_ARGUMENTS_TESTS",
   "YALIBCT_DISABLE_PRINTF_UPPERCASE_X_CONVERSION_SPECIFIER_TESTS",
   "YALIBCT_DISABLE_PRINTF_MINUS_FLAG_TESTS",
   "YALIBCT_DISABLE_SCANF_LOWERCASE_X_CONVERSION_SPECIFIER_TESTS",
   "YALIBCT_DISABLE_PRINTF_PLUS_FLAG_WITH_S_CONVERSION_SPECIFIER_TESTS",
   "YALIBCT_DISABLE_PRINTF_PLUS_FLAG_WITH_C_CONVERSION_SPECIFIER_TESTS",
   "YALIBCT_DISABLE_SCANF_LEFT_SQUARE_BRACKET_CONVERSION_SPECIFIER_TESTS",
   "YALIBCT_DISABLE_PRINTF_FIELD_WIDTH_ON_S_CONVERSION_SPECIFIER_TESTS",
   "YALIBCT_DISABLE_PRINTF_S_CONVERSION_SPECIFIER_TESTS",
   "YALIBCT_DISABLE_PRINTF_OUTPUT_ERROR_RETURN_VALUE_TESTS",
   "YALIBCT_WORK_AROUND_NAMESPACE_VIOLATIONS",
   "YALIBCT_DISABLE_LONG_DOUBLE_TESTS",
   "YALIBCT_DISABLE_DEFAULT_UTF_8_LOCALE_TESTS",
   "YALIBCT_DISABLE_SNPRINTF_SIZE_LARGER_THAN_ACTUAL_BUFFER_TESTS",
   "YALIBCT_DISABLE_PRINTF_I_CONVERSION_SPECIFIER_TESTS",
   "YALIBCT_DISABLE_PRINTF_LOWERCASE_L_LENGTH_MODIFIER_TESTS",
   "YALIBCT_DISABLE_PRINTF_FIELD_WIDTH_TESTS",
   "YALIBCT_DISABLE_PRINTF_PRECISION_ON_WIDE_S_CONVERSION_SPECIFIER_TESTS",
   "YALIBCT_DISABLE_PRINTF_PRECISION_ON_WIDE_C_CONVERSION_SPECIFIER_TESTS",
   "YALIBCT_DISABLE_PRINTF_FIELD_WIDTH_ON_WIDE_S_CONVERSION_SPECIFIER_TESTS",
   "YALIBCT_DISABLE_PRINTF_FIELD_WIDTH_ON_WIDE_C_CONVERSION_SPECIFIER_TESTS"]

def libcChecks : List Check :=
  [.includeFile "hedley.h" "YALIBCT_DOESNT_HAVE_SYSTEM_HEDLEY_H",
   .includeFile "obstack.h" "YALIBCT_LIBC_DOESNT_HAVE_OBSTACK_H",
   .includeFile "sys/cdefs.h" "YALIBCT_LIBC_DOESNT_HAVE_SYS_CDEFS_H",
   .includeFile "signal.h" "YALIBCT_LIBC_DOESNT_HAVE_SIGNAL_H",
   .includeFile "sys/mman.h" "YALIBCT_LIBC_DOESNT_HAVE_SYS_MMAN_H",
   .includeFile "sys/vfs.h" "YALIBCT_LIBC_DOESNT_HAVE_SYS_VFS_H",
   .libcSymbol "vstrdupf" "string.h" "YALIBCT_LIBC_DOESNT_HAVE_VSTRDUPF",
   .libcSymbol "memchr_inv" "string.h" "YALIBCT_LIBC_DOESNT_HAVE_MEMCHR_INV",
   .c99LibcSymbol "NAN" "math.h" "YALIBCT_LIBC_DOESNT_HAVE_NAN",
   .posixLibcSymbol "fcvt" "stdlib.h" "YALIBCT_LIBC_DOESNT_HAVE_FCVT",
   .posixLibcSymbol "ecvt" "stdlib.h" "YALIBCT_LIBC_DOESNT_HAVE_ECVT",
   .libcSymbol "xmalloc" "xalloc.h" "YALIBCT_LIBC_DOESNT_HAVE_XMALLOC",
   .libcSymbol "error" "error.h" "YALIBCT_LIBC_DOESNT_HAVE_ERROR",
   .libcSymbol "getprogname" "stdlib.h" "YALIBCT_LIBC_DOESNT_HAVE_GETPROGNAME",
   .libcSymbol "program_invocation_short_name" "errno.h"
     "YALIBCT_LIBC_DOESNT_HAVE_PROGRAM_INVOCATION_SHORT_NAME",
   .libcSymbol "program_invocation_name" "errno.h" "YALIBCT_LIBC_DOESNT_HAVE_PROGRAM_INVOCATION_NAME",
   .libcSymbol "getexecname" "stdlib.h" "YALIBCT_LIBC_DOESNT_HAVE_GETEXECNAME",
   .libcSymbol "__argv" "stdlib.h" "YALIBCT_LIBC_DOESNT_HAVE___ARGV",
   .libcSymbol "__progname" "stdlib.h" "YALIBCT_LIBC_DOESNT_HAVE___PROGNAME",
   .libcSymbol "mtrace" "mcheck.h" "YALIBCT_LIBC_DOESNT_HAVE_MTRACE",
   .libcSymbol "mcheck_pedantic" "mcheck.h" "YALIBCT_LIBC_DOESNT_HAVE_MCHECK_PEDANTIC",
   .libcSymbol "mcheck_check_all" "mcheck.h" "YALIBCT_LIBC_DOESNT_HAVE_MCHECK_CHECK_ALL",
   .c95LibcSymbol "vswprintf" "wchar.h;stdio.h" "YALIBCT_LIBC_DOESNT_HAVE_VSWPRINTF",
   .c95LibcSymbol "fwprintf" "wchar.h;stdio.h" "YALIBCT_LIBC_DOESNT_HAVE_FWPRINTF",
   .c95LibcSymbol "swprintf" "wchar.h;stdio.h" "YALIBCT_LIBC_DOESNT_HAVE_SWPRINTF",
   .c95LibcSymbol "vfwprintf" "wchar.h;stdio.h" "YALIBCT_LIBC_DOESNT_HAVE_VFWPRINTF",
   .c99LibcSymbol "fesetround" "fenv.h" "YALIBCT_LIBC_DOESNT_HAVE_FESETROUND",
   .c99LibcSymbol "INFINITY" "math.h" "YALIBCT_LIBC_DOESNT_HAVE_INFINITY",
   .posixLibcSymbol "NL_ARGMAX" "limits.h" "YALIBCT_LIBC_DOESNT_HAVE_NL_ARGMAX",
   .c11LibcSymbol "static_assert" "assert.h" "YALIBCT_LIBC_DOESNT_HAVE_STATIC_ASSERT",
   .c99LibcSymbol "fegetround" "fenv.h" "YALIBCT_LIBC_DOESNT_HAVE_FEGETROUND",
   .libcSymbol "printf_size" "printf.h" "YALIBCT_LIBC_DOESNT_HAVE_PRINTF_SIZE",
   .libcSymbol "__builtin_printf" "stddef.h" "YALIBCT_LIBC_DOESNT_HAVE___BUILTIN_PRINTF",
   .libcSymbol "__builtin_putchar" "stddef.h" "YALIBCT_LIBC_DOESNT_HAVE___BUILTIN_PUTCHAR",
   .libcSymbol "__builtin_puts" "stddef.h" "YALIBCT_LIBC_DOESNT_HAVE___BUILTIN_PUTS",
   .libcSymbol "__builtin_printf_unlocked" "stddef.h" "YALIBCT_LIBC_DOESNT_HAVE___BUILTIN_PRINTF_UNLOCKED",
   .libcSymbol "printf_unlocked" "stdio.h" "YALIBCT_LIBC_DOESNT_HAVE_PRINTF_UNLOCKED",
   .c89LibcSymbol "ldexp" "math.h" "YALIBCT_LIBC_DOESNT_HAVE_LDEXP",
   .c89LibcSymbol "log" "math.h" "YALIBCT_LIBC_DOESNT_HAVE_LOG",
   .c89LibcSymbol "pow" "math.h" "YALIBCT_LIBC_DOESNT_HAVE_POW",
   .c89LibcSymbol "exp" "math.h" "YALIBCT_LIBC_DOESNT_HAVE_EXP",
   .c89LibcSymbol "floor" "math.h" "YALIBCT_LIBC_DOESNT_HAVE_FLOOR",
   .c89LibcSymbol "frexp" "math.h" "YALIBCT_LIBC_DOESNT_HAVE_FREXP",
   .c95LibcSymbol "wcsncmp" "wchar.h" "YALIBCT_LIBC_DOESNT_HAVE_WCSNCMP",
   .libcSymbol "alignalloc" "alignalloc.h" "YALIBCT_LIBC_DOESNT_HAVE_ALIGNALLOC",
   .c23LibcSymbol "ckd_add" "stdckdint.h" "YALIBCT_LIBC_DOESNT_HAVE_CKD_ADD",
   .c11LibcSymbol "alignof" "stdalign.h" "YALIBCT_LIBC_DOESNT_HAVE_ALIGNOF",
   .libcSymbol "__builtin_abort" "stddef.h" "YALIBCT_LIBC_DOESNT_HAVE___BUILTIN_ABORT",
   .libcSymbol "gettid" "unistd.h" "YALIBCT_LIBC_DOESNT_HAVE_GETTID",
   .libcSymbol "__STRING" "sys/cdefs.h" "YALIBCT_LIBC_DOESNT_HAVE___STRING",
   .posixLibcSymbol "strnlen" "string.h" "YALIBCT_LIBC_DOESNT_HAVE_STRNLEN",
   .c89LibcSymbol "memchr" "string.h" "YALIBCT_LIBC_DOESNT_HAVE_MEMCHR",
   .posixLibcSymbol "vdprintf" "stdio.h" "YALIBCT_LIBC_DOESNT_HAVE_VDPRINTF",
   .posixLibcSymbol "dprintf" "stdio.h" "YALIBCT_LIBC_DOESNT_HAVE_DPRINTF",
   .libcSymbol "alloca" "alloca.h" "YALIBCT_LIBC_DOESNT_HAVE_ALLOCA",
   .c99LibcSymbol "mbrtowc" "wchar.h" "YALIBCT_LIBC_DOESNT_HAVE_MBRTOWC",
   .c99LibcSymbol "wcrtomb" "wchar.h" "YALIBCT_LIBC_DOESNT_HAVE_WCRTOMB",
   .libcSymbol "full_write" "full-write.h" "YALIBCT_LIBC_DOESNT_HAVE_FULL_WRITE",
   .libcSymbol "SYS_BUFSIZE_MAX" "sys-limits.h" "YALIBCT_LIBC_DOESNT_HAVE_SYS_BUFSIZE_MAX",
   .posixLibcSymbol "siglongjmp" "setjmp.h" "YALIBCT_LIBC_DOESNT_HAVE_SIGLONGJMP",
   .posixLibcSymbol "strsignal" "string.h" "YALIBCT_LIBC_DOESNT_HAVE_STRSIGNAL",
   .libcSymbol "zerosize_ptr" "zerosize-ptr.h" "YALIBCT_LIBC_DOESNT_HAVE_ZEROSIZE_PTR",
   .posixLibcSymbol "mmap" "sys/mman.h" "YALIBCT_LIBC_DOESNT_HAVE_MMAP",
   .posixLibcSymbol "mprotect" "sys/mman.h" "YALIBCT_LIBC_DOESNT_HAVE_MPROTECT",
   .c95LibcSymbol "wcscmp" "wchar.h" "YALIBCT_LIBC_DOESNT_HAVE_WCSCMP",
   .posixLibcSymbol "open_memstream" "stdio.h" "YALIBCT_LIBC_DOESNT_HAVE_OPEN_MEMSTREAM",
   .posixLibcSymbol "wcscasecmp" "wchar.h" "YALIBCT_LIBC_DOESNT_HAVE_WCSCASECMP",
   .posixLibcSymbol "strcasecmp" "strings.h" "YALIBCT_LIBC_DOESNT_HAVE_STRCASECMP",
   .libcSymbol "gettext" "libintl.h" "YALIBCT_LIBC_DOESNT_HAVE_GETTEXT",
   .c89LibcSymbol "tmpnam" "stdio.h" "YALIBCT_LIBC_DOESNT_HAVE_TMPNAM",
   .libcSymbol "MIN" "sys/param.h" "YALIBCT_LIBC_DOESNT_HAVE_MIN",
   .libcSymbol "MAX" "sys/param.h" "YALIBCT_LIBC_DOESNT_HAVE_MAX",
   .c99LibcSymbol "SCNdFAST16" "inttypes.h" "YALIBCT_LIBC_DOESNT_HAVE_SCNDFAST16",
   .c89LibcSymbol "fgetc" "stdio.h" "YALIBCT_LIBC_DOESNT_HAVE_FGETC",
   .posixLibcStructHasMember "struct stat" "st_atim" "sys/stat.h"
     "YALIBCT_LIBC_DOESNT_HAVE_STRUCT_STAT_ST_ATIM",
   .posixLibcStructHasMember "struct stat" "st_mtim" "sys/stat.h"
     "YALIBCT_LIBC_DOESNT_HAVE_STRUCT_STAT_ST_MTIM",
   .posixLibcStructHasMember "struct stat" "st_ctim" "sys/stat.h"
     "YALIBCT_LIBC_DOESNT_HAVE_STRUCT_STAT_ST_CTIM",
   .libcSymbol "optreset" "unistd.h" "YALIBCT_LIBC_DOESNT_HAVE_OPTRESET",
   .libcSymbol "fts_open" "fts.h" "YALIBCT_LIBC_DOESNT_HAVE_FTS_OPEN",
   .libcTypeExists "FTS" "fts.h" "YALIBCT_LIBC_DOESNT_HAVE_FTS",
   .libcTypeExists "FTSENT" "fts.h" "YALIBCT_LIBC_DOESNT_HAVE_FTSENT",
   .libcTypeExists "struct stat64" "sys/stat.h" "YALIBCT_LIBC_DOESNT_HAVE_STRUCT_STAT64",
   .posixLibcSymbol "O_SEARCH" "fcntl.h" "YALIBCT_LIBC_DOESNT_HAVE_O_SEARCH",
   .libcSymbol "fts_read" "fts.h" "YALIBCT_LIBC_DOESNT_HAVE_FTS_READ",
   .libcTypeExists "__fsword_t" "sys/vfs.h" "YALIBCT_LIBC_DOESNT_HAVE___FSWORD_T",
   .libcSymbol "fstatfs" "sys/vfs.h" "YALIBCT_LIBC_DOESNT_HAVE_FSTATFS",
   .libcStructHasMember "struct statfs" "f_type" "sys/vfs.h" "YALIBCT_LIBC_DOESNT_HAVE_STRUCT_STATFS_F_TYPE",
   .libcStructHasMember "struct dirent" "d_type" "dirent.h" "YALIBCT_LIBC_DOESNT_HAVE_STRUCT_DIRENT_D_TYPE",
   .libcSymbol "fts_set" "fts.h" "YALIBCT_LIBC_DOESNT_HAVE_FTS_SET",
   .libcSymbol "chflags" "unistd.h" "YALIBCT_LIBC_DOESNT_HAVE_CHFLAGS",
   .libcSymbol "fts_close" "fts.h" "YALIBCT_LIBC_DOESNT_HAVE_FTS_CLOSE",
   .posixLibcSymbol "UTIME_NOW" "sys/stat.h" "YALIBCT_LIBC_DOESNT_HAVE_UTIME_NOW",
   .posixLibcSymbol "UTIME_OMIT" "sys/stat.h" "YALIBCT_LIBC_DOESNT_HAVE_UTIME_OMIT",
   .c89LibcSymbol "fopen" "stdio.h" "YALIBCT_LIBC_DOESNT_HAVE_FOPEN",
   .libcSymbol "mallopt" "malloc.h" "YALIBCT_LIBC_DOESNT_HAVE_MALLOPT",
   .libcSymbol "M_PERTURB" "malloc.h" "YALIBCT_LIBC_DOESNT_HAVE_M_PERTURB",
   .libcTypeExists "struct obstack" "obstack.h" "YALIBCT_LIBC_DOESNT_HAVE_STRUCT_OBSTACK",
   .libcSymbol "TEMP_FAILURE_RETRY" "unistd.h" "YALIBCT_LIBC_DOESNT_HAVE_TEMP_FAILURE_RETRY",
   .libcSymbol "obstack_init" "obstack.h" "YALIBCT_LIBC_DOESNT_HAVE_OBSTACK_INIT",
   .libcSymbol "obstack_printf" "stdio.h" "YALIBCT_LIBC_DOESNT_HAVE_OBSTACK_PRINTF",
   .libcSymbol "obstack_next_free" "obstack.h" "YALIBCT_LIBC_DOESNT_HAVE_OBSTACK_NEXT_FREE",
   .libcSymbol "obstack_room" "obstack.h" "YALIBCT_LIBC_DOESNT_HAVE_OBSTACK_ROOM",
   .libcSymbol "obstack_alloc_failed_handler" "obstack.h"
     "YALIBCT_LIBC_DOESNT_HAVE_OBSTACK_ALLOC_FAILED_HANDLER",
   .libcSymbol "obstack_blank_fast" "obstack.h" "YALIBCT_LIBC_DOESNT_HAVE_OBSTACK_BLANK_FAST",
   .libcSymbol "obstack_grow" "obstack.h" "YALIBCT_LIBC_DOESNT_HAVE_OBSTACK_GROW",
   .libcSymbol "obstack_finish" "obstack.h" "YALIBCT_LIBC_DOESNT_HAVE_OBSTACK_FINISH",
   .libcSymbol "fstat64" "sys/stat.h" "YALIBCT_LIBC_DOESNT_HAVE_FSTAT64",
   .libcSymbol "getopt_long" "getopt.h" "YALIBCT_LIBC_DOESNT_HAVE_GETOPT_LONG",
   .libcTypeExists "struct option" "getopt.h" "YALIBCT_LIBC_DOESNT_HAVE_STRUCT_OPTION",
   .posixLibcSymbol "optopt" "unistd.h" "YALIBCT_LIBC_DOESNT_HAVE_OPTOPT",
   .posixLibcSymbol "optind" "unistd.h" "YALIBCT_LIBC_DOESNT_HAVE_OPTIND",
   .posixLibcSymbol "opterr" "unistd.h" "YALIBCT_LIBC_DOESNT_HAVE_OPTERR",
   .posixLibcSymbol "optarg" "unistd.h" "YALIBCT_LIBC_DOESNT_HAVE_OPTARG",
   .libcSymbol "obstack_free" "obstack.h" "YALIBCT_LIBC_DOESNT_HAVE_OBSTACK_FREE",
   .libcSymbol "obstack_alloc" "obstack.h" "YALIBCT_LIBC_DOESNT_HAVE_OBSTACK_ALLOC",
   .libcSymbol "obstack_blank" "obstack.h" "YALIBCT_LIBC_DOESNT_HAVE_OBSTACK_BLANK",
   .libcSymbol "statx" "sys/stat.h" "YALIBCT_LIBC_DOESNT_HAVE_STATX",
   .libcSymbol "open64" "fcntl.h" "YALIBCT_LIBC_DOESNT_HAVE_OPEN64",
   .c89LibcSymbol "L_tmpnam" "stdio.h" "YALIBCT_LIBC_DOESNT_HAVE_L_TMPNAM",
   .libcSymbol "secure_getenv" "stdlib.h" "YALIBCT_LIBC_DOESNT_HAVE_SECURE_GETENV",
   .libcSymbol "__secure_getenv" "stdlib.h" "YALIBCT_LIBC_DOESNT_HAVE___SECURE_GETENV",
   .libcSymbol "issetugid" "unistd.h" "YALIBCT_LIBC_DOESNT_HAVE_ISSETUGID",
   .posixLibcSymbol "getuid" "unistd.h" "YALIBCT_LIBC_DOESNT_HAVE_GETUID",
   .posixLibcSymbol "geteuid" "unistd.h" "YALIBCT_LIBC_DOESNT_HAVE_GETEUID",
   .posixLibcSymbol "getgid" "unistd.h" "YALIBCT_LIBC_DOESNT_HAVE_GETGID",
   .posixLibcSymbol "getegid" "unistd.h" "YALIBCT_LIBC_DOESNT_HAVE_GETEGID",
   .libcSymbol "P_tmpdir" "stdio.h" "YALIBCT_LIBC_DOESNT_HAVE_P_TMPDIR",
   .libcSymbol "__glibc_unlikely" "sys/cdefs.h" "YALIBCT_LIBC_DOESNT_HAVE___GLIBC_UNLIKELY",
   .libcSymbol "getrandom" "sys/random.h" "YALIBCT_LIBC_DOESNT_HAVE_GETRANDOM",
   .libcSymbol "GRND_RANDOM" "sys/random.h" "YALIBCT_LIBC_DOESNT_HAVE_GRND_RANDOM",
   .libcSymbol "GRND_NONBLOCK" "sys/random.h" "YALIBCT_LIBC_DOESNT_HAVE_GRND_NONBLOCK",
   .posixLibcSymbol "CLOCK_REALTIME" "time.h" "YALIBCT_LIBC_DOESNT_HAVE_CLOCK_REALTIME",
   .posixLibcSymbol "clock_gettime" "time.h" "YALIBCT_LIBC_DOESNT_HAVE_CLOCK_GETTIME",
   .c99LibcSymbol "snprintf" "stdio.h" "YALIBCT_LIBC_DOESNT_HAVE_SNPRINTF",
   .posixLibcSymbol "sbrk" "unistd.h" "YALIBCT_LIBC_DOESNT_HAVE_SBRK",
   .libcSymbol "syscall" "unistd.h;sys/syscall.h" "YALIBCT_LIBC_DOESNT_HAVE_SYSCALL",
   .posixLibcSymbol "getopt" "unistd.h" "YALIBCT_LIBC_DOESNT_HAVE_GETOPT",
   .libcSymbol "no_argument" "getopt.h" "YALIBCT_LIBC_DOESNT_HAVE_NO_ARGUMENT",
   .libcSymbol "required_argument" "getopt.h" "YALIBCT_LIBC_DOESNT_HAVE_REQUIRED_ARGUMENT",
   .c89LibcSymbol "printf" "stdio.h" "YALIBCT_LIBC_DOESNT_HAVE_PRINTF",
   .posixLibcSymbol "fstatat" "sys/stat.h" "YALIBCT_LIBC_DOESNT_HAVE_FSTATAT",
   .libcSymbol "__GNUC_PREREQ" "features.h" "YALIBCT_LIBC_DOESNT_HAVE___GNUC_PREREQ",
   .sourceCompiles sameLongDoubleAsDouble "YALIBCT_LIBC_DOESNT_HAVE_SAME_LONG_DOUBLE_AS_DOUBLE",
   .sourceCompiles memcpyChk "YALIBCT_LIBC_DOESNT_HAVE___MEMCPY_CHK",
   .sourceCompiles libBcrypt "YALIBCT_LIBC_DOESNT_HAVE_LIB_BCRYPT"]

def cmakeLists : Script where
  options := cmakeOptions
  tracked := trackedMacros
  checks := libcChecks
  mandating standard := by
    cases standard with
    | c89 => exact ⟨some "YALIBCT_DISABLE_C89_TESTS", List.mem_of_getElem? (i := 2) rfl⟩
    | c95 => exact ⟨some "YALIBCT_DISABLE_C95_TESTS", List.mem_of_getElem? (i := 33) rfl⟩
    | c99 => exact ⟨some "YALIBCT_DISABLE_C99_TESTS", List.mem_of_getElem? (i := 37) rfl⟩
    | c11 => exact ⟨some "YALIBCT_DISABLE_C11_TESTS", List.mem_of_getElem? (i := 47) rfl⟩
    | c23 => exact ⟨some "YALIBCT_DISABLE_C23_TESTS", List.mem_of_getElem? (i := 49) rfl⟩
    | posix => exact ⟨some "YALIBCT_DISABLE_POSIX_TESTS", List.mem_of_getElem? (i := 53) rfl⟩

end Yalibct.Configure
