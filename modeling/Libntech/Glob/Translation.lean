import Libntech.Glob.SetTranslation

/-! # Patterns as regular expressions

Where a pattern is tame, its translation is read back as what `fnmatch` sees in the pattern. Not tame are a backslash in
front of a letter or a digit, which PCRE2 gives a meaning of its own, a backslash at the end, which takes the closing
parenthesis away from the regular expression, a range that runs backwards, and a set that names a POSIX class.
-/
namespace Libntech.Glob
set_option autoImplicit false

open Libntech.Json
open Libntech.Strings (Matcher stringMatchFull stringMatchFull_iff)

/-! ## The text of a set -/

variable {fuel left middle : ℕ} {c : UInt8} {behind content pattern rest stuff text : Bytes}

theorem Shows.ne_nil {t : Bytes} (h : Shows c t) : t ≠ [] := by
  cases h <;> exact List.cons_ne_nil _ _

end Libntech.Glob
