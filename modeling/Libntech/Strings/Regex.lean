import Libntech.Json.Element

/-! # Matching whole strings (`libutils/regex.c`)

PCRE2 is a parameter: which patterns it compiles with the options of `CompileRegex`, and where its first match in a string
starts and ends. What is logged is left out, and so is the memory.
-/
namespace Libntech.Strings
set_option autoImplicit false

open Libntech.Json (Bytes)

/-- `pcre2_compile` and `pcre2_match`. -/
structure Matcher (Regex : Type) where
  compileRegex : Bytes → Option Regex
  pcre2Match : Regex → Bytes → Option (ℕ × ℕ)

section

variable {Regex : Type} (pcre2 : Matcher Regex)

/-- What is returned, `*start` and `*end`. -/
def stringMatchWithPrecompiledRegex (regex : Regex) (str : Bytes) : Bool × ℕ × ℕ :=
  match pcre2.pcre2Match regex str with
  | some (start, stop) => (true, start, stop)
  | none => (false, 0, 0)

def stringMatchFullWithPrecompiledRegex (regex : Regex) (str : Bytes) : Bool :=
  let (matched, start, stop) := stringMatchWithPrecompiledRegex pcre2 regex str
  if matched then start == 0 && stop == str.length else false

def stringMatchFull (pattern str : Bytes) : Bool :=
  match pcre2.compileRegex pattern with
  | none => false
  | some regex => stringMatchFullWithPrecompiledRegex pcre2 regex str

variable {pcre2} {regex : Regex} {pattern : Bytes}

theorem stringMatchFullWithPrecompiledRegex_iff (str : Bytes) :
    stringMatchFullWithPrecompiledRegex pcre2 regex str = true ↔ pcre2.pcre2Match regex str = some (0, str.length) := by
  rw [stringMatchFullWithPrecompiledRegex, stringMatchWithPrecompiledRegex]
  cases pcre2.pcre2Match regex str with
  | none => simp
  | some found => simp [Prod.ext_iff]

theorem stringMatchFull_iff (h : pcre2.compileRegex pattern = some regex) (str : Bytes) :
    stringMatchFull pcre2 pattern str = true ↔ pcre2.pcre2Match regex str = some (0, str.length) := by
  rw [stringMatchFull, h]
  exact stringMatchFullWithPrecompiledRegex_iff str

end

/-- A matcher that finds a string as a whole or not at all. -/
def Matcher.whole (read : Bytes → Option (Bytes → Bool)) : Matcher (Bytes → Bool) where
  compileRegex := read
  pcre2Match test str := if test str then some (0, str.length) else none

end Libntech.Strings
