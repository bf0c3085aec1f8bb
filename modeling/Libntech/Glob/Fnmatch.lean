import Libntech.Glob.Pattern

/-! # What a pattern means, and what a regular expression means

A pattern is read as the `fnmatch` module of Python reads it, with the backslash as an escape. Of regular expressions those
are read that are made of single characters, of sets and of `.*`, as PCRE2 documents them; the others are left open. Both are
read as a list of tests for one character and of gaps.
-/
namespace Libntech.Glob
set_option autoImplicit false

open Libntech.Json
open Libntech.Strings (Matcher)

/-- A character that passes a test, or any number of characters. -/
inductive Wild where
  | one (test : UInt8 → Bool)
  | gap

def Wild.matches : List Wild → Bytes → Bool
  | [], str => str.isEmpty
  | .one test :: wilds, str => str.head?.any test && Wild.matches wilds str.tail
  | .gap :: wilds, str => (List.range (str.length + 1)).any fun k => Wild.matches wilds (str.drop k)

def literal (c : UInt8) : Wild := .one (· == c)

/-- The content of a set: a hyphen with a character on both sides is a range. -/
def setRanges : Bytes → List (UInt8 × UInt8)
  | [] => []
  | [c] => [(c, c)]
  | [c, d] => [(c, c), (d, d)]
  | lo :: c :: hi :: rest =>
    if c = '-'.toUInt8 then (lo, hi) :: setRanges rest else (lo, lo) :: setRanges (c :: hi :: rest)

/-- Whether an opening bracket in front of this can be taken for the beginning of a POSIX class name. -/
def introducesName (content : Bytes) : Bool :=
  content.head?.any (ascii ":.=").contains && content.tail.getLast? == content.head?

end Libntech.Glob
