import Libntech.Containers.Sequence
import Libntech.Glob.FileTree
import Libntech.Glob.Pattern
import Libntech.Json.Write
import Mathlib.Data.List.Dedup

/-! # Finding files (`libutils/glob_lib.c`, `PathWalk` in `libutils/file_lib.c`)

The build is not for Windows: a long name has no short one, and no path is a network or a disk path. No list of matches
is the end of the model's bound on the depth.
-/
namespace Libntech.Glob
set_option autoImplicit false

open Libntech.Json
open Libntech.Strings (Matcher)

/-! ## `PathWalk` -/

section Matching

variable {Regex : Type} (T : FileTree) (pcre2 : Matcher Regex)

/-- Behind quotes. -/
def isAbsoluteFileName (f : Bytes) : Bool := (f.dropWhile (· = '"'.toUInt8)).head? = some slash

/-- The components that are left when the empty ones are gone. -/
def components (pattern : Bytes) : List Bytes := (pattern.splitOn slash).filter (· ≠ [])

end Matching

end Libntech.Glob
