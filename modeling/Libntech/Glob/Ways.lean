import Libntech.Glob.GlobFindMeaning

/-! # The ways that a walk takes

Which ways are found, each of them once; and the path that a way is found as.
-/
namespace Libntech.Glob
set_option autoImplicit false

open Libntech.Json

/-! ## Ways that match -/

/-- The names match the components one by one; `.` and `..` are matched only by components that spell them out. -/
def Matched (isMatch : Bytes → Bytes → Bool) : List Bytes → List Bytes → Prop :=
  List.Forall₂ fun component name => isMatch component name = true ∧ (name = dot ∨ name = dotDot → component = name)

/-- A walk with these names does not stop early: `PathWalk` can list each directory, and does not take what is at the
end for a directory unless it is one. -/
def Passable (T : FileTree) : Bytes → Position → List Bytes → Prop
  | text, p, [] => if T.type p = some .directory then Roomy T text p else (T.type p).any FileType.hasDirBit = false
  | text, p, name :: rest => Roomy T text p ∧ Passable T (extend text name) (child p name) rest

/-- The path that a walk with these names finds. -/
def spell (T : FileTree) : Bytes → Position → List Bytes → Bytes
  | text, p, [] => if T.type p = some .directory then text ++ [slash] else text
  | text, p, name :: rest => spell T (extend text name) (child p name) rest

variable {T : FileTree} {p : Position} {name : Bytes}

section

variable (isMatch : Bytes → Bytes → Bool) (T : FileTree)

end

end Libntech.Glob
