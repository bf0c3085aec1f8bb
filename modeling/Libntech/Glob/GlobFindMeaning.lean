import Libntech.Glob.GlobFind

/-! # What a walk finds

A path is the names on it. `PathWalk` with `PathWalkCallback` finds the ways down from where it starts whose names match
the components one by one, as long as it can list every directory on the way.
-/
namespace Libntech.Glob
set_option autoImplicit false

open Libntech.Json
open Libntech.Strings (Matcher)

/-! ## Ways through the tree -/

/-- Where an entry of a directory leads. -/
def child (p : Position) (name : Bytes) : Position :=
  if name = dot then p else if name = dotDot then p.dropLast else p ++ [name]

/-- The names of the entries of a directory, the special ones among them. -/
def FileTree.Has (T : FileTree) (p : Position) (name : Bytes) : Prop :=
  name ∈ T.entries p ∨ name = dot ∨ name = dotDot

/-- An existing way: each name is one of an entry of the directory that the names before it lead to. -/
def Leads (T : FileTree) : Position → List Bytes → Prop
  | _, [] => True
  | p, name :: rest => T.type p = some .directory ∧ T.Has p name ∧ Leads T (child p name) rest

variable {T : FileTree} {p : Position} {name text : Bytes} {names : List Bytes}

theorem FileTree.Has.nonempty (h : T.Has p name) : name ≠ [] := by
  rcases h with hmem | rfl | rfl
  · exact (T.names p name hmem).nonempty
  · decide
  · decide

theorem FileTree.Has.noSlash (h : T.Has p name) : slash ∉ name := by
  rcases h with hmem | rfl | rfl
  · exact (T.names p name hmem).noSlash
  · decide
  · decide

/-- The path that the walk goes on with. -/
def extend (text name : Bytes) : Bytes := if text = dot then name else pathJoinAlloc text name

/-- `PathWalk` can copy the path of each child. -/
def Roomy (T : FileTree) (text : Bytes) (p : Position) : Prop :=
  ∀ name ∈ dot :: dotDot :: T.entries p, (pathJoinAlloc text name).length < FileTree.pathMax

instance (T : FileTree) (text : Bytes) (p : Position) : Decidable (Roomy T text p) :=
  inferInstanceAs (Decidable (∀ name ∈ dot :: dotDot :: T.entries p, _))

theorem Roomy.has (h : Roomy T text p) (hname : T.Has p name) :
    (pathJoinAlloc text name).length < FileTree.pathMax := by
  refine h name ?_
  rcases hname with hmem | rfl | rfl
  · exact List.mem_cons_of_mem _ (List.mem_cons_of_mem _ hmem)
  · exact List.mem_cons_self
  · exact List.mem_cons_of_mem _ List.mem_cons_self

def FileTree.hasDirBit (T : FileTree) (p : Position) (name : Bytes) : Bool :=
  (T.type (p ++ [name])).any FileType.hasDirBit

section Children

variable {T : FileTree} {text : Bytes} {p : Position} (hp : T.lookup text = some p)
  (hdir : T.type p = some .directory)
include hp hdir

end Children

/-! ## What is found -/

/-- `.` and `..` are entries only where the component spells them out. -/
def special (component : Bytes) : List Bytes := if component = dot ∨ component = dotDot then [component] else []

end Libntech.Glob
