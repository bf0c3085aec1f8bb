import Libntech.Glob.Ways

/-! # Paths

The path that a way is found as, up to a `./` in front of it: `PathWalk` drops a `./` in front, `PeelLiteralPrefix` keeps
it. From such a path the names can be read off again.
-/
namespace Libntech.Glob
set_option autoImplicit false

open Libntech.Json

/-! ## Joined names -/

/-- Neither empty nor with a separator. -/
def IsPart (name : Bytes) : Prop := name ≠ [] ∧ slash ∉ name

variable {back names : List Bytes} {T : FileTree} {behind name text : Bytes}

theorem Leads.parts {p : Position} (h : Leads T p names) : ∀ name ∈ names, IsPart name := by
  induction names generalizing p with
  | nil => exact fun _ hmem => nomatch hmem
  | cons first rest ih =>
    intro name hmem
    rcases List.mem_cons.mp hmem with rfl | hmem
    · exact ⟨h.2.1.nonempty, h.2.1.noSlash⟩
    · exact ih h.2.2 name hmem

/-- A path as it is written. Without names it is the directory to begin with. -/
def pathText (absolute : Bool) (names : List Bytes) : Bytes :=
  if absolute then slash :: [slash].intercalate names
  else if names = [] then dot
  else [slash].intercalate names

theorem intercalate_cons_eq (name : Bytes) (names : List Bytes) :
    [slash].intercalate (name :: names) = name ++ names.flatMap (slash :: ·) := by
  induction names generalizing name with
  | nil => simp
  | cons next rest ih => rw [List.intercalate_cons_cons, ih, List.flatMap_cons]; simp

theorem pathText_cons (absolute : Bool) (name : Bytes) (names : List Bytes) :
    pathText absolute (name :: names) =
      (if absolute then slash :: name else name) ++ names.flatMap (slash :: ·) := by
  rw [pathText, intercalate_cons_eq, if_neg (List.cons_ne_nil _ _)]
  cases absolute <;> rfl

/-! ## The start of the walk -/

/-- The components that `PeelLiteralPrefix` peels. -/
def literalPrefix : List Bytes → List Bytes
  | head :: next :: rest => if isWildcardPattern head then [] else head :: literalPrefix (next :: rest)
  | _ => []

/-- The components that it keeps. -/
def remaining : List Bytes → List Bytes
  | head :: next :: rest => if isWildcardPattern head then head :: next :: rest else remaining (next :: rest)
  | components => components

theorem literalPrefix_append (components : List Bytes) : literalPrefix components ++ remaining components = components := by
  induction components with
  | nil => rfl
  | cons head rest ih =>
    cases rest with
    | nil => rfl
    | cons next rest =>
      rw [literalPrefix, remaining]
      split
      · rfl
      · rw [List.cons_append, ih]

theorem remaining_nonempty {components : List Bytes} (h : components ≠ []) : remaining components ≠ [] := by
  induction components with
  | nil => exact absurd rfl h
  | cons head rest ih =>
    cases rest with
    | nil => exact List.cons_ne_nil _ _
    | cons next rest =>
      rw [remaining]
      split
      · exact List.cons_ne_nil _ _
      · exact ih (List.cons_ne_nil _ _)

/-- The directory that the walk for a pattern starts in, as it is written. -/
def startPath (pattern : Bytes) : Bytes := pathText (isAbsoluteFileName pattern) (literalPrefix (components pattern))

/-- Where names lead. -/
def follow (p : Position) (names : List Bytes) : Position := names.foldl child p

theorem Leads.append {front : List Bytes} : ∀ {p : Position},
    Leads T p (front ++ back) ↔ Leads T p front ∧ Leads T (follow p front) back := by
  induction front with
  | nil => exact fun {p} => ⟨fun h => ⟨trivial, h⟩, fun h => h.2⟩
  | cons name rest ih =>
    intro p
    exact ⟨fun h => ⟨⟨h.1, h.2.1, (ih.mp h.2.2).1⟩, (ih.mp h.2.2).2⟩, fun h => ⟨h.1.1, h.1.2.1, ih.mpr ⟨h.1.2.2, h.2⟩⟩⟩

/-- The directory in which a path begins. -/
def FileTree.top (T : FileTree) (absolute : Bool) : Position := if absolute then [] else T.cwd

/-- Behind a directory stands a separator. -/
def separator (T : FileTree) (p : Position) : Bytes := if T.type p = some .directory then [slash] else []

end Libntech.Glob
