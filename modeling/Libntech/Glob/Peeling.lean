import Libntech.Glob.Paths
import Libntech.Json.MemberOrder
import Mathlib.Data.List.Forall2

/-! # What `GlobFind` finds

The walk that starts behind the peeled components finds the ways that spell these components out; the walk that peels
none finds the ways that match them.
-/
namespace Libntech.Glob
set_option autoImplicit false

open Libntech.Json
open Libntech.Strings (Matcher stringMatchFull)

section

variable {Regex : Type} (T : FileTree) (pcre2 : Matcher Regex)

/-! ## The walk for an expanded pattern -/

section

variable (pattern : Bytes) (names : List Bytes)

/-- The names begin with the peeled components as they are, and the walk behind these does not stop early. -/
structure SpellsPrefix : Prop where
  prefixed : names.take (literalPrefix (components pattern)).length = literalPrefix (components pattern)
  short : (startPath pattern).length < FileTree.pathMax
  passable : Passable T (startPath pattern)
    (follow (T.top (isAbsoluteFileName pattern)) (literalPrefix (components pattern)))
    (names.drop (literalPrefix (components pattern)).length)

/-- The names begin with names that the peeled components match. -/
def MatchesPrefix : Prop :=
  Matched (globMatch pcre2) (literalPrefix (components pattern))
    (names.take (literalPrefix (components pattern)).length)

/-- An existing way whose names behind those for the peeled components match the other components. -/
structure EndsMatching : Prop where
  leads : Leads T (T.top (isAbsoluteFileName pattern)) names
  rest : Matched (globMatch pcre2) (remaining (components pattern))
    (names.drop (literalPrefix (components pattern)).length)

variable {T pcre2 pattern names}

theorem EndsMatching.length (h : EndsMatching T pcre2 pattern names) :
    names.length = (components pattern).length := by
  have hrest := h.rest.length_eq
  have hsplit := congrArg List.length (literalPrefix_append (components pattern))
  rw [List.length_drop] at hrest
  rw [List.length_append] at hsplit
  by_cases hnil : components pattern = []
  · rw [hnil] at hrest hsplit ⊢
    have hpeeled : (literalPrefix []).length = 0 := rfl
    have hremaining : (remaining []).length = 0 := rfl
    rw [List.length_nil]
    omega
  · have hpos := List.length_pos_iff.mpr (remaining_nonempty hnil)
    omega

end

/-! ## The paths that are found -/

end

/-! ## A tree -/

/-- A directory with a dot in its name, in which there is a file, and a socket next to it. -/
def sampleType : Position → Option FileType
  | [] => some .directory
  | [name] => if name = ascii "a.b" then some .directory else if name = ascii "s" then some .socket else none
  | [name, file] => if name = ascii "a.b" ∧ file = ascii "x" then some .regular else none
  | _ => none

def sampleEntries : Position → List Bytes
  | [] => [ascii "a.b", ascii "s"]
  | [name] => if name = ascii "a.b" then [ascii "x"] else []
  | _ => []

theorem sample_parent : ∀ p name, (sampleType (p ++ [name])).isSome → sampleType p = some .directory := by
  intro p name h
  match p with
  | [] => rfl
  | [dir] =>
    simp only [List.cons_append, List.nil_append, sampleType] at h ⊢
    split at h
    · rename_i hfile
      rw [if_pos hfile.1]
    · cases h
  | [_, _] => cases h
  | _ :: _ :: _ :: _ => cases h

theorem sample_entries : ∀ p name, name ∈ sampleEntries p ↔ (sampleType (p ++ [name])).isSome := by
  intro p name
  match p with
  | [] =>
    simp only [sampleEntries, List.nil_append, sampleType, List.mem_cons, List.not_mem_nil, or_false]
    split
    · simp [*]
    · split <;> simp [*]
  | [dir] =>
    simp only [sampleEntries, List.cons_append, List.nil_append, sampleType]
    by_cases hdir : dir = ascii "a.b"
    · by_cases hfile : name = ascii "x" <;> simp [hdir, hfile]
    · simp [hdir]
  | [_, _] => simp [sampleEntries, sampleType]
  | _ :: _ :: _ :: _ => simp [sampleEntries, sampleType]

def sampleTree : FileTree where
  type := sampleType
  entries := sampleEntries
  cwd := []
  root := rfl
  cwd_directory := rfl
  parent := sample_parent
  mem_entries := sample_entries
  nodup p := by
    match p with
    | [] => decide
    | [dir] =>
      rw [sampleEntries]
      split <;> simp
    | _ :: _ :: _ => exact List.nodup_nil
  names p := by
    have hname : ∀ name, name = ascii "a.b" ∨ name = ascii "s" ∨ name = ascii "x" → IsName name := by
      rintro name (rfl | rfl | rfl) <;> constructor <;> decide
    intro name hmem
    match p with
    | [] =>
      simp only [sampleEntries, List.mem_cons, List.not_mem_nil, or_false] at hmem
      exact hname name (hmem.elim .inl fun h => .inr (.inl h))
    | [dir] =>
      rw [sampleEntries] at hmem
      split at hmem
      · exact hname name (.inr (.inr (List.mem_singleton.mp hmem)))
      · cases hmem
    | _ :: _ :: _ => cases hmem

/-! ## One walk and the other -/

section

variable {Regex : Type} (T : FileTree) (pcre2 : Matcher Regex)

/-- Every existing way that ends as the pattern does begins with the peeled components as they are, and can be walked
from behind these, if and only if it begins with names that they match, and can be walked from the top. -/
def PeelsAlike (pattern : Bytes) : Prop :=
  ∀ names, EndsMatching T pcre2 pattern names →
    (SpellsPrefix T pattern names ↔ MatchesPrefix pcre2 pattern names ∧
      Passable T (pathText (isAbsoluteFileName pattern) []) (T.top (isAbsoluteFileName pattern)) names)

theorem literalPrefix_plain {components : List Bytes} {component : Bytes} (h : component ∈ literalPrefix components) :
    isWildcardPattern component = false := by
  induction components with
  | nil => cases h
  | cons head rest ih =>
    cases rest with
    | nil => cases h
    | cons next rest =>
      rw [literalPrefix] at h
      split at h
      · cases h
      · rename_i hhead
        rcases List.mem_cons.mp h with rfl | hmem
        · exact Bool.eq_false_iff.mpr hhead
        · exact ih hmem

/-- Peeled components without a backslash match themselves only: then it is only the lengths of paths that can make a
difference. -/
theorem peelsAlike_iff_of_unescaped (hregex : MatchesLiterals pcre2) {pattern : Bytes}
    (hescape : ∀ component ∈ literalPrefix (components pattern), '\\'.toUInt8 ∉ component) :
    PeelsAlike T pcre2 pattern ↔ ∀ names, EndsMatching T pcre2 pattern names →
      names.take (literalPrefix (components pattern)).length = literalPrefix (components pattern) →
      (SpellsPrefix T pattern names ↔
        Passable T (pathText (isAbsoluteFileName pattern) []) (T.top (isAbsoluteFileName pattern)) names) := by
  have hsame : ∀ names, MatchesPrefix pcre2 pattern names ↔
      names.take (literalPrefix (components pattern)).length = literalPrefix (components pattern) := by
    intro names
    have hone : ∀ component ∈ literalPrefix (components pattern), ∀ name,
        (globMatch pcre2 component name = true ∧ (name = dot ∨ name = dotDot → component = name)) ↔
          component = name := by
      intro component hmem name
      rw [globMatch_literal hregex (literalPrefix_plain hmem) (hescape component hmem)]
      exact ⟨fun h => h.1.symm, fun h => ⟨h.symm, fun _ => h⟩⟩
    rw [MatchesPrefix, Matched]
    generalize names.take (literalPrefix (components pattern)).length = front
    generalize literalPrefix (components pattern) = peeled at hone
    constructor
    · intro h
      induction h with
      | nil => rfl
      | cons hfirst _ ih =>
        rw [(hone _ List.mem_cons_self _).mp hfirst, ih fun c hc => hone c (List.mem_cons_of_mem _ hc)]
    · rintro rfl
      exact List.forall₂_same.mpr fun name hname => (hone name hname name).mpr rfl
  constructor
  · intro h names hends htake
    rw [h names hends, hsame]
    exact and_iff_right htake
  · intro h names hends
    rw [hsame]
    constructor
    · intro hspells
      exact ⟨hspells.prefixed, (h names hends hspells.prefixed).mp hspells⟩
    · rintro ⟨htake, hpass⟩
      exact (h names hends htake).mpr hpass

theorem length_pathJoinAlloc (dir leaf : Bytes) : (pathJoinAlloc dir leaf).length ≤ dir.length + leaf.length + 1 := by
  unfold pathJoinAlloc
  split <;> simp only [List.length_append, List.length_cons] <;> omega

theorem length_extend (text name : Bytes) : (extend text name).length ≤ text.length + name.length + 1 := by
  unfold extend
  split
  · omega
  · exact length_pathJoinAlloc text name

theorem length_pathText (absolute : Bool) (names : List Bytes) :
    (pathText absolute names).length ≤ (names.flatMap (slash :: ·)).length + 1 := by
  cases names with
  | nil => cases absolute <;> exact Nat.le_refl 1
  | cons name rest =>
    rw [pathText_cons, List.flatMap_cons, List.length_append, List.length_append]
    cases absolute <;> simp only [Bool.false_eq_true, if_false, if_true, List.length_cons] <;> omega

/-- No peeled component has an escape; no existing way, of one name more than the pattern has components at most, is
spelled by `PATH_MAX` bytes or more; and there are no sockets and no block devices. -/
structure Plain (pattern : Bytes) : Prop where
  unescaped : ∀ component ∈ literalPrefix (components pattern), '\\'.toUInt8 ∉ component
  short : ∀ names, Leads T (T.top (isAbsoluteFileName pattern)) names → names.length ≤ (components pattern).length + 1 →
    (names.flatMap (slash :: ·)).length + 1 < FileTree.pathMax
  types : ∀ p, T.type p ≠ some .socket ∧ T.type p ≠ some .blockDevice

variable {T}

theorem passable_of_short (htypes : ∀ p, T.type p ≠ some .socket ∧ T.type p ≠ some .blockDevice) {names : List Bytes} :
    ∀ {text : Bytes} {p : Position}, Leads T p names →
      (∀ more, Leads T p more → more.length ≤ names.length + 1 →
        text.length + (more.flatMap (slash :: ·)).length < FileTree.pathMax) → Passable T text p names := by
  have hroomy : ∀ {text : Bytes} {p : Position} {n : ℕ}, T.type p = some .directory →
      (∀ more, Leads T p more → more.length ≤ n + 1 →
        text.length + (more.flatMap (slash :: ·)).length < FileTree.pathMax) → Roomy T text p := by
    intro text p n hdir hshort name hname
    have hhas : T.Has p name := by simpa [FileTree.Has, or_assoc, or_comm, or_left_comm] using hname
    have hlen := hshort [name] ⟨hdir, hhas, trivial⟩ (Nat.le_add_left 1 n)
    have hjoin := length_pathJoinAlloc text name
    rw [List.flatMap_singleton, List.length_cons] at hlen
    omega
  induction names with
  | nil =>
    intro text p _ hshort
    rw [Passable]
    split
    · rename_i hdir
      exact hroomy hdir hshort
    · rename_i hdir
      cases htype : T.type p with
      | none => rfl
      | some type =>
        have hother := htypes p
        rw [htype] at hdir hother
        refine Bool.eq_false_iff.mpr fun hbit => ?_
        rcases type.hasDirBit_iff.mp hbit with rfl | rfl | rfl
        · exact hdir rfl
        · exact hother.1 rfl
        · exact hother.2 rfl
  | cons name rest ih =>
    rintro text p ⟨hdir, hhas, hrest⟩ hshort
    refine ⟨hroomy hdir hshort, ih hrest fun more hmore hle => ?_⟩
    have hlen := hshort (name :: more) ⟨hdir, hhas, hmore⟩ (Nat.succ_le_succ hle)
    have hextend := length_extend text name
    rw [List.flatMap_cons, List.length_append, List.length_cons] at hlen
    omega

section

variable {pattern : Bytes} {names : List Bytes} (hplain : Plain T pattern) (hends : EndsMatching T pcre2 pattern names)

include hplain hends

theorem Plain.passable : Passable T (pathText (isAbsoluteFileName pattern) []) (T.top (isAbsoluteFileName pattern)) names := by
  refine passable_of_short hplain.types hends.leads fun more hmore hle => ?_
  have hlen := hplain.short more hmore (by rwa [hends.length] at hle)
  have htext := length_pathText (isAbsoluteFileName pattern) []
  rw [List.flatMap_nil, List.length_nil] at htext
  omega

theorem Plain.spellsPrefix
    (htake : names.take (literalPrefix (components pattern)).length = literalPrefix (components pattern)) :
    SpellsPrefix T pattern names := by
  obtain ⟨hfront, hback⟩ : Leads T (T.top (isAbsoluteFileName pattern)) (literalPrefix (components pattern)) ∧
      Leads T (follow (T.top (isAbsoluteFileName pattern)) (literalPrefix (components pattern)))
        (names.drop (literalPrefix (components pattern)).length) := by
    rw [← Leads.append]
    nth_rewrite 1 [← htake]
    rw [List.take_append_drop]
    exact hends.leads
  have hlength := congrArg List.length htake
  rw [List.length_take, hends.length] at hlength
  have htext := length_pathText (isAbsoluteFileName pattern) (literalPrefix (components pattern))
  refine ⟨htake, ?_, passable_of_short hplain.types hback fun more hmore hle => ?_⟩
  · have hlen := hplain.short _ hfront (by omega)
    rw [startPath]
    omega
  · rw [List.length_drop, hends.length] at hle
    have hlen := hplain.short _ (Leads.append.mpr ⟨hfront, hmore⟩) (by rw [List.length_append]; omega)
    rw [List.flatMap_append, List.length_append] at hlen
    rw [startPath]
    omega

end

theorem Plain.peelsAlike (hregex : MatchesLiterals pcre2) {pattern : Bytes} (h : Plain T pattern) :
    PeelsAlike T pcre2 pattern :=
  (peelsAlike_iff_of_unescaped T pcre2 hregex h.unescaped).mpr fun _ hends htake =>
    iff_of_true (h.spellsPrefix pcre2 hends htake) (h.passable pcre2 hends)

variable (T)

/-! ## With and without the peeling -/

end

section

variable {Regex : Type} (T : FileTree) (pcre2 : Matcher Regex)

/-! ## The matches of a pattern -/

/-- Every existing way that ends as the pattern does begins with the peeled components as they are, and can be walked
from behind these, if and only if it begins with names that they match; and it has names. -/
def Exact (pattern : Bytes) : Prop :=
  ∀ names, EndsMatching T pcre2 pattern names →
    (SpellsPrefix T pattern names ↔
      (isAbsoluteFileName pattern = true ∨ names ≠ []) ∧ MatchesPrefix pcre2 pattern names)

theorem Plain.exact {T : FileTree} (hregex : MatchesLiterals pcre2) {pattern : Bytes} (h : Plain T pattern)
    (hparts : isAbsoluteFileName pattern = true ∨ components pattern ≠ []) : Exact T pcre2 pattern := by
  intro names hends
  have hnames : isAbsoluteFileName pattern = true ∨ names ≠ [] := hparts.imp_right fun hne hnil => by
    rw [← List.length_eq_zero_iff, hends.length] at hnil
    exact hne (List.length_eq_zero_iff.mp hnil)
  rw [h.peelsAlike pcre2 hregex names hends, and_iff_left (h.passable pcre2 hends), and_iff_right hnames]

end

end Libntech.Glob
