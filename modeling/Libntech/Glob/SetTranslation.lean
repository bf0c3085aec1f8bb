import Libntech.Glob.Fnmatch
import Libntech.Lib.Terminated

/-! # The sets of a pattern, in a regular expression

`TranslateBracket` writes a backslash in front of some characters of a set and leaves the hyphens of the ranges alone. The
text is read back as the ranges that `fnmatch` sees in the set.
-/
namespace Libntech.Glob
set_option autoImplicit false

open Libntech.Json

/-! ## The text -/

/-- Where a character of a set stands: a hyphen behind another makes a range or is the last. -/
inductive Place where
  | start
  | behind
  | range
  deriving DecidableEq

def Place.next : Place → UInt8 → Place
  | .start, _ => .behind
  | .behind, c => if c = '-'.toUInt8 then .range else .behind
  | .range, _ => .start

variable {c d : UInt8} {rest t : Bytes}

section Shape
variable (hyphens : Bool)

end Shape

/-! ## Reading it -/

/-- A text of a character: as it is, or behind a backslash. -/
inductive Shows (c : UInt8) : Bytes → Prop where
  | plain (h : c ≠ '\\'.toUInt8) : Shows c [c]
  | escaped (h : isAlphanumeric c = false) : Shows c ['\\'.toUInt8, c]

section Turns
variable {fuel : ℕ} {first : Bool} {text : Bytes} (hfirst : text.head? = some ']'.toUInt8 → first = true)
include hfirst

end Turns

/-! ## Reading a set back -/

/-- Whether somewhere an opening bracket can be taken for the beginning of a POSIX class name. -/
def namesClass : Bytes → Bool
  | [] => false
  | c :: rest => (c == '['.toUInt8 && introducesName rest) || namesClass rest

theorem isInfixOf_cons (sub : Bytes) (c : UInt8) (rest : Bytes) :
    isInfixOf sub (c :: rest) = (sub.isPrefixOf (c :: rest) || isInfixOf sub rest) := by
  unfold isInfixOf
  rw [List.length_cons, List.range_succ_eq_map, List.any_cons, List.any_map]
  rfl

/-- No hyphen that is not escaped is behind another. -/
def Separate (hyphens : Bool) (content : Bytes) : Prop := hyphens = false → isInfixOf (ascii "--") content = false

theorem Separate.tail {hyphens : Bool} {c : UInt8} {rest : Bytes} (h : Separate hyphens (c :: rest)) :
    Separate hyphens rest := fun hoff => by
  have := h hoff
  rw [isInfixOf_cons, Bool.or_eq_false_iff] at this
  exact this.2

theorem Separate.hyphens {hyphens : Bool} (h : Separate hyphens ('-'.toUInt8 :: '-'.toUInt8 :: rest)) : hyphens = true := by
  cases hyphens with
  | true => rfl
  | false =>
    have := h rfl
    rw [isInfixOf_cons, Bool.or_eq_false_iff] at this
    cases this.1

section Item

variable {hyphens first : Bool} {c : UInt8} {t : Bytes} (hshows : Shows c t) (hfirst : c = ']'.toUInt8 → first = true)
include hshows hfirst

variable {rest : Bytes} {fuel : ℕ} (behind : Bytes) (hname : t = ['['.toUInt8] → introducesName rest = false)
  (hclose : ']'.toUInt8 ∉ rest)
include hname hclose

end Item

/-- What a set must be like from a place where a character stands. -/
structure Readable (hyphens : Bool) (content : Bytes) : Prop where
  closes : ']'.toUInt8 ∉ content
  names : namesClass content = false
  separate : Separate hyphens content
  ordered : ∀ r ∈ setRanges content, r.1 ≤ r.2

end Libntech.Glob
