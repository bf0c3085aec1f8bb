import Libntech.Json.CopyMeaning

/-! # Selecting a descendant (`JsonSelect`, `libutils/json.c`)

An array index is checked with `StringIsNumeric` and converted with `StringToLongExitOnError`. The check lets through
the empty string and digits that no `long` can hold, and on these the conversion ends the process.
-/
namespace Libntech.Json
set_option autoImplicit false

/-- `StringIsNumeric` -/
def stringIsNumeric (s : Bytes) : Bool := s.all isNumeral

/-- `JsonSelect`. No result means that `StringToLongExitOnError` exits. -/
def jsonSelect : JsonElement → List Bytes → Option (Option JsonElement)
  | element, [] => some (some element)
  | .primitive _ _, _ :: _ => some none
  | .object children, index :: rest =>
    match jsonObjectGet children index with
    | some child => jsonSelect child rest
    | none => some none
  | .array children, index :: rest =>
    if stringIsNumeric index then
      match stringToLong index with
      | none => none
      | some value =>
        -- `size_t i`
        match children[(value % 18446744073709551616).toNat]? with
        | some child => jsonSelect child rest
        | none => some none
    else some none

/-! ## What it is for -/

/-- A non-negative decimal number. -/
def decimalIndex (index : Bytes) : Option ℕ :=
  if index ≠ [] ∧ index.all isNumeral then some (numeralsValue index) else none

def childAt : JsonElement → Bytes → Option JsonElement
  | .primitive _ _, _ => none
  | .array children, index => (decimalIndex index).bind (children[·]?)
  | .object children, index => jsonObjectGet children index

/-- The element that is reached from `e` by following the indices. -/
def descendant (e : JsonElement) : List Bytes → Option JsonElement
  | [] => some e
  | index :: rest => (childAt e index).bind fun child => descendant child rest

/-- An index that passes `StringIsNumeric` and that `StringToLongExitOnError` exits on: no digits, or too many. -/
def ExitsOn (index : Bytes) : Prop :=
  (∀ c ∈ index, isNumeral c = true) ∧ (index = [] ∨ 9223372036854775807 < numeralsValue index)

/-- No array that is reached meets an index that the process exits on. -/
def Convertible (e : JsonElement) (indices : List Bytes) : Prop :=
  ∀ front index back children, indices = front ++ index :: back → descendant e front = some (.array children) →
    ¬ ExitsOn index

/-! ## Where it exits -/

theorem stringIsNumeric_iff {s : Bytes} : stringIsNumeric s = true ↔ ∀ c ∈ s, isNumeral c = true := List.all_eq_true

theorem stringToLong_numeric {s : Bytes} (h : ∀ c ∈ s, isNumeral c = true) :
    stringToLong s = if s = [] ∨ 9223372036854775807 < numeralsValue s then none else some (numeralsValue s : ℤ) := by
  cases s with
  | nil => rfl
  | cons c t =>
    have hsplit := numerals_split (r := []) h (by simp)
    rw [List.append_nil] at hsplit
    have hsign := splitSign_sign false t (h c List.mem_cons_self)
    change splitSign (c :: t) = (false, c :: t) at hsign
    rw [stringToLong, hsign]
    simp only [hsplit, List.cons_ne_nil, false_or, if_false, Bool.false_eq_true]
    by_cases hbig : 9223372036854775807 < numeralsValue (c :: t)
    · rw [if_pos (.inr (by exact_mod_cast hbig)), if_pos hbig]
    · rw [if_neg (by omega), if_neg hbig]

theorem convertible_cons {e : JsonElement} {index : Bytes} {rest : List Bytes} :
    Convertible e (index :: rest) ↔ (∀ children, e = .array children → ¬ ExitsOn index) ∧
      ∀ child, childAt e index = some child → Convertible child rest := by
  constructor
  · intro h
    refine ⟨fun children he => h [] index rest children rfl (by rw [he]; rfl), ?_⟩
    intro child hchild front i back children heq hreach
    refine h (index :: front) i back children (by rw [heq]; rfl) ?_
    rw [descendant, hchild]
    exact hreach
  · rintro ⟨hhere, hrest⟩ front i back children heq hreach
    cases front with
    | nil =>
      rw [List.nil_append, List.cons.injEq] at heq
      rw [← heq.1]
      exact hhere children (Option.some.inj hreach)
    | cons j front =>
      rw [List.cons_append, List.cons.injEq] at heq
      rw [← heq.1] at hreach
      obtain ⟨child, hchild, hreach⟩ := Option.bind_eq_some_iff.mp hreach
      exact hrest child hchild front i back children heq.2 hreach

theorem select_nil (e : JsonElement) : jsonSelect e [] = some (some e) := by
  cases e <;> rfl

theorem select_none (children : List JsonElement) {index : Bytes} (rest : List Bytes) (h : ExitsOn index) :
    jsonSelect (.array children) (index :: rest) = none := by
  rw [jsonSelect, if_pos (stringIsNumeric_iff.mpr h.1), stringToLong_numeric h.1, if_pos h.2]

theorem select_array (children : List JsonElement) {index : Bytes} (rest : List Bytes) (h : ¬ ExitsOn index) :
    jsonSelect (.array children) (index :: rest) =
      match childAt (.array children) index with
      | some child => jsonSelect child rest
      | none => some none := by
  rw [jsonSelect, childAt, decimalIndex]
  by_cases hnum : ∀ c ∈ index, isNumeral c = true
  · have hfits : ¬ (index = [] ∨ 9223372036854775807 < numeralsValue index) := fun hbad => h ⟨hnum, hbad⟩
    rw [not_or] at hfits
    have hvalue : ((numeralsValue index : ℤ) % 18446744073709551616).toNat = numeralsValue index := by omega
    rw [if_pos (stringIsNumeric_iff.mpr hnum), stringToLong_numeric hnum, if_neg (not_or.mpr hfits),
      if_pos ⟨hfits.1, stringIsNumeric_iff.mpr hnum⟩]
    dsimp only
    rw [hvalue, Option.bind_some]
  · rw [if_neg fun hall => hnum (stringIsNumeric_iff.mp hall), if_neg fun hall => hnum (stringIsNumeric_iff.mp hall.2)]
    rfl

/-- `JsonSelect` yields the descendant, or nothing where there is none, exactly if no array is reached with an index
that the process exits on. -/
theorem select_iff (e : JsonElement) (indices : List Bytes) :
    jsonSelect e indices = some (descendant e indices) ↔ Convertible e indices := by
  induction indices generalizing e with
  | nil =>
    refine iff_of_true (select_nil e) fun front index back children heq => ?_
    exact absurd heq.symm (List.append_ne_nil_of_right_ne_nil _ (List.cons_ne_nil _ _))
  | cons index rest ih =>
    -- once the index at hand is converted, both sides are about the child
    have hchild : ∀ found : Option JsonElement,
        (match found with
          | some child => jsonSelect child rest
          | none => some none) = some (found.bind fun child => descendant child rest) ↔
          ∀ child, found = some child → Convertible child rest := by
      intro found
      cases found with
      | none => exact iff_of_true rfl fun child h => (by cases h)
      | some child =>
        rw [Option.bind_some, ih child]
        refine ⟨fun h child' heq => ?_, fun h => h child rfl⟩
        rwa [← Option.some.inj heq]
    rw [convertible_cons, descendant]
    cases e with
    | primitive type value =>
      exact iff_of_true rfl ⟨fun children he => (by cases he), fun child hchild => (by cases hchild)⟩
    | object children =>
      exact (hchild _).trans ⟨fun h => ⟨fun children he => (by cases he), h⟩, fun h => h.2⟩
    | array children =>
      by_cases hexit : ExitsOn index
      · rw [select_none children rest hexit]
        exact ⟨fun h => (by cases h), fun h => absurd hexit (h.1 children rfl)⟩
      · rw [select_array children rest hexit]
        refine (hchild _).trans ⟨fun h => ⟨fun _ _ => hexit, h⟩, fun h => h.2⟩

/-- The empty string selects nothing of an array, but the process ends. -/
theorem select_exits : jsonSelect (.array [jsonNullCreate]) [[]] = none ∧
    descendant (.array [jsonNullCreate]) [[]] = none :=
  ⟨select_none _ _ ⟨by simp, .inl rfl⟩, by simp [descendant, childAt, decimalIndex]⟩

end Libntech.Json
