import Libntech.Json.MemberOrder

/-! # What the writers can write

A writer fails on a string or a key that is too long for `xvasprintf` and on an indent that is not an `int`. The order
of the members changes nothing about that, so an element is writable after it was sorted exactly if it was before.
-/
namespace Libntech.Json
set_option autoImplicit false

variable {w : Blanks} {level : ℕ} {a : JsonElement}

theorem elementsWritable_iff {children : List JsonElement} :
    elementsWritable w level children = true ↔
      ∀ e ∈ children, w.indentFits (level + 1) = true ∧ writable w (level + 1) e = true := by
  induction children with
  | nil => simp [elementsWritable]
  | cons e rest ih => simp [elementsWritable, ih]

theorem membersWritable_iff {children : List (Bytes × JsonElement)} :
    membersWritable w level children = true ↔
      ∀ c ∈ children, w.indentFits (level + 1) = true ∧ keyFits w c.1 = true ∧ writable w (level + 1) c.2 = true := by
  induction children with
  | nil => simp [membersWritable]
  | cons c rest ih => simp [membersWritable, ih, and_assoc]

theorem arrayWritable_iff {children : List JsonElement} :
    writable w level (.array children) = true ↔ ∀ e ∈ children,
      (w.indentFits (level + 1) = true ∧ writable w (level + 1) e = true) ∧ w.indentFits level = true := by
  cases children with
  | nil => simp [writable]
  | cons e rest =>
    rw [writable, Bool.and_eq_true, elementsWritable_iff]
    exact ⟨fun h x hx => ⟨h.1 x hx, h.2⟩, fun h => ⟨fun x hx => (h x hx).1, (h e List.mem_cons_self).2⟩⟩

theorem objectWritable_iff {children : List (Bytes × JsonElement)} :
    writable w level (.object children) = true ↔
      (∀ c ∈ children, w.indentFits (level + 1) = true ∧ keyFits w c.1 = true ∧ writable w (level + 1) c.2 = true) ∧
        w.indentFits level = true := by
  rw [writable, Bool.and_eq_true, membersWritable_iff]

theorem writable_of_same (h : DistinctKeys a) : ∀ {b : JsonElement} {level : ℕ},
    DistinctKeys b → Same a b → writable w level a = true → writable w level b = true := by
  induction h with
  | primitive type value =>
    intro b level _ hsame hw
    cases hsame
    exact hw
  | @array as _ ih =>
    intro b level hb hsame hw
    cases hsame with
    | @array _ bs hlen hall =>
      cases hb with
      | array hb =>
        rw [arrayWritable_iff] at hw ⊢
        intro y hy
        obtain ⟨x, hx, hxy⟩ := same_element (.array hlen hall) hy
        obtain ⟨⟨hfits, hwrite⟩, hown⟩ := hw x hx
        exact ⟨⟨hfits, ih x hx (hb y hy) hxy hwrite⟩, hown⟩
  | @object as _ _ ih =>
    intro b level hb hsame hw
    cases hsame with
    | @object _ bs hperm hall =>
      cases hb with
      | object hnodup hb =>
        rw [objectWritable_iff] at hw ⊢
        refine ⟨fun c hc => ?_, hw.2⟩
        obtain ⟨x, hx, hxc⟩ := same_member (.object hperm hall) hnodup hc
        obtain ⟨hfits, hkey, hwrite⟩ := hw.1 (c.1, x) hx
        exact ⟨hfits, hkey, ih (c.1, x) hx (hb c hc) hxc hwrite⟩

theorem writable_same {b : JsonElement} (ha : DistinctKeys a) (hb : DistinctKeys b) (h : Same a b) :
    writable w level a = writable w level b :=
  Bool.eq_iff_iff.mpr ⟨writable_of_same ha hb h, writable_of_same hb ha (same_symm h)⟩

theorem prettyWritable_same {indentLevel : ℕ} {b : JsonElement} (ha : DistinctKeys a) (hb : DistinctKeys b)
    (h : Same a b) : prettyWritable indentLevel a = prettyWritable indentLevel b := by
  cases h with
  | primitive type value => rfl
  | array hlen hall => exact writable_same ha hb (.array hlen hall)
  | object hperm hall => exact writable_same ha hb (.object hperm hall)

/-! ## The writers on a sorted element -/

theorem jsonWrite_eq {c : JsonElement} (h : jsonSorted a = some c) (indentLevel : ℕ) :
    jsonWrite a indentLevel = if prettyWritable indentLevel c = true then
      some (ownIndent indentLevel c ++ valueText prettyBlanks indentLevel c) else none := by
  rw [jsonWrite, h]
  simp only [Option.bind_eq_bind, Option.bind_some, Option.pure_def]

theorem jsonWriteCompact_eq {c : JsonElement} (h : jsonSorted a = some c) :
    jsonWriteCompact a = if writable compactBlanks 0 c = true then some (valueText compactBlanks 0 c) else none := by
  rw [jsonWriteCompact, h]
  simp only [Option.bind_eq_bind, Option.bind_some, Option.pure_def]

end Libntech.Json
