import Libntech.Json.NumberMeaning
import Mathlib.Data.List.TakeWhile

/-! # YAML scalars (`JsonParseYamlScalarValue`, `libutils/json-yaml.c`)

A scalar that may be a number goes to `JsonParseAsNumber`, which reports success at the first separator of JSON. The
position where it stopped is not looked at.
-/
namespace Libntech.Json
set_option autoImplicit false

/-! ## The reader -/

/-- The tags that the code compares with, macros of libyaml. -/
structure YamlTags where
  null : Bytes
  bool : Bytes
  int : Bytes
  float : Bytes
  defaultScalar : Bytes

/-- The scalar of an event, as libyaml delivers it: the text of a plain scalar is a string of that length. -/
structure YamlScalarEvent where
  tag : Option Bytes
  value : CString
  length : ℕ
  plainImplicit : Bool
  quotedImplicit : Bool
  length_eq : length = value.bytes.length

section Reader

variable (tags : YamlTags) (event : YamlScalarEvent)

def YamlScalarEvent.tagOrDefault : Bytes := event.tag.getD tags.defaultScalar

def isOneOf (value : Bytes) (words : List String) : Bool := words.any fun word => ascii word == value

def yamlIsNull : Bool :=
  let value := event.value.bytes
  (event.tagOrDefault tags == tags.null || event.plainImplicit) &&
    ((event.length == 1 && value.head? == some '~'.toUInt8) || event.length == 0 ||
      isOneOf value ["NULL", "Null", "null"])

/-- The boolean that the scalar stands for. The second case never arises: a tagged scalar is in the first. -/
def yamlBool : Option Bool :=
  let tag := event.tagOrDefault tags
  let value := event.value.bytes
  if !event.quotedImplicit && (event.plainImplicit || tag == tags.bool) then
    if (event.length == 1 && (value.head? == some 'Y'.toUInt8 || value.head? == some 'y'.toUInt8)) ||
        isOneOf value ["YES", "Yes", "yes", "TRUE", "True", "true", "ON", "On", "on"] then some true
    else if (event.length == 1 && (value.head? == some 'N'.toUInt8 || value.head? == some 'n'.toUInt8)) ||
        isOneOf value ["NO", "No", "no", "FALSE", "False", "false", "OFF", "Off", "off"] then some false
    else none
  else if !event.quotedImplicit && !event.plainImplicit && tag == tags.bool then
    if event.length == 0 || (event.length == 1 && value.head? == some '0'.toUInt8) then some false else some true
  else none

def yamlMayBeNumber : Bool :=
  let tag := event.tagOrDefault tags
  !event.quotedImplicit && (event.plainImplicit || tag == tags.int || tag == tags.float)

def jsonParseYamlScalarValue : Outcome JsonElement :=
  let value := event.value.bytes
  if yamlIsNull tags event then .ok jsonNullCreate
  else
    match yamlBool tags event with
    | some b => .ok (jsonBoolCreate b)
    | none =>
      if yamlMayBeNumber tags event then
        match parseAsNumber value 0 with
        | .ok (tobuild, _) => .ok tobuild
        | .error _ => .ok (.primitive .string value)
        | .outOfBounds => .outOfBounds
        | .outOfFuel => .outOfFuel
      -- timestamps, strings and unknown tags
      else .ok (.primitive .string value)

end Reader

/-! ## What is dropped -/

section Meaning

variable {tags : YamlTags} {event : YamlScalarEvent}

/-- The reader returns an element: a number only if `JsonParseAsNumber` accepts the whole text for it, and a string
only if it is the whole text. -/
def KeepsText (tags : YamlTags) (event : YamlScalarEvent) : Prop :=
  (∃ e, jsonParseYamlScalarValue tags event = .ok e) ∧
    (∀ type v, jsonParseYamlScalarValue tags event = .ok (.primitive type v) → type = .integer ∨ type = .real →
      ∃ q, parseAsNumber event.value.bytes 0 = .ok (.primitive type v, q) ∧ q + 1 = event.length ∧
        v = event.value.bytes) ∧
    ∀ v, jsonParseYamlScalarValue tags event = .ok (.primitive .string v) → v = event.value.bytes

/-- The scalar is tried as a number. -/
def NumberTried (tags : YamlTags) (event : YamlScalarEvent) : Prop :=
  yamlIsNull tags event = false ∧ yamlBool tags event = none ∧ yamlMayBeNumber tags event = true

/-- The text has a separator, and `JsonParseAsNumber` accepts what is before the first. -/
def NumberThenSeparator (text : Bytes) : Prop :=
  Accepts numberStart (numberText text 0) ∧ ∃ c ∈ text, isSeparator c = true

theorem numberText_eq_iff (text : Bytes) : numberText text 0 = text ↔ ∀ c ∈ text, isSeparator c = false := by
  rw [numberText, List.drop_zero, List.takeWhile_eq_self_iff]
  simp

theorem parseAsNumber_refused (text : CString) (h : ¬ Accepts numberStart (numberText text.bytes 0)) :
    ∃ e, parseAsNumber text.bytes 0 = .error e := by
  obtain ⟨r, hat, hv, hr⟩ := numberText_split text.bytes (Nat.zero_le _)
  rw [parseAsNumber_eq text.nul_free hat hv hr]
  cases hrun : numberRun numberStart (numberText text.bytes 0) with
  | error e => exact ⟨e, rfl⟩
  | ok n =>
    have hend : ¬ endsInDigit n = true := fun hend => h ⟨n, hrun, hend⟩
    exact ⟨.numberDigitEnd, if_neg hend⟩

theorem keepsText_of_other {e : JsonElement} (h : jsonParseYamlScalarValue tags event = .ok e)
    (htype : ∀ type v, e = .primitive type v → type ≠ .integer ∧ type ≠ .real)
    (hstring : ∀ v, e = .primitive .string v → v = event.value.bytes) : KeepsText tags event := by
  refine ⟨⟨e, h⟩, fun type v hv hnum => ?_, fun v hv => ?_⟩
  · rw [h, Outcome.ok.injEq] at hv
    obtain ⟨h₁, h₂⟩ := htype type v hv
    exact absurd hnum (not_or.mpr ⟨h₁, h₂⟩)
  · rw [h, Outcome.ok.injEq] at hv
    exact hstring v hv

/-- A number is found at the start of the text: the whole text is kept exactly if it has no separator. -/
theorem keepsText_number_iff (htried : NumberTried tags event)
    (hacc : Accepts numberStart (numberText event.value.bytes 0)) :
    KeepsText tags event ↔ ∀ c ∈ event.value.bytes, isSeparator c = false := by
  obtain ⟨hnull, hbool, hmay⟩ := htried
  have hparse := (parseAsNumber_ok_iff event.value (Nat.zero_le _)).mpr ⟨hacc, rfl, rfl⟩
  have heq : jsonParseYamlScalarValue tags event = .ok (.primitive
      (if '.'.toUInt8 ∈ numberText event.value.bytes 0 then .real else .integer) (numberText event.value.bytes 0)) := by
    simp only [jsonParseYamlScalarValue, hnull, hbool, hmay, if_true, Bool.false_eq_true, if_false, hparse]
  rw [← numberText_eq_iff]
  constructor
  · rintro ⟨_, hnum, _⟩
    obtain ⟨_, _, _, hv⟩ := hnum _ _ heq (by split <;> simp)
    exact hv
  · intro hall
    refine ⟨⟨_, heq⟩, fun type v hv _ => ?_, fun v hv => ?_⟩
    · rw [heq, Outcome.ok.injEq] at hv
      have hpos := accepts_ne_nil hacc
      rw [hv] at hparse
      refine ⟨_, hparse, ?_, ?_⟩
      · rw [hall] at hpos ⊢
        rw [event.length_eq]
        omega
      · rw [← (JsonElement.primitive.inj hv).2, hall]
    · rw [heq, Outcome.ok.injEq] at hv
      have htype := (JsonElement.primitive.inj hv).1
      split at htype
      · cases htype
      · cases htype

/-- Nothing of a scalar is dropped, exactly if it is not tried as a number or does not start with a number and a
separator behind it. -/
theorem keepsText_iff (tags : YamlTags) (event : YamlScalarEvent) :
    KeepsText tags event ↔ ¬ (NumberTried tags event ∧ NumberThenSeparator event.value.bytes) := by
  have hstring : jsonParseYamlScalarValue tags event = .ok (.primitive .string event.value.bytes) →
      KeepsText tags event := by
    intro h
    refine keepsText_of_other h (fun type v hv => ?_) fun v hv => ?_
    · rw [← (JsonElement.primitive.inj hv).1]
      simp
    · exact (JsonElement.primitive.inj hv).2.symm
  cases hnull : yamlIsNull tags event with
  | true =>
    refine iff_of_true (keepsText_of_other (e := jsonNullCreate) ?_ (fun type v hv => ?_) fun v hv => ?_) fun h => ?_
    · rw [jsonParseYamlScalarValue, hnull]
      rfl
    · rw [← (JsonElement.primitive.inj hv).1]
      simp
    · cases hv
    · rw [h.1.1] at hnull
      cases hnull
  | false =>
    cases hbool : yamlBool tags event with
    | some b =>
      refine iff_of_true (keepsText_of_other (e := jsonBoolCreate b) ?_ (fun type v hv => ?_) fun v hv => ?_) fun h => ?_
      · rw [jsonParseYamlScalarValue, hnull, hbool]
        rfl
      · rw [← (JsonElement.primitive.inj hv).1]
        simp
      · cases hv
      · rw [h.1.2.1] at hbool
        cases hbool
    | none =>
      cases hmay : yamlMayBeNumber tags event with
      | false =>
        refine iff_of_true (hstring ?_) fun h => ?_
        · rw [jsonParseYamlScalarValue, hnull, hbool, hmay]
          rfl
        · rw [h.1.2.2] at hmay
          cases hmay
      | true =>
        have htried : NumberTried tags event := ⟨hnull, hbool, hmay⟩
        by_cases hacc : Accepts numberStart (numberText event.value.bytes 0)
        · rw [keepsText_number_iff htried hacc]
          refine ⟨fun hall h => ?_, fun h c hc => ?_⟩
          · obtain ⟨_, _, c, hc, hsep⟩ := h
            rw [hall c hc] at hsep
            cases hsep
          · by_contra hsep
            exact h ⟨htried, hacc, c, hc, by simpa using hsep⟩
        · refine iff_of_true (hstring ?_) fun h => hacc h.2.1
          obtain ⟨e, he⟩ := parseAsNumber_refused event.value hacc
          simp only [jsonParseYamlScalarValue, hnull, hbool, hmay, if_true, Bool.false_eq_true, if_false, he]

/-- The tags of the YAML specification. -/
def yamlTags : YamlTags :=
  ⟨ascii "tag:yaml.org,2002:null", ascii "tag:yaml.org,2002:bool", ascii "tag:yaml.org,2002:int",
    ascii "tag:yaml.org,2002:float", ascii "tag:yaml.org,2002:str"⟩

/-- The plain scalar `1,2`. -/
def oneCommaTwo : YamlScalarEvent := ⟨none, ⟨ascii "1,2", by decide⟩, 3, true, false, rfl⟩

/-- It becomes the number 1. -/
theorem oneCommaTwo_dropped :
    jsonParseYamlScalarValue yamlTags oneCommaTwo = .ok (.primitive .integer (ascii "1")) ∧
      ¬ KeepsText yamlTags oneCommaTwo := by
  have hone : jsonParseYamlScalarValue yamlTags oneCommaTwo = .ok (.primitive .integer (ascii "1")) := rfl
  refine ⟨hone, fun h => ?_⟩
  obtain ⟨_, _, _, hv⟩ := h.2.1 _ _ hone (.inl rfl)
  exact absurd hv (by decide)

end Meaning

end Libntech.Json
