import Libntech.Json.WriteMeaning

/-! # The elements that the parser and the create functions produce

`JsonParse` fills every container with the append functions, as its callers do. So no object it returns has two
members of one name, and a boolean or a null has its one text.
-/
namespace Libntech.Json
set_option autoImplicit false

/-- The elements that a caller gets from `JsonParse` and the create functions, and makes of them by appending. -/
inductive Produced : JsonElement → Prop where
  | parsed (s : CString) {e : JsonElement} {p : ℕ} : jsonParse s.bytes = .ok (e, p) → Produced e
  | built {e : JsonElement} : Built e → Produced e
  | arrayAppend {children : List JsonElement} {element : JsonElement} : Produced (.array children) → Produced element →
      Produced (.array (children ++ [element]))
  | objectAppend {children : List (Bytes × JsonElement)} {element : JsonElement} (key : CString) :
      Produced (.object children) → Produced element → Produced (.object (appendElement children key.bytes element))

/-- One member of each name, and the texts of `JsonBoolCreate` and `JsonNullCreate`. -/
inductive Sound : JsonElement → Prop where
  | primitive {type : JsonPrimitiveType} {value : Bytes} : (type = .bool → value = jsonTrue ∨ value = jsonFalse) →
      (type = .null → value = jsonNull) → Sound (.primitive type value)
  | array {children : List JsonElement} : (∀ e ∈ children, Sound e) → Sound (.array children)
  | object {children : List (Bytes × JsonElement)} : (children.map Prod.fst).Nodup → (∀ c ∈ children, Sound c.2) →
      Sound (.object children)

variable {e : JsonElement} {r r' : Bytes}

theorem Sound.distinctKeys (h : Sound e) : DistinctKeys e := by
  induction h with
  | primitive _ _ => exact .primitive _ _
  | array _ ih => exact .array ih
  | object hnodup _ ih => exact .object hnodup ih

theorem Sound.string (value : Bytes) : Sound (.primitive .string value) := .primitive nofun nofun

theorem Sound.bool (b : Bool) : Sound (jsonBoolCreate b) := by
  refine .primitive (fun _ => ?_) nofun
  cases b with
  | false => exact .inr rfl
  | true => exact .inl rfl

theorem Sound.null : Sound jsonNullCreate := .primitive nofun fun _ => rfl

theorem Regular.sound (h : Regular e) : Sound e := by
  induction h with
  | string _ => exact .string _
  | integer _ _ _ => exact .primitive nofun nofun
  | real _ _ => exact .primitive nofun nofun
  | bool b => exact .bool b
  | null => exact .null
  | array _ ih => exact .array ih
  | object hnodup _ _ ih => exact .object hnodup ih

theorem Sound.arrayAppend {children : List JsonElement} (h : Sound (.array children)) (he : Sound e) :
    Sound (.array (children ++ [e])) := by
  cases h with
  | array hall =>
    refine .array fun x hx => ?_
    rcases List.mem_append.mp hx with hx | hx
    · exact hall x hx
    · rw [List.mem_singleton.mp hx]
      exact he

theorem Sound.objectAppend {children : List (Bytes × JsonElement)} (key : Bytes) (h : Sound (.object children))
    (he : Sound e) : Sound (.object (appendElement children key e)) := by
  cases h with
  | object hnodup hall =>
    refine .object (appendElement_nodup hnodup) fun c hc => ?_
    rcases List.mem_append.mp hc with hc | hc
    · exact hall c (mem_removeKey hc)
    · rw [List.mem_singleton.mp hc]
      exact he

/-! ## Parsed elements -/

theorem scalar_sound {v : Bytes} (h : Scalar v e) : Sound e := by
  cases h with
  | @number n _ _ =>
    refine .primitive (fun heq => ?_) (fun heq => ?_)
    · split at heq
      · cases heq
      · cases heq
    · split at heq
      · cases heq
      · cases heq
  | true => exact .bool true
  | false => exact .bool false
  | null => exact .null

/-- The property passes from scalars and strings to whole documents, as the parser appends them. -/
structure ParseClosed (P : JsonElement → Prop) : Prop where
  string (t : Bytes) : P (.primitive .string t)
  scalar {v : Bytes} {e : JsonElement} : Scalar v e → P e
  arrayEmpty : P (.array [])
  arrayAppend {children : List JsonElement} {e : JsonElement} : P (.array children) → P e → P (.array (children ++ [e]))
  objectEmpty : P (.object [])
  objectAppend {children : List (Bytes × JsonElement)} {e : JsonElement} (key : Bytes) : P (.object children) → P e →
    P (.object (appendElement children key e))

/-- The property of the element that the frame would be if it were closed now. -/
def Frame.SoFar (P : JsonElement → Prop) : Frame → Prop
  | array _ children => P (.array children)
  | object _ o => P (.object o.children)

section Closed

variable {P : JsonElement → Prop} (hP : ParseClosed P) {f g : Frame}

include hP in
theorem value_soFar {last : UInt8} (hf : f.SoFar P) (he : P e) (hg : f.value last e = some g) :
    g.SoFar P := by
  obtain ⟨prev, children⟩ | ⟨prev, name, children⟩ := f
  · obtain rfl := Option.some.inj hg
    exact hP.arrayAppend hf he
  · cases name with
    | none => cases hg
    | some key =>
      obtain rfl := Option.some.inj hg
      exact hP.objectAppend key hf he

include hP in
theorem text_soFar {b : Bytes} (hf : f.SoFar P) (hg : f.text b = some g) : g.SoFar P := by
  obtain ⟨prev, children⟩ | ⟨prev, name, children⟩ := f
  · obtain rfl := Option.some.inj hg
    exact hP.arrayAppend hf (hP.string _)
  · cases name with
    | some key =>
      obtain rfl := Option.some.inj hg
      exact hP.objectAppend key hf (hP.string _)
    | none =>
      rw [Frame.text] at hg
      split at hg
      · obtain rfl := Option.some.inj hg
        exact hf
      · cases hg

theorem punct_soFar {c : UInt8} (hf : f.SoFar P) (hg : f.punct c = some g) : g.SoFar P := by
  obtain ⟨prev, children⟩ | ⟨prev, o⟩ := f
  · rw [Frame.punct] at hg
    split at hg
    · obtain rfl := Option.some.inj hg
      exact hf
    · cases hg
  · rw [Frame.punct] at hg
    split at hg
    · obtain rfl := Option.some.inj hg
      exact hf
    · cases hg

theorem key_soFar {w : Bytes} (hf : f.SoFar P) (hg : f.key w = some g) : g.SoFar P := by
  obtain ⟨prev, children⟩ | ⟨prev, name, children⟩ := f
  · cases hg
  · cases name with
    | some key => cases hg
    | none =>
      obtain rfl := Option.some.inj hg
      exact hf

include hP in
theorem opened_soFar {c : UInt8} (h : Frame.opened c = some f) : f.SoFar P := by
  rcases opened_cases h with ⟨_, rfl⟩ | ⟨_, rfl⟩
  · exact hP.arrayEmpty
  · exact hP.objectEmpty

theorem element_soFar (hf : f.SoFar P) (he : f.element = some e) : P e := by
  obtain ⟨prev, children⟩ | ⟨prev, name, children⟩ := f
  · obtain rfl := Option.some.inj he
    exact hf
  · cases name with
    | some key => cases he
    | none =>
      obtain rfl := Option.some.inj he
      exact hf

include hP in
/-- By induction over the derivation, items and closings together. -/
theorem closes_soFar {d : UInt8} (hc : Closes f r e d r') : f.SoFar P → P e := by
  refine @Closes.rec (fun f _ g _ _ => f.SoFar P → g.SoFar P) (fun f _ e _ _ _ => f.SoFar P → P e)
    ?_ ?_ ?_ ?_ ?_ ?_ ?_ ?_ f r e d r' hc
  · exact fun _ hf => hf
  · exact fun hg hf => punct_soFar hf hg
  · exact fun _ hg hf => text_soFar hP hf hg
  · exact fun hs _ _ hg hf => value_soFar hP hf (hP.scalar hs) hg
  · exact fun _ _ hg hf => key_soFar hf hg
  · exact fun _ hopen _ hg ih hf => value_soFar hP hf (ih (opened_soFar hP hopen)) hg
  · exact fun he hf => element_soFar hf he
  · exact fun _ _ ihItem ihCloses hf => ihCloses (ihItem hf)

include hP in
theorem heads_closed (h : Heads r e r') : P e := by
  induction h with
  | blank _ _ ih => exact ih
  | text _ => exact hP.string _
  | scalar hs _ => exact hP.scalar hs
  | container hopen hclose => exact closes_soFar hP hclose (opened_soFar hP hopen)

end Closed

theorem sound_parseClosed : ParseClosed Sound where
  string := .string
  scalar := scalar_sound
  arrayEmpty := .array (by simp)
  arrayAppend := Sound.arrayAppend
  objectEmpty := .object (by simp) (by simp)
  objectAppend := Sound.objectAppend

theorem heads_sound (h : Heads r e r') : Sound e := heads_closed sound_parseClosed h

theorem produced_sound (h : Produced e) : Sound e := by
  induction h with
  | parsed s hparse =>
    obtain ⟨r, hheads, _⟩ := jsonParse_heads hparse
    exact heads_sound hheads
  | built hbuilt => exact (built_regular hbuilt).sound
  | arrayAppend _ _ ihArray ihElement => exact ihArray.arrayAppend ihElement
  | objectAppend key _ _ ihObject ihElement => exact ihObject.objectAppend key.bytes ihElement

end Libntech.Json
