import Libntech.Json.Cursor

/-! # What the JSON parser accepts, and where it leaves the text

A `Frame` is what the loop of an array or of an object holds. `Item f r g r'`: with `r` ahead, one turn of
the loop in frame `f` leaves frame `g` with `r'` ahead. `Closes f r e d r'`: the text `r` completes the frame
to the element `e`, the last character read is `d` and `r'` follows. `Cut f r`: `r` goes on as a document up
to a string that ends with a backslash and nothing after it. The parser succeeds exactly on the first, and
leaves the text exactly on the second.
-/
namespace Libntech.Json
set_option autoImplicit false

inductive Frame where
  | array (prev : UInt8) (children : List JsonElement)
  | object (prev : UInt8) (o : ObjectState)

namespace Frame

/-- The frame that an opening bracket starts. -/
def opened (c : UInt8) : Option Frame :=
  if c = '['.toUInt8 then some (.array c [])
  else if c = '\x7b'.toUInt8 then some (.object c ⟨none, []⟩)
  else none

/-- The bracket that ends the frame. -/
def closer : Frame → UInt8
  | array _ _ => ']'.toUInt8
  | object _ _ => '\x7d'.toUInt8

/-- The element, when the frame may be closed now. -/
def element : Frame → Option JsonElement
  | array _ children => some (.array children)
  | object _ ⟨none, children⟩ => some (.object children)
  | object _ ⟨some _, _⟩ => none

/-- The frame after a value whose last character is `last`. -/
def value : Frame → UInt8 → JsonElement → Option Frame
  | array _ children, last, e => some (.array last (children ++ [e]))
  | object _ ⟨none, _⟩, _, _ => none
  | object _ ⟨some key, children⟩, last, e => some (.object last ⟨none, appendElement children key e⟩)

/-- The frame after a quoted string, which is a value or a key. -/
def text : Frame → Bytes → Option Frame
  | array _ children, t => some (.array '"'.toUInt8 (children ++ [.primitive .string (decodeString t)]))
  | object prev ⟨none, children⟩, t =>
    if prev = '\x7b'.toUInt8 ∨ prev = ','.toUInt8 then some (.object '"'.toUInt8 ⟨some t, children⟩) else none
  | object _ ⟨some key, children⟩, t =>
    some (.object '"'.toUInt8 ⟨none, appendElement children key (.primitive .string (decodeString t))⟩)

/-- The frame after an unquoted key, on its colon. -/
def key : Frame → Bytes → Option Frame
  | object _ ⟨none, children⟩, w => some (.object ':'.toUInt8 ⟨some w, children⟩)
  | _, _ => none

def isPunct : Frame → UInt8 → Bool
  | array _ _, c => c == ','.toUInt8
  | object _ _, c => c == ','.toUInt8 || c == ':'.toUInt8

def punct : Frame → UInt8 → Option Frame
  | array prev children, c =>
    if c = ','.toUInt8 ∧ prev ≠ ','.toUInt8 ∧ prev ≠ '['.toUInt8 then some (.array c children) else none
  | object prev o, c =>
    if prev ≠ ':'.toUInt8 ∧ prev ≠ ','.toUInt8 ∧
        (c = ':'.toUInt8 ∧ o.name ≠ none ∨ c = ','.toUInt8 ∧ o.name = none) then
      some (.object c o)
    else none

/-- Whether an array or an object may start now. -/
def nests : Frame → Bool
  | array prev _ => prev == '['.toUInt8 || prev == ','.toUInt8
  | object _ o => o.name.isSome

end Frame

mutual

inductive Item : Frame → Bytes → Frame → Bytes → Prop where
  | blank {f : Frame} {c : UInt8} {r : Bytes} : isWhitespace c = true → Item f (c :: r) f r
  | punct {f g : Frame} {c : UInt8} {r : Bytes} : f.punct c = some g → Item f (c :: r) g r
  | text {f g : Frame} {b r : Bytes} : StringBody b → f.text (unescape b) = some g →
      Item f ('"'.toUInt8 :: (b ++ '"'.toUInt8 :: r)) g r
  | scalar {f g : Frame} {v r : Bytes} {e : JsonElement} {last : UInt8} : Scalar v e → v.getLast? = some last →
      Ends v r → f.value last e = some g → Item f (v ++ r) g r
  | key {f g : Frame} {w ws r : Bytes} : BareWord w → (∀ x ∈ ws, isWhitespace x = true) → f.key w = some g →
      Item f (w ++ (ws ++ ':'.toUInt8 :: r)) g r
  | nested {f g h : Frame} {c d : UInt8} {r r' : Bytes} {e : JsonElement} : f.nests = true →
      Frame.opened c = some h → Closes h r e d r' → f.value d e = some g → Item f (c :: r) g r'

inductive Closes : Frame → Bytes → JsonElement → UInt8 → Bytes → Prop where
  | here {f : Frame} {e : JsonElement} {r : Bytes} : f.element = some e → Closes f (f.closer :: r) e f.closer r
  | item {f g : Frame} {r r' r'' : Bytes} {e : JsonElement} {d : UInt8} : Item f r g r' → Closes g r' e d r'' →
      Closes f r e d r''

end

/-- The text goes on item by item to a place where `P` holds, in this frame or in one inside it. -/
inductive Reaches (P : Frame → Bytes → Prop) : Frame → Bytes → Prop where
  | here {f : Frame} {r : Bytes} : P f r → Reaches P f r
  | nested {f h : Frame} {c : UInt8} {r : Bytes} : f.nests = true → Frame.opened c = some h → Reaches P h r →
      Reaches P f (c :: r)
  | item {f g : Frame} {r r' : Bytes} : Item f r g r' → Reaches P g r' → Reaches P f r

/-- A string that ends with a backslash and nothing after it. -/
def CutHere (f : Frame) (r : Bytes) : Prop :=
  ∃ b, f.text b ≠ none ∧ StringBody b ∧ r = '"'.toUInt8 :: (b ++ ['\\'.toUInt8])

abbrev Cut : Frame → Bytes → Prop := Reaches CutHere

/-! ## The two loops as one -/

/-- The loop over a frame. -/
def Frame.loop (s : Bytes) (fuel p : ℕ) : Frame → Outcome (JsonElement × ℕ)
  | array prev children => parseArrayLoop s fuel p prev children
  | object prev o => parseObjectLoop s fuel p prev o

/-- What one turn does with a character that is neither whitespace nor the closing bracket. -/
def Frame.item (s : Bytes) (fuel p : ℕ) (c : UInt8) : Frame → Outcome (Frame × ℕ)
  | array prev children => do
    let (children, q) ← arrayItem s (parseAsArray s fuel) (parseAsObject s fuel) p c prev children
    let prev ← peek s q
    return (.array prev children, q)
  | object prev o => do
    let (o, q) ← objectItem s (parseAsArray s fuel) (parseAsObject s fuel) p c prev o
    let prev ← peek s q
    return (.object prev o, q)

section Turns

attribute [local simp] Frame.loop parseArrayLoop parseObjectLoop

variable {s r : Bytes} {p n : ℕ} {c : UInt8} (f : Frame)

theorem loop_end (h : At s p []) : ∃ e, f.loop s (n + 1) p = .error e := by
  cases f with
  | array prev children => exact ⟨.arrayEnd, by simp [h.peek_nil]⟩
  | object prev o => exact ⟨.objectEnd, by simp [h.peek_nil]⟩

variable (h0 : 0 ∉ s) (h : At s p (c :: r))
include h0 h

theorem loop_blank (hc : isWhitespace c = true) : f.loop s (n + 1) p = f.loop s n (p + 1) := by
  cases f with
  | array prev children => simp [h.peek_cons, h.ne_zero h0, hc]
  | object prev o => simp [h.peek_cons, h.ne_zero h0, hc]

theorem loop_closer (hc : c = f.closer) :
    (∃ e, f.element = some e ∧ f.loop s (n + 1) p = .ok (e, p)) ∨
      f.element = none ∧ ∃ e, f.loop s (n + 1) p = .error e := by
  cases f with
  | array prev children =>
    obtain rfl : c = ']'.toUInt8 := hc
    have hws : isWhitespace ']'.toUInt8 = false := by decide
    refine .inl ⟨_, rfl, ?_⟩
    simp [h.peek_cons, h.ne_zero h0, hws]
  | object prev o =>
    obtain rfl : c = '\x7d'.toUInt8 := hc
    have hws : isWhitespace '\x7d'.toUInt8 = false := by decide
    obtain ⟨name, children⟩ := o
    cases name with
    | none =>
      refine .inl ⟨_, rfl, ?_⟩
      simp [h.peek_cons, h.ne_zero h0, hws]
    | some key =>
      refine .inr ⟨rfl, .objectOpenLval, ?_⟩
      simp [h.peek_cons, h.ne_zero h0, hws]

theorem loop_item (hws : isWhitespace c = false) (hc : c ≠ f.closer) :
    f.loop s (n + 1) p = f.item s n p c >>= fun a => a.1.loop s n (a.2 + 1) := by
  cases f with
  | array prev children =>
    have hc : c ≠ ']'.toUInt8 := hc
    simp only [Frame.loop, parseArrayLoop, h.peek_cons, Outcome.ok_bind, h.ne_zero h0, hws, hc, if_false,
      Bool.false_eq_true, Frame.item]
    cases arrayItem s (parseAsArray s n) (parseAsObject s n) p c prev children with
    | ok a =>
      simp only [Outcome.ok_bind]
      cases peek s a.2 <;> rfl
    | error e => rfl
    | outOfBounds => rfl
    | outOfFuel => rfl
  | object prev o =>
    have hc : c ≠ '\x7d'.toUInt8 := hc
    simp only [Frame.loop, parseObjectLoop, h.peek_cons, Outcome.ok_bind, h.ne_zero h0, hws, hc, if_false,
      Bool.false_eq_true, Frame.item]
    cases objectItem s (parseAsArray s n) (parseAsObject s n) p c prev o with
    | ok a =>
      simp only [Outcome.ok_bind]
      cases peek s a.2 <;> rfl
    | error e => rfl
    | outOfBounds => rfl
    | outOfFuel => rfl

end Turns

/-! ## Characters with a meaning of their own -/

variable {g : Frame} {c : UInt8}

theorem punct_mark {f : Frame} (hg : f.punct c = some g) : isWhitespace c = false ∧ c ≠ f.closer := by
  obtain ⟨prev, children⟩ | ⟨prev, o⟩ := f
  · obtain rfl : c = ','.toUInt8 := by
      by_contra hc
      exact absurd hg (by simp [Frame.punct, hc])
    exact ⟨by decide, by simp [Frame.closer, Char.toUInt8]⟩
  · have hcase : c = ':'.toUInt8 ∨ c = ','.toUInt8 := by
      by_contra hc
      simp only [not_or] at hc
      exact absurd hg (by simp [Frame.punct, hc])
    rcases hcase with rfl | rfl
    · exact ⟨by decide, by simp [Frame.closer, Char.toUInt8]⟩
    · exact ⟨by decide, by simp [Frame.closer, Char.toUInt8]⟩

theorem quote_ne_closer (f : Frame) : '"'.toUInt8 ≠ f.closer := by
  cases f with
  | array prev children => simp [Frame.closer, Char.toUInt8]
  | object prev o => simp [Frame.closer, Char.toUInt8]

theorem opened_cases {h : Frame} (hopen : Frame.opened c = some h) :
    (c = '['.toUInt8 ∧ h = .array c []) ∨ (c = '\x7b'.toUInt8 ∧ h = .object c ⟨none, []⟩) := by
  unfold Frame.opened at hopen
  split at hopen
  · exact .inl ⟨‹_›, (Option.some.inj hopen).symm⟩
  · split at hopen
    · exact .inr ⟨‹_›, (Option.some.inj hopen).symm⟩
    · cases hopen

theorem opened_mark (f : Frame) {h : Frame} (hopen : Frame.opened c = some h) :
    isWhitespace c = false ∧ c ≠ f.closer := by
  rcases opened_cases hopen with ⟨rfl, _⟩ | ⟨rfl, _⟩
  · refine ⟨by decide, ?_⟩
    cases f with
    | array prev children => simp [Frame.closer, Char.toUInt8]
    | object prev o => simp [Frame.closer, Char.toUInt8]
  · refine ⟨by decide, ?_⟩
    cases f with
    | array prev children => simp [Frame.closer, Char.toUInt8]
    | object prev o => simp [Frame.closer, Char.toUInt8]

/-! ## One item -/

section Texts

variable {s t : Bytes} {p n : ℕ} {f : Frame}

theorem item_text_ok {q : ℕ} (hg : f.text t = some g) (hp : parseAsString s p = .ok (t, q))
    (hq : peek s q = .ok '"'.toUInt8) : f.item s n p '"'.toUInt8 = .ok (g, q) := by
  obtain ⟨prev, children⟩ | ⟨prev, name, children⟩ := f
  · obtain rfl := Option.some.inj hg
    simp [Frame.item, arrayItem, hp, hq]
  · cases name with
    | some key =>
      obtain rfl := Option.some.inj hg
      simp [Frame.item, objectItem, hp, hq, ObjectState.put]
    | none =>
      by_cases hprev : prev = '\x7b'.toUInt8 ∨ prev = ','.toUInt8
      · have hneg : ¬ (prev ≠ '\x7b'.toUInt8 ∧ prev ≠ ','.toUInt8) := by tauto
        obtain rfl : Frame.object '"'.toUInt8 ⟨some t, children⟩ = g := by simpa [Frame.text, hprev] using hg
        simp only [Frame.item, objectItem, if_true, hneg, if_false, hp, Outcome.ok_bind, hq, Outcome.pure_eq]
      · exact absurd hg (by simp [Frame.text, hprev])

/-- Whatever keeps the string from being read shows in the item, if the frame takes one at all. -/
theorem item_text_stop (hg : f.text t ≠ none) :
    (∀ e, parseAsString s p = .error e → f.item s n p '"'.toUInt8 = .error e) ∧
      (parseAsString s p = .outOfBounds → f.item s n p '"'.toUInt8 = .outOfBounds) := by
  obtain ⟨prev, children⟩ | ⟨prev, name, children⟩ := f
  · refine ⟨fun e hp => ?_, fun hp => ?_⟩
    · simp [Frame.item, arrayItem, hp]
    · simp [Frame.item, arrayItem, hp]
  · cases name with
    | some key =>
      refine ⟨fun e hp => ?_, fun hp => ?_⟩
      · simp [Frame.item, objectItem, hp]
      · simp [Frame.item, objectItem, hp]
    | none =>
      have hneg : ¬ (prev ≠ '\x7b'.toUInt8 ∧ prev ≠ ','.toUInt8) := by
        intro hprev
        exact hg (by simp [Frame.text, hprev])
      refine ⟨fun e hp => ?_, fun hp => ?_⟩
      · simp only [Frame.item, objectItem, if_true, hneg, if_false, hp, Outcome.error_bind]
      · simp only [Frame.item, objectItem, if_true, hneg, if_false, hp, Outcome.outOfBounds_bind]

theorem item_text_none (hg : f.text t = none) : ∃ e, f.item s n p '"'.toUInt8 = .error e := by
  obtain ⟨prev, children⟩ | ⟨prev, name, children⟩ := f
  · exact absurd hg (by simp [Frame.text])
  · cases name with
    | some key => exact absurd hg (by simp [Frame.text])
    | none =>
      refine ⟨.objectCommaMissing, ?_⟩
      have hprev : prev ≠ '\x7b'.toUInt8 ∧ prev ≠ ','.toUInt8 := by
        simpa [Frame.text] using hg
      simp [Frame.item, objectItem, hprev]

end Texts

section Brackets

variable {s : Bytes} {p n : ℕ} {f h : Frame} {c : UInt8}

theorem value_of_nests (hn : f.nests = true) (last : UInt8) (e : JsonElement) : ∃ g, f.value last e = some g := by
  obtain ⟨prev, children⟩ | ⟨prev, name, children⟩ := f
  · exact ⟨_, rfl⟩
  · cases name with
    | some key => exact ⟨_, rfl⟩
    | none => exact absurd hn (by simp [Frame.nests])

theorem item_nested (hopen : Frame.opened c = some h) (hc : peek s p = .ok c) (hn : f.nests = true) :
    f.item s (n + 1) p c = h.loop s n (p + 1) >>= fun a => peek s a.2 >>= fun d =>
      match f.value d a.1 with
      | some g => .ok (g, a.2)
      | none => .error .objectBadSymbol := by
  have hcase := opened_cases hopen
  obtain ⟨prev, children⟩ | ⟨prev, name, children⟩ := f
  · have hprev : ¬ (prev ≠ '['.toUInt8 ∧ prev ≠ ','.toUInt8) := by
      intro hprev
      exact absurd hn (by simp [Frame.nests, hprev])
    rcases hcase with ⟨rfl, rfl⟩ | ⟨rfl, rfl⟩
    · have h₁ : '['.toUInt8 ≠ '"'.toUInt8 := by decide
      simp only [Frame.item, arrayItem, h₁, if_false, if_true, hprev, parseAsArray, hc, Outcome.ok_bind, ne_eq,
        not_true_eq_false, Frame.loop]
      cases parseArrayLoop s n (p + 1) '['.toUInt8 [] with
      | ok a => rfl
      | error e => rfl
      | outOfBounds => rfl
      | outOfFuel => rfl
    · have h₁ : '\x7b'.toUInt8 ≠ '"'.toUInt8 := by decide
      have h₂ : '\x7b'.toUInt8 ≠ '['.toUInt8 := by decide
      simp only [Frame.item, arrayItem, h₁, h₂, if_false, if_true, hprev, parseAsObject, hc, Outcome.ok_bind, ne_eq,
        not_true_eq_false, Frame.loop]
      cases parseObjectLoop s n (p + 1) '\x7b'.toUInt8 ⟨none, []⟩ with
      | ok a => rfl
      | error e => rfl
      | outOfBounds => rfl
      | outOfFuel => rfl
  · cases name with
    | none => exact absurd hn (by simp [Frame.nests])
    | some key =>
      rcases hcase with ⟨rfl, rfl⟩ | ⟨rfl, rfl⟩
      · have h₁ : '['.toUInt8 ≠ '"'.toUInt8 := by decide
        have h₂ : '['.toUInt8 ≠ ':'.toUInt8 := by decide
        have h₃ : '['.toUInt8 ≠ ','.toUInt8 := by decide
        simp only [Frame.item, objectItem, h₁, h₂, h₃, if_false, if_true, parseAsArray, hc, Outcome.ok_bind, ne_eq,
          not_true_eq_false, Frame.loop]
        cases parseArrayLoop s n (p + 1) '['.toUInt8 [] with
        | ok a => rfl
        | error e => rfl
        | outOfBounds => rfl
        | outOfFuel => rfl
      · have h₁ : '\x7b'.toUInt8 ≠ '"'.toUInt8 := by decide
        have h₂ : '\x7b'.toUInt8 ≠ ':'.toUInt8 := by decide
        have h₃ : '\x7b'.toUInt8 ≠ ','.toUInt8 := by decide
        have h₄ : '\x7b'.toUInt8 ≠ '['.toUInt8 := by decide
        simp only [Frame.item, objectItem, h₁, h₂, h₃, h₄, if_false, if_true, parseAsObject, hc, Outcome.ok_bind,
          ne_eq, not_true_eq_false, Frame.loop]
        cases parseObjectLoop s n (p + 1) '\x7b'.toUInt8 ⟨none, []⟩ with
        | ok a => rfl
        | error e => rfl
        | outOfBounds => rfl
        | outOfFuel => rfl

theorem item_nested_refused (hopen : Frame.opened c = some h) (hn : f.nests = false) :
    ∃ e, f.item s n p c = .error e := by
  have hcase := opened_cases hopen
  obtain ⟨prev, children⟩ | ⟨prev, name, children⟩ := f
  · have hprev : prev ≠ '['.toUInt8 ∧ prev ≠ ','.toUInt8 := by simpa [Frame.nests] using hn
    refine ⟨.arrayStart, ?_⟩
    rcases hcase with ⟨rfl, _⟩ | ⟨rfl, _⟩
    · have h₁ : '['.toUInt8 ≠ '"'.toUInt8 := by decide
      simp only [Frame.item, arrayItem, h₁, if_false, if_true]
      rw [if_pos hprev]
      rfl
    · have h₁ : '\x7b'.toUInt8 ≠ '"'.toUInt8 := by decide
      have h₂ : '\x7b'.toUInt8 ≠ '['.toUInt8 := by decide
      simp only [Frame.item, arrayItem, h₁, h₂, if_false, if_true]
      rw [if_pos hprev]
      rfl
  · cases name with
    | some key => exact absurd hn (by simp [Frame.nests])
    | none =>
      rcases hcase with ⟨rfl, _⟩ | ⟨rfl, _⟩
      · exact ⟨.objectArrayLval, by simp [Frame.item, objectItem, Char.toUInt8]⟩
      · exact ⟨.objectObjectLval, by simp [Frame.item, objectItem, Char.toUInt8]⟩

end Brackets

section Others

variable {s r : Bytes} {p n : ℕ} {f : Frame} {c : UInt8}

theorem item_punct (hc : peek s p = .ok c) (hg : f.punct c = some g) : f.item s n p c = .ok (g, p) := by
  obtain ⟨prev, children⟩ | ⟨prev, o⟩ := f
  · by_cases hcond : c = ','.toUInt8 ∧ prev ≠ ','.toUInt8 ∧ prev ≠ '['.toUInt8
    · obtain rfl : Frame.array c children = g := by simpa [Frame.punct, hcond] using hg
      obtain ⟨rfl, hp₁, hp₂⟩ := hcond
      have h₁ : ','.toUInt8 ≠ '"'.toUInt8 := by decide
      have h₂ : ','.toUInt8 ≠ '['.toUInt8 := by decide
      have h₃ : ','.toUInt8 ≠ '\x7b'.toUInt8 := by decide
      simp only [Frame.item, arrayItem, h₁, h₂, h₃, if_false, if_true, hp₁, hp₂, or_self, Outcome.ok_bind, hc,
        Outcome.pure_eq]
    · exact absurd hg (by simp [Frame.punct, hcond])
  · by_cases hcond : prev ≠ ':'.toUInt8 ∧ prev ≠ ','.toUInt8 ∧
        (c = ':'.toUInt8 ∧ o.name ≠ none ∨ c = ','.toUInt8 ∧ o.name = none)
    · obtain rfl : Frame.object c o = g := by simpa [Frame.punct, hcond] using hg
      obtain ⟨hp₁, hp₂, ⟨rfl, hn⟩ | ⟨rfl, hn⟩⟩ := hcond
      · have hne : ':'.toUInt8 ≠ '"'.toUInt8 := by decide
        simp only [Frame.item, objectItem, hne, if_false, if_true, hp₁, hp₂, hn, or_self, Outcome.ok_bind, hc,
          Outcome.pure_eq]
      · have h₁ : ','.toUInt8 ≠ '"'.toUInt8 := by decide
        have h₂ : ','.toUInt8 ≠ ':'.toUInt8 := by decide
        simp only [Frame.item, objectItem, h₁, h₂, if_false, if_true, hp₁, hp₂, hn, ne_eq, not_true_eq_false,
          or_self, Outcome.ok_bind, hc, Outcome.pure_eq]
    · exact absurd hg (by simp only [Frame.punct, hcond, if_false]; simp)

theorem item_punct_refused (hc : f.isPunct c = true) (hg : f.punct c = none) :
    ∃ e, f.item s n p c = .error e := by
  obtain ⟨prev, children⟩ | ⟨prev, name, children⟩ := f
  · obtain rfl : c = ','.toUInt8 := by simpa [Frame.isPunct] using hc
    have hprev : prev = ','.toUInt8 ∨ prev = '['.toUInt8 := by
      by_contra hno
      simp only [not_or] at hno
      exact absurd hg (by simp [Frame.punct, hno])
    refine ⟨.arrayComma, ?_⟩
    have h₁ : ','.toUInt8 ≠ '"'.toUInt8 := by decide
    have h₂ : ','.toUInt8 ≠ '['.toUInt8 := by decide
    have h₃ : ','.toUInt8 ≠ '\x7b'.toUInt8 := by decide
    simp only [Frame.item, arrayItem, h₁, h₂, h₃, if_false, if_true]
    rw [if_pos hprev]
    rfl
  · have hcase : c = ','.toUInt8 ∨ c = ':'.toUInt8 := by simpa [Frame.isPunct] using hc
    rcases hcase with rfl | rfl
    · refine ⟨.objectComma, ?_⟩
      have hbad : name ≠ none ∨ prev = ':'.toUInt8 ∨ prev = ','.toUInt8 := by
        by_contra hno
        simp only [not_or, not_not] at hno
        exact absurd hg (by simp [Frame.punct, hno])
      have h₁ : ','.toUInt8 ≠ '"'.toUInt8 := by decide
      have h₂ : ','.toUInt8 ≠ ':'.toUInt8 := by decide
      simp only [Frame.item, objectItem, h₁, h₂, if_false, if_true]
      rw [if_pos hbad]
      rfl
    · refine ⟨.objectColon, ?_⟩
      have hbad : name = none ∨ prev = ':'.toUInt8 ∨ prev = ','.toUInt8 := by
        by_contra hno
        simp only [not_or] at hno
        exact absurd hg (by simp [Frame.punct, hno])
      have h₁ : ':'.toUInt8 ≠ '"'.toUInt8 := by decide
      simp only [Frame.item, objectItem, h₁, if_false, if_true]
      rw [if_pos hbad]
      rfl

/-- A character that starts a scalar or an unquoted key, or nothing. -/
def Frame.Plain (f : Frame) (c : UInt8) : Prop :=
  c ≠ '"'.toUInt8 ∧ Frame.opened c = none ∧ f.isPunct c = false

theorem Frame.Plain.not_opened {f : Frame} (hp : f.Plain c) : c ≠ '['.toUInt8 ∧ c ≠ '\x7b'.toUInt8 := by
  obtain ⟨-, hopen, -⟩ := hp
  refine ⟨?_, ?_⟩
  · rintro rfl
    exact absurd hopen (by simp [Frame.opened])
  · rintro rfl
    exact absurd hopen (by simp [Frame.opened, Char.toUInt8])

theorem item_plain_value (hp : f.Plain c) (hv : ∀ d e, f.value d e ≠ none) :
    f.item s n p c = parseScalar s p c >>= fun a =>
      match a with
      | none => .error .objectBadSymbol
      | some (e, q) => peek s q >>= fun d =>
        match f.value d e with
        | some g => .ok (g, q)
        | none => .error .objectBadSymbol := by
  obtain ⟨h₁, h₂⟩ := hp.not_opened
  obtain ⟨hq, -, hpunct⟩ := hp
  obtain ⟨prev, children⟩ | ⟨prev, name, children⟩ := f
  · have h₃ : c ≠ ','.toUInt8 := by simpa [Frame.isPunct] using hpunct
    simp only [Frame.item, arrayItem, hq, h₁, h₂, h₃, if_false]
    cases parseScalar s p c with
    | ok a =>
      cases a with
      | none => rfl
      | some a => rfl
    | error e => rfl
    | outOfBounds => rfl
    | outOfFuel => rfl
  · have h₃ : c ≠ ','.toUInt8 ∧ c ≠ ':'.toUInt8 := by simpa [Frame.isPunct] using hpunct
    cases name with
    | none => exact absurd rfl (hv 0 jsonNullCreate)
    | some key =>
      simp only [Frame.item, objectItem, hq, h₁, h₂, h₃.1, h₃.2, if_false]
      cases parseScalar s p c with
      | ok a =>
        cases a with
        | none => rfl
        | some a => rfl
      | error e => rfl
      | outOfBounds => rfl
      | outOfFuel => rfl

theorem item_plain_key {prev : UInt8} {children : List (Bytes × JsonElement)}
    (hp : (Frame.object prev ⟨none, children⟩).Plain c) :
    (Frame.object prev ⟨none, children⟩).item s n p c = unquotedKeyWithColon s p >>= fun a =>
      match a with
      | none => .error .objectBadSymbol
      | some (word, colon) => peek s colon >>= fun d =>
        .ok (.object d ⟨some ((s.drop p).take (word - p)), children⟩, colon) := by
  obtain ⟨h₁, h₂⟩ := hp.not_opened
  obtain ⟨hq, -, hpunct⟩ := hp
  have h₃ : c ≠ ','.toUInt8 ∧ c ≠ ':'.toUInt8 := by simpa [Frame.isPunct] using hpunct
  simp only [Frame.item, objectItem, hq, h₁, h₂, h₃.1, h₃.2, if_false]
  cases unquotedKeyWithColon s p with
  | ok a =>
    cases a with
    | none => rfl
    | some a => rfl
  | error e => rfl
  | outOfBounds => rfl
  | outOfFuel => rfl

/-- The characters of words and numbers have no other meaning in any frame. -/
theorem plain_of_keyChar (f : Frame) (hc : isKeyChar c = true) :
    f.Plain c ∧ isWhitespace c = false ∧ c ≠ f.closer := by
  have hne : ∀ d, isKeyChar d = false → c ≠ d := by
    rintro d hd rfl
    exact absurd hc (by simp [hd])
  refine ⟨⟨hne _ (by decide), ?_, ?_⟩, ?_, ?_⟩
  · rw [Frame.opened, if_neg (hne _ (by decide)), if_neg (hne _ (by decide))]
  · cases f with
    | array prev children => simpa [Frame.isPunct] using hne _ (by decide)
    | object prev o => simpa [Frame.isPunct] using ⟨hne _ (by decide), hne _ (by decide)⟩
  · by_contra hws
    exact absurd hc (by simp [keyChar_whitespace (Bool.not_eq_false _ |>.mp hws)])
  · cases f with
    | array prev children => exact hne ']'.toUInt8 (by decide)
    | object prev o => exact hne '\x7d'.toUInt8 (by decide)

theorem isKeyChar_of_isDigit (hc : isDigit c = true) : isKeyChar c = true := by
  simp only [isDigit, Bool.and_eq_true, decide_eq_true_eq] at hc
  have h0 : '0'.toUInt8 ≤ c := UInt8.le_trans (by decide) hc.1
  simp [isKeyChar, isWord, h0, hc.2]

variable {e : JsonElement}

theorem scalar_head {v : Bytes} (h : Scalar v e) : ∃ c t, v = c :: t ∧ isKeyChar c = true := by
  cases h with
  | number hrun hend =>
    obtain ⟨c, t, rfl, rfl | rfl | hc⟩ := number_head hrun (number_ne_nil hrun hend)
    · exact ⟨_, t, rfl, by decide⟩
    · exact ⟨_, t, rfl, by decide⟩
    · exact ⟨c, t, rfl, isKeyChar_of_isDigit hc⟩
  | true => exact ⟨_, _, rfl, by decide⟩
  | false => exact ⟨_, _, rfl, by decide⟩
  | null => exact ⟨_, _, rfl, by decide⟩

theorem value_ne_none {last : UInt8} (hg : f.value last e = some g) (d : UInt8) (e' : JsonElement) :
    f.value d e' ≠ none := by
  obtain ⟨prev, children⟩ | ⟨prev, name, children⟩ := f
  · simp [Frame.value]
  · cases name with
    | none => cases hg
    | some key => simp [Frame.value]

variable (h0 : 0 ∉ s)
include h0

theorem item_scalar {v t : Bytes} {last : UInt8} (h : At s p (v ++ r)) (hv : Scalar v e)
    (hlast : v.getLast? = some last) (hr : Ends v r) (hg : f.value last e = some g) (hc : v = c :: t) :
    f.item s n p c = .ok (g, p + v.length - 1) := by
  have hkey : isKeyChar c = true := by
    obtain ⟨c', t', heq, hkey⟩ := scalar_head hv
    rw [hc, List.cons.injEq] at heq
    rw [heq.1]
    exact hkey
  have hpeek := h.peek_last (scalar_ne_nil hv)
  rw [List.getLast?_eq_some_getLast (scalar_ne_nil hv), Option.some.injEq] at hlast
  rw [hlast] at hpeek
  rw [item_plain_value (plain_of_keyChar f hkey).1 (value_ne_none hg), parseScalar_some h0 hv hr h hc]
  simp only [Outcome.ok_bind, hpeek, hg]

theorem item_key {w ws t : Bytes} (h : At s p (w ++ (ws ++ ':'.toUInt8 :: r))) (hw : BareWord w)
    (hws : ∀ x ∈ ws, isWhitespace x = true) (hg : f.key w = some g) (hc : w = c :: t) :
    f.item s n p c = .ok (g, p + w.length + ws.length) := by
  have hkey : isKeyChar c = true := by
    obtain ⟨hword, _⟩ := hw
    rw [List.cons.injEq] at hc
    simp [isKeyChar, ← hc.1, hword]
  have hpeek := h.skip.skip.peek_cons
  have hdrop := h.drop_eq
  obtain ⟨prev, children⟩ | ⟨prev, name, children⟩ := f
  · cases hg
  · cases name with
    | some key => cases hg
    | none =>
      obtain rfl := Option.some.inj hg
      rw [item_plain_key (plain_of_keyChar _ hkey).1, unquotedKey_some h0 hw hws h]
      simp only [Outcome.ok_bind, hpeek, hdrop, Nat.add_sub_cancel_left, List.take_left]

/-- A character without a meaning of its own starts an item or is an error. -/
theorem item_plain_cases (h : At s p (c :: r)) (hp : f.Plain c) :
    (∃ g r' q, Item f (c :: r) g r' ∧ f.item s n p c = .ok (g, q) ∧ At s (q + 1) r' ∧ r'.length ≤ r.length) ∨
      ∃ e, f.item s n p c = .error e := by
  by_cases hv : ∀ d e, f.value d e ≠ none
  · rcases parseScalar_cases h0 h with ⟨v, r', e, hsplit, hs, hr, _⟩ | hnone | ⟨e, herr⟩
    · obtain ⟨c', t, rfl, _⟩ := scalar_head hs
      obtain ⟨rfl, rfl⟩ := List.cons.inj hsplit
      have hlast : (c :: t).getLast? = some ((c :: t).getLast (List.cons_ne_nil _ _)) := List.getLast?_eq_some_getLast _
      obtain ⟨g, hg⟩ := Option.ne_none_iff_exists'.mp (hv ((c :: t).getLast (List.cons_ne_nil _ _)) e)
      refine .inl ⟨g, r', _, .scalar hs hlast hr hg, item_scalar h0 h hs hlast hr hg rfl, ?_, ?_⟩
      · have hskip := At.skip (v := c :: t) h
        rw [List.length_cons] at hskip ⊢
        exact hskip
      · simp
    · refine .inr ⟨.objectBadSymbol, ?_⟩
      rw [item_plain_value hp hv, hnone]
      rfl
    · refine .inr ⟨e, ?_⟩
      rw [item_plain_value hp hv, herr]
      rfl
  · obtain ⟨prev, children⟩ | ⟨prev, name, children⟩ := f
    · exact absurd (by simp [Frame.value]) hv
    · cases name with
      | some key => exact absurd (by simp [Frame.value]) hv
      | none =>
        rcases unquotedKey_cases h0 h with ⟨w, ws, r', hw, hws, hsplit⟩ | hnone
        · obtain ⟨c', t, rfl⟩ : ∃ c' t, w = c' :: t := by
            obtain ⟨_, _⟩ := hw
            exact ⟨_, _, rfl⟩
          obtain ⟨rfl, rfl⟩ := List.cons.inj hsplit
          refine .inl ⟨_, r', _, .key hw hws rfl, item_key h0 h hw hws rfl rfl, ?_, ?_⟩
          · exact (At.skip (v := c :: t) h).skip.next
          · rw [List.append_eq, List.length_append, List.length_append, List.length_cons]
            omega
        · refine .inr ⟨.objectBadSymbol, ?_⟩
          rw [item_plain_key hp, hnone]
          rfl

end Others

end Libntech.Json
