import Libntech.Mustache.DataMeaning

/-! # The scope stack across sections

`Render` pushes the variable of a section once, at the opening tag, and each call that meets the closing tag pops one
element. A section whose body is rendered once leaves the stack as it was. A section that is iterated over pushes each
child as well, so the pops take the children and the variable stays on the stack.
-/
namespace Libntech.Mustache
set_option autoImplicit false

open Libntech.Json

/-- Whether the section at this tag is rendered once for each child: its variable is an array or an object that has
children, and the object is one to iterate over. -/
def iterates (start : Bytes) (opening : Scope) (tag : MustacheTag) (body : Option ℕ) : Bool :=
  match (lookupVariable opening (tag.name start)).bind (deref opening.doc) with
  | some (.array children) => !children.isEmpty
  | some (.object children) =>
    match shouldIterateObject start body opening.delims with
    | .ok true => !children.isEmpty
    | _ => false
  | _ => false

def SectionRun.iterates (start : Bytes) (r : SectionRun) : Bool := Mustache.iterates start r.opening r.tag r.body

/-- Behind the closing tag the stack is the one from before the opening tag, and every name stands for the element that
it stood for there. -/
def SectionRun.Restores (r : SectionRun) : Prop :=
  r.closing.hashStack = r.opening.hashStack ∧ ∀ name : Bytes, lookupVariable r.closing name = lookupVariable r.opening name

/-! ## What a part of a run keeps -/

/-- No section of the list was iterated over. -/
def Plain (start : Bytes) (new : List SectionRun) : Prop := ∀ r ∈ new, r.iterates start = false

variable {start : Bytes} {st st' : State} {body : Body} {d : Delimiters} {input : ℕ}

theorem Plain.append {a b : List SectionRun} (h : Plain start (a ++ b)) : Plain start a ∧ Plain start b :=
  ⟨fun r hr => h r (List.mem_append_left _ hr), fun r hr => h r (List.mem_append_right _ hr)⟩

/-- From `st` to `st'` the sections of `new` were rendered. -/
structure Kept (start : Bytes) (st st' : State) (new : List SectionRun) : Prop where
  sections : st'.sections = new ++ st.sections
  grows : ∀ r ∈ new, r.iterates start = true → r.opening.hashStack.length < r.closing.hashStack.length
  restores : Plain start new → ∀ r ∈ new, r.closing.hashStack = r.opening.hashStack
  docs : ∀ r ∈ new, Same r.opening.doc r.closing.doc
  same : Same st.doc st'.doc
  distinct : DistinctKeys st'.doc

theorem Kept.same_doc (hsections : st'.sections = st.sections) (hsame : Same st.doc st'.doc)
    (hdistinct : DistinctKeys st'.doc) : Kept start st st' [] where
  sections := hsections
  grows := by simp
  restores := by simp
  docs := by simp
  same := hsame
  distinct := hdistinct

theorem Kept.refl (start : Bytes) (h : DistinctKeys st.doc) : Kept start st st [] :=
  Kept.same_doc rfl (same_refl h) h

theorem Kept.trans {st₁ st₂ : State} {new₁ new₂ : List SectionRun} (h₁ : Kept start st st₁ new₁)
    (h₂ : Kept start st₁ st₂ new₂) : Kept start st st₂ (new₂ ++ new₁) where
  sections := by rw [h₂.sections, h₁.sections, List.append_assoc]
  grows := by
    intro r hr
    rcases List.mem_append.mp hr with hr | hr
    · exact h₂.grows r hr
    · exact h₁.grows r hr
  restores := by
    intro hplain r hr
    rcases List.mem_append.mp hr with hr | hr
    · exact h₂.restores hplain.append.1 r hr
    · exact h₁.restores hplain.append.2 r hr
  docs := by
    intro r hr
    rcases List.mem_append.mp hr with hr | hr
    · exact h₂.docs r hr
    · exact h₁.docs r hr
  same := same_trans h₁.same h₂.same
  distinct := h₂.distinct

/-- The stack before is still there, and nothing was added if no section was iterated over. -/
structure Grown (start : Bytes) (new : List SectionRun) (before after : List (Option Ref)) : Prop where
  below : before <+: after
  plain : Plain start new → after = before

theorem Grown.refl (start : Bytes) (new : List SectionRun) (stack : List (Option Ref)) : Grown start new stack stack :=
  ⟨List.prefix_rfl, fun _ => rfl⟩

theorem Grown.trans {new₁ new₂ : List SectionRun} {a b c : List (Option Ref)} (h₁ : Grown start new₁ a b)
    (h₂ : Grown start new₂ b c) : Grown start (new₂ ++ new₁) a c where
  below := h₁.below.trans h₂.below
  plain := fun hplain => (h₂.plain hplain.append.1).trans (h₁.plain hplain.append.2)

/-- How a call of `Render` leaves the stack: with a closing tag one element less. -/
def Left (start : Bytes) (new : List SectionRun) (before after : List (Option Ref)) :
    Except Stop (Option ℕ) → Prop
  | .ok (some _) => ∃ grown, Grown start new before grown ∧ after = grown.dropLast
  | .ok none => Grown start new before after
  | .error _ => True

def Spec (start : Bytes) (st : State) (result : Except Stop (Option ℕ) × State) : Prop :=
  ∃ new, Kept start st result.2 new ∧ Left start new st.hashStack result.2.hashStack result.1

theorem Spec.error {start : Bytes} {st st' : State} {stop : Stop} {new : List SectionRun} (h : Kept start st st' new) :
    Spec start st (.error stop, st') :=
  ⟨new, h, trivial⟩

theorem Spec.after {start : Bytes} {st st₁ : State} {new : List SectionRun} {result : Except Stop (Option ℕ) × State}
    (hkept : Kept start st st₁ new) (hgrown : Grown start new st.hashStack st₁.hashStack)
    (h : DistinctKeys st₁.doc → Spec start st₁ result) : Spec start st result := by
  obtain ⟨new₂, hkept₂, hleft⟩ := h hkept.distinct
  refine ⟨new₂ ++ new, hkept.trans hkept₂, ?_⟩
  revert hleft
  cases result.1 with
  | error stop => exact fun _ => trivial
  | ok sectionEnd =>
    cases sectionEnd with
    | none => exact fun hleft => hgrown.trans hleft
    | some p =>
      rintro ⟨grown, hgrown₂, hpop⟩
      exact ⟨grown, hgrown.trans hgrown₂, hpop⟩

theorem Spec.next {st₁ : State} {result : Except Stop (Option ℕ) × State} (hsections : st₁.sections = st.sections)
    (hstack : st₁.hashStack = st.hashStack) (hsame : Same st.doc st₁.doc) (hdistinct : DistinctKeys st₁.doc)
    (h : DistinctKeys st₁.doc → Spec start st₁ result) : Spec start st result := by
  refine Spec.after (Kept.same_doc hsections hsame hdistinct) ?_ h
  rw [hstack]
  exact Grown.refl start [] st.hashStack

/-! ## One section -/

/-- The calls for a section: one without a key, one for each child of the variable, or none since it fails. -/
inductive SectionCall where
  | once (skip : Bool) (hash : Option Ref)
  | each (skip : Bool) (var : Ref) (length : ℕ)
  | fails (stop : Stop) (hash : Option Ref)

/-- Which calls `Render` makes is decided by the data, the stack and the delimiters at the opening tag. -/
def sectionCall (start : Bytes) (input : Option ℕ) (tag : MustacheTag) (skipContent : Bool) (sc : Scope) : SectionCall :=
  let inverted := decide (tag.type = .inverted)
  let items (ref : Ref) (length : ℕ) : SectionCall :=
    if length = 0 then .once (!inverted) (some ref) else .each (skipContent || inverted) ref length
  match lookupVariable sc (tag.name start) with
  | none => .once (skipContent || !inverted) none
  | some ref =>
    match deref sc.doc ref with
    | none => .once (skipContent || !inverted) (some ref)
    | some (.primitive .bool value) => .once (skipContent || ((value != jsonTrue) ^^ inverted)) (some ref)
    | some (.primitive _ _) => .fails .failed (some ref)
    | some (.object children) =>
      match shouldIterateObject start input sc.delims with
      | .error stop => .fails stop (some ref)
      | .ok false => .once (skipContent || inverted) (some ref)
      | .ok true => items ref children.length
    | some (.array children) => items ref children.length

def SectionCall.run (body : Body) (input : Option ℕ) (st : State) : SectionCall → Except Stop (Option ℕ) × State
  | .once skip hash => body input none skip (st.push hash)
  | .each skip var length => renderEach body input skip var length 0 none (st.push (some var))
  | .fails stop hash => (.error stop, st.push hash)

def SectionCall.loops : SectionCall → Bool
  | .each _ _ _ => true
  | _ => false

section Calls

variable {start : Bytes} {input : Option ℕ} {tag : MustacheTag} {skipContent : Bool}

theorem renderSection_eq (body : Body) (st : State) :
    renderSection body start input tag skipContent st =
      (sectionCall start input tag skipContent st.toScope).run body input st := by
  have hitems : ∀ (inverted : Bool) (ref : Ref) (length : ℕ),
      renderItems body input inverted skipContent ref length (st.push (some ref)) =
        SectionCall.run body input st (if length = 0 then .once (!inverted) (some ref)
          else .each (skipContent || inverted) ref length) := by
    intro inverted ref length
    unfold renderItems
    split <;> rfl
  unfold renderSection sectionCall
  cases lookupVariable st.toScope (tag.name start) with
  | none => rfl
  | some ref =>
    dsimp only
    cases deref st.doc ref with
    | none => rfl
    | some element =>
      cases element with
      | primitive type value => cases type <;> rfl
      | array children => exact hitems _ ref children.length
      | object children =>
        dsimp only
        cases shouldIterateObject start input st.delims with
        | error stop => rfl
        | ok iterate =>
          cases iterate with
          | false => rfl
          | true => exact hitems _ ref children.length

variable {sc : Scope}

theorem iterates_eq (skipContent : Bool) : iterates start sc tag input = (sectionCall start input tag skipContent sc).loops := by
  have hitems : ∀ {α : Type} (inverted : Bool) (ref : Ref) (children : List α),
      (!children.isEmpty) = SectionCall.loops (if children.length = 0 then .once (!inverted) (some ref)
        else .each (skipContent || inverted) ref children.length) := by
    intro α inverted ref children
    cases children <;> rfl
  unfold iterates sectionCall
  cases lookupVariable sc (tag.name start) with
  | none => rfl
  | some ref =>
    rw [Option.bind_some]
    dsimp only
    cases deref sc.doc ref with
    | none => rfl
    | some element =>
      cases element with
      | primitive type value => cases type <;> rfl
      | array children => exact hitems _ ref children
      | object children =>
        dsimp only
        cases shouldIterateObject start input sc.delims with
        | error stop => rfl
        | ok iterate =>
          cases iterate with
          | false => rfl
          | true => exact hitems _ ref children

/-- A section fails where its variable is text, and where `ShouldIterateObject` does. -/
theorem sectionCall_fails {stop : Stop} {hash : Option Ref}
    (h : sectionCall start input tag skipContent sc = .fails stop hash) :
    stop = .failed ∨ shouldIterateObject start input sc.delims = .error stop := by
  unfold sectionCall at h
  dsimp only at h
  split at h
  · cases h
  · split at h
    · cases h
    · cases h
    · exact .inl (SectionCall.fails.inj h).1.symm
    · split at h
      · rename_i hstop
        exact .inr (by rw [hstop, (SectionCall.fails.inj h).1])
      · cases h
      · split at h <;> cases h
    · split at h <;> cases h

end Calls

def BodySpec (start : Bytes) (body : Body) : Prop :=
  ∀ (input : Option ℕ) (key : Option Bytes) (skip : Bool) (st : State), DistinctKeys st.doc →
    Spec start st (body input key skip st)

theorem Kept.of_push {hash : Option Ref} {new : List SectionRun} (h : Kept start (st.push hash) st' new) :
    Kept start st st' new :=
  ⟨h.sections, h.grows, h.restores, h.docs, h.same, h.distinct⟩

theorem below_dropLast {a b : List (Option Ref)} {x : Option Ref} (h : a ++ [x] <+: b) : a <+: b.dropLast := by
  obtain ⟨rest, rfl⟩ := h
  rw [List.append_assoc, List.dropLast_append_of_ne_nil (by simp)]
  exact List.prefix_append _ _

/-- The loop over the children leaves nothing out of the stack that was there. -/
theorem renderEach_spec (hbody : BodySpec start body) (input : Option ℕ) (skip : Bool) (var : Ref) :
    ∀ (count i : ℕ) (sectionEnd : Option ℕ) (st : State), DistinctKeys st.doc →
      ∃ new, Kept start st (renderEach body input skip var count i sectionEnd st).2 new ∧
        ∀ after, (renderEach body input skip var count i sectionEnd st).1 = .ok after →
          st.hashStack <+: (renderEach body input skip var count i sectionEnd st).2.hashStack := by
  intro count
  induction count with
  | zero => exact fun i sectionEnd st h => ⟨[], Kept.refl start h, fun _ _ => List.prefix_rfl⟩
  | succ count ih =>
    intro i sectionEnd st h
    rw [renderEach]
    cases childAt st.doc var i with
    | none => exact ⟨[], Kept.refl start h, fun _ _ => List.prefix_rfl⟩
    | some child =>
      have hspec := hbody input (some child.2) skip (st.push (some child.1)) h
      revert hspec
      dsimp only
      generalize body input (some child.2) skip (st.push (some child.1)) = result
      obtain ⟨res, st₁⟩ := result
      rintro ⟨new₁, hkept₁, hleft⟩
      cases res with
      | error stop => exact ⟨new₁, hkept₁.of_push, fun _ hok => by cases hok⟩
      | ok written =>
        have hbelow : st.hashStack <+: st₁.hashStack := by
          cases written with
          | none => exact (List.prefix_append _ _).trans hleft.below
          | some p =>
            obtain ⟨grown, hgrown, hpop⟩ := hleft
            rw [hpop]
            exact below_dropLast hgrown.below
        obtain ⟨new₂, hkept₂, hrest⟩ := ih (i + 1) (written.or sectionEnd) st₁ hkept₁.distinct
        exact ⟨new₂ ++ new₁, hkept₁.of_push.trans hkept₂, fun after hok => hbelow.trans (hrest after hok)⟩

/-- What a section that met its closing tag did to the stack; `loops` says whether it was iterated over. -/
structure SectionLeft (start : Bytes) (new : List SectionRun) (loops : Bool) (before after : List (Option Ref)) :
    Prop where
  below : before <+: after
  grows : loops = true → before.length < after.length
  plain : loops = false → Plain start new → after = before

def SectionSpec (start : Bytes) (st : State) (loops : Bool) (result : Except Stop (Option ℕ) × State) : Prop :=
  ∃ new, Kept start st result.2 new ∧
    ∀ p, result.1 = .ok (some p) → SectionLeft start new loops st.hashStack result.2.hashStack

theorem once_spec (hbody : BodySpec start body) (input : Option ℕ) (skip : Bool) (hash : Option Ref)
    (h : DistinctKeys st.doc) :
    SectionSpec start st false (body input none skip (st.push hash)) := by
  have hspec := hbody input none skip (st.push hash) h
  revert hspec
  generalize body input none skip (st.push hash) = result
  rintro ⟨new, hkept, hleft⟩
  refine ⟨new, hkept.of_push, fun p hp => ?_⟩
  rw [hp] at hleft
  obtain ⟨grown, hgrown, hpop⟩ := hleft
  rw [hpop]
  refine ⟨below_dropLast hgrown.below, by simp, fun _ hplain => ?_⟩
  rw [hgrown.plain hplain]
  exact List.dropLast_concat

theorem renderSection_spec (hbody : BodySpec start body) (input : Option ℕ) (tag : MustacheTag) (skipContent : Bool)
    (h : DistinctKeys st.doc) :
    SectionSpec start st (iterates start st.toScope tag input) (renderSection body start input tag skipContent st) := by
  rw [renderSection_eq, iterates_eq skipContent]
  cases sectionCall start input tag skipContent st.toScope with
  | once skip hash => exact once_spec hbody input skip hash h
  | fails stop hash =>
    have hrefl : Kept start (st.push hash) (st.push hash) [] := Kept.refl start h
    exact ⟨[], hrefl.of_push, fun p hp => by cases hp⟩
  | each skip var length =>
    obtain ⟨new, hkept, hbelow⟩ := renderEach_spec hbody input skip var length 0 none (st.push (some var)) h
    refine ⟨new, hkept.of_push, fun p hp => ?_⟩
    have hpushed : st.hashStack ++ [some var] <+: _ := hbelow _ hp
    refine ⟨(List.prefix_append _ _).trans hpushed, fun _ => ?_, (fun hloops => by cases hloops)⟩
    have hlen := hpushed.length_le
    rw [List.length_append, List.length_singleton] at hlen
    exact hlen

/-! ## A whole run -/

theorem renderContent_keeps (start : Bytes) (input : ℕ) (upto : Option ℕ) (skipContent : Bool) (st : State) :
    (renderContent start input upto skipContent st).toScope = st.toScope ∧
      (renderContent start input upto skipContent st).sections = st.sections := by
  unfold renderContent
  split
  · exact ⟨rfl, rfl⟩
  · split
    · exact ⟨rfl, rfl⟩
    · split
      · exact ⟨rfl, rfl⟩
      · exact ⟨rfl, rfl⟩

theorem renderBefore_keeps (start : Bytes) (input : ℕ) (tag : MustacheTag) (skipContent : Bool) (st : State) :
    (renderBefore start input tag skipContent st).2.toScope = st.toScope ∧
      (renderBefore start input tag skipContent st).2.sections = st.sections := by
  unfold renderBefore
  split
  · split
    · exact renderContent_keeps start input _ skipContent st
    · exact renderContent_keeps start input _ skipContent st
  · exact renderContent_keeps start input _ skipContent st

/-- Only no tag and a broken one have no end; the character behind the start delimiter decides the type of the others. -/
theorem nextTag_marked (hnone : (nextTag start input d).type ≠ .none) (herr : (nextTag start input d).type ≠ .err) :
    ∃ begin stop, (nextTag start input d).begin = some begin ∧ (nextTag start input d).stop = some stop ∧
      (nextTag start input d).type = (tagMark (charAt start (begin + d.start.len))).1 := by
  unfold nextTag at hnone herr ⊢
  cases hfound : strstr start input d.start.text with
  | none =>
    rw [hfound] at hnone
    exact absurd rfl hnone
  | some b =>
    rw [hfound] at herr
    dsimp only at herr ⊢
    split at herr
    · exact absurd rfl herr
    · rename_i ends _
      exact ⟨b, ends.2, rfl, rfl, rfl⟩

theorem nextTag_ends (hnone : (nextTag start input d).type ≠ .none) (herr : (nextTag start input d).type ≠ .err) :
    ∃ begin stop, (nextTag start input d).begin = some begin ∧ (nextTag start input d).stop = some stop := by
  obtain ⟨begin, stop, hbegin, hstop, -⟩ := nextTag_marked hnone herr
  exact ⟨begin, stop, hbegin, hstop⟩

theorem renderBefore_sectionEnd (skipContent : Bool) (st : State) (h : (nextTag start input d).type = .sectionEnd) :
    ∃ p, (renderBefore start input (nextTag start input d) skipContent st).1 = some p := by
  obtain ⟨b, e, hb, he⟩ := nextTag_ends (by rw [h]; decide) (by rw [h]; decide)
  unfold renderBefore
  rw [h, hb, he]
  dsimp only [isTagTypeRenderable]
  cases isTagStandalone start b e with
  | none => exact ⟨e, rfl⟩
  | some line => exact ⟨line.2, rfl⟩

theorem Kept.closed {start : Bytes} {st st' : State} {new : List SectionRun} {tag : MustacheTag} {body : Option ℕ} {p : ℕ}
    (h : Kept start st st' new)
    (hleft : SectionLeft start new (iterates start st.toScope tag body) st.hashStack st'.hashStack) :
    Kept start st (st'.closed st.toScope tag body (some p)) (⟨st.toScope, tag, body, st'.toScope⟩ :: new) where
  sections := by
    rw [List.cons_append, ← h.sections]
    rfl
  grows := by
    intro r hr
    rcases List.mem_cons.mp hr with rfl | hr
    · exact hleft.grows
    · exact h.grows r hr
  restores := by
    intro hplain r hr
    have hnew : Plain start new := fun r hr => hplain r (List.mem_cons_of_mem _ hr)
    rcases List.mem_cons.mp hr with rfl | hr
    · exact hleft.plain (hplain _ List.mem_cons_self) hnew
    · exact h.restores hnew r hr
  docs := by
    intro r hr
    rcases List.mem_cons.mp hr with rfl | hr
    · exact h.same
    · exact h.docs r hr
  same := h.same
  distinct := h.distinct

/-- A section and the rest of the call; without a closing tag the rest fails at once. -/
theorem Spec.after_section {tag : MustacheTag} {body after : Option ℕ}
    (rest : Option ℕ → State → Except Stop (Option ℕ) × State)
    (hsection : SectionSpec start st (iterates start st.toScope tag body) (.ok after, st'))
    (hnone : ∀ st₁, ∃ stop, rest none st₁ = (.error stop, st₁))
    (hrest : ∀ st₁, DistinctKeys st₁.doc → Spec start st₁ (rest after st₁)) :
    Spec start st (rest after (st'.closed st.toScope tag body after)) := by
  obtain ⟨new, hkept, hleft⟩ := hsection
  cases after with
  | none =>
    obtain ⟨stop, hstop⟩ := hnone (st'.closed st.toScope tag body none)
    rw [hstop]
    exact Spec.error hkept
  | some p =>
    have hl := hleft p rfl
    refine Spec.after (hkept.closed hl) ⟨hl.below, fun hplain => ?_⟩ (hrest _)
    exact hl.plain (hplain _ List.mem_cons_self) fun r hr => hplain r (List.mem_cons_of_mem _ hr)

theorem renderVariableTag_keeps {realText : Bytes → Option Bytes} {tag : MustacheTag} {jsonKey : Option Bytes}
    {skipContent : Bool} {result : Except Stop Unit} (h : DistinctKeys st.doc)
    (hr : renderVariableTag realText start tag jsonKey skipContent st = (result, st')) :
    st'.sections = st.sections ∧ st'.hashStack = st.hashStack ∧ Same st.doc st'.doc ∧ DistinctKeys st'.doc := by
  unfold renderVariableTag at hr
  split at hr
  · rw [← (Prod.mk.inj hr).2]
    exact ⟨rfl, rfl, same_refl h, h⟩
  · split at hr
    · rw [← (Prod.mk.inj hr).2]
      exact ⟨rfl, rfl, same_refl h, h⟩
    · split at hr
      · rw [← (Prod.mk.inj hr).2]
        exact ⟨rfl, rfl, same_refl h, h⟩
      · rename_i r hvar
        obtain ⟨hsame, hdistinct⟩ := renderVariable_same h hvar
        rw [← (Prod.mk.inj hr).2]
        exact ⟨rfl, rfl, hsame, hdistinct⟩

/-- The turns behind a variable. -/
def afterVariable (loop : State → Except Stop (Option ℕ) × State) :
    Except Stop Unit × State → Except Stop (Option ℕ) × State
  | (.error stop, st) => (.error stop, st)
  | (.ok _, st) => loop st

/-- The turns behind a section. -/
def afterSection (loop : Option ℕ → State → Except Stop (Option ℕ) × State) (opening : Scope) (tag : MustacheTag)
    (body : Option ℕ) : Except Stop (Option ℕ) × State → Except Stop (Option ℕ) × State
  | (.error stop, st) => (.error stop, st)
  | (.ok after, closed) => loop after (closed.closed opening tag body after)

theorem render_none (realText : Bytes → Option Bytes) (start : Bytes) (fuel : ℕ) (inSection : Bool)
    (jsonKey : Option Bytes) (skipContent : Bool) (st : State) :
    ∃ stop, render realText start fuel inSection none jsonKey skipContent st = (.error stop, st) := by
  cases fuel with
  | zero => exact ⟨_, rfl⟩
  | succ fuel => exact ⟨_, rfl⟩

theorem render_spec (realText : Bytes → Option Bytes) (start : Bytes) (fuel : ℕ) :
    ∀ inSection : Bool, BodySpec start (render realText start fuel inSection) := by
  induction fuel with
  | zero => exact fun inSection input key skip st h => Spec.error (Kept.refl start h)
  | succ fuel ih =>
    intro inSection input key skip st h
    cases input with
    | none => exact Spec.error (Kept.refl start h)
    | some input =>
      unfold render
      -- the text before the tag leaves all but the output alone
      obtain ⟨hscope, hsections⟩ := renderBefore_keeps start input (nextTag start input st.delims) skip st
      have hend : (nextTag start input st.delims).type = .sectionEnd → _ := renderBefore_sectionEnd skip st
      revert hscope hsections hend
      dsimp only
      generalize renderBefore start input (nextTag start input st.delims) skip st = before
      obtain ⟨next, st₀⟩ := before
      dsimp only
      intro hscope hsections hend
      have hstack : st₀.hashStack = st.hashStack := by rw [hscope]
      have hdoc : st₀.doc = st.doc := by rw [hscope]
      have hdistinct : DistinctKeys st₀.doc := by rw [hdoc]; exact h
      refine Spec.next hsections hstack (by rw [hdoc]; exact same_refl h) hdistinct fun _ => ?_
      have hkept := Kept.refl start hdistinct
      generalize nextTag start input st.delims = tag at hend ⊢
      have hvariable : Spec start st₀ (afterVariable (render realText start fuel inSection next key skip)
          (renderVariableTag realText start tag key skip st₀)) := by
        cases hvar : renderVariableTag realText start tag key skip st₀ with
        | mk result st₁ =>
          obtain ⟨hsections₁, hstack₁, hsame₁, hdistinct₁⟩ := renderVariableTag_keeps hdistinct hvar
          cases result with
          | error stop => exact Spec.error (Kept.same_doc hsections₁ hsame₁ hdistinct₁)
          | ok _ => exact Spec.next hsections₁ hstack₁ hsame₁ hdistinct₁ (ih inSection next key skip st₁)
      have hsection : Spec start st₀ (afterSection (fun after => render realText start fuel inSection after key skip)
          st₀.toScope tag next (renderSection (render realText start fuel true) start next tag skip st₀)) := by
        have hspec := renderSection_spec (ih true) next tag skip hdistinct
        revert hspec
        generalize renderSection (render realText start fuel true) start next tag skip st₀ = result
        obtain ⟨result, st₁⟩ := result
        intro hspec
        cases result with
        | error stop =>
          obtain ⟨new, hkept₁, _⟩ := hspec
          exact Spec.error hkept₁
        | ok after =>
          refine Spec.after_section (fun after => render realText start fuel inSection after key skip) hspec
            (fun st₁ => ?_) (fun st₁ => ?_)
          · exact render_none realText start fuel inSection key skip st₁
          · exact ih inSection after key skip st₁
      cases htype : tag.type with
      | err => exact Spec.error hkept
      | none => exact ⟨[], hkept, Grown.refl start [] _⟩
      | comment => exact ih inSection next key skip st₀ hdistinct
      | delim =>
        cases setDelimiters (tag.name start) st₀.delims with
        | mk result d =>
          cases result with
          | error stop => exact Spec.error (Kept.same_doc rfl (same_refl hdistinct) hdistinct)
          | ok _ =>
            have hrest := ih inSection next key skip { st₀ with delims := d }
            refine Spec.next ?_ ?_ ?_ ?_ hrest
            · rfl
            · rfl
            · exact same_refl hdistinct
            · exact hdistinct
      | sectionEnd =>
        obtain ⟨p, hp⟩ := hend htype
        cases inSection with
        | false => exact Spec.error hkept
        | true =>
          rw [hp]
          exact ⟨[], Kept.same_doc rfl (same_refl hdistinct) hdistinct, st₀.hashStack, Grown.refl start [] _, rfl⟩
      | «section» => exact hsection
      | inverted => exact hsection
      | var => exact hvariable
      | varUnescaped => exact hvariable
      | varSerialized => exact hvariable
      | varSerializedCompact => exact hvariable

/-! ## Templates and data -/

/-- The data of a template: JSON as the library keeps it. -/
structure Hash where
  element : JsonElement
  distinct : DistinctKeys element

/-- In every run, up to any turn: every section that was closed left the stack and the meaning of every name as they
were before its opening tag, exactly if none of these sections was iterated over. -/
theorem mustacheRender_restores_iff (realText : Bytes → Option Bytes) (fuel : ℕ) (out : Bytes) (input : CString)
    (hash : Hash) :
    (∀ r ∈ (mustacheRender realText fuel out input hash.element).2.sections, r.Restores) ↔
      ∀ r ∈ (mustacheRender realText fuel out input hash.element).2.sections, r.iterates input.bytes = false := by
  obtain ⟨new, hkept, _⟩ := render_spec realText input.bytes fuel false (some 0) none false
    ⟨⟨hash.element, [some []], .initial⟩, out, []⟩ hash.distinct
  have hsections : (mustacheRender realText fuel out input hash.element).2.sections = new := by
    rw [mustacheRender, hkept.sections, List.append_nil]
  rw [hsections]
  constructor
  · intro hrestores r hr
    cases hiter : r.iterates input.bytes with
    | false => rfl
    | true =>
      have hlt := hkept.grows r hr hiter
      rw [(hrestores r hr).1] at hlt
      omega
  · intro hplain r hr
    have hstack := hkept.restores hplain r hr
    exact ⟨hstack, fun name => lookupVariable_same hstack (hkept.docs r hr) name⟩

/-- `{{#o}}{{@}}{{/o}}` -/
def iteratedTemplate : CString := ⟨ascii "\x7b\x7b#o\x7d\x7d\x7b\x7b@\x7d\x7d\x7b\x7b/o\x7d\x7d", by decide⟩

/-- `{"o": {"x": "inner"}, "x": "outer"}` -/
def shadowedHash : Hash where
  element := .object [(ascii "o", .object [(ascii "x", .primitive .string (ascii "inner"))]),
    (ascii "x", .primitive .string (ascii "outer"))]
  distinct := by
    refine .object (by decide) ?_
    simp only [List.mem_cons, List.not_mem_nil, or_false, forall_eq_or_imp, forall_eq]
    refine ⟨.object (by decide) ?_, .primitive _ _⟩
    simp only [List.mem_singleton, forall_eq]
    exact .primitive _ _

/-- Behind the section, `x` is the one inside `o`. -/
theorem iterated_object_shadows :
    ∃ r ∈ (mustacheRender (fun _ => none) 4 [] iteratedTemplate shadowedHash.element).2.sections,
      r.closing.hashStack ≠ r.opening.hashStack ∧
        lookupVariable r.opening (ascii "x") = some [.key (ascii "x")] ∧
        lookupVariable r.closing (ascii "x") = some [.key (ascii "o"), .key (ascii "x")] := by
  refine ⟨_, List.mem_cons_self, ?_⟩
  decide

end Libntech.Mustache
