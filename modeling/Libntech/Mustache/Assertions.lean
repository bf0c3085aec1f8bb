import Libntech.Mustache.Termination

/-! # Related runs, and runs that assert

Two runs of `Render` from states that agree in what the code decides by do the same, whatever else is in the states. A
run with an assertion in each turn stops at the first turn that breaks it; if it does what the run without assertions
does, no turn of that run breaks it.
-/
namespace Libntech.Mustache
set_option autoImplicit false

open Libntech.Json

/-! ## What is read of the delimiters -/

/-- Delimiters with the same C strings and the same lengths beside them, whatever is behind the terminators. -/
structure Delimiters.Alike (d d' : Delimiters) : Prop where
  startText : d.start.text = d'.start.text
  startLen : d.start.len = d'.start.len
  stopText : d.stop.text = d'.stop.text
  stopLen : d.stop.len = d'.stop.len

/-- The same data, the same stack, and delimiters that are alike. -/
structure Scope.Alike (sc sc' : Scope) : Prop where
  doc : sc.doc = sc'.doc
  hashStack : sc.hashStack = sc'.hashStack
  delims : sc.delims.Alike sc'.delims

theorem Scope.alike_of_eq {sc sc' : Scope} (h : sc = sc') : sc.Alike sc' := by
  subst h
  exact ⟨rfl, rfl, rfl, rfl, rfl, rfl⟩

variable {d d' : Delimiters} {start : Bytes}

theorem nextTag_alike (h : d.Alike d') (start : Bytes) (input : ℕ) :
    nextTag start input d = nextTag start input d' := by
  have hends : ∀ content extraEnd, tagEnd start content extraEnd d = tagEnd start content extraEnd d' := by
    intro content extraEnd
    unfold tagEnd
    rw [h.stopText, h.stopLen]
  unfold nextTag
  simp only [h.startText, h.startLen, hends]

theorem shouldIterateObject_alike (h : d.Alike d') (start : Bytes) (input : Option ℕ) :
    shouldIterateObject start input d = shouldIterateObject start input d' := by
  have hstart : d.start.copy = d'.start.copy := by
    unfold Delimiter.copy
    rw [h.startText, h.startLen]
  have hstop : d.stop.copy = d'.stop.copy := by
    unfold Delimiter.copy
    rw [h.stopText, h.stopLen]
  unfold shouldIterateObject
  rw [hstart, hstop]

/-- A token fits in both arrays or in neither, and is then read from both. -/
theorem Delimiter.set_alike (d d' : Delimiter) {token : Bytes} (h0 : 0 ∉ token) :
    (d.set token = none ∧ d'.set token = none) ∨
      ∃ e e', d.set token = some e ∧ d'.set token = some e' ∧ e.text = e'.text ∧ e.len = e'.len := by
  unfold Delimiter.set
  by_cases hlen : token.length < mustacheMaxDelimSize
  · rw [if_pos hlen, if_pos hlen]
    refine .inr ⟨_, _, rfl, rfl, ?_, rfl⟩
    exact (Lib.takeWhile_ne_terminated h0 _).trans (Lib.takeWhile_ne_terminated h0 _).symm
  · rw [if_neg hlen, if_neg hlen]
    exact .inl ⟨rfl, rfl⟩

theorem setDelimiters_alike {content : Bytes} (h0 : 0 ∉ content) (h : d.Alike d') :
    (setDelimiters content d).1 = (setDelimiters content d').1 ∧
      (setDelimiters content d).2.Alike (setDelimiters content d').2 := by
  have htoken := token_nul_free h0
  rw [setDelimiters, setDelimiters]
  by_cases htwo : stringCountTokens content (ascii " \t") = 2
  · have hfirst := htoken 0 (by rw [htwo]; decide)
    have hsecond := htoken 1 (by rw [htwo]; decide)
    rw [if_neg (not_not.mpr htwo), if_neg (not_not.mpr htwo)]
    dsimp only
    generalize (stringGetToken content (ascii " \t") 0).getD [] = first at hfirst ⊢
    generalize (stringGetToken content (ascii " \t") 1).getD [] = second at hsecond ⊢
    split
    · exact ⟨rfl, h⟩
    · obtain ⟨hnone, hnone'⟩ | ⟨e, e', hset, hset', htext, hlen⟩ := d.start.set_alike d'.start hfirst
      · rw [hnone, hnone']
        exact ⟨rfl, h⟩
      · rw [hset, hset']
        dsimp only
        split
        · exact ⟨rfl, htext, hlen, h.stopText, h.stopLen⟩
        · obtain ⟨hnone, hnone'⟩ | ⟨f, f', hstop, hstop', htext', hlen'⟩ := d.stop.set_alike d'.stop hsecond
          · rw [hnone, hnone']
            exact ⟨rfl, htext, hlen, h.stopText, h.stopLen⟩
          · rw [hstop, hstop']
            exact ⟨rfl, htext, hlen, htext', hlen'⟩
  · rw [if_pos htwo, if_pos htwo]
    exact ⟨rfl, h⟩

section Scopes

variable {sc sc' : Scope} (h : sc.Alike sc')
include h

theorem lookupVariable_alike (name : Bytes) : lookupVariable sc name = lookupVariable sc' name := by
  unfold lookupVariable
  rw [h.doc, h.hashStack]

theorem sectionCall_alike (start : Bytes) (input : Option ℕ) (tag : MustacheTag) (skipContent : Bool) :
    sectionCall start input tag skipContent sc = sectionCall start input tag skipContent sc' := by
  unfold sectionCall
  rw [lookupVariable_alike h, h.doc, shouldIterateObject_alike h.delims]

theorem renderVariable_alike (realText : Bytes → Option Bytes) (content : Bytes) (conversion : TagType)
    (jsonKey : Option Bytes) :
    renderVariable realText content conversion sc jsonKey = renderVariable realText content conversion sc' jsonKey := by
  unfold renderVariable
  rw [lookupVariable_alike h, h.doc, h.hashStack]

end Scopes

/-! ## Related states -/

/-- A relation between states that agree in data, stack and what is read of the delimiters, kept by all that `Render` does
to a state. -/
structure Respects (R : State → State → Prop) : Prop where
  scope : ∀ {s t}, R s t → s.toScope.Alike t.toScope
  stack : ∀ {s t} hashStack, R s t → R { s with hashStack := hashStack } { t with hashStack := hashStack }
  doc : ∀ {s t} doc, R s t → R { s with doc := doc } { t with doc := doc }
  delims : ∀ {s t content}, R s t → 0 ∉ content →
    R { s with delims := (setDelimiters content s.delims).2 } { t with delims := (setDelimiters content t.delims).2 }
  out : ∀ {s t} text, R s t → R { s with out := s.out ++ text } { t with out := t.out ++ text }
  closed : ∀ {s t s₀ t₀} tag body, R s t → R s₀ t₀ →
    R { s with sections := ⟨s₀.toScope, tag, body, s.toScope⟩ :: s.sections }
      { t with sections := ⟨t₀.toScope, tag, body, t.toScope⟩ :: t.sections }

/-- Two calls end alike, in related states. -/
def Related {α : Type} (R : State → State → Prop) (r r' : α × State) : Prop := r.1 = r'.1 ∧ R r.2 r'.2

/-- The two bodies, called alike from related states. -/
def RelatedBodies (R : State → State → Prop) (f g : Body) : Prop :=
  ∀ s t, R s t → ∀ input key skip, Related R (f input key skip s) (g input key skip t)

/-! ## One section -/

section Relations

variable {R : State → State → Prop} (hR : Respects R)
include hR

variable {s t : State}

theorem Respects.push (h : R s t) (hash : Option Ref) : R (s.push hash) (t.push hash) := by
  have hstack := hR.stack (s.hashStack ++ [hash]) h
  unfold State.push
  rw [← (hR.scope h).hashStack]
  exact hstack

theorem Respects.pop (h : R s t) : R s.pop t.pop := by
  have hstack := hR.stack s.hashStack.dropLast h
  unfold State.pop
  rw [← (hR.scope h).hashStack]
  exact hstack

theorem Respects.close {s₀ t₀ : State} (h : R s t) (h₀ : R s₀ t₀) (tag : MustacheTag) (body after : Option ℕ) :
    R (s.closed s₀.toScope tag body after) (t.closed t₀.toScope tag body after) := by
  unfold State.closed
  split
  · exact hR.closed tag body h h₀
  · exact h

section Bodies

variable {f g : Body} (hbody : RelatedBodies R f g)
include hbody

theorem renderEach_related (input : Option ℕ) (skip : Bool) (var : Ref) (count : ℕ) :
    ∀ (i : ℕ) (sectionEnd : Option ℕ) {s t : State}, R s t →
      Related R (renderEach f input skip var count i sectionEnd s) (renderEach g input skip var count i sectionEnd t) := by
  induction count with
  | zero => exact fun _ _ _ _ h => ⟨rfl, h⟩
  | succ count ih =>
    intro i sectionEnd s t h
    have hdoc : s.doc = t.doc := (hR.scope h).doc
    rw [renderEach, renderEach, hdoc]
    cases childAt t.doc var i with
    | none => exact ⟨rfl, h⟩
    | some child =>
      have hcall := hbody _ _ (hR.push h (some child.1)) input (some child.2) skip
      revert hcall
      dsimp only
      generalize f input (some child.2) skip (s.push (some child.1)) = r
      generalize g input (some child.2) skip (t.push (some child.1)) = r'
      obtain ⟨res, s₁⟩ := r
      obtain ⟨res', t₁⟩ := r'
      rintro ⟨hres, hstates⟩
      obtain rfl : res = res' := hres
      cases res with
      | error stop => exact ⟨rfl, hstates⟩
      | ok written => exact ih (i + 1) (written.or sectionEnd) hstates

theorem renderSection_related (start : Bytes) (input : Option ℕ) (tag : MustacheTag) (skipContent : Bool) (h : R s t) :
    Related R (renderSection f start input tag skipContent s) (renderSection g start input tag skipContent t) := by
  rw [renderSection_eq, renderSection_eq, sectionCall_alike (hR.scope h)]
  cases sectionCall start input tag skipContent t.toScope with
  | once skip hash => exact hbody _ _ (hR.push h hash) input none skip
  | each skip var length => exact renderEach_related hR hbody input skip var length 0 none (hR.push h (some var))
  | fails stop hash => exact ⟨rfl, hR.push h hash⟩

end Bodies

/-! ## One turn -/

theorem renderContent_related (start : Bytes) (input : ℕ) (upto : Option ℕ) (skipContent : Bool) (h : R s t) :
    R (renderContent start input upto skipContent s) (renderContent start input upto skipContent t) := by
  unfold renderContent
  split
  · exact h
  · split
    · exact hR.out _ h
    · split
      · exact hR.out _ h
      · exact hR.out _ h

theorem renderBefore_related (start : Bytes) (input : ℕ) (tag : MustacheTag) (skipContent : Bool) (h : R s t) :
    Related R (renderBefore start input tag skipContent s) (renderBefore start input tag skipContent t) := by
  have hcontent : ∀ next upto, Related R (next, renderContent start input upto skipContent s)
      (next, renderContent start input upto skipContent t) :=
    fun (_ : Option ℕ) upto => ⟨rfl, renderContent_related hR start input upto skipContent h⟩
  unfold renderBefore
  split
  · split
    · exact hcontent _ _
    · exact hcontent _ _
  · exact hcontent _ _

theorem renderVariableTag_related (realText : Bytes → Option Bytes) (start : Bytes) (tag : MustacheTag)
    (jsonKey : Option Bytes) (skipContent : Bool) (h : R s t) :
    Related R (renderVariableTag realText start tag jsonKey skipContent s)
      (renderVariableTag realText start tag jsonKey skipContent t) := by
  have hscope := hR.scope h
  unfold renderVariableTag
  rw [hscope.delims.startText, hscope.delims.startLen, hscope.delims.stopText, hscope.delims.stopLen,
    renderVariable_alike hscope]
  split
  · exact ⟨rfl, h⟩
  · split
    · rw [List.append_assoc, List.append_assoc]
      exact ⟨rfl, hR.out (t.delims.start.text.take t.delims.start.len ++ t.delims.stop.text.take t.delims.stop.len) h⟩
    · split
      · exact ⟨rfl, h⟩
      · rename_i r _
        have hout := hR.out r.1 h
        exact ⟨rfl, hR.doc r.2 hout⟩

theorem renderTurn_related (realText : Bytes → Option Bytes) (h0 : 0 ∉ start) {f g : Loop}
    (hloop : ∀ inSection, RelatedBodies R (f inSection) (g inSection)) (inSection : Bool) (input : ℕ)
    (jsonKey : Option Bytes) (skipContent : Bool) (h : R s t) :
    Related R (renderTurn realText start f inSection input jsonKey skipContent s)
      (renderTurn realText start g inSection input jsonKey skipContent t) := by
  have hbefore := renderBefore_related hR start input (nextTag start input t.delims) skipContent h
  unfold renderTurn
  rw [nextTag_alike (hR.scope h).delims]
  dsimp only
  generalize renderBefore start input (nextTag start input t.delims) skipContent s = b at hbefore ⊢
  generalize renderBefore start input (nextTag start input t.delims) skipContent t = b' at hbefore ⊢
  generalize nextTag start input t.delims = tag
  obtain ⟨next, s₀⟩ := b
  obtain ⟨next', t₀⟩ := b'
  obtain ⟨hnext, h⟩ := hbefore
  obtain rfl : next = next' := hnext
  dsimp only at h ⊢
  have hrest : Related R (f inSection next jsonKey skipContent s₀) (g inSection next jsonKey skipContent t₀) :=
    hloop inSection s₀ t₀ h next jsonKey skipContent
  have hvariable : Related R
      (afterVariable (f inSection next jsonKey skipContent) (renderVariableTag realText start tag jsonKey skipContent s₀))
      (afterVariable (g inSection next jsonKey skipContent)
        (renderVariableTag realText start tag jsonKey skipContent t₀)) := by
    have hvar := renderVariableTag_related hR realText start tag jsonKey skipContent h
    generalize renderVariableTag realText start tag jsonKey skipContent s₀ = r at hvar ⊢
    generalize renderVariableTag realText start tag jsonKey skipContent t₀ = r' at hvar ⊢
    obtain ⟨res, s₁⟩ := r
    obtain ⟨res', t₁⟩ := r'
    obtain ⟨hres, hstates⟩ := hvar
    obtain rfl : res = res' := hres
    cases res with
    | error stop => exact ⟨rfl, hstates⟩
    | ok _ => exact hloop inSection s₁ t₁ hstates next jsonKey skipContent
  have hsection : Related R
      (afterSection (fun after => f inSection after jsonKey skipContent) s₀.toScope tag next
        (renderSection (f true) start next tag skipContent s₀))
      (afterSection (fun after => g inSection after jsonKey skipContent) t₀.toScope tag next
        (renderSection (g true) start next tag skipContent t₀)) := by
    have hsec := renderSection_related hR (hloop true) start next tag skipContent h
    generalize renderSection (f true) start next tag skipContent s₀ = r at hsec ⊢
    generalize renderSection (g true) start next tag skipContent t₀ = r' at hsec ⊢
    obtain ⟨res, s₁⟩ := r
    obtain ⟨res', t₁⟩ := r'
    obtain ⟨hres, hstates⟩ := hsec
    obtain rfl : res = res' := hres
    cases res with
    | error stop => exact ⟨rfl, hstates⟩
    | ok after =>
      exact hloop inSection _ _ (hR.close hstates h tag next after) after jsonKey skipContent
  cases tag.type with
  | err => exact ⟨rfl, h⟩
  | none => exact ⟨rfl, h⟩
  | comment => exact hrest
  | delim =>
    dsimp only
    have h0' := name_nul_free h0 tag
    obtain ⟨hresult, -⟩ := setDelimiters_alike h0' (hR.scope h).delims
    have hstates := hR.delims h h0'
    generalize setDelimiters (tag.name start) s₀.delims = r at hresult hstates ⊢
    generalize setDelimiters (tag.name start) t₀.delims = r' at hresult hstates ⊢
    obtain ⟨res, d⟩ := r
    obtain ⟨res', d'⟩ := r'
    obtain rfl : res = res' := hresult
    cases res with
    | error stop => exact ⟨rfl, hstates⟩
    | ok _ => exact hloop inSection _ _ hstates next jsonKey skipContent
  | sectionEnd =>
    dsimp only
    split
    · exact ⟨rfl, hR.pop h⟩
    · exact ⟨rfl, h⟩
  | «section» => exact hsection
  | inverted => exact hsection
  | var => exact hvariable
  | varUnescaped => exact hvariable
  | varSerialized => exact hvariable
  | varSerializedCompact => exact hvariable

end Relations

/-! ## Whole runs -/

/-- `render` that asserts in each turn; the assertion sees the position, whether to skip, and the state. -/
def renderAsserting (holds : ℕ → Bool → State → Bool) (realText : Bytes → Option Bytes) (start : Bytes) : ℕ → Loop
  | 0, _, _, _, _, st => (.error .outOfFuel, st)
  | _ + 1, _, none, _, _, st => (.error .failed, st)
  | fuel + 1, inSection, some input, jsonKey, skipContent, st =>
    if holds input skipContent st then
      renderTurn realText start (renderAsserting holds realText start fuel) inSection input jsonKey skipContent st
    else (.error .assertFailed, st)

theorem renderAsserting_true (realText : Bytes → Option Bytes) (start : Bytes) (fuel : ℕ) :
    renderAsserting (fun _ _ _ => true) realText start fuel = render realText start fuel := by
  induction fuel with
  | zero => rfl
  | succ fuel ih =>
    funext inSection input jsonKey skipContent st
    cases input with
    | none => rfl
    | some input => rw [renderAsserting, if_pos rfl, ih, render_succ]

/-- Runs from related states are related, with assertions that are alike in related states. -/
theorem renderAsserting_related {R : State → State → Prop} (hR : Respects R) {holds holds' : ℕ → Bool → State → Bool}
    (hholds : ∀ {s t}, R s t → ∀ input skip, holds input skip s = holds' input skip t) (realText : Bytes → Option Bytes)
    (h0 : 0 ∉ start) (fuel : ℕ) : ∀ inSection : Bool,
      RelatedBodies R (renderAsserting holds realText start fuel inSection)
        (renderAsserting holds' realText start fuel inSection) := by
  induction fuel with
  | zero => exact fun _ _ _ h _ _ _ => ⟨rfl, h⟩
  | succ fuel ih =>
    intro inSection s t h input jsonKey skipContent
    cases input with
    | none => exact ⟨rfl, h⟩
    | some input =>
      rw [renderAsserting, renderAsserting, hholds h input skipContent]
      split
      · exact renderTurn_related hR realText h0 ih inSection input jsonKey skipContent h
      · exact ⟨rfl, h⟩

theorem render_related {R : State → State → Prop} (hR : Respects R) (realText : Bytes → Option Bytes) (h0 : 0 ∉ start)
    (fuel : ℕ) (inSection : Bool) :
    RelatedBodies R (render realText start fuel inSection) (render realText start fuel inSection) := by
  rw [← renderAsserting_true]
  exact renderAsserting_related hR (fun _ _ _ => rfl) realText h0 fuel inSection

end Libntech.Mustache
