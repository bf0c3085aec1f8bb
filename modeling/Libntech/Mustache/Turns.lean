import Libntech.Mustache.Assertions

/-! # The turns of a run

A turn of `Render` calls itself for the turns after it and for the bodies of sections. `Makes` lists these calls, and
`EveryTurn` says that all turns that come of a call meet a condition. A run that asserts in each turn passes just if every
turn does what it asserts and fails no assertion of its own.
-/
namespace Libntech.Mustache
set_option autoImplicit false

open Libntech.Json

/-! ## Calls -/

structure RenderCall where
  inSection : Bool
  input : Option ℕ
  jsonKey : Option Bytes
  skipContent : Bool
  state : State

def RenderCall.run (loop : Loop) (c : RenderCall) : Except Stop (Option ℕ) × State :=
  loop c.inSection c.input c.jsonKey c.skipContent c.state

def TagType.isVariable : TagType → Bool
  | .var | .varUnescaped | .varSerialized | .varSerializedCompact => true
  | _ => false

def TagType.opensSection : TagType → Bool
  | .section | .inverted => true
  | _ => false

theorem TagType.opensSection_ne {t : TagType} (h : t.isVariable = true) : t.opensSection ≠ true := by
  revert h
  cases t <;> decide

/-- The calls of a turn at a tag, with the position and the state behind the text before the tag. -/
inductive Makes (realText : Bytes → Option Bytes) (start : Bytes) (loop : Loop) (inSection : Bool) (jsonKey : Option Bytes)
    (skipContent : Bool) (tag : MustacheTag) (next : Option ℕ) (st : State) : RenderCall → Prop
  | comment : tag.type = .comment →
    Makes realText start loop inSection jsonKey skipContent tag next st ⟨inSection, next, jsonKey, skipContent, st⟩
  | delim {d : Delimiters} : tag.type = .delim → setDelimiters (tag.name start) st.delims = (.ok (), d) →
    Makes realText start loop inSection jsonKey skipContent tag next st
      ⟨inSection, next, jsonKey, skipContent, { st with delims := d }⟩
  | var {st' : State} : tag.type.isVariable = true →
    renderVariableTag realText start tag jsonKey skipContent st = (.ok (), st') →
    Makes realText start loop inSection jsonKey skipContent tag next st ⟨inSection, next, jsonKey, skipContent, st'⟩
  | once {skip : Bool} {hash : Option Ref} : tag.type.opensSection = true →
    sectionCall start next tag skipContent st.toScope = .once skip hash →
    Makes realText start loop inSection jsonKey skipContent tag next st ⟨true, next, none, skip, st.push hash⟩
  | each {skip : Bool} {var : Ref} {length i : ℕ} {sectionEnd : Option ℕ} {st' : State} {child : Ref × Bytes} :
    tag.type.opensSection = true → sectionCall start next tag skipContent st.toScope = .each skip var length → i < length →
    renderEach (loop true) next skip var i 0 none (st.push (some var)) = (.ok sectionEnd, st') →
    childAt st'.doc var i = some child →
    Makes realText start loop inSection jsonKey skipContent tag next st
      ⟨true, next, some child.2, skip, st'.push (some child.1)⟩
  | after {behind : Option ℕ} {closed : State} : tag.type.opensSection = true →
    renderSection (loop true) start next tag skipContent st = (.ok behind, closed) →
    Makes realText start loop inSection jsonKey skipContent tag next st
      ⟨inSection, behind, jsonKey, skipContent, closed.closed st.toScope tag next behind⟩

/-- The calls of the turn at a position. -/
def TurnMakes (realText : Bytes → Option Bytes) (start : Bytes) (loop : Loop) (inSection : Bool) (input : ℕ)
    (jsonKey : Option Bytes) (skipContent : Bool) (st : State) : RenderCall → Prop :=
  let tag := nextTag start input st.delims
  let before := renderBefore start input tag skipContent st
  Makes realText start loop inSection jsonKey skipContent tag before.1 before.2

/-- All turns of the run of a call, in whichever section, meet a condition. -/
def EveryTurn (cond : ℕ → Bool → State → Bool) (realText : Bytes → Option Bytes) (start : Bytes) :
    ℕ → RenderCall → Prop
  | 0, _ => True
  | fuel + 1, c => ∀ input, c.input = some input → cond input c.skipContent c.state = true ∧
    ∀ c', TurnMakes realText start (render realText start fuel) c.inSection input c.jsonKey c.skipContent c.state c' →
      EveryTurn cond realText start fuel c'

/-! ## Calls in which no assertion fails -/

def Passes {α : Type} (r : Except Stop α × State) : Prop := r.1 ≠ .error .assertFailed

theorem Passes.ok {α : Type} (a : α) (st : State) : Passes (.ok a, st) := fun h => nomatch h

theorem childAt_none {doc : JsonElement} {var : Ref} {i : ℕ} (h : childAt doc var i = none) (j : ℕ) :
    childAt doc var (i + j) = none := by
  unfold childAt at h ⊢
  split at h
  · rw [Option.map_eq_none_iff, List.getElem?_eq_none_iff] at h ⊢
    omega
  · rw [Option.map_eq_none_iff, List.getElem?_eq_none_iff] at h ⊢
    omega
  · rfl

theorem setDelimiters_passes {content : Bytes} {d d' : Delimiters} :
    setDelimiters content d ≠ (.error .assertFailed, d') := by
  intro h
  have hsetting := setDelimiters_setting content d
  rw [h] at hsetting
  cases hsetting

theorem iterateLoop_passes (start : Bytes) (fuel : ℕ) : ∀ (input : ℕ) (d : Delimiters),
    iterateLoop start fuel (some input) d ≠ .error .assertFailed := by
  induction fuel with
  | zero => exact fun _ _ h => nomatch h
  | succ fuel ih =>
    intro input d
    have hnext : (nextTag start input d).type ≠ .none → (nextTag start input d).type ≠ .err → ∀ d',
        iterateLoop start fuel (nextTag start input d).stop d' ≠ .error .assertFailed := by
      intro hnone herr d'
      obtain ⟨begin, stop, -, hstop⟩ := nextTag_ends hnone herr
      rw [hstop]
      exact ih stop d'
    rw [iterateLoop_succ, iterateTurn]
    generalize nextTag start input d = tag at hnext ⊢
    cases htype : tag.type with
    | err => exact fun h => nomatch h
    | none => exact fun h => nomatch h
    | «section» => exact fun h => nomatch h
    | sectionEnd => exact fun h => nomatch h
    | var =>
      dsimp only
      split
      · exact fun h => nomatch h
      · exact hnext (by rw [htype]; decide) (by rw [htype]; decide) d
    | varUnescaped =>
      dsimp only
      split
      · exact fun h => nomatch h
      · exact hnext (by rw [htype]; decide) (by rw [htype]; decide) d
    | delim =>
      dsimp only
      cases hset : setDelimiters (tag.name start) d with
      | mk result d' =>
        cases result with
        | ok _ => exact hnext (by rw [htype]; decide) (by rw [htype]; decide) d'
        | error stop =>
          have hstop : stop ≠ .assertFailed := fun heq => setDelimiters_passes (heq ▸ hset)
          cases stop with
          | assertFailed => exact absurd rfl hstop
          | failed => exact fun h => nomatch h
          | exited => exact fun h => nomatch h
          | outOfBounds => exact fun h => nomatch h
          | outOfFuel => exact fun h => nomatch h
    | varSerialized => exact hnext (by rw [htype]; decide) (by rw [htype]; decide) d
    | varSerializedCompact => exact hnext (by rw [htype]; decide) (by rw [htype]; decide) d
    | inverted => exact hnext (by rw [htype]; decide) (by rw [htype]; decide) d
    | comment => exact hnext (by rw [htype]; decide) (by rw [htype]; decide) d

theorem shouldIterateObject_passes (start : Bytes) (input : ℕ) (d : Delimiters) :
    shouldIterateObject start (some input) d ≠ .error .assertFailed := by
  unfold shouldIterateObject
  split
  · exact iterateLoop_passes start _ input _
  · exact fun h => nomatch h

/-! ## Variables and sections -/

theorem afterVariable_passes (f g : Loop) {realText : Bytes → Option Bytes} {start : Bytes} {inSection : Bool}
    {jsonKey : Option Bytes} {tag : MustacheTag} {next : Option ℕ} (hvariable : tag.type.isVariable = true)
    (skipContent : Bool) (st : State) :
    Passes (afterVariable (f inSection next jsonKey skipContent)
        (renderVariableTag realText start tag jsonKey skipContent st)) ↔
      Passes (renderVariableTag realText start tag jsonKey skipContent st) ∧
        ∀ c, Makes realText start g inSection jsonKey skipContent tag next st c → Passes (c.run f) := by
  have hcalls : ∀ c, Makes realText start g inSection jsonKey skipContent tag next st c →
      ∃ st', renderVariableTag realText start tag jsonKey skipContent st = (.ok (), st') ∧
        c = ⟨inSection, next, jsonKey, skipContent, st'⟩ := by
    intro c hc
    cases hc with
    | comment htype => rw [htype] at hvariable; cases hvariable
    | delim htype => rw [htype] at hvariable; cases hvariable
    | var _ hok => exact ⟨_, hok, rfl⟩
    | once hopens => exact absurd hopens (TagType.opensSection_ne hvariable)
    | each hopens => exact absurd hopens (TagType.opensSection_ne hvariable)
    | after hopens => exact absurd hopens (TagType.opensSection_ne hvariable)
  cases hvar : renderVariableTag realText start tag jsonKey skipContent st with
  | mk result st' =>
    rw [hvar] at hcalls
    cases result with
    | error stop =>
      refine ⟨fun h => ⟨fun heq => h (congrArg Except.error (Except.error.inj heq)), fun c hc => ?_⟩,
        fun h heq => h.1 (congrArg Except.error (Except.error.inj heq))⟩
      obtain ⟨_, heq, _⟩ := hcalls c hc
      cases heq
    | ok _ =>
      refine ⟨fun h => ⟨Passes.ok _ _, fun c hc => ?_⟩, fun h => h.2 _ (.var hvariable hvar)⟩
      obtain ⟨_, heq, rfl⟩ := hcalls c hc
      cases heq
      exact h

section Loops

variable {f g : Loop} (hfg : ∀ c : RenderCall, Passes (c.run f) → c.run f = c.run g)
include hfg

/-- Two loops over the children, of which the first may stop where an assertion fails. -/
theorem renderEach_same (input : Option ℕ) (skip : Bool) (var : Ref) (count : ℕ) :
    ∀ (i : ℕ) (sectionEnd : Option ℕ) (st : State),
      Passes (renderEach (f true) input skip var count i sectionEnd st) →
        renderEach (f true) input skip var count i sectionEnd st =
          renderEach (g true) input skip var count i sectionEnd st := by
  induction count with
  | zero => exact fun _ _ _ _ => rfl
  | succ count ih =>
    intro i sectionEnd st hpasses
    rw [renderEach] at hpasses
    rw [renderEach, renderEach]
    cases hchild : childAt st.doc var i with
    | none => rfl
    | some child =>
      rw [hchild] at hpasses
      have hcall := hfg ⟨true, input, some child.2, skip, st.push (some child.1)⟩
      unfold RenderCall.run at hcall
      dsimp only at hcall hpasses ⊢
      cases hf : f true input (some child.2) skip (st.push (some child.1)) with
      | mk result st₁ =>
        rw [hf] at hcall hpasses
        cases result with
        | error stop =>
          rw [← hcall hpasses]
        | ok written =>
          rw [← hcall (Passes.ok written st₁)]
          exact ih (i + 1) (written.or sectionEnd) st₁ hpasses

/-- Each child has its call, in the state that the calls before it leave. -/
theorem renderEach_passes (input : Option ℕ) (skip : Bool) (var : Ref) (count : ℕ) :
    ∀ (i : ℕ) (sectionEnd : Option ℕ) (st : State),
      Passes (renderEach (f true) input skip var count i sectionEnd st) ↔
        ∀ j < count, ∀ reached st', renderEach (g true) input skip var j i sectionEnd st = (.ok reached, st') →
          ∀ child, childAt st'.doc var (i + j) = some child →
            Passes (f true input (some child.2) skip (st'.push (some child.1))) := by
  induction count with
  | zero =>
    intro i sectionEnd st
    exact ⟨fun _ j hj => absurd hj (Nat.not_lt_zero j), fun _ => Passes.ok _ _⟩
  | succ count ih =>
    intro i sectionEnd st
    rw [renderEach]
    cases hchild : childAt st.doc var i with
    | none =>
      refine ⟨fun _ j _ reached st' hbefore child hj => ?_, fun _ => Passes.ok _ _⟩
      have hstuck : st' = st := by
        cases j with
        | zero => exact (Prod.mk.inj hbefore).2.symm
        | succ j =>
          rw [renderEach, hchild] at hbefore
          exact (Prod.mk.inj hbefore).2.symm
      rw [hstuck, childAt_none hchild] at hj
      cases hj
    | some child =>
      have hcall := hfg ⟨true, input, some child.2, skip, st.push (some child.1)⟩
      unfold RenderCall.run at hcall
      dsimp only at hcall ⊢
      cases hf : f true input (some child.2) skip (st.push (some child.1)) with
      | mk result st₁ =>
        rw [hf] at hcall
        cases result with
        | error stop =>
          constructor
          · intro hpasses j _ reached st' heq child' hchild'
            cases j with
            | zero =>
              cases heq
              cases hchild.symm.trans hchild'
              rw [hf]
              exact hpasses
            | succ j =>
              rw [renderEach, hchild] at heq
              dsimp only at heq
              rw [← hcall hpasses] at heq
              cases heq
          · intro hall
            have hfirst := hall 0 (Nat.succ_pos count) _ _ rfl child hchild
            rw [hf] at hfirst
            exact hfirst
        | ok written =>
          have hok := Passes.ok written st₁
          -- the calls before the `j + 1`-th are the first one and those before the `j`-th of the rest
          have hbefore : ∀ j, renderEach (g true) input skip var (j + 1) i sectionEnd st =
              renderEach (g true) input skip var j (i + 1) (written.or sectionEnd) st₁ := by
            intro j
            rw [renderEach, hchild]
            dsimp only
            rw [← hcall hok]
          dsimp only
          rw [ih (i + 1) (written.or sectionEnd) st₁]
          constructor
          · intro hall j hj reached st' heq child' hchild'
            cases j with
            | zero =>
              cases heq
              cases hchild.symm.trans hchild'
              rw [hf]
              exact hok
            | succ j =>
              rw [hbefore j] at heq
              have hindex : i + (j + 1) = i + 1 + j := by omega
              exact hall j (Nat.lt_of_succ_lt_succ hj) reached st' heq child' (hindex ▸ hchild')
          · intro hall j hj reached st' heq child' hchild'
            have hindex : i + 1 + j = i + (j + 1) := by omega
            exact hall (j + 1) (Nat.succ_lt_succ hj) reached st' ((hbefore j).trans heq) child' (hindex ▸ hchild')

variable {realText : Bytes → Option Bytes} {start : Bytes} {inSection : Bool} {jsonKey : Option Bytes} {tag : MustacheTag}
  {next : Option ℕ}

theorem renderSection_same (skipContent : Bool) (st : State)
    (hpasses : Passes (renderSection (f true) start next tag skipContent st)) :
    renderSection (f true) start next tag skipContent st = renderSection (g true) start next tag skipContent st := by
  rw [renderSection_eq] at hpasses
  rw [renderSection_eq, renderSection_eq]
  cases hcall : sectionCall start next tag skipContent st.toScope with
  | once skip hash =>
    rw [hcall] at hpasses
    exact hfg ⟨true, next, none, skip, st.push hash⟩ hpasses
  | each skip var length =>
    rw [hcall] at hpasses
    exact renderEach_same hfg next skip var length 0 none (st.push (some var)) hpasses
  | fails stop hash => rfl

theorem renderSection_passes (hnext : next.isSome = true) (skipContent : Bool) (st : State) :
    Passes (renderSection (f true) start next tag skipContent st) ↔
      (∀ skip hash, sectionCall start next tag skipContent st.toScope = .once skip hash →
        Passes (f true next none skip (st.push hash))) ∧
      ∀ skip var length, sectionCall start next tag skipContent st.toScope = .each skip var length →
        ∀ i < length, ∀ reached st', renderEach (g true) next skip var i 0 none (st.push (some var)) = (.ok reached, st') →
          ∀ child, childAt st'.doc var i = some child →
            Passes (f true next (some child.2) skip (st'.push (some child.1))) := by
  rw [renderSection_eq]
  cases hcall : sectionCall start next tag skipContent st.toScope with
  | once skip hash =>
    refine ⟨fun h => ⟨fun _ _ heq => ?_, fun _ _ _ heq => nomatch heq⟩, fun h => h.1 skip hash rfl⟩
    cases heq
    exact h
  | each skip var length =>
    have heach := renderEach_passes hfg next skip var length 0 none (st.push (some var))
    simp only [Nat.zero_add] at heach
    refine ⟨fun h => ⟨fun _ _ heq => (nomatch heq), fun _ _ _ heq => ?_⟩, fun h => heach.mpr (h.2 skip var length rfl)⟩
    cases heq
    exact heach.mp h
  | fails stop hash =>
    refine ⟨fun _ => ⟨fun _ _ heq => (nomatch heq), fun _ _ _ heq => nomatch heq⟩, fun _ heq => ?_⟩
    rw [Except.error.inj heq] at hcall
    obtain ⟨n, rfl⟩ := Option.isSome_iff_exists.mp hnext
    rcases sectionCall_fails hcall with hfailed | hiterate
    · cases hfailed
    · exact shouldIterateObject_passes start n st.delims hiterate

/-! ## Turns -/

theorem afterVariable_same (skipContent : Bool) (r : Except Stop Unit × State)
    (hpasses : Passes (afterVariable (f inSection next jsonKey skipContent) r)) :
    afterVariable (f inSection next jsonKey skipContent) r = afterVariable (g inSection next jsonKey skipContent) r := by
  obtain ⟨result, st⟩ := r
  cases result with
  | error stop => rfl
  | ok _ => exact hfg ⟨inSection, next, jsonKey, skipContent, st⟩ hpasses

theorem afterSection_same (skipContent : Bool) (st : State)
    (hpasses : Passes (afterSection (fun after => f inSection after jsonKey skipContent) st.toScope tag next
      (renderSection (f true) start next tag skipContent st))) :
    afterSection (fun after => f inSection after jsonKey skipContent) st.toScope tag next
        (renderSection (f true) start next tag skipContent st) =
      afterSection (fun after => g inSection after jsonKey skipContent) st.toScope tag next
        (renderSection (g true) start next tag skipContent st) := by
  have hsame : Passes (renderSection (f true) start next tag skipContent st) → _ := renderSection_same hfg skipContent st
  cases hf : renderSection (f true) start next tag skipContent st with
  | mk result closed =>
    rw [hf] at hpasses hsame
    cases result with
    | error stop =>
      rw [← hsame hpasses]
      rfl
    | ok after =>
      rw [← hsame (Passes.ok after closed)]
      exact hfg ⟨inSection, after, jsonKey, skipContent, closed.closed st.toScope tag next after⟩ hpasses

theorem renderTurn_same (input : ℕ) (skipContent : Bool) (st : State)
    (hpasses : Passes (renderTurn realText start f inSection input jsonKey skipContent st)) :
    renderTurn realText start f inSection input jsonKey skipContent st =
      renderTurn realText start g inSection input jsonKey skipContent st := by
  unfold renderTurn at hpasses ⊢
  dsimp only at hpasses ⊢
  generalize renderBefore start input (nextTag start input st.delims) skipContent st = before at hpasses ⊢
  generalize nextTag start input st.delims = tag at hpasses ⊢
  obtain ⟨next, st₀⟩ := before
  dsimp only at hpasses ⊢
  cases htype : tag.type with
  | err => rfl
  | none => rfl
  | sectionEnd => rfl
  | comment =>
    rw [htype] at hpasses
    exact hfg ⟨inSection, next, jsonKey, skipContent, st₀⟩ hpasses
  | delim =>
    rw [htype] at hpasses
    dsimp only at hpasses ⊢
    cases hset : setDelimiters (tag.name start) st₀.delims with
    | mk result d =>
      rw [hset] at hpasses
      cases result with
      | error stop => rfl
      | ok _ => exact hfg ⟨inSection, next, jsonKey, skipContent, { st₀ with delims := d }⟩ hpasses
  | «section» =>
    rw [htype] at hpasses
    exact afterSection_same hfg skipContent st₀ hpasses
  | inverted =>
    rw [htype] at hpasses
    exact afterSection_same hfg skipContent st₀ hpasses
  | var =>
    rw [htype] at hpasses
    exact afterVariable_same hfg skipContent _ hpasses
  | varUnescaped =>
    rw [htype] at hpasses
    exact afterVariable_same hfg skipContent _ hpasses
  | varSerialized =>
    rw [htype] at hpasses
    exact afterVariable_same hfg skipContent _ hpasses
  | varSerializedCompact =>
    rw [htype] at hpasses
    exact afterVariable_same hfg skipContent _ hpasses

/-- At the opening tag of a section: its bodies, and the turns behind it. -/
theorem afterSection_passes (realText : Bytes → Option Bytes) (hopens : tag.type.opensSection = true)
    (hnext : next.isSome = true) (skipContent : Bool) (st : State) :
    Passes (afterSection (fun after => f inSection after jsonKey skipContent) st.toScope tag next
        (renderSection (f true) start next tag skipContent st)) ↔
      ∀ c, Makes realText start g inSection jsonKey skipContent tag next st c → Passes (c.run f) := by
  have hsection : Passes (renderSection (f true) start next tag skipContent st) ↔ _ :=
    renderSection_passes hfg hnext skipContent st
  have hsame : Passes (renderSection (f true) start next tag skipContent st) → _ := renderSection_same hfg skipContent st
  constructor
  · intro hpasses c hc
    have hbody : Passes (renderSection (f true) start next tag skipContent st) := by
      cases hf : renderSection (f true) start next tag skipContent st with
      | mk result closed =>
        rw [hf] at hpasses
        cases result with
        | error stop => exact hpasses
        | ok after => exact Passes.ok after closed
    obtain ⟨honce, heach⟩ := hsection.mp hbody
    cases hc with
    | comment htype => rw [htype] at hopens; cases hopens
    | delim htype => rw [htype] at hopens; cases hopens
    | var hvariable => exact absurd hopens (TagType.opensSection_ne hvariable)
    | once _ hcall => exact honce _ _ hcall
    | each _ hcall hi hbefore hchild => exact heach _ _ _ hcall _ hi _ _ hbefore _ hchild
    | after _ hrun =>
      rw [hsame hbody, hrun] at hpasses
      exact hpasses
  · intro hall
    have hbody : Passes (renderSection (f true) start next tag skipContent st) :=
      hsection.mpr ⟨fun skip hash hcall => hall _ (.once hopens hcall),
        fun skip var length hcall i hi reached st' hbefore child hchild =>
          hall _ (.each hopens hcall hi hbefore hchild)⟩
    cases hf : renderSection (f true) start next tag skipContent st with
    | mk result closed =>
      have hg := hsame hbody
      rw [hf] at hbody hg
      cases result with
      | error stop => exact hbody
      | ok after => exact hall _ (.after hopens hg.symm)

/-- A turn passes if what it does itself passes and all its calls do. -/
theorem renderTurn_passes (input : ℕ) (skipContent : Bool) (st : State) :
    Passes (renderTurn realText start f inSection input jsonKey skipContent st) ↔
      ((nextTag start input st.delims).type.isVariable = true →
        Passes (renderVariableTag realText start (nextTag start input st.delims) jsonKey skipContent
          (renderBefore start input (nextTag start input st.delims) skipContent st).2)) ∧
      ∀ c, TurnMakes realText start g inSection input jsonKey skipContent st c → Passes (c.run f) := by
  have hnext : (nextTag start input st.delims).type.opensSection = true →
      (renderBefore start input (nextTag start input st.delims) skipContent st).1.isSome = true := by
    intro hopens
    obtain ⟨begin, stop, hbegin, hstop⟩ : ∃ begin stop, (nextTag start input st.delims).begin = some begin ∧
        (nextTag start input st.delims).stop = some stop := by
      apply nextTag_ends
      · exact fun h => by rw [h] at hopens; cases hopens
      · exact fun h => by rw [h] at hopens; cases hopens
    unfold renderBefore
    rw [hbegin, hstop]
    split
    · split <;> rfl
    · rfl
  unfold renderTurn TurnMakes
  dsimp only
  generalize renderBefore start input (nextTag start input st.delims) skipContent st = before at hnext ⊢
  generalize nextTag start input st.delims = tag at hnext ⊢
  obtain ⟨next, st₀⟩ := before
  dsimp only at hnext ⊢
  -- what is no call, for each kind of tag
  have hnever : tag.type.isVariable ≠ true → tag.type.opensSection ≠ true → ∀ c,
      Makes realText start g inSection jsonKey skipContent tag next st₀ c →
        tag.type = .comment ∧ c = ⟨inSection, next, jsonKey, skipContent, st₀⟩ ∨
          tag.type = .delim ∧ ∃ d, setDelimiters (tag.name start) st₀.delims = (.ok (), d) ∧
            c = ⟨inSection, next, jsonKey, skipContent, { st₀ with delims := d }⟩ := by
    intro hvariable hopens c hc
    cases hc with
    | comment h => exact .inl ⟨h, rfl⟩
    | delim h hset => exact .inr ⟨h, _, hset, rfl⟩
    | var h => exact absurd h hvariable
    | once h => exact absurd h hopens
    | each h => exact absurd h hopens
    | after h => exact absurd h hopens
  cases htype : tag.type with
  | err =>
    rw [htype] at hnever
    refine iff_of_true (fun h => nomatch h) ⟨fun h => (nomatch h), fun c hc => ?_⟩
    rcases hnever (by decide) (by decide) c hc with ⟨h, -⟩ | ⟨h, -⟩ <;> cases h
  | none =>
    rw [htype] at hnever
    refine iff_of_true (fun h => nomatch h) ⟨fun h => (nomatch h), fun c hc => ?_⟩
    rcases hnever (by decide) (by decide) c hc with ⟨h, -⟩ | ⟨h, -⟩ <;> cases h
  | sectionEnd =>
    rw [htype] at hnever
    refine iff_of_true ?_ ⟨fun h => (nomatch h), fun c hc => ?_⟩
    · cases inSection <;> exact fun h => nomatch h
    · rcases hnever (by decide) (by decide) c hc with ⟨h, -⟩ | ⟨h, -⟩ <;> cases h
  | comment =>
    rw [htype] at hnever
    refine ⟨fun h => ⟨fun hvar => (nomatch hvar), fun c hc => ?_⟩, fun h => h.2 _ (.comment htype)⟩
    rcases hnever (by decide) (by decide) c hc with ⟨-, rfl⟩ | ⟨hdelim, -⟩
    · exact h
    · cases hdelim
  | delim =>
    rw [htype] at hnever
    dsimp only
    cases hset : setDelimiters (tag.name start) st₀.delims with
    | mk result d =>
      cases result with
      | error stop =>
        refine iff_of_true (fun h => ?_) ⟨fun h => (nomatch h), fun c hc => ?_⟩
        · rw [Except.error.inj h] at hset
          exact setDelimiters_passes hset
        · rcases hnever (by decide) (by decide) c hc with ⟨h, -⟩ | ⟨-, _, h, -⟩
          · cases h
          · rw [hset] at h
            cases h
      | ok _ =>
        refine ⟨fun h => ⟨fun hvar => (nomatch hvar), fun c hc => ?_⟩, fun h => h.2 _ (.delim htype hset)⟩
        rcases hnever (by decide) (by decide) c hc with ⟨hcomment, -⟩ | ⟨-, _, heq, rfl⟩
        · cases hcomment
        · rw [hset] at heq
          cases heq
          exact h
  | «section» =>
    have hopens : tag.type.opensSection = true := by rw [htype]; rfl
    refine (afterSection_passes hfg realText hopens (hnext hopens) skipContent st₀).trans ?_
    exact (and_iff_right fun h => nomatch h).symm
  | inverted =>
    have hopens : tag.type.opensSection = true := by rw [htype]; rfl
    refine (afterSection_passes hfg realText hopens (hnext hopens) skipContent st₀).trans ?_
    exact (and_iff_right fun h => nomatch h).symm
  | var =>
    refine (afterVariable_passes f g (by rw [htype]; rfl) skipContent st₀).trans ?_
    rw [imp_iff_right (by rfl)]
  | varUnescaped =>
    refine (afterVariable_passes f g (by rw [htype]; rfl) skipContent st₀).trans ?_
    rw [imp_iff_right (by rfl)]
  | varSerialized =>
    refine (afterVariable_passes f g (by rw [htype]; rfl) skipContent st₀).trans ?_
    rw [imp_iff_right (by rfl)]
  | varSerializedCompact =>
    refine (afterVariable_passes f g (by rw [htype]; rfl) skipContent st₀).trans ?_
    rw [imp_iff_right (by rfl)]

end Loops

/-! ## Runs -/

section Runs

variable {holds : ℕ → Bool → State → Bool} {realText : Bytes → Option Bytes} {start : Bytes}

/-- As long as no assertion fails, a run that asserts is the run. -/
theorem renderAsserting_same (fuel : ℕ) : ∀ c : RenderCall, Passes (c.run (renderAsserting holds realText start fuel)) →
    c.run (renderAsserting holds realText start fuel) = c.run (render realText start fuel) := by
  induction fuel with
  | zero => exact fun _ _ => rfl
  | succ fuel ih =>
    intro c hpasses
    obtain ⟨inSection, input, jsonKey, skipContent, st⟩ := c
    cases input with
    | none => rfl
    | some input =>
      unfold RenderCall.run at hpasses ⊢
      dsimp only at hpasses ⊢
      rw [renderAsserting] at hpasses
      rw [renderAsserting, render_succ]
      split at hpasses
      · rename_i hholds
        rw [if_pos hholds]
        exact renderTurn_same ih input skipContent st hpasses
      · exact absurd rfl hpasses

/-- What all calls find: no name twice in an object, and something on the stack if there is text to render. -/
structure RenderCall.Sound (c : RenderCall) : Prop where
  distinct : DistinctKeys c.state.doc
  stack : c.input.isSome = true → c.state.hashStack ≠ []

theorem makes_sound {fuel input : ℕ} {inSection : Bool} {jsonKey : Option Bytes} {skipContent : Bool} {st : State}
    (hdistinct : DistinctKeys st.doc) (hstack : st.hashStack ≠ []) {c : RenderCall}
    (hc : TurnMakes realText start (render realText start fuel) inSection input jsonKey skipContent st c) : c.Sound := by
  obtain ⟨hscope, -⟩ := renderBefore_keeps start input (nextTag start input st.delims) skipContent st
  have hspec := render_spec realText start fuel
  unfold TurnMakes at hc
  generalize renderBefore start input (nextTag start input st.delims) skipContent st = before at hc hscope
  obtain ⟨next, st₀⟩ := before
  have hdistinct₀ : DistinctKeys st₀.doc := (congrArg Scope.doc hscope : st₀.doc = st.doc) ▸ hdistinct
  have hstack₀ : st₀.hashStack ≠ [] := (congrArg Scope.hashStack hscope : st₀.hashStack = st.hashStack) ▸ hstack
  have hpushed : ∀ (st : State) (hash : Option Ref), (st.push hash).hashStack ≠ [] := by
    intro st hash
    exact List.append_ne_nil_of_right_ne_nil _ (List.cons_ne_nil _ _)
  cases hc with
  | comment => exact ⟨hdistinct₀, fun _ => hstack₀⟩
  | delim => exact ⟨hdistinct₀, fun _ => hstack₀⟩
  | var _ hvar =>
    obtain ⟨-, hsame, -, hdistinct'⟩ := renderVariableTag_keeps hdistinct₀ hvar
    exact ⟨hdistinct', fun _ => hsame ▸ hstack₀⟩
  | once => exact ⟨hdistinct₀, fun _ => hpushed _ _⟩
  | each _ _ _ hbefore =>
    obtain ⟨new, hkept, -⟩ := renderEach_spec (hspec true) _ _ _ _ _ _ _
      (show DistinctKeys (st₀.push _).doc from hdistinct₀)
    rw [hbefore] at hkept
    exact ⟨hkept.distinct, fun _ => hpushed _ _⟩
  | @after behind closed _ hrun =>
    obtain ⟨new, hkept, hleft⟩ :=
      renderSection_spec (hspec true) next (nextTag start input st.delims) skipContent hdistinct₀
    rw [hrun] at hkept hleft
    have hclosed : (closed.closed st₀.toScope (nextTag start input st.delims) next behind).toScope = closed.toScope := by
      unfold State.closed
      split <;> rfl
    refine ⟨?_, fun hsome => ?_⟩
    · exact (congrArg Scope.doc hclosed : _ = closed.doc) ▸ hkept.distinct
    · obtain ⟨p, rfl⟩ := Option.isSome_iff_exists.mp hsome
      have hne : closed.hashStack ≠ [] := fun hnil => hstack₀ (List.prefix_nil.mp (hnil ▸ (hleft p rfl).below))
      exact (congrArg Scope.hashStack hclosed : _ = closed.hashStack) ▸ hne

/-- A run that asserts passes if and only if every turn meets the condition, for a condition that says of one turn that
it asserts nothing wrong and fails no assertion of its own. -/
theorem renderAsserting_passes_iff {cond : ℕ → Bool → State → Bool}
    (hturn : ∀ input skipContent st jsonKey, DistinctKeys st.doc → st.hashStack ≠ [] →
      (cond input skipContent st = true ↔ holds input skipContent st = true ∧
        ((nextTag start input st.delims).type.isVariable = true →
          Passes (renderVariableTag realText start (nextTag start input st.delims) jsonKey skipContent
            (renderBefore start input (nextTag start input st.delims) skipContent st).2)))) (fuel : ℕ) :
    ∀ c : RenderCall, c.Sound →
      (Passes (c.run (renderAsserting holds realText start fuel)) ↔ EveryTurn cond realText start fuel c) := by
  induction fuel with
  | zero => exact fun _ _ => iff_of_true (fun h => nomatch h) trivial
  | succ fuel ih =>
    intro c hsound
    obtain ⟨inSection, input, jsonKey, skipContent, st⟩ := c
    cases input with
    | none => exact iff_of_true (fun h => nomatch h) fun _ h => nomatch h
    | some input =>
      have hdistinct : DistinctKeys st.doc := hsound.distinct
      have hstack : st.hashStack ≠ [] := hsound.stack rfl
      have hcalls : (∀ c, TurnMakes realText start (render realText start fuel) inSection input jsonKey skipContent st c →
          Passes (c.run (renderAsserting holds realText start fuel))) ↔
          ∀ c, TurnMakes realText start (render realText start fuel) inSection input jsonKey skipContent st c →
            EveryTurn cond realText start fuel c :=
        forall₂_congr fun c hc => ih c (makes_sound hdistinct hstack hc)
      have hevery : EveryTurn cond realText start (fuel + 1) ⟨inSection, some input, jsonKey, skipContent, st⟩ ↔
          cond input skipContent st = true ∧
            ∀ c, TurnMakes realText start (render realText start fuel) inSection input jsonKey skipContent st c →
              EveryTurn cond realText start fuel c := by
        refine ⟨fun h => h input rfl, fun h other heq => ?_⟩
        cases heq
        exact h
      rw [hevery, hturn input skipContent st jsonKey hdistinct hstack, ← hcalls, and_assoc]
      rw [← renderTurn_passes (renderAsserting_same fuel) input skipContent st]
      unfold RenderCall.run
      dsimp only
      rw [renderAsserting]
      split
      · rename_i hholds
        exact (and_iff_right hholds).symm
      · rename_i hholds
        exact iff_of_false (fun h => h rfl) fun h => hholds h.1

end Runs

end Libntech.Mustache
