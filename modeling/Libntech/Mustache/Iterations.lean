import Libntech.Mustache.Skipping

/-! # Iterations of a section

A section over an array, or over an object to iterate over, renders its body once for each child. The delimiters, the
stack and the data are those that the iteration before left. Where each iteration begins with those of the opening tag,
the output is that of the bodies rendered by themselves, one behind the other.
-/
namespace Libntech.Mustache
set_option autoImplicit false

open Libntech.Json

/-- The variable of the section at this tag and the number of its children, if they are iterated over. -/
def sectionItems (start : Bytes) (input : Option ℕ) (tag : MustacheTag) (sc : Scope) : Option (Ref × ℕ) :=
  (lookupVariable sc (tag.name start)).bind fun ref =>
    match deref sc.doc ref with
    | some (.array children) => some (ref, children.length)
    | some (.object children) =>
      match shouldIterateObject start input sc.delims with
      | .ok true => some (ref, children.length)
      | _ => none
    | _ => none

section Items

variable {start : Bytes} {input : Option ℕ} {tag : MustacheTag} {st : State} {var : Ref} {length : ℕ}

theorem sectionItems_some (h : sectionItems start input tag st.toScope = some (var, length)) :
    lookupVariable st.toScope (tag.name start) = some var ∧
      ((∃ children, deref st.doc var = some (.array children) ∧ children.length = length) ∨
        ∃ children, deref st.doc var = some (.object children) ∧ children.length = length ∧
          shouldIterateObject start input st.delims = .ok true) := by
  unfold sectionItems at h
  obtain ⟨ref, hvar, h⟩ := Option.bind_eq_some_iff.mp h
  split at h
  · rename_i children hderef
    obtain ⟨rfl, hlength⟩ := Prod.mk.inj (Option.some.inj h)
    exact ⟨hvar, .inl ⟨children, hderef, hlength⟩⟩
  · rename_i children hderef
    split at h
    · rename_i hiterate
      obtain ⟨rfl, hlength⟩ := Prod.mk.inj (Option.some.inj h)
      exact ⟨hvar, .inr ⟨children, hderef, hlength, hiterate⟩⟩
    · cases h
  · cases h

theorem renderSection_items (h : sectionItems start input tag st.toScope = some (var, length)) (body : Body)
    (skipContent : Bool) :
    renderSection body start input tag skipContent st =
      renderItems body input (decide (tag.type = .inverted)) skipContent var length (st.push (some var)) := by
  obtain ⟨hvar, ⟨children, hderef, rfl⟩ | ⟨children, hderef, rfl, hiterate⟩⟩ := sectionItems_some h
  · unfold renderSection
    rw [hvar]
    dsimp only
    rw [hderef]
  · unfold renderSection
    rw [hvar]
    dsimp only
    rw [hderef, hiterate]

theorem childAt_isSome (h : sectionItems start input tag st.toScope = some (var, length)) {i : ℕ} (hi : i < length) :
    ∃ child, childAt st.doc var i = some child := by
  unfold childAt
  obtain ⟨-, ⟨children, hderef, rfl⟩ | ⟨children, hderef, rfl, -⟩⟩ := sectionItems_some h
  · rw [hderef]
    dsimp only
    rw [List.getElem?_eq_getElem hi]
    exact ⟨_, rfl⟩
  · rw [hderef]
    dsimp only
    rw [List.getElem?_eq_getElem hi]
    exact ⟨_, rfl⟩

end Items

/-! ## One iteration -/

/-- The state with an empty buffer. -/
def State.alone (st : State) : State := { st with out := [], sections := [] }

/-- The body for one child, by itself: in the state of the opening with the child as the innermost scope, into an empty
buffer. -/
def ownRun (body : Body) (input : Option ℕ) (var : Ref) (opening : State) (i : ℕ) : Except Stop (Option ℕ) × State :=
  match childAt opening.doc var i with
  | none => (.ok none, opening.alone)
  | some child => body input (some child.2) false (opening.alone.push (some child.1))

/-- The state that an iteration leaves, if it succeeds. -/
def afterIteration (body : Body) (input : Option ℕ) (var : Ref) (i : ℕ) (st : State) : Option State :=
  (childAt st.doc var i).bind fun child =>
    match body input (some child.2) false (st.push (some child.1)) with
    | (.ok _, st) => some st
    | (.error _, _) => none

/-- The state in which the `i`-th iteration begins, if it is reached. -/
def iterationStart (body : Body) (input : Option ℕ) (var : Ref) (opening : State) : ℕ → Option State
  | 0 => some opening
  | i + 1 => (iterationStart body input var opening i).bind (afterIteration body input var i)

/-- What the section does is what its bodies do by themselves: it succeeds if they all do, and then its output is that of
the bodies, in order. A section without children may fail without them. -/
structure Concatenates (body : Body) (input : Option ℕ) (var : Ref) (length : ℕ) (opening : State)
    (result : Except Stop (Option ℕ) × State) : Prop where
  succeeds : length ≠ 0 → (∀ i < length, ∃ after, (ownRun body input var opening i).1 = .ok after) →
    ∃ after, result.1 = .ok after
  bodies : ∀ after, result.1 = .ok after → ∀ i < length, ∃ after, (ownRun body input var opening i).1 = .ok after
  output : ∀ after, result.1 = .ok after →
    result.2.out = opening.out ++ (List.range length).flatMap fun i => (ownRun body input var opening i).2.out

/-- The first state is the second one with more text before its output. -/
def Behind (text : Bytes) (s t : State) : Prop := s.toScope.Alike t.toScope ∧ s.out = text ++ t.out

theorem respects_behind (text : Bytes) : Respects (Behind text) where
  scope := fun h => h.1
  stack := fun _ h => ⟨⟨h.1.doc, rfl, h.1.delims⟩, h.2⟩
  doc := fun _ h => ⟨⟨rfl, h.1.hashStack, h.1.delims⟩, h.2⟩
  delims := fun h h0 => ⟨⟨h.1.doc, h.1.hashStack, (setDelimiters_alike h0 h.1.delims).2⟩, h.2⟩
  out := fun {s t} more h => ⟨h.1, by rw [h.2, List.append_assoc]⟩
  closed := fun _ _ h _ => h

section Loop

variable {body : Body} (hbody : ∀ text, RelatedBodies (Behind text) body body) {input : Option ℕ} {var : Ref} {length : ℕ}
  {opening : State} (hchildren : ∀ i < length, ∃ child, childAt opening.doc var i = some child)
  (hbegins : ∀ i < length, ∀ st, iterationStart body input var opening i = some st → st.toScope.Alike opening.toScope)
include hbody hchildren hbegins

/-- From the `i`-th iteration on. -/
theorem renderEach_concatenates (count : ℕ) : ∀ (i : ℕ) (sectionEnd : Option ℕ) (st : State), i + count = length →
    iterationStart body input var opening i = some st →
    st.out = opening.out ++ ((List.range i).flatMap fun i => (ownRun body input var opening i).2.out) →
    (∀ j < i, ∃ after, (ownRun body input var opening j).1 = .ok after) →
    Concatenates body input var length opening (renderEach body input false var count i sectionEnd st) := by
  induction count with
  | zero =>
    intro i sectionEnd st hi _ hout hdone
    obtain rfl : i = length := hi
    exact ⟨fun _ _ => ⟨sectionEnd, rfl⟩, fun _ _ => hdone, fun _ _ => hout⟩
  | succ count ih =>
    intro i sectionEnd st hi hstart hout hdone
    have hlt : i < length := by omega
    have hscope := hbegins i hlt st hstart
    obtain ⟨child, hchild⟩ := hchildren i hlt
    have hchild' : childAt st.doc var i = some child := by rw [hscope.doc]; exact hchild
    have hown : ownRun body input var opening i = body input (some child.2) false
        (opening.alone.push (some child.1)) := by
      rw [ownRun, hchild]
    have halone : Behind st.out st opening.alone := ⟨hscope, (List.append_nil st.out).symm⟩
    have hbehind := (respects_behind st.out).push halone (some child.1)
    obtain ⟨hresult, -, hmore⟩ := hbody st.out _ _ hbehind input (some child.2) false
    rw [← hown] at hresult hmore
    have hnext : iterationStart body input var opening (i + 1) = afterIteration body input var i st := by
      rw [iterationStart, hstart]
      rfl
    unfold afterIteration at hnext
    rw [hchild', Option.bind_some] at hnext
    rw [renderEach, hchild']
    dsimp only at hresult hmore hnext ⊢
    generalize body input (some child.2) false (st.push (some child.1)) = result at hresult hmore hnext ⊢
    obtain ⟨res, st₁⟩ := result
    cases res with
    | error stop =>
      refine ⟨fun _ hall => ?_, (fun _ hok => by cases hok), (fun _ hok => by cases hok)⟩
      obtain ⟨after, hok⟩ := hall i hlt
      rw [hok] at hresult
      cases hresult
    | ok written =>
      refine ih (i + 1) (written.or sectionEnd) st₁ (by omega) hnext ?_ fun j hj => ?_
      · rw [List.range_succ, List.flatMap_append, List.flatMap_singleton, ← List.append_assoc, ← hout]
        exact hmore
      · rcases Nat.lt_succ_iff_lt_or_eq.mp hj with hj | rfl
        · exact hdone j hj
        · exact ⟨written, hresult.symm⟩

end Loop

/-! ## Steady bodies -/

/-- The turn leaves delimiters, data and stack alone, up to the pop at a closing tag: it neither sets the delimiters nor
serializes a variable, and a section that it opens is not iterated over. -/
def steadyTurn (start : Bytes) (input : ℕ) (skipContent : Bool) (st : State) : Bool :=
  let tag := nextTag start input st.delims
  match tag.type with
  | .delim => false
  | .varSerialized => skipContent
  | .varSerializedCompact => skipContent
  | .section => !iterates start st.toScope tag (renderBefore start input tag skipContent st).1
  | .inverted => !iterates start st.toScope tag (renderBefore start input tag skipContent st).1
  | _ => true

/-- A call that meets its closing tag takes one element from the stack, and one that meets none takes nothing. -/
def Restores (body : Body) : Prop :=
  ∀ {input key skip st after st'}, body input key skip st = (.ok after, st') →
    st'.toScope = if after.isSome then st.pop.toScope else st.toScope

theorem pop_push (st : State) (hash : Option Ref) : (st.push hash).pop = st := by
  unfold State.pop State.push
  dsimp only
  rw [List.dropLast_concat]

variable {start : Bytes} {st : State} {jsonKey : Option Bytes}

/-- A section that is not iterated over is rendered once, or not at all. -/
theorem renderSection_once {input : Option ℕ} {tag : MustacheTag} (h : iterates start st.toScope tag input = false)
    (body : Body) (skipContent : Bool) :
    (∃ skip hash, renderSection body start input tag skipContent st = body input none skip (st.push hash)) ∨
      ∃ stop st', renderSection body start input tag skipContent st = (.error stop, st') := by
  rw [iterates_eq skipContent] at h
  rw [renderSection_eq]
  cases hcall : sectionCall start input tag skipContent st.toScope with
  | once skip hash => exact .inl ⟨skip, hash, rfl⟩
  | each skip var length =>
    rw [hcall] at h
    cases h
  | fails stop hash => exact .inr ⟨stop, st.push hash, rfl⟩

theorem renderVariable_doc {realText : Bytes → Option Bytes} {content : Bytes} {conversion : TagType} {sc : Scope}
    {r : Bytes × JsonElement} (h₁ : conversion ≠ .varSerialized) (h₂ : conversion ≠ .varSerializedCompact)
    (h : renderVariable realText content conversion sc jsonKey = .ok r) :
    r.2 = sc.doc := by
  have hkeep : ∀ text : Bytes, Except.ok (text, sc.doc) = (Except.ok r : Except Stop _) → r.2 = sc.doc := by
    intro text heq
    rw [← Except.ok.inj heq]
  unfold renderVariable at h
  rw [decide_eq_false h₁, decide_eq_false h₂] at h
  dsimp only at h
  split at h
  · cases h
  · split at h
    · exact hkeep _ h
    · split at h
      · exact hkeep _ h
      · exact hkeep _ h
      · obtain ⟨text, _, htext⟩ := ok_of_map h
        exact hkeep text (by rw [htext])
      · split at h
        · rename_i hserialize
          cases hserialize
        · split at h
          · exact hkeep _ h
          · split at h <;> cases h

theorem renderVariableTag_scope {realText : Bytes → Option Bytes} {tag : MustacheTag} {skipContent : Bool} {st' : State}
    (hsteady : skipContent = true ∨ tag.type ≠ .varSerialized ∧ tag.type ≠ .varSerializedCompact)
    (h : renderVariableTag realText start tag jsonKey skipContent st = (.ok (), st')) : st'.toScope = st.toScope := by
  unfold renderVariableTag at h
  split at h
  · rw [← (Prod.mk.inj h).2]
  · rename_i hskip
    obtain ⟨h₁, h₂⟩ := hsteady.resolve_left hskip
    split at h
    · rw [← (Prod.mk.inj h).2]
    · split at h
      · cases h
      · rename_i r hvar
        have hdoc := renderVariable_doc h₁ h₂ hvar
        rw [← (Prod.mk.inj h).2]
        dsimp only
        rw [hdoc]

theorem renderTurn_restores (realText : Bytes → Option Bytes) {loop : Loop}
    (hloop : ∀ inSection, Restores (loop inSection)) {inSection : Bool} {input : ℕ} {skipContent : Bool} {st' : State}
    {after : Option ℕ} (hsteady : steadyTurn start input skipContent st = true)
    (hnone : ∀ st, ∃ stop, loop inSection none jsonKey skipContent st = (.error stop, st))
    (h : renderTurn realText start loop inSection input jsonKey skipContent st = (.ok after, st')) :
    st'.toScope = if after.isSome then st.pop.toScope else st.toScope := by
  obtain ⟨hscope, -⟩ := renderBefore_keeps start input (nextTag start input st.delims) skipContent st
  have hend : (nextTag start input st.delims).type = .sectionEnd → _ := renderBefore_sectionEnd skipContent st
  unfold steadyTurn at hsteady
  unfold renderTurn at h
  dsimp only at hsteady h
  generalize renderBefore start input (nextTag start input st.delims) skipContent st = before at hscope hend hsteady h
  generalize nextTag start input st.delims = tag at hend hsteady h
  obtain ⟨next, st₀⟩ := before
  dsimp only at hscope hend hsteady h
  have hpop : st₀.pop.toScope = st.pop.toScope := by
    unfold State.pop
    dsimp only
    rw [hscope]
  have hrest : ∀ {n st₁}, st₁.toScope = st.toScope → loop inSection n jsonKey skipContent st₁ = (.ok after, st') →
      st'.toScope = if after.isSome then st.pop.toScope else st.toScope := by
    intro n st₁ hscope₁ hrun
    have hleft := hloop inSection hrun
    have hpop₁ : st₁.pop.toScope = st.pop.toScope := by
      unfold State.pop
      dsimp only
      rw [hscope₁]
    rw [hpop₁, hscope₁] at hleft
    exact hleft
  have hsection : iterates start st.toScope tag next = false →
      afterSection (fun after => loop inSection after jsonKey skipContent) st₀.toScope tag next
        (renderSection (loop true) start next tag skipContent st₀) = (.ok after, st') →
      st'.toScope = if after.isSome then st.pop.toScope else st.toScope := by
    intro hiterates hrun
    rw [← hscope] at hiterates
    obtain ⟨skip, hash, honce⟩ | ⟨stop, st₁, hstop⟩ := renderSection_once hiterates (loop true) skipContent
    · rw [honce] at hrun
      cases hbody : loop true next none skip (st₀.push hash) with
      | mk result closed =>
        rw [hbody] at hrun
        cases result with
        | error stop => cases hrun
        | ok end₁ =>
          have hleft := hloop true hbody
          rw [pop_push] at hleft
          cases end₁ with
          | none =>
            obtain ⟨stop, hfails⟩ := hnone (closed.closed st₀.toScope tag next none)
            rw [afterSection, hfails] at hrun
            cases hrun
          | some p =>
            have hclosed : (closed.closed st₀.toScope tag next (some p)).toScope = st.toScope := hleft.trans hscope
            exact hrest hclosed hrun
    · rw [hstop] at hrun
      cases hrun
  have hvariable : (skipContent = true ∨ tag.type ≠ .varSerialized ∧ tag.type ≠ .varSerializedCompact) →
      afterVariable (loop inSection next jsonKey skipContent)
        (renderVariableTag realText start tag jsonKey skipContent st₀) = (.ok after, st') →
      st'.toScope = if after.isSome then st.pop.toScope else st.toScope := by
    intro hquiet hrun
    cases hvar : renderVariableTag realText start tag jsonKey skipContent st₀ with
    | mk result st₁ =>
      rw [hvar] at hrun
      cases result with
      | error stop => cases hrun
      | ok _ => exact hrest ((renderVariableTag_scope hquiet hvar).trans hscope) hrun
  cases htype : tag.type with
  | err =>
    rw [htype] at h
    cases h
  | none =>
    rw [htype] at h
    obtain ⟨hafter, rfl⟩ := Prod.mk.inj h
    obtain rfl := Except.ok.inj hafter
    exact hscope
  | comment =>
    rw [htype] at h
    exact hrest hscope h
  | delim =>
    rw [htype] at hsteady
    cases hsteady
  | sectionEnd =>
    obtain ⟨p, hp⟩ := hend htype
    rw [htype] at h
    dsimp only at h
    split at h
    · obtain ⟨hafter, rfl⟩ := Prod.mk.inj h
      rw [← Except.ok.inj hafter, hp]
      exact hpop
    · cases h
  | «section» =>
    rw [htype] at hsteady h
    exact hsection (by simpa using hsteady) h
  | inverted =>
    rw [htype] at hsteady h
    exact hsection (by simpa using hsteady) h
  | var =>
    rw [htype] at h
    exact hvariable (.inr (by rw [htype]; decide)) h
  | varUnescaped =>
    rw [htype] at h
    exact hvariable (.inr (by rw [htype]; decide)) h
  | varSerialized =>
    rw [htype] at hsteady h
    exact hvariable (.inl hsteady) h
  | varSerializedCompact =>
    rw [htype] at hsteady h
    exact hvariable (.inl hsteady) h

theorem renderAsserting_restores (realText : Bytes → Option Bytes) (start : Bytes) (fuel : ℕ) :
    ∀ inSection : Bool, Restores (renderAsserting (steadyTurn start) realText start fuel inSection) := by
  induction fuel with
  | zero =>
    intro inSection input key skip st after st' h
    cases h
  | succ fuel ih =>
    intro inSection input key skip st after st' h
    cases input with
    | none => cases h
    | some input =>
      rw [renderAsserting] at h
      split at h
      · rename_i hsteady
        refine renderTurn_restores realText ih hsteady (fun st => ?_) h
        cases fuel with
        | zero => exact ⟨.outOfFuel, rfl⟩
        | succ fuel => exact ⟨.failed, rfl⟩
      · cases h

/-- If each body meets its closing tag and takes steady turns only, each iteration begins with the delimiters, the stack
and the data of the first one. -/
theorem iterations_begin_alike (realText : Bytes → Option Bytes) (start : Bytes) (fuel : ℕ) (input : Option ℕ) (var : Ref)
    (length : ℕ) (opening : State)
    (hbodies : ∀ i st child, i + 1 < length →
      iterationStart (render realText start fuel true) input var opening i = some st → childAt st.doc var i = some child →
      renderAsserting (steadyTurn start) realText start fuel true input (some child.2) false (st.push (some child.1)) =
          render realText start fuel true input (some child.2) false (st.push (some child.1)) ∧
        (render realText start fuel true input (some child.2) false (st.push (some child.1))).1 ≠ .ok none) :
    ∀ i < length, ∀ st, iterationStart (render realText start fuel true) input var opening i = some st →
      st.toScope = opening.toScope := by
  intro i
  induction i with
  | zero =>
    intro _ st h
    rw [← Option.some.inj h]
  | succ i ih =>
    intro hi st' h
    obtain ⟨st, hstart, hafter⟩ := Option.bind_eq_some_iff.mp h
    obtain ⟨child, hchild, hbody⟩ := Option.bind_eq_some_iff.mp hafter
    obtain ⟨hsteady, hmeets⟩ := hbodies i st child hi hstart hchild
    rw [← ih (Nat.lt_of_succ_lt hi) st hstart]
    cases hrun : render realText start fuel true input (some child.2) false (st.push (some child.1)) with
    | mk result st₁ =>
      rw [hrun] at hsteady hmeets hbody
      cases result with
      | error stop => cases hbody
      | ok after =>
        have hscope := renderAsserting_restores realText start fuel true hsteady
        rw [pop_push] at hscope
        obtain rfl := Option.some.inj hbody
        cases after with
        | none => exact absurd rfl hmeets
        | some p => exact hscope

/-! ## The section -/

/-- For every body and an array or iterated object of any length: if each iteration begins with the delimiters, the stack
and the data of the first one, the section does what its bodies do by themselves. What the arrays of the delimiters hold
behind the terminators is left open. Without children the body is skipped. -/
theorem section_concatenates (realText : Bytes → Option Bytes) (template : CString) (fuel : ℕ) (input : Option ℕ)
    (tag : MustacheTag) (st : State) (var : Ref) (length : ℕ) (hsection : tag.type = .section)
    (hitems : sectionItems template.bytes input tag st.toScope = some (var, length))
    (hskips : length = 0 →
      renderAsserting (skipsAll template.bytes) realText template.bytes fuel true input none true (st.push (some var)) =
        render realText template.bytes fuel true input none true (st.push (some var)))
    (hbegins : ∀ i < length, ∀ begins,
      iterationStart (render realText template.bytes fuel true) input var (st.push (some var)) i = some begins →
        begins.toScope.Alike (st.push (some var)).toScope) :
    Concatenates (render realText template.bytes fuel true) input var length (st.push (some var))
      (renderSection (render realText template.bytes fuel true) template.bytes input tag false st) := by
  rw [renderSection_items hitems, hsection]
  unfold renderItems
  split
  · rename_i hzero
    subst hzero
    have hquiet := renderAsserting_quiet realText template.bytes fuel true input none (st.push (some var))
    rw [hskips rfl] at hquiet
    exact ⟨fun h => absurd rfl h, fun _ _ i hi => absurd hi (Nat.not_lt_zero i),
      fun _ _ => hquiet.trans (List.append_nil _).symm⟩
  · have hbody : ∀ text, RelatedBodies (Behind text) (render realText template.bytes fuel true)
        (render realText template.bytes fuel true) :=
      fun text => render_related (respects_behind text) realText template.nul_free fuel true
    have hchildren : ∀ i < length, ∃ child, childAt (st.push (some var)).doc var i = some child :=
      fun i hi => childAt_isSome hitems hi
    exact renderEach_concatenates hbody hchildren hbegins length 0 none (st.push (some var)) (Nat.zero_add length) rfl
      (List.append_nil _).symm fun j hj => absurd hj (Nat.not_lt_zero j)

/-- `{"a": ["1", "2"]}` -/
def twoItems : State :=
  ⟨⟨.object [(ascii "a", .array [.primitive .string (ascii "1"), .primitive .string (ascii "2")])], [some []], .initial⟩,
    [], []⟩

/-- `{{#a}}x{{.}}{{/a}}` -/
def itemTemplate : CString := ⟨ascii "\x7b\x7b#a\x7d\x7dx\x7b\x7b.\x7d\x7d\x7b\x7b/a\x7d\x7d", by decide⟩

theorem section_concatenates_items :
    Concatenates (render (fun _ => none) itemTemplate.bytes 4 true) (some 6) [.key (ascii "a")] 2
      (twoItems.push (some [.key (ascii "a")]))
      (renderSection (render (fun _ => none) itemTemplate.bytes 4 true) itemTemplate.bytes (some 6)
        (nextTag itemTemplate.bytes 0 .initial) false twoItems) := by
  refine section_concatenates (fun _ => none) itemTemplate 4 (some 6) (nextTag itemTemplate.bytes 0 .initial) twoItems
    [.key (ascii "a")] 2 (by decide) (by decide) (fun h => by cases h) ?_
  refine fun i hi st hst => Scope.alike_of_eq (iterations_begin_alike (fun _ => none) itemTemplate.bytes 4 (some 6)
    [.key (ascii "a")] 2 (twoItems.push (some [.key (ascii "a")])) (fun i st child hi hstart hchild => ?_) i hi st hst)
  obtain rfl : i = 0 := by omega
  obtain rfl := Option.some.inj hstart
  obtain rfl := Option.some.inj hchild
  exact ⟨rfl, fun h => by cases h⟩

/-- `{{#a}}{{=<% %>=}}x<%/a%>` -/
def changingTemplate : CString :=
  ⟨ascii "\x7b\x7b#a\x7d\x7d\x7b\x7b=<% %>=\x7d\x7dx<%/a%>", by decide⟩

/-- The second iteration reads the tag that sets the delimiters as text. -/
theorem changed_delimiters_carried_over :
    (renderSection (render (fun _ => none) changingTemplate.bytes 4 true) changingTemplate.bytes (some 6)
        (nextTag changingTemplate.bytes 0 .initial) false twoItems).1 = .ok (some 24) ∧
      (renderSection (render (fun _ => none) changingTemplate.bytes 4 true) changingTemplate.bytes (some 6)
        (nextTag changingTemplate.bytes 0 .initial) false twoItems).2.out = ascii "x\x7b\x7b=<%%>=\x7d\x7dx" ∧
      ((List.range 2).flatMap fun i => (ownRun (render (fun _ => none) changingTemplate.bytes 4 true) (some 6)
        [.key (ascii "a")] (twoItems.push (some [.key (ascii "a")])) i).2.out) = ascii "xx" :=
  ⟨rfl, rfl, rfl⟩

end Libntech.Mustache
