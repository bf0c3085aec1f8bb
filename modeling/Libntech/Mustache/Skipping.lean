import Libntech.Mustache.Assertions

/-! # Skipped text

While `Render` skips, each call that it makes for a section is to skip as well. The call for an array without elements
decides afresh, from the kind of the section alone, so that an inverted section over one is rendered inside skipped text.
-/
namespace Libntech.Mustache
set_option autoImplicit false

open Libntech.Json

/-- The tag opens an inverted section over an array, or an object to iterate over, that has no children. -/
def invertedOverEmpty (start : Bytes) (input : Option ℕ) (tag : MustacheTag) (sc : Scope) : Bool :=
  decide (tag.type = .inverted) &&
    match (lookupVariable sc (tag.name start)).bind (deref sc.doc) with
    | some (.array children) => decide (children.length = 0)
    | some (.object children) =>
      match shouldIterateObject start input sc.delims with
      | .ok true => decide (children.length = 0)
      | _ => false
    | _ => false

/-! ## One section -/

/-- Calls that skip leave the output as it is. -/
def Quiet (body : Body) : Prop := ∀ input key st, (body input key true st).2.out = st.out

section Sections

variable {start : Bytes} {input : Option ℕ} {tag : MustacheTag} {body : Body}

theorem renderEach_quiet (hquiet : Quiet body) (var : Ref) (count : ℕ) :
    ∀ (i : ℕ) (sectionEnd : Option ℕ) (st : State),
      (renderEach body input true var count i sectionEnd st).2.out = st.out := by
  induction count with
  | zero => exact fun _ _ _ => rfl
  | succ count ih =>
    intro i sectionEnd st
    rw [renderEach]
    cases childAt st.doc var i with
    | none => rfl
    | some child =>
      have hout : (body input (some child.2) true (st.push (some child.1))).2.out = st.out := hquiet _ _ _
      revert hout
      dsimp only
      generalize body input (some child.2) true (st.push (some child.1)) = result
      obtain ⟨res, st₁⟩ := result
      intro hout
      cases res with
      | error stop => exact hout
      | ok written => exact (ih (i + 1) (written.or sectionEnd) st₁).trans hout

theorem sectionCall_over_empty {sc : Scope} (h : invertedOverEmpty start input tag sc = true) (skipContent : Bool) :
    sectionCall start input tag skipContent sc = .once false (lookupVariable sc (tag.name start)) := by
  unfold invertedOverEmpty at h
  obtain ⟨hinverted, hempty⟩ := Bool.and_eq_true_iff.mp h
  unfold sectionCall
  rw [hinverted]
  cases hvar : lookupVariable sc (tag.name start) with
  | none =>
    rw [hvar] at hempty
    cases hempty
  | some ref =>
    rw [hvar, Option.bind_some] at hempty
    dsimp only
    split at hempty
    · rename_i children hderef
      rw [hderef]
      exact if_pos (of_decide_eq_true hempty)
    · rename_i children hderef
      rw [hderef]
      dsimp only
      split at hempty
      · rename_i hiterate
        rw [hiterate]
        exact if_pos (of_decide_eq_true hempty)
      · cases hempty
    · cases hempty

def SectionCall.skips : SectionCall → Bool
  | .once skip _ => skip
  | .each skip _ _ => skip
  | .fails _ _ => true

theorem sectionCall_skips {sc : Scope} :
    (sectionCall start input tag true sc).skips = !invertedOverEmpty start input tag sc := by
  have hitems : ∀ (inverted : Bool) (ref : Ref) (length : ℕ), SectionCall.skips (if length = 0 then
      .once (!inverted) (some ref) else .each (true || inverted) ref length) = !(inverted && decide (length = 0)) := by
    intro inverted ref length
    split
    · rename_i hzero
      rw [decide_eq_true hzero, Bool.and_true]
      rfl
    · rename_i hzero
      rw [decide_eq_false hzero, Bool.and_false]
      rfl
  have hsafe : ∀ inverted : Bool, true = !(inverted && false) := by decide
  unfold sectionCall invertedOverEmpty
  cases lookupVariable sc (tag.name start) with
  | none => exact hsafe _
  | some ref =>
    rw [Option.bind_some]
    dsimp only
    cases deref sc.doc ref with
    | none => exact hsafe _
    | some element =>
      cases element with
      | primitive type value => cases type <;> exact hsafe _
      | array children => exact hitems _ ref children.length
      | object children =>
        dsimp only
        cases shouldIterateObject start input sc.delims with
        | error stop => exact hsafe _
        | ok iterate =>
          cases iterate with
          | false => exact hsafe _
          | true => exact hitems _ ref children.length

theorem renderSection_quiet (hquiet : Quiet body) {st : State}
    (hsafe : invertedOverEmpty start input tag st.toScope = false) :
    (renderSection body start input tag true st).2.out = st.out := by
  have hskips : (sectionCall start input tag true st.toScope).skips = true := by
    rw [sectionCall_skips, hsafe]
    rfl
  rw [renderSection_eq]
  generalize sectionCall start input tag true st.toScope = call at hskips ⊢
  cases call with
  | once skip hash =>
    obtain rfl : skip = true := hskips
    exact hquiet input none (st.push hash)
  | each skip var length =>
    obtain rfl : skip = true := hskips
    exact renderEach_quiet hquiet var length 0 none (st.push (some var))
  | fails stop hash => rfl

/-- A section that is skipped is quiet with all quiet bodies, except an inverted one over nothing. -/
theorem renderSection_quiet_iff {st : State} :
    (∀ body, Quiet body → (renderSection body start input tag true st).2.out = st.out) ↔
      invertedOverEmpty start input tag st.toScope = false := by
  refine ⟨fun hall => Bool.eq_false_iff.mpr fun hopens => ?_, fun hsafe body hquiet => renderSection_quiet hquiet hsafe⟩
  have hout := hall (fun _ _ skip st => (.ok none, if skip then st else { st with out := st.out ++ [0] }))
    fun _ _ _ => rfl
  rw [renderSection_eq, sectionCall_over_empty hopens true] at hout
  exact absurd (List.append_right_eq_self.mp hout) (by simp)

end Sections

/-! ## One turn -/

theorem renderBefore_skip (start : Bytes) (input : ℕ) (tag : MustacheTag) (st : State) :
    (renderBefore start input tag true st).2 = st := by
  unfold renderBefore
  split
  · split <;> rfl
  · rfl

/-- The turn at this position opens an inverted section over nothing. -/
def opensOverEmpty (start : Bytes) (input : ℕ) (st : State) : Bool :=
  let tag := nextTag start input st.delims
  invertedOverEmpty start (renderBefore start input tag true st).1 tag st.toScope

theorem renderTurn_quiet (realText : Bytes → Option Bytes) {start : Bytes} {input : ℕ} {loop : Loop} {st : State}
    (hsafe : opensOverEmpty start input st = false) (hquiet : ∀ inSection, Quiet (loop inSection)) (inSection : Bool)
    (jsonKey : Option Bytes) :
    (renderTurn realText start loop inSection input jsonKey true st).2.out = st.out := by
  have hbefore := renderBefore_skip start input (nextTag start input st.delims) st
  unfold opensOverEmpty at hsafe
  unfold renderTurn
  dsimp only at hsafe ⊢
  generalize renderBefore start input (nextTag start input st.delims) true st = before at hsafe hbefore ⊢
  generalize nextTag start input st.delims = tag at hsafe ⊢
  obtain ⟨next, st₀⟩ := before
  dsimp only at hsafe hbefore ⊢
  rw [hbefore]
  have hsection : (afterSection (fun after => loop inSection after jsonKey true) st.toScope tag next
      (renderSection (loop true) start next tag true st)).2.out = st.out := by
    have hout := renderSection_quiet (hquiet true) hsafe
    generalize renderSection (loop true) start next tag true st = result at hout ⊢
    obtain ⟨res, closed⟩ := result
    cases res with
    | error stop => exact hout
    | ok after =>
      have hclosed : (closed.closed st.toScope tag next after).out = closed.out := by
        unfold State.closed
        split <;> rfl
      exact (hquiet inSection after jsonKey _).trans (hclosed.trans hout)
  cases tag.type with
  | err => rfl
  | none => rfl
  | comment => exact hquiet inSection next jsonKey st
  | delim =>
    dsimp only
    cases setDelimiters (tag.name start) st.delims with
    | mk result d =>
      cases result with
      | error stop => rfl
      | ok _ => exact hquiet inSection next jsonKey { st with delims := d }
  | sectionEnd =>
    dsimp only
    split <;> rfl
  | «section» => exact hsection
  | inverted => exact hsection
  | var => exact hquiet inSection next jsonKey st
  | varUnescaped => exact hquiet inSection next jsonKey st
  | varSerialized => exact hquiet inSection next jsonKey st
  | varSerializedCompact => exact hquiet inSection next jsonKey st

/-! ## A whole run -/

/-- A turn that skips opens no inverted section over nothing. -/
def skipsAll (start : Bytes) (input : ℕ) (skipContent : Bool) (st : State) : Bool :=
  !(skipContent && opensOverEmpty start input st)

theorem renderAsserting_quiet (realText : Bytes → Option Bytes) (start : Bytes) (fuel : ℕ) :
    ∀ inSection : Bool, Quiet (renderAsserting (skipsAll start) realText start fuel inSection) := by
  induction fuel with
  | zero => exact fun _ _ _ _ => rfl
  | succ fuel ih =>
    intro inSection input key st
    cases input with
    | none => rfl
    | some input =>
      rw [renderAsserting, skipsAll, Bool.true_and]
      cases hsafe : opensOverEmpty start input st with
      | true => rfl
      | false => exact renderTurn_quiet realText hsafe ih inSection key

/-- A call that skips leaves the output as it is if no turn of it, or of the calls it makes, opens an inverted section
over nothing while it skips; and such a section is the only one that is not skipped by itself. -/
theorem render_skips (realText : Bytes → Option Bytes) (start : Bytes) :
    (∀ fuel inSection input jsonKey st,
        renderAsserting (skipsAll start) realText start fuel inSection input jsonKey true st =
            render realText start fuel inSection input jsonKey true st →
          (render realText start fuel inSection input jsonKey true st).2.out = st.out) ∧
      ∀ input tag st, (∀ body, Quiet body → (renderSection body start input tag true st).2.out = st.out) ↔
        invertedOverEmpty start input tag st.toScope = false := by
  refine ⟨fun fuel inSection input jsonKey st hsafe => ?_, fun input tag st => renderSection_quiet_iff⟩
  rw [← hsafe]
  exact renderAsserting_quiet realText start fuel inSection input jsonKey st

/-- `x{{v}}{{#s}}y{{/s}}{{^t}}z{{/t}}` -/
def skippedTemplate : Bytes :=
  ascii "x\x7b\x7bv\x7d\x7d\x7b\x7b#s\x7d\x7dy\x7b\x7b/s\x7d\x7d\x7b\x7b^t\x7d\x7dz\x7b\x7b/t\x7d\x7d"

/-- With `{"s": [[], []]}` -/
def skippedState : State :=
  ⟨⟨.object [(ascii "s", .array [.array [], .array []])], [some []], .initial⟩, ascii "o", []⟩

theorem render_skips_nested :
    (render (fun _ => none) skippedTemplate 9 false (some 0) none true skippedState).2.out = ascii "o" :=
  (render_skips (fun _ => none) skippedTemplate).1 9 false (some 0) none skippedState rfl

/-- `{{#s}}{{^e}}x{{/e}}{{/s}}` -/
def emptyInSkipped : CString :=
  ⟨ascii "\x7b\x7b#s\x7d\x7d\x7b\x7b^e\x7d\x7dx\x7b\x7b/e\x7d\x7d\x7b\x7b/s\x7d\x7d", by decide⟩

/-- `{"s": false, "e": []}` -/
def emptyInSkippedHash : JsonElement :=
  .object [(ascii "s", .primitive .bool jsonFalse), (ascii "e", .array [])]

theorem empty_inverted_rendered :
    (render (fun _ => none) emptyInSkipped.bytes 8 true (some 6) none true
        ⟨⟨emptyInSkippedHash, [some []], .initial⟩, [], []⟩).2.out = ascii "x" ∧
      (mustacheRender (fun _ => none) 8 [] emptyInSkipped emptyInSkippedHash).2.out = ascii "x" :=
  ⟨rfl, rfl⟩

end Libntech.Mustache
