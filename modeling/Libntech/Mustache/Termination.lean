import Libntech.Mustache.RenderMeaning
import Libntech.Mustache.TagBounds

/-! # Every rendering ends

Each turn of `Render`, of the calls it makes for its sections and of `ShouldIterateObject` starts behind the position of
the turn before, so that a template has no more nested turns than characters. `renderChecked` and `iterateChecked` assert
in each turn what the code relies on; they do what the unchecked functions do.
-/
namespace Libntech.Mustache
set_option autoImplicit false

open Libntech.Json

/-! ## One turn -/

/-- A call of `Render`: whether it is in a section, from where, with which key, and whether to skip. -/
abbrev Loop := Bool → Option ℕ → Option Bytes → Bool → State → Except Stop (Option ℕ) × State

/-- One turn of `Render`; the turns after it and the calls for sections are those of `loop`. -/
def renderTurn (realText : Bytes → Option Bytes) (start : Bytes) (loop : Loop) (inSection : Bool) (input : ℕ)
    (jsonKey : Option Bytes) (skipContent : Bool) (st : State) : Except Stop (Option ℕ) × State :=
  let tag := nextTag start input st.delims
  let before := renderBefore start input tag skipContent st
  let input := before.1
  let st := before.2
  match tag.type with
  | .err => (.error .failed, st)
  | .delim =>
    match setDelimiters (tag.name start) st.delims with
    | (.error stop, d) => (.error stop, { st with delims := d })
    | (.ok _, d) => loop inSection input jsonKey skipContent { st with delims := d }
  | .comment => loop inSection input jsonKey skipContent st
  | .none => (.ok none, st)
  | .sectionEnd => if inSection then (.ok input, st.pop) else (.error .failed, st)
  | .inverted | .section =>
    match renderSection (loop true) start input tag skipContent st with
    | (.error stop, st) => (.error stop, st)
    | (.ok after, closed) => loop inSection after jsonKey skipContent (closed.closed st.toScope tag input after)
  | .varSerialized | .varSerializedCompact | .varUnescaped | .var =>
    match renderVariableTag realText start tag jsonKey skipContent st with
    | (.error stop, st) => (.error stop, st)
    | (.ok _, st) => loop inSection input jsonKey skipContent st

theorem render_succ (realText : Bytes → Option Bytes) (start : Bytes) (fuel : ℕ) (inSection : Bool) (input : ℕ)
    (jsonKey : Option Bytes) (skipContent : Bool) (st : State) :
    render realText start (fuel + 1) inSection (some input) jsonKey skipContent st =
      renderTurn realText start (render realText start fuel) inSection input jsonKey skipContent st := rfl

/-- One turn of `ShouldIterateObject`. -/
def iterateTurn (start : Bytes) (loop : Option ℕ → Delimiters → Except Stop Bool) (input : ℕ) (d : Delimiters) :
    Except Stop Bool :=
  let tag := nextTag start input d
  match tag.type with
  | .err | .none | .section | .sectionEnd => .ok false
  | .var | .varUnescaped =>
    if isKeyExtensionVar start tag.type (tag.begin.getD 0) d then .ok true else loop tag.stop d
  | .delim =>
    match setDelimiters (tag.name start) d with
    | (.error .failed, _) => .ok false
    | (.error stop, _) => .error stop
    | (.ok _, d) => loop tag.stop d
  | _ => loop tag.stop d

theorem iterateLoop_succ (start : Bytes) (fuel input : ℕ) (d : Delimiters) :
    iterateLoop start (fuel + 1) (some input) d = iterateTurn start (iterateLoop start fuel) input d := by
  unfold iterateLoop iterateTurn
  cases (nextTag start input d).type <;> rfl

/-! ## What a call leaves -/

/-- A call from a position on does not run out of turns; it ends behind the position, where no blank is before; and the
delimiters that it leaves can be used. -/
structure Ends (start : Bytes) (input : ℕ) (enough : Prop) (result : Except Stop (Option ℕ) × State) : Prop where
  stops : enough → result.1 ≠ .error .outOfFuel
  forward : ∀ p, result.1 = .ok (some p) → input < p ∧ Fresh start p
  usable : ∀ after, result.1 = .ok after → result.2.delims.Usable

theorem Ends.error {start : Bytes} {input : ℕ} {enough : Prop} {stop : Stop} {st : State}
    (h : enough → stop ≠ .outOfFuel) : Ends start input enough (.error stop, st) :=
  ⟨fun he heq => h he (Except.error.inj heq), fun _ hok => (nomatch hok), fun _ hok => (nomatch hok)⟩

variable {start : Bytes} {st : State} {input : ℕ} {enough : Prop} {realText : Bytes → Option Bytes}
  {jsonKey : Option Bytes} {d : Delimiters}

theorem Ends.ok {after : Option ℕ} (hafter : ∀ p, after = some p → input < p ∧ Fresh start p) (hd : st.delims.Usable) :
    Ends start input enough (.ok after, st) :=
  ⟨fun _ h => (nomatch h), fun p hp => hafter p (Except.ok.inj hp), fun _ _ => hd⟩

theorem Ends.mono {n : ℕ} {result : Except Stop (Option ℕ) × State} (h : Ends start n enough result) (hle : input ≤ n) :
    Ends start input enough result :=
  ⟨h.stops, fun p hp => ⟨Nat.lt_of_le_of_lt hle (h.forward p hp).1, (h.forward p hp).2⟩, h.usable⟩

/-- The calls that a turn at a position may make, and those that fail at once. -/
structure LoopEnds (start : Bytes) (input : ℕ) (enough : Prop) (loop : Loop) : Prop where
  some : ∀ inSection n key skip st, input < n → Fresh start n → st.delims.Usable →
    Ends start n enough (loop inSection (some n) key skip st)
  none : ∀ inSection key skip st, ∃ stop, loop inSection none key skip st = (.error stop, st) ∧
    (enough → stop ≠ .outOfFuel)

section Sections

variable {start : Bytes} {input n : ℕ} {enough : Prop} {loop : Loop} (hloop : LoopEnds start input enough loop)
  (hlt : input < n) (hfresh : Fresh start n)
include hloop hlt hfresh

theorem renderEach_ends (skip : Bool) (var : Ref) (count : ℕ) : ∀ (i : ℕ) (sectionEnd : Option ℕ) (st : State),
    st.delims.Usable → (∀ p, sectionEnd = some p → n < p ∧ Fresh start p) →
    Ends start n enough (renderEach (loop true) (some n) skip var count i sectionEnd st) := by
  induction count with
  | zero =>
    intro i sectionEnd st hd hsection
    exact Ends.ok hsection hd
  | succ count ih =>
    intro i sectionEnd st hd hsection
    rw [renderEach]
    cases childAt st.doc var i with
    | none => exact Ends.ok hsection hd
    | some child =>
      have hends := hloop.some true n (some child.2) skip (st.push (some child.1)) hlt hfresh hd
      revert hends
      dsimp only
      generalize loop true (some n) (some child.2) skip (st.push (some child.1)) = result
      obtain ⟨res, st₁⟩ := result
      intro hends
      cases res with
      | error stop => exact Ends.error fun he heq => hends.stops he (congrArg Except.error heq)
      | ok written =>
        refine ih (i + 1) (written.or sectionEnd) st₁ (hends.usable _ rfl) fun p hp => ?_
        cases written with
        | none => exact hsection p hp
        | some q => exact hends.forward p (congrArg Except.ok hp)

theorem renderSection_ends
    (hiterate : ∀ d : Delimiters, d.Usable →
      shouldIterateObject start (some n) d ≠ .error .outOfFuel)
    (tag : MustacheTag) (skipContent : Bool) (hd : st.delims.Usable) :
    Ends start n enough (renderSection (loop true) start (some n) tag skipContent st) := by
  rw [renderSection_eq]
  cases hcall : sectionCall start (some n) tag skipContent st.toScope with
  | once skip hash => exact hloop.some true n none skip (st.push hash) hlt hfresh hd
  | each skip var length =>
    exact renderEach_ends hloop hlt hfresh skip var length 0 none (st.push (some var)) hd fun p hp => nomatch hp
  | fails stop hash =>
    refine Ends.error fun _ heq => ?_
    rw [heq] at hcall
    rcases sectionCall_fails hcall with hfailed | hiter
    · cases hfailed
    · exact hiterate st.delims hd hiter

end Sections

/-! ## One turn and what follows -/

theorem renderBefore_forward {begin stop : ℕ} (skipContent : Bool) (hfresh : Fresh start input) (hd : st.delims.Usable)
    (hbegin : (nextTag start input st.delims).begin = some begin)
    (hstop : (nextTag start input st.delims).stop = some stop) :
    ∃ n, (renderBefore start input (nextTag start input st.delims) skipContent st).1 = some n ∧ input < n ∧
      Fresh start n := by
  obtain ⟨htag, hsolid⟩ := nextTag_complete hd hbegin hstop
  have hbehind := htag.behind
  have hforward := htag.forward
  have hend : Fresh start stop := ⟨htag.inside, .inr (.inr hsolid)⟩
  unfold renderBefore
  rw [hbegin, hstop]
  cases isTagTypeRenderable (nextTag start input st.delims).type with
  | true => exact ⟨stop, rfl, by omega, hend⟩
  | false =>
    dsimp only
    cases hline : isTagStandalone start begin stop with
    | none => exact ⟨stop, rfl, by omega, hend⟩
    | some line =>
      obtain ⟨-, hle, hfresh'⟩ := isTagStandalone_line hfresh hbehind hforward htag.inside hline
      exact ⟨line.2, rfl, by omega, hfresh'⟩

theorem turn_forward (skipContent : Bool) (hfresh : Fresh start input) (hd : st.delims.Usable)
    (hnone : (nextTag start input st.delims).type ≠ .none) (herr : (nextTag start input st.delims).type ≠ .err) :
    ∃ n, (renderBefore start input (nextTag start input st.delims) skipContent st).1 = some n ∧ input < n ∧
      Fresh start n := by
  obtain ⟨begin, stop, hbegin, hstop⟩ := nextTag_ends hnone herr
  exact renderBefore_forward skipContent hfresh hd hbegin hstop

theorem renderBefore_usable (start : Bytes) (input : ℕ) (tag : MustacheTag) (skipContent : Bool) (hd : st.delims.Usable) :
    (renderBefore start input tag skipContent st).2.delims.Usable := by
  obtain ⟨hscope, -⟩ := renderBefore_keeps start input tag skipContent st
  rw [show (renderBefore start input tag skipContent st).2.delims = st.delims from congrArg Scope.delims hscope]
  exact hd

theorem map_ne {α β : Type} {f : α → β} {x : Except Stop α} {stop : Stop} (h : x ≠ .error stop) :
    x.map f ≠ .error stop := by
  cases x with
  | error other => exact fun heq => h (congrArg Except.error (Except.error.inj heq))
  | ok value => exact fun heq => nomatch heq

theorem renderVariable_stop {content : Bytes} {conversion : TagType} {sc : Scope} :
    renderVariable realText content conversion sc jsonKey ≠ .error .outOfFuel := by
  have hprimitive : ∀ type value escaped, renderVariablePrimitive realText type value escaped ≠ .error .outOfFuel := by
    intro type value escaped
    cases type with
    | string => exact fun h => nomatch h
    | integer =>
      rw [renderVariablePrimitive]
      split <;> simp
    | real =>
      rw [renderVariablePrimitive]
      split <;> simp
    | bool => exact fun h => nomatch h
    | null => exact fun h => nomatch h
  have hcontainer : ∀ container compact, renderVariableContainer container compact ≠ .error .outOfFuel := by
    intro container compact
    unfold renderVariableContainer
    split <;> simp
  unfold renderVariable
  dsimp only
  split
  · simp
  · split
    · simp
    · split
      · simp
      · simp
      · exact map_ne (hprimitive _ _ _)
      · split
        · exact map_ne (hcontainer _ _)
        · split
          · simp
          · split <;> simp

theorem renderVariableTag_delims {tag : MustacheTag} {skipContent : Bool} {st' : State} {result : Except Stop Unit}
    (h : renderVariableTag realText start tag jsonKey skipContent st = (result, st')) :
    st'.delims = st.delims ∧ result ≠ .error .outOfFuel := by
  unfold renderVariableTag at h
  split at h
  · obtain ⟨rfl, rfl⟩ := Prod.mk.inj h
    exact ⟨rfl, by simp⟩
  · split at h
    · obtain ⟨rfl, rfl⟩ := Prod.mk.inj h
      exact ⟨rfl, by simp⟩
    · split at h
      · rename_i stop hvar
        obtain ⟨rfl, rfl⟩ := Prod.mk.inj h
        refine ⟨rfl, fun heq => renderVariable_stop (hvar.trans ?_)⟩
        rw [Except.error.inj heq]
      · obtain ⟨rfl, rfl⟩ := Prod.mk.inj h
        exact ⟨rfl, by simp⟩

/-! ## `ShouldIterateObject` -/

/-- What a turn relies on: it starts behind the turn before it, the delimiters can be used, and a complete tag lies
inside the template. -/
structure TurnSafe (start : Bytes) (last : Option ℕ) (input : ℕ) (d : Delimiters) : Prop where
  progress : ∀ l, last = some l → l < input
  position : input ≤ start.length
  delims : d.Usable
  tag : ∀ begin stop, (nextTag start input d).begin = some begin → (nextTag start input d).stop = some stop →
    TagInside start input d (nextTag start input d) begin stop

theorem turnSafe {last : Option ℕ} (hprogress : ∀ l, last = some l → l < input) (hposition : input ≤ start.length)
    (hd : d.Usable) : TurnSafe start last input d :=
  ⟨hprogress, hposition, hd, fun _ _ hbegin hstop => (nextTag_complete hd hbegin hstop).1⟩

open Classical in
/-- `iterateLoop` with an assertion in each turn; `last` is the position of the turn before. -/
noncomputable def iterateChecked (start : Bytes) : ℕ → Option ℕ → Option ℕ → Delimiters → Except Stop Bool
  | 0, _, _, _ => .error .outOfFuel
  | _ + 1, _, none, _ => .error .assertFailed
  | fuel + 1, last, some input, d =>
    if TurnSafe start last input d then iterateTurn start (iterateChecked start fuel (some input)) input d
    else .error .assertFailed

theorem name_nul_free (h0 : 0 ∉ start) (tag : MustacheTag) : 0 ∉ tag.name start :=
  fun h => h0 (List.mem_of_mem_drop (List.mem_of_mem_take h))

/-- A turn relates the results of two loops that relate the results of the turns from the end of the tag on. -/
theorem iterateTurn_rel {R : Except Stop Bool → Except Stop Bool → Prop}
    {f g : Option ℕ → Delimiters → Except Stop Bool} (hrefl : ∀ r, r ≠ .error .outOfFuel → R r r) (h0 : 0 ∉ start)
    (hd : d.Usable) (h : ∀ n d', input < n → n ≤ start.length → d'.Usable → R (f (some n) d') (g (some n) d')) :
    R (iterateTurn start f input d) (iterateTurn start g input d) := by
  have hnext : (nextTag start input d).type ≠ .none → (nextTag start input d).type ≠ .err → ∀ d', d'.Usable →
      R (f (nextTag start input d).stop d') (g (nextTag start input d).stop d') := by
    intro hnone herr d' hd'
    obtain ⟨begin, stop, hbegin, hstop⟩ := nextTag_ends hnone herr
    have htag := (nextTag_complete hd hbegin hstop).1
    rw [hstop]
    exact h stop d' (Nat.lt_of_le_of_lt htag.behind htag.forward) htag.inside hd'
  have hok : ∀ b, R (.ok b) (.ok b) := fun b => hrefl _ (by simp)
  unfold iterateTurn
  dsimp only
  generalize htag : nextTag start input d = tag at hnext ⊢
  cases htype : tag.type with
  | err => exact hok false
  | none => exact hok false
  | «section» => exact hok false
  | sectionEnd => exact hok false
  | delim =>
    have hrest := hnext (by rw [htype]; decide) (by rw [htype]; decide)
    dsimp only
    cases hset : setDelimiters (tag.name start) d with
    | mk result d' =>
      cases result with
      | error stop =>
        have hstop : stop ≠ .outOfFuel := fun heq => setDelimiters_stop (heq ▸ hset)
        cases stop with
        | failed => exact hok false
        | assertFailed => exact hrefl _ (by simp)
        | exited => exact hrefl _ (by simp)
        | outOfBounds => exact hrefl _ (by simp)
        | outOfFuel => exact absurd rfl hstop
      | ok _ => exact hrest d' (setDelimiters_usable (name_nul_free h0 tag) hset)
  | var =>
    have hrest := hnext (by rw [htype]; decide) (by rw [htype]; decide) d hd
    dsimp only
    split
    · exact hok true
    · exact hrest
  | varUnescaped =>
    have hrest := hnext (by rw [htype]; decide) (by rw [htype]; decide) d hd
    dsimp only
    split
    · exact hok true
    · exact hrest
  | varSerialized => exact hnext (by rw [htype]; decide) (by rw [htype]; decide) d hd
  | varSerializedCompact => exact hnext (by rw [htype]; decide) (by rw [htype]; decide) d hd
  | inverted => exact hnext (by rw [htype]; decide) (by rw [htype]; decide) d hd
  | comment => exact hnext (by rw [htype]; decide) (by rw [htype]; decide) d hd

theorem iterateChecked_eq (h0 : 0 ∉ start) (fuel : ℕ) : ∀ (last : Option ℕ) (input : ℕ) (d : Delimiters),
    (∀ l, last = some l → l < input) → input ≤ start.length → d.Usable →
    iterateChecked start fuel last (some input) d = iterateLoop start fuel (some input) d := by
  induction fuel with
  | zero => exact fun _ _ _ _ _ _ => rfl
  | succ fuel ih =>
    intro last input d hlast hinput hd
    rw [iterateLoop_succ, iterateChecked, if_pos (turnSafe hlast hinput hd)]
    refine iterateTurn_rel (fun _ _ => rfl) h0 hd fun n d' hlt hn hd' => ?_
    exact ih (some input) n d' (fun l hl => Option.some.inj hl ▸ hlt) hn hd'

/-- The tags lie behind each other, so there are no more turns than characters are left. -/
theorem iterateLoop_stops (h0 : 0 ∉ start) (fuel : ℕ) : ∀ (input : ℕ) (d : Delimiters),
    input ≤ start.length → d.Usable → start.length < input + fuel →
    iterateLoop start fuel (some input) d ≠ .error .outOfFuel := by
  induction fuel with
  | zero => exact fun input d hinput _ hfuel => absurd hfuel (by omega)
  | succ fuel ih =>
    intro input d hinput hd hfuel
    rw [iterateLoop_succ]
    refine iterateTurn_rel (R := fun r _ => r ≠ .error .outOfFuel) (g := iterateLoop start fuel) (fun _ h => h) h0 hd
      fun n d' hlt hn hd' => ?_
    exact ih n d' hn hd' (by omega)

theorem copy_eq {d : Delimiter} (hlen : d.text.length = d.len) (hshort : d.len < mustacheMaxDelimSize) :
    ∃ rest, d.copy = some ⟨d.text ++ 0 :: rest, d.len⟩ := by
  have htake : d.text.take d.len = d.text := List.take_of_length_le (Nat.le_of_eq hlen)
  obtain ⟨pad, hpad⟩ : ∃ pad, mustacheMaxDelimSize - d.text.length = pad + 1 :=
    ⟨mustacheMaxDelimSize - d.text.length - 1, by rw [hlen]; omega⟩
  refine ⟨List.replicate pad 0, ?_⟩
  rw [Delimiter.copy, if_pos (Nat.le_of_lt hshort)]
  dsimp only
  rw [htake, hpad, List.replicate_succ]

theorem copy_usable {d : Delimiter} (h : d.Usable) : ∃ d', d.copy = some d' ∧ d'.Usable := by
  obtain ⟨rest, hcopy⟩ := copy_eq h.len.symm h.short
  have htext : Delimiter.text ⟨d.text ++ 0 :: rest, d.len⟩ = d.text := Lib.takeWhile_ne_terminated d.nul_free rest
  exact ⟨_, hcopy, by rw [htext]; exact h.len, by rw [htext]; exact h.nonempty, h.short, by rw [htext]; exact h.solid⟩

theorem shouldIterateObject_stops (h0 : 0 ∉ start) (hinput : input ≤ start.length) (hd : d.Usable) :
    shouldIterateObject start (some input) d ≠ .error .outOfFuel := by
  obtain ⟨locStart, hstart, hlocStart⟩ := copy_usable hd.start
  obtain ⟨locStop, hstop, hlocStop⟩ := copy_usable hd.stop
  rw [shouldIterateObject, hstart, hstop]
  exact iterateLoop_stops h0 (start.length + 2) input ⟨locStart, locStop⟩ hinput ⟨hlocStart, hlocStop⟩ (by omega)

/-! ## Turns of `Render` -/

section Turns

variable {realText : Bytes → Option Bytes} {start : Bytes} {input : ℕ} (h0 : 0 ∉ start) (hfresh : Fresh start input)
include h0 hfresh

/-- What holds of the results of a turn for any two loops, where it holds of what they do behind the position, of the
sections, and of the results that come from no loop. -/
theorem renderTurn_rel {R : Except Stop (Option ℕ) × State → Except Stop (Option ℕ) × State → Prop} {f g : Loop}
    (hrefl : ∀ result, Ends start input True result → R result result) {inSection skipContent : Bool}
    (hnext : ∀ n st, input < n → Fresh start n → st.delims.Usable →
      R (f inSection (some n) jsonKey skipContent st) (g inSection (some n) jsonKey skipContent st))
    (hsection : ∀ n tag st, input < n → Fresh start n → st.delims.Usable →
      R (afterSection (fun after => f inSection after jsonKey skipContent) st.toScope tag (some n)
          (renderSection (f true) start (some n) tag skipContent st))
        (afterSection (fun after => g inSection after jsonKey skipContent) st.toScope tag (some n)
          (renderSection (g true) start (some n) tag skipContent st)))
    (hd : st.delims.Usable) :
    R (renderTurn realText start f inSection input jsonKey skipContent st)
      (renderTurn realText start g inSection input jsonKey skipContent st) := by
  have hforward := turn_forward skipContent hfresh hd
  have hd₀ := renderBefore_usable start input (nextTag start input st.delims) skipContent hd
  unfold renderTurn
  dsimp only
  generalize renderBefore start input (nextTag start input st.delims) skipContent st = before at hforward hd₀ ⊢
  generalize nextTag start input st.delims = tag at hforward ⊢
  obtain ⟨next, st₀⟩ := before
  dsimp only at hforward hd₀ ⊢
  have hvariable : tag.type ≠ .none → tag.type ≠ .err →
      R (afterVariable (f inSection next jsonKey skipContent)
          (renderVariableTag realText start tag jsonKey skipContent st₀))
        (afterVariable (g inSection next jsonKey skipContent)
          (renderVariableTag realText start tag jsonKey skipContent st₀)) := by
    intro hnone herr
    obtain ⟨n, rfl, hlt, hn⟩ := hforward hnone herr
    cases hvar : renderVariableTag realText start tag jsonKey skipContent st₀ with
    | mk result st₁ =>
      obtain ⟨hdelims, hstop⟩ := renderVariableTag_delims hvar
      cases result with
      | error stop => exact hrefl _ (Ends.error fun _ heq => hstop (congrArg Except.error heq))
      | ok _ => exact hnext n st₁ hlt hn (hdelims ▸ hd₀)
  have hsections : tag.type ≠ .none → tag.type ≠ .err →
      R (afterSection (fun after => f inSection after jsonKey skipContent) st₀.toScope tag next
          (renderSection (f true) start next tag skipContent st₀))
        (afterSection (fun after => g inSection after jsonKey skipContent) st₀.toScope tag next
          (renderSection (g true) start next tag skipContent st₀)) := by
    intro hnone herr
    obtain ⟨n, rfl, hlt, hn⟩ := hforward hnone herr
    exact hsection n tag st₀ hlt hn hd₀
  cases htype : tag.type with
  | err => exact hrefl _ (Ends.error fun _ h => nomatch h)
  | none => exact hrefl _ (Ends.ok (fun p hp => nomatch hp) hd₀)
  | comment =>
    obtain ⟨n, rfl, hlt, hn⟩ := hforward (by rw [htype]; decide) (by rw [htype]; decide)
    exact hnext n st₀ hlt hn hd₀
  | delim =>
    obtain ⟨n, rfl, hlt, hn⟩ := hforward (by rw [htype]; decide) (by rw [htype]; decide)
    dsimp only
    cases hset : setDelimiters (tag.name start) st₀.delims with
    | mk result d =>
      cases result with
      | error stop => exact hrefl _ (Ends.error fun _ heq => setDelimiters_stop (heq ▸ hset))
      | ok _ => exact hnext n { st₀ with delims := d } hlt hn (setDelimiters_usable (name_nul_free h0 tag) hset)
  | sectionEnd =>
    obtain ⟨n, rfl, hlt, hn⟩ := hforward (by rw [htype]; decide) (by rw [htype]; decide)
    dsimp only
    split
    · refine hrefl _ (Ends.ok (fun p hp => ?_) hd₀)
      obtain rfl := Option.some.inj hp
      exact ⟨hlt, hn⟩
    · exact hrefl _ (Ends.error fun _ h => nomatch h)
  | «section» => exact hsections (by rw [htype]; decide) (by rw [htype]; decide)
  | inverted => exact hsections (by rw [htype]; decide) (by rw [htype]; decide)
  | var => exact hvariable (by rw [htype]; decide) (by rw [htype]; decide)
  | varUnescaped => exact hvariable (by rw [htype]; decide) (by rw [htype]; decide)
  | varSerialized => exact hvariable (by rw [htype]; decide) (by rw [htype]; decide)
  | varSerializedCompact => exact hvariable (by rw [htype]; decide) (by rw [htype]; decide)

theorem renderTurn_ends {loop : Loop} (hloop : LoopEnds start input enough loop) (inSection : Bool)
    (jsonKey : Option Bytes) (skipContent : Bool) (hd : st.delims.Usable) :
    Ends start input enough (renderTurn realText start loop inSection input jsonKey skipContent st) := by
  refine renderTurn_rel (R := fun result _ => Ends start input enough result) (g := loop) h0 hfresh ?_ ?_ ?_ hd
  · exact fun result h => ⟨fun _ => h.stops trivial, h.forward, h.usable⟩
  · exact fun n st₁ hlt hn hd₁ => (hloop.some inSection n jsonKey skipContent st₁ hlt hn hd₁).mono (Nat.le_of_lt hlt)
  · intro n tag st₁ hlt hn hd₁
    have hends := renderSection_ends hloop hlt hn (fun d hd => shouldIterateObject_stops h0 hn.1 hd) tag skipContent hd₁
    generalize renderSection (loop true) start (some n) tag skipContent st₁ = result at hends ⊢
    obtain ⟨res, closed⟩ := result
    cases res with
    | error stop => exact Ends.error fun he heq => hends.stops he (congrArg Except.error heq)
    | ok after =>
      cases after with
      | none =>
        obtain ⟨stop, hnone, hstop⟩ :=
          hloop.none inSection jsonKey skipContent (closed.closed st₁.toScope tag (some n) none)
        show Ends start input enough (loop inSection none jsonKey skipContent _)
        rw [hnone]
        exact Ends.error hstop
      | some p =>
        obtain ⟨hlt', hp⟩ := hends.forward p rfl
        have hlt'' := Nat.lt_trans hlt hlt'
        have hd' : (closed.closed st₁.toScope tag (some n) (some p)).delims.Usable := hends.usable _ rfl
        exact (hloop.some inSection p jsonKey skipContent _ hlt'' hp hd').mono (Nat.le_of_lt hlt'')

end Turns

/-- The turns lie behind each other, so there are no more of them, one in the other, than characters are left. -/
theorem render_ends (realText : Bytes → Option Bytes) (h0 : 0 ∉ start) (fuel : ℕ) :
    ∀ (inSection : Bool) (input : ℕ) (jsonKey : Option Bytes) (skipContent : Bool) (st : State), Fresh start input →
      st.delims.Usable → Ends start input (start.length + 1 < input + fuel)
        (render realText start fuel inSection (some input) jsonKey skipContent st) := by
  induction fuel with
  | zero =>
    intro inSection input jsonKey skipContent st hfresh hd
    exact Ends.error fun henough => absurd hfresh.1 (by omega)
  | succ fuel ih =>
    intro inSection input jsonKey skipContent st hfresh hd
    rw [render_succ]
    refine renderTurn_ends h0 hfresh ⟨?_, ?_⟩ inSection jsonKey skipContent hd
    · intro inSection n key skip st hlt hn hd
      have hends := ih inSection n key skip st hn hd
      exact ⟨fun henough => hends.stops (by omega), hends.forward, hends.usable⟩
    · intro inSection key skip st
      cases fuel with
      | zero => exact ⟨.outOfFuel, rfl, fun henough => absurd hfresh.1 (by omega)⟩
      | succ fuel => exact ⟨.failed, rfl, fun _ h => nomatch h⟩

/-! ## Turns that assert -/

section Congruence

variable {start : Bytes} {input n : ℕ} {f g : Loop} (hg : LoopEnds start input False g)
  (h : ∀ inSection n key skip st, input < n → Fresh start n → st.delims.Usable →
    f inSection (some n) key skip st = g inSection (some n) key skip st)
include hg h

section Sections

variable (hlt : input < n) (hfresh : Fresh start n)
include hlt hfresh

theorem renderEach_congr (skip : Bool) (var : Ref) (count : ℕ) : ∀ (i : ℕ) (sectionEnd : Option ℕ) (st : State),
    st.delims.Usable → renderEach (f true) (some n) skip var count i sectionEnd st =
      renderEach (g true) (some n) skip var count i sectionEnd st := by
  induction count with
  | zero => exact fun _ _ _ _ => rfl
  | succ count ih =>
    intro i sectionEnd st hd
    rw [renderEach, renderEach]
    cases childAt st.doc var i with
    | none => rfl
    | some child =>
      have hends := hg.some true n (some child.2) skip (st.push (some child.1)) hlt hfresh hd
      dsimp only
      rw [h true n (some child.2) skip (st.push (some child.1)) hlt hfresh hd]
      generalize g true (some n) (some child.2) skip (st.push (some child.1)) = result at hends ⊢
      obtain ⟨res, st₁⟩ := result
      cases res with
      | error stop => rfl
      | ok written => exact ih (i + 1) (written.or sectionEnd) st₁ (hends.usable _ rfl)

theorem renderSection_congr (tag : MustacheTag) (skipContent : Bool) (hd : st.delims.Usable) :
    renderSection (f true) start (some n) tag skipContent st =
      renderSection (g true) start (some n) tag skipContent st := by
  rw [renderSection_eq, renderSection_eq]
  cases sectionCall start (some n) tag skipContent st.toScope with
  | once skip hash => exact h true n none skip (st.push hash) hlt hfresh hd
  | each skip var length => exact renderEach_congr hg h hlt hfresh skip var length 0 none (st.push (some var)) hd
  | fails stop hash => rfl

end Sections

variable (h0 : 0 ∉ start) (hfresh : Fresh start input)
  (hnone : ∀ inSection key skip st, f inSection none key skip st = g inSection none key skip st)
include h0 hfresh hnone

theorem renderTurn_congr (realText : Bytes → Option Bytes) (inSection : Bool) (jsonKey : Option Bytes)
    (skipContent : Bool) (hd : st.delims.Usable) :
    renderTurn realText start f inSection input jsonKey skipContent st =
      renderTurn realText start g inSection input jsonKey skipContent st := by
  refine renderTurn_rel h0 hfresh (fun _ _ => rfl) ?_ ?_ hd
  · exact fun n st₁ hlt hn hd₁ => h inSection n jsonKey skipContent st₁ hlt hn hd₁
  · intro n tag st₁ hlt hn hd₁
    rw [renderSection_congr hg h hlt hn tag skipContent hd₁]
    have hends := renderSection_ends hg hlt hn (fun d hd => shouldIterateObject_stops h0 hn.1 hd) tag skipContent hd₁
    generalize renderSection (g true) start (some n) tag skipContent st₁ = result at hends ⊢
    obtain ⟨res, closed⟩ := result
    cases res with
    | error stop => rfl
    | ok after =>
      cases after with
      | none => exact hnone inSection jsonKey skipContent _
      | some p =>
        obtain ⟨hlt', hp⟩ := hends.forward p rfl
        have hd' : (closed.closed st₁.toScope tag (some n) (some p)).delims.Usable := hends.usable _ rfl
        exact h inSection p jsonKey skipContent _ (Nat.lt_trans hlt hlt') hp hd'

end Congruence

/-- What a turn of `Render` relies on besides: its standalone tag has a line that does not begin before the position,
and what follows is behind the position. -/
structure RenderTurnSafe (start : Bytes) (last : Option ℕ) (input : ℕ) (skipContent : Bool) (st : State) : Prop
    extends TurnSafe start last input st.delims where
  line : ∀ begin stop line, (nextTag start input st.delims).begin = some begin →
    (nextTag start input st.delims).stop = some stop → isTagStandalone start begin stop = some line → input ≤ line.1
  next : (nextTag start input st.delims).type ≠ .none → (nextTag start input st.delims).type ≠ .err →
    ∃ n, (renderBefore start input (nextTag start input st.delims) skipContent st).1 = some n ∧ input < n ∧
      n ≤ start.length

theorem renderTurnSafe {last : Option ℕ} (skipContent : Bool) (hlast : ∀ l, last = some l → l < input)
    (hfresh : Fresh start input) (hd : st.delims.Usable) :
    RenderTurnSafe start last input skipContent st := by
  refine ⟨turnSafe hlast hfresh.1 hd, fun begin stop line hbegin hstop hline => ?_, fun hnone herr => ?_⟩
  · have htag := (nextTag_complete hd hbegin hstop).1
    exact (isTagStandalone_line hfresh htag.behind htag.forward htag.inside hline).1
  · obtain ⟨n, hn, hlt, hfresh'⟩ := turn_forward skipContent hfresh hd hnone herr
    exact ⟨n, hn, hlt, hfresh'.1⟩

open Classical in
/-- `render` with an assertion in each turn; `last` is the position of the turn that this one follows or is in. -/
noncomputable def renderChecked (realText : Bytes → Option Bytes) (start : Bytes) : ℕ → Option ℕ → Loop
  | 0, _, _, _, _, _, st => (.error .outOfFuel, st)
  | _ + 1, _, _, none, _, _, st => (.error .failed, st)
  | fuel + 1, last, inSection, some input, jsonKey, skipContent, st =>
    if RenderTurnSafe start last input skipContent st then
      renderTurn realText start (renderChecked realText start fuel (some input)) inSection input jsonKey skipContent st
    else (.error .assertFailed, st)

theorem renderChecked_eq (h0 : 0 ∉ start) (fuel : ℕ) :
    ∀ (last : Option ℕ) (inSection : Bool) (input : ℕ) (jsonKey : Option Bytes) (skipContent : Bool) (st : State),
      (∀ l, last = some l → l < input) → Fresh start input → st.delims.Usable →
      renderChecked realText start fuel last inSection (some input) jsonKey skipContent st =
        render realText start fuel inSection (some input) jsonKey skipContent st := by
  induction fuel with
  | zero => exact fun _ _ _ _ _ _ _ _ _ => rfl
  | succ fuel ih =>
    intro last inSection input jsonKey skipContent st hlast hfresh hd
    rw [render_succ, renderChecked, if_pos (renderTurnSafe skipContent hlast hfresh hd)]
    refine renderTurn_congr (g := render realText start fuel) ⟨?_, ?_⟩ ?_ h0 hfresh ?_ realText inSection jsonKey
      skipContent hd
    · intro inSection n key skip st _ hn hd
      have hends := render_ends realText h0 fuel inSection n key skip st hn hd
      exact ⟨fun hfalse => hfalse.elim, hends.forward, hends.usable⟩
    · intro inSection key skip st
      cases fuel with
      | zero => exact ⟨.outOfFuel, rfl, fun hfalse => hfalse.elim⟩
      | succ fuel => exact ⟨.failed, rfl, fun hfalse => hfalse.elim⟩
    · intro inSection n key skip st hlt hn hd
      exact ih (some input) inSection n key skip st (fun l hl => Option.some.inj hl ▸ hlt) hn hd
    · intro inSection key skip st
      cases fuel <;> rfl

/-- For every template and all data, `mustacheRender` ends; each turn, in whichever section, finds all that it relies
on; and so does each turn of `ShouldIterateObject`, from any position and with any delimiters that can be in use. -/
theorem mustacheRender_terminates (realText : Bytes → Option Bytes) (out : Bytes) (input : CString) (hash : JsonElement) :
    (∀ fuel, input.bytes.length + 2 ≤ fuel → (mustacheRender realText fuel out input hash).1 ≠ .error .outOfFuel) ∧
      (∀ fuel, renderChecked realText input.bytes fuel none false (some 0) none false
          ⟨⟨hash, [some []], .initial⟩, out, []⟩ = mustacheRender realText fuel out input hash) ∧
      ∀ position d, position ≤ input.bytes.length → Delimiters.Usable d →
        shouldIterateObject input.bytes (some position) d ≠ .error .outOfFuel ∧
        ∀ fuel, iterateChecked input.bytes fuel none (some position) d =
          iterateLoop input.bytes fuel (some position) d := by
  have hfresh : Fresh input.bytes 0 := ⟨Nat.zero_le _, .inl rfl⟩
  refine ⟨fun fuel hfuel => ?_, fun fuel => ?_, fun position d hposition hd => ⟨?_, fun fuel => ?_⟩⟩
  · exact (render_ends realText input.nul_free fuel false 0 none false _ hfresh Delimiters.usable_initial).stops (by omega)
  · exact renderChecked_eq input.nul_free fuel none false 0 none false _ (fun _ h => nomatch h) hfresh
      Delimiters.usable_initial
  · exact shouldIterateObject_stops input.nul_free hposition hd
  · exact iterateChecked_eq input.nul_free fuel none position d (fun _ h => nomatch h) hposition hd

end Libntech.Mustache
