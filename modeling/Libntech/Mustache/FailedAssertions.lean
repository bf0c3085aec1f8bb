import Libntech.Mustache.DelimiterBuffers
import Libntech.Mustache.Turns

/-! # Assertions that fail (`libutils/mustache.c`)

Three things in a template or its data make an assertion of `MustacheRender` fail: a name without a token, for which
`LookupVariable` copies the null reference; a variable that is an array or an object in a tag that does not serialize it;
and a number that `StringToDouble` does not read to its end. No other assertion fails.
-/
namespace Libntech.Mustache
set_option autoImplicit false

open Libntech.Json

/-! ## What is asserted -/

/-- `item_mode` and `key_mode`, for the text of a name. -/
def isMode (mode : String) (name : Bytes) : Bool := strncmpEqual name (ascii mode) name.length

/-- `LookupVariable` has a stack to look at, and every token of the name that it copies exists. -/
def lookupAsserts (sc : Scope) (name : Bytes) : Bool :=
  !sc.hashStack.isEmpty &&
    (List.range (max 1 (stringCountTokens name (ascii ".")))).all fun i => (stringGetToken name (ascii ".") i).isSome

/-- The lookup of a turn. -/
def turnAsserts (start : Bytes) (input : ℕ) (skipContent : Bool) (st : State) : Bool :=
  let tag := nextTag start input st.delims
  let name := tag.name start
  if tag.type.opensSection then lookupAsserts st.toScope name
  else if tag.type.isVariable && !skipContent && tag.contentLen != 0 then
    if isMode "." name || isMode "@" name then !st.hashStack.isEmpty else lookupAsserts st.toScope name
  else true

/-! ## When it holds -/

/-- The name does not consist of dots only. -/
def hasToken (name : Bytes) : Bool := stringCountTokens name (ascii ".") != 0

/-- `RenderVariable` has a case for the element, and `StringToDouble` reads it if it is a real. -/
def hasText (realText : Bytes → Option Bytes) (conversion : TagType) (itemMode : Bool) : Option JsonElement → Bool
  | none => true
  | some (.primitive .real value) => (realText value).isSome
  | some (.primitive _ _) => true
  | some _ => conversion == .varSerialized || conversion == .varSerializedCompact || itemMode

def variableSettled (realText : Bytes → Option Bytes) (name : Bytes) (conversion : TagType) (sc : Scope) : Bool :=
  if isMode "@" name then true
  else if isMode "." name then hasText realText conversion true (sc.hashStack.getLast?.join.bind (deref sc.doc))
  else hasToken name && hasText realText conversion false ((lookupVariable sc name).bind (deref sc.doc))

/-- The condition on the tag of a turn and on the element it names. -/
def turnSettled (realText : Bytes → Option Bytes) (start : Bytes) (input : ℕ) (skipContent : Bool) (st : State) : Bool :=
  let tag := nextTag start input st.delims
  let name := tag.name start
  if tag.type.opensSection then hasToken name
  else if tag.type.isVariable && !skipContent && tag.contentLen != 0 then
    variableSettled realText name tag.type st.toScope
  else true

theorem lookupAsserts_eq {sc : Scope} (hstack : sc.hashStack ≠ []) (name : Bytes) :
    lookupAsserts sc name = hasToken name := by
  have hempty : sc.hashStack.isEmpty = false := List.isEmpty_eq_false_iff.mpr hstack
  rw [lookupAsserts, hempty, Bool.not_false, Bool.true_and, Bool.eq_iff_iff, List.all_eq_true]
  unfold hasToken
  rw [bne_iff_ne]
  constructor
  · intro hall hzero
    have hfirst := hall 0 (List.mem_range.mpr (by omega))
    rw [stringGetToken, Option.isSome_map] at hfirst
    obtain ⟨ref, href⟩ := Option.isSome_iff_exists.mp hfirst
    have hcount := (stringNextToken_some href).2.2
    rw [stringCountTokens] at hzero
    omega
  · intro hcount i hi
    rw [List.mem_range] at hi
    have hlt : i < stringCountTokens name (ascii ".") := by omega
    obtain ⟨token, htoken, -⟩ := stringGetToken_some i hlt
    rw [htoken]
    rfl

theorem ok_ne {α : Type} (value : α) : (.ok value : Except Stop α) ≠ .error .assertFailed := nofun

theorem error_ne {α : Type} {stop : Stop} (h : stop ≠ .assertFailed) :
    (.error stop : Except Stop α) ≠ .error .assertFailed := fun heq => h (Except.error.inj heq)

theorem map_ne_iff {α β : Type} {f : α → β} {x : Except Stop α} {stop : Stop} :
    x.map f ≠ .error stop ↔ x ≠ .error stop := by
  refine ⟨fun h heq => h ?_, map_ne⟩
  rw [heq]
  rfl

theorem renderVariableContainer_ne (container : JsonElement) (compact : Bool) :
    renderVariableContainer container compact ≠ .error .assertFailed := by
  unfold renderVariableContainer
  split
  · exact ok_ne _
  · exact error_ne (by decide)
  · exact error_ne (by decide)

theorem renderVariablePrimitive_passes (realText : Bytes → Option Bytes) (conversion : TagType) (itemMode : Bool)
    (type : JsonPrimitiveType) (value : Bytes) (escaped : Bool) :
    renderVariablePrimitive realText type value escaped ≠ .error .assertFailed ↔
      hasText realText conversion itemMode (some (.primitive type value)) = true := by
  cases type with
  | string => exact iff_of_true (ok_ne _) rfl
  | bool => exact iff_of_true (ok_ne _) rfl
  | null => exact iff_of_true (ok_ne _) rfl
  | integer =>
    refine iff_of_true ?_ rfl
    rw [renderVariablePrimitive]
    cases stringToLong value with
    | none => exact error_ne (by decide)
    | some n => exact ok_ne _
  | real =>
    rw [renderVariablePrimitive, hasText]
    cases realText value with
    | none => exact iff_of_false (fun h => h rfl) Bool.false_ne_true
    | some text => exact iff_of_true (ok_ne _) rfl

theorem renderVariable_passes (realText : Bytes → Option Bytes) (name : Bytes) (conversion : TagType) (sc : Scope)
    (jsonKey : Option Bytes) :
    renderVariable realText name conversion sc jsonKey ≠ .error .assertFailed ↔
      isMode "@" name = true ∨
        hasText realText conversion (isMode "." name)
          ((if isMode "." name || isMode "@" name then sc.hashStack.getLast?.join else lookupVariable sc name).bind
            (deref sc.doc)) = true := by
  have hcontainer : ∀ (container : JsonElement) (compact : Bool) (ref : Ref),
      ((renderVariableContainer container compact).map fun r => (r.1, replaceAt r.2 ref sc.doc)) ≠ .error .assertFailed :=
    fun container compact ref => map_ne (renderVariableContainer_ne container compact)
  unfold renderVariable isMode
  dsimp only
  generalize strncmpEqual name (ascii ".") name.length = itemMode
  generalize strncmpEqual name (ascii "@") name.length = keyMode
  generalize (if (itemMode || keyMode) = true then sc.hashStack.getLast?.join else lookupVariable sc name) = var
  have hunkeyed : ∀ (container : JsonElement) (ref : Ref),
      (if (decide (conversion = .varSerialized) || decide (conversion = .varSerializedCompact)) = true then
          (renderVariableContainer container (decide (conversion = .varSerializedCompact))).map fun r =>
            (r.1, replaceAt r.2 ref sc.doc)
        else if itemMode = true then .error .failed else .error .assertFailed) ≠ .error .assertFailed ↔
        (decide (conversion = .varSerialized) || decide (conversion = .varSerializedCompact) || itemMode) = true := by
    intro container ref
    cases decide (conversion = .varSerialized) || decide (conversion = .varSerializedCompact) with
    | true => exact iff_of_true (hcontainer _ _ ref) rfl
    | false =>
      cases itemMode with
      | true => exact iff_of_true (error_ne (by decide)) rfl
      | false => exact iff_of_false (fun h => h rfl) Bool.false_ne_true
  cases keyMode with
  | true =>
    refine iff_of_true ?_ (.inl rfl)
    cases jsonKey with
    | none => exact error_ne (by decide)
    | some key =>
      rw [Option.isNone_some, Bool.and_false, if_neg Bool.false_ne_true]
      cases var with
      | none => exact ok_ne _
      | some ref =>
        dsimp only
        cases deref sc.doc ref with
        | none => exact ok_ne _
        | some element =>
          cases element with
          | primitive type value => exact ok_ne _
          | array children =>
            dsimp only
            split
            · exact hcontainer _ _ ref
            · exact ok_ne _
          | object children =>
            dsimp only
            split
            · exact hcontainer _ _ ref
            · exact ok_ne _
  | false =>
    rw [Bool.false_and, if_neg Bool.false_ne_true, or_iff_right Bool.false_ne_true]
    cases var with
    | none => exact iff_of_true (ok_ne _) rfl
    | some ref =>
      rw [Option.bind_some]
      dsimp only
      cases deref sc.doc ref with
      | none => exact iff_of_true (ok_ne _) rfl
      | some element =>
        cases element with
        | primitive type value =>
          exact map_ne_iff.trans (renderVariablePrimitive_passes realText conversion itemMode type value _)
        | array children => exact hunkeyed _ ref
        | object children => exact hunkeyed _ ref

theorem renderVariableTag_passes (realText : Bytes → Option Bytes) (start : Bytes) (tag : MustacheTag)
    (jsonKey : Option Bytes) (skipContent : Bool) (st : State) :
    Passes (renderVariableTag realText start tag jsonKey skipContent st) ↔ skipContent = true ∨ tag.contentLen = 0 ∨
      renderVariable realText (tag.name start) tag.type st.toScope jsonKey ≠ .error .assertFailed := by
  unfold renderVariableTag
  split
  · exact iff_of_true (Passes.ok _ _) (.inl ‹_›)
  · rename_i hskip
    rw [or_iff_right hskip]
    split
    · exact iff_of_true (Passes.ok _ _) (.inl ‹_›)
    · rename_i hlen
      rw [or_iff_right hlen]
      split
      · rename_i stop hvar
        rw [hvar]
        exact not_congr ⟨fun h => congrArg Except.error (Except.error.inj h),
          fun h => congrArg Except.error (Except.error.inj h)⟩
      · rename_i r hvar
        rw [hvar]
        exact iff_of_true (Passes.ok _ _) fun h => nomatch h

/-- One turn asserts nothing wrong and fails no assertion just if its tag is settled. -/
theorem turnSettled_iff (realText : Bytes → Option Bytes) (start : Bytes) (input : ℕ) (skipContent : Bool) (st : State)
    (jsonKey : Option Bytes) (hstack : st.hashStack ≠ []) :
    turnSettled realText start input skipContent st = true ↔ turnAsserts start input skipContent st = true ∧
      ((nextTag start input st.delims).type.isVariable = true →
        Passes (renderVariableTag realText start (nextTag start input st.delims) jsonKey skipContent
          (renderBefore start input (nextTag start input st.delims) skipContent st).2)) := by
  obtain ⟨hscope, -⟩ := renderBefore_keeps start input (nextTag start input st.delims) skipContent st
  have hlookup : ∀ name, lookupAsserts st.toScope name = hasToken name := lookupAsserts_eq hstack
  have hempty : st.hashStack.isEmpty = false := List.isEmpty_eq_false_iff.mpr hstack
  unfold turnSettled turnAsserts
  dsimp only
  generalize renderBefore start input (nextTag start input st.delims) skipContent st = before at hscope ⊢
  generalize nextTag start input st.delims = tag
  obtain ⟨next, st₀⟩ := before
  rw [renderVariableTag_passes, show st₀.toScope = st.toScope from hscope, renderVariable_passes, hlookup]
  cases hopens : tag.type.opensSection with
  | true =>
    have hvariable : tag.type.isVariable ≠ true := fun h => TagType.opensSection_ne h hopens
    exact (and_iff_left fun h => absurd h hvariable).symm
  | false =>
    cases hvariable : tag.type.isVariable with
    | false => exact iff_of_true rfl ⟨rfl, fun h => absurd h Bool.false_ne_true⟩
    | true =>
      rw [imp_iff_right rfl, Bool.true_and, if_neg Bool.false_ne_true, if_neg Bool.false_ne_true]
      cases skipContent with
      | true => exact iff_of_true rfl ⟨rfl, .inl rfl⟩
      | false =>
        rw [Bool.not_false, Bool.true_and, or_iff_right Bool.false_ne_true]
        by_cases hlen : tag.contentLen = 0
        · have hzero : (tag.contentLen != 0) = false := by rw [hlen]; rfl
          rw [hzero, if_neg Bool.false_ne_true, if_neg Bool.false_ne_true]
          exact iff_of_true rfl ⟨rfl, .inl hlen⟩
        · rw [if_pos (bne_iff_ne.mpr hlen), if_pos (bne_iff_ne.mpr hlen), or_iff_right hlen, variableSettled, hempty]
          cases hkey : isMode "@" (tag.name start) with
          | true =>
            rw [Bool.or_true]
            exact iff_of_true rfl ⟨rfl, .inl rfl⟩
          | false =>
            rw [Bool.or_false, or_iff_right Bool.false_ne_true, if_neg Bool.false_ne_true]
            cases hitem : isMode "." (tag.name start) with
            | true => exact (and_iff_right rfl).symm
            | false =>
              rw [if_neg Bool.false_ne_true, if_neg Bool.false_ne_true, if_neg Bool.false_ne_true, Bool.and_eq_true]

/-- Every template and all data: no assertion fails in a run if and only if every turn of it is settled. -/
theorem mustacheRender_asserts_iff (realText : Bytes → Option Bytes) (fuel : ℕ) (out : Bytes) (input : CString)
    (hash : Hash) :
    (mustacheAsserting (turnAsserts input.bytes) realText fuel out input hash.element).1 ≠ .error .assertFailed ↔
      EveryTurn (turnSettled realText input.bytes) realText input.bytes fuel
        ⟨false, some 0, none, false, ⟨⟨hash.element, [some []], .initial⟩, out, []⟩⟩ := by
  refine renderAsserting_passes_iff ?_ fuel ⟨false, some 0, none, false, ⟨⟨hash.element, [some []], .initial⟩, out, []⟩⟩
    ⟨hash.distinct, fun _ => List.cons_ne_nil _ _⟩
  exact fun input skipContent st jsonKey _ hstack => turnSettled_iff realText _ input skipContent st jsonKey hstack

/-- `{{a}}` -/
def plainVariable : CString := ⟨ascii "\x7b\x7ba\x7d\x7d", by decide⟩

/-- `{{..}}` -/
def dotsOnly : CString := ⟨ascii "\x7b\x7b..\x7d\x7d", by decide⟩

/-- An array in a tag that does not serialize it reaches `assert(false)`; a name of dots has no token to copy; and the
number `1e5.2`, which the parser accepts, has no result. -/
theorem render_assertions_fail :
    (mustacheRender (fun _ => none) 2 [] plainVariable (.object [(ascii "a", .array [])])).1 = .error .assertFailed ∧
      (mustacheAsserting (turnAsserts dotsOnly.bytes) (fun _ => none) 2 [] dotsOnly (.object [])).1 =
        .error .assertFailed ∧
      (mustacheRender (fun text => if text = ascii "1e5.2" then none else some text) 2 [] plainVariable
        (.object [(ascii "a", .primitive .real (ascii "1e5.2"))])).1 = .error .assertFailed := by
  decide

end Libntech.Mustache
