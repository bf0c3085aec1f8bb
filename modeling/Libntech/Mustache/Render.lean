import Libntech.Json.Write
import Libntech.Mustache.Tags

/-! # Rendering a mustache template (`libutils/mustache.c`)

The data is written to while it is rendered: `{{%x}}` and `{{$x}}` sort the members of the objects they write, in
place. So the data is part of the state, and a pointer to an element is the path from the top to it. A path names
one element, since no object has two children of one name, and sorting moves no element to another path.

The output buffer is in C string mode. `realText` stands for `strtod` followed by `%.2f`; it has no result for a text
that `strtod` does not read to the end.
-/
namespace Libntech.Mustache
set_option autoImplicit false

open Libntech.Json

/-! ## Elements of the data -/

inductive PathStep where
  | key (name : Bytes)
  | index (i : ℕ)
  deriving DecidableEq

/-- A `JsonElement *` that is not `NULL`. -/
abbrev Ref := List PathStep

def deref (doc : JsonElement) : Ref → Option JsonElement
  | [] => some doc
  | .key name :: path =>
    match doc with
    | .object children => (jsonObjectGet children name).bind fun child => deref child path
    | _ => none
  | .index i :: path =>
    match doc with
    | .array children => children[i]?.bind fun child => deref child path
    | _ => none

/-- The data with another element in one place. -/
def replaceAt (element : JsonElement) : Ref → JsonElement → JsonElement
  | [], _ => element
  | .key name :: path, .object children =>
    .object (children.map fun child => if child.1 = name then (child.1, replaceAt element path child.2) else child)
  | .index i :: path, .array children => .array (children.modify i (replaceAt element path))
  | _ :: _, doc => doc

/-- `JsonObjectGet`, where the element may also be no object. -/
def member (doc : JsonElement) (hash : Ref) (name : Bytes) : Option Ref :=
  match deref doc hash with
  | some (.object children) => if (jsonObjectGet children name).isSome then some (hash ++ [.key name]) else none
  | _ => none

/-- `JsonAt`, with the key that `Render` makes for the child; no result from `JsonLength` on. -/
def childAt (doc : JsonElement) (var : Ref) (i : ℕ) : Option (Ref × Bytes) :=
  match deref doc var with
  | some (.array children) => children[i]?.map fun _ => (var ++ [.index i], decimal i)
  | some (.object children) => children[i]?.map fun child => (var ++ [.key child.1], child.1)
  | _ => none

def jsonLength : JsonElement → ℕ
  | .primitive _ _ => 0
  | .array children => children.length
  | .object children => children.length

/-- What `LookupVariable` and its callers see: the data and the stack of elements, outermost first. -/
structure Scope where
  doc : JsonElement
  hashStack : List (Option Ref)
  delims : Delimiters

/-- `LookupVariable`. `xstrndup` of the null reference gives the empty string. -/
def lookupVariable (sc : Scope) (name : Bytes) : Option Ref :=
  let comp := fun i => (stringGetToken name (ascii ".") i).getD []
  let top := if comp 0 = ascii "-top-" then sc.hashStack.head?.join else none
  let found := sc.hashStack.reverse.findSome? fun hash => hash.bind fun ref => member sc.doc ref (comp 0)
  (found.or top).bind fun base =>
    (List.range (stringCountTokens name (ascii ".") - 1)).foldlM (fun var i => member sc.doc var (comp (i + 1))) base

/-! ## Variables -/

def htmlChar (c : UInt8) : Bytes :=
  if c = '&'.toUInt8 then ascii "&amp;"
  else if c = '"'.toUInt8 then ascii "&quot;"
  else if c = '<'.toUInt8 then ascii "&lt;"
  else if c = '>'.toUInt8 then ascii "&gt;"
  else [c]

def renderHTMLContent (text : Bytes) : Bytes := text.flatMap htmlChar

/-- `isspace` in the C locale. -/
def isWhitespace (c : UInt8) : Bool := c == ' '.toUInt8 || (9 ≤ c && c ≤ 13)

def isDigit (c : UInt8) : Bool := '0'.toUInt8 ≤ c && c ≤ '9'.toUInt8

/-- `StringToLong`; no result is an error. -/
def stringToLong (str : Bytes) : Option ℤ :=
  let text := str.dropWhile isWhitespace
  let negative := text.head? = some '-'.toUInt8
  let unsigned := if negative ∨ text.head? = some '+'.toUInt8 then text.tail else text
  let digits := unsigned.takeWhile isDigit
  let rest := unsigned.dropWhile isDigit
  let magnitude : ℤ := digits.foldl (fun n c => n * 10 + (c.toNat - 48)) 0
  let value := if negative then -magnitude else magnitude
  if digits.isEmpty then none
  else if value < -9223372036854775808 ∨ 9223372036854775807 < value then none
  else if rest.head?.any fun c => !isWhitespace c then none
  else some value

/-- `RenderVariablePrimitive`: the text it appends. -/
def renderVariablePrimitive (realText : Bytes → Option Bytes) (type : JsonPrimitiveType) (value : Bytes)
    (escaped : Bool) : Except Stop Bytes :=
  match type with
  | .string => .ok (if escaped then renderHTMLContent value else value)
  | .integer =>
    match stringToLong value with
    | some n => .ok (decimalInt n)
    | none => .error .exited
  | .real =>
    match realText value with
    | some text => .ok text
    | none => .error .assertFailed
  | .bool => .ok (if value = jsonTrue then jsonTrue else jsonFalse)
  | .null => .ok []

/-- `RenderVariablePrimitive` with a key. -/
def renderKey (key : Bytes) (escaped : Bool) : Bytes := if escaped then renderHTMLContent key else key

/-- `RenderVariableContainer`: the text it appends, and the element as the writer leaves it. The writer ends the program
where a string is too long for it. -/
def renderVariableContainer (container : JsonElement) (compact : Bool) : Except Stop (Bytes × JsonElement) :=
  match if compact then jsonWriteCompact container else jsonWrite container 0, jsonSorted container with
  | some text, some sorted => .ok (text, sorted)
  | none, some _ => .error .exited
  | _, none => .error .outOfBounds

/-- `RenderVariable`: the text it appends and the data after it. -/
def renderVariable (realText : Bytes → Option Bytes) (content : Bytes) (conversion : TagType) (sc : Scope)
    (jsonKey : Option Bytes) : Except Stop (Bytes × JsonElement) :=
  let escape := decide (conversion = .var)
  let serialize := decide (conversion = .varSerialized)
  let serializeCompact := decide (conversion = .varSerializedCompact)
  let itemMode := strncmpEqual content (ascii ".") content.length
  let keyMode := strncmpEqual content (ascii "@") content.length
  let var := if itemMode || keyMode then sc.hashStack.getLast?.join else lookupVariable sc content
  if keyMode && jsonKey.isNone then .error .failed
  else
    match var with
    | none => .ok ([], sc.doc)
    | some ref =>
      match deref sc.doc ref, keyMode, jsonKey with
      | none, _, _ => .ok ([], sc.doc)
      | some (.primitive _ _), true, some key => .ok (renderKey key escape, sc.doc)
      | some (.primitive type value), _, _ =>
        (renderVariablePrimitive realText type value escape).map fun text => (text, sc.doc)
      | some container, _, _ =>
        if serialize || serializeCompact then
          (renderVariableContainer container serializeCompact).map fun r => (r.1, replaceAt r.2 ref sc.doc)
        else
          match keyMode, jsonKey with
          | true, some key => .ok (renderKey key escape, sc.doc)
          | _, _ => if itemMode then .error .failed else .error .assertFailed

/-! ## Render -/

/-- A section that was rendered up to its closing tag: what was there before the opening tag, the position behind
that tag, and what was there behind the closing one. -/
structure SectionRun where
  opening : Scope
  tag : MustacheTag
  body : Option ℕ
  closing : Scope

/-- The state of `Render`. `sections` is a history variable: the code keeps no such list. -/
structure State extends Scope where
  out : Bytes
  sections : List SectionRun

/-- `SeqAppend` -/
def State.push (st : State) (hash : Option Ref) : State := { st with hashStack := st.hashStack ++ [hash] }

/-- `SeqRemove` of the last one. -/
def State.pop (st : State) : State := { st with hashStack := st.hashStack.dropLast }

/-- `RenderContent` of a part of the template. A difference of pointers that is negative, or that has no pointer to
take it from, is a length past the end of the template. -/
def renderContent (start : Bytes) (input : ℕ) (upto : Option ℕ) (skipContent : Bool) (st : State) : State :=
  if skipContent then st
  else
    match upto with
    | none => { st with out := st.out ++ start.drop input }
    | some stop =>
      if stop < input then { st with out := st.out ++ start.drop input }
      else { st with out := st.out ++ (start.drop input).take (stop - input) }

/-- The text before the tag, and the position to go on from. -/
def renderBefore (start : Bytes) (input : ℕ) (tag : MustacheTag) (skipContent : Bool) (st : State) :
    Option ℕ × State :=
  match isTagTypeRenderable tag.type, tag.begin, tag.stop with
  | false, some begin, some stop =>
    match isTagStandalone start begin stop with
    | some line => (some line.2, renderContent start input (some line.1) skipContent st)
    | none => (some stop, renderContent start input (some begin) skipContent st)
  | _, begin, stop => (stop, renderContent start input begin skipContent st)

/-- A call of `Render` for the body of a section: from where, with which key, and whether to skip. The result is what
was written to `section_end`, if anything was. -/
abbrev Body := Option ℕ → Option Bytes → Bool → State → Except Stop (Option ℕ) × State

/-- The loop over the children of `var`, from the `i`-th on. -/
def renderEach (body : Body) (input : Option ℕ) (skip : Bool) (var : Ref) : ℕ → ℕ → Option ℕ → State →
    Except Stop (Option ℕ) × State
  | 0, _, sectionEnd, st => (.ok sectionEnd, st)
  | count + 1, i, sectionEnd, st =>
    match childAt st.doc var i with
    | none => (.ok sectionEnd, st)
    | some child =>
      match body input (some child.2) skip (st.push (some child.1)) with
      | (.error stop, st) => (.error stop, st)
      | (.ok written, st) => renderEach body input skip var count (i + 1) (written.or sectionEnd) st

/-- An array, or an object that is iterated over. -/
def renderItems (body : Body) (input : Option ℕ) (inverted skipContent : Bool) (var : Ref) (length : ℕ) (st : State) :
    Except Stop (Option ℕ) × State :=
  if length = 0 then body input none (!inverted) st
  else renderEach body input (skipContent || inverted) var length 0 none st

/-- What `Render` does at the opening tag of a section, with the position behind the tag. -/
def renderSection (body : Body) (start : Bytes) (input : Option ℕ) (tag : MustacheTag) (skipContent : Bool)
    (st : State) : Except Stop (Option ℕ) × State :=
  let var := lookupVariable st.toScope (tag.name start)
  let pushed := st.push var
  let inverted := decide (tag.type = .inverted)
  match var with
  | none => body input none (skipContent || !inverted) pushed
  | some ref =>
    match deref st.doc ref with
    | none => body input none (skipContent || !inverted) pushed
    | some (.primitive .bool value) => body input none (skipContent || ((value != jsonTrue) ^^ inverted)) pushed
    | some (.primitive _ _) => (.error .failed, pushed)
    | some (.object children) =>
      match shouldIterateObject start input st.delims with
      | .error stop => (.error stop, pushed)
      | .ok false => body input none (skipContent || inverted) pushed
      | .ok true => renderItems body input inverted skipContent ref children.length pushed
    | some (.array children) => renderItems body input inverted skipContent ref children.length pushed

/-- The section is over; without a closing tag there is no position to go on from. -/
def State.closed (st : State) (opening : Scope) (tag : MustacheTag) (body after : Option ℕ) : State :=
  if after.isSome then { st with sections := ⟨opening, tag, body, st.toScope⟩ :: st.sections } else st

/-- What `Render` does at a variable; a tag without a name is copied. -/
def renderVariableTag (realText : Bytes → Option Bytes) (start : Bytes) (tag : MustacheTag) (jsonKey : Option Bytes)
    (skipContent : Bool) (st : State) : Except Stop Unit × State :=
  if skipContent then (.ok (), st)
  else if tag.contentLen = 0 then
    (.ok (), { st with out := st.out ++ st.delims.start.text.take st.delims.start.len ++
      st.delims.stop.text.take st.delims.stop.len })
  else
    match renderVariable realText (tag.name start) tag.type st.toScope jsonKey with
    | .error stop => (.error stop, st)
    | .ok r => (.ok (), { st with out := st.out ++ r.1, doc := r.2 })

/-- `Render`. Each turn of its loop and each call takes one unit of fuel. `inSection` says whether `section` is not
`NULL`; its name is used for messages only. -/
def render (realText : Bytes → Option Bytes) (start : Bytes) : ℕ → Bool → Option ℕ → Option Bytes → Bool → State →
    Except Stop (Option ℕ) × State
  | 0, _, _, _, _, st => (.error .outOfFuel, st)
  | _ + 1, _, none, _, _, st => (.error .failed, st)
  | fuel + 1, inSection, some input, jsonKey, skipContent, st =>
    let tag := nextTag start input st.delims
    let before := renderBefore start input tag skipContent st
    let input := before.1
    let st := before.2
    match tag.type with
    | .err => (.error .failed, st)
    | .delim =>
      match setDelimiters (tag.name start) st.delims with
      | (.error stop, d) => (.error stop, { st with delims := d })
      | (.ok _, d) => render realText start fuel inSection input jsonKey skipContent { st with delims := d }
    | .comment => render realText start fuel inSection input jsonKey skipContent st
    | .none => (.ok none, st)
    | .sectionEnd => if inSection then (.ok input, st.pop) else (.error .failed, st)
    | .inverted | .section =>
      match renderSection (render realText start fuel true) start input tag skipContent st with
      | (.error stop, st) => (.error stop, st)
      | (.ok after, closed) =>
        render realText start fuel inSection after jsonKey skipContent (closed.closed st.toScope tag input after)
    | .varSerialized | .varSerializedCompact | .varUnescaped | .var =>
      match renderVariableTag realText start tag jsonKey skipContent st with
      | (.error stop, st) => (.error stop, st)
      | (.ok _, st) => render realText start fuel inSection input jsonKey skipContent st

/-- `MustacheRender`, up to the given number of turns. -/
def mustacheRender (realText : Bytes → Option Bytes) (fuel : ℕ) (out : Bytes) (input : CString) (hash : JsonElement) :
    Except Stop (Option ℕ) × State :=
  render realText input.bytes fuel false (some 0) none false ⟨⟨hash, [some []], .initial⟩, out, []⟩

end Libntech.Mustache
