import Libntech.Strings.StartsWith

/-! # Tags of a mustache template (`libutils/mustache.c`, `libutils/string_lib.c`)

A template is a C string, and a pointer into it is a position. Reading at the end gives the terminating NUL.
-/
namespace Libntech.Mustache
set_option autoImplicit false

open Libntech.Json
open Libntech.Strings (stringStartsWith)

/-! ## Strings -/

def charAt (text : Bytes) (i : ℕ) : UInt8 := text.getD i 0

def findFirst (needle : Bytes) : Bytes → Option ℕ
  | [] => if needle.isEmpty then some 0 else none
  | c :: rest => if needle.isPrefixOf (c :: rest) then some 0 else (findFirst needle rest).map (· + 1)

/-- `strstr`, from a position. -/
def strstr (text : Bytes) (i : ℕ) (needle : Bytes) : Option ℕ :=
  (findFirst needle (text.drop i)).map (i + ·)

/-- `strncmp(..) == 0` -/
def strncmpEqual : Bytes → Bytes → ℕ → Bool
  | _, _, 0 => true
  | [], [], _ + 1 => true
  | [], _ :: _, _ + 1 => false
  | _ :: _, [], _ + 1 => false
  | a :: s, b :: t, n + 1 => a == b && strncmpEqual s t n

def countTokens (seps : Bytes) (inToken : Bool) : Bytes → ℕ
  | [] => 0
  | c :: rest =>
    if seps.contains c then countTokens seps false rest
    else if inToken then countTokens seps true rest
    else countTokens seps true rest + 1

def stringCountTokens (str seps : Bytes) : ℕ := countTokens seps false str

/-- `StringNextToken`: where the token starts and how long it is. -/
def stringNextToken (str seps : Bytes) : Option (ℕ × ℕ) :=
  let start := (str.takeWhile fun c => seps.contains c).length
  if start < str.length then some (start, ((str.drop start).takeWhile fun c => !seps.contains c).length) else none

/-- `StringGetToken`; no result is the null reference. -/
def stringGetToken (str seps : Bytes) : ℕ → Option Bytes
  | 0 => (stringNextToken str seps).map fun ref => (str.drop ref.1).take ref.2
  | index + 1 =>
    match stringNextToken str seps with
    | none => none
    | some ref => stringGetToken (str.drop (ref.1 + ref.2)) seps index

/-! ## Delimiters -/

def mustacheMaxDelimSize : ℕ := 10

/-- A delimiter: the array of `MUSTACHE_MAX_DELIM_SIZE` characters and the length kept beside it. -/
structure Delimiter where
  chars : Bytes
  len : ℕ

/-- The array as the C string it holds. -/
def Delimiter.text (d : Delimiter) : Bytes := d.chars.takeWhile (· ≠ 0)

/-- `strncpy`, then the terminator. No result is a write past the array. -/
def Delimiter.set (d : Delimiter) (token : Bytes) : Option Delimiter :=
  if token.length < mustacheMaxDelimSize then
    some ⟨token ++ 0 :: d.chars.drop (token.length + 1), token.length⟩
  else none

/-- The copy that `ShouldIterateObject` makes: `strncpy` into an array of zeros. -/
def Delimiter.copy (d : Delimiter) : Option Delimiter :=
  if d.len ≤ mustacheMaxDelimSize then
    let copied := d.text.take d.len
    some ⟨copied ++ List.replicate (mustacheMaxDelimSize - copied.length) 0, d.len⟩
  else none

structure Delimiters where
  start : Delimiter
  stop : Delimiter

def Delimiters.initial : Delimiters where
  start := ⟨ascii "\x7b\x7b" ++ List.replicate 8 0, 2⟩
  stop := ⟨ascii "\x7d\x7d" ++ List.replicate 8 0, 2⟩

/-- How a function ends without the result it is for. -/
inductive Stop where
  /-- It returns `false`. -/
  | failed
  /-- An assertion fails. -/
  | assertFailed
  /-- The process exits. -/
  | exited
  /-- A write past the end of an array. -/
  | outOfBounds
  /-- The model's bound on the number of turns is reached. -/
  | outOfFuel
  deriving DecidableEq

/-- `SetDelimiters`. A start delimiter stays set when the end delimiter after it is refused. -/
def setDelimiters (content : Bytes) (d : Delimiters) : Except Stop Unit × Delimiters :=
  let seps := ascii " \t"
  if stringCountTokens content seps ≠ 2 then (.error .failed, d)
  else
    let first := (stringGetToken content seps 0).getD []
    if mustacheMaxDelimSize < first.length then (.error .failed, d)
    else
      match d.start.set first with
      | none => (.error .outOfBounds, d)
      | some start =>
        let second := (stringGetToken content seps 1).getD []
        if mustacheMaxDelimSize < second.length then (.error .failed, ⟨start, d.stop⟩)
        else
          match d.stop.set second with
          | none => (.error .outOfBounds, ⟨start, d.stop⟩)
          | some stop => (.ok (), ⟨start, stop⟩)

/-! ## The next tag -/

inductive TagType where
  | var
  | varUnescaped
  | varSerialized
  | varSerializedCompact
  | section
  | sectionEnd
  | inverted
  | comment
  | delim
  | err
  | none
  deriving DecidableEq

structure MustacheTag where
  type : TagType
  begin : Option ℕ
  stop : Option ℕ
  content : ℕ
  contentLen : ℕ

/-- The bytes of the content. -/
def MustacheTag.name (tag : MustacheTag) (start : Bytes) : Bytes := (start.drop tag.content).take tag.contentLen

def isSpace (c : UInt8) : Bool := c == '\t'.toUInt8 || c == ' '.toUInt8

/-- The mark after the start delimiter: the type, how many characters it takes, what has to stand before the end
delimiter. -/
def tagMark (c : UInt8) : TagType × ℕ × Option UInt8 :=
  if c = '#'.toUInt8 then (.section, 1, none)
  else if c = '^'.toUInt8 then (.inverted, 1, none)
  else if c = '/'.toUInt8 then (.sectionEnd, 1, none)
  else if c = '!'.toUInt8 then (.comment, 1, none)
  else if c = '='.toUInt8 then (.delim, 1, some '='.toUInt8)
  else if c = '\x7b'.toUInt8 then (.varUnescaped, 1, some '\x7d'.toUInt8)
  else if c = '&'.toUInt8 then (.varUnescaped, 1, none)
  else if c = '%'.toUInt8 then (.varSerialized, 1, none)
  else if c = '$'.toUInt8 then (.varSerializedCompact, 1, none)
  else (.var, 0, none)

/-- `content_len--`, on an unsigned number. -/
def sizePred (n : ℕ) : ℕ := if n = 0 then 18446744073709551615 else n - 1

/-- The blanks in front go; the first argument is the text from `content` on. -/
def trimFront : Bytes → ℕ → ℕ → ℕ × ℕ
  | [], content, len => (content, len)
  | c :: rest, content, len => if isSpace c then trimFront rest (content + 1) (sizePred len) else (content, len)

/-- The blanks at the back go. -/
def trimBack (start : Bytes) (content : ℕ) : ℕ → ℕ
  | 0 => 0
  | len + 1 => if isSpace (charAt start (content + len)) then trimBack start content len else len + 1

/-- Where the content ends and where the tag ends. -/
def tagEnd (start : Bytes) (content : ℕ) (extraEnd : Option UInt8) (d : Delimiters) : Option (ℕ × ℕ) :=
  match extraEnd with
  | some c =>
    match strstr start content [c] with
    | none => none
    | some escapeEnd =>
      if strncmpEqual (start.drop (escapeEnd + 1)) d.stop.text d.stop.len then
        some (escapeEnd, escapeEnd + 1 + d.stop.len)
      else none
  | none => (strstr start content d.stop.text).map fun stop => (stop, stop + d.stop.len)

def nextTag (start : Bytes) (input : ℕ) (d : Delimiters) : MustacheTag :=
  match strstr start input d.start.text with
  | none => ⟨.none, none, none, 0, 0⟩
  | some begin =>
    let mark := tagMark (charAt start (begin + d.start.len))
    let content := begin + d.start.len + mark.2.1
    match tagEnd start content mark.2.2 d with
    | none => ⟨.err, some begin, none, content, 0⟩
    | some ends =>
      let front := trimFront (start.drop content) content (ends.1 - content)
      ⟨mark.1, some begin, some ends.2, front.1, trimBack start front.1 front.2⟩

/-! ## Standalone tags -/

/-- From the character before the tag back to the start of its line; no result if something stands there. The second
argument counts the characters that are left. -/
def lineBegin (start : Bytes) : ℕ → Option ℕ
  | 0 => some 0
  | i + 1 =>
    if isSpace (charAt start i) then lineBegin start i
    else if charAt start i = '\n'.toUInt8 then some (i + 1)
    else none

/-- From the end of the tag to the start of the next line; the first argument is the text from there on. -/
def lineEnd : Bytes → ℕ → Option ℕ
  | [], i => some i
  | c :: rest, i =>
    if isSpace c then lineEnd rest (i + 1)
    else if c = '\n'.toUInt8 then some (i + 1)
    else if c = '\r'.toUInt8 then
      if rest.head? = some '\n'.toUInt8 then some (i + 2) else lineEnd rest (i + 1)
    else none

/-- `IsTagStandalone`: `line_begin` and `line_end`. -/
def isTagStandalone (start : Bytes) (tagStart tagEnd : ℕ) : Option (ℕ × ℕ) :=
  match lineBegin start tagStart, lineEnd (start.drop tagEnd) tagEnd with
  | some b, some e => some (b, e)
  | _, _ => none

def isTagTypeRenderable : TagType → Bool
  | .comment => false
  | .delim => false
  | .err => false
  | .inverted => false
  | .section => false
  | .sectionEnd => false
  | _ => true

/-! ## Objects that a section iterates over -/

def isKeyExtensionVar (start : Bytes) (tagType : TagType) (tagStart : ℕ) (d : Delimiters) : Bool :=
  if tagType = .var then
    stringStartsWith (start.drop tagStart) d.start.text && charAt start (tagStart + d.start.len) == '@'.toUInt8 &&
      stringStartsWith (start.drop (tagStart + d.start.len + 1)) d.stop.text
  else if tagType = .varUnescaped then
    (stringStartsWith (start.drop tagStart) d.start.text &&
      stringStartsWith (start.drop (tagStart + d.start.len)) (ascii "&@") &&
      stringStartsWith (start.drop (tagStart + d.start.len + 2)) d.stop.text) ||
    (d.start.len == 2 && d.stop.len == 2 && d.start.text == ascii "\x7b\x7b" && d.stop.text == ascii "\x7d\x7d" &&
      stringStartsWith (start.drop tagStart) (ascii "\x7b\x7b\x7b@\x7d\x7d\x7d"))
  else false

/-- The loop of `ShouldIterateObject`, with the local delimiters. A tag with an end lies behind the position, so the
length of the template bounds the number of turns. -/
def iterateLoop (start : Bytes) : ℕ → Option ℕ → Delimiters → Except Stop Bool
  | 0, _, _ => .error .outOfFuel
  | _ + 1, none, _ => .error .assertFailed
  | fuel + 1, some input, d =>
    let tag := nextTag start input d
    match tag.type with
    | .err => .ok false
    | .none => .ok false
    | .section => .ok false
    | .sectionEnd => .ok false
    | .var =>
      if isKeyExtensionVar start tag.type (tag.begin.getD 0) d then .ok true else iterateLoop start fuel tag.stop d
    | .varUnescaped =>
      if isKeyExtensionVar start tag.type (tag.begin.getD 0) d then .ok true else iterateLoop start fuel tag.stop d
    | .delim =>
      match setDelimiters (tag.name start) d with
      | (.error .failed, _) => .ok false
      | (.error stop, _) => .error stop
      | (.ok _, d) => iterateLoop start fuel tag.stop d
    | _ => iterateLoop start fuel tag.stop d

def shouldIterateObject (start : Bytes) (input : Option ℕ) (d : Delimiters) : Except Stop Bool :=
  match d.start.copy, d.stop.copy with
  | some locStart, some locStop => iterateLoop start (start.length + 2) input ⟨locStart, locStop⟩
  | _, _ => .error .outOfBounds

end Libntech.Mustache
