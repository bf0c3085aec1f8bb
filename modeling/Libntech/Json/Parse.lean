import Libntech.Strings.StartsWith

/-! # The JSON parser (`JsonParse` and the functions under it, `libutils/json.c`)

The cursor `*data` is a position in the text. `peek` reads one character there: the text's bytes, the
terminating NUL right after them, and nothing beyond, which is `outOfBounds`. A loop that has not ended
after as many turns as there are characters, the NUL and one more is `outOfFuel`. Loops return the cursor
as they leave it: on the last character of what they parsed.

`JsonParse` passes no lookup function, so the lookup branches are left out. The three places that try a
number, a boolean and a null in this order share `parseScalar`.
-/
namespace Libntech.Json
set_option autoImplicit false

open Libntech.Strings (stringStartsWith)

inductive JsonParseError where
  | stringNoDoublequoteStart
  | stringNoDoublequoteEnd
  | numberExponentNegative
  | numberExponentPositive
  | numberDuplicateZero
  | numberNoDigit
  | numberMultipleDots
  | numberExponentDuplicate
  | numberExponentDigit
  | numberExponentFollowLeadingZero
  | numberBadSymbol
  | numberDigitEnd
  | arrayStart
  | arrayEnd
  | arrayComma
  | objectBadSymbol
  | objectEnd
  | objectColon
  | objectComma
  | objectCommaMissing
  | objectArrayLval
  | objectObjectLval
  | objectOpenLval
  | noData
  deriving DecidableEq

inductive Outcome (α : Type) where
  | ok (a : α)
  | error (e : JsonParseError)
  | outOfBounds
  | outOfFuel

namespace Outcome

variable {α β : Type}

def bind (x : Outcome α) (f : α → Outcome β) : Outcome β :=
  match x with
  | ok a => f a
  | error e => error e
  | outOfBounds => outOfBounds
  | outOfFuel => outOfFuel

instance : Monad Outcome where
  pure := ok
  bind := bind

/-- The parse ended, with a result or an error, and read nothing past the NUL. -/
def Ends : Outcome α → Prop
  | ok _ => True
  | error _ => True
  | outOfBounds => False
  | outOfFuel => False

end Outcome

/-! ## Characters -/

def peek (s : Bytes) (p : ℕ) : Outcome UInt8 :=
  match (s ++ [0])[p]? with
  | some c => .ok c
  | none => .outOfBounds

def isWhitespace (c : UInt8) : Bool :=
  c == ' '.toUInt8 || c == '\t'.toUInt8 || c == '\n'.toUInt8 || c == '\r'.toUInt8

def isSeparator (c : UInt8) : Bool :=
  isWhitespace c || c == ','.toUInt8 || c == ']'.toUInt8 || c == '}'.toUInt8

/-- `IsDigit`: one to nine. -/
def isDigit (c : UInt8) : Bool := '1'.toUInt8 ≤ c && c ≤ '9'.toUInt8

/-- `wc`: a word character. -/
def isWord (c : UInt8) : Bool :=
  ('0'.toUInt8 ≤ c && c ≤ '9'.toUInt8) || ('A'.toUInt8 ≤ c && c ≤ 'Z'.toUInt8) ||
    ('a'.toUInt8 ≤ c && c ≤ 'z'.toUInt8) || c == '_'.toUInt8

/-- `StringStartsWith(*data, text)`, which measures the rest of the string first. -/
def startsWith (s : Bytes) (p : ℕ) (text : Bytes) : Outcome Bool :=
  if s.length < p then .outOfBounds else .ok (stringStartsWith (s.drop p) text)

/-! ## Strings -/

/-- The character an escape letter stands for, if the parser knows it. -/
def stringEscape (e : UInt8) : Option UInt8 :=
  if e = '\\'.toUInt8 ∨ e = '"'.toUInt8 ∨ e = '/'.toUInt8 then some e
  else if e = 'b'.toUInt8 then some 8
  else if e = 'f'.toUInt8 then some 12
  else if e = 'n'.toUInt8 then some 10
  else if e = 'r'.toUInt8 then some 13
  else if e = 't'.toUInt8 then some 9
  else none

/-- The loop of `JsonParseAsString`, `out` being what the writer holds. -/
def parseStringLoop (s : Bytes) : ℕ → ℕ → Bytes → Outcome (Bytes × ℕ)
  | 0, _, _ => .outOfFuel
  | fuel + 1, p, out => do
    let c ← peek s p
    if c = 0 then .error .stringNoDoublequoteEnd
    else if c = '"'.toUInt8 then .ok (out, p)
    else if c = '\\'.toUInt8 then do
      let e ← peek s (p + 1)
      match stringEscape e with
      | some b => parseStringLoop s fuel (p + 2) (out ++ [b])
      -- an unknown escape is kept verbatim, whatever its letter is
      | none => parseStringLoop s fuel (p + 2) (out ++ ['\\'.toUInt8, e])
    else parseStringLoop s fuel (p + 1) (out ++ [c])

def parseAsString (s : Bytes) (p : ℕ) : Outcome (Bytes × ℕ) := do
  let c ← peek s p
  if c ≠ '"'.toUInt8 then .error .stringNoDoublequoteStart else parseStringLoop s (s.length + 2) (p + 1) []

/-- The value of a hex digit. -/
def hexDigit (c : UInt8) : Option ℕ :=
  if '0'.toUInt8 ≤ c ∧ c ≤ '9'.toUInt8 then some (c.toNat - 48)
  else if 'A'.toUInt8 ≤ c ∧ c ≤ 'F'.toUInt8 then some (c.toNat - 55)
  else if 'a'.toUInt8 ≤ c ∧ c ≤ 'f'.toUInt8 then some (c.toNat - 87)
  else none

/-- `HexStringToChar`: four hex digits that stand for one byte. -/
def hexStringToChar : Bytes → Option UInt8
  | a :: b :: c :: d :: _ => do
    let a ← hexDigit a
    let b ← hexDigit b
    let c ← hexDigit c
    let d ← hexDigit d
    let n := ((a * 16 + b) * 16 + c) * 16 + d
    if 255 < n then none else some (UInt8.ofNat n)
  | _ => none

/-- `JsonDecodeString`. A `\u` escape that stands for NUL writes nothing, and one that is malformed only
loses its backslash. -/
def decodeString : Bytes → Bytes
  | [] => []
  | [c] => [c]
  | c :: e :: rest =>
    if c = '\\'.toUInt8 then
      if e = '"'.toUInt8 ∨ e = '\\'.toUInt8 then e :: decodeString rest
      else if e = 'b'.toUInt8 then 8 :: decodeString rest
      else if e = 'f'.toUInt8 then 12 :: decodeString rest
      else if e = 'n'.toUInt8 then 10 :: decodeString rest
      else if e = 'r'.toUInt8 then 13 :: decodeString rest
      else if e = 't'.toUInt8 then 9 :: decodeString rest
      else if e = 'u'.toUInt8 then
        match hexStringToChar rest with
        | some d => (if d = 0 then [] else [d]) ++ decodeString (rest.drop 4)
        | none => decodeString (e :: rest)
      else c :: decodeString (e :: rest)
    else c :: decodeString (e :: rest)
  termination_by text => text.length
  decreasing_by all_goals simp only [List.length_cons, List.length_drop]; omega

/-! ## Numbers, booleans, null -/

structure NumberState where
  zeroStarted : Bool
  seenDot : Bool
  seenExponent : Bool
  prev : UInt8

/-- One character of a number: the next flags, or the error it causes. -/
def numberStep (n : NumberState) (c : UInt8) : Except JsonParseError NumberState :=
  let leadingZero := n.zeroStarted && !n.seenDot && !n.seenExponent
  let afterExponent := n.prev = 'e'.toUInt8 ∨ n.prev = 'E'.toUInt8
  let afterDigit := n.prev = '0'.toUInt8 ∨ isDigit n.prev
  if c = '-'.toUInt8 then
    if n.prev ≠ 0 ∧ ¬ afterExponent then .error .numberExponentNegative else .ok { n with prev := c }
  else if c = '+'.toUInt8 then
    if ¬ afterExponent then .error .numberExponentPositive else .ok { n with prev := c }
  else if c = '0'.toUInt8 then
    if leadingZero then .error .numberDuplicateZero
    else .ok { n with zeroStarted := n.zeroStarted || n.prev == 0, prev := c }
  else if c = '.'.toUInt8 then
    if n.seenDot then .error .numberMultipleDots
    else if ¬ afterDigit then .error .numberNoDigit
    else .ok { n with seenDot := true, prev := c }
  else if c = 'e'.toUInt8 ∨ c = 'E'.toUInt8 then
    if n.seenExponent then .error .numberExponentDuplicate
    else if ¬ afterDigit then .error .numberExponentDigit
    else .ok { n with seenExponent := true, prev := c }
  else if leadingZero then .error .numberExponentFollowLeadingZero
  else if ¬ isDigit c then .error .numberBadSymbol
  else .ok { n with prev := c }

def parseNumberLoop (s : Bytes) : ℕ → ℕ → NumberState → Bytes → Outcome (NumberState × Bytes × ℕ)
  | 0, _, _, _ => .outOfFuel
  | fuel + 1, p, n, out => do
    let c ← peek s p
    if c = 0 ∨ isSeparator c then .ok (n, out, p)
    else
      match numberStep n c with
      | .error e => .error e
      | .ok n => parseNumberLoop s fuel (p + 1) n (out ++ [c])

def parseAsNumber (s : Bytes) (p : ℕ) : Outcome (JsonElement × ℕ) := do
  let (n, out, p) ← parseNumberLoop s (s.length + 2) p ⟨false, false, false, 0⟩ []
  if n.prev ≠ '0'.toUInt8 ∧ ¬ isDigit n.prev then .error .numberDigitEnd
  -- rewind one character so that the caller sees the separator next
  else .ok (.primitive (if n.seenDot then .real else .integer) out, p - 1)

/-- A literal word, when a separator or the end follows it. -/
def parseWord (s : Bytes) (p : ℕ) (text : Bytes) : Outcome (Option ℕ) := do
  if ← startsWith s p text then
    let next ← peek s (p + text.length)
    return if isSeparator next ∨ next = 0 then some (p + text.length - 1) else none
  else return none

def parseAsBoolean (s : Bytes) (p : ℕ) : Outcome (Option (JsonElement × ℕ)) := do
  if ← startsWith s p jsonTrue then return (← parseWord s p jsonTrue).map (jsonBoolCreate true, ·)
  else return (← parseWord s p jsonFalse).map (jsonBoolCreate false, ·)

def parseAsNull (s : Bytes) (p : ℕ) : Outcome (Option (JsonElement × ℕ)) := do
  return (← parseWord s p jsonNull).map (jsonNullCreate, ·)

/-- A number, a boolean or a null that starts with `c`; nothing if it is none of these. -/
def parseScalar (s : Bytes) (p : ℕ) (c : UInt8) : Outcome (Option (JsonElement × ℕ)) :=
  if c = '-'.toUInt8 ∨ c = '0'.toUInt8 ∨ isDigit c then do return some (← parseAsNumber s p)
  else do
    match ← parseAsBoolean s p with
    | some r => return some r
    | none => parseAsNull s p

def parseAsPrimitive (s : Bytes) (p : ℕ) : Outcome (JsonElement × ℕ) := do
  let c ← peek s p
  if c = '"'.toUInt8 then do
    let (value, p) ← parseAsString s p
    return (.primitive .string (decodeString value), p)
  else
    match ← parseScalar s p c with
    | some r => return r
    | none => .error .objectBadSymbol

/-! ## Containers -/

/-- One entry of an array or a comma, as the loop of `JsonParseAsArray` takes it; `parseArray` and
`parseObject` are the parsers for what is nested. -/
def arrayItem (s : Bytes) (parseArray parseObject : ℕ → Outcome (JsonElement × ℕ)) (p : ℕ) (c prev : UInt8)
    (children : List JsonElement) : Outcome (List JsonElement × ℕ) :=
  if c = '"'.toUInt8 then do
    let (value, p) ← parseAsString s p
    return (children ++ [.primitive .string (decodeString value)], p)
  else if c = '['.toUInt8 then
    if prev ≠ '['.toUInt8 ∧ prev ≠ ','.toUInt8 then .error .arrayStart
    else do
      let (child, p) ← parseArray p
      return (children ++ [child], p)
  else if c = '\x7b'.toUInt8 then
    if prev ≠ '['.toUInt8 ∧ prev ≠ ','.toUInt8 then .error .arrayStart
    else do
      let (child, p) ← parseObject p
      return (children ++ [child], p)
  else if c = ','.toUInt8 then
    if prev = ','.toUInt8 ∨ prev = '['.toUInt8 then .error .arrayComma else .ok (children, p)
  else do
    match ← parseScalar s p c with
    | some (child, p) => return (children ++ [child], p)
    | none => .error .objectBadSymbol

/-- `for (; data[i] != '\0' && accept(data[i]); ++i)` -/
def skipWhile (s : Bytes) (accept : UInt8 → Bool) : ℕ → ℕ → Outcome ℕ
  | 0, _ => .outOfFuel
  | fuel + 1, i => do
    let c ← peek s i
    if c ≠ 0 ∧ accept c then skipWhile s accept fuel (i + 1) else .ok i

/-- `unquoted_key_with_colon`: the end of the word and the position of the colon. The end of the word is
where the caller's walk back over the whitespace stops. -/
def unquotedKeyWithColon (s : Bytes) (p : ℕ) : Outcome (Option (ℕ × ℕ)) := do
  let c ← peek s p
  if ¬ isWord c then return none
  else
    let word ← skipWhile s (fun c => c == '-'.toUInt8 || isWord c) (s.length + 2) (p + 1)
    let colon ← skipWhile s isWhitespace (s.length + 2) word
    let c ← peek s colon
    return if c ≠ ':'.toUInt8 then none else some (word, colon)

/-- What the loop of `JsonParseAsObject` holds: the property name read last, if its value is still to come,
and the children. -/
structure ObjectState where
  name : Option Bytes
  children : List (Bytes × JsonElement)

/-- The object with a value for the pending name, which is used up. -/
def ObjectState.put (o : ObjectState) (key : Bytes) (value : JsonElement) : ObjectState :=
  ⟨none, appendElement o.children key value⟩

/-- One token of an object, as the loop of `JsonParseAsObject` takes it. -/
def objectItem (s : Bytes) (parseArray parseObject : ℕ → Outcome (JsonElement × ℕ)) (p : ℕ) (c prev : UInt8)
    (o : ObjectState) : Outcome (ObjectState × ℕ) :=
  if c = '"'.toUInt8 then
    match o.name with
    | some key => do
      let (value, p) ← parseAsString s p
      return (o.put key (.primitive .string (decodeString value)), p)
    | none =>
      if prev ≠ '\x7b'.toUInt8 ∧ prev ≠ ','.toUInt8 then .error .objectCommaMissing
      else do
        let (key, p) ← parseAsString s p
        return ({ o with name := some key }, p)
  else if c = ':'.toUInt8 then
    if o.name = none ∨ prev = ':'.toUInt8 ∨ prev = ','.toUInt8 then .error .objectColon else .ok (o, p)
  else if c = ','.toUInt8 then
    if o.name ≠ none ∨ prev = ':'.toUInt8 ∨ prev = ','.toUInt8 then .error .objectComma else .ok (o, p)
  else if c = '['.toUInt8 then
    match o.name with
    | some key => do
      let (child, p) ← parseArray p
      return (o.put key child, p)
    | none => .error .objectArrayLval
  else if c = '\x7b'.toUInt8 then
    match o.name with
    | some key => do
      let (child, p) ← parseObject p
      return (o.put key child, p)
    | none => .error .objectObjectLval
  else
    match o.name with
    | none => do
      match ← unquotedKeyWithColon s p with
      | some (word, colon) => return ({ o with name := some ((s.drop p).take (word - p)) }, colon)
      | none => .error .objectBadSymbol
    | some key => do
      match ← parseScalar s p c with
      | some (child, p) => return (o.put key child, p)
      | none => .error .objectBadSymbol

mutual

def parseAsArray (s : Bytes) : ℕ → ℕ → Outcome (JsonElement × ℕ)
  | 0, _ => .outOfFuel
  | fuel + 1, p => do
    let c ← peek s p
    if c ≠ '['.toUInt8 then .error .arrayStart else parseArrayLoop s fuel (p + 1) '['.toUInt8 []
  termination_by structural fuel => fuel

def parseArrayLoop (s : Bytes) : ℕ → ℕ → UInt8 → List JsonElement → Outcome (JsonElement × ℕ)
  | 0, _, _, _ => .outOfFuel
  | fuel + 1, p, prev, children => do
    let c ← peek s p
    if c = 0 then .error .arrayEnd
    else if isWhitespace c then parseArrayLoop s fuel (p + 1) prev children
    else if c = ']'.toUInt8 then .ok (.array children, p)
    else
      let (children, p) ← arrayItem s (parseAsArray s fuel) (parseAsObject s fuel) p c prev children
      let prev ← peek s p
      parseArrayLoop s fuel (p + 1) prev children
  termination_by structural fuel => fuel

def parseAsObject (s : Bytes) : ℕ → ℕ → Outcome (JsonElement × ℕ)
  | 0, _ => .outOfFuel
  | fuel + 1, p => do
    let c ← peek s p
    if c ≠ '\x7b'.toUInt8 then .error .arrayStart
    else parseObjectLoop s fuel (p + 1) '\x7b'.toUInt8 ⟨none, []⟩
  termination_by structural fuel => fuel

def parseObjectLoop (s : Bytes) : ℕ → ℕ → UInt8 → ObjectState → Outcome (JsonElement × ℕ)
  | 0, _, _, _ => .outOfFuel
  | fuel + 1, p, prev, o => do
    let c ← peek s p
    if c = 0 then .error .objectEnd
    else if isWhitespace c then parseObjectLoop s fuel (p + 1) prev o
    else if c = '\x7d'.toUInt8 then
      if o.name ≠ none then .error .objectOpenLval else .ok (.object o.children, p)
    else
      let (o, p) ← objectItem s (parseAsArray s fuel) (parseAsObject s fuel) p c prev o
      let prev ← peek s p
      parseObjectLoop s fuel (p + 1) prev o
  termination_by structural fuel => fuel

end

/-- `JsonParseWithLookup` without a lookup function. -/
def parseWithLookup (s : Bytes) : ℕ → ℕ → Outcome (JsonElement × ℕ)
  | 0, _ => .outOfFuel
  | fuel + 1, p => do
    let c ← peek s p
    if c = 0 then .error .noData
    else if c = '\x7b'.toUInt8 then parseAsObject s (2 * s.length + 4) p
    else if c = '['.toUInt8 then parseAsArray s (2 * s.length + 4) p
    else if isWhitespace c then parseWithLookup s fuel (p + 1)
    else parseAsPrimitive s p

def jsonParse (s : Bytes) : Outcome (JsonElement × ℕ) := parseWithLookup s (s.length + 2) 0

end Libntech.Json
