import Libntech.Containers.Sequence
import Libntech.Csv.Writer
import Libntech.Json.Element
import Mathlib.Data.Nat.Digits.Defs

/-! # Creating, writing and comparing JSON elements (`libutils/json.c`)

`JsonWrite` and `JsonWriteCompact` sort the members of each object in place right before they write them.
Sorting one object moves no member of another, so the model computes the element as the writer leaves it
(`jsonSorted`) and writes that. The two writers differ in their blanks only.

Strings and keys go through `WriterWriteF`, whose `xvasprintf` ends the program above `INT_MAX` bytes, and the indent
of a level is counted in an `int`. A writer that fails so has no result.
-/
namespace Libntech.Json
set_option autoImplicit false

open Libntech.Containers
open Libntech.Csv (intMax)

/-! ## Numbers as text -/

/-- `%d` of a number that is not negative. -/
def decimal (n : ℕ) : Bytes :=
  if n = 0 then ['0'.toUInt8] else ((Nat.digits 10 n).map fun d => UInt8.ofNat (48 + d)).reverse

def decimalInt (n : ℤ) : Bytes := if n < 0 then '-'.toUInt8 :: decimal n.natAbs else decimal n.natAbs

/-- A `double`: a finite one is `mantissa * 2 ^ exponent` with its sign. -/
inductive Double where
  | finite (negative : Bool) (mantissa : ℕ) (exponent : ℤ)
  | infinite (negative : Bool)
  | nan

/-- `m * 2 ^ e * 10000`, rounded to the nearest whole number, ties to even. -/
def tenThousandths (m : ℕ) (e : ℤ) : ℕ :=
  let numerator := m * 10000 * 2 ^ e.toNat
  let divisor := 2 ^ (-e).toNat
  let q := numerator / divisor
  let rest := numerator % divisor
  if divisor < 2 * rest ∨ (divisor = 2 * rest ∧ q % 2 = 1) then q + 1 else q

/-- The digits of `n`, four of them, with leading zeros. -/
def fourDigits (n : ℕ) : Bytes :=
  [n / 1000 % 10, n / 100 % 10, n / 10 % 10, n % 10].map fun d => UInt8.ofNat (48 + d)

/-- `%.4f` -/
def fixedFour (negative : Bool) (scaled : ℕ) : Bytes :=
  (if negative then ['-'.toUInt8] else []) ++ decimal (scaled / 10000) ++ '.'.toUInt8 :: fourDigits (scaled % 10000)

/-! ## Create -/

def jsonStringCreate (value : CString) : JsonElement := .primitive .string value.bytes

def jsonIntegerCreate (value : Int32) : JsonElement := .primitive .integer (decimalInt value.toInt)

def jsonIntegerCreate64 (value : Int64) : JsonElement := .primitive .integer (decimalInt value.toInt)

/-- `JsonRealCreate`: what is not finite becomes zero, and `snprintf` keeps the first 31 characters. -/
def jsonRealCreate : Double → JsonElement
  | .finite negative mantissa exponent =>
    .primitive .real ((fixedFour negative (tenThousandths mantissa exponent)).take 31)
  | .infinite _ => .primitive .real (fixedFour false 0)
  | .nan => .primitive .real (fixedFour false 0)

/-- The elements that the create and append functions build. -/
inductive Built : JsonElement → Prop where
  | string (value : CString) : Built (jsonStringCreate value)
  | integer (value : Int32) : Built (jsonIntegerCreate value)
  | integer64 (value : Int64) : Built (jsonIntegerCreate64 value)
  | real (value : Double) : Built (jsonRealCreate value)
  | bool (value : Bool) : Built (jsonBoolCreate value)
  | null : Built jsonNullCreate
  | arrayCreate : Built (.array [])
  | arrayAppend {children : List JsonElement} {element : JsonElement} : Built (.array children) → Built element →
      Built (.array (children ++ [element]))
  | objectCreate : Built (.object [])
  | objectAppend {children : List (Bytes × JsonElement)} {element : JsonElement} (key : CString) :
      Built (.object children) → Built element → Built (.object (appendElement children key.bytes element))

/-! ## Write -/

def charIsPrintableAscii (c : UInt8) : Bool := ' '.toUInt8 ≤ c && c ≤ '~'.toUInt8

/-- A digit of `%04x`. -/
def hexChar (n : ℕ) : UInt8 := UInt8.ofNat (if n < 10 then 48 + n else 87 + n)

/-- What `JsonEncodeStringWriter` writes for one character. -/
def encodeChar (c : UInt8) : Bytes :=
  if c = '"'.toUInt8 ∨ c = '\\'.toUInt8 then ['\\'.toUInt8, c]
  else if c = 8 then ['\\'.toUInt8, 'b'.toUInt8]
  else if c = 12 then ['\\'.toUInt8, 'f'.toUInt8]
  else if c = 10 then ['\\'.toUInt8, 'n'.toUInt8]
  else if c = 13 then ['\\'.toUInt8, 'r'.toUInt8]
  else if c = 9 then ['\\'.toUInt8, 't'.toUInt8]
  else if charIsPrintableAscii c then [c]
  else ['\\'.toUInt8, 'u'.toUInt8, '0'.toUInt8, '0'.toUInt8, hexChar (c.toNat / 16), hexChar (c.toNat % 16)]

def jsonEncodeString (text : Bytes) : Bytes := text.flatMap encodeChar

/-- What is written of a primitive; `WriterWrite` stops after `INT_MAX` bytes. -/
def jsonPrimitiveWrite (type : JsonPrimitiveType) (value : Bytes) : Bytes :=
  if type = .string then '"'.toUInt8 :: (jsonEncodeString value ++ ['"'.toUInt8]) else value.take intMax

/-- `strcmp` -/
def strcmp : Bytes → Bytes → ℤ
  | [], [] => 0
  | [], _ :: _ => -1
  | _ :: _, [] => 1
  | x :: s, y :: t => if x < y then -1 else if y < x then 1 else strcmp s t

def jsonElementPropertyCompare (e₁ e₂ : Bytes × JsonElement) : ℤ := strcmp e₁.1 e₂.1

mutual

/-- The element after it was written: the members of its objects are sorted. -/
def jsonSorted : JsonElement → Option JsonElement
  | .primitive type value => some (.primitive type value)
  | .array children => do return .array (← sortedElements children)
  | .object children => do return .object (← seqSort jsonElementPropertyCompare (← sortedMembers children))

def sortedElements : List JsonElement → Option (List JsonElement)
  | [] => some []
  | e :: rest => do return (← jsonSorted e) :: (← sortedElements rest)

def sortedMembers : List (Bytes × JsonElement) → Option (List (Bytes × JsonElement))
  | [] => some []
  | (key, e) :: rest => do return (key, ← jsonSorted e) :: (← sortedMembers rest)

end

/-- The blanks of a writer: the indent of a level, the end of a line, what stands after a colon. An indent may be out of
range. -/
structure Blanks where
  indent : ℕ → Bytes
  indentFits : ℕ → Bool
  newline : Bytes
  space : Bytes

mutual

/-- A value; an array or an object starts at level `level`. -/
def valueText (w : Blanks) (level : ℕ) : JsonElement → Bytes
  | .primitive type value => jsonPrimitiveWrite type value
  | .array [] => ascii "[]"
  | .array (e :: rest) =>
    ascii "[" ++ w.newline ++ elementsText w level (e :: rest) ++ w.indent level ++ [']'.toUInt8]
  | .object children => ['\x7b'.toUInt8] ++ w.newline ++ membersText w level children ++ w.indent level ++ ['\x7d'.toUInt8]

def elementsText (w : Blanks) (level : ℕ) : List JsonElement → Bytes
  | [] => []
  | e :: rest =>
    w.indent (level + 1) ++ valueText w (level + 1) e ++ (if rest.isEmpty then [] else [','.toUInt8]) ++ w.newline ++
      elementsText w level rest

def membersText (w : Blanks) (level : ℕ) : List (Bytes × JsonElement) → Bytes
  | [] => []
  | (key, e) :: rest =>
    w.indent (level + 1) ++ '"'.toUInt8 :: (jsonEncodeString key ++ ['"'.toUInt8, ':'.toUInt8]) ++ w.space ++
      valueText w (level + 1) e ++ (if rest.isEmpty then [] else [','.toUInt8]) ++ w.newline ++ membersText w level rest

end

/-- `xvasprintf` makes a string of `"%s"` and, behind a key, of the colon and the space. -/
def primitiveFits (type : JsonPrimitiveType) (value : Bytes) : Bool :=
  type != .string || (jsonEncodeString value).length + 2 ≤ intMax

def keyFits (w : Blanks) (key : Bytes) : Bool := (jsonEncodeString key).length + 3 + w.space.length ≤ intMax

mutual

/-- No call of the writer fails on the value. -/
def writable (w : Blanks) (level : ℕ) : JsonElement → Bool
  | .primitive type value => primitiveFits type value
  | .array [] => true
  | .array (e :: rest) => elementsWritable w level (e :: rest) && w.indentFits level
  | .object children => membersWritable w level children && w.indentFits level

def elementsWritable (w : Blanks) (level : ℕ) : List JsonElement → Bool
  | [] => true
  | e :: rest => w.indentFits (level + 1) && writable w (level + 1) e && elementsWritable w level rest

def membersWritable (w : Blanks) (level : ℕ) : List (Bytes × JsonElement) → Bool
  | [] => true
  | (key, e) :: rest =>
    w.indentFits (level + 1) && keyFits w key && writable w (level + 1) e && membersWritable w level rest

end

/-- `PrintIndent`, whose argument is an `int`. -/
def printIndent (num : ℕ) : Bytes :=
  List.replicate (2 * toInt num).toNat ' '.toUInt8

/-- `num * SPACES_PER_INDENT` is an `int`. -/
def printIndentFits (num : ℕ) : Bool := -2147483648 ≤ 2 * toInt num && 2 * toInt num ≤ 2147483647

def prettyBlanks : Blanks := ⟨printIndent, printIndentFits, ['\n'.toUInt8], [' '.toUInt8]⟩

def compactBlanks : Blanks := ⟨fun _ => [], fun _ => true, [], []⟩

/-- The indent that `JsonWrite` writes in front of a primitive. -/
def ownIndent (indentLevel : ℕ) : JsonElement → Bytes
  | .primitive _ _ => printIndent indentLevel
  | _ => []

/-- No call of the writer fails in `JsonWrite`. -/
def prettyWritable (indentLevel : ℕ) : JsonElement → Bool
  | .primitive type value => printIndentFits indentLevel && primitiveFits type value
  | container => writable prettyBlanks indentLevel container

def jsonWrite (element : JsonElement) (indentLevel : ℕ) : Option Bytes := do
  let element ← jsonSorted element
  if prettyWritable indentLevel element then
    return ownIndent indentLevel element ++ valueText prettyBlanks indentLevel element
  else none

def jsonWriteCompact (element : JsonElement) : Option Bytes := do
  let element ← jsonSorted element
  if writable compactBlanks 0 element then return valueText compactBlanks 0 element else none

/-! ## Compare -/

def jsonObjectGet (children : List (Bytes × JsonElement)) (key : Bytes) : Option JsonElement :=
  (children.find? fun child => child.1 = key).map Prod.snd

/-- `int ret = JsonLength(a) - JsonLength(b);` -/
def lengthDifference (a b : ℕ) : ℤ := toInt ((a : ℤ) - b)

mutual

/-- `JsonCompare`. The differences of types are those of their numbers in `json.h`. No result is a failed
assertion: a child without a counterpart is compared. -/
def jsonCompare : JsonElement → JsonElement → Option ℤ
  | .primitive _ a, .primitive _ b => some (if a = b then 0 else 1)
  | .primitive _ _, .array _ => some 1
  | .primitive _ _, .object _ => some 1
  | .array _, .primitive _ _ => some (-1)
  | .object _, .primitive _ _ => some (-1)
  | .array _, .object _ => some 1
  | .object _, .array _ => some (-1)
  | .array a, .array b =>
    if lengthDifference a.length b.length ≠ 0 then some (lengthDifference a.length b.length) else compareElements a b
  | .object a, .object b =>
    if lengthDifference a.length b.length ≠ 0 then some (lengthDifference a.length b.length) else compareMembers a b

def compareElements : List JsonElement → List JsonElement → Option ℤ
  | [], _ => some 0
  | _ :: _, [] => none
  | a :: as, b :: bs => do
    let ret ← jsonCompare a b
    if ret ≠ 0 then return ret else compareElements as bs

def compareMembers : List (Bytes × JsonElement) → List (Bytes × JsonElement) → Option ℤ
  | [], _ => some 0
  | (key, a) :: rest, b =>
    match jsonObjectGet b key with
    | none => some 1
    | some child => do
      let ret ← jsonCompare a child
      if ret ≠ 0 then return ret else compareMembers rest b

end

end Libntech.Json
