import Libntech.Json.Numerals
import Libntech.Json.Parse
import Libntech.Lib.Rounding

/-! # Copying and merging JSON elements (`libutils/json.c`)

`JsonCopy` copies a number by converting its text to a `long` or a `double` and creating a new number from that. No
result means that the process ends: `StringToLongExitOnError` exits, or the assertion of `StringToDouble` fails.

The conversions are those of the C library on the texts that a number can have; leading blanks, hexadecimal numbers,
infinities and NaNs are not among them.
-/
namespace Libntech.Json
set_option autoImplicit false

open Libntech.Lib

/-! ## Text to numbers -/

/-- An optional sign, and what follows it. -/
def splitSign : Bytes → Bool × Bytes
  | [] => (false, [])
  | c :: text => if c = '-'.toUInt8 then (true, text) else if c = '+'.toUInt8 then (false, text) else (false, c :: text)

/-- `isspace` -/
def isSpace (c : UInt8) : Bool := c == ' '.toUInt8 || (9 ≤ c && c ≤ 13)

/-- `StringToLong`, which calls `strtol`: no result is one of its errors. -/
def stringToLong (str : Bytes) : Option ℤ :=
  let (negative, text) := splitSign str
  let digits := text.takeWhile isNumeral
  let value : ℤ := if negative then -numeralsValue digits else numeralsValue digits
  if value < -9223372036854775808 ∨ 9223372036854775807 < value then none
  else if digits = [] then none
  else
    match text.dropWhile isNumeral with
    | [] => some value
    | c :: _ => if isSpace c then some value else none

/-- The point of a number with the digits behind it, and what follows. -/
def splitFraction : Bytes → Bytes × Bytes
  | [] => ([], [])
  | c :: text =>
    if c = '.'.toUInt8 then (text.takeWhile isNumeral, text.dropWhile isNumeral) else ([], c :: text)

/-- The exponent of a number, and what follows. Without digits it is not part of the number. -/
def splitExponent : Bytes → ℤ × Bytes
  | [] => (0, [])
  | c :: text =>
    if c = 'e'.toUInt8 ∨ c = 'E'.toUInt8 then
      let (negative, rest) := splitSign text
      let digits := rest.takeWhile isNumeral
      let value : ℤ := if negative then -numeralsValue digits else numeralsValue digits
      if digits = [] then (0, c :: text) else (value, rest.dropWhile isNumeral)
    else (0, c :: text)

/-- The `double` nearest to `n * 10 ^ e`. -/
def nearestDouble (negative : Bool) (n : ℕ) (e : ℤ) : Double :=
  let (mantissa, exponent) := roundFloat 53 (-1074) (n * 10 ^ e.toNat) (10 ^ (-e).toNat)
  if 971 < exponent ∨ (exponent = 971 ∧ mantissa = 2 ^ 53) then .infinite negative
  else .finite negative mantissa exponent

/-- `StringToDouble`, which calls `strtod` and asserts that it has read the whole string. -/
def stringToDouble (str : Bytes) : Option Double :=
  let (negative, text) := splitSign str
  let whole := text.takeWhile isNumeral
  let (fraction, text) := splitFraction (text.dropWhile isNumeral)
  if whole = [] ∧ fraction = [] then if str = [] then some (.finite false 0 0) else none
  else
    let (exponent, text) := splitExponent text
    if text = [] then some (nearestDouble negative (numeralsValue (whole ++ fraction)) (exponent - fraction.length))
    else none

/-! ## JsonCopy -/

/-- `JsonPrimitiveCopy`. `JsonIntegerCreate` takes an `int`. -/
def jsonPrimitiveCopy (type : JsonPrimitiveType) (value : Bytes) : Option JsonElement :=
  match type with
  | .bool => some (jsonBoolCreate (value == jsonTrue))
  | .integer => do return jsonIntegerCreate (Int32.ofInt (← stringToLong value))
  | .null => some jsonNullCreate
  | .real => do return jsonRealCreate (← stringToDouble value)
  | .string => some (.primitive .string value)

mutual

def jsonCopy : JsonElement → Option JsonElement
  | .primitive type value => jsonPrimitiveCopy type value
  | .array children => do return .array (← jsonArrayCopy [] children)
  | .object children => do return .object (← jsonObjectCopy [] children)

/-- The loop of `JsonArrayCopy`, which appends to `copy`. -/
def jsonArrayCopy (copy : List JsonElement) : List JsonElement → Option (List JsonElement)
  | [] => some copy
  | child :: rest => do jsonArrayCopy (copy ++ [← jsonCopy child]) rest

def jsonObjectCopy (copy : List (Bytes × JsonElement)) : List (Bytes × JsonElement) →
    Option (List (Bytes × JsonElement))
  | [] => some copy
  | (key, child) :: rest => do jsonObjectCopy (appendElement copy key (← jsonCopy child)) rest

end

/-! ## JsonMerge -/

end Libntech.Json
