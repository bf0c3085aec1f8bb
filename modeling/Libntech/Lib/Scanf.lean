import Mathlib.Data.Int.Notation
import Mathlib.Data.Nat.Notation

/-! # The conversions of `sscanf`

`%d` and `%x` of the C standard. Blanks in front of a number are skipped and count for no width. A number is the longest
part of the text that a number may begin with, and it is none if that part is not a number yet. The numbers are exact.
-/
namespace Libntech.Lib.Scanf
set_option autoImplicit false

inductive Directive where
  | decimal
  | hex (width : ℕ)
  | literal (c : UInt8)

def isSpace (c : UInt8) : Bool := c == 32 || (9 ≤ c && c ≤ 13)

def decimalDigit (c : UInt8) : Option ℕ := if '0'.toUInt8 ≤ c ∧ c ≤ '9'.toUInt8 then some (c.toNat - '0'.toNat) else none

def hexDigit (c : UInt8) : Option ℕ :=
  if '0'.toUInt8 ≤ c ∧ c ≤ '9'.toUInt8 then some (c.toNat - '0'.toNat)
  else if 'a'.toUInt8 ≤ c ∧ c ≤ 'f'.toUInt8 then some (c.toNat - 'a'.toNat + 10)
  else if 'A'.toUInt8 ≤ c ∧ c ≤ 'F'.toUInt8 then some (c.toNat - 'A'.toNat + 10)
  else none

/-- The sign, and the text behind it. -/
def splitSign : List UInt8 → Bool × List UInt8
  | c :: s =>
    if c = '-'.toUInt8 then (true, s)
    else if c = '+'.toUInt8 then (false, s)
    else (false, c :: s)
  | [] => (false, [])

/-- The text behind `0x`, if it begins so. -/
def skipHexPrefix : List UInt8 → List UInt8
  | z :: x :: s => if z = '0'.toUInt8 ∧ (x = 'x'.toUInt8 ∨ x = 'X'.toUInt8) then s else z :: x :: s
  | s => s

/-- The digits at the beginning, as far as there are some, and the text behind them. -/
def splitDigits (digit : UInt8 → Option ℕ) : List UInt8 → List ℕ × List UInt8
  | c :: s =>
    match digit c with
    | some d => (d :: (splitDigits digit s).1, (splitDigits digit s).2)
    | none => ([], c :: s)
  | [] => ([], [])

def digitsValue (base : ℕ) (digits : List ℕ) : ℕ := digits.foldl (fun n d => n * base + d) 0

def signed (negative : Bool) (n : ℕ) : ℤ := if negative then -(n : ℤ) else n

/-- The number that a directive reads, and the text behind it. -/
def scanDecimal (s : List UInt8) : Option (ℤ × List UInt8) :=
  let (negative, s) := splitSign (s.dropWhile isSpace)
  let (digits, rest) := splitDigits decimalDigit s
  if digits = [] then none else some (signed negative (digitsValue 10 digits), rest)

def scanHex (width : ℕ) (s : List UInt8) : Option (ℤ × List UInt8) :=
  let s := s.dropWhile isSpace
  let (negative, item) := splitSign (s.take width)
  let (digits, rest) := splitDigits hexDigit (skipHexPrefix item)
  if digits = [] then none else some (signed negative (digitsValue 16 digits), rest ++ s.drop width)

/-- The numbers that are assigned; how many they are is the result, but for a text that ends before the first. -/
def sscanf : List Directive → List UInt8 → List ℤ
  | [], _ => []
  | .decimal :: format, s =>
    match scanDecimal s with
    | some (n, rest) => n :: sscanf format rest
    | none => []
  | .hex width :: format, s =>
    match scanHex width s with
    | some (n, rest) => n :: sscanf format rest
    | none => []
  | .literal c :: format, d :: s => if c = d then sscanf format s else []
  | .literal _ :: _, [] => []

/-- The directives that assign. -/
def conversions (format : List Directive) : ℕ := format.countP fun
  | .literal _ => false
  | _ => true

theorem length_sscanf_le (format : List Directive) (s : List UInt8) : (sscanf format s).length ≤ conversions format := by
  fun_induction sscanf format s with
  | case1 s => exact Nat.zero_le _
  | case2 s format n rest h ih => simpa [conversions] using ih
  | case3 s format h => exact Nat.zero_le _
  | case4 s width format n rest h ih => simpa [conversions] using ih
  | case5 s width format h => exact Nat.zero_le _
  | case6 c format s ih => simpa [conversions] using ih
  | case7 c format d s h => exact Nat.zero_le _
  | case8 c format => exact Nat.zero_le _

end Libntech.Lib.Scanf
