import Libntech.Json.Element

/-! # IPv6 addresses (`libutils/ip_address.c`)

`IPV6_parser` with an address to fill in. A text is its bytes before the NUL; a byte from 128 on is no hex digit. The
numbers are `ℕ`: the automaton gives up before a group or a port outgrows sixteen bits. The characters of a group are
counted in an `int`, and leading zeros are not limited; `counts` says that the count does not overflow.
-/
namespace Libntech.Network
set_option autoImplicit false

open Libntech.Json (Bytes)

structure IPV6Address where
  sixteen : List ℕ
  port : ℕ
  deriving DecidableEq

/-! ## Characters -/

def isdigit (c : UInt8) : Bool := '0'.toUInt8 ≤ c && c ≤ '9'.toUInt8

def isupper (c : UInt8) : Bool := 'A'.toUInt8 ≤ c && c ≤ 'Z'.toUInt8

def isxdigit (c : UInt8) : Bool :=
  isdigit c || ('a'.toUInt8 ≤ c && c ≤ 'f'.toUInt8) || ('A'.toUInt8 ≤ c && c ≤ 'F'.toUInt8)

/-- The macro `Char2Dec`. -/
def char2Dec (o : ℕ) (c : UInt8) : ℕ := o * 10 + c.toNat - '0'.toNat

def char2Hex (beginning : ℕ) (increment : UInt8) : ℕ :=
  let number := beginning * 16
  if 'a'.toUInt8 ≤ increment ∧ increment ≤ 'f'.toUInt8 then number + (increment.toNat - 'a'.toNat + 0x0A)
  else if 'A'.toUInt8 ≤ increment ∧ increment ≤ 'F'.toUInt8 then number + (increment.toNat - 'A'.toNat + 0x0A)
  else number + (increment.toNat - '0'.toNat)

/-! ## The automaton -/

/-- The variables of the loop. `unsorted` is `unsorted_sixteen` up to `unsorted_pointer`. -/
structure Scan where
  address : IPV6Address
  sixteen : ℕ
  unsorted : List ℕ
  bracketExpected : Bool
  port : ℕ
  charCounter : ℕ
  isUpperHexdigit : Bool
  zeroCompression : Bool
  alreadyCompressed : Bool
  state : ℕ
  stateChange : Bool
  deriving DecidableEq

def Scan.start : Scan :=
  ⟨⟨List.replicate 8 0, 0⟩, 0, [], false, 0, 0, false, false, false, 0, false⟩

/-- To the error state. -/
def Scan.error (s : Scan) : Scan := { s with state := 11, stateChange := true }

def Scan.enter (s : Scan) (state : ℕ) : Scan := { s with state, stateChange := true }

/-- `address->sixteen[i] = sixteen` -/
def Scan.assign (s : Scan) (i : ℕ) : Scan := { s with address := { s.address with sixteen := s.address.sixteen.set i s.sixteen } }

def Scan.pushUnsorted (s : Scan) : Scan := { s with unsorted := s.unsorted ++ [s.sixteen] }

def Scan.compress (s : Scan) : Scan := { s with zeroCompression := true, alreadyCompressed := true }

/-- Upper case hex digits are forbidden. -/
def Scan.hexdigit (s : Scan) (c : UInt8) : Scan :=
  if s.isUpperHexdigit then s.error else { s with sixteen := char2Hex s.sixteen c }

/-- The `switch` of the loop. -/
def transition (s : Scan) (c : UInt8) : Option Scan :=
  match s.state with
  | 0 => some <|
    if c = '['.toUInt8 then
      if s.charCounter = 0 then { s with bracketExpected := true } else s.error
    else if isxdigit c then s.hexdigit c
    else if c = ':'.toUInt8 then (s.assign 0).enter 1
    else s.error
  | 1 => some <|
    if isxdigit c then s.hexdigit c
    else if c = ':'.toUInt8 then
      if s.charCounter = 0 then s.compress.enter 2 else (s.assign 1).enter 2
    else s.error
  | 2 | 3 | 4 | 5 | 6 => some <|
    if isxdigit c then s.hexdigit c
    else if c = ':'.toUInt8 then
      if s.charCounter = 0 then
        if s.alreadyCompressed then s.error else s.compress
      else if s.zeroCompression then s.pushUnsorted.enter (s.state + 1)
      else (s.assign s.state).enter (s.state + 1)
    else if c = ']'.toUInt8 then
      if s.bracketExpected && s.zeroCompression then
        ({ s with bracketExpected := false } : Scan).pushUnsorted.enter 8
      else s.error
    else s.error
  | 7 => some <|
    if isxdigit c then s.hexdigit c
    else if c = ']'.toUInt8 then
      if s.bracketExpected then (({ s with bracketExpected := false } : Scan).assign 7).enter 8 else s.error
    else s.error
  | 8 => some <| if c = ':'.toUInt8 then s.enter 9 else s.error
  | 9 => some <| if isdigit c then { s with port := char2Dec s.port c } else s.error
  | 10 => some s
  | _ => none

/-- The checks after the `switch`. -/
def Scan.settle (s : Scan) : Option Scan :=
  if 0xFFFF < s.sixteen then none
  else if 65535 < s.port then none
  else if s.stateChange then
    some { s with sixteen := 0, port := 0, charCounter := 0, isUpperHexdigit := false, stateChange := false }
  else some s

/-- A turn of the loop up to `char_counter++`; `none` is the return of -1. -/
def turn (s : Scan) (c : UInt8) : Option Scan := do
  let s := if isxdigit c && !isdigit c then { s with isUpperHexdigit := isupper c } else s
  let s ← transition s c
  return { s with charCounter := s.charCounter + 1 }

/-- One turn of the loop. -/
def step (s : Scan) (c : UInt8) : Option Scan := (turn s c).bind Scan.settle

/-! ## The end states -/

/-- `sixteen[7 - i] = values i` for each `i` below a count. -/
def placeBackwards (sixteen : List ℕ) (count : ℕ) (values : ℕ → ℕ) : List ℕ :=
  (List.range count).foldl (fun sixteen i => sixteen.set (7 - i) (values i)) sixteen

def finish (s : Scan) : Option IPV6Address :=
  match s.state with
  | 0 | 1 => none
  | 2 | 3 | 4 | 5 | 6 =>
    if s.bracketExpected then none
    else
      let unsorted := s.unsorted ++ [s.sixteen]
      if s.zeroCompression then
        some { s.address with sixteen := placeBackwards s.address.sixteen unsorted.length
                                fun i => unsorted.getD (unsorted.length - i - 1) 0 }
      else none
  | 7 =>
    if s.charCounter = 0 then none
    else if s.bracketExpected then none
    else some (s.assign 7).address
  | 8 =>
    if s.zeroCompression then
      some { s.address with sixteen := placeBackwards s.address.sixteen s.unsorted.length fun i => s.unsorted.getD i 0 }
    else some s.address
  | 9 => if s.charCounter = 0 then none else some { s.address with port := s.port }
  | 11 => none
  | _ => some s.address

def scan (s : Scan) (text : Bytes) : Option Scan := text.foldlM step s

/-- `IPV6_parser`, as long as `char_counter` can count. -/
def ipv6Parser (source : Bytes) : Option IPV6Address := do
  let s ← scan .start source
  finish s

/-- All that is counted from here on is in the range of `int`. -/
def counts (s : Scan) : Bytes → Bool
  | [] => true
  | c :: text =>
    match turn s c with
    | none => true
    | some t => decide (t.charCounter ≤ 2147483647) && (t.settle.elim true fun s => counts s text)

/-- `IPV6_parser`; no result is an overflow of `char_counter`. -/
def ipv6ParserInt (source : Bytes) : Option (Option IPV6Address) :=
  if counts .start source then some (ipv6Parser source) else none

end Libntech.Network
