import Libntech.Network.IPAddress

/-! # IPv4 addresses (`libutils/ip_address.c`)

`IPV4_parser` with an address to fill in. The return of -1 is acted upon in the turn of its character, except for the
state 7, which the next character finds; and the end of the text does not ask for it. The characters of a number are
counted in an `int`, however many zeros it begins with; `counts` says that the count does not overflow.
-/
namespace Libntech.Network.IPV4
set_option autoImplicit false

open Libntech.Json (Bytes)

structure IPV4Address where
  octets : List ℕ
  port : ℕ
  deriving DecidableEq

/-- The variables of the loop. -/
structure Scan where
  address : IPV4Address
  octet : ℕ
  port : ℕ
  periodCounter : ℕ
  portCounter : ℕ
  charCounter : ℕ
  hasDigit : Bool
  state : ℕ
  stateChange : Bool
  deriving DecidableEq

def Scan.start : Scan := ⟨⟨List.replicate 4 0, 0⟩, 0, 0, 0, 0, 0, false, 0, false⟩

def Scan.counted (s : Scan) : Scan := { s with charCounter := s.charCounter + 1 }

def Scan.enter (s : Scan) (state : ℕ) : Scan := { s with state, stateChange := true }

/-- `address->octets[state] = octet` -/
def Scan.assign (s : Scan) : Scan := { s with address := { s.address with octets := s.address.octets.set s.state s.octet } }

/-- The flags of a character. -/
def Scan.count (s : Scan) (c : UInt8) : Scan :=
  { s with
    periodCounter := if c = '.'.toUInt8 then s.periodCounter + 1 else s.periodCounter
    portCounter := if c = ':'.toUInt8 then s.portCounter + 1 else s.portCounter }

/-- The `switch` of the loop. -/
def transition (s : Scan) (c : UInt8) : Option Scan :=
  match s.state with
  | 0 | 1 | 2 => some <|
    if isdigit c then { s with octet := char2Dec s.octet c, hasDigit := true }
    else if c = '.'.toUInt8 then s.assign.enter (s.state + 1)
    else s.enter 7
  | 3 => some <|
    if isdigit c then { s with octet := char2Dec s.octet c, hasDigit := true }
    else if c = ':'.toUInt8 then s.assign.enter 5
    else s.enter 7
  | 4 => some s
  | 5 => some <| if isdigit c then { s with port := char2Dec s.port c } else s.enter 7
  | _ => none

/-- The checks after the `switch`. -/
def Scan.settle (s : Scan) : Option Scan :=
  if 255 < s.octet then none
  else if 65535 < s.port then none
  else if 1 < s.periodCounter then none
  else if 1 < s.portCounter then none
  else if s.stateChange then
    if !s.hasDigit then none
    else some { s with octet := 0, port := 0, periodCounter := 0, portCounter := 0, charCounter := 0, hasDigit := false,
                       stateChange := false }
  else some s

/-- A turn of the loop up to `char_counter++`; `none` is the return of -1. -/
def turn (s : Scan) (c : UInt8) : Option Scan := (transition (s.count c) c).map Scan.counted

/-- One turn of the loop. -/
def step (s : Scan) (c : UInt8) : Option Scan := (turn s c).bind Scan.settle

def scan (s : Scan) (text : Bytes) : Option Scan := text.foldlM step s

def finish (s : Scan) : Option IPV4Address :=
  match s.state with
  | 0 | 1 | 2 => none
  | 3 => if s.charCounter = 0 then none else some s.assign.address
  | 5 => if s.charCounter = 0 then none else some { s.address with port := s.port }
  | 6 => none
  | _ => some s.address

/-- `IPV4_parser`, as long as `char_counter` can count. -/
def ipv4Parser (source : Bytes) : Option IPV4Address := do
  let s ← scan .start source
  finish s

/-- All that is counted from here on is in the range of `int`. -/
def counts (s : Scan) : Bytes → Bool
  | [] => true
  | c :: text =>
    match turn s c with
    | none => true
    | some t => decide (t.charCounter ≤ 2147483647) && (t.settle.elim true fun s => counts s text)

/-- `IPV4_parser`; no result is an overflow of `char_counter`. -/
def ipv4ParserInt (source : Bytes) : Option (Option IPV4Address) :=
  if counts .start source then some (ipv4Parser source) else none

end Libntech.Network.IPV4
