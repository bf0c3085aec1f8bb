import Libntech.Json.Element
import Libntech.Lib.CheckedArray

/-! # inet_pton (`libcompat/inet_pton.c`)

`tmp` is a piece of memory with checked accesses, and `tp`, `endp` and `colonp` are positions in it. A text is accepted with
the bytes that are copied to `dst`.
-/
namespace Libntech.Network
set_option autoImplicit false

open Libntech.Json (Bytes ascii)
open Libntech.Lib (Fault load store)

def nsInt16Sz : ℕ := 2
def nsInAddrSz : ℕ := 4
def nsIn6AddrSz : ℕ := 16

/-! ## inet_pton4 -/

/-- `strchr(digits, ch)`, for `ch` other than NUL: the place of `ch`. -/
def strchr (digits : Bytes) (ch : UInt8) : Option ℕ := digits.findIdx? (· == ch)

def decimalDigits : Bytes := ascii "0123456789"

/-- The loop, with `*tp` and the cells before it in `tmp`. -/
def inetPton4Loop : Bytes → List UInt8 → ℕ → Bool → ℕ → Except Fault (Option (List UInt8))
  | [], tmp, _, _, octets => .ok (if octets < 4 then none else some tmp)
  | ch :: src, tmp, tp, saw_digit, octets =>
    match strchr decimalDigits ch with
    | some digit => do
      let new := (← load tmp tp).toNat * 10 + digit
      if 255 < new then return none
      else
        let tmp ← store tmp tp (UInt8.ofNat new)
        if !saw_digit then
          if 4 < octets + 1 then return none else inetPton4Loop src tmp tp true (octets + 1)
        else inetPton4Loop src tmp tp saw_digit octets
    | none =>
      if ch = '.'.toUInt8 ∧ saw_digit then
        if octets = 4 then .ok none
        else do
          let tmp ← store tmp (tp + 1) 0
          inetPton4Loop src tmp (tp + 1) false octets
      else .ok none

def inetPton4 (src : Bytes) : Except Fault (Option (List UInt8)) :=
  inetPton4Loop src (List.replicate nsInAddrSz 0) 0 false 0

/-! ## inet_pton6 -/

def xdigitsL : Bytes := ascii "0123456789abcdef"
def xdigitsU : Bytes := ascii "0123456789ABCDEF"

def xdigit (ch : UInt8) : Option ℕ :=
  match strchr xdigitsL ch with
  | some pch => some pch
  | none => strchr xdigitsU ch

/-- `*tp++ = (unsigned char) (val >> 8) & 0xff; *tp++ = (unsigned char) val & 0xff;` -/
def storeVal (tmp : List UInt8) (tp val : ℕ) : Except Fault (List UInt8) := do
  store (← store tmp tp (UInt8.ofNat (val >>> 8))) (tp + 1) (UInt8.ofNat val)

/-- `memcpy` of the octets to `tp`. -/
def storeOctets (tmp : List UInt8) (tp : ℕ) : List UInt8 → Except Fault (List UInt8)
  | [] => .ok tmp
  | octet :: octets => do storeOctets (← store tmp tp octet) (tp + 1) octets

/-- The shift by hand, `i` from 1 on; so many turns are left. -/
def shiftLoop (colonp n : ℕ) : ℕ → ℕ → List UInt8 → Except Fault (List UInt8)
  | 0, _, tmp => .ok tmp
  | left + 1, i, tmp => do
    let tmp ← store tmp (nsIn6AddrSz - i) (← load tmp (colonp + (n - i)))
    let tmp ← store tmp (colonp + (n - i)) 0
    shiftLoop colonp n left (i + 1) tmp

/-- The end of the function: the shift, if there was a `::`, and the test for a whole address. -/
def shiftToEnd (tmp : List UInt8) (tp : ℕ) (colonp : Option ℕ) : Except Fault (Option (List UInt8)) :=
  match colonp with
  | some colonp => do
    let n := tp - colonp
    return some (← shiftLoop colonp n n 1 tmp)
  | none => .ok (if tp ≠ nsIn6AddrSz then none else some tmp)

/-- What follows the loop. -/
def inetPton6End (tmp : List UInt8) (tp : ℕ) (colonp : Option ℕ) (saw_xdigit : Bool) (val : ℕ) :
    Except Fault (Option (List UInt8)) :=
  if saw_xdigit then
    if nsIn6AddrSz < tp + nsInt16Sz then .ok none
    else do shiftToEnd (← storeVal tmp tp val) (tp + nsInt16Sz) colonp
  else shiftToEnd tmp tp colonp

def inetPton6Loop : Bytes → List UInt8 → ℕ → Option ℕ → Bytes → Bool → ℕ → Except Fault (Option (List UInt8))
  | [], tmp, tp, colonp, _, saw_xdigit, val => inetPton6End tmp tp colonp saw_xdigit val
  | ch :: src, tmp, tp, colonp, curtok, saw_xdigit, val =>
    match xdigit ch with
    | some pch =>
      let val := val <<< 4 ||| pch
      if 0xffff < val then .ok none else inetPton6Loop src tmp tp colonp curtok true val
    | none =>
      if ch = ':'.toUInt8 then
        if !saw_xdigit then
          match colonp with
          | some _ => .ok none
          | none => inetPton6Loop src tmp tp (some tp) src false val
        else if nsIn6AddrSz < tp + nsInt16Sz then .ok none
        else do
          let tmp ← storeVal tmp tp val
          inetPton6Loop src tmp (tp + nsInt16Sz) colonp src false 0
      else if ch = '.'.toUInt8 ∧ tp + nsInAddrSz ≤ nsIn6AddrSz then do
        match ← inetPton4 curtok with
        | some octets => inetPton6End (← storeOctets tmp tp octets) (tp + nsInAddrSz) colonp false val
        | none => return none
      else .ok none

/-- A leading `::` is handled before the loop. -/
def inetPton6 (src : Bytes) : Except Fault (Option (List UInt8)) :=
  let tmp := List.replicate nsIn6AddrSz 0
  match src with
  | [] => inetPton6Loop [] tmp 0 none [] false 0
  | ch :: rest =>
    if ch = ':'.toUInt8 then
      if rest.head? = some ':'.toUInt8 then inetPton6Loop rest tmp 0 none rest false 0 else .ok none
    else inetPton6Loop (ch :: rest) tmp 0 none (ch :: rest) false 0

/-! ## inet_pton -/

/-- `AF_INET`, `AF_INET6` and the families that are not known here. -/
inductive AddressFamily where
  | inet
  | inet6
  | other
  deriving DecidableEq

/-- No result is -1 with `EAFNOSUPPORT`. The build tells whether `INET6` is defined, which nothing in the repository does. -/
def inetPton (buildInet6 : Bool) (af : AddressFamily) (src : Bytes) : Option (Except Fault (Option (List UInt8))) :=
  match af with
  | .inet => some (inetPton4 src)
  | .inet6 => if buildInet6 then some (inetPton6 src) else none
  | .other => none

end Libntech.Network
