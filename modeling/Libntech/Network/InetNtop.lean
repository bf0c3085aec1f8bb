import Libntech.Network.InetPton
import Libntech.Network.IPAddressNew

/-! # inet_ntop (`libcompat/inet_ntop.c`)

No text means that the function fails with `ENOSPC`. The number of bytes of `dst` is `size`.
-/
namespace Libntech.Network
set_option autoImplicit false

open Libntech.Json (Bytes)

def inetNtop4 (src : List UInt8) (size : ℕ) : Option Bytes :=
  let tmp := ['.'.toUInt8].intercalate (src.map fun octet => Json.decimal octet.toNat)
  if size ≤ tmp.length then none else some tmp

/-! ## inet_ntop6 -/

/-- `sizeof "ffff:ffff:ffff:ffff:ffff:ffff:255.255.255.255"` -/
def ntopTmpSize : ℕ := 46

/-- The bytes two by two. -/
def wordsOf : List UInt8 → List ℕ
  | high :: low :: src => (high.toNat <<< 8 ||| low.toNat) :: wordsOf src
  | _ => []

/-- A run of zero words; no run has the base -1. -/
structure ZeroRun where
  base : ℕ
  len : ℕ
  deriving DecidableEq

/-- `if (best.base == -1 || cur.len > best.len) best = cur;`, if there is a current run. -/
def betterRun (best cur : Option ZeroRun) : Option ZeroRun :=
  match cur, best with
  | none, best => best
  | some cur, none => some cur
  | some cur, some best => if best.len < cur.len then some cur else some best

def bestRunLoop : ℕ → List ℕ → Option ZeroRun → Option ZeroRun → Option ZeroRun
  | _, [], best, cur => betterRun best cur
  | i, word :: words, best, cur =>
    if word = 0 then
      match cur with
      | none => bestRunLoop (i + 1) words best (some ⟨i, 1⟩)
      | some cur => bestRunLoop (i + 1) words best (some { cur with len := cur.len + 1 })
    else bestRunLoop (i + 1) words (betterRun best cur) none

/-- The longest run, the first of several, if it has two words at least. -/
def bestRun (words : List ℕ) : Option ZeroRun := (bestRunLoop 0 words none none).filter fun best => decide (2 ≤ best.len)

def insideRun (best : Option ZeroRun) (i : ℕ) : Bool :=
  match best with
  | some best => decide (best.base ≤ i) && decide (i < best.base + best.len)
  | none => false

/-- "Is this address an encapsulated IPv4?" -/
def encapsulated (words : List ℕ) (best : Option ZeroRun) (i : ℕ) : Bool :=
  match best with
  | some best => i == 6 && best.base == 0 && (best.len == 6 || (best.len == 5 && words[5]? == some 0xffff))
  | none => false

/-- The loop from word `i` on, behind what is in `tmp`. -/
def formatLoop (src : List UInt8) (words : List ℕ) (best : Option ZeroRun) : ℕ → List ℕ → Bytes → Option Bytes
  | _, [], tmp => some tmp
  | i, word :: rest, tmp =>
    if insideRun best i then
      formatLoop src words best (i + 1) rest
        (if best.map ZeroRun.base = some i then tmp ++ [':'.toUInt8] else tmp)
    else
      let tmp := if i ≠ 0 then tmp ++ [':'.toUInt8] else tmp
      if encapsulated words best i then (inetNtop4 (src.drop 12) (ntopTmpSize - tmp.length)).map (tmp ++ ·)
      else formatLoop src words best (i + 1) rest (tmp ++ hexText word)

def inetNtop6 (src : List UInt8) (size : ℕ) : Option Bytes := do
  let words := wordsOf src
  let best := bestRun words
  let tmp ← formatLoop src words best 0 words []
  let tmp := if best.map (fun best => best.base + best.len) = some 8 then tmp ++ [':'.toUInt8] else tmp
  if size < tmp.length + 1 then none else some tmp

/-! ## inet_ntop -/

/-- No result is `EAFNOSUPPORT`. -/
def inetNtop (af : AddressFamily) (src : List UInt8) (size : ℕ) : Option (Option Bytes) :=
  match af with
  | .inet => some (inetNtop4 src size)
  | .inet6 => some (inetNtop6 src size)
  | .other => none

end Libntech.Network
