import Libntech.Json.Copy
import Libntech.Lib.CheckedArray

/-! # Lines of env files (`libutils/json-utils.c`)

A line is a memory that ends with the terminating NUL, and a cursor is a position in it. It is edited in place: NULs
end the key and the value, and the value is decoded over itself.
-/
namespace Libntech.Json
set_option autoImplicit false

open Libntech.Lib (Fault load store scan scanBack)

/-- `TrimWhitespace`: the memory, and where the trimmed string starts. -/
def trimWhitespace (mem : Bytes) (s : ℕ) : Except Fault (Bytes × ℕ) := do
  let s ← scan isSpace mem (mem.length + 1) s
  if (← load mem s) = 0 then return (mem, s)
  else
    let terminator ← scan (· != 0) mem (mem.length + 1) s
    let last ← scanBack isSpace mem (terminator - 1)
    return (← store mem (last + 1) 0, s)

def isQuote (c : UInt8) : Bool := c == '"'.toUInt8 || c == '\''.toUInt8

/-- The loop of `filtered_copy`: the memory, and whether no quote is out of place. The opening quote is NUL if there
is none. -/
def filteredCopyLoop (openingQuote : UInt8) : ℕ → Bytes → ℕ → ℕ → Except Fault (Bytes × Bool)
  | 0, _, _, _ => .error .outOfFuel
  | fuel + 1, mem, src, dst => do
    let c ← load mem src
    if c = 0 ∨ c = openingQuote then return (← store mem dst 0, true)
    else if openingQuote = 0 ∧ isQuote c then return (mem, false)
    else if c = '\\'.toUInt8 then
      -- the escaped character is not compared with NUL
      let e ← load mem (src + 1)
      filteredCopyLoop openingQuote fuel (← store mem dst (if e = 'n'.toUInt8 then '\n'.toUInt8 else e)) (src + 2) (dst + 1)
    else filteredCopyLoop openingQuote fuel (← store mem dst c) (src + 1) (dst + 1)

/-- `filtered_copy`: the memory, and the start of the copy. -/
def filteredCopy (mem : Bytes) (src dst : ℕ) : Except Fault (Bytes × Option ℕ) := do
  let c ← load mem src
  let (mem, copied) ← if isQuote c then filteredCopyLoop c (mem.length + 1) mem (src + 1) dst
    else filteredCopyLoop 0 (mem.length + 1) mem src dst
  return (mem, if copied then some dst else none)

/-- `ParseEnvLine`: the memory, and where the key and the value start. The length of the line is only compared with
zero. -/
def parseEnvLine (rawLine : Bytes) : Except Fault (Bytes × Option (ℕ × ℕ)) := do
  let (mem, line) ← trimWhitespace rawLine 0
  let first ← load mem line
  if first = 0 ∨ first = '#'.toUInt8 then return (mem, none)
  else
    -- `strchr`
    let nextEqual ← scan (fun c => c != 0 && c != '='.toUInt8) mem (mem.length + 1) line
    if (← load mem nextEqual) = 0 then return (mem, none)
    else if nextEqual - line = 0 then return (mem, none)
    else
      let mem ← store mem nextEqual 0
      let (mem, key) ← trimWhitespace mem line
      let (mem, value) ← trimWhitespace mem (nextEqual + 1)
      let (mem, value) ← filteredCopy mem value value
      return (mem, value.map (key, ·))

end Libntech.Json
