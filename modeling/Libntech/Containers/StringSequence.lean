import Libntech.Json.Copy

/-! # Length-prefixed strings (`libutils/string_sequence.c`)

A sequence of strings is written as records: the length in decimal digits, padded with blanks to ten characters, the
string, and a newline. `SeqStringDeserialize` decodes the text in memory, where a NUL ends it; `SeqStringReadFile`
decodes a file record by record.

Every access to an array is checked: outside it is a `Fault`, and so is a failed assertion. An array that `FullRead`
did not fill keeps what was there before, which is the parameter `junk`. Allocation does not fail.

`sscanf` takes a terminated string. A library may look for the NUL before it converts anything, or stop at the first
character that does not belong to the number, and the parameter `seeksNul` says which.
-/
namespace Libntech.Containers.StringSequence
set_option autoImplicit false

open Libntech.Json (Bytes CString decimal isSpace isNumeral splitSign numeralsValue)

inductive Fault where
  | assertFailed
  | outOfBounds
  | outOfFuel
  deriving DecidableEq

def charAt (data : Bytes) (i : ℕ) : Except Fault UInt8 :=
  match data[i]? with
  | some c => .ok c
  | none => .error .outOfBounds

def strLengthPrefixLen : ℕ := 10

/-! ## Serializing -/

/-- `"%-10zu%s\n"` -/
def writeLenPrefixedString (w : Bytes) (string : Bytes) : Bytes :=
  let digits := decimal string.length
  w ++ (digits ++ List.replicate (strLengthPrefixLen - digits.length) ' '.toUInt8 ++ string ++ ['\n'.toUInt8])

def seqStringSerialize (seq : List Bytes) : Bytes := seq.foldl writeLenPrefixedString []

/-! ## The length prefix -/

def hasNulByte (str : Bytes) (p : ℕ) : ℕ → Except Fault Bool
  | 0 => .ok false
  | n + 1 => do
    let c ← charAt str p
    if c = 0 then .ok true else hasNulByte str (p + 1) n

/-- `sscanf(data, "%ld", &length)`. A number that does not fit is the nearest one that does. -/
def sscanfLong (seeksNul : Bool) (data : Bytes) : Except Fault (Option ℤ) :=
  let (negative, text) := splitSign (data.dropWhile isSpace)
  let digits := text.takeWhile isNumeral
  let value : ℤ := if negative then -numeralsValue digits else numeralsValue digits
  if seeksNul && !data.contains 0 then .error .outOfBounds
  else if digits.length = text.length then .error .outOfBounds
  else if digits = [] then .ok none
  else .ok (some (max (-9223372036854775808) (min 9223372036854775807 value)))

def getLengthPrefix (seeksNul : Bool) (data : Bytes) (p : ℕ) : Except Fault ℤ := do
  if ← hasNulByte data p 10 then return -1
  else
    let first ← charAt data p
    if ¬ isNumeral first then return -1
    else
      let last ← charAt data (p + (strLengthPrefixLen - 1))
      if last ≠ ' '.toUInt8 then return -1
      else
        match ← sscanfLong seeksNul (data.drop p) with
        | none => return -1
        | some length => return if length < 0 then -1 else length

/-! ## Decoding in memory -/

/-- `strncpy`, before it pads: the characters of the string, at most so many. -/
def strncpy (src : Bytes) (p : ℕ) : ℕ → Except Fault Bytes
  | 0 => .ok []
  | n + 1 => do
    let c ← charAt src p
    if c = 0 then .ok []
    else
      let rest ← strncpy src (p + 1) n
      return c :: rest

/-- The string that an array holds. -/
def cString (data : Bytes) : Bytes := data.takeWhile (· ≠ 0)

/-- `StringCopy`: the array of `bufSize` characters, and the length returned. -/
def stringCopy (src : Bytes) (p bufSize : ℕ) : Except Fault (Bytes × ℕ) := do
  let chars ← strncpy src p bufSize
  let dst := chars ++ List.replicate (bufSize - chars.length) 0
  let last ← charAt dst (bufSize - 1)
  return if last ≠ 0 then (dst.set (bufSize - 1) 0, bufSize) else (dst, (cString dst).length)

def validDuplicate (src : Bytes) (p n : ℕ) : Except Fault (Option Bytes) := do
  let (dst, len) ← stringCopy src p (n + 1)
  return if len < n then none else some (cString dst)

/-- The loop of `SeqStringDeserialize`. -/
def deserializeLoop (seeksNul : Bool) (data : Bytes) : ℕ → ℕ → List Bytes → Except Fault (Option (List Bytes))
  | 0, _, _ => .error .outOfFuel
  | fuel + 1, src, seq => do
    let c ← charAt data src
    if c = 0 then return some seq
    else
      let length ← getLengthPrefix seeksNul data src
      let src := src + strLengthPrefixLen
      if length < 0 then return none
      else
        let before ← charAt data (src - 1)
        if before ≠ ' '.toUInt8 then return none
        else
          match ← validDuplicate data src length.toNat with
          | none => return none
          | some newStr =>
            let after ← charAt data (src + length.toNat)
            if after ≠ '\n'.toUInt8 then return none
            else deserializeLoop seeksNul data fuel (src + length.toNat + 1) (seq ++ [newStr])

def seqStringDeserialize (seeksNul : Bool) (serialized : Bytes) : Except Fault (Option (List Bytes)) :=
  deserializeLoop seeksNul (serialized ++ [0]) (serialized.length + 1) 0 []

/-! ## Decoding a file -/

/-- An open file: what is left to read, and what the next calls of `read` do. A call is interrupted, or it delivers at
least one byte and at most so many more; after these calls it delivers as many as are asked for. -/
structure File where
  rest : Bytes
  reads : List (Option ℕ)

/-- `read`; no result is `EINTR`. -/
def read (fd : File) (len : ℕ) : Option Bytes × File :=
  match fd.reads with
  | [] => (some (fd.rest.take len), ⟨fd.rest.drop len, []⟩)
  | none :: reads => (none, ⟨fd.rest, reads⟩)
  | some more :: reads => (some (fd.rest.take (min len (more + 1))), ⟨fd.rest.drop (min len (more + 1)), reads⟩)

/-- The loop of `FullRead` (`libutils/file_lib.c`): what it has read in all. -/
def fullReadLoop : ℕ → File → ℕ → Bytes → Except Fault (Bytes × File)
  | 0, _, _, _ => .error .outOfFuel
  | fuel + 1, fd, len, total =>
    if len = 0 then .ok (total, fd)
    else
      match read fd len with
      | (none, fd) => fullReadLoop fuel fd len total
      | (some bytes, fd) =>
        if bytes = [] then .ok (total, fd) else fullReadLoop fuel fd (len - bytes.length) (total ++ bytes)

def fullRead (fd : File) (len : ℕ) : Except Fault (Bytes × File) :=
  fullReadLoop (fd.reads.length + len + 1) fd len []

/-- The result of `ReadLenPrefixedString`: 0, -1, or 1 with the string. -/
inductive ReadResult where
  | eof
  | error
  | string (data : Bytes)

def readLenPrefixedString (seeksNul : Bool) (junk : ℕ → UInt8) (fd : File) : Except Fault (ReadResult × File) := do
  let (bytes, fd) ← fullRead fd strLengthPrefixLen
  if bytes = [] then return (.eof, fd)
  else
    let buf := bytes ++ (List.range (strLengthPrefixLen - bytes.length)).map fun i => junk (bytes.length + i)
    let last ← charAt buf (strLengthPrefixLen - 1)
    if last ≠ ' '.toUInt8 then .error .assertFailed
    else
      -- the length is used as it is, also when it is -1
      let length ← getLengthPrefix seeksNul buf 0
      let size := length + 1
      let (data, fd) ← fullRead fd size.toNat
      if (data.length : ℤ) ≠ size then return (.error, fd)
      else if length < 0 then .error .outOfBounds
      else
        let newline ← charAt data length.toNat
        if newline ≠ '\n'.toUInt8 then return (.error, fd)
        else return (.string (cString (data.set length.toNat 0)), fd)

/-- The loop of `SeqStringReadFile`; `junk` has an array for each call. -/
def readFileLoop (seeksNul : Bool) (junk : ℕ → ℕ → UInt8) : ℕ → ℕ → File → List Bytes → Except Fault (Option (List Bytes))
  | 0, _, _, _ => .error .outOfFuel
  | fuel + 1, call, fd, seq => do
    match ← readLenPrefixedString seeksNul (junk call) fd with
    | (.error, _) => return none
    | (.eof, _) => return some seq
    | (.string data, fd) => readFileLoop seeksNul junk fuel (call + 1) fd (seq ++ [data])

def seqStringReadFile (seeksNul : Bool) (junk : ℕ → ℕ → UInt8) (fd : File) : Except Fault (Option (List Bytes)) :=
  readFileLoop seeksNul junk (fd.rest.length + 1) 0 fd []

end Libntech.Containers.StringSequence
