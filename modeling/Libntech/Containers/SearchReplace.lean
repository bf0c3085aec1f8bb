import Libntech.Containers.Buffer
import Libntech.Json.Write

/-! # Search and replace in a buffer (`libutils/buffer.c`)

`ExpandCFESpecialReplacements` rewrites a substitution string for PCRE2, and `BufferSearchAndReplace` has PCRE2 do the
replacement and stores what comes back. PCRE2 itself is a parameter, as its manual describes it: a match lies in its
subject, and a substitution either has a text or fails, whatever the size of the block that it is given. A block that is
too small is refused with the size that is needed; what any other failure leaves in the block is unspecified, and the
length is then the offset of an error or `PCRE2_UNSET`.

What is logged is left out. An assertion that fails, an access outside of a block and a number that `atoi` has no result
for are no result.
-/
namespace Libntech.Containers
set_option autoImplicit false

open Libntech.Json (Bytes CString ascii decimal)

/-! ## PCRE2 -/

structure CompileOptions where
  caseless : Bool
  multiline : Bool
  dotall : Bool
  extended : Bool
  ungreedy : Bool

/-- Beside `PCRE2_SUBSTITUTE_OVERFLOW_LENGTH` and `PCRE2_SUBSTITUTE_MATCHED`. -/
structure SubstituteOptions where
  global : Bool
  literal : Bool

/-- `ovector[0]` and `ovector[1]` of a match. -/
structure Match (subject : Bytes) where
  start : ℕ
  stop : ℕ
  ordered : start ≤ stop
  inside : stop ≤ subject.length

inductive MatchResult (subject : Bytes) where
  | found (m : Match subject)
  | noMatch
  | error

def pcre2ErrorNomemory : ℤ := -48

/-- What a substitution comes to. -/
inductive Substitution where
  | text (count : ℕ) (text : Bytes)
  | error (code : ℤ) (length : ℕ) (negative : code < 0) (other : code ≠ pcre2ErrorNomemory)

structure Pcre2 (Regex : Type) where
  compile : CString → CompileOptions → Option Regex
  captureCount : Regex → ℕ
  search : Regex → (subject : Bytes) → MatchResult subject
  substitution : Regex → (subject : Bytes) → SubstituteOptions → Match subject → Bytes → Substitution

/-- `pcre2_substitute` with a block of so many bytes: its result, the block and the length behind it. -/
def pcre2Substitute (unspecified : ℕ → UInt8) (outSize : ℕ) : Substitution → ℤ × Bytes × ℕ
  | .text count text =>
    if text.length < outSize then
      (count, text ++ 0 :: (List.range (outSize - (text.length + 1))).map unspecified, text.length)
    else (pcre2ErrorNomemory, (List.range outSize).map unspecified, text.length + 1)
  | .error code length _ _ => (code, (List.range outSize).map unspecified, length)

/-! ## ExpandCFESpecialReplacements -/

def dollarSign : UInt8 := '$'.toUInt8
def backslash : UInt8 := '\\'.toUInt8

def isdigit (c : UInt8) : Bool := '0'.toUInt8 ≤ c && c ≤ '9'.toUInt8

def digitValue (c : UInt8) : ℤ := c.toNat - '0'.toNat

/-- The character behind a dollar sign that is special. -/
inductive Special where
  | captureCount
  | before
  | behind
  | whole
  deriving DecidableEq

def special (c : UInt8) : Option Special :=
  if c = '+'.toUInt8 then some .captureCount
  else if c = 0x60 then some .before
  else if c = '\''.toUInt8 then some .behind
  else if c = '&'.toUInt8 then some .whole
  else none

structure Scan where
  hasSpecialSeq : Bool
  hasBackslashBref : Bool
  highestBref : ℤ

/-- A turn of the first loop, at `c[0]` and `c[1]`. -/
def scanStep (s : Scan) (c₀ c₁ : UInt8) : Scan :=
  if c₀ = dollarSign ∧ (special c₁).isSome then { s with hasSpecialSeq := true }
  else if c₀ = backslash ∧ isdigit c₁ then
    { s with hasBackslashBref := true, highestBref := max s.highestBref (digitValue c₁) }
  else if c₀ = dollarSign ∧ isdigit c₁ ∧ s.highestBref < digitValue c₁ then { s with highestBref := digitValue c₁ }
  else s

def scanLoop (s : Scan) : Bytes → Scan
  | [] => s
  | c :: rest => scanLoop (scanStep s c (rest.headD 0)) rest

def scan (substitute : Bytes) : Scan := scanLoop ⟨false, false, -1⟩ substitute

section Special

variable (fresh : Memory) (nCaptures : ℕ) {subject : Bytes} (m : Match subject)

def appendSpecial (b : Buffer) : Special → Option Buffer
  | .captureCount => bufferAppendF fresh b (decimal nCaptures)
  | .before => bufferAppend fresh b (subject.take m.start)
  | .behind => bufferAppend fresh b (subject.drop m.stop)
  | .whole => bufferAppend fresh b ((subject.drop m.start).take (m.stop - m.start))

/-- The loop over the dollar signs; `pending` is what stands between `subst_offset` and the character that is looked at. -/
def specialLoop (b : Buffer) (pending : Bytes) : Bytes → Option Buffer
  | [] => bufferAppend fresh b pending
  | [c] => bufferAppend fresh b (pending ++ [c])
  | c :: d :: rest =>
    if c = dollarSign then
      match special d with
      | some kind => do
        let b ← bufferAppend fresh b pending
        let b ← appendSpecial fresh nCaptures m b kind
        specialLoop b [] rest
      | none => specialLoop b (pending ++ [c]) (d :: rest)
    else specialLoop b (pending ++ [c]) (d :: rest)

end Special

def translateBackslashes : Bytes → Bytes
  | [] => []
  | c :: rest => (if c = backslash ∧ isdigit (rest.headD 0) then dollarSign else c) :: translateBackslashes rest

/-- The number that decimal digits spell. -/
def digitsValue (digits : Bytes) : ℕ := digits.foldl (fun n c => 10 * n + (c.toNat - '0'.toNat)) 0

/-- `atoi` of a text that begins with a digit. What does not fit an `int` has no result. -/
def atoi (text : Bytes) : Option ℕ :=
  let value := digitsValue (text.takeWhile isdigit)
  if value < 2 ^ 31 then some value else none

/-- The last loop; `skipping` while the digits of a number that goes are skipped. What is written does not overtake what
is still to be read. -/
def deleteReferences (nCaptures : ℕ) (skipping : Bool) : Bytes → Option Bytes
  | [] => some []
  | c :: rest =>
    if skipping && isdigit c then deleteReferences nCaptures true rest
    else if c = dollarSign ∧ isdigit (rest.headD 0) then do
      let number ← atoi rest
      if nCaptures < number then deleteReferences nCaptures true rest
      else return c :: (← deleteReferences nCaptures false rest)
    else return c :: (← deleteReferences nCaptures false rest)

/-- No string is `NULL`: the substitution string is used as it is. -/
def expandCFESpecialReplacements (fresh : Memory) (nCaptures : ℕ) {subject : Bytes} (m : Match subject)
    (substitute : CString) : Option (Option Bytes) := do
  let s := scan substitute.bytes
  if !s.hasSpecialSeq && !s.hasBackslashBref && s.highestBref ≤ nCaptures then return none
  else
    let newSubstBuf ←
      if s.hasSpecialSeq then do
        let b ← bufferNewWithCapacity fresh substitute.bytes.length
        specialLoop fresh nCaptures m b [] substitute.bytes
      else do
        let b ← bufferNewWithCapacity fresh (substitute.bytes.length + 1)
        bufferAppend fresh b substitute.bytes
    let bufData := newSubstBuf.buffer.take newSubstBuf.used
    let bufData := if s.hasBackslashBref then translateBackslashes bufData else bufData
    if nCaptures < s.highestBref then return some (← deleteReferences nCaptures false bufData) else return some bufData

/-! ## BufferSearchAndReplace -/

def replacementErrorMsg : String := "regex replacement error (see logs for details)"

/-- A turn of the loop over the options. -/
def addOption (opts : CompileOptions × SubstituteOptions) (c : UInt8) : Option (CompileOptions × SubstituteOptions) :=
  if c = 'i'.toUInt8 then some ({ opts.1 with caseless := true }, opts.2)
  else if c = 'm'.toUInt8 then some ({ opts.1 with multiline := true }, opts.2)
  else if c = 's'.toUInt8 then some ({ opts.1 with dotall := true }, opts.2)
  else if c = 'x'.toUInt8 then some ({ opts.1 with extended := true }, opts.2)
  else if c = 'U'.toUInt8 then some ({ opts.1 with ungreedy := true }, opts.2)
  else if c = 'g'.toUInt8 then some (opts.1, { opts.2 with global := true })
  else if c = 'T'.toUInt8 then some (opts.1, { opts.2 with literal := true })
  else none

def parseOptions (options : Bytes) : Option (CompileOptions × SubstituteOptions) :=
  options.foldlM addOption (⟨false, false, false, false, false⟩, ⟨false, false⟩)

/-- `while (!had_enough_space)`, for so many turns. -/
def substituteLoop (unspecified : ℕ → UInt8) (result : Substitution) : ℕ → ℕ → Option (ℤ × Bytes × ℕ)
  | 0, _ => none
  | turns + 1, outSize =>
    let (ret, block, outSize) := pcre2Substitute unspecified outSize result
    if ret = pcre2ErrorNomemory then substituteLoop unspecified result turns outSize else some (ret, block, outSize)

/-- The bytes at a block that `BufferSet` is to take; in C string mode it looks at none behind the first NUL. -/
def bytesAt (mode : BufferBehavior) (block : Bytes) (length : ℕ) : Option Bytes :=
  if length ≤ block.length then some (block.take length)
  else
    match mode with
    | .cstring => if 0 ∈ block then some block else none
    | .bytearray => none

/-- The buffer and the result; no string is `NULL`. The buffer and the new substitution string have their own memory, and
two turns of the loop are enough. -/
def bufferSearchAndReplace {Regex : Type} (pcre2 : Pcre2 Regex) (fresh fresh' : Memory) (unspecified : ℕ → UInt8)
    (b : Buffer) (pattern substitute options : CString) : Option (Buffer × Option String) := do
  let (compileOpts, substOpts) ← parseOptions options.bytes
  match pcre2.compile pattern compileOpts with
  | none => return (b, some replacementErrorMsg)
  | some regex =>
    let subject := b.buffer.take b.used
    match pcre2.search regex subject with
    | .error => return (b, some replacementErrorMsg)
    | .noMatch => return (b, none)
    | .found m =>
      let substCopy ← expandCFESpecialReplacements fresh' (pcre2.captureCount regex) m substitute
      let result := pcre2.substitution regex subject substOpts m (substCopy.getD substitute.bytes)
      let (ret, block, outSize) ← substituteLoop unspecified result 2 (b.used * 2)
      let bytes ← bytesAt b.mode block outSize
      let b ← bufferSet fresh b bytes
      return (b, if 0 ≤ ret then none else some replacementErrorMsg)

end Libntech.Containers
