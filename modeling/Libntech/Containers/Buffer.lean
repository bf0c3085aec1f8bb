import Libntech.Json.Element

/-! # Byte buffers (`libutils/buffer.c`)

The array of a buffer is the list of its bytes, as many as were allocated. Every write is checked against it; no
result is a write past its end. `fresh size` is what an allocation of `size` bytes holds before anything is written
there. `size_t` is `ℕ`: no buffer comes near its end, and allocation does not fail.

The bytes that are passed to a function are not part of the buffer it is called on.
-/
namespace Libntech.Containers
set_option autoImplicit false

open Libntech.Json (Bytes CString)

inductive BufferBehavior where
  | cstring
  | bytearray
  deriving DecidableEq

structure Buffer where
  buffer : Bytes
  mode : BufferBehavior
  capacity : ℕ
  used : ℕ

abbrev Memory := ℕ → ℕ → UInt8

/-- `memcpy`, or an assignment, at an index of an array. -/
def writeAt (data : Bytes) (i : ℕ) (bytes : Bytes) : Option Bytes :=
  if i + bytes.length ≤ data.length then some (data.take i ++ bytes ++ data.drop (i + bytes.length)) else none

def Buffer.write (b : Buffer) (i : ℕ) (bytes : Bytes) : Option Buffer := do
  let data ← writeAt b.buffer i bytes
  return { b with buffer := data }

/-! ## Allocation -/

def xmalloc (fresh : Memory) (size : ℕ) : Bytes := (List.range size).map (fresh size)

def xrealloc (fresh : Memory) (data : Bytes) (size : ℕ) : Bytes :=
  data.take size ++ (List.range (size - data.length)).map fun i => fresh size (data.length + i)

def bufferNewWithCapacity (fresh : Memory) (initialCapacity : ℕ) : Option Buffer :=
  Buffer.write ⟨xmalloc fresh initialCapacity, .cstring, initialCapacity, 0⟩ 0 [0]

def defaultBufferCapacity : ℕ := 4096

def bufferNew (fresh : Memory) : Option Buffer := bufferNewWithCapacity fresh defaultBufferCapacity

/-- `UpperPowerOfTwo` (`libutils/misc_lib.c`), whose shifts are those for 32 bits, short of the end of `size_t`. -/
def Buffer.upperPowerOfTwo (v : ℕ) : ℕ :=
  let v := v - 1
  let v := v ||| v >>> 1
  let v := v ||| v >>> 2
  let v := v ||| v >>> 4
  let v := v ||| v >>> 8
  let v := v ||| v >>> 16
  v + 1

def expandIfNeeded (fresh : Memory) (b : Buffer) (needed : ℕ) : Buffer :=
  if b.capacity ≤ needed then
    let newCapacity := Buffer.upperPowerOfTwo (needed + 1)
    { b with buffer := xrealloc fresh b.buffer newCapacity, capacity := newCapacity }
  else b

/-! ## Appending -/

/-- Bytes behind the used ones, which are used then. -/
def Buffer.extend (b : Buffer) (bytes : Bytes) : Option Buffer := do
  let b ← b.write b.used bytes
  return { b with used := b.used + bytes.length }

/-- `strnlen`: the bytes before the first NUL. -/
def untilNul (bytes : Bytes) : Bytes := bytes.takeWhile (· ≠ 0)

/-- `BufferAppend` of the `length` bytes at `bytes`. -/
def bufferAppend (fresh : Memory) (b : Buffer) (bytes : Bytes) : Option Buffer :=
  if bytes = [] then some b
  else
    match b.mode with
    | .cstring => do
      let text := untilNul bytes
      let b ← (expandIfNeeded fresh b (b.used + text.length + 1)).extend text
      b.write b.used [0]
    | .bytearray => (expandIfNeeded fresh b (b.used + bytes.length)).extend bytes

def bufferAppendString (fresh : Memory) (b : Buffer) (str : CString) : Option Buffer := do
  let b ← (expandIfNeeded fresh b (b.used + str.bytes.length + 1)).extend str.bytes
  b.write b.used [0]

def bufferAppendChar (fresh : Memory) (b : Buffer) (byte : UInt8) : Option Buffer :=
  if b.used < b.capacity - 1 then do
    let b ← b.extend [byte]
    match b.mode with
    | .cstring => b.write b.used [0]
    | .bytearray => return b
  else bufferAppend fresh b [byte]

/-- `vsnprintf` of a text into the array from an index on, where there is room for `size` characters. -/
def vsnprintf (b : Buffer) (i size : ℕ) (text : Bytes) : Option Buffer :=
  if size = 0 then some b else b.write i (text.take (size - 1) ++ [0])

/-- `BufferAppendF`, where the arguments print as `text`. It asserts that they print. -/
def bufferAppendF (fresh : Memory) (b : Buffer) (text : Bytes) : Option Buffer := do
  let b ← vsnprintf b b.used (b.capacity - b.used) text
  if b.capacity - b.used ≤ text.length then
    let b := expandIfNeeded fresh b (b.used + text.length)
    let b ← vsnprintf b b.used (b.capacity - b.used) text
    return { b with used := b.used + text.length }
  else return { b with used := b.used + text.length }

/-- What the arguments of a format print as. If `vsnprintf` fails, some bytes are left at the start of the array. -/
inductive Printed where
  | text (text : Bytes)
  | failed (written : Bytes)

def bufferPrintf (fresh : Memory) (b : Buffer) (printed : Printed) : Option Buffer :=
  match printed with
  | .failed written => b.write 0 (written.take b.capacity)
  | .text text => do
    let b ← vsnprintf b 0 b.capacity text
    if b.capacity ≤ text.length then
      let b := expandIfNeeded fresh b text.length
      let b ← vsnprintf { b with used := 0 } 0 b.capacity text
      return { b with used := text.length }
    else return { b with used := text.length }

/-! ## Replacing and trimming -/

def bufferClear (b : Buffer) : Option Buffer := Buffer.write { b with used := 0 } 0 [0]

def bufferSet (fresh : Memory) (b : Buffer) (bytes : Bytes) : Option Buffer := do
  let b ← bufferClear b
  bufferAppend fresh b bytes

def bufferTrimToMaxLength (b : Buffer) (max : ℕ) : Option Buffer :=
  if max < b.used then Buffer.write { b with used := max } max [0] else some b

/-- `BufferSetMode`: in C string mode the text ends at the first NUL that is used. -/
def bufferSetMode (b : Buffer) (mode : BufferBehavior) : Buffer :=
  match mode with
  | .cstring => { b with used := (untilNul (b.buffer.take b.used)).length, mode := .cstring }
  | .bytearray => { b with mode := .bytearray }

/-- `BufferFilter`: the bytes that pass, in a new buffer. -/
def bufferFilter (fresh : Memory) (b : Buffer) (filter : UInt8 → Bool) (invert : Bool) : Option Buffer := do
  let filtered ← bufferNew fresh
  (b.buffer.take b.used).foldlM
    (fun filtered c => if filter c ^^ invert then bufferAppendChar fresh filtered c else some filtered) filtered

/-- `BufferRewrite`; the new buffer and the old one allocate in their own memory. -/
def bufferRewrite (fresh fresh' : Memory) (b : Buffer) (filter : UInt8 → Bool) (invert : Bool) : Option Buffer := do
  let rewrite ← bufferFilter fresh' b filter invert
  bufferSet fresh b (rewrite.buffer.take rewrite.used)

/-! ## Runs -/

inductive BufferOp where
  | set (bytes : Bytes)
  | append (bytes : Bytes)
  | appendString (str : CString)
  | appendChar (byte : UInt8) (h : byte ≠ 0)
  | appendF (text : Bytes)
  | printf (printed : Printed)
  | trimToMaxLength (max : ℕ)
  | clear
  | setMode (mode : BufferBehavior)
  | rewrite (filter : UInt8 → Bool) (invert : Bool)

def bufferStep (fresh fresh' : Memory) (b : Buffer) : BufferOp → Option Buffer
  | .set bytes => bufferSet fresh b bytes
  | .append bytes => bufferAppend fresh b bytes
  | .appendString str => bufferAppendString fresh b str
  | .appendChar byte _ => bufferAppendChar fresh b byte
  | .appendF text => bufferAppendF fresh b text
  | .printf printed => bufferPrintf fresh b printed
  | .trimToMaxLength max => bufferTrimToMaxLength b max
  | .clear => bufferClear b
  | .setMode mode => some (bufferSetMode b mode)
  | .rewrite filter invert => bufferRewrite fresh fresh' b filter invert

/-- The buffers after operations that meet a condition on the buffer before. -/
inductive BufferReaches (P : Buffer → BufferOp → Prop) (start : Buffer) : Buffer → Prop where
  | start : BufferReaches P start start
  | step {b b' : Buffer} (fresh fresh' : Memory) (op : BufferOp) : BufferReaches P start b → P b op →
      bufferStep fresh fresh' b op = some b' → BufferReaches P start b'

end Libntech.Containers
