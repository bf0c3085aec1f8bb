import Libntech.Csv.Writer
import Libntech.Lib.CheckedArray
import Libntech.Mustache.Tags
import Mathlib.Data.Int.Notation

/-! # Replacing in a string (`libutils/string_lib.c`)

`StringReplaceN` works on the memory `buf`, which may be longer than `buf_size`; `tmp` is on the stack, and what it holds
first is a parameter. A copy that leaves its memory is a fault. All strings are in one memory, so that no sum of their
lengths is too large for a `size_t`.
-/
namespace Libntech.Strings
set_option autoImplicit false

open Libntech.Json (Bytes)
open Libntech.Lib (Fault)
open Libntech.Mustache (findFirst strstr)
open Libntech.Csv (writerWrite writerWriteLen)

/-- The C string at the beginning of a memory. -/
def cString (mem : Bytes) : Except Fault Bytes :=
  if 0 ∈ mem then .ok (mem.takeWhile (· ≠ 0)) else .error .outOfBounds

/-- `memcpy(&dst[i], &src[j], len)` -/
def memcpy (dst : Bytes) (i : ℕ) (src : Bytes) (j len : ℕ) : Except Fault Bytes :=
  if i + len ≤ dst.length ∧ j + len ≤ src.length then
    .ok (dst.take i ++ (src.drop j).take len ++ dst.drop (i + len))
  else .error .outOfBounds

/-! ## StringReplaceN -/

/-- The variables of the loop. -/
structure Replacing where
  tmp : Bytes
  tmp_len : ℕ
  buf_idx : ℕ

/-- The body of the loop, for an occurrence at `buf_newidx`; `none` is the return of -1. -/
def replaceOne (buf find replace : Bytes) (buf_size : ℕ) (s : Replacing) (buf_newidx : ℕ) :
    Except Fault (Option Replacing) :=
  let prefix_len := buf_newidx - s.buf_idx
  if buf_size ≤ s.tmp_len + prefix_len + replace.length then .ok none
  else do
    let tmp ← memcpy s.tmp s.tmp_len buf s.buf_idx prefix_len
    let tmp_len := s.tmp_len + prefix_len
    let tmp ← memcpy tmp tmp_len replace 0 replace.length
    return some ⟨tmp, tmp_len + replace.length, buf_newidx + find.length⟩

/-- The loop, as long as there are replacements left to make. -/
def replaceLoop (buf text find replace : Bytes) (buf_size : ℕ) : ℕ → Replacing → ℕ → Except Fault (Option Replacing)
  | 0, s, _ => .ok (some s)
  | n + 1, s, p => do
    match ← replaceOne buf find replace buf_size s p with
    | none => return none
    | some s =>
      match strstr text s.buf_idx find with
      | none => return some s
      | some p => replaceLoop buf text find replace buf_size n s p

/-- The result and what is in the memory then. -/
def stringReplaceN (stack : ℕ → UInt8) (buf : Bytes) (buf_size : ℕ) (find replace : Bytes) (n : ℕ) :
    Except Fault (ℤ × Bytes) := do
  if n = 0 then return (0, buf)
  else
    let text ← cString buf
    match strstr text 0 find with
    | none => return (0, buf)
    | some p =>
      let start : Replacing := ⟨(List.range buf_size).map stack, 0, 0⟩
      match ← replaceLoop buf text find replace buf_size n start p with
      | none => return (-1, buf)
      | some s =>
        let leftover_len := text.length - s.buf_idx
        if buf_size ≤ s.tmp_len + leftover_len then return (-1, buf)
        else
          let tmp ← memcpy s.tmp s.tmp_len buf s.buf_idx (leftover_len + 1)
          let tmp_len := s.tmp_len + leftover_len
          let buf ← memcpy buf 0 tmp 0 (tmp_len + 1)
          return ((tmp_len : ℤ), buf)

def stringReplace (stack : ℕ → UInt8) (buf : Bytes) (buf_size : ℕ) (find replace : Bytes) : Except Fault (ℤ × Bytes) :=
  stringReplaceN stack buf buf_size find replace buf_size

/-! ## SearchAndReplace -/

theorem findFirst_bound {needle text : Bytes} {k : ℕ} (h : findFirst needle text = some k) :
    k + needle.length ≤ text.length := by
  fun_induction findFirst needle text generalizing k with
  | case1 hempty =>
    obtain rfl := Option.some.inj h
    rw [List.isEmpty_iff.mp hempty]
    exact Nat.le_refl 0
  | case2 hempty => cases h
  | case3 c rest hstarts =>
    obtain rfl := Option.some.inj h
    rw [Nat.zero_add]
    exact (List.isPrefixOf_iff_prefix.mp hstarts).length_le
  | case4 c rest hstarts ih =>
    obtain ⟨j, hj, rfl⟩ := Option.map_eq_some_iff.mp h
    have hle := ih hj
    rw [List.length_cons]
    omega

/-- The loop; `w` is what was written. -/
def searchLoop (search replace : Bytes) (hsearch : search ≠ []) (w source : Bytes) : Bytes :=
  match _h : findFirst search source with
  | none => writerWrite w source
  | some found =>
    searchLoop search replace hsearch (writerWrite (writerWriteLen w source found) replace)
      (source.drop (found + search.length))
termination_by source.length
decreasing_by
  have hle := findFirst_bound _h
  have hpos := List.length_pos_iff.mpr hsearch
  rw [List.length_drop]
  omega

def searchAndReplace (source search replace : Bytes) : Bytes :=
  if h : search = [] then source else searchLoop search replace h [] source

end Libntech.Strings
