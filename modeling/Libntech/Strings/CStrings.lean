import Libntech.Json.Element
import Libntech.Lib.Terminated
import Mathlib.Algebra.Group.Nat.Defs

/-! # Strings in memory

A string is what stands in front of the first NUL of a memory.
-/
namespace Libntech.Strings
set_option autoImplicit false

open Libntech.Json (Bytes CString)

/-- What ends a call: a signed overflow or an access outside of an array, which have no meaning in C, or
`ProgrammingError`. -/
inductive Halt where
  | overflow
  | outOfBounds
  | programmingError
  deriving DecidableEq

/-- The string at the beginning of a memory. -/
def text (mem : Bytes) : Bytes := mem.takeWhile (· ≠ 0)

theorem text_append_nul {bytes : Bytes} (rest : Bytes) (h : 0 ∉ bytes) : text (bytes ++ 0 :: rest) = bytes :=
  Lib.takeWhile_ne_terminated h rest

theorem text_terminated (str : CString) (rest : Bytes) : text (str.bytes ++ 0 :: rest) = str.bytes :=
  text_append_nul rest str.nul_free

theorem nul_not_mem_text (mem : Bytes) : 0 ∉ text mem := Lib.notMem_takeWhile_ne 0 mem

theorem getElem?_text {mem : Bytes} {i : ℕ} {c : UInt8} (h : (text mem)[i]? = some c) : mem[i]? = some c := by
  obtain ⟨hi, rfl⟩ := List.getElem?_eq_some_iff.mp h
  exact List.prefix_iff_getElem?.mp (List.takeWhile_prefix _) i hi

end Libntech.Strings
