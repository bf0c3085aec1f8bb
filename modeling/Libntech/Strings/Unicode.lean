import Libntech.Json.Element
import Libntech.Lib.CheckedArray
import Mathlib.Algebra.Group.Nat.Defs
import Mathlib.Data.Int.Notation
import Mathlib.Data.UInt

/-! # Code units (`libutils/unicode.c`)

Both conversions are one loop: at most `size - 1` units up to the NUL, then a NUL. The bytes are of type `char`, which is
signed, so that a byte of 128 or more becomes a negative unit, and the way back knows no negative ones.
-/
namespace Libntech.Strings
set_option autoImplicit false

open Libntech.Json (Bytes CString)
open Libntech.Lib (Fault)

/-- The loop with room for so many units; the unit that is written comes with whether it is the one that was read. -/
def convertLoop {α β : Type} [DecidableEq α] [Zero α] [Zero β] (convert : α → Bool × β) :
    ℕ → List β → List α → Except Fault (Bool × List β)
  | 0, _ :: dst, _ => .ok (true, 0 :: dst)
  | room + 1, _ :: dst, c :: src =>
    if c = 0 then .ok (true, 0 :: dst)
    else do
      let (clean, dst) ← convertLoop convert room dst src
      return ((convert c).1 && clean, (convert c).2 :: dst)
  | _, _, _ => .error .outOfBounds

def convertFromCharToWChar (dst : List Int16) (src : Bytes) (size : ℕ) : Except Fault (List Int16) := do
  let (_, dst) ← convertLoop (fun c : UInt8 => (true, c.toInt8.toInt16)) (size - 1) dst src
  return dst

def convertFromWCharToChar (dst : Bytes) (src : List Int16) (size : ℕ) : Except Fault (Bool × Bytes) :=
  convertLoop (fun c : Int16 => if c < 0 ∨ 256 ≤ c then (false, '_'.toUInt8) else (true, c.toInt8.toUInt8)) (size - 1) dst src

/-- Memory for at least so many elements. -/
structure Block (α : Type) (size : ℕ) where
  cells : List α
  fits : size ≤ cells.length

theorem convertLoop_ok {α β : Type} [DecidableEq α] [Zero α] [Zero β] (convert : α → Bool × β) {units : List α}
    (hunits : 0 ∉ units) (rest : List α) {room : ℕ} {dst : List β} (hroom : room < dst.length) :
    ∃ tail, convertLoop convert room dst (units ++ 0 :: rest) =
      .ok ((units.take room).all fun c => (convert c).1, (units.take room).map (fun c => (convert c).2) ++ 0 :: tail) := by
  induction room generalizing units dst with
  | zero =>
    cases dst with
    | nil => cases hroom
    | cons d dst => exact ⟨dst, rfl⟩
  | succ room ih =>
    cases dst with
    | nil => cases hroom
    | cons d dst =>
      cases units with
      | nil => exact ⟨dst, by rw [List.nil_append, convertLoop, if_pos rfl]; rfl⟩
      | cons c units =>
        have hne : c ≠ 0 := fun h => hunits (h ▸ List.mem_cons_self)
        obtain ⟨tail, htail⟩ := ih (fun h => hunits (List.mem_cons_of_mem _ h)) (Nat.lt_of_succ_lt_succ hroom)
        refine ⟨tail, ?_⟩
        rw [List.cons_append, convertLoop, if_neg hne, htail]
        rfl

/-! ## There and back -/

/-- The byte as a unit. -/
def wide (c : UInt8) : Int16 := c.toInt8.toInt16

theorem wide_toInt (c : UInt8) : (wide c).toInt = if c.toNat < 128 then (c.toNat : ℤ) else c.toNat - 256 := by
  have hlt := c.toNat_lt
  rw [wide, Int8.toInt_toInt16]
  show c.toBitVec.toInt = _
  rw [BitVec.toInt_eq_toNat_cond]
  have hsame : c.toBitVec.toNat = c.toNat := rfl
  rw [hsame]
  split
  all_goals split
  all_goals omega

theorem wide_nonzero {c : UInt8} (h : c ≠ 0) : wide c ≠ 0 := by
  have hlt := c.toNat_lt
  have hpos : c.toNat ≠ 0 := fun hzero => h (UInt8.toNat_inj.mp hzero)
  intro hnul
  have hvalue := wide_toInt c
  rw [hnul, Int16.toInt_zero] at hvalue
  split at hvalue
  all_goals omega

theorem wide_clean_iff (c : UInt8) : ¬ (wide c < 0 ∨ 256 ≤ wide c) ↔ c < 128 := by
  have hlt := c.toNat_lt
  rw [Int16.lt_iff_toInt_lt, Int16.le_iff_toInt_le, UInt8.lt_iff_toNat_lt, wide_toInt]
  show ¬ (_ < 0 ∨ 256 ≤ _) ↔ c.toNat < 128
  split
  all_goals omega

theorem wide_back (c : UInt8) : (wide c).toInt8.toUInt8 = c := by
  rw [wide, Int8.toInt8_toInt16]
  rfl

/-- The unit that comes back, and whether it is the one of the byte. -/
theorem narrowed_wide (c : UInt8) :
    (if wide c < 0 ∨ 256 ≤ wide c then (false, '_'.toUInt8) else (true, (wide c).toInt8.toUInt8)) =
      if c < 128 then (true, c) else (false, '_'.toUInt8) := by
  rw [wide_back]
  by_cases h : c < 128
  · rw [if_pos h, if_neg ((wide_clean_iff c).mpr h)]
  · rw [if_neg h, if_pos (not_not.mp (mt (wide_clean_iff c).mp h))]

/-- The bytes come back, and are reported as clean, exactly if none that there is room for is 128 or more. -/
theorem convert_back_iff (str : CString) (rest : Bytes) (n : ℕ) (units : Block Int16 (n + 1)) (dst : Block UInt8 (n + 1)) :
    (∃ tail, (do
        let units ← convertFromCharToWChar units.cells (str.bytes ++ 0 :: rest) (n + 1)
        convertFromWCharToChar dst.cells units (n + 1)) = .ok (true, str.bytes.take n ++ 0 :: tail)) ↔
      ∀ c ∈ str.bytes.take n, c < 128 := by
  obtain ⟨left, hunits⟩ := convertLoop_ok (fun c : UInt8 => (true, c.toInt8.toInt16)) str.nul_free rest
    (Nat.lt_of_succ_le units.fits)
  have hwide : convertFromCharToWChar units.cells (str.bytes ++ 0 :: rest) (n + 1) =
      .ok ((str.bytes.take n).map wide ++ 0 :: left) := by
    rw [convertFromCharToWChar, Nat.add_sub_cancel, hunits]
    rfl
  have hnul : 0 ∉ (str.bytes.take n).map wide := by
    intro hmem
    obtain ⟨c, hc, hzero⟩ := List.mem_map.mp hmem
    exact wide_nonzero (fun h => str.nul_free (h ▸ List.mem_of_mem_take hc)) hzero
  obtain ⟨tail, hback⟩ := convertLoop_ok
    (fun c : Int16 => if c < 0 ∨ 256 ≤ c then (false, '_'.toUInt8) else (true, c.toInt8.toUInt8)) hnul left
    (Nat.lt_of_succ_le dst.fits)
  have hroom : ((str.bytes.take n).map wide).take n = (str.bytes.take n).map wide := by
    rw [← List.map_take, List.take_take, Nat.min_self]
  simp only [hroom, List.all_map, List.map_map, Function.comp_def, narrowed_wide] at hback
  rw [hwide, Lib.ok_bind, convertFromWCharToChar, Nat.add_sub_cancel, hback]
  constructor
  · rintro ⟨tail', h⟩ c hc
    injection h with h
    have hclean := List.all_eq_true.mp (Prod.mk.inj h).1 c hc
    by_contra hlarge
    rw [if_neg hlarge] at hclean
    cases hclean
  · intro hplain
    refine ⟨tail, congrArg _ (Prod.ext ?_ ?_)⟩
    · refine List.all_eq_true.mpr fun c hc => ?_
      rw [if_pos (hplain c hc)]
    · have hsame : (str.bytes.take n).map (fun c => (if c < 128 then (true, c) else (false, '_'.toUInt8)).2) =
          str.bytes.take n := by
        refine (List.map_congr_left fun c hc => ?_).trans (List.map_id _)
        rw [if_pos (hplain c hc)]
        rfl
      exact congrArg (· ++ 0 :: tail) hsame

/-- The first byte that is not ASCII. -/
theorem byte_lost : ¬ ∃ tail, (do
    let units ← convertFromCharToWChar [0, 0] [128, 0] 2
    convertFromWCharToChar [0, 0] units 2) = .ok (true, [128] ++ 0 :: tail) := by
  have hlost : (do
    let units ← convertFromCharToWChar [0, 0] [128, 0] 2
    convertFromWCharToChar [0, 0] units 2) = .ok (false, ['_'.toUInt8, 0]) := by rfl
  rintro ⟨tail, h⟩
  rw [hlost] at h
  cases h

end Libntech.Strings
