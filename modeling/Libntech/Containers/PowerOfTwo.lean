import Libntech.Containers.BufferMeaning
import Libntech.Containers.Map
import Libntech.Lib.Smearing

/-! # Rounding up to a power of two (`UpperPowerOfTwo`)

The shifts are those for 32 bits: they smear every bit over the 31 places below it. So the result is a power of two as
long as no 32 zeros in a row stand below the highest one of `v - 1`, and in particular up to `2 ^ 32`.
-/
namespace Libntech.Containers
set_option autoImplicit false

open Libntech.Lib

theorem smeared_shifts (v : ℕ) : Smeared v (smear v [1, 2, 4, 8, 16]) 32 := smeared_doubling v 5

theorem upperPowerOfTwo_eq {v : ℕ} (hpos : 1 ≤ v) (hv : v ≤ 2 ^ 63) :
    upperPowerOfTwo v = smear (v - 1) [1, 2, 4, 8, 16] + 1 := by
  have hfirst : (v + (2 ^ 64 - 1)) % 2 ^ 64 = v - 1 := by omega
  have hlast := (smeared_shifts (v - 1)).lt (p := 63) (by omega)
  rw [upperPowerOfTwo, hfirst]
  exact Nat.mod_eq_of_lt (Nat.lt_of_le_of_lt hlast (by decide))

theorem buffer_upperPowerOfTwo_eq (needed : ℕ) : Buffer.upperPowerOfTwo (needed + 1) = smear needed [1, 2, 4, 8, 16] + 1 := rfl

/-- Rounding gives the least power of two exactly where the shifts reach every place. -/
theorem upperPowerOfTwo_isLeast_iff {v : ℕ} (hpos : 1 ≤ v) (hv : v ≤ 2 ^ 63) :
    IsLeast {p : ℕ | p.isPowerOfTwo ∧ v ≤ p} (upperPowerOfTwo v) ↔ GapFree 32 (v - 1) := by
  have hset : {p : ℕ | p.isPowerOfTwo ∧ v ≤ p} = {p : ℕ | p.isPowerOfTwo ∧ v - 1 < p} := by
    ext p
    simp only [Set.mem_ofPred_eq, and_congr_right_iff]
    omega
  rw [hset, upperPowerOfTwo_eq hpos hv]
  exact (smeared_shifts (v - 1)).isLeast_iff (by decide)

theorem expandIfNeeded_capacity_iff (fresh : Memory) (b : Buffer) (needed : ℕ) :
    (expandIfNeeded fresh b needed).capacity.isPowerOfTwo ∧ needed < (expandIfNeeded fresh b needed).capacity ↔
      if b.capacity ≤ needed then GapFree 32 needed else b.capacity.isPowerOfTwo := by
  unfold expandIfNeeded
  by_cases hneed : b.capacity ≤ needed
  · rw [if_pos hneed, if_pos hneed]
    show (Buffer.upperPowerOfTwo (needed + 1)).isPowerOfTwo ∧ needed < Buffer.upperPowerOfTwo (needed + 1) ↔ _
    rw [and_iff_left (le_upperPowerOfTwo needed), buffer_upperPowerOfTwo_eq]
    have hsmeared := smeared_shifts needed
    exact ⟨hsmeared.gapFree (by decide), fun hgap => ((hsmeared.isLeast_iff (by decide)).mpr hgap).1.1⟩
  · rw [if_neg hneed, if_neg hneed, and_iff_left (by omega)]

/-- Both for the rounding and for the capacity of a buffer. -/
theorem upperPowerOfTwo_iff {v : ℕ} (hpos : 1 ≤ v) (hv : v ≤ 2 ^ 63) (fresh : Memory) (b : Buffer) (needed : ℕ) :
    (IsLeast {p : ℕ | p.isPowerOfTwo ∧ v ≤ p} (upperPowerOfTwo v) ↔ GapFree 32 (v - 1)) ∧
    ((expandIfNeeded fresh b needed).capacity.isPowerOfTwo ∧ needed < (expandIfNeeded fresh b needed).capacity ↔
      if b.capacity ≤ needed then GapFree 32 needed else b.capacity.isPowerOfTwo) :=
  ⟨upperPowerOfTwo_isLeast_iff hpos hv, expandIfNeeded_capacity_iff fresh b needed⟩

theorem upperPowerOfTwo_iff_thousand :
    (IsLeast {p : ℕ | p.isPowerOfTwo ∧ 1000 ≤ p} (upperPowerOfTwo 1000) ↔ GapFree 32 999) ∧
    ((expandIfNeeded (fun _ _ => 0) ⟨[0, 0], .cstring, 2, 0⟩ 999).capacity.isPowerOfTwo ∧
        999 < (expandIfNeeded (fun _ _ => 0) ⟨[0, 0], .cstring, 2, 0⟩ 999).capacity ↔
      if 2 ≤ 999 then GapFree 32 999 else (2 : ℕ).isPowerOfTwo) :=
  upperPowerOfTwo_iff (by decide) (by decide) _ _ 999

/-- The first number for which the shifts are too few: 32 zeros stand below the highest one of `2 ^ 32`. -/
theorem upperPowerOfTwo_misses : ¬ IsLeast {p : ℕ | p.isPowerOfTwo ∧ 2 ^ 32 + 1 ≤ p} (upperPowerOfTwo (2 ^ 32 + 1)) ∧
    ¬ (expandIfNeeded (fun _ _ => 0) ⟨[0], .cstring, 1, 0⟩ (2 ^ 32)).capacity.isPowerOfTwo := by
  have hodd : ¬ (2 ^ 33 - 1 : ℕ).isPowerOfTwo := by
    rintro ⟨k, hk⟩
    cases k with
    | zero => cases hk
    | succ k =>
      rw [Nat.pow_succ] at hk
      omega
  have hvalue : upperPowerOfTwo (2 ^ 32 + 1) = 2 ^ 33 - 1 := by decide
  exact ⟨fun h => hodd (hvalue ▸ h.1.1), hodd⟩

end Libntech.Containers
