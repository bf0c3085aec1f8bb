import Libntech.Strings.Substring

/-! # Prefixes (`StringStartsWith`)

Both lengths are of type `int`. A string of 2^31 characters or more has the length that is left of it, which may be
negative or small, and then no prefix is found in it.
-/
namespace Libntech.Strings
set_option autoImplicit false

open Libntech.Json (Bytes)

def stringStartsWith (str pre : Bytes) : Bool :=
  let str_len := toInt str.length
  let prefix_len := toInt pre.length
  if prefix_len > str_len then false
  -- the loop, with no turn for a negative length
  else (pre.take prefix_len.toNat).isPrefixOf str

/-- A string of so many characters is not taken for one that is too short for the prefix. -/
def Seen (pre : Bytes) (n : ℕ) : Prop := (pre.length : ℤ) ≤ toInt n

instance (pre : Bytes) (n : ℕ) : Decidable (Seen pre n) := inferInstanceAs (Decidable (_ ≤ _))

theorem toInt_of_lt {n : ℕ} (h : n < 2 ^ 31) : toInt n = n := Int.bmod_eq_of_le (by omega) (by omega)

theorem seen_of_lt {pre : Bytes} {n : ℕ} (hle : pre.length ≤ n) (h : n < 2 ^ 31) : Seen pre n := by
  rw [Seen, toInt_of_lt h]
  exact Int.ofNat_le.mpr hle

theorem stringStartsWith_iff {pre : Bytes} (hpre : pre.length < 2 ^ 31) (str : Bytes) :
    stringStartsWith str pre = true ↔ pre.isPrefixOf str = true ∧ Seen pre str.length := by
  rw [stringStartsWith, Seen, toInt_of_lt hpre, Int.toNat_natCast, List.take_length]
  by_cases hseen : (pre.length : ℤ) ≤ toInt str.length
  · rw [if_neg (by omega)]
    exact (and_iff_left hseen).symm
  · rw [if_pos (by omega)]
    exact iff_of_false Bool.false_ne_true fun h => hseen h.2

/-- The first length that is not an `int`. -/
example : ¬ Seen [0] (2 ^ 31) := by decide

end Libntech.Strings
