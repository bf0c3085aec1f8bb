import Mathlib.Algebra.Group.Nat.Defs
import Mathlib.Data.Nat.Log
import Mathlib.Order.Bounds.Defs

/-! # Smearing the bits of a number

`v ||| v >>> 1`, then by 2, by 4 and so on: after `k` turns every bit has been copied to the `2 ^ k - 1` places below it.
If no `2 ^ k` zeros in a row stand below the highest one, these are all places below it, and the next number is a power
of two.
-/
namespace Libntech.Lib
set_option autoImplicit false

def smear (v : ℕ) (shifts : List ℕ) : ℕ := shifts.foldl (fun v n => v ||| v >>> n) v

/-- `w` has the bits of `v`, and each of them at the `n - 1` places below. -/
def Smeared (v w n : ℕ) : Prop := ∀ i, w.testBit i = true ↔ ∃ d < n, v.testBit (i + d) = true

/-- No `n` zeros in a row below the highest one. -/
def GapFree (n v : ℕ) : Prop := ∀ j, 2 ^ (j + n) ≤ v → v / 2 ^ j % 2 ^ n ≠ 0

variable {v w n p : ℕ}

theorem Smeared.double (h : Smeared v w n) : Smeared v (w ||| w >>> n) (n + n) := by
  intro i
  rw [Nat.testBit_or, Nat.testBit_shiftRight, Bool.or_eq_true, h i, h (n + i)]
  constructor
  · rintro (⟨d, hd, hbit⟩ | ⟨d, hd, hbit⟩)
    · exact ⟨d, by omega, hbit⟩
    · refine ⟨n + d, by omega, ?_⟩
      rwa [← Nat.add_assoc, Nat.add_comm i]
  · rintro ⟨d, hd, hbit⟩
    by_cases hlow : d < n
    · exact .inl ⟨d, hlow, hbit⟩
    · refine .inr ⟨d - n, by omega, ?_⟩
      have hplace : n + i + (d - n) = i + d := by omega
      rwa [hplace]

theorem smeared_self (v : ℕ) : Smeared v v 1 := by
  intro i
  constructor
  · exact fun h => ⟨0, Nat.zero_lt_one, h⟩
  · rintro ⟨d, hd, h⟩
    obtain rfl : d = 0 := by omega
    exact h

theorem smear_snoc (v : ℕ) (shifts : List ℕ) (n : ℕ) :
    smear v (shifts ++ [n]) = smear v shifts ||| smear v shifts >>> n := by
  rw [smear, List.foldl_append]
  rfl

theorem smeared_doubling (v k : ℕ) : Smeared v (smear v ((List.range k).map (2 ^ ·))) (2 ^ k) := by
  induction k with
  | zero => exact smeared_self v
  | succ k ih =>
    rw [List.range_succ, List.map_append, List.map_singleton, smear_snoc, Nat.pow_succ, Nat.mul_two]
    exact ih.double

/-! ## The highest one -/

theorem Smeared.lt (h : Smeared v w n) (hv : v < 2 ^ p) : w < 2 ^ p := by
  refine Nat.lt_pow_two_of_testBit w fun i hi => ?_
  rw [← Bool.not_eq_true, h i]
  rintro ⟨d, -, hbit⟩
  have hzero := Nat.testBit_lt_two_pow (i := i + d) (Nat.lt_of_lt_of_le hv (Nat.pow_le_pow_right Nat.two_pos (by omega)))
  rw [hzero] at hbit
  cases hbit

/-- A one stands among the `n` places from each place up to the highest one on. -/
theorem GapFree.bit (h : GapFree n v) (hlow : 2 ^ p ≤ v) (hhigh : v < 2 ^ (p + 1)) {j : ℕ} (hj : j ≤ p) :
    ∃ d < n, v.testBit (j + d) = true := by
  by_cases hfar : j + n ≤ p
  · obtain ⟨d, hbit⟩ := Nat.exists_testBit_of_ne_zero (h j ((Nat.pow_le_pow_right Nat.two_pos hfar).trans hlow))
    rw [Nat.testBit_mod_two_pow, Nat.testBit_div_two_pow, Bool.and_eq_true, decide_eq_true_eq, Nat.add_comm] at hbit
    exact ⟨d, hbit.1, hbit.2⟩
  · refine ⟨p - j, by omega, ?_⟩
    rw [Nat.add_sub_cancel' hj]
    exact Nat.testBit_of_two_pow_le_and_two_pow_add_one_gt hlow hhigh

theorem Smeared.succ_of_gapFree (h : Smeared v w n) (hgap : GapFree n v) (hlow : 2 ^ p ≤ v) (hhigh : v < 2 ^ (p + 1)) :
    w + 1 = 2 ^ (p + 1) := by
  have hones : w = 2 ^ (p + 1) - 1 := by
    refine Nat.eq_of_testBit_eq fun i => ?_
    rw [Nat.testBit_two_pow_sub_one]
    by_cases hi : i < p + 1
    · rw [decide_eq_true hi]
      exact (h i).mpr (hgap.bit hlow hhigh (by omega))
    · rw [decide_eq_false hi]
      exact Nat.testBit_lt_two_pow (Nat.lt_of_lt_of_le (h.lt hhigh) (Nat.pow_le_pow_right Nat.two_pos (by omega)))
  have hpos := Nat.two_pow_pos (p + 1)
  omega

theorem Smeared.gapFree (h : Smeared v w n) (hn : 0 < n) (hpower : (w + 1).isPowerOfTwo) : GapFree n v := by
  obtain ⟨k, hk⟩ := hpower
  have hones : w = 2 ^ k - 1 := by omega
  intro j hj hzero
  have hv : v ≠ 0 := by
    have hpos := Nat.two_pow_pos (j + n)
    omega
  -- the highest one is in `w` as well, so `w` reaches beyond `j`
  have hlog := Nat.le_log_of_pow_le Nat.one_lt_two hj
  have htop : w.testBit (Nat.log 2 v) = true := (h _).mpr ⟨0, hn, Nat.testBit_of_two_pow_le_and_two_pow_add_one_gt
    (Nat.pow_log_le_self 2 hv) (Nat.lt_pow_succ_log_self Nat.one_lt_two v)⟩
  rw [hones, Nat.testBit_two_pow_sub_one, decide_eq_true_eq] at htop
  have hbit : w.testBit j = true := by
    rw [hones, Nat.testBit_two_pow_sub_one, decide_eq_true_eq]
    omega
  obtain ⟨d, hd, hone⟩ := (h j).mp hbit
  have hsame : (v / 2 ^ j % 2 ^ n).testBit d = true := by
    rw [Nat.testBit_mod_two_pow, Nat.testBit_div_two_pow, decide_eq_true hd, Bool.true_and, Nat.add_comm]
    exact hone
  rw [hzero, Nat.zero_testBit] at hsame
  cases hsame

/-- The number behind the smeared one is the least power of two above `v`, or no power of two. -/
theorem Smeared.isLeast_iff (h : Smeared v w n) (hn : 0 < n) :
    IsLeast {m : ℕ | m.isPowerOfTwo ∧ v < m} (w + 1) ↔ GapFree n v := by
  constructor
  · exact fun hleast => h.gapFree hn hleast.1.1
  · intro hgap
    by_cases hv : v = 0
    · subst hv
      have hzero : w = 0 := by
        have hlt := h.lt (p := 0) (by omega)
        omega
      subst hzero
      exact ⟨⟨⟨0, rfl⟩, Nat.zero_lt_one⟩, fun m hm => hm.2⟩
    · have hhigh := Nat.lt_pow_succ_log_self Nat.one_lt_two v
      rw [h.succ_of_gapFree hgap (Nat.pow_log_le_self 2 hv) hhigh]
      refine ⟨⟨⟨_, rfl⟩, hhigh⟩, ?_⟩
      rintro m ⟨⟨k, rfl⟩, hm⟩
      exact Nat.pow_le_pow_right Nat.two_pos (Nat.log_lt_of_lt_pow hv hm)

theorem gapFree_of_lt (h : v < 2 ^ n) : GapFree n v := by
  intro j hj
  have hmono := Nat.pow_le_pow_right Nat.two_pos (Nat.le_add_left n j)
  omega

end Libntech.Lib
