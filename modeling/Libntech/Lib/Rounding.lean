import Mathlib.Algebra.Order.Field.Power
import Mathlib.Algebra.Order.Field.Rat
import Mathlib.Data.Nat.Log
import Mathlib.Tactic.FieldSimp
import Mathlib.Tactic.Linarith
import Mathlib.Tactic.Positivity
import Mathlib.Tactic.Ring

/-! # Rounding to the nearest number

`roundEven a b` is the whole number nearest to `a / b`, and `roundFloat p emin a b` the nearest number of `p` binary
digits; a tie goes to the even one. What matters of the first is `RoundsTo`, which has one solution, and of the second
that no other number of the format is nearer.
-/
namespace Libntech.Lib
set_option autoImplicit false

/-! ## Whole numbers -/

def roundEven (a b : ℕ) : ℕ :=
  if b < 2 * (a % b) ∨ (b = 2 * (a % b) ∧ a / b % 2 = 1) then a / b + 1 else a / b

/-- The whole number `n` is nearest to `x`, and even if there is another one as near. -/
structure RoundsTo (x : ℚ) (n : ℕ) : Prop where
  near : |(n : ℚ) - x| ≤ 1 / 2
  even : |(n : ℚ) - x| = 1 / 2 → n % 2 = 0

theorem roundEven_roundsTo {a b : ℕ} (hb : 0 < b) : RoundsTo (a / b) (roundEven a b) := by
  have hb' : (0 : ℚ) < b := by exact_mod_cast hb
  have hsplit : (a : ℚ) = b * (a / b : ℕ) + (a % b : ℕ) := by exact_mod_cast (Nat.div_add_mod a b).symm
  have hrest : a % b < b := Nat.mod_lt a hb
  have hx : (a : ℚ) / b = (a / b : ℕ) + (a % b : ℕ) / b := by
    rw [hsplit]
    field_simp
  rw [hx]
  unfold roundEven
  generalize a / b = q at *
  generalize a % b = r at *
  have hr0 : (0 : ℚ) ≤ (r : ℚ) / b := by positivity
  split
  · rename_i hup
    have hhalf : (1 : ℚ) / 2 ≤ (r : ℚ) / b := by
      rw [div_le_div_iff₀ (by norm_num) hb']
      have : b ≤ 2 * r := by omega
      have : (b : ℚ) ≤ 2 * r := by exact_mod_cast this
      linarith
    have hone : (r : ℚ) / b ≤ 1 := by
      rw [div_le_one hb']
      exact_mod_cast hrest.le
    have habs : |((q + 1 : ℕ) : ℚ) - (q + (r : ℚ) / b)| = 1 - (r : ℚ) / b := by
      rw [Nat.cast_add, Nat.cast_one, add_sub_add_left_eq_sub, abs_of_nonneg (by linarith)]
    refine ⟨by rw [habs]; linarith, fun htie => ?_⟩
    rw [habs] at htie
    have heq : (r : ℚ) / b = 1 / 2 := by linarith
    rw [div_eq_div_iff hb'.ne' (by norm_num)] at heq
    have heq : r * 2 = 1 * b := by exact_mod_cast heq
    omega
  · rename_i hdown
    have hhalf : (r : ℚ) / b ≤ 1 / 2 := by
      rw [div_le_div_iff₀ hb' (by norm_num)]
      have : r * 2 ≤ 1 * b := by omega
      exact_mod_cast this
    have habs : |(q : ℚ) - (q + (r : ℚ) / b)| = (r : ℚ) / b := by
      rw [sub_add_cancel_left, abs_neg, abs_of_nonneg hr0]
    refine ⟨by rw [habs]; exact hhalf, fun htie => ?_⟩
    rw [habs, div_eq_div_iff hb'.ne' (by norm_num)] at htie
    have heq : r * 2 = 1 * b := by exact_mod_cast htie
    omega

theorem one_le_distances (x : ℚ) {m n : ℕ} (h : m ≠ n) : 1 ≤ |(m : ℚ) - x| + |(n : ℚ) - x| := by
  have hdist : (1 : ℚ) ≤ |(m : ℚ) - n| := by
    have : (1 : ℤ) ≤ |(m : ℤ) - n| := Int.one_le_abs (by omega)
    exact_mod_cast this
  have hsplit := abs_sub_le (m : ℚ) x n
  rw [abs_sub_comm x] at hsplit
  exact hdist.trans hsplit

namespace RoundsTo

variable {x y : ℚ} {m n : ℕ}

theorem nearest (h : RoundsTo x n) (k : ℕ) : |(n : ℚ) - x| ≤ |(k : ℚ) - x| := by
  by_cases hk : n = k
  · rw [hk]
  have hdist := one_le_distances x hk
  linarith [h.near]

theorem unique (hm : RoundsTo x m) (hn : RoundsTo x n) : m = n := by
  by_contra hne
  have hdist := one_le_distances x hne
  have hm2 : |(m : ℚ) - x| = 1 / 2 := le_antisymm hm.near (by linarith [hn.near])
  have hn2 : |(n : ℚ) - x| = 1 / 2 := le_antisymm hn.near (by linarith [hm.near])
  have hm0 := hm.even hm2
  have hn0 := hn.even hn2
  -- two even numbers are not one apart
  have hbound : |(m : ℤ) - n| ≤ 1 := by
    have hsplit := abs_sub_le (m : ℚ) x n
    rw [abs_sub_comm x, hm2, hn2] at hsplit
    have : |(m : ℚ) - n| ≤ 1 := by linarith
    exact_mod_cast this
  obtain ⟨hlow, hhigh⟩ := abs_le.mp hbound
  omega

/-- A number that is nearer to `n` is rounded to it too. -/
theorem of_nearer (h : RoundsTo x n) (hnear : |(n : ℚ) - y| ≤ |(n : ℚ) - x|) : RoundsTo y n :=
  ⟨hnear.trans h.near, fun htie => h.even (le_antisymm h.near (htie ▸ hnear))⟩

end RoundsTo

/-! ## Numbers of a fixed precision -/

/-- The value `m * 2 ^ e`. -/
def floatValue (m : ℕ) (e : ℤ) : ℚ := m * 2 ^ e

/-- `a / b < 2 ^ p * 2 ^ e` -/
def fitsExponent (p a b : ℕ) (e : ℤ) : Prop := a * 2 ^ (-e).toNat < b * 2 ^ e.toNat * 2 ^ p

instance (p a b : ℕ) (e : ℤ) : Decidable (fitsExponent p a b e) :=
  inferInstanceAs (Decidable (a * 2 ^ (-e).toNat < b * 2 ^ e.toNat * 2 ^ p))

/-- The exponent that leaves `p` binary digits of `a / b`, or one less. -/
def leastExponent (p : ℕ) (emin : ℤ) (a b : ℕ) : ℤ := max emin ((Nat.log 2 a : ℤ) - Nat.log 2 b - p)

def floatExponent (p : ℕ) (emin : ℤ) (a b : ℕ) : ℤ :=
  if fitsExponent p a b (leastExponent p emin a b) then leastExponent p emin a b else leastExponent p emin a b + 1

/-- The mantissa and the exponent of the nearest number of `p` binary digits. -/
def roundFloat (p : ℕ) (emin : ℤ) (a b : ℕ) : ℕ × ℤ :=
  let e := floatExponent p emin a b
  (roundEven (a * 2 ^ (-e).toNat) (b * 2 ^ e.toNat), e)

section Floats

variable {p a b : ℕ} {emin : ℤ}

theorem zpow_toNat (q : ℚ) (e : ℤ) : q ^ e = q ^ e.toNat / q ^ (-e).toNat := by
  rcases Int.le_total 0 e with he | he
  · obtain ⟨n, rfl⟩ := Int.eq_ofNat_of_zero_le he
    simp
  · obtain ⟨n, hn⟩ := Int.eq_ofNat_of_zero_le (Int.neg_nonneg_of_nonpos he)
    have : e = -(n : ℤ) := by omega
    subst this
    simp

theorem scaled_eq (hb : 0 < b) (e : ℤ) :
    ((a * 2 ^ (-e).toNat : ℕ) : ℚ) / (b * 2 ^ e.toNat : ℕ) = a / b / 2 ^ e := by
  have hb' : (b : ℚ) ≠ 0 := by exact_mod_cast hb.ne'
  rw [zpow_toNat]
  push_cast
  field_simp

theorem fitsExponent_iff (hb : 0 < b) (e : ℤ) : fitsExponent p a b e ↔ (a : ℚ) / b < 2 ^ p * 2 ^ e := by
  have hb' : (0 : ℚ) < b := by exact_mod_cast hb
  have hpos : (0 : ℚ) < 2 ^ (-e).toNat := by positivity
  rw [fitsExponent, zpow_toNat, mul_div_assoc', div_lt_div_iff₀ hb' hpos]
  constructor
  · intro h
    have : ((a * 2 ^ (-e).toNat : ℕ) : ℚ) < (b * 2 ^ e.toNat * 2 ^ p : ℕ) := by exact_mod_cast h
    push_cast at this
    linarith
  · intro h
    have : ((a * 2 ^ (-e).toNat : ℕ) : ℚ) < (b * 2 ^ e.toNat * 2 ^ p : ℕ) := by
      push_cast
      linarith
    exact_mod_cast this

/-- The quotient is between the powers of two that the logarithms give. -/
theorem log_bounds (ha : 0 < a) (hb : 0 < b) :
    (2 : ℚ) ^ ((Nat.log 2 a : ℤ) - Nat.log 2 b - 1) ≤ a / b ∧
      (a : ℚ) / b < 2 ^ ((Nat.log 2 a : ℤ) - Nat.log 2 b + 1) := by
  have ha₀ : (2 : ℚ) ^ Nat.log 2 a ≤ a := by exact_mod_cast Nat.pow_log_le_self 2 ha.ne'
  have ha₁ : (a : ℚ) < 2 ^ (Nat.log 2 a + 1) := by exact_mod_cast Nat.lt_pow_succ_log_self (by decide) a
  have hb₀ : (2 : ℚ) ^ Nat.log 2 b ≤ b := by exact_mod_cast Nat.pow_log_le_self 2 hb.ne'
  have hb₁ : (b : ℚ) < 2 ^ (Nat.log 2 b + 1) := by exact_mod_cast Nat.lt_pow_succ_log_self (by decide) b
  have hb' : (0 : ℚ) < b := by exact_mod_cast hb
  have hlow : (2 : ℚ) ^ ((Nat.log 2 a : ℤ) - Nat.log 2 b - 1) = 2 ^ Nat.log 2 a / 2 ^ (Nat.log 2 b + 1) := by
    rw [sub_sub, zpow_sub₀ (by norm_num)]
    rfl
  have hhigh : (2 : ℚ) ^ ((Nat.log 2 a : ℤ) - Nat.log 2 b + 1) = 2 ^ (Nat.log 2 a + 1) / 2 ^ Nat.log 2 b := by
    rw [sub_add_eq_add_sub, zpow_sub₀ (by norm_num)]
    rfl
  rw [hlow, hhigh]
  exact ⟨div_le_div₀ (by positivity) ha₀ hb' hb₁.le, div_lt_div₀ ha₁ hb₀ (by positivity) (by positivity)⟩

theorem floatExponent_fits (ha : 0 < a) (hb : 0 < b) :
    (a : ℚ) / b < 2 ^ p * 2 ^ floatExponent p emin a b := by
  unfold floatExponent
  split
  · rename_i hfits
    exact (fitsExponent_iff hb _).mp hfits
  · refine (log_bounds ha hb).2.trans_le ?_
    rw [← zpow_natCast, ← zpow_add₀ (by norm_num)]
    refine zpow_le_zpow_right₀ (by norm_num) ?_
    unfold leastExponent
    omega

theorem floatExponent_low (p : ℕ) (emin : ℤ) (ha : 0 < a) (hb : 0 < b) :
    floatExponent p emin a b = emin ∨ (2 : ℚ) ^ p * 2 ^ (floatExponent p emin a b - 1) ≤ a / b := by
  unfold floatExponent
  split
  · rcases le_total emin ((Nat.log 2 a : ℤ) - Nat.log 2 b - p) with hle | hle
    · refine .inr ?_
      rw [leastExponent, max_eq_right hle, ← zpow_natCast, ← zpow_add₀ (by norm_num)]
      have hexp : (p : ℤ) + ((Nat.log 2 a : ℤ) - Nat.log 2 b - p - 1) = Nat.log 2 a - Nat.log 2 b - 1 := by omega
      rw [hexp]
      exact (log_bounds ha hb).1
    · exact .inl (max_eq_left hle)
  · rename_i hfits
    rw [fitsExponent_iff hb, not_lt] at hfits
    exact .inr (by rwa [add_sub_cancel_right])

theorem emin_le_floatExponent : emin ≤ floatExponent p emin a b := by
  have hleast : emin ≤ leastExponent p emin a b := le_max_left _ _
  unfold floatExponent
  split
  · exact hleast
  · omega

theorem roundFloat_roundsTo (p : ℕ) (emin : ℤ) (hb : 0 < b) :
    RoundsTo (a / b / 2 ^ (roundFloat p emin a b).2) (roundFloat p emin a b).1 := by
  rw [← scaled_eq hb]
  exact roundEven_roundsTo (Nat.mul_pos hb (Nat.two_pow_pos _))

theorem roundFloat_zero : (roundFloat p emin 0 b).1 = 0 := by
  unfold roundFloat roundEven
  simp

theorem floatExponent_zero_le (p : ℕ) (emin : ℤ) (hb : 0 < b) : floatExponent p emin 0 b ≤ max emin 0 := by
  have hfits : fitsExponent p 0 b (leastExponent p emin 0 b) := by
    rw [fitsExponent, Nat.zero_mul]
    positivity
  rw [floatExponent, if_pos hfits, leastExponent, Nat.log_zero_right]
  omega

theorem roundFloat_le (p : ℕ) (emin : ℤ) (hb : 0 < b) : (roundFloat p emin a b).1 ≤ 2 ^ p := by
  rcases Nat.eq_zero_or_pos a with rfl | ha
  · rw [roundFloat_zero]
    exact Nat.zero_le _
  have hround := roundFloat_roundsTo (a := a) p emin hb
  have hfits : (a : ℚ) / b / 2 ^ (roundFloat p emin a b).2 < 2 ^ p := by
    rw [div_lt_iff₀ (by positivity)]
    exact floatExponent_fits ha hb
  have hnear := hround.nearest (2 ^ p)
  rw [Nat.cast_pow, Nat.cast_ofNat, abs_of_pos (sub_pos.mpr hfits)] at hnear
  have hle : ((roundFloat p emin a b).1 : ℚ) ≤ ((2 ^ p : ℕ) : ℚ) := by
    rw [Nat.cast_pow, Nat.cast_ofNat]
    linarith [le_abs_self (((roundFloat p emin a b).1 : ℚ) - a / b / 2 ^ (roundFloat p emin a b).2)]
  exact_mod_cast hle

theorem roundFloat_nearest (hp : 0 < p) (hb : 0 < b) {m : ℕ} {e : ℤ} (hm : m ≤ 2 ^ p) (he : emin ≤ e) :
    |floatValue (roundFloat p emin a b).1 (roundFloat p emin a b).2 - a / b| ≤ |floatValue m e - a / b| := by
  rcases Nat.eq_zero_or_pos a with rfl | ha
  · rw [roundFloat_zero, floatValue]
    simp
  have hround := roundFloat_roundsTo (a := a) p emin hb
  have hlow : floatExponent p emin a b = emin ∨ _ := floatExponent_low p emin ha hb
  change (roundFloat p emin a b).2 = emin ∨ (2 : ℚ) ^ p * 2 ^ ((roundFloat p emin a b).2 - 1) ≤ a / b at hlow
  generalize (roundFloat p emin a b).1 = n at *
  generalize (roundFloat p emin a b).2 = E at *
  generalize (a : ℚ) / b = x at *
  have hE : (0 : ℚ) < 2 ^ E := by positivity
  -- on the grid of the exponent: whole numbers, as distances in units of it
  have hunit : ∀ y : ℚ, |y * 2 ^ E - x| = |y - x / 2 ^ E| * 2 ^ E := by
    intro y
    rw [← abs_of_pos hE, ← abs_mul, abs_of_pos hE, sub_mul, div_mul_cancel₀ _ hE.ne']
  rw [floatValue, hunit]
  rcases Int.le_total E e with hle | hle
  · obtain ⟨k, hk⟩ := Int.eq_ofNat_of_zero_le (Int.sub_nonneg_of_le hle)
    have hgrid : floatValue m e = ((m * 2 ^ k : ℕ) : ℚ) * 2 ^ E := by
      have hsplit : e = k + E := by omega
      rw [floatValue, hsplit, zpow_add₀ (by norm_num), zpow_natCast]
      push_cast
      ring
    rw [hgrid, hunit]
    exact mul_le_mul_of_nonneg_right (hround.nearest _) hE.le
  · rcases Int.lt_or_eq_of_le hle with hlt | rfl
    · -- all numbers with a smaller exponent are below
      have hbelow : floatValue m e ≤ 2 ^ p * 2 ^ (E - 1) := by
        rw [floatValue]
        refine mul_le_mul (by exact_mod_cast hm) ?_ (by positivity) (by positivity)
        exact zpow_le_zpow_right₀ (by norm_num) (by omega)
      have hx := hlow.resolve_left (by omega)
      have hhalf : (2 : ℚ) ^ p * 2 ^ (E - 1) = ((2 ^ (p - 1) : ℕ) : ℚ) * 2 ^ E := by
        obtain ⟨q, rfl⟩ : ∃ q, p = q + 1 := ⟨p - 1, by omega⟩
        rw [zpow_sub_one₀ (by norm_num), Nat.add_sub_cancel]
        push_cast
        ring
      calc |(n : ℚ) - x / 2 ^ E| * 2 ^ E
          ≤ |((2 ^ (p - 1) : ℕ) : ℚ) - x / 2 ^ E| * 2 ^ E := mul_le_mul_of_nonneg_right (hround.nearest _) hE.le
        _ = |2 ^ p * 2 ^ (E - 1) - x| := by rw [← hunit, ← hhalf]
        _ ≤ |floatValue m e - x| := by
          rw [abs_of_nonpos (by linarith), abs_of_nonpos (by linarith)]
          linarith
    · rw [floatValue, hunit]
      exact mul_le_mul_of_nonneg_right (hround.nearest _) hE.le

end Floats

end Libntech.Lib
