import Libntech.Json.Copy
import Libntech.Json.Produced

/-! # What `JsonCopy` copies exactly

An integer is copied as it is if it is spelled as `%d` spells an `int`. A real is copied as it is if it is spelled as
`%.4f` spells some `double`: the `double` nearest to such a text is at least as near to it as the one it was printed
from, so it is printed with the same four decimals. The buffer of `JsonRealCreate` may cut decimals, but not digits
before the point.
-/
namespace Libntech.Json
set_option autoImplicit false

open Libntech.Lib

/-! ## Reading printed numbers -/

theorem numeralsValue_append (s t : Bytes) :
    numeralsValue (s ++ t) = numeralsValue s * 10 ^ t.length + numeralsValue t := by
  have hfold : ∀ (t : Bytes) (n : ℕ), t.foldl (fun n c => 10 * n + (c.toNat - 48)) n =
      n * 10 ^ t.length + t.foldl (fun n c => 10 * n + (c.toNat - 48)) 0 := by
    intro t
    induction t with
    | nil => exact fun n => by simp
    | cons c t ih =>
      intro n
      rw [List.foldl_cons, List.foldl_cons, ih, ih (10 * 0 + (c.toNat - 48)), List.length_cons, Nat.pow_succ]
      ring
  rw [numeralsValue, List.foldl_append, hfold]
  rfl

theorem numerals_split {d r : Bytes} (hd : ∀ c ∈ d, isNumeral c = true) (hr : ∀ c ∈ r.head?, isNumeral c = false) :
    (d ++ r).takeWhile isNumeral = d ∧ (d ++ r).dropWhile isNumeral = r := by
  induction d with
  | nil =>
    cases r with
    | nil => exact ⟨rfl, rfl⟩
    | cons c r =>
      have hc := hr c rfl
      rw [List.nil_append, List.takeWhile_cons, List.dropWhile_cons, hc]
      exact ⟨rfl, rfl⟩
  | cons c d ih =>
    have hc := hd c List.mem_cons_self
    obtain ⟨htake, hdrop⟩ := ih fun x hx => hd x (List.mem_cons_of_mem _ hx)
    rw [List.cons_append, List.takeWhile_cons, List.dropWhile_cons, hc, if_pos rfl, if_pos rfl, htake, hdrop]
    exact ⟨rfl, rfl⟩

theorem numeral_ne {c : UInt8} (h : isNumeral c = true) (d : UInt8) (hd : isNumeral d = false) : c ≠ d := by
  rintro rfl
  rw [h] at hd
  cases hd

/-- The sign of a printed number is read back, whatever follows the first digit. -/
theorem splitSign_sign (negative : Bool) {c : UInt8} (text : Bytes) (hc : isNumeral c = true) :
    splitSign (sign negative ++ c :: text) = (negative, c :: text) := by
  cases negative with
  | true => rfl
  | false =>
    show splitSign (c :: text) = _
    rw [splitSign, if_neg (numeral_ne hc _ (by decide)), if_neg (numeral_ne hc _ (by decide))]

theorem decimal_cons (n : ℕ) : ∃ c t, decimal n = c :: t ∧ isNumeral c = true := by
  have hall := decimal_numerals n
  rcases decimal_head n with h | ⟨c, t, h, _⟩
  · exact ⟨_, _, h, by decide⟩
  · exact ⟨c, t, h, hall c (by rw [h]; exact List.mem_cons_self)⟩

/-! ## Integers -/

theorem stringToLong_decimalInt {n : ℤ} (hlow : -9223372036854775808 ≤ n) (hhigh : n ≤ 9223372036854775807) :
    stringToLong (decimalInt n) = some n := by
  obtain ⟨c, t, hcons, hc⟩ := decimal_cons n.natAbs
  have hsplit := numerals_split (r := []) (decimal_numerals n.natAbs) (by simp)
  rw [List.append_nil] at hsplit
  have hvalue : (if decide (n < 0) = true then -(numeralsValue (decimal n.natAbs) : ℤ)
      else numeralsValue (decimal n.natAbs)) = n := by
    rw [numeralsValue_decimal]
    split
    · rename_i hneg
      have := of_decide_eq_true hneg
      omega
    · rename_i hneg
      have := of_decide_eq_false (Bool.eq_false_iff.mpr hneg)
      omega
  have hne : decimal n.natAbs ≠ [] := by simp [hcons]
  unfold stringToLong
  rw [decimalInt_eq, hcons, splitSign_sign _ _ hc, ← hcons]
  simp only [hsplit, hvalue]
  rw [if_neg (by omega), if_neg hne]

/-- `%d` of an `int`. -/
def PlainInteger (value : Bytes) : Prop := ∃ i : Int32, value = decimalInt i.toInt

theorem integerCopy_iff (value : Bytes) :
    jsonPrimitiveCopy .integer value = some (.primitive .integer value) ↔ PlainInteger value := by
  constructor
  · intro h
    obtain ⟨n, hn, heq⟩ := Option.bind_eq_some_iff.mp h
    obtain ⟨_, heq⟩ := JsonElement.primitive.inj (Option.some.inj heq)
    exact ⟨Int32.ofInt n, heq.symm⟩
  · rintro ⟨i, rfl⟩
    have hlow := i.le_toInt
    have hhigh := i.toInt_lt
    rw [jsonPrimitiveCopy, stringToLong_decimalInt (by omega) (by omega)]
    show some (jsonIntegerCreate (Int32.ofInt i.toInt)) = _
    rw [Int32.ofInt_toInt]
    rfl

/-! ## Reals -/

/-- A finite `double`. -/
def IsDouble (mantissa : ℕ) (exponent : ℤ) : Prop :=
  mantissa ≤ 2 ^ 53 ∧ -1074 ≤ exponent ∧ exponent ≤ 971 ∧ ¬ (exponent = 971 ∧ mantissa = 2 ^ 53)

/-- `%.4f` of a `double`, of which the buffer cuts nothing before the point. -/
def PlainReal (value : Bytes) : Prop :=
  ∃ negative mantissa exponent, IsDouble mantissa exponent ∧
    value = (fixedFour negative (tenThousandths mantissa exponent)).take 31 ∧
    (sign negative ++ decimal (tenThousandths mantissa exponent / 10000)).length ≤ 31

theorem tenThousandths_roundsTo (m : ℕ) (e : ℤ) : RoundsTo (10000 * floatValue m e) (tenThousandths m e) := by
  have hround := roundEven_roundsTo (a := m * 10000 * 2 ^ e.toNat) (b := 2 ^ (-e).toNat) (Nat.two_pow_pos _)
  have hvalue : ((m * 10000 * 2 ^ e.toNat : ℕ) : ℚ) / (2 ^ (-e).toNat : ℕ) = 10000 * floatValue m e := by
    rw [floatValue, zpow_toNat]
    push_cast
    ring
  rw [hvalue] at hround
  exact hround

theorem decimal_value (n : ℕ) (e : ℤ) :
    ((n * 10 ^ e.toNat : ℕ) : ℚ) / (10 ^ (-e).toNat : ℕ) = n * 10 ^ e := by
  rw [zpow_toNat]
  push_cast
  ring

variable {e : ℤ} {m n : ℕ}

theorem nearestDouble_finite {negative sgn : Bool} {exponent : ℤ}
    (h : nearestDouble negative n e = .finite sgn m exponent) : IsDouble m exponent ∧ sgn = negative ∧
      ∀ (m' : ℕ) (e' : ℤ), m' ≤ 2 ^ 53 → -1074 ≤ e' →
        |floatValue m exponent - n * 10 ^ e| ≤ |floatValue m' e' - n * 10 ^ e| := by
  have hpos : 0 < 10 ^ (-e).toNat := Nat.pow_pos (by decide)
  have hmin : -1074 ≤ (roundFloat 53 (-1074) (n * 10 ^ e.toNat) (10 ^ (-e).toNat)).2 := emin_le_floatExponent
  have hle := roundFloat_le (a := n * 10 ^ e.toNat) 53 (-1074) hpos
  have hnear := fun (m' : ℕ) (e' : ℤ) (hm : m' ≤ 2 ^ 53) (he : -1074 ≤ e') =>
    roundFloat_nearest (a := n * 10 ^ e.toNat) (by decide : 0 < 53) hpos hm he
  rw [decimal_value] at hnear
  unfold nearestDouble at h
  generalize roundFloat 53 (-1074) (n * 10 ^ e.toNat) (10 ^ (-e).toNat) = f at *
  obtain ⟨m₀, e₀⟩ := f
  simp only at h
  split at h
  · cases h
  · rename_i hfinite
    obtain ⟨rfl, rfl, rfl⟩ := Double.finite.inj h
    simp only [not_or, not_lt] at hfinite
    exact ⟨⟨hle, hmin, hfinite⟩, rfl, hnear⟩

theorem nearestDouble_small (negative : Bool) (h : (n : ℚ) * 10 ^ e ≤ 10 ^ 31) :
    ∃ m exponent, nearestDouble negative n e = .finite negative m exponent := by
  have hpos : 0 < 10 ^ (-e).toNat := Nat.pow_pos (by decide)
  have hsmall : floatExponent 53 (-1074) (n * 10 ^ e.toNat) (10 ^ (-e).toNat) < 971 := by
    rcases Nat.eq_zero_or_pos (n * 10 ^ e.toNat) with hzero | ha
    · rw [hzero]
      have := floatExponent_zero_le 53 (-1074) hpos
      omega
    · rcases floatExponent_low 53 (-1074) ha hpos with hmin | hlow
      · omega
      · by_contra hlarge
        rw [decimal_value] at hlow
        have hpow : (2 : ℚ) ^ (100 : ℤ) ≤
            2 ^ (floatExponent 53 (-1074) (n * 10 ^ e.toNat) (10 ^ (-e).toNat) - 1) :=
          zpow_le_zpow_right₀ (by norm_num) (by omega)
        have hbig : (10 : ℚ) ^ 31 < 2 ^ 53 * 2 ^ (100 : ℤ) := by norm_num
        exact absurd (hbig.trans_le (mul_le_mul_of_nonneg_left hpow (by norm_num))) (not_lt.mpr (hlow.trans h))
  unfold nearestDouble
  change (roundFloat 53 (-1074) (n * 10 ^ e.toNat) (10 ^ (-e).toNat)).2 < 971 at hsmall
  generalize roundFloat 53 (-1074) (n * 10 ^ e.toNat) (10 ^ (-e).toNat) = f at *
  obtain ⟨m₀, e₀⟩ := f
  simp only at hsmall ⊢
  rw [if_neg (by omega)]
  exact ⟨m₀, e₀, rfl⟩

theorem stringToDouble_whole (negative : Bool) {whole : Bytes} (hne : whole ≠ [])
    (hwhole : ∀ c ∈ whole, isNumeral c = true) :
    stringToDouble (sign negative ++ whole) = some (nearestDouble negative (numeralsValue whole) 0) := by
  obtain ⟨c, t, rfl⟩ := List.exists_cons_of_ne_nil hne
  have hsplit := numerals_split (r := []) hwhole (by simp)
  rw [List.append_nil] at hsplit
  unfold stringToDouble
  rw [splitSign_sign negative t (hwhole c List.mem_cons_self)]
  simp only [hsplit, splitFraction, splitExponent]
  rw [if_neg (by simp), List.append_nil]
  rfl

theorem stringToDouble_point (negative : Bool) {whole fraction : Bytes} (hne : whole ≠ [])
    (hwhole : ∀ c ∈ whole, isNumeral c = true) (hfraction : ∀ c ∈ fraction, isNumeral c = true) :
    stringToDouble (sign negative ++ (whole ++ '.'.toUInt8 :: fraction)) =
      some (nearestDouble negative (numeralsValue (whole ++ fraction)) (-fraction.length)) := by
  obtain ⟨c, t, rfl⟩ := List.exists_cons_of_ne_nil hne
  have hdot : isNumeral '.'.toUInt8 = false := by decide
  have hsplit := numerals_split (r := '.'.toUInt8 :: fraction) hwhole (by simpa using hdot)
  have hsplit' := numerals_split (r := []) hfraction (by simp)
  rw [List.append_nil] at hsplit'
  unfold stringToDouble
  rw [List.cons_append, splitSign_sign negative _ (hwhole c List.mem_cons_self), ← List.cons_append]
  simp only [hsplit, splitFraction, if_true, hsplit', splitExponent]
  rw [if_neg (by simp), zero_sub]

theorem fourDigits_numerals (n : ℕ) : ∀ c ∈ fourDigits n, isNumeral c = true := by
  intro c hc
  obtain ⟨d, hd, rfl⟩ := List.mem_map.mp hc
  refine (numeral_ofNat ?_).1
  simp only [List.mem_cons, List.not_mem_nil, or_false] at hd
  omega

theorem numeralsValue_fourDigits (h : n < 10000) : numeralsValue (fourDigits n) = n := by
  have hbyte : ∀ d : ℕ, (UInt8.ofNat (48 + d % 10)).toNat - 48 = d % 10 := by
    intro d
    rw [UInt8.toNat_ofNat']
    omega
  simp only [numeralsValue, fourDigits, List.map_cons, List.map_nil, List.foldl_cons, List.foldl_nil, hbyte]
  omega

theorem pow_le_of_decimal_length {k : ℕ} (h : k + 1 < (decimal n).length) : 10 ^ (k + 1) ≤ n := by
  have hn : n ≠ 0 := by
    rintro rfl
    exact absurd h (by simp [decimal])
  have hlen : (decimal n).length = (Nat.digits 10 n).length := by
    rw [decimal, if_neg hn, List.length_reverse, List.length_map]
  rw [hlen] at h
  exact Nat.lt_digits_length_iff (by decide) n |>.mp h

theorem lt_pow_decimal_length (n : ℕ) : n < 10 ^ (decimal n).length := by
  by_cases hn : n = 0
  · rw [hn]
    decide
  · have hlen : (decimal n).length = (Nat.digits 10 n).length := by
      rw [decimal, if_neg hn, List.length_reverse, List.length_map]
    rw [hlen]
    exact Nat.lt_base_pow_length_digits (by decide)

theorem tenThousandths_whole (hd : IsDouble m e) (h : 10 ^ 25 ≤ tenThousandths m e / 10000) :
    tenThousandths m e % 10000 = 0 := by
  have hm := hd.1
  rcases Int.le_total 0 e with he | he
  · have hneg : (-e).toNat = 0 := by omega
    have hvalue : tenThousandths m e = m * 10000 * 2 ^ e.toNat := by
      change roundEven (m * 10000 * 2 ^ e.toNat) (2 ^ (-e).toNat) = _
      rw [hneg, roundEven, Nat.pow_zero, Nat.mod_one, Nat.div_one]
      rfl
    rw [hvalue, Nat.mul_right_comm]
    exact Nat.mul_mod_left _ _
  · -- a double below two to the 53rd has fewer digits
    have hpos : e.toNat = 0 := by omega
    have hle : tenThousandths m e / 10000 ≤ m := by
      change roundEven (m * 10000 * 2 ^ e.toNat) (2 ^ (-e).toNat) / 10000 ≤ m
      have hdiv := Nat.div_le_self (m * 10000 * 2 ^ e.toNat) (2 ^ (-e).toNat)
      rw [hpos, Nat.pow_zero, Nat.mul_one] at hdiv ⊢
      clear h hd hm
      unfold roundEven
      split
      · omega
      · omega
    exact absurd (h.trans (hle.trans hm)) (by norm_num)

theorem sign_length_le (negative : Bool) : (sign negative).length ≤ 1 := by
  cases negative with
  | false => exact Nat.zero_le _
  | true => exact Nat.le_refl _

theorem decimal_ne_nil (n : ℕ) : decimal n ≠ [] := by
  obtain ⟨c, t, h, _⟩ := decimal_cons n
  rw [h]
  exact List.cons_ne_nil _ _

/-- A printed `double` is read as the number that is printed, also if decimals are cut: they are zeros then. -/
theorem stringToDouble_printed (negative : Bool) (hd : IsDouble m e)
    (hlen : (sign negative ++ decimal (tenThousandths m e / 10000)).length ≤ 31) :
    ∃ (n : ℕ) (k : ℤ), stringToDouble ((fixedFour negative (tenThousandths m e)).take 31) =
      some (nearestDouble negative n k) ∧ (n : ℚ) * 10 ^ k = tenThousandths m e / 10000 := by
  have hwhole : ∀ {N : ℕ}, N % 10000 = 0 → ((N / 10000 : ℕ) : ℚ) = N / 10000 := by
    intro N hN
    have hmul : N / 10000 * 10000 = N := by omega
    rw [eq_div_iff (by norm_num)]
    exact_mod_cast hmul
  have hzeros : 25 < (decimal (tenThousandths m e / 10000)).length → tenThousandths m e % 10000 = 0 :=
    fun hlong => tenThousandths_whole hd (pow_le_of_decimal_length hlong)
  generalize tenThousandths m e = N at *
  have hsign := sign_length_le negative
  have hnum := decimal_numerals (N / 10000)
  have hne := decimal_ne_nil (N / 10000)
  rw [List.length_append] at hlen
  have htext : (fixedFour negative N).take 31 = sign negative ++ (decimal (N / 10000) ++
      ('.'.toUInt8 :: fourDigits (N % 10000)).take (31 - (sign negative ++ decimal (N / 10000)).length)) := by
    rw [fixedFour, ← sign, List.take_append, List.take_of_length_le (by rw [List.length_append]; exact hlen),
      List.append_assoc]
  rw [htext, List.length_append]
  cases hk : 31 - ((sign negative).length + (decimal (N / 10000)).length) with
  | zero =>
    refine ⟨N / 10000, 0, ?_, ?_⟩
    · rw [List.take_zero, List.append_nil, stringToDouble_whole negative hne hnum, numeralsValue_decimal]
    · rw [zpow_zero, mul_one, hwhole (hzeros (by omega))]
  | succ j =>
    rw [List.take_succ_cons]
    refine ⟨_, _, stringToDouble_point negative hne hnum fun c hc => fourDigits_numerals _ c (List.mem_of_mem_take hc), ?_⟩
    rw [numeralsValue_append, numeralsValue_decimal]
    rcases Nat.lt_or_ge j 4 with hj | hj
    · -- the decimals are cut
      have hN := hzeros (by omega)
      have hcut : numeralsValue ((fourDigits 0).take j) = 0 := by
        interval_cases j
        all_goals rfl
      rw [hN, hcut, Nat.add_zero, Nat.cast_mul, Nat.cast_pow, Nat.cast_ofNat, zpow_neg, zpow_natCast, mul_assoc,
        mul_inv_cancel₀ (by positivity), mul_one]
      exact hwhole hN
    · have hall : (fourDigits (N % 10000)).take j = fourDigits (N % 10000) := List.take_of_length_le hj
      have hsum : N / 10000 * 10 ^ (fourDigits (N % 10000)).length + N % 10000 = N := by
        show N / 10000 * 10 ^ 4 + N % 10000 = N
        omega
      rw [hall, numeralsValue_fourDigits (Nat.mod_lt _ (by decide)), hsum]
      have htenth : (10 : ℚ) ^ (-4 : ℤ) = 1 / 10000 := by norm_num
      show (N : ℚ) * 10 ^ (-4 : ℤ) = N / 10000
      rw [htenth, mul_one_div]

/-- The `double` that is nearest to a printed one is printed alike. -/
theorem realCopy_of_plain {value : Bytes} (h : PlainReal value) :
    jsonPrimitiveCopy .real value = some (.primitive .real value) := by
  obtain ⟨negative, m, e, hd, rfl, hlen⟩ := h
  obtain ⟨n, k, hread, hvalue⟩ := stringToDouble_printed negative hd hlen
  have hsmall : (n : ℚ) * 10 ^ k ≤ 10 ^ 31 := by
    rw [List.length_append] at hlen
    have hdigits := (lt_pow_decimal_length (tenThousandths m e / 10000)).trans_le
      (Nat.pow_le_pow_right (by decide) (by omega : _ ≤ 31))
    have hbound : tenThousandths m e ≤ 10000 * 10 ^ 31 := by
      have := Nat.div_add_mod (tenThousandths m e) 10000
      have := Nat.mod_lt (tenThousandths m e) (by decide : 0 < 10000)
      generalize 10 ^ 31 = bound at hdigits ⊢
      omega
    rw [hvalue, div_le_iff₀ (by norm_num), mul_comm]
    exact_mod_cast hbound
  obtain ⟨m', e', hnearest⟩ := nearestDouble_small negative hsmall
  obtain ⟨_, _, hmin⟩ := nearestDouble_finite hnearest
  have hsame : tenThousandths m' e' = tenThousandths m e := by
    have hnear := hmin m e hd.1 hd.2.1
    have hround := tenThousandths_roundsTo m e
    refine (tenThousandths_roundsTo m' e').unique (hround.of_nearer ?_)
    rw [hvalue] at hnear
    have hscale : ∀ x : ℚ, |(tenThousandths m e : ℚ) - 10000 * x| = 10000 * |x - tenThousandths m e / 10000| := by
      intro x
      have hfactor : 10000 * x - tenThousandths m e = 10000 * (x - tenThousandths m e / 10000) := by ring
      rw [abs_sub_comm, hfactor, abs_mul, abs_of_pos (by norm_num : (0 : ℚ) < 10000)]
    rw [hscale, hscale]
    exact mul_le_mul_of_nonneg_left hnear (by norm_num)
  rw [jsonPrimitiveCopy, hread, hnearest]
  show some (jsonRealCreate (.finite negative m' e')) = _
  rw [jsonRealCreate, hsame]

theorem stringToDouble_finite {str : Bytes} {sgn : Bool} (h : stringToDouble str = some (.finite sgn m e)) :
    IsDouble m e := by
  unfold stringToDouble at h
  simp only at h
  split at h
  · split at h
    · obtain ⟨_, rfl, rfl⟩ := Double.finite.inj (Option.some.inj h)
      exact ⟨Nat.zero_le _, by decide, by decide, by decide⟩
    · cases h
  · split at h
    · exact (nearestDouble_finite (Option.some.inj h)).1
    · cases h

/-- A number of which digits before the point were cut is not read as the number it was. -/
theorem printed_uncut {negative : Bool}
    (h : stringToDouble ((fixedFour negative (tenThousandths m e)).take 31) = some (.finite negative m e)) :
    (sign negative ++ decimal (tenThousandths m e / 10000)).length ≤ 31 := by
  have hround := (tenThousandths_roundsTo m e).near
  by_contra hlong
  rw [List.length_append] at hlong
  have hsign := sign_length_le negative
  generalize tenThousandths m e = N at *
  have htext : (fixedFour negative N).take 31 =
      sign negative ++ (decimal (N / 10000)).take (31 - (sign negative).length) := by
    rw [fixedFour, ← sign, List.take_append_of_le_length (by rw [List.length_append]; omega), List.take_append,
      List.take_of_length_le (by omega)]
  have hlarge : 10 ^ 25 ≤ N / 10000 := pow_le_of_decimal_length (by omega)
  have hsplit := congrArg numeralsValue (List.take_append_drop (31 - (sign negative).length) (decimal (N / 10000)))
  rw [numeralsValue_append, numeralsValue_decimal, List.length_drop] at hsplit
  rw [htext, stringToDouble_whole negative _ fun c hc => decimal_numerals _ c (List.mem_of_mem_take hc)] at h
  · generalize numeralsValue ((decimal (N / 10000)).take (31 - (sign negative).length)) = V at *
    obtain ⟨_, _, hmin⟩ := nearestDouble_finite (Option.some.inj h)
    -- it is at most twice what is left of it
    have hzero := hmin 0 0 (Nat.zero_le _) (by decide)
    rw [zpow_zero, mul_one, floatValue, floatValue, Nat.cast_zero, zero_mul, zero_sub, abs_neg, Nat.abs_cast] at hzero
    have htwice : (m : ℚ) * 2 ^ e ≤ 2 * V := by linarith [le_abs_self ((m : ℚ) * 2 ^ e - V)]
    have hten : V * 10 ≤ N / 10000 := by
      obtain ⟨j, hj⟩ : ∃ j, (decimal (N / 10000)).length - (31 - (sign negative).length) = j + 1 :=
        ⟨(decimal (N / 10000)).length - (31 - (sign negative).length) - 1, by omega⟩
      rw [hj, Nat.pow_succ] at hsplit
      have := Nat.le_mul_of_pos_right (V * 10) (Nat.pow_pos (by decide : 0 < 10) (n := j))
      calc V * 10 ≤ V * 10 * 10 ^ j := this
        _ = V * (10 ^ j * 10) := by ring
        _ ≤ N / 10000 := by omega
    rw [floatValue] at hround
    have hN : (N : ℚ) ≤ 10000 * (2 * V) + 1 := by
      linarith [le_abs_self ((N : ℚ) - 10000 * (m * 2 ^ e))]
    have hN : N ≤ 10000 * (2 * V) + 1 := by exact_mod_cast hN
    have hpos : 1 < N / 10000 := lt_of_lt_of_le (by norm_num) hlarge
    clear hlarge
    omega
  · intro hnil
    have := congrArg List.length hnil
    rw [List.length_take, List.length_nil] at this
    omega

theorem realCopy_iff (value : Bytes) :
    jsonPrimitiveCopy .real value = some (.primitive .real value) ↔ PlainReal value := by
  refine ⟨fun h => ?_, realCopy_of_plain⟩
  have hzero : PlainReal (fixedFour false 0) :=
    ⟨false, 0, 0, ⟨Nat.zero_le _, by decide, by decide, by decide⟩, rfl, by decide⟩
  obtain ⟨d, hread, heq⟩ := Option.bind_eq_some_iff.mp h
  have heq := Option.some.inj heq
  cases d with
  | infinite negative =>
    rw [← (JsonElement.primitive.inj heq).2]
    exact hzero
  | nan =>
    rw [← (JsonElement.primitive.inj heq).2]
    exact hzero
  | finite negative m e =>
    obtain rfl := (JsonElement.primitive.inj heq).2
    exact ⟨negative, m, e, stringToDouble_finite hread, rfl, printed_uncut hread⟩

/-! ## Whole elements -/

/-- Every number is spelled as its copy will be. -/
inductive PlainNumbers : JsonElement → Prop where
  | primitive {type : JsonPrimitiveType} {value : Bytes} : (type = .integer → PlainInteger value) →
      (type = .real → PlainReal value) → PlainNumbers (.primitive type value)
  | array {children : List JsonElement} : (∀ e ∈ children, PlainNumbers e) → PlainNumbers (.array children)
  | object {children : List (Bytes × JsonElement)} : (∀ c ∈ children, PlainNumbers c.2) → PlainNumbers (.object children)

theorem jsonArrayCopy_some {children : List JsonElement} : ∀ {copy r : List JsonElement},
    jsonArrayCopy copy children = some r ↔ ∃ cs, List.Forall₂ (fun a b => jsonCopy a = some b) children cs ∧
      r = copy ++ cs := by
  induction children with
  | nil =>
    intro copy r
    rw [jsonArrayCopy, Option.some.injEq]
    constructor
    · rintro rfl
      exact ⟨[], .nil, (List.append_nil _).symm⟩
    · rintro ⟨cs, hcs, rfl⟩
      cases hcs
      exact (List.append_nil _).symm
  | cons a children ih =>
    intro copy r
    rw [jsonArrayCopy]
    constructor
    · intro h
      obtain ⟨b, hb, h⟩ := Option.bind_eq_some_iff.mp h
      obtain ⟨cs, hcs, rfl⟩ := ih.mp h
      exact ⟨b :: cs, .cons hb hcs, by rw [List.append_assoc]; rfl⟩
    · rintro ⟨cs, hcs, rfl⟩
      cases hcs with
      | @cons _ b _ cs hb hcs =>
        refine Option.bind_eq_some_iff.mpr ⟨b, hb, ih.mpr ⟨cs, hcs, ?_⟩⟩
        rw [List.append_assoc]
        rfl

theorem jsonObjectCopy_some {children : List (Bytes × JsonElement)} : ∀ (copy r : List (Bytes × JsonElement)),
    ((copy ++ children).map Prod.fst).Nodup → (jsonObjectCopy copy children = some r ↔
      ∃ cs, List.Forall₂ (fun a b => a.1 = b.1 ∧ jsonCopy a.2 = some b.2) children cs ∧ r = copy ++ cs) := by
  induction children with
  | nil =>
    intro copy r _
    rw [jsonObjectCopy, Option.some.injEq]
    constructor
    · rintro rfl
      exact ⟨[], .nil, (List.append_nil _).symm⟩
    · rintro ⟨cs, hcs, rfl⟩
      cases hcs
      exact (List.append_nil _).symm
  | cons a children ih =>
    obtain ⟨key, a⟩ := a
    intro copy r hnodup
    have hkeys : ∀ b : JsonElement, ((copy ++ [(key, b)] ++ children).map Prod.fst).Nodup := by
      intro b
      rw [List.append_assoc, List.map_append]
      rw [List.map_append] at hnodup
      exact hnodup
    -- the name is new
    have hnew : ∀ b : JsonElement, appendElement copy key b = copy ++ [(key, b)] := by
      intro b
      rw [appendElement, removeKey_of_notMem]
      intro hmem
      rw [List.map_append, List.nodup_append] at hnodup
      exact hnodup.2.2 key hmem key (by simp) rfl
    rw [jsonObjectCopy]
    constructor
    · intro h
      obtain ⟨b, hb, h⟩ := Option.bind_eq_some_iff.mp h
      rw [hnew] at h
      obtain ⟨cs, hcs, rfl⟩ := (ih _ _ (hkeys b)).mp h
      exact ⟨(key, b) :: cs, .cons ⟨rfl, hb⟩ hcs, by rw [List.append_assoc]; rfl⟩
    · rintro ⟨cs, hcs, rfl⟩
      cases hcs with
      | @cons _ b _ cs hb hcs =>
        obtain ⟨key', b⟩ := b
        obtain ⟨rfl, hb⟩ := hb
        refine Option.bind_eq_some_iff.mpr ⟨b, hb, ?_⟩
        rw [hnew]
        refine (ih _ _ (hkeys b)).mpr ⟨cs, hcs, ?_⟩
        rw [List.append_assoc]
        rfl

theorem primitiveCopy_iff {type : JsonPrimitiveType} {value : Bytes} (h : Sound (.primitive type value)) :
    jsonPrimitiveCopy type value = some (.primitive type value) ↔ PlainNumbers (.primitive type value) := by
  cases h with
  | primitive hbool hnull =>
    cases type with
    | string => exact ⟨fun _ => .primitive nofun nofun, fun _ => rfl⟩
    | integer =>
      rw [integerCopy_iff]
      refine ⟨fun h => .primitive (fun _ => h) nofun, fun h => ?_⟩
      cases h with
      | primitive hint _ => exact hint rfl
    | real =>
      rw [realCopy_iff]
      refine ⟨fun h => .primitive nofun (fun _ => h), fun h => ?_⟩
      cases h with
      | primitive _ hreal => exact hreal rfl
    | bool =>
      refine ⟨fun _ => .primitive nofun nofun, fun _ => ?_⟩
      rcases hbool rfl with rfl | rfl
      · rfl
      · rfl
    | null =>
      refine ⟨fun _ => .primitive nofun nofun, fun _ => ?_⟩
      rw [hnull rfl]
      rfl

theorem jsonCopy_eq_iff {e : JsonElement} (h : Sound e) : jsonCopy e = some e ↔ PlainNumbers e := by
  induction h with
  | primitive hbool hnull =>
    rw [jsonCopy]
    exact primitiveCopy_iff (.primitive hbool hnull)
  | @array children _ ih =>
    have hcopy : jsonCopy (.array children) = some (.array children) ↔ ∀ e ∈ children, jsonCopy e = some e := by
      rw [jsonCopy]
      constructor
      · intro h
        obtain ⟨cs, hcs, heq⟩ := Option.bind_eq_some_iff.mp h
        obtain rfl := JsonElement.array.inj (Option.some.inj heq)
        obtain ⟨ds, hds, heq⟩ := jsonArrayCopy_some.mp hcs
        rw [List.nil_append] at heq
        rw [← heq] at hds
        exact List.forall₂_same.mp hds
      · intro h
        exact Option.bind_eq_some_iff.mpr
          ⟨children, jsonArrayCopy_some.mpr ⟨children, List.forall₂_same.mpr h, rfl⟩, rfl⟩
    rw [hcopy]
    constructor
    · exact fun h => .array fun e he => (ih e he).mp (h e he)
    · intro h
      cases h with
      | array hall => exact fun e he => (ih e he).mpr (hall e he)
  | @object children hnodup _ ih =>
    have hcopy : jsonCopy (.object children) = some (.object children) ↔ ∀ c ∈ children, jsonCopy c.2 = some c.2 := by
      have hsome := fun r => jsonObjectCopy_some [] r hnodup
      rw [jsonCopy]
      constructor
      · intro h
        obtain ⟨cs, hcs, heq⟩ := Option.bind_eq_some_iff.mp h
        obtain rfl := JsonElement.object.inj (Option.some.inj heq)
        obtain ⟨ds, hds, heq⟩ := (hsome _).mp hcs
        rw [List.nil_append] at heq
        rw [← heq] at hds
        exact fun c hc => (List.forall₂_same.mp hds c hc).2
      · intro h
        refine Option.bind_eq_some_iff.mpr ⟨children, (hsome _).mpr ⟨children, ?_, rfl⟩, rfl⟩
        exact List.forall₂_same.mpr fun c hc => ⟨rfl, h c hc⟩
    rw [hcopy]
    constructor
    · exact fun h => .object fun c hc => (ih c hc).mp (h c hc)
    · intro h
      cases h with
      | object hall => exact fun c hc => (ih c hc).mpr (hall c hc)

/-- `JsonCopy` returns an element with the same structure, names, types and texts, and it compares equal. -/
def CopiedExactly (e : JsonElement) : Prop := ∃ copy, jsonCopy e = some copy ∧ copy = e ∧ jsonCompare copy e = some 0

/-- An element is copied exactly if and only if all its numbers are spelled as the create functions spell them. -/
theorem copiedExactly_iff {e : JsonElement} (h : Produced e) : CopiedExactly e ↔ PlainNumbers e := by
  have hsound := produced_sound h
  rw [← jsonCopy_eq_iff hsound]
  constructor
  · rintro ⟨copy, hcopy, rfl, _⟩
    exact hcopy
  · intro hcopy
    exact ⟨e, hcopy, rfl, compare_of_same hsound.distinctKeys (same_refl hsound.distinctKeys)⟩

theorem copiedExactly_pair : CopiedExactly (.array [.primitive .integer (ascii "12"), .primitive .real (ascii "-3.5000")]) := by
  refine (copiedExactly_iff (.parsed ⟨ascii "[12, -3.5000]", by decide⟩ (p := 12) rfl)).mpr (.array fun e he => ?_)
  rcases List.mem_cons.mp he with rfl | he
  · exact .primitive (fun _ => ⟨12, by decide⟩) nofun
  · obtain rfl := List.mem_singleton.mp he
    refine .primitive nofun fun _ => ⟨true, 7, -1, ⟨by decide, by decide, by decide, by decide⟩, by decide, by decide⟩

/-- An integer beyond `int` changes, and one with an exponent ends the process. -/
theorem large_integer_not_copied :
    (∃ p, jsonParse (ascii "4294967297") = .ok (.primitive .integer (ascii "4294967297"), p)) ∧
      jsonCopy (.primitive .integer (ascii "4294967297")) = some (.primitive .integer (ascii "1")) ∧
      ¬ CopiedExactly (.primitive .integer (ascii "4294967297")) ∧
      (∃ p, jsonParse (ascii "1e5") = .ok (.primitive .integer (ascii "1e5"), p)) ∧
      jsonCopy (.primitive .integer (ascii "1e5")) = none := by
  have hcopy : jsonCopy (.primitive .integer (ascii "4294967297")) = some (.primitive .integer (ascii "1")) := rfl
  refine ⟨⟨_, rfl⟩, hcopy, ?_, ⟨_, rfl⟩, rfl⟩
  rintro ⟨copy, hsome, rfl, _⟩
  rw [hcopy] at hsome
  exact absurd (JsonElement.primitive.inj (Option.some.inj hsome)).2 (by decide)

end Libntech.Json
