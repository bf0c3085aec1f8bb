import Libntech.Json.Cursor
import Libntech.Json.Write
import Mathlib.Data.Nat.Digits.Lemmas
import Mathlib.Tactic.IntervalCases
import Mathlib.Tactic.SplitIfs

/-! # The numbers that the create functions print, read by the number scanner -/
namespace Libntech.Json
set_option autoImplicit false

/-! ## What a run of the scanner remembers -/

theorem numberStep_prev {n n' : NumberState} {c : UInt8} (h : numberStep n c = .ok n') :
    n'.prev = c ∧ (n'.seenDot = true ↔ n.seenDot = true ∨ '.'.toUInt8 = c) ∧ c ≠ 0 := by
  have hdot : ∀ d : UInt8, d ≠ '.'.toUInt8 → d ≠ 0 → n'.prev = d → n'.seenDot = n.seenDot →
      n'.prev = d ∧ (n'.seenDot = true ↔ n.seenDot = true ∨ '.'.toUInt8 = d) ∧ d ≠ 0 := by
    intro d hd h0 hp hs
    refine ⟨hp, ?_, h0⟩
    rw [hs]
    exact ⟨.inl, fun hor => hor.resolve_right (Ne.symm hd)⟩
  simp only [numberStep] at h
  split_ifs at h with h₁ _ h₂ _ h₃ _ h₄ _ _ h₅ _ _ _ h₆
  · rw [Except.ok.injEq] at h
    subst h h₁
    exact hdot _ (by decide) (by decide) rfl rfl
  · rw [Except.ok.injEq] at h
    subst h h₂
    exact hdot _ (by decide) (by decide) rfl rfl
  · rw [Except.ok.injEq] at h
    subst h h₃
    exact hdot _ (by decide) (by decide) rfl rfl
  · rw [Except.ok.injEq] at h
    subst h h₄
    exact ⟨rfl, by simp, by decide⟩
  · rw [Except.ok.injEq] at h
    subst h
    rcases h₅ with rfl | rfl
    · exact hdot _ (by decide) (by decide) rfl rfl
    · exact hdot _ (by decide) (by decide) rfl rfl
  · rw [Except.ok.injEq] at h
    subst h
    refine hdot _ h₄ ?_ rfl rfl
    rintro rfl
    exact absurd h₆ (by decide)

theorem numberRun_append (a b : Bytes) : ∀ n : NumberState,
    numberRun n (a ++ b) = (numberRun n a).bind fun n => numberRun n b := by
  induction a with
  | nil => exact fun n => rfl
  | cons c a ih =>
    intro n
    rw [List.cons_append, numberRun, numberRun]
    cases numberStep n c with
    | error e => rfl
    | ok n' => exact ih n'

theorem numberRun_prefix {a b : Bytes} {n n' : NumberState} (h : numberRun n (a ++ b) = .ok n') :
    ∃ m, numberRun n a = .ok m := by
  rw [numberRun_append] at h
  cases hm : numberRun n a with
  | error e => rw [hm] at h; cases h
  | ok m => exact ⟨m, rfl⟩

theorem numberRun_last {v : Bytes} : ∀ {n n' : NumberState}, numberRun n v = .ok n' →
    n'.prev = v.getLast?.getD n.prev ∧ (n'.seenDot = true ↔ n.seenDot = true ∨ '.'.toUInt8 ∈ v) ∧ 0 ∉ v := by
  induction v with
  | nil =>
    intro n n' h
    rw [numberRun, Except.ok.injEq] at h
    subst h
    simp
  | cons c v ih =>
    intro n n' h
    rw [numberRun] at h
    cases hs : numberStep n c with
    | error e => rw [hs] at h; cases h
    | ok m =>
      rw [hs] at h
      obtain ⟨hp, hd, h0⟩ := numberStep_prev hs
      obtain ⟨hp', hd', h0'⟩ := ih h
      refine ⟨?_, ?_, ?_⟩
      · rw [hp', hp, List.getLast?_cons]
        rfl
      · rw [hd', hd, List.mem_cons, or_assoc]
      · simp only [List.mem_cons, not_or]
        exact ⟨h0.symm, h0'⟩

/-! ## Digits -/

/-- A digit of a printed number, zero included. -/
def isNumeral (c : UInt8) : Bool := c == '0'.toUInt8 || isDigit c

theorem numeral_ofNat {d : ℕ} (h : d < 10) :
    isNumeral (UInt8.ofNat (48 + d)) = true ∧ (d ≠ 0 → isDigit (UInt8.ofNat (48 + d)) = true) := by
  interval_cases d <;> decide

theorem decimal_numerals (n : ℕ) : ∀ c ∈ decimal n, isNumeral c = true := by
  intro c hc
  unfold decimal at hc
  split at hc
  · rw [List.mem_singleton] at hc
    subst hc
    decide
  · rw [List.mem_reverse, List.mem_map] at hc
    obtain ⟨d, hd, rfl⟩ := hc
    exact (numeral_ofNat (Nat.digits_lt_base (by decide) hd)).1

theorem decimal_head (n : ℕ) : decimal n = ['0'.toUInt8] ∨ ∃ c t, decimal n = c :: t ∧ isDigit c = true := by
  by_cases hn : n = 0
  · exact .inl (by rw [decimal, if_pos hn])
  · have hne : Nat.digits 10 n ≠ [] := Nat.digits_ne_nil_iff_ne_zero.mpr hn
    obtain ⟨init, last, hsplit⟩ := (List.eq_nil_or_concat (Nat.digits 10 n)).resolve_left hne
    have hlast := Nat.getLast_digit_ne_zero 10 hn
    have hlt : last < 10 := Nat.digits_lt_base (by decide) (show last ∈ Nat.digits 10 n by rw [hsplit]; simp)
    simp only [hsplit, List.concat_eq_append, List.getLast_append_singleton] at hlast
    refine .inr ⟨UInt8.ofNat (48 + last), (init.map fun d => UInt8.ofNat (48 + d)).reverse, ?_,
      (numeral_ofNat hlt).2 hlast⟩
    rw [decimal, if_neg hn, hsplit]
    simp

/-- The number that a text of decimal digits stands for. -/
def numeralsValue (text : Bytes) : ℕ := text.foldl (fun n c => 10 * n + (c.toNat - 48)) 0

theorem numeralsValue_decimal (n : ℕ) : numeralsValue (decimal n) = n := by
  unfold decimal numeralsValue
  split
  · rename_i hn
    rw [hn]
    rfl
  · have hdigits : ∀ ds : List ℕ, (∀ d ∈ ds, d < 10) →
        (ds.map fun d => UInt8.ofNat (48 + d)).foldr (fun c n => 10 * n + (c.toNat - 48)) 0 = Nat.ofDigits 10 ds := by
      intro ds hds
      induction ds with
      | nil => rfl
      | cons d ds ih =>
        have hd : d < 10 := hds d List.mem_cons_self
        have hbyte : (UInt8.ofNat (48 + d)).toNat = 48 + d := by
          rw [UInt8.toNat_ofNat']
          omega
        rw [List.map_cons, List.foldr_cons, ih fun x hx => hds x (List.mem_cons_of_mem _ hx), hbyte,
          Nat.ofDigits_cons]
        omega
    rw [List.foldl_reverse, hdigits _ fun d hd => Nat.digits_lt_base (by decide) hd, Nat.ofDigits_digits]

theorem decimal_injective : Function.Injective decimal := Function.LeftInverse.injective numeralsValue_decimal

theorem numberStep_numeral {n : NumberState} {c : UInt8} (hc : isNumeral c = true) (hp : n.prev ≠ 0)
    (hz : (n.zeroStarted && !n.seenDot && !n.seenExponent) = false) :
    numberStep n c = .ok { n with prev := c } := by
  have hpb : (n.prev == 0) = false := by simpa using hp
  by_cases h0 : c = '0'.toUInt8
  · subst h0
    have h₁ : '0'.toUInt8 ≠ '-'.toUInt8 := by decide
    have h₂ : '0'.toUInt8 ≠ '+'.toUInt8 := by decide
    simp only [numberStep, h₁, h₂, if_false, if_true, hz, hpb, Bool.or_false, Bool.false_eq_true]
  · have hd : isDigit c = true := by simpa [isNumeral, h0] using hc
    have hne : ∀ x, isDigit x = false → c ≠ x := by
      rintro x hx rfl
      exact absurd hd (by simp [hx])
    have h₁ := hne '-'.toUInt8 (by decide)
    have h₂ := hne '+'.toUInt8 (by decide)
    have h₃ := hne '.'.toUInt8 (by decide)
    have h₄ := hne 'e'.toUInt8 (by decide)
    have h₅ := hne 'E'.toUInt8 (by decide)
    simp only [numberStep, h₁, h₂, h0, h₃, h₄, h₅, or_self, if_false, hz, hd, not_true_eq_false, Bool.false_eq_true]

theorem numberRun_numerals {v : Bytes} : ∀ {n : NumberState}, (∀ c ∈ v, isNumeral c = true) → n.prev ≠ 0 →
    (n.zeroStarted && !n.seenDot && !n.seenExponent) = false →
    ∃ p, numberRun n v = .ok { n with prev := p } := by
  induction v with
  | nil => exact fun {n} _ _ _ => ⟨n.prev, rfl⟩
  | cons c v ih =>
    intro n hv hp hz
    have hc := hv c List.mem_cons_self
    have hc0 : c ≠ 0 := by
      rintro rfl
      exact absurd hc (by decide)
    obtain ⟨p, hrun⟩ := ih (n := { n with prev := c }) (fun x hx => hv x (List.mem_cons_of_mem _ hx)) hc0 hz
    refine ⟨p, ?_⟩
    rw [numberRun, numberStep_numeral hc hp hz]
    exact hrun

/-! ## Printed numbers -/

def sign (negative : Bool) : Bytes := if negative then ['-'.toUInt8] else []

theorem numberRun_decimal (negative : Bool) (n : ℕ) :
    ∃ z p, numberRun numberStart (sign negative ++ decimal n) = .ok ⟨z, false, false, p⟩ ∧ isNumeral p = true := by
  have hlast : ∀ {m m' : NumberState}, numberRun m (decimal n) = .ok m' → isNumeral m'.prev = true := by
    intro m m' hrun
    have hne : decimal n ≠ [] := by
      rcases decimal_head n with h | ⟨c, t, h, _⟩ <;> simp [h]
    rw [(numberRun_last hrun).1, List.getLast?_eq_some_getLast hne]
    exact decimal_numerals n _ (List.getLast_mem hne)
  cases negative with
  | true =>
    obtain ⟨p, hrun⟩ := numberRun_numerals (n := ⟨false, false, false, '-'.toUInt8⟩) (decimal_numerals n) (by decide) rfl
    exact ⟨false, p, hrun, hlast hrun⟩
  | false =>
    rcases decimal_head n with h | ⟨c, t, h, hc⟩
    · refine ⟨true, '0'.toUInt8, ?_, by decide⟩
      rw [h]
      rfl
    · have hall := decimal_numerals n
      have hc0 : c ≠ 0 := by
        rintro rfl
        exact absurd hc (by decide)
      have hstep : numberStep numberStart c = .ok ⟨false, false, false, c⟩ := by
        have hne : ∀ x, isDigit x = false → c ≠ x := by
          rintro x hx rfl
          exact absurd hc (by simp [hx])
        have h₁ := hne '-'.toUInt8 (by decide)
        have h₂ := hne '+'.toUInt8 (by decide)
        have h₃ := hne '0'.toUInt8 (by decide)
        have h₄ := hne '.'.toUInt8 (by decide)
        have h₅ := hne 'e'.toUInt8 (by decide)
        have h₆ := hne 'E'.toUInt8 (by decide)
        simp only [numberStep, numberStart, h₁, h₂, h₃, h₄, h₅, h₆, or_self, if_false, hc, not_true_eq_false,
          Bool.false_and, Bool.false_eq_true]
      rw [h] at hall
      obtain ⟨p, hrun⟩ := numberRun_numerals (n := ⟨false, false, false, c⟩) (v := t)
        (fun x hx => hall x (List.mem_cons_of_mem _ hx)) hc0 rfl
      have hwhole : numberRun numberStart (decimal n) = .ok ⟨false, false, false, p⟩ := by
        rw [h, numberRun, hstep]
        exact hrun
      exact ⟨false, p, hwhole, hlast hwhole⟩

theorem decimalInt_eq (n : ℤ) : decimalInt n = sign (decide (n < 0)) ++ decimal n.natAbs := by
  unfold decimalInt sign
  by_cases h : n < 0 <;> simp [h]

theorem decimal_length {n k : ℕ} (hk : 0 < k) (h : n < 10 ^ k) : (decimal n).length ≤ k := by
  by_cases hn : n = 0
  · rw [decimal, if_pos hn]
    exact hk
  · rw [decimal, if_neg hn, List.length_reverse, List.length_map]
    exact (Nat.digits_length_le_iff (by decide) n).mpr h

theorem decimalInt_length {n : ℤ} (h : n.natAbs < 10 ^ 19) : (decimalInt n).length ≤ 20 := by
  have hle := decimal_length (by decide) h
  unfold decimalInt
  split
  · exact Nat.succ_le_succ hle
  · exact hle.trans (by decide)

theorem numberRun_decimalInt (n : ℤ) :
    ∃ m, numberRun numberStart (decimalInt n) = .ok m ∧ endsInDigit m = true ∧ m.seenDot = false := by
  obtain ⟨z, p, hrun, hp⟩ := numberRun_decimal (decide (n < 0)) n.natAbs
  rw [decimalInt_eq]
  exact ⟨_, hrun, hp, rfl⟩

theorem numberRun_fixedFour (negative : Bool) (scaled : ℕ) :
    ∃ m, numberRun numberStart (fixedFour negative scaled) = .ok m := by
  obtain ⟨z, p, hrun, hp⟩ := numberRun_decimal negative (scaled / 10000)
  have hdot : numberStep ⟨z, false, false, p⟩ '.'.toUInt8 = .ok ⟨z, true, false, '.'.toUInt8⟩ := by
    have hafter : p = '0'.toUInt8 ∨ isDigit p = true := by simpa [isNumeral] using hp
    have h₁ : '.'.toUInt8 ≠ '-'.toUInt8 := by decide
    have h₂ : '.'.toUInt8 ≠ '+'.toUInt8 := by decide
    have h₃ : '.'.toUInt8 ≠ '0'.toUInt8 := by decide
    simp only [numberStep, h₁, h₂, h₃, if_false, if_true, hafter, not_true_eq_false, Bool.false_eq_true]
  have hfour : ∀ c ∈ fourDigits (scaled % 10000), isNumeral c = true := by
    intro c hc
    obtain ⟨d, hd, rfl⟩ := List.mem_map.mp hc
    refine (numeral_ofNat ?_).1
    simp only [List.mem_cons, List.not_mem_nil, or_false] at hd
    omega
  have hpoint : '.'.toUInt8 ≠ 0 := by decide
  obtain ⟨q, hrun'⟩ := numberRun_numerals (n := ⟨z, true, false, '.'.toUInt8⟩) hfour hpoint (by simp)
  refine ⟨⟨z, true, false, q⟩, ?_⟩
  rw [fixedFour, numberRun_append, ← sign, hrun]
  show numberRun _ _ = _
  rw [numberRun, hdot]
  exact hrun'

/-- Every character of a printed real after its sign is a digit or the point. -/
theorem fixedFour_chars (negative : Bool) (scaled : ℕ) :
    ∃ t, fixedFour negative scaled = sign negative ++ t ∧ (∀ c ∈ t, isNumeral c = true ∨ c = '.'.toUInt8) ∧
      5 ≤ t.length := by
  refine ⟨decimal (scaled / 10000) ++ '.'.toUInt8 :: fourDigits (scaled % 10000), ?_, ?_, ?_⟩
  · rw [fixedFour, ← sign, List.append_assoc]
  · intro c hc
    rcases List.mem_append.mp hc with hc | hc
    · exact .inl (decimal_numerals _ _ hc)
    · rcases List.mem_cons.mp hc with rfl | hc
      · exact .inr rfl
      · obtain ⟨d, hd, rfl⟩ := List.mem_map.mp hc
        refine .inl (numeral_ofNat ?_).1
        simp only [List.mem_cons, List.not_mem_nil, or_false] at hd
        omega
  · simp [fourDigits]

/-- A real as it is kept: it ends in a digit, or right after its point. -/
theorem numberRun_real (negative : Bool) (scaled : ℕ) :
    ∃ m, numberRun numberStart ((fixedFour negative scaled).take 31) = .ok m ∧
      (endsInDigit m = true ∨ m.prev = '.'.toUInt8) := by
  obtain ⟨m, hrun⟩ := numberRun_fixedFour negative scaled
  rw [← List.take_append_drop 31 (fixedFour negative scaled)] at hrun
  obtain ⟨m', hrun'⟩ := numberRun_prefix hrun
  refine ⟨m', hrun', ?_⟩
  obtain ⟨t, ht, hchars, hlen⟩ := fixedFour_chars negative scaled
  have hsign : (sign negative).length ≤ 1 := by
    unfold sign
    split <;> simp
  have htake : (fixedFour negative scaled).take 31 = sign negative ++ t.take (31 - (sign negative).length) := by
    rw [ht, List.take_append, List.take_of_length_le (by omega)]
  have hne : t.take (31 - (sign negative).length) ≠ [] := by
    intro h
    have := congrArg List.length h
    rw [List.length_take, List.length_nil] at this
    omega
  have hlast := (numberRun_last hrun').1
  rw [htake, List.getLast?_append_of_ne_nil _ hne, List.getLast?_eq_some_getLast hne] at hlast
  have hmem := List.mem_of_mem_take (List.getLast_mem hne)
  rcases hchars _ hmem with h | h
  · refine .inl ?_
    rw [endsInDigit, hlast]
    exact h
  · refine .inr ?_
    rw [hlast]
    exact h

end Libntech.Json
