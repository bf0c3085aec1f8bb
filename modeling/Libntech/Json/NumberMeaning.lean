import Libntech.Json.Numerals

/-! # The numbers that `JsonParseAsNumber` accepts

`Number` is the grammar of RFC 8259: a sign, an integer part without leading zeros, a fraction, an exponent. The parser
keeps three flags and the previous character instead of a state for each part. `Accepts` says what is still to come
after a run of characters: digits, then the parts that the flags have not ruled out. That lets through two kinds of
texts that are no numbers: zeros in front of the digits behind a minus sign, and a fraction behind an exponent.
-/
namespace Libntech.Json
set_option autoImplicit false

/-! ## The grammar -/

def Digits (d : Bytes) : Prop := d ≠ [] ∧ ∀ c ∈ d, isNumeral c = true

def IntegerPart (d : Bytes) : Prop :=
  d = ['0'.toUInt8] ∨ ∃ c t, d = c :: t ∧ isDigit c = true ∧ ∀ x ∈ t, isNumeral x = true

def Fraction (f : Bytes) : Prop := ∃ d, f = '.'.toUInt8 :: d ∧ Digits d

def isExponentMark (c : UInt8) : Bool := c == 'e'.toUInt8 || c == 'E'.toUInt8

def ExponentSign (g : Bytes) : Prop := g = [] ∨ g = ['+'.toUInt8] ∨ g = ['-'.toUInt8]

def Exponent (x : Bytes) : Prop :=
  ∃ c g d, x = c :: (g ++ d) ∧ isExponentMark c = true ∧ ExponentSign g ∧ Digits d

/-- `[ minus ] int [ frac ] [ exp ]` -/
def Number (v : Bytes) : Prop :=
  ∃ negative whole frac exp, v = sign negative ++ (whole ++ (frac ++ exp)) ∧ IntegerPart whole ∧
    (frac = [] ∨ Fraction frac) ∧ (exp = [] ∨ Exponent exp)

/-- What the parser takes for the parts behind the digits: each at most once, in any order. -/
inductive Parts : Bool → Bool → Bytes → Prop where
  | done {dot exponent : Bool} : Parts dot exponent []
  | fraction {exponent : Bool} {f t : Bytes} : Fraction f → Parts true exponent t → Parts false exponent (f ++ t)
  | exponent {dot : Bool} {x t : Bytes} : Exponent x → Parts dot true t → Parts dot false (x ++ t)

/-- A minus sign and a zero with more digits behind it, whatever parts follow. -/
def PaddedNegative (v : Bytes) : Prop :=
  ∃ d t, v = '-'.toUInt8 :: '0'.toUInt8 :: (d ++ t) ∧ Digits d ∧ Parts false false t

/-- A number with an exponent, and a fraction behind that. -/
def PointAfterExponent (v : Bytes) : Prop :=
  ∃ negative whole exp frac, v = sign negative ++ (whole ++ (exp ++ frac)) ∧ IntegerPart whole ∧ Exponent exp ∧
    Fraction frac

/-! ## One character -/

def NumberState.leadingZero (n : NumberState) : Bool := n.zeroStarted && !n.seenDot && !n.seenExponent

variable {c : UInt8} {d t v : Bytes} {n : NumberState}

theorem isExponentMark_iff : isExponentMark c = true ↔ c = 'e'.toUInt8 ∨ c = 'E'.toUInt8 := by
  simp [isExponentMark]

theorem isNumeral_iff : isNumeral c = true ↔ c = '0'.toUInt8 ∨ isDigit c = true := by
  simp [isNumeral]

/-- The characters that a number goes on with, and the flags after each. -/
inductive NumberStep (n : NumberState) : UInt8 → NumberState → Prop where
  | digit {c : UInt8} : isNumeral c = true → n.leadingZero = false →
      NumberStep n c ⟨n.zeroStarted || (c == '0'.toUInt8 && n.prev == 0), n.seenDot, n.seenExponent, c⟩
  | minus : n.prev = 0 ∨ isExponentMark n.prev = true → NumberStep n '-'.toUInt8 { n with prev := '-'.toUInt8 }
  | plus : isExponentMark n.prev = true → NumberStep n '+'.toUInt8 { n with prev := '+'.toUInt8 }
  | point : n.seenDot = false → isNumeral n.prev = true →
      NumberStep n '.'.toUInt8 { n with seenDot := true, prev := '.'.toUInt8 }
  | mark {c : UInt8} : isExponentMark c = true → n.seenExponent = false → isNumeral n.prev = true →
      NumberStep n c { n with seenExponent := true, prev := c }

theorem numberStep_iff {n' : NumberState} : numberStep n c = .ok n' ↔ NumberStep n c n' := by
  have hafter : (n.prev = '0'.toUInt8 ∨ isDigit n.prev = true) ↔ isNumeral n.prev = true := isNumeral_iff.symm
  have hexp : (n.prev = 'e'.toUInt8 ∨ n.prev = 'E'.toUInt8) ↔ isExponentMark n.prev = true := isExponentMark_iff.symm
  have hzero : (n.zeroStarted && !n.seenDot && !n.seenExponent) = n.leadingZero := rfl
  constructor
  · intro h
    simp only [numberStep, hafter, hexp, hzero] at h
    split_ifs at h with h₁ h₂ h₃ h₄ h₅ h₆ h₇ h₈ h₉ h₁₀ h₁₁ h₁₂ h₁₃ h₁₄
    all_goals obtain rfl := Except.ok.inj h
    · subst h₁
      exact .minus (by tauto)
    · subst h₃
      exact .plus h₄
    · subst h₅
      exact .digit (by decide) (by simpa using h₆)
    · subst h₇
      exact .point (by simpa using h₈) h₉
    · exact .mark (isExponentMark_iff.mpr h₁₀) (by simpa using h₁₁) h₁₂
    · have hstep := NumberStep.digit (n := n) (isNumeral_iff.mpr (.inr h₁₄)) (by simpa using h₁₃)
      have hne : (c == '0'.toUInt8) = false := by simpa using h₅
      rwa [hne, Bool.false_and, Bool.or_false] at hstep
  · intro h
    cases h with
    | digit hc hz =>
      have hne : ∀ d, isNumeral d = false → c ≠ d := by
        rintro d hd rfl
        rw [hc] at hd
        cases hd
      have h₁ := hne '-'.toUInt8 (by decide)
      have h₂ := hne '+'.toUInt8 (by decide)
      have h₃ := hne '.'.toUInt8 (by decide)
      have h₄ := hne 'e'.toUInt8 (by decide)
      have h₅ := hne 'E'.toUInt8 (by decide)
      by_cases h0 : c = '0'.toUInt8
      · subst h0
        simp [numberStep, hzero, hz, h₁, h₂]
      · have hd : isDigit c = true := (isNumeral_iff.mp hc).resolve_left h0
        simp [numberStep, hzero, hz, h₁, h₂, h₃, h₄, h₅, h0, hd]
    | minus hp =>
      have hno : ¬ (n.prev ≠ 0 ∧ ¬ isExponentMark n.prev = true) := by tauto
      simp only [numberStep, hexp, if_true, hno, if_false]
    | plus hp =>
      have h₁ : '+'.toUInt8 ≠ '-'.toUInt8 := by decide
      simp only [numberStep, hexp, h₁, if_false, if_true, hp, not_true_eq_false]
    | point hd hp =>
      have h₁ : '.'.toUInt8 ≠ '-'.toUInt8 := by decide
      have h₂ : '.'.toUInt8 ≠ '+'.toUInt8 := by decide
      have h₃ : '.'.toUInt8 ≠ '0'.toUInt8 := by decide
      simp only [numberStep, hafter, h₁, h₂, h₃, if_false, if_true, hd, hp, not_true_eq_false, Bool.false_eq_true]
    | mark hc hx hp =>
      have hne : ∀ d, isExponentMark d = false → c ≠ d := by
        rintro d hd rfl
        rw [hc] at hd
        cases hd
      have h₁ := hne '-'.toUInt8 (by decide)
      have h₂ := hne '+'.toUInt8 (by decide)
      have h₃ := hne '0'.toUInt8 (by decide)
      have h₄ := hne '.'.toUInt8 (by decide)
      simp only [numberStep, hafter, h₁, h₂, h₃, h₄, if_false, isExponentMark_iff.mp hc, if_true, hx, hp,
        not_true_eq_false, Bool.false_eq_true]

/-! ## What a run of characters leaves to come -/

/-- The scanner reads the text to its end and stops behind a digit. -/
def Accepts (n : NumberState) (v : Bytes) : Prop := ∃ m, numberRun n v = .ok m ∧ endsInDigit m = true

theorem accepts_nil : Accepts n [] ↔ isNumeral n.prev = true := by
  constructor
  · rintro ⟨m, hrun, hend⟩
    obtain rfl := Except.ok.inj hrun
    exact hend
  · exact fun h => ⟨n, rfl, h⟩

theorem accepts_cons : Accepts n (c :: v) ↔ ∃ m, NumberStep n c m ∧ Accepts m v := by
  constructor
  · rintro ⟨m, hrun, hend⟩
    rw [numberRun] at hrun
    cases hstep : numberStep n c with
    | error e =>
      rw [hstep] at hrun
      cases hrun
    | ok n' =>
      rw [hstep] at hrun
      exact ⟨n', numberStep_iff.mp hstep, m, hrun, hend⟩
  · rintro ⟨n', hstep, m, hrun, hend⟩
    refine ⟨m, ?_, hend⟩
    rw [numberRun, numberStep_iff.mpr hstep]
    exact hrun

theorem numeral_ne_zero (h : isNumeral c = true) : c ≠ 0 := by
  rintro rfl
  exact absurd h (by decide)

theorem numeral_not_mark (h : isNumeral c = true) : isExponentMark c = false := by
  by_contra hx
  rcases isExponentMark_iff.mp (Bool.not_eq_false _ |>.mp hx) with rfl | rfl
  · exact absurd h (by decide)
  · exact absurd h (by decide)

theorem digits_cons (hc : isNumeral c = true) (hd : ∀ x ∈ d, isNumeral x = true) : Digits (c :: d) :=
  ⟨List.cons_ne_nil _ _, List.forall_mem_cons.mpr ⟨hc, hd⟩⟩

/-- A digit behind another character only becomes the previous one. -/
theorem digit_step {m : NumberState} (hc : isNumeral c = true) (hp : n.prev ≠ 0) :
    NumberStep n c m ↔ n.leadingZero = false ∧ m = { n with prev := c } := by
  have hp : (n.prev == 0) = false := by simpa using hp
  constructor
  · intro h
    cases h with
    | digit _ hz =>
      rw [hp, Bool.and_false, Bool.or_false]
      exact ⟨hz, rfl⟩
    | minus _ => exact absurd hc (by decide)
    | plus _ => exact absurd hc (by decide)
    | point _ _ => exact absurd hc (by decide)
    | mark hx _ _ =>
      rw [numeral_not_mark hc] at hx
      cases hx
  · rintro ⟨hz, rfl⟩
    have h := NumberStep.digit hc hz
    rwa [hp, Bool.and_false, Bool.or_false] at h

/-- What is still to come, by the previous character. -/
structure Expects (n : NumberState) (v : Bytes) : Prop where
  afterDigit : isNumeral n.prev = true → ∃ d t, v = d ++ t ∧ (∀ c ∈ d, isNumeral c = true) ∧
    (n.leadingZero = true → d = []) ∧ Parts n.seenDot n.seenExponent t
  afterMark : isExponentMark n.prev = true → ∃ g d t, v = g ++ (d ++ t) ∧ ExponentSign g ∧ Digits d ∧
    Parts n.seenDot n.seenExponent t
  beforeDigit : isNumeral n.prev = false → isExponentMark n.prev = false → ∃ d t, v = d ++ t ∧ Digits d ∧
    Parts n.seenDot n.seenExponent t

theorem Expects.ahead (h : Expects n v) (c : UInt8) (hp : n.prev = c) (hnum : isNumeral c = false)
    (hx : isExponentMark c = false) :
    ∃ d t, v = d ++ t ∧ Digits d ∧ Parts n.seenDot n.seenExponent t :=
  h.beforeDigit (hp ▸ hnum) (hp ▸ hx)

theorem expects_parts (hp : isNumeral n.prev = true) (h : Parts n.seenDot n.seenExponent t) : Expects n t := by
  refine ⟨fun _ => ⟨[], t, rfl, by simp, fun _ => rfl, h⟩, fun hx => ?_, fun hno => ?_⟩
  · rw [numeral_not_mark hp] at hx
    cases hx
  · rw [hp] at hno
    cases hno

theorem expects_sign (hp : isExponentMark n.prev = true) (hc : ExponentSign [c]) (hd : Digits d)
    (h : Parts n.seenDot n.seenExponent t) : Expects n (c :: (d ++ t)) := by
  refine ⟨fun hnum => ?_, fun _ => ⟨[c], d, t, rfl, hc, hd, h⟩, fun _ hno => ?_⟩
  · rw [numeral_not_mark hnum] at hp
    cases hp
  · rw [hp] at hno
    cases hno

theorem accepts_expects : ∀ {n : NumberState}, Accepts n v → n.prev ≠ 0 → Expects n v := by
  induction v with
  | nil =>
    intro n h _
    exact expects_parts (accepts_nil.mp h) .done
  | cons c v ih =>
    intro n h hp
    obtain ⟨m, hstep, hacc⟩ := accepts_cons.mp h
    cases hc : isNumeral c with
    | true =>
      obtain ⟨hz, rfl⟩ := (digit_step hc hp).mp hstep
      obtain ⟨d, t, rfl, hd, _, hparts⟩ := (ih hacc (numeral_ne_zero hc)).afterDigit hc
      have hcd := digits_cons hc hd
      refine ⟨fun _ => ⟨c :: d, t, rfl, hcd.2, ?_, hparts⟩, fun _ => ⟨[], c :: d, t, rfl, .inl rfl, hcd, hparts⟩,
        fun _ _ => ⟨c :: d, t, rfl, hcd, hparts⟩⟩
      intro hz'
      rw [hz] at hz'
      cases hz'
    | false =>
      cases hstep with
      | digit hc' _ =>
        rw [hc] at hc'
        cases hc'
      | minus hmark =>
        obtain ⟨d, t, rfl, hd, hparts⟩ := (ih hacc (show '-'.toUInt8 ≠ 0 by decide)).ahead '-'.toUInt8 rfl rfl rfl
        exact expects_sign (hmark.resolve_left hp) (.inr (.inr rfl)) hd hparts
      | plus hmark =>
        obtain ⟨d, t, rfl, hd, hparts⟩ := (ih hacc (show '+'.toUInt8 ≠ 0 by decide)).ahead '+'.toUInt8 rfl rfl rfl
        exact expects_sign hmark (.inr (.inl rfl)) hd hparts
      | point hdot hdigit =>
        obtain ⟨d, t, rfl, hd, hparts⟩ := (ih hacc (show '.'.toUInt8 ≠ 0 by decide)).ahead '.'.toUInt8 rfl rfl rfl
        refine expects_parts hdigit ?_
        rw [hdot]
        exact Parts.fraction ⟨d, rfl, hd⟩ hparts
      | mark hx hexp hdigit =>
        have hne : c ≠ 0 := by
          rintro rfl
          exact absurd hx (by decide)
        obtain ⟨g, d, t, rfl, hg, hd, hparts⟩ := (ih hacc hne).afterMark hx
        refine expects_parts hdigit ?_
        have hwhole := Parts.exponent ⟨c, g, d, rfl, hx, hg, hd⟩ hparts
        rw [List.cons_append, List.append_assoc] at hwhole
        rw [hexp]
        exact hwhole

theorem accepts_digits (hd : ∀ c ∈ d, isNumeral c = true) : ∀ {n : NumberState}, n.prev ≠ 0 →
    n.leadingZero = false → (d = [] → isNumeral n.prev = true) →
    (∀ p, isNumeral p = true → Accepts { n with prev := p } t) → Accepts n (d ++ t) := by
  induction d with
  | nil => exact fun {n} _ _ hp ht => ht n.prev (hp rfl)
  | cons c d ih =>
    intro n hp hz _ ht
    have hc := hd c List.mem_cons_self
    refine accepts_cons.mpr ⟨_, (digit_step hc hp).mpr ⟨hz, rfl⟩, ?_⟩
    exact ih (fun x hx => hd x (List.mem_cons_of_mem _ hx)) (numeral_ne_zero hc) hz (fun _ => hc) ht

theorem parts_accepts {dot exponent : Bool} (h : Parts dot exponent t) : ∀ {n : NumberState},
    n.seenDot = dot → n.seenExponent = exponent → isNumeral n.prev = true → Accepts n t := by
  induction h with
  | done => exact fun _ _ hp => accepts_nil.mpr hp
  | @fraction exponent f t hf _ ih =>
    intro n hdot hexp hp
    obtain ⟨d, rfl, hne, hd⟩ := hf
    refine accepts_cons.mpr ⟨_, .point hdot hp, ?_⟩
    exact accepts_digits hd (show '.'.toUInt8 ≠ 0 by decide) (by simp [NumberState.leadingZero])
      (fun h => absurd h hne) fun p hp => ih rfl hexp hp
  | @exponent dot x t hx _ ih =>
    intro n hdot hexp hp
    obtain ⟨c, g, d, rfl, hc, hg, hne, hd⟩ := hx
    have hc0 : c ≠ 0 := by
      rintro rfl
      exact absurd hc (by decide)
    have hdigits : ∀ b : UInt8, b ≠ 0 → Accepts { n with seenExponent := true, prev := b } (d ++ t) := by
      intro b hb
      exact accepts_digits hd hb (by simp [NumberState.leadingZero]) (fun h => absurd h hne) fun p hp => ih hdot rfl hp
    rw [List.cons_append, List.append_assoc]
    refine accepts_cons.mpr ⟨_, .mark hc hexp hp, ?_⟩
    rcases hg with rfl | rfl | rfl
    · exact hdigits c hc0
    · exact accepts_cons.mpr ⟨_, .plus hc, hdigits '+'.toUInt8 (by decide)⟩
    · exact accepts_cons.mpr ⟨_, .minus (.inr hc), hdigits '-'.toUInt8 (by decide)⟩

/-- What the scanner accepts from the start: behind a minus sign any digits, else an integer part, and parts. -/
theorem accepts_start_iff : Accepts numberStart v ↔
    (∃ d t, v = '-'.toUInt8 :: (d ++ t) ∧ Digits d ∧ Parts false false t) ∨
      ∃ d t, v = d ++ t ∧ IntegerPart d ∧ Parts false false t := by
  constructor
  · intro h
    cases v with
    | nil => exact absurd (accepts_nil.mp h) (by decide)
    | cons c v =>
      obtain ⟨m, hstep, hacc⟩ := accepts_cons.mp h
      cases hstep with
      | @digit c hc _ =>
        obtain ⟨d, t, rfl, hd, hzero, hparts⟩ := (accepts_expects hacc (numeral_ne_zero hc)).afterDigit hc
        refine .inr ⟨c :: d, t, rfl, ?_, hparts⟩
        by_cases h0 : c = '0'.toUInt8
        · subst h0
          exact .inl (by rw [hzero rfl])
        · exact .inr ⟨c, d, rfl, (isNumeral_iff.mp hc).resolve_left h0, hd⟩
      | minus _ =>
        obtain ⟨d, t, rfl, hd, hparts⟩ :=
          (accepts_expects hacc (show '-'.toUInt8 ≠ 0 by decide)).ahead '-'.toUInt8 rfl rfl rfl
        exact .inl ⟨d, t, rfl, hd, hparts⟩
      | plus hx => exact absurd hx (by decide)
      | point _ hp => exact absurd hp (by decide)
      | mark _ _ hp => exact absurd hp (by decide)
  · rintro (⟨d, t, rfl, ⟨hne, hd⟩, hparts⟩ | ⟨d, t, rfl, rfl | ⟨c, d, rfl, hc, hd⟩, hparts⟩)
    · refine accepts_cons.mpr ⟨_, .minus (.inl rfl), ?_⟩
      exact accepts_digits hd (show '-'.toUInt8 ≠ 0 by decide) rfl (fun h => absurd h hne) fun p hp =>
        parts_accepts hparts rfl rfl hp
    · refine accepts_cons.mpr ⟨_, .digit (by decide) rfl, ?_⟩
      exact parts_accepts hparts rfl rfl rfl
    · have hnum := isNumeral_iff.mpr (.inr hc)
      have h0 : (c == '0'.toUInt8) = false := by
        by_contra h
        rw [Bool.not_eq_false, beq_iff_eq] at h
        subst h
        exact absurd hc (by decide)
      refine accepts_cons.mpr ⟨_, .digit hnum rfl, ?_⟩
      refine accepts_digits hd (numeral_ne_zero hnum)
        (by simp [NumberState.leadingZero, numberStart, h0]) (fun _ => hnum) ?_
      exact fun p hp => parts_accepts hparts rfl rfl hp

/-! ## Numbers and what is let through beside them -/

theorem digits_iff : Digits d ↔ IntegerPart d ∨ ∃ t, d = '0'.toUInt8 :: t ∧ Digits t := by
  constructor
  · rintro ⟨hne, hd⟩
    obtain ⟨c, t, rfl⟩ := List.exists_cons_of_ne_nil hne
    have ht : ∀ x ∈ t, isNumeral x = true := fun x hx => hd x (List.mem_cons_of_mem _ hx)
    rcases isNumeral_iff.mp (hd c List.mem_cons_self) with rfl | hc
    · by_cases hempty : t = []
      · exact .inl (.inl (by rw [hempty]))
      · exact .inr ⟨t, rfl, hempty, ht⟩
    · exact .inl (.inr ⟨c, t, rfl, hc, ht⟩)
  · rintro ((rfl | ⟨c, t, rfl, hc, ht⟩) | ⟨t, rfl, _, ht⟩)
    · exact digits_cons (by decide) (by simp)
    · exact digits_cons (isNumeral_iff.mpr (.inr hc)) ht
    · exact digits_cons (by decide) ht

theorem parts_iff : Parts false false t ↔
    (∃ frac exp, t = frac ++ exp ∧ (frac = [] ∨ Fraction frac) ∧ (exp = [] ∨ Exponent exp)) ∨
      ∃ exp frac, t = exp ++ frac ∧ Exponent exp ∧ Fraction frac := by
  constructor
  · intro h
    cases h with
    | done => exact .inl ⟨[], [], rfl, .inl rfl, .inl rfl⟩
    | @fraction _ f t hf h =>
      cases h with
      | done => exact .inl ⟨f, [], rfl, .inr hf, .inl rfl⟩
      | @exponent _ x t hx h =>
        cases h with
        | done => exact .inl ⟨f, x, by rw [List.append_nil], .inr hf, .inr hx⟩
    | @exponent _ x t hx h =>
      cases h with
      | done => exact .inl ⟨[], x, by rw [List.append_nil, List.nil_append], .inl rfl, .inr hx⟩
      | @fraction _ f t hf h =>
        cases h with
        | done => exact .inr ⟨x, f, by rw [List.append_nil], hx, hf⟩
  · have hlast : ∀ {dot : Bool} {x : Bytes}, Exponent x → Parts dot false x := by
      intro dot x hx
      have h : Parts dot false (x ++ []) := .exponent hx .done
      rwa [List.append_nil] at h
    rintro (⟨frac, exp, rfl, rfl | hf, rfl | hx⟩ | ⟨exp, frac, rfl, hx, hf⟩)
    · exact .done
    · exact hlast hx
    · exact .fraction hf .done
    · exact .fraction hf (hlast hx)
    · have h : Parts false true (frac ++ []) := .fraction hf .done
      rw [List.append_nil] at h
      exact .exponent hx h

theorem accepts_iff : Accepts numberStart v ↔ Number v ∨ PaddedNegative v ∨ PointAfterExponent v := by
  have hsplit : ∀ (negative : Bool) {whole t : Bytes}, IntegerPart whole → Parts false false t →
      Number (sign negative ++ (whole ++ t)) ∨ PointAfterExponent (sign negative ++ (whole ++ t)) := by
    intro negative whole t hw ht
    rcases parts_iff.mp ht with ⟨frac, exp, rfl, hf, hx⟩ | ⟨exp, frac, rfl, hx, hf⟩
    · exact .inl ⟨negative, whole, frac, exp, rfl, hw, hf, hx⟩
    · exact .inr ⟨negative, whole, exp, frac, rfl, hw, hx, hf⟩
  have hjoin : ∀ (negative : Bool) {whole t : Bytes}, IntegerPart whole → Parts false false t →
      Accepts numberStart (sign negative ++ (whole ++ t)) := by
    intro negative whole t hw ht
    cases negative with
    | true => exact accepts_start_iff.mpr (.inl ⟨whole, t, rfl, digits_iff.mpr (.inl hw), ht⟩)
    | false => exact accepts_start_iff.mpr (.inr ⟨whole, t, rfl, hw, ht⟩)
  constructor
  · intro h
    rcases accepts_start_iff.mp h with ⟨d, t, rfl, hd, ht⟩ | ⟨d, t, rfl, hw, ht⟩
    · rcases digits_iff.mp hd with hw | ⟨d, rfl, hmore⟩
      · exact (hsplit true hw ht).imp id .inr
      · exact .inr (.inl ⟨d, t, rfl, hmore, ht⟩)
    · exact (hsplit false hw ht).imp id .inr
  · rintro (⟨negative, whole, frac, exp, rfl, hw, hf, hx⟩ | ⟨d, t, rfl, hd, ht⟩ |
      ⟨negative, whole, exp, frac, rfl, hw, hx, hf⟩)
    · exact hjoin negative hw (parts_iff.mpr (.inl ⟨frac, exp, rfl, hf, hx⟩))
    · exact accepts_start_iff.mpr (.inl ⟨_, t, rfl, digits_iff.mpr (.inr ⟨d, rfl, hd⟩), ht⟩)
    · exact hjoin negative hw (parts_iff.mpr (.inr ⟨exp, frac, rfl, hx, hf⟩))

/-- The points and exponent marks of a text, in order. -/
def marks (v : Bytes) : Bytes := v.filter fun c => c == '.'.toUInt8 || isExponentMark c

theorem marks_append (u v : Bytes) : marks (u ++ v) = marks u ++ marks v := List.filter_append u v

theorem marks_digits (hd : ∀ c ∈ d, isNumeral c = true) : marks d = [] := by
  rw [marks, List.filter_eq_nil_iff]
  intro c hc
  have hnum := hd c hc
  have hpoint : c ≠ '.'.toUInt8 := by
    rintro rfl
    exact absurd hnum (by decide)
  simp [hpoint, numeral_not_mark hnum]

theorem marks_sign (negative : Bool) : marks (sign negative) = [] := by
  cases negative <;> rfl

theorem marks_integerPart (h : IntegerPart d) : marks d = [] :=
  marks_digits (digits_iff.mpr (.inl h)).2

theorem marks_fraction {f : Bytes} (h : Fraction f) : marks f = ['.'.toUInt8] := by
  obtain ⟨d, rfl, _, hd⟩ := h
  have hrest := marks_digits hd
  rw [marks] at hrest ⊢
  rw [List.filter_cons_of_pos (by decide), hrest]

theorem marks_exponent {x : Bytes} (h : Exponent x) : ∃ c, isExponentMark c = true ∧ marks x = [c] := by
  obtain ⟨c, g, d, rfl, hc, hg, _, hd⟩ := h
  have hrest : marks (g ++ d) = [] := by
    rw [marks_append, marks_digits hd, List.append_nil]
    rcases hg with rfl | rfl | rfl <;> rfl
  refine ⟨c, hc, ?_⟩
  rw [marks] at hrest ⊢
  rw [List.filter_cons_of_pos (by simp [hc]), hrest]

theorem number_not_pointAfterExponent (h : Number v) : ¬ PointAfterExponent v := by
  rintro ⟨negative', whole', exp', frac', heq, hw', hx', hf'⟩
  obtain ⟨negative, whole, frac, exp, rfl, hw, hf, hx⟩ := h
  obtain ⟨c', hc', hmark'⟩ := marks_exponent hx'
  have hmarks := congrArg marks heq
  simp only [marks_append, marks_sign, marks_integerPart hw, marks_integerPart hw', hmark', marks_fraction hf',
    List.nil_append] at hmarks
  have hpoint : c' ≠ '.'.toUInt8 := by
    rintro rfl
    exact absurd hc' (by decide)
  rcases hf with rfl | hf
  · rcases hx with rfl | hx
    · cases hmarks
    · obtain ⟨c, _, hmark⟩ := marks_exponent hx
      rw [hmark] at hmarks
      cases hmarks
  · rw [marks_fraction hf] at hmarks
    exact hpoint (List.cons.inj hmarks).1.symm

theorem number_not_paddedNegative (h : Number v) : ¬ PaddedNegative v := by
  rintro ⟨d, t, heq, ⟨hne, hd⟩, _⟩
  obtain ⟨negative, whole, frac, exp, rfl, hw, hf, hx⟩ := h
  obtain ⟨x, d, rfl⟩ := List.exists_cons_of_ne_nil hne
  have hnum := hd x List.mem_cons_self
  cases negative with
  | false =>
    rcases hw with rfl | ⟨c, w, rfl, hc, _⟩
    · exact absurd (List.cons.inj heq).1 (by decide)
    · obtain rfl : c = '-'.toUInt8 := (List.cons.inj heq).1
      exact absurd hc (by decide)
  | true =>
    have heq := (List.cons.inj heq).2
    rcases hw with rfl | ⟨c, w, rfl, hc, _⟩
    · have hhead : (frac ++ exp).head? = some x := congrArg List.head? (List.cons.inj heq).2
      rcases hf with rfl | ⟨f, rfl, _⟩
      · rcases hx with rfl | ⟨y, g, e, rfl, hy, _⟩
        · cases hhead
        · obtain rfl : y = x := Option.some.inj hhead
          rw [numeral_not_mark hnum] at hy
          cases hy
      · obtain rfl : '.'.toUInt8 = x := Option.some.inj hhead
        exact absurd hnum (by decide)
    · obtain rfl : c = '0'.toUInt8 := (List.cons.inj heq).1
      exact absurd hc (by decide)

/-! ## JsonParseAsNumber -/

/-- The characters up to the first separator or the end of the text. -/
def numberText (s : Bytes) (p : ℕ) : Bytes := (s.drop p).takeWhile fun c => !isSeparator c

theorem numberText_split (s : Bytes) {p : ℕ} (hp : p ≤ s.length) :
    ∃ r, At s p (numberText s p ++ r) ∧ (∀ c ∈ numberText s p, isSeparator c = false) ∧ SepNext r := by
  refine ⟨(s.drop p).dropWhile fun c => !isSeparator c, ?_, ?_, ?_⟩
  · refine ⟨s.take p, ?_, by rw [List.length_take_of_le hp]⟩
    rw [numberText, List.takeWhile_append_dropWhile, List.take_append_drop]
  · intro c hc
    simpa using List.all_eq_true.mp List.all_takeWhile c hc
  · cases hrest : (s.drop p).dropWhile fun c => !isSeparator c with
    | nil => trivial
    | cons c r =>
      have hhead := List.head?_dropWhile_not (fun c => !isSeparator c) (s.drop p)
      rw [hrest] at hhead
      have hc : isSeparator c = true := by simpa using hhead
      exact hc

/-- The parser accepts what is a number, and makes a primitive of just these characters with the cursor on the last. -/
def NumberConforms (s : Bytes) (p : ℕ) : Prop :=
  ((∃ r, parseAsNumber s p = .ok r) ↔ Number (numberText s p)) ∧
    ∀ e q, parseAsNumber s p = .ok (e, q) →
      (∃ type, e = .primitive type (numberText s p)) ∧ q + 1 = p + (numberText s p).length

theorem parseAsNumber_ok_iff (s : CString) {p : ℕ} (hp : p ≤ s.bytes.length) {e : JsonElement} {q : ℕ} :
    parseAsNumber s.bytes p = .ok (e, q) ↔ Accepts numberStart (numberText s.bytes p) ∧
      e = .primitive (if '.'.toUInt8 ∈ numberText s.bytes p then .real else .integer) (numberText s.bytes p) ∧
      q = p + (numberText s.bytes p).length - 1 := by
  obtain ⟨r, hat, hv, hr⟩ := numberText_split s.bytes hp
  rw [parseAsNumber_eq s.nul_free hat hv hr]
  cases hrun : numberRun numberStart (numberText s.bytes p) with
  | error e =>
    refine ⟨fun h => absurd h (by simp), ?_⟩
    rintro ⟨⟨m, hm, _⟩, _⟩
    rw [hrun] at hm
    cases hm
  | ok n =>
    have hdot : n.seenDot = true ↔ '.'.toUInt8 ∈ numberText s.bytes p := by
      simpa [numberStart] using (numberRun_last hrun).2.1
    simp only [hdot]
    constructor
    · intro h
      split at h
      · rename_i hend
        obtain ⟨rfl, rfl⟩ := Prod.mk.inj (Outcome.ok.inj h)
        exact ⟨⟨n, hrun, hend⟩, rfl, rfl⟩
      · cases h
    · rintro ⟨⟨m, hm, hend⟩, rfl, rfl⟩
      rw [hrun] at hm
      obtain rfl := Except.ok.inj hm
      rw [if_pos hend]

theorem accepts_ne_nil (h : Accepts numberStart v) : 0 < v.length := by
  cases v with
  | nil => exact absurd (accepts_nil.mp h) (by decide)
  | cons c v => exact Nat.succ_pos _

/-- `JsonParseAsNumber` follows the grammar exactly on the texts that are of neither of the two kinds. -/
theorem number_conforms_iff (s : CString) (p : ℕ) (hp : p ≤ s.bytes.length) : NumberConforms s.bytes p ↔
    ¬ PaddedNegative (numberText s.bytes p) ∧ ¬ PointAfterExponent (numberText s.bytes p) := by
  have hok : (∃ r, parseAsNumber s.bytes p = .ok r) ↔ Accepts numberStart (numberText s.bytes p) := by
    constructor
    · rintro ⟨⟨e, q⟩, h⟩
      exact ((parseAsNumber_ok_iff s hp).mp h).1
    · intro h
      exact ⟨_, (parseAsNumber_ok_iff s hp).mpr ⟨h, rfl, rfl⟩⟩
  constructor
  · rintro ⟨hiff, _⟩
    refine ⟨fun h => ?_, fun h => ?_⟩
    · exact number_not_paddedNegative (hiff.mp (hok.mpr (accepts_iff.mpr (.inr (.inl h))))) h
    · exact number_not_pointAfterExponent (hiff.mp (hok.mpr (accepts_iff.mpr (.inr (.inr h))))) h
  · rintro ⟨hpad, hpoint⟩
    refine ⟨?_, fun e q h => ?_⟩
    · rw [hok, accepts_iff]
      tauto
    · obtain ⟨hacc, rfl, rfl⟩ := (parseAsNumber_ok_iff s hp).mp h
      have := accepts_ne_nil hacc
      exact ⟨⟨_, rfl⟩, by omega⟩

/-- A number inside an array. -/
theorem number_conforms_in_array : NumberConforms (ascii "[-1.5e3,2]") 1 :=
  (number_conforms_iff ⟨ascii "[-1.5e3,2]", by decide⟩ 1 (by decide)).mpr (by
    have hnumber : Number (numberText (ascii "[-1.5e3,2]") 1) :=
      ⟨true, ascii "1", ascii ".5", ascii "e3", by decide, .inr ⟨_, _, rfl, by decide, by simp⟩,
        .inr ⟨ascii "5", by decide, by decide, List.all_eq_true.mp (by decide)⟩,
        .inr ⟨'e'.toUInt8, [], ascii "3", by decide, by decide, .inl rfl, by decide, List.all_eq_true.mp (by decide)⟩⟩
    exact ⟨number_not_paddedNegative hnumber, number_not_pointAfterExponent hnumber⟩)

/-- `-01` is accepted. -/
theorem padded_negative_accepted : ¬ NumberConforms (ascii "-01") 0 := by
  rintro ⟨hiff, _⟩
  have hpadded : PaddedNegative (numberText (ascii "-01") 0) :=
    ⟨ascii "1", [], by decide, ⟨by decide, List.all_eq_true.mp (by decide)⟩, .done⟩
  have hok : ∃ r, parseAsNumber (ascii "-01") 0 = .ok r := ⟨(.primitive .integer (ascii "-01"), 2), rfl⟩
  exact number_not_paddedNegative (hiff.mp hok) hpadded

end Libntech.Json
