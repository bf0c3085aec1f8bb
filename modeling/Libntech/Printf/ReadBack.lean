import Libntech.Printf.Buffers

/-! # Printed numbers are read back

Whatever the flags, the width and the precision are, a number that is printed without separators of thousands is the number
that is read.
-/
namespace Libntech.Printf
set_option autoImplicit false

open Libntech.Json (Bytes ascii)

/-! ## Reading a number -/

def digitValue (ch : UInt8) : ℕ :=
  if '0'.toUInt8 ≤ ch ∧ ch ≤ '9'.toUInt8 then ch.toNat - '0'.toNat
  else if 'a'.toUInt8 ≤ ch ∧ ch ≤ 'f'.toUInt8 then ch.toNat - 'a'.toNat + 10
  else if 'A'.toUInt8 ≤ ch ∧ ch ≤ 'F'.toUInt8 then ch.toNat - 'A'.toNat + 10
  else 16

def readValue (base : ℕ) (digits : Bytes) : ℕ := digits.foldl (fun value ch => base * value + digitValue ch) 0

/-- A prefix `0x`, and the text behind it. -/
def dropPrefix (base : ℕ) (text : Bytes) : Bytes :=
  if base = 16 ∧ text.head? = some '0'.toUInt8 ∧ (text.tail.head? = some 'x'.toUInt8 ∨ text.tail.head? = some 'X'.toUInt8) then
    text.drop 2
  else text

/-- Digits, with spaces behind them. -/
def readDigitsOf (base : ℕ) (text : Bytes) : Option ℕ :=
  let digits := text.takeWhile (digitValue · < base)
  if digits ≠ [] ∧ (text.dropWhile (digitValue · < base)).all (· = ' '.toUInt8) then some (readValue base digits) else none

def readMagnitude (base : ℕ) (text : Bytes) : Option ℕ := readDigitsOf base (dropPrefix base text)

/-- A number between spaces, with or without a sign. -/
def readNumber (base : ℕ) (text : Bytes) : Option ℤ :=
  match text.dropWhile (· = ' '.toUInt8) with
  | [] => none
  | ch :: rest =>
    if ch = '-'.toUInt8 then (readMagnitude base rest).map fun n => -(n : ℤ)
    else if ch = '+'.toUInt8 then (readMagnitude base rest).map fun n => (n : ℤ)
    else (readMagnitude base (ch :: rest)).map fun n => (n : ℤ)

/-! ## The digits of a number -/

theorem digitValue_digit {caps : Bool} {d : ℕ} (hd : d < 16) : digitValue (digit caps d) = d := by
  have h : ∀ caps, ∀ d < 16, digitValue (digit caps d) = d := by decide
  exact h caps d hd

section

variable {base : ℕ} (hbase : 1 < base) (hle : base ≤ 16)

include hbase hle

theorem lowFirst_digits (caps : Bool) (value : ℕ) :
    ∃ ds : List ℕ, lowFirst base caps value = ds.map (digit caps) ∧ (∀ d ∈ ds, d < base) ∧ ds ≠ [] ∧
      Nat.ofDigits base ds = value := by
  refine ⟨value % base :: Nat.digits base (value / base), rfl, ?_, List.cons_ne_nil _ _, ?_⟩
  · intro d hd
    rcases List.mem_cons.mp hd with rfl | hd
    · exact Nat.mod_lt _ (by omega)
    · exact Nat.digits_lt_base hbase hd
  · rw [Nat.ofDigits_cons, Nat.ofDigits_digits]
    exact Nat.mod_add_div value base

theorem readValue_digits {caps : Bool} {ds : List ℕ} (hds : ∀ d ∈ ds, d < base) (k : ℕ) :
    readValue base (List.replicate k '0'.toUInt8 ++ (ds.map (digit caps)).reverse) = Nat.ofDigits base ds := by
  have hzeros : readValue base (List.replicate k '0'.toUInt8) = 0 := by
    unfold readValue
    induction k with
    | zero => rfl
    | succ k ih =>
      rw [List.replicate_succ, List.foldl_cons]
      exact ih
  unfold readValue at hzeros ⊢
  rw [List.foldl_append, hzeros, List.foldl_reverse]
  induction ds with
  | nil => rfl
  | cons d ds ih =>
    have hd : digitValue (digit caps d) = d := digitValue_digit (by have := hds d List.mem_cons_self; omega)
    rw [List.map_cons, List.foldr_cons, ih fun e he => hds e (List.mem_cons_of_mem d he), hd, Nat.ofDigits_cons, Nat.add_comm]

end

/-! ## The pieces of a printed number -/

section

variable {base : ℕ} (hle : base ≤ 16) {body : Bytes} (hbody : ∀ ch ∈ body, digitValue ch < base) (hne : body ≠ [])

include hle hbody hne

theorem dropPrefix_body (b : ℕ) :
    dropPrefix base (body ++ List.replicate b ' '.toUInt8) = body ++ List.replicate b ' '.toUInt8 := by
  obtain ⟨ch, more, rfl⟩ := List.exists_cons_of_ne_nil hne
  have hnext (x : UInt8) (hx : digitValue x = 16) (hspace : x ≠ ' '.toUInt8) :
      (more ++ List.replicate b ' '.toUInt8).head? ≠ some x := by
    intro hhead
    have hmem : x ∈ more ++ List.replicate b ' '.toUInt8 := List.mem_of_head? hhead
    rcases List.mem_append.mp hmem with hmore | hrep
    · have hlt := hbody x (List.mem_cons_of_mem ch hmore)
      omega
    · exact hspace (List.eq_of_mem_replicate hrep)
  unfold dropPrefix
  rw [if_neg]
  rintro ⟨-, -, h | h⟩
  · exact hnext 'x'.toUInt8 (by decide) (by decide) h
  · exact hnext 'X'.toUInt8 (by decide) (by decide) h

theorem dropPrefix_prefixed (b : ℕ) (flags : Flags) (uvalue : ℕ) :
    dropPrefix base (hexprefixText flags base uvalue ++ (body ++ List.replicate b ' '.toUInt8)) =
      body ++ List.replicate b ' '.toUInt8 := by
  unfold hexprefixText
  split_ifs with hhex hup
  · exact if_pos ⟨hhex.2.2, rfl, .inr rfl⟩
  · exact if_pos ⟨hhex.2.2, rfl, .inl rfl⟩
  · exact dropPrefix_body hle hbody hne b

theorem readMagnitude_prefixed (b : ℕ) (flags : Flags) (uvalue : ℕ) :
    readMagnitude base (hexprefixText flags base uvalue ++ (body ++ List.replicate b ' '.toUInt8)) =
      some (readValue base body) := by
  have hspace : ¬digitValue ' '.toUInt8 < base := by
    have h : digitValue ' '.toUInt8 = 16 := by decide
    omega
  have htake : (body ++ List.replicate b ' '.toUInt8).takeWhile (digitValue · < base) = body := by
    rw [List.takeWhile_append_of_pos fun ch hch => decide_eq_true (hbody ch hch)]
    cases b with
    | zero => simp
    | succ b => simp [List.replicate_succ, hspace]
  have hdrop : (body ++ List.replicate b ' '.toUInt8).dropWhile (digitValue · < base) = List.replicate b ' '.toUInt8 := by
    rw [List.dropWhile_append_of_pos fun ch hch => decide_eq_true (hbody ch hch)]
    cases b with
    | zero => rfl
    | succ b => simp [List.replicate_succ, hspace]
  rw [readMagnitude, dropPrefix_prefixed hle hbody hne]
  unfold readDigitsOf
  simp only [htake, hdrop]
  rw [if_pos ⟨hne, by simp⟩]

end

theorem readNumber_spaces (base a : ℕ) (text : Bytes) :
    readNumber base (List.replicate a ' '.toUInt8 ++ text) = readNumber base text := by
  have hdrop : (List.replicate a ' '.toUInt8 ++ text).dropWhile (· = ' '.toUInt8) = text.dropWhile (· = ' '.toUInt8) :=
    List.dropWhile_append_of_pos fun ch hch => decide_eq_true (List.eq_of_mem_replicate hch)
  unfold readNumber
  rw [hdrop]

theorem readNumber_digit {base : ℕ} {ch : UInt8} (hdigit : digitValue ch < 16) (more : Bytes) :
    readNumber base (ch :: more) = (readMagnitude base (ch :: more)).map fun n => (n : ℤ) := by
  have hnot (x : UInt8) (hx : digitValue x = 16) : ch ≠ x := fun heq => by rw [heq] at hdigit; omega
  have hdrop : (ch :: more).dropWhile (· = ' '.toUInt8) = ch :: more := by
    rw [List.dropWhile_cons_of_neg]
    simpa using hnot ' '.toUInt8 (by decide)
  unfold readNumber
  rw [hdrop]
  simp only [if_neg (hnot '-'.toUInt8 (by decide)), if_neg (hnot '+'.toUInt8 (by decide))]

theorem readNumber_minus (base : ℕ) (rest : Bytes) :
    readNumber base ('-'.toUInt8 :: rest) = (readMagnitude base rest).map fun n => -(n : ℤ) := rfl

theorem readNumber_plus (base : ℕ) (rest : Bytes) :
    readNumber base ('+'.toUInt8 :: rest) = (readMagnitude base rest).map fun n => (n : ℤ) := rfl

variable {flags : Flags} {value : ℤ}

theorem readNumber_signed {base : ℕ} {rest : Bytes} {n : ℕ} (hhead : ∃ ch more, rest = ch :: more ∧ digitValue ch < 16)
    (hrest : readMagnitude base rest = some n) :
    readNumber base (signText flags value ++ rest) =
      some (if flags.unsigned = false ∧ value < 0 then -(n : ℤ) else n) := by
  obtain ⟨ch, more, rfl, hdigit⟩ := hhead
  have hplain : readNumber base (ch :: more) = some (n : ℤ) := by
    rw [readNumber_digit hdigit, hrest]
    rfl
  unfold signText
  by_cases hunsigned : flags.unsigned = true
  · rw [if_pos hunsigned, if_neg (by simp [hunsigned])]
    exact hplain
  · rw [if_neg hunsigned]
    by_cases hneg : value < 0
    · rw [if_pos hneg, if_pos ⟨by simpa using hunsigned, hneg⟩]
      change readNumber base ('-'.toUInt8 :: ch :: more) = _
      rw [readNumber_minus, hrest]
      rfl
    · have hnot : ¬(flags.unsigned = false ∧ value < 0) := fun h => hneg h.2
      rw [if_neg hneg, if_neg hnot]
      split_ifs
      · change readNumber base ('+'.toUInt8 :: ch :: more) = _
        rw [readNumber_plus, hrest]
        rfl
      · exact (readNumber_spaces base 1 (ch :: more)).trans hplain
      · exact hplain

/-- All layouts are alike: spaces, the sign, the prefix, zeros, the digits, and spaces. -/
theorem intText_shape (hquote : flags.quote = false) (thousands_sep : Bytes) (value : ℤ) (base : ℕ)
    (width precision : ℤ) :
    ∃ a z b, intText thousands_sep value base width precision flags = List.replicate a ' '.toUInt8 ++ (signText flags value ++
      (hexprefixText flags base (magnitude flags value) ++ ((List.replicate z '0'.toUInt8 ++
        (lowFirst base flags.up (magnitude flags value)).reverse) ++ List.replicate b ' '.toUInt8))) := by
  unfold intText justified spaces zeros
  simp only [hquote, Bool.false_eq_true, if_false]
  generalize (max (_ - _) 0 : ℤ) = zpadlen
  generalize (max _ 0 : ℤ) = spadlen
  by_cases hzeroed : flags.minus = false ∧ flags.zero = true ∧ precision = -1
  · refine ⟨0, (zpadlen + spadlen).toNat, 0, ?_⟩
    simp only [if_pos hzeroed, List.replicate_zero, List.nil_append, List.append_nil, List.append_assoc]
  · rw [if_neg hzeroed]
    cases flags.minus with
    | true => exact ⟨0, zpadlen.toNat, spadlen.toNat, by simp⟩
    | false => exact ⟨spadlen.toNat, zpadlen.toNat, 0, by simp⟩

theorem intText_readBack (flags : Flags) (hquote : flags.quote = false) (thousands_sep : Bytes) {base : ℕ} (hbase : 1 < base)
    (hle : base ≤ 16) (value width precision : ℤ) :
    readNumber base (intText thousands_sep value base width precision flags) =
      some (if flags.unsigned then value % 2 ^ 64 else value) := by
  obtain ⟨a, z, b, hshape⟩ := intText_shape hquote thousands_sep value base width precision
  obtain ⟨ds, hdigits, hds, hne, hvalue⟩ := lowFirst_digits hbase hle flags.up (magnitude flags value)
  rw [hshape, hdigits, readNumber_spaces]
  have hzero : digitValue '0'.toUInt8 = 0 := by decide
  have hbody : ∀ ch ∈ List.replicate z '0'.toUInt8 ++ (ds.map (digit flags.up)).reverse, digitValue ch < base := by
    intro ch hch
    rcases List.mem_append.mp hch with hrep | hrev
    · rw [List.eq_of_mem_replicate hrep, hzero]
      omega
    · obtain ⟨d, hd, rfl⟩ := List.mem_map.mp (List.mem_reverse.mp hrev)
      have hlt := hds d hd
      rw [digitValue_digit (by omega)]
      exact hlt
  have hbodyne : List.replicate z '0'.toUInt8 ++ (ds.map (digit flags.up)).reverse ≠ [] := by simp [hne]
  have hread := readMagnitude_prefixed hle hbody hbodyne b flags (magnitude flags value)
  rw [readValue_digits hbase hle hds, hvalue] at hread
  have hhead : ∃ ch more, hexprefixText flags base (magnitude flags value) ++ (List.replicate z '0'.toUInt8 ++
      (ds.map (digit flags.up)).reverse ++ List.replicate b ' '.toUInt8) = ch :: more ∧ digitValue ch < 16 := by
    unfold hexprefixText
    split_ifs
    · exact ⟨_, _, rfl, by decide⟩
    · exact ⟨_, _, rfl, by decide⟩
    · obtain ⟨ch, more, heq⟩ := List.exists_cons_of_ne_nil hbodyne
      rw [heq] at hbody ⊢
      have hlt := hbody ch List.mem_cons_self
      exact ⟨ch, _, rfl, by omega⟩
  rw [readNumber_signed hhead hread]
  refine congrArg some ?_
  unfold magnitude
  cases flags.unsigned with
  | true => exact Int.toNat_of_nonneg (Int.emod_nonneg value (by decide))
  | false =>
    simp only [true_and, Bool.false_eq_true, if_false]
    split_ifs <;> omega

/-! ## Printed by a directive -/

section

variable {δ : Type} (thousands_sep : Bytes) (fmtflt : FloatStyle → δ → ℤ → ℤ → Flags → Option Bytes)

/-- The integer that a conversion takes from an argument. -/
def Conversion.integer (cflags : CFlags) (arg : ℤ) : Conversion → Option ℤ
  | .signed => some (Int.bmod arg (2 ^ cflags.bits))
  | .unsigned _ _ => some (arg % 2 ^ cflags.bits)
  | _ => none

def Conversion.base : Conversion → ℕ
  | .unsigned base _ => base
  | _ => 10

theorem base_bounds : ∀ ch ∈ conversionChars, 1 < (Conversion.ofChar ch).base ∧ (Conversion.ofChar ch).base ≤ 16 := by
  decide +kernel

theorem setAll_keeps {chars : Bytes} (hquote : '\''.toUInt8 ∉ chars) (flags : Flags) :
    (flags.setAll chars).quote = flags.quote ∧ (flags.setAll chars).unsigned = flags.unsigned := by
  induction chars generalizing flags with
  | nil => exact ⟨rfl, rfl⟩
  | cons ch chars ih =>
    have hne : ch ≠ '\''.toUInt8 := fun h => hquote (h ▸ List.mem_cons_self)
    have hset : ((flags.set ch).getD flags).quote = flags.quote ∧ ((flags.set ch).getD flags).unsigned = flags.unsigned := by
      unfold Flags.set
      simp only [if_neg hne]
      split_ifs <;> exact ⟨rfl, rfl⟩
    have hrest := ih (fun h => hquote (List.mem_cons_of_mem ch h)) ((flags.set ch).getD flags)
    exact ⟨hrest.1.trans hset.1, hrest.2.trans hset.2⟩

variable {args : List (Arg δ)}

theorem asWidth_keeps {amount : Amount} {flags' : Flags} {args' : List (Arg δ)} {width : ℤ}
    (h : amount.asWidth flags args = .ok (flags', width, args')) :
    flags'.quote = flags.quote ∧ flags'.unsigned = flags.unsigned := by
  cases amount with
  | none =>
    cases h
    exact ⟨rfl, rfl⟩
  | number n =>
    cases h
    exact ⟨rfl, rfl⟩
  | star =>
    unfold Amount.asWidth at h
    cases harg : vaInt args with
    | error e => simp [harg, bind, Except.bind] at h
    | ok p =>
      simp only [harg, bind, Except.bind] at h
      split_ifs at h <;> cases h <;> exact ⟨rfl, rfl⟩

theorem conf_fields {d : Directive} (hquote : '\''.toUInt8 ∉ d.flags) {counts : List (CFlags × ℕ)} {c : Conf δ}
    (h : d.conf args counts = .ok c) :
    c.flags.quote = false ∧ c.flags.unsigned = false ∧ c.cflags = d.cflags ∧ c.overflow = false := by
  unfold Directive.conf at h
  cases hwidth : d.width.asWidth (Flags.setAll {} d.flags) args with
  | error e => simp [hwidth, bind, Except.bind] at h
  | ok p =>
    obtain ⟨flags, width, args'⟩ := p
    cases hprecision : asPrecision args' d.precision with
    | error e => simp [hwidth, hprecision, bind, Except.bind] at h
    | ok q =>
      have hset := setAll_keeps hquote {}
      have hflags := asWidth_keeps hwidth
      simp only [hwidth, hprecision, bind, Except.bind] at h
      cases h
      exact ⟨hflags.1.trans hset.1, hflags.2.trans hset.2, rfl, rfl⟩

theorem intPrinted_ok {base : ℕ} {width precision : ℤ} {text : Bytes}
    (h : intPrinted thousands_sep value base width precision flags = .ok text) :
    text = intText thousands_sep value base width precision flags := by
  have hbind {α β : Type} {e : Except Halt α} {f : α → Except Halt β} {b : β} (h : e >>= f = .ok b) :
      ∃ a, f a = .ok b := by
    cases e with
    | error e => exact nomatch h
    | ok a => exact ⟨a, h⟩
  unfold intPrinted at h
  obtain ⟨uvalue, h⟩ := hbind h
  obtain ⟨separators, h⟩ := hbind h
  obtain ⟨zpadlen, h⟩ := hbind h
  obtain ⟨spadlen, h⟩ := hbind h
  exact (Except.ok.inj h).symm

theorem integer_text {conv : Conversion} {c : Conf δ} {arg : ℤ} (hargs : c.args = .int arg :: args)
    (h : conv.integer c.cflags arg = some value) (hbase : 1 < conv.base) (hle : conv.base ≤ 16)
    (hquote : c.flags.quote = false) (hsigned : c.flags.unsigned = false) (len : ℕ) :
    ∃ e : Except Halt Bytes, conv.text thousands_sep fmtflt c len = e.map (fun text => ({ c with args := args }, text)) ∧
      ∀ text, e = .ok text → readNumber conv.base text = some value := by
  cases conv with
  | signed =>
    cases h
    have hread := intText_readBack c.flags hquote thousands_sep hbase hle (Int.bmod arg (2 ^ c.cflags.bits)) c.width c.precision
    rw [hsigned] at hread
    refine ⟨intPrinted thousands_sep (Int.bmod arg (2 ^ c.cflags.bits)) 10 c.width c.precision c.flags, ?_, fun text htext => ?_⟩
    · simp only [Conversion.text, hargs, vaInt, bind, Except.bind]
      cases intPrinted thousands_sep (Int.bmod arg (2 ^ c.cflags.bits)) 10 c.width c.precision c.flags <;> rfl
    · rw [intPrinted_ok thousands_sep htext]
      exact hread
  | unsigned base up =>
    cases h
    have hpos : (0 : ℤ) < 2 ^ c.cflags.bits := by positivity
    have hlow := Int.emod_nonneg arg (Int.ne_of_gt hpos)
    have hhigh := Int.emod_lt_of_pos arg hpos
    have hbits : (2 : ℤ) ^ c.cflags.bits ≤ 2 ^ 64 := pow_le_pow_right₀ (by decide) c.cflags.bits_le
    have hread := intText_readBack { c.flags with up := up, unsigned := true } hquote thousands_sep hbase hle
      (arg % 2 ^ c.cflags.bits) c.width c.precision
    rw [if_pos rfl, Int.emod_eq_of_lt hlow (by omega)] at hread
    refine ⟨intPrinted thousands_sep (arg % 2 ^ c.cflags.bits) base c.width c.precision
      { c.flags with up := up, unsigned := true }, ?_, fun text htext => ?_⟩
    · simp only [Conversion.text, hargs, vaInt, bind, Except.bind]
      cases intPrinted thousands_sep (arg % 2 ^ c.cflags.bits) base c.width c.precision
        { c.flags with up := up, unsigned := true } <;> rfl
    · rw [intPrinted_ok thousands_sep htext]
      exact hread
  | double style up | char | string | pointer | count | percent | skip => exact nomatch h

/-- Whatever the flags (but for the separators of thousands), the width, the precision and the type of an integer directive
are, also when they are arguments, the text in the buffer is read as the integer of its argument. -/
theorem directive_readBack {d : Directive} (hquote : '\''.toUInt8 ∉ d.flags) {args args' : List (Arg δ)} {arg value : ℤ}
    {c : Conf δ} (hconf : d.conf args [] = .ok c) (hargs : c.args = .int arg :: args')
    (hinteger : (Conversion.ofChar d.conversion).integer d.cflags arg = some value) {size : ℕ} {str : Bytes}
    (hroom : size ≤ str.length) {p : Printed}
    (hprint : rplVsnprintf thousands_sep fmtflt (some str) size (render [.directive d]) args = .ok p) {len : ℕ}
    (hlen : p.value = len) (hfits : len < size) :
    readNumber (Conversion.ofChar d.conversion).base (p.str.take len) = some value := by
  obtain ⟨hq, hu, hcflags, hoverflow⟩ := conf_fields hquote hconf
  obtain ⟨hbase, hle⟩ := base_bounds d.conversion d.conversion_mem
  obtain ⟨e, htext, hread⟩ := integer_text thousands_sep fmtflt hargs (by rw [hcflags]; exact hinteger) hbase hle hq hu 0
  have hmeaning : meaning thousands_sep fmtflt args [] 0 [.directive d] =
      e.map fun text => (Conf.start args' c.counts, text ++ []) := by
    simp only [meaning, hconf, bind, Except.bind, htext]
    cases e with
    | error e => rfl
    | ok text =>
      simp only [Except.map]
      rw [hoverflow]
      rfl
  have hprinted := rplVsnprintf_of_emits thousands_sep fmtflt (render_emits thousands_sep fmtflt [.directive d] args [])
    size str hroom
  rw [hprint, hmeaning] at hprinted
  obtain ⟨text, rfl⟩ : ∃ text, e = .ok text := by
    cases e with
    | error e => cases hprinted
    | ok text => exact ⟨text, rfl⟩
  have hread := hread text rfl
  simp only [Except.map, List.append_nil] at hprinted
  have hp : p = printed size str (Conf.start args' c.counts) text := Except.ok.inj hprinted
  rw [hp] at hlen ⊢
  have hcases := length_cases (Conf.start args' c.counts, text)
  change length (Conf.start args' c.counts, text) = len at hlen
  have hlength : text.length = len := by
    rcases hcases with hneg | ⟨heq, -⟩
    · omega
    · exact Int.ofNat_inj.mp (heq.symm.trans hlen)
  change readNumber _ ((buffered size str text).take len) = some value
  rw [← hlength, take_buffered (hlength ▸ hfits)]
  exact hread

/-- `"%-*hhd"` prints 300 as the `signed char` 44. -/
theorem directive_readBack_char :
    ∃ p, rplVsnprintf (δ := Unit) [] (fun _ _ _ _ _ => none) (some (List.replicate 8 1)) 8 (ascii "%-*hhd") [.int 6, .int 300] =
      .ok p ∧ readNumber 10 (p.str.take 6) = some 44 := by
  let d : Directive := ⟨['-'.toUInt8], .star, none, .char, 'd'.toUInt8, by decide +kernel, by simp, by simp, by decide +kernel⟩
  have hformat : ascii "%-*hhd" = render [.directive d] := by decide
  obtain ⟨p, hp, hlen⟩ : ∃ p, rplVsnprintf (δ := Unit) [] (fun _ _ _ _ _ => none) (some (List.replicate 8 1)) 8
      (render [.directive d]) [.int 6, .int 300] = .ok p ∧ p.value = (6 : ℕ) :=
    ⟨⟨6, ascii "44    " ++ [0, 1], []⟩, (rplVsnprintf_render [] (fun _ _ _ _ _ => none) [.directive d] _ (by decide)).trans
      (by decide), rfl⟩
  rw [hformat]
  have hinteger : (Conversion.ofChar d.conversion).integer d.cflags 300 = some 44 := by decide
  exact ⟨p, hp, directive_readBack [] (fun _ _ _ _ _ => none) (by decide) rfl rfl hinteger (by decide) hp hlen (by decide)⟩

end

end Libntech.Printf
