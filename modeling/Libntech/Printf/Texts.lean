import Libntech.Printf.Output
import Mathlib.Data.Nat.Digits.Defs

/-! # The texts of strings and of integers -/
namespace Libntech.Printf
set_option autoImplicit false

open Libntech.Json (Bytes ascii)

/-! ## Strings -/

/-- The piece of memory has the end of the string, or more than what the precision asks for. -/
def Readable (precision : ℤ) (value : Bytes) : Prop := 0 ∈ value ∨ precision ≠ -1 ∧ precision.toNat < value.length

instance (precision : ℤ) (value : Bytes) : Decidable (Readable precision value) := inferInstanceAs (Decidable (_ ∨ _))

def chars (precision : ℤ) (value : Bytes) : Bytes :=
  let string := value.takeWhile (· ≠ 0)
  if precision = -1 then string else string.take precision.toNat

/-- "Left justify", or right. -/
def justified (minus : Bool) (padlen : ℤ) (text : Bytes) : Bytes :=
  if minus then text ++ spaces padlen else spaces padlen ++ text

@[simp] theorem spaces_zero : spaces 0 = [] := rfl

@[simp] theorem spaces_max (n : ℤ) : spaces (max n 0) = spaces n := by
  unfold spaces
  congr 1
  omega

theorem justified_max (minus : Bool) (padlen : ℤ) (text : Bytes) :
    justified minus (max padlen 0) text = justified minus padlen text := by
  unfold justified
  rw [spaces_max]

theorem Emits.justified {f : ℕ → Printer Unit} {text : Bytes} (hf : Emits f fun _ => .ok ((), text)) (minus : Bool)
    (padlen : ℤ) :
    Emits (fun size => do
      Printf.outchars size (spaces (if minus then 0 else padlen))
      f size
      Printf.outchars size (spaces (if minus then padlen else 0))) fun _ => .ok ((), justified minus padlen text) := by
  have h := (Emits.outchars (spaces (if minus then 0 else padlen))).seq
    (hf.seq (.outchars (spaces (if minus then padlen else 0))))
  unfold Printf.justified
  cases minus <;> simpa using h

/-- A string is counted in an `int`. -/
def stringText (value : Option Bytes) (width precision : ℤ) (flags : Flags) : Except Halt Bytes :=
  let value := value.getD (ascii "(null)" ++ [0])
  if intMax < (chars precision value).length then .error .overflow
  else if Readable precision value then
    .ok (justified flags.minus (width - (chars precision value).length) (chars precision value))
  else .error .outOfBounds

/-- What is left to be counted. -/
def limited (precision : ℤ) (value : Bytes) (strln : ℕ) : Bytes :=
  if precision = -1 then value.takeWhile (· ≠ 0) else (value.takeWhile (· ≠ 0)).take (precision.toNat - strln)

theorem strnLoop_eq (precision : ℤ) (value : Bytes) (strln : ℕ) (hle : precision ≠ -1 → strln ≤ precision.toNat)
    (hint : (strln : ℤ) ≤ intMax) :
    strnLoop precision value strln =
      if intMax < (strln + (limited precision value strln).length : ℕ) then .error .overflow
      else if 0 ∈ value ∨ precision ≠ -1 ∧ precision.toNat < strln + value.length then
        .ok (strln + (limited precision value strln).length)
      else .error .outOfBounds := by
  induction value generalizing strln with
  | nil =>
    have hnot : ¬((0 : UInt8) ∈ ([] : Bytes) ∨ precision ≠ -1 ∧ precision.toNat < strln + ([] : Bytes).length) := by
      rintro (hmem | ⟨hprec, hlt⟩)
      · exact absurd hmem List.not_mem_nil
      · exact absurd (hle hprec) (by simpa using hlt)
    have hempty : limited precision [] strln = [] := by simp [limited]
    rw [hempty, if_neg (by simpa using hint), if_neg hnot]
    rfl
  | cons c value ih =>
    unfold strnLoop
    by_cases hmore : c ≠ 0 ∧ (precision = -1 ∨ (strln : ℤ) < precision)
    · obtain ⟨hc, hlt⟩ := hmore
      have hcount : strln + (limited precision (c :: value) strln).length =
          strln + 1 + (limited precision value (strln + 1)).length := by
        have hstring : (c :: value).takeWhile (· ≠ 0) = c :: value.takeWhile (· ≠ 0) := by simp [hc]
        unfold limited
        rw [hstring]
        by_cases hprec : precision = -1
        · rw [if_pos hprec, if_pos hprec, List.length_cons, Nat.add_right_comm, Nat.add_assoc]
        · have hsucc : precision.toNat - strln = precision.toNat - (strln + 1) + 1 := by omega
          rw [if_neg hprec, if_neg hprec, hsucc, List.take_succ_cons, List.length_cons, Nat.add_right_comm, Nat.add_assoc]
      have hread : (0 ∈ c :: value ∨ precision ≠ -1 ∧ precision.toNat < strln + (c :: value).length) ↔
          0 ∈ value ∨ precision ≠ -1 ∧ precision.toNat < strln + 1 + value.length := by
        simp [Ne.symm hc, Nat.add_assoc, Nat.add_comm 1]
      simp only [if_pos (And.intro hc hlt), hcount, hread]
      by_cases hfull : (strln : ℤ) = intMax
      · rw [if_pos hfull, if_pos (by omega)]
      · rw [if_neg hfull]
        exact ih (strln + 1) (fun hprec => by omega) (by omega)
    · have hnone : limited precision (c :: value) strln = [] := by
        unfold limited
        by_cases hc : c = 0
        · simp [hc]
        · have hprec : ¬(precision = -1 ∨ (strln : ℤ) < precision) := fun h => hmore ⟨hc, h⟩
          have hzero : precision.toNat - strln = 0 := by omega
          rw [if_neg (by omega), hzero, List.take_zero]
      have hread : 0 ∈ c :: value ∨ precision ≠ -1 ∧ precision.toNat < strln + (c :: value).length := by
        by_cases hc : c = 0
        · exact .inl (hc ▸ List.mem_cons_self)
        · have hprec : ¬(precision = -1 ∨ (strln : ℤ) < precision) := fun h => hmore ⟨hc, h⟩
          rw [List.length_cons]
          exact .inr ⟨by omega, by omega⟩
      rw [if_neg hmore, hnone, List.length_nil, Nat.add_zero, if_neg (by omega), if_pos hread]

theorem strnLoop_zero (precision : ℤ) (value : Bytes) :
    strnLoop precision value 0 =
      if intMax < (chars precision value).length then .error .overflow
      else if Readable precision value then .ok (chars precision value).length else .error .outOfBounds := by
  have hlimited : limited precision value 0 = chars precision value := rfl
  rw [strnLoop_eq precision value 0 (fun _ => Nat.zero_le _) (by decide), hlimited, Nat.zero_add, Nat.zero_add]
  rfl

theorem copyLoop_emits (noprecision : Bool) (value : Bytes) (precision : ℤ)
    (hread : 0 ∈ value ∨ noprecision = false ∧ precision.toNat < value.length) :
    Emits (fun size => copyLoop size noprecision value precision) fun _ => .ok ((),
      if noprecision then value.takeWhile (· ≠ 0) else (value.takeWhile (· ≠ 0)).take precision.toNat) := by
  induction value generalizing precision with
  | nil => exact absurd hread (by simp)
  | cons c value ih =>
    unfold copyLoop
    by_cases hc : c = 0
    · subst hc
      simpa using Emits.pure ()
    · have hstring : (c :: value).takeWhile (· ≠ 0) = c :: value.takeWhile (· ≠ 0) := by simp [hc]
      have hmem : (0 : UInt8) ∈ c :: value ↔ 0 ∈ value := by simp [Ne.symm hc]
      rw [hmem, List.length_cons] at hread
      rw [hstring]
      cases hprec : noprecision with
      | true =>
        subst hprec
        have hread' : (0 : UInt8) ∈ value := hread.resolve_right (by simp)
        have h := (Emits.outchar c).seq (ih (precision - 1) (.inl hread'))
        simpa [hc] using h
      | false =>
        subst hprec
        by_cases hlt : 0 < precision
        · have hsucc : precision.toNat = (precision - 1).toNat + 1 := by omega
          have hread' : (0 : UInt8) ∈ value ∨ false = false ∧ (precision - 1).toNat < value.length :=
            hread.imp id fun h => ⟨rfl, by omega⟩
          have h := (Emits.outchar c).seq (ih (precision - 1) hread')
          rw [hsucc, List.take_succ_cons]
          simpa [hc, hlt] using h
        · have hzero : precision.toNat = 0 := by omega
          rw [hzero, List.take_zero]
          simpa [hlt] using Emits.pure ()

theorem fmtstr_emits (value : Option Bytes) (width precision : ℤ) (flags : Flags) :
    Emits (fun size => fmtstr size value width precision flags) fun _ =>
      (stringText value width precision flags).map fun text => ((), text) := by
  unfold fmtstr stringText
  generalize value.getD (ascii "(null)" ++ [0]) = value
  simp only [strnLoop_zero]
  by_cases hover : intMax < (chars precision value).length
  · simp only [if_pos hover]
    exact fun _ _ _ => rfl
  simp only [if_neg hover]
  by_cases hread : Readable precision value
  · simp only [if_pos hread]
    have hcopy := copyLoop_emits (decide (precision = -1)) value precision (by simpa [Readable] using hread)
    simp only [decide_eq_true_eq] at hcopy
    change Emits _ fun _ => .ok ((), chars precision value) at hcopy
    rw [← justified_max]
    exact hcopy.justified flags.minus _
  · simp only [if_neg hread]
    exact fun _ _ _ => rfl

/-! ## Integers -/

/-- The digits of a number, the last one first; a zero has one. -/
def lowFirst (base : ℕ) (caps : Bool) (value : ℕ) : Bytes :=
  digit caps (value % base) :: (Nat.digits base (value / base)).map (digit caps)

/-- Digits, given with the last one first, with a separator in front of every third one from the end. -/
def grouped (thousands_sep : Bytes) : Bytes → Bytes
  | [] => []
  | [d₀] => [d₀]
  | [d₀, d₁] => [d₁, d₀]
  | [d₀, d₁, d₂] => [d₂, d₁, d₀]
  | d₀ :: d₁ :: d₂ :: d₃ :: rest => grouped thousands_sep (d₃ :: rest) ++ thousands_sep ++ [d₂, d₁, d₀]

def magnitude (flags : Flags) (value : ℤ) : ℕ := if flags.unsigned then (value % 2 ^ 64).toNat else value.natAbs

def signText (flags : Flags) (value : ℤ) : Bytes :=
  if flags.unsigned then []
  else if value < 0 then ['-'.toUInt8]
  else if flags.plus then ['+'.toUInt8]
  else if flags.space then [' '.toUInt8]
  else []

def hexprefixText (flags : Flags) (base uvalue : ℕ) : Bytes :=
  if flags.num ∧ uvalue ≠ 0 ∧ base = 16 then ['0'.toUInt8, if flags.up then 'X'.toUInt8 else 'x'.toUInt8] else []

def zeros (n : ℤ) : Bytes := List.replicate n.toNat '0'.toUInt8

def intText (thousands_sep : Bytes) (value : ℤ) (base : ℕ) (width precision : ℤ) (flags : Flags) : Bytes :=
  let uvalue := magnitude flags value
  let digits := lowFirst base flags.up uvalue
  let printed := if flags.quote then grouped thousands_sep digits else digits.reverse
  let front := signText flags value ++ hexprefixText flags base uvalue
  let least := if flags.num ∧ uvalue ≠ 0 ∧ base = 8 ∧ precision ≤ digits.length then (digits.length : ℤ) + 1 else precision
  let zpadlen := max (least - printed.length) 0
  let spadlen := max (width - (printed.length - digits.length) - max least digits.length - front.length) 0
  if flags.minus = false ∧ flags.zero ∧ precision = -1 then front ++ zeros (zpadlen + spadlen) ++ printed
  else justified flags.minus spadlen (front ++ zeros zpadlen ++ printed)

/-- The length of the separators between so many digits. -/
def separatorsLength (thousands_sep : Bytes) (digits : ℕ) : ℕ :=
  (digits - if digits % 3 = 0 then 1 else 0) / 3 * thousands_sep.length

/-- The text of a number, if all that `fmtint` computes is in range. -/
def intPrinted (thousands_sep : Bytes) (value : ℤ) (base : ℕ) (width precision : ℤ) (flags : Flags) :
    Except Halt Bytes := do
  let uvalue ← absolute flags value
  let pos := (lowFirst base flags.up uvalue).length
  let least := if flags.num ∧ uvalue ≠ 0 ∧ base = 8 ∧ precision ≤ pos then (pos : ℤ) + 1 else precision
  let separators ← (if flags.quote then getnumsep thousands_sep pos else .ok 0 : Except Halt ℕ)
  let _ ← intDifference (least - pos - separators)
  let _ ← intDifference (width - separators - max least pos - (signText flags value).length -
    (hexprefixText flags base uvalue).length)
  return intText thousands_sep value base width precision flags

theorem convert_eq {base : ℕ} (hbase : 1 < base) (caps : Bool) {size value : ℕ} (hvalue : value < base ^ (size + 1)) :
    convert base caps (size + 1) value = lowFirst base caps value := by
  induction size generalizing value with
  | zero =>
    rw [Nat.zero_add, pow_one] at hvalue
    have hdiv : value / base = 0 := Nat.div_eq_of_lt hvalue
    simp [convert, lowFirst, hdiv]
  | succ size ih =>
    unfold convert lowFirst
    by_cases hdiv : value / base = 0
    · simp [hdiv]
    · rw [if_neg hdiv, ih (Nat.div_lt_of_lt_mul (by rwa [← pow_succ'])), Nat.digits_def' hbase (Nat.pos_of_ne_zero hdiv)]
      rfl

section

variable (thousands_sep : Bytes)

/-- What is put out for the digits below a position. -/
def placed (quoted : Prop) [Decidable quoted] (iconvert : Bytes) : ℕ → Bytes
  | 0 => []
  | pos + 1 => (iconvert[pos]?).toList ++ (if quoted ∧ 0 < pos ∧ pos % 3 = 0 then thousands_sep else []) ++
      placed quoted iconvert pos

theorem digitsLoop_emits (separators : ℕ) (iconvert : Bytes) (pos : ℕ) (hpos : pos ≤ iconvert.length) :
    Emits (fun size => digitsLoop thousands_sep size separators iconvert pos) fun _ =>
      .ok ((), placed thousands_sep (0 < separators) iconvert pos) := by
  induction pos with
  | zero => exact .pure ()
  | succ pos ih =>
    have hget : iconvert[pos]? = some iconvert[pos] := List.getElem?_eq_getElem hpos
    unfold digitsLoop placed
    simp only [hget, Option.toList_some, List.append_assoc]
    have hrest := ih (Nat.le_of_succ_le hpos)
    refine (Emits.outchar _).seq ?_
    split_ifs
    · exact (Emits.outchars thousands_sep).seq hrest
    · exact hrest

theorem placed_plain {quoted : Prop} [Decidable quoted] {iconvert : Bytes} {pos : ℕ} (hpos : pos ≤ iconvert.length)
    (hnone : quoted → pos ≤ 3 ∨ thousands_sep = []) : placed thousands_sep quoted iconvert pos = (iconvert.take pos).reverse := by
  induction pos with
  | zero => rfl
  | succ pos ih =>
    have hsep : (if quoted ∧ 0 < pos ∧ pos % 3 = 0 then thousands_sep else []) = [] := by
      split_ifs with h
      · exact (hnone h.1).resolve_left (by omega)
      · rfl
    unfold placed
    rw [hsep, ih (Nat.le_of_succ_le hpos) fun h => (hnone h).imp Nat.le_of_succ_le id, List.take_add_one,
      List.reverse_append, List.getElem?_eq_getElem hpos]
    rfl

theorem placed_shift (d₀ d₁ d₂ d₃ : UInt8) (rest : Bytes) (pos : ℕ) :
    placed thousands_sep True (d₀ :: d₁ :: d₂ :: d₃ :: rest) (pos + 4) =
      placed thousands_sep True (d₃ :: rest) (pos + 1) ++ thousands_sep ++ [d₂, d₁, d₀] := by
  induction pos with
  | zero => simp [placed]
  | succ pos ih =>
    have hmod : (pos + 4) % 3 = 0 ↔ (pos + 1) % 3 = 0 := by omega
    rw [placed, ih]
    conv_rhs => rw [placed]
    simp [hmod]

theorem placed_grouped (iconvert : Bytes) :
    placed thousands_sep True iconvert iconvert.length = grouped thousands_sep iconvert := by
  induction iconvert using grouped.induct with
  | case1 | case2 | case3 | case4 =>
    rw [placed_plain thousands_sep (Nat.le_refl _) fun _ => .inl (by simp), List.take_length]
    rfl
  | case5 d₀ d₁ d₂ d₃ rest ih =>
    rw [grouped, ← ih]
    exact placed_shift thousands_sep d₀ d₁ d₂ d₃ rest rest.length

theorem grouped_length (digits : Bytes) :
    (grouped thousands_sep digits).length = digits.length + separatorsLength thousands_sep digits.length := by
  induction digits using grouped.induct with
  | case1 | case2 | case3 | case4 => simp [grouped, separatorsLength]
  | case5 d₀ d₁ d₂ d₃ rest ih =>
    have hnum : separatorsLength thousands_sep (rest.length + 1 + 3) =
        separatorsLength thousands_sep (rest.length + 1) + thousands_sep.length := by
      unfold separatorsLength
      rw [← Nat.succ_mul]
      congr 1
      split_ifs <;> omega
    simp only [grouped, List.length_append, ih, List.length_cons, List.length_nil]
    change _ = _ + separatorsLength thousands_sep (rest.length + 1 + 3)
    omega

theorem printed_length (quote : Bool) (digits : Bytes) :
    (if quote then grouped thousands_sep digits else digits.reverse).length =
      digits.length + if quote then separatorsLength thousands_sep digits.length else 0 := by
  cases quote <;> simp [grouped_length]

/-- The digits with their separators, as `fmtint` counts and prints them. -/
theorem digits_emits (quote : Bool) (digits : Bytes) :
    Emits (fun size => digitsLoop thousands_sep size (if quote then separatorsLength thousands_sep digits.length else 0) digits
      digits.length) fun _ => .ok ((), if quote then grouped thousands_sep digits else digits.reverse) := by
  have h := digitsLoop_emits thousands_sep (if quote then separatorsLength thousands_sep digits.length else 0) digits
    digits.length (Nat.le_refl _)
  have htext : placed thousands_sep (0 < if quote then separatorsLength thousands_sep digits.length else 0) digits digits.length =
      if quote then grouped thousands_sep digits else digits.reverse := by
    cases quote with
    | false =>
      rw [placed_plain thousands_sep (Nat.le_refl _) fun hlt => absurd hlt (by simp), List.take_length]
      rfl
    | true =>
      simp only [if_true]
      by_cases hsep : 0 < separatorsLength thousands_sep digits.length
      · simp only [hsep]
        exact placed_grouped thousands_sep digits
      · have hnone : digits.length ≤ 3 ∨ thousands_sep = [] := by
          rcases Nat.mul_eq_zero.mp (Nat.eq_zero_of_not_pos hsep) with hnum | hempty
          · exact .inl (by split_ifs at hnum <;> omega)
          · exact .inr (List.eq_nil_of_length_eq_zero hempty)
        rw [← placed_grouped, placed_plain thousands_sep (Nat.le_refl _) fun _ => hnone,
          placed_plain thousands_sep (Nat.le_refl _) fun _ => hnone]
  rwa [htext] at h

theorem magnitude_lt {flags : Flags} {value : ℤ} (hvalue : value.natAbs < 2 ^ 64) : magnitude flags value < 2 ^ 64 := by
  unfold magnitude
  split_ifs <;> omega

/-- The order in which `fmtint` puts out its pieces. -/
theorem layout_emits {digits : ℕ → Printer Unit} {printed : Bytes} (hdigits : Emits digits fun _ => .ok ((), printed))
    (sign hex : Bytes) (minus : Bool) (zeroed : Prop) [Decidable zeroed] (zpadlen spadlen : ℤ) :
    Emits (fun size => do
      outchars size (spaces (if minus = true ∨ minus = false ∧ zeroed then 0 else spadlen))
      outchars size sign
      outchars size hex
      outchars size (List.replicate (if minus = false ∧ zeroed then zpadlen + spadlen else zpadlen).toNat '0'.toUInt8)
      digits size
      outchars size (spaces (if minus then spadlen else 0))) fun _ =>
      .ok ((), if minus = false ∧ zeroed then sign ++ hex ++ zeros (zpadlen + spadlen) ++ printed
        else justified minus spadlen (sign ++ hex ++ zeros zpadlen ++ printed)) := by
  have h := (Emits.outchars (spaces (if minus = true ∨ minus = false ∧ zeroed then 0 else spadlen))).seq
    ((Emits.outchars sign).seq ((Emits.outchars hex).seq
      ((Emits.outchars (zeros (if minus = false ∧ zeroed then zpadlen + spadlen else zpadlen))).seq
        (hdigits.seq (.outchars (spaces (if minus then spadlen else 0)))))))
  have htext : spaces (if minus = true ∨ minus = false ∧ zeroed then 0 else spadlen) ++ (sign ++ (hex ++
      (zeros (if minus = false ∧ zeroed then zpadlen + spadlen else zpadlen) ++
        (printed ++ spaces (if minus then spadlen else 0))))) =
      if minus = false ∧ zeroed then sign ++ hex ++ zeros (zpadlen + spadlen) ++ printed
      else justified minus spadlen (sign ++ hex ++ zeros zpadlen ++ printed) := by
    cases minus <;> by_cases hzeroed : zeroed <;> simp [hzeroed, justified]
  rw [htext] at h
  exact h

theorem absolute_eq {flags : Flags} {value : ℤ} {uvalue : ℕ} (h : absolute flags value = .ok uvalue) :
    uvalue = magnitude flags value := by
  unfold absolute at h
  unfold magnitude
  split_ifs at h ⊢ <;> exact (Except.ok.inj h).symm

theorem getnumsep_eq {digits separators : ℕ} (h : getnumsep thousands_sep digits = .ok separators) :
    separators = separatorsLength thousands_sep digits := by
  unfold getnumsep at h
  extract_lets at h
  split_ifs at h
  exact (Except.ok.inj h).symm

theorem intDifference_eq {n m : ℤ} (h : intDifference n = .ok m) : m = n := by
  unfold intDifference at h
  split_ifs at h
  exact (Except.ok.inj h).symm

/-- `fmtint` prints the text of its number. -/
theorem fmtint_emits {value : ℤ} {base : ℕ} (hvalue : value.natAbs < 2 ^ 64) (hbase : 8 ≤ base) (width precision : ℤ)
    (flags : Flags) :
    Emits (fun size => fmtint thousands_sep size value base width precision flags) fun _ =>
      (intPrinted thousands_sep value base width precision flags).map fun text => ((), text) := by
  have hconvert : convert base flags.up maxConvertLength (magnitude flags value) =
      lowFirst base flags.up (magnitude flags value) :=
    convert_eq (by omega) flags.up (calc
      magnitude flags value < 2 ^ 64 := magnitude_lt hvalue
      _ ≤ 8 ^ (42 + 1) := by norm_num
      _ ≤ base ^ (42 + 1) := Nat.pow_le_pow_left hbase _)
  have hdigits := digits_emits thousands_sep flags.quote (lowFirst base flags.up (magnitude flags value))
  have hlength := printed_length thousands_sep flags.quote (lowFirst base flags.up (magnitude flags value))
  have hmap (e : Except Halt Bytes) : (e.map fun text => ((), text)) = e >>= fun text => .ok ((), text) := by
    cases e <;> rfl
  unfold fmtint intPrinted
  simp only [hmap, bind_assoc, pure_bind]
  refine .lift_bind_of _ fun uvalue habs => ?_
  obtain rfl := absolute_eq habs
  simp only [hconvert]
  refine .lift_bind_of _ fun separators hseparators => ?_
  refine .lift_bind_of _ fun zpadlen hzpad => .lift_bind_of _ fun spadlen hspad => ?_
  have hsep : separators = if flags.quote then
      separatorsLength thousands_sep (lowFirst base flags.up (magnitude flags value)).length else 0 := by
    cases hquote : flags.quote with
    | false =>
      rw [hquote] at hseparators
      exact (Except.ok.inj hseparators).symm
    | true =>
      rw [hquote] at hseparators
      exact getnumsep_eq thousands_sep hseparators
  rw [intDifference_eq hzpad, intDifference_eq hspad]
  rw [← hsep] at hdigits hlength
  unfold intText
  simp only [hlength, List.length_append]
  generalize lowFirst base flags.up (magnitude flags value) = digits at hdigits
  have hcount : ((digits.length + separators : ℕ) : ℤ) - digits.length = separators := by omega
  have hzeros (least : ℤ) : least - ((digits.length + separators : ℕ) : ℤ) = least - digits.length - separators := by omega
  have hroom (room : ℤ) (sign hexprefix : Bytes) :
      room - ((sign.length + hexprefix.length : ℕ) : ℤ) = room - sign.length - hexprefix.length := by omega
  simp only [hcount, hzeros, hroom]
  exact layout_emits hdigits (signText flags value) (hexprefixText flags base (magnitude flags value)) flags.minus
    (flags.zero = true ∧ precision = -1) _ _

end

end Libntech.Printf
