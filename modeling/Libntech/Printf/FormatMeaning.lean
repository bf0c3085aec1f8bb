import Libntech.Printf.Directives
import Mathlib.Data.Nat.Digits.Lemmas

/-! # Formats are read as they are written

A format is written from pieces. What its characters do to the states of the loop is what the pieces mean.
-/
namespace Libntech.Printf
set_option autoImplicit false

open Libntech.Json (Bytes ascii)

/-! ## Pieces -/

def flagChars : Bytes := ascii "-+ #0'"

def modifierChars : Bytes := ascii "hlLjtz"

def conversionChars : Bytes := ascii "diXxouAFafEeGgcspn%"

/-- A width, or what is behind the point of a precision. -/
inductive Amount where
  | none
  | number (n : ℕ)
  | star
  deriving DecidableEq

/-- A width does not begin with a zero, which is a flag. -/
structure Directive where
  flags : Bytes
  width : Amount
  precision : Option Amount
  cflags : CFlags
  conversion : UInt8
  flags_mem : ∀ ch ∈ flags, ch ∈ flagChars
  width_bounds : ∀ n, width = .number n → 0 < n ∧ (n : ℤ) ≤ intMax
  precision_bound : ∀ n, precision = some (.number n) → (n : ℤ) ≤ intMax
  conversion_mem : conversion ∈ conversionChars

inductive Piece where
  | chars (text : Bytes) (plain : '%'.toUInt8 ∉ text)
  | directive (d : Directive)

def decimal (n : ℕ) : Bytes := (lowFirst 10 false n).reverse

def Amount.render : Amount → Bytes
  | .none => []
  | .number n => decimal n
  | .star => ['*'.toUInt8]

def precisionText : Option Amount → Bytes
  | none => []
  | some amount => '.'.toUInt8 :: amount.render

def CFlags.render : CFlags → Bytes
  | .none => []
  | .char => ascii "hh"
  | .short => ascii "h"
  | .long => ascii "l"
  | .llong => ascii "ll"
  | .ldouble => ascii "L"
  | .size => ascii "z"
  | .ptrdiff => ascii "t"
  | .intmax => ascii "j"

def Directive.render (d : Directive) : Bytes :=
  '%'.toUInt8 :: (d.flags ++ (d.width.render ++ (precisionText d.precision ++ (d.cflags.render ++ [d.conversion]))))

def Piece.render : Piece → Bytes
  | .chars text _ => text
  | .directive d => d.render

def render (pieces : List Piece) : Bytes := pieces.flatMap Piece.render

/-! ## Their meaning -/

section

variable {δ : Type}

/-- "A negative field width argument is taken as a `-' flag followed by a positive field width." -/
def Amount.asWidth (flags : Flags) (args : List (Arg δ)) : Amount → Except Halt (Flags × ℤ × List (Arg δ))
  | .none => .ok (flags, 0, args)
  | .number n => .ok (flags, n, args)
  | .star => do
    let (arg, args) ← vaInt args
    let width := Int.bmod arg (2 ^ 32)
    if width = -2147483648 then throw .overflow
    else if width < 0 then return ({ flags with minus := true }, -width, args)
    else return (flags, width, args)

/-- "A negative precision argument is taken as if the precision were omitted." -/
def asPrecision (args : List (Arg δ)) : Option Amount → Except Halt (ℤ × List (Arg δ))
  | none => .ok (-1, args)
  | some .none => .ok (0, args)
  | some (.number n) => .ok (n, args)
  | some .star => do
    let (arg, args) ← vaInt args
    let precision := Int.bmod arg (2 ^ 32)
    return (if precision < 0 then -1 else precision, args)

def Flags.setAll (flags : Flags) (chars : Bytes) : Flags := chars.foldl (fun flags ch => (flags.set ch).getD flags) flags

/-- What is known when the conversion is reached. -/
def Directive.conf (d : Directive) (args : List (Arg δ)) (counts : List (CFlags × ℕ)) : Except Halt (Conf δ) := do
  let (flags, width, args) ← d.width.asWidth (Flags.setAll {} d.flags) args
  let (precision, args) ← asPrecision args d.precision
  return ⟨.conv, flags, width, precision, d.cflags, false, args, counts⟩

variable (thousands_sep : Bytes) (fmtflt : FloatStyle → δ → ℤ → ℤ → Flags → Option Bytes)

/-- What the pieces print behind so many characters. Nothing is printed behind an overflow. -/
def meaning (args : List (Arg δ)) (counts : List (CFlags × ℕ)) (len : ℕ) : List Piece → Except Halt (Conf δ × Bytes)
  | [] => .ok (Conf.start args counts, [])
  | .chars text _ :: rest => do
    let (c, more) ← meaning args counts (len + text.length) rest
    return (c, text ++ more)
  | .directive d :: rest => do
    let c ← d.conf args counts
    let (c, text) ← (Conversion.ofChar d.conversion).text thousands_sep fmtflt c len
    let (c, more) ← (if c.overflow then .ok (c, []) else meaning c.args c.counts (len + text.length) rest)
    return (c, text ++ more)

/-! ## Turns of the loop -/

variable {size : ℕ} {c c' : Conf δ} {ch : UInt8} {format rest : Bytes}

theorem loop_cons (c : Conf δ) (ch : UInt8) (format : Bytes) : loop thousands_sep fmtflt size c (ch :: format) =
    (turn thousands_sep fmtflt size c ch format >>= fun p => loop thousands_sep fmtflt size p.1 p.2 : Printer (Conf δ)) := by
  funext out
  change _ = (turn thousands_sep fmtflt size c ch format out >>= fun p => loop thousands_sep fmtflt size p.1.1 p.1.2 p.2)
  rw [loop]
  split
  · rename_i h
    rw [h]
    rfl
  · rename_i h
    rw [h]
    rfl

theorem loop_nil (c : Conf δ) : loop thousands_sep fmtflt size c [] = (pure c : Printer (Conf δ)) := by
  funext out
  rw [loop]
  rfl

theorem loop_pure (h : turn thousands_sep fmtflt size c ch format = pure (c', rest)) :
    loop thousands_sep fmtflt size c (ch :: format) = loop thousands_sep fmtflt size c' rest := by
  rw [loop_cons, h]
  rfl

/-! ## Numbers -/

theorem lowFirst_decimal (n : ℕ) : lowFirst 10 false n = (if n = 0 then [0] else Nat.digits 10 n).map (digit false) := by
  split_ifs with hzero
  · rw [hzero]
    rfl
  · rw [Nat.digits_def' (by omega) (Nat.pos_of_ne_zero hzero)]
    rfl

/-- The digits in the order in which they are read. -/
def decimalDigits (n : ℕ) : List ℕ := (if n = 0 then [0] else Nat.digits 10 n).reverse

theorem decimal_eq (n : ℕ) : decimal n = (decimalDigits n).map (digit false) := by
  rw [decimal, lowFirst_decimal, decimalDigits, List.map_reverse]

variable {d n w : ℕ}

theorem decimalDigits_lt (h : d ∈ decimalDigits n) : d < 10 := by
  rw [decimalDigits, List.mem_reverse] at h
  split_ifs at h
  · rw [List.mem_singleton.mp h]
    omega
  · exact Nat.digits_lt_base (by omega) h

def readDigits (value : ℕ) (digits : List ℕ) : ℕ := digits.foldl (fun value d => 10 * value + d) value

theorem readDigits_decimal (n : ℕ) : readDigits 0 (decimalDigits n) = n := by
  rw [readDigits, decimalDigits, List.foldl_reverse]
  split_ifs with hzero
  · exact hzero.symm
  · have h := Nat.ofDigits_eq_foldr 10 (Nat.digits 10 n)
    rw [Nat.ofDigits_digits] at h
    conv_rhs => rw [h]
    simp [Nat.add_comm]

theorem le_readDigits (value : ℕ) (digits : List ℕ) : value ≤ readDigits value digits := by
  induction digits generalizing value with
  | nil => exact Nat.le_refl _
  | cons d digits ih => exact Nat.le_trans (by omega) (ih (10 * value + d))

theorem digit_isDigit (hd : d < 10) : isDigit (digit false d) = true ∧ charToInt (digit false d) = d := by
  have h : ∀ d < 10, isDigit (digit false d) = true ∧ charToInt (digit false d) = d := by decide
  exact h d hd

theorem width_digit (hd : d < 10) (hle : ((10 * w + d : ℕ) : ℤ) ≤ intMax) (format : Bytes) :
    widthTurn { c with width := w } (digit false d) format =
      .ok ({ c with width := (10 * w + d : ℕ) }, format) := by
  obtain ⟨hdigit, hvalue⟩ := digit_isDigit hd
  unfold intMax at hle
  unfold widthTurn intMax
  rw [if_pos hdigit, hvalue, if_neg (by simp only; omega)]
  simp

theorem precision_digit (hd : d < 10) (hle : ((10 * w + d : ℕ) : ℤ) ≤ intMax) (format : Bytes) :
    precisionTurn { c with precision := w } (digit false d) format =
      .ok ({ c with precision := (10 * w + d : ℕ) }, format) := by
  obtain ⟨hdigit, hvalue⟩ := digit_isDigit hd
  have hnot : ((w : ℕ) : ℤ) ≠ -1 := by omega
  unfold intMax at hle
  unfold precisionTurn intMax
  simp only [if_neg hnot, if_pos hdigit, hvalue]
  rw [if_neg (by omega)]
  simp

/-! ## The states, one after another -/

theorem flagChars_set (flags : Flags) (h : ch ∈ flagChars) : ∃ flags', flags.set ch = some flags' := by
  have hcases : ch = '-'.toUInt8 ∨ ch = '+'.toUInt8 ∨ ch = ' '.toUInt8 ∨ ch = '#'.toUInt8 ∨ ch = '0'.toUInt8 ∨
      ch = '\''.toUInt8 := by simpa [flagChars, ascii] using h
  unfold Flags.set
  split_ifs <;> first | exact ⟨_, rfl⟩ | (exfalso; tauto)

theorem set_eq_none (flags : Flags) (h : ch ∉ flagChars) : flags.set ch = none := by
  have hne : ∀ f ∈ flagChars, ch ≠ f := fun f hf heq => h (heq ▸ hf)
  unfold Flags.set
  rw [if_neg (hne _ (by decide)), if_neg (hne _ (by decide)), if_neg (hne _ (by decide)), if_neg (hne _ (by decide)),
    if_neg (hne _ (by decide)), if_neg (hne _ (by decide))]

/-- `PRINT_S_FLAGS` -/
theorem flags_read {flags : Flags} {chars : Bytes} (hchars : ∀ f ∈ chars, f ∈ flagChars) (hnext : ch ∉ flagChars)
    (c : Conf δ) :
    loop thousands_sep fmtflt size { c with state := .flags, flags := flags } (chars ++ ch :: format) =
      loop thousands_sep fmtflt size { c with state := .width, flags := flags.setAll chars } (ch :: format) := by
  induction chars generalizing flags with
  | nil =>
    refine loop_pure thousands_sep fmtflt ?_
    simp only [turn, set_eq_none flags hnext]
    rfl
  | cons f chars ih =>
    obtain ⟨flags', hset⟩ := flagChars_set flags (hchars f List.mem_cons_self)
    have hstep : turn thousands_sep fmtflt size { c with state := .flags, flags := flags } f (chars ++ ch :: format) =
        pure ({ c with state := .flags, flags := flags' }, chars ++ ch :: format) := by
      simp only [turn, hset]
    rw [List.cons_append, loop_pure thousands_sep fmtflt hstep, ih fun g hg => hchars g (List.mem_cons_of_mem f hg)]
    simp only [Flags.setAll, List.foldl_cons, hset, Option.getD_some]

theorem turn_width (hstate : c.state = .width) : turn thousands_sep fmtflt size c ch format = liftM (widthTurn c ch format) := by
  unfold turn
  rw [hstate]

theorem turn_precision (hstate : c.state = .precision) :
    turn thousands_sep fmtflt size c ch format = liftM (precisionTurn c ch format) := by
  unfold turn
  rw [hstate]

theorem loop_width (hstate : c.state = .width) (h : widthTurn c ch format = .ok (c', rest)) :
    loop thousands_sep fmtflt size c (ch :: format) = loop thousands_sep fmtflt size c' rest :=
  loop_pure thousands_sep fmtflt ((turn_width thousands_sep fmtflt hstate).trans (congrArg liftM h))

theorem loop_precision (hstate : c.state = .precision) (h : precisionTurn c ch format = .ok (c', rest)) :
    loop thousands_sep fmtflt size c (ch :: format) = loop thousands_sep fmtflt size c' rest :=
  loop_pure thousands_sep fmtflt ((turn_precision thousands_sep fmtflt hstate).trans (congrArg liftM h))

section Number

-- a state that takes the digits of a number one after another
variable (conf : ℕ → Conf δ) (hturn : ∀ w d, d < 10 → ((10 * w + d : ℕ) : ℤ) ≤ intMax → ∀ format,
  loop thousands_sep fmtflt size (conf w) (digit false d :: format) =
    loop thousands_sep fmtflt size (conf (10 * w + d)) format)
include hturn

theorem digits_read {digits : List ℕ} (hdigits : ∀ d ∈ digits, d < 10) (hle : (readDigits w digits : ℤ) ≤ intMax) :
    loop thousands_sep fmtflt size (conf w) (digits.map (digit false) ++ format) =
      loop thousands_sep fmtflt size (conf (readDigits w digits)) format := by
  induction digits generalizing w with
  | nil => rfl
  | cons d digits ih =>
    have hbound : ((10 * w + d : ℕ) : ℤ) ≤ intMax :=
      le_trans (Int.ofNat_le.mpr (le_readDigits (10 * w + d) digits)) hle
    have hstep := hturn w d (hdigits d List.mem_cons_self) hbound (digits.map (digit false) ++ format)
    exact hstep.trans (ih (fun e he => hdigits e (List.mem_cons_of_mem d he)) hle)

theorem decimal_read (hle : (n : ℤ) ≤ intMax) :
    loop thousands_sep fmtflt size (conf 0) (decimal n ++ format) = loop thousands_sep fmtflt size (conf n) format := by
  have hle' : (readDigits 0 (decimalDigits n) : ℤ) ≤ intMax := by rwa [readDigits_decimal]
  rw [decimal_eq, digits_read thousands_sep fmtflt conf hturn (fun d hd => decimalDigits_lt hd) hle', readDigits_decimal]

end Number

theorem width_over {c : Conf δ} (hdigit : isDigit ch = false) (hstar : ch ≠ '*'.toUInt8) :
    loop thousands_sep fmtflt size { c with state := .width } (ch :: format) =
      loop thousands_sep fmtflt size { c with state := .dot } (ch :: format) := by
  refine loop_width thousands_sep fmtflt rfl ?_
  unfold widthTurn
  rw [if_neg (by simp [hdigit]), if_neg hstar]

/-- `PRINT_S_WIDTH` -/
theorem width_read (d : Directive) (hdigit : isDigit ch = false) (hstar : ch ≠ '*'.toUInt8) (c : Conf δ) :
    loop thousands_sep fmtflt size { c with state := .width, width := 0 } (d.width.render ++ ch :: format) =
      (liftM (d.width.asWidth c.flags c.args) >>= fun p => loop thousands_sep fmtflt size
        { c with state := .dot, flags := p.1, width := p.2.1, args := p.2.2 } (ch :: format) : Printer (Conf δ)) := by
  cases hwidth : d.width with
  | none => exact width_over thousands_sep fmtflt (c := { c with width := 0 }) hdigit hstar
  | number n =>
    have hnumber : loop thousands_sep fmtflt size { c with state := .width, width := (0 : ℕ) } (decimal n ++ ch :: format) =
        loop thousands_sep fmtflt size { c with state := .width, width := n } (ch :: format) :=
      decimal_read thousands_sep fmtflt (fun w => { c with state := .width, width := w })
        (fun w e he hle format => loop_width thousands_sep fmtflt rfl
          (width_digit (c := { c with state := .width }) he hle format))
        (d.width_bounds n hwidth).2
    exact hnumber.trans (width_over thousands_sep fmtflt (c := { c with width := n }) hdigit hstar)
  | star =>
    have hnot : isDigit '*'.toUInt8 = false := by decide
    rw [show Amount.star.render ++ ch :: format = '*'.toUInt8 :: ch :: format from rfl, loop_cons,
      turn_width thousands_sep fmtflt rfl]
    unfold widthTurn Amount.asWidth
    rw [if_neg (by simp [hnot]), if_pos rfl]
    cases harg : vaInt c.args with
    | error e => rfl
    | ok p =>
      obtain ⟨arg, args⟩ := p
      simp only [bind, Except.bind]
      split_ifs <;> rfl

theorem precision_over {c : Conf δ} (hdigit : isDigit ch = false) (hstar : ch ≠ '*'.toUInt8) :
    loop thousands_sep fmtflt size { c with state := .precision, precision := n } (ch :: format) =
      loop thousands_sep fmtflt size { c with state := .mod, precision := n } (ch :: format) := by
  refine loop_precision thousands_sep fmtflt rfl ?_
  have hnot : ((n : ℕ) : ℤ) ≠ -1 := by omega
  unfold precisionTurn
  simp only [if_neg hnot]
  rw [if_neg (by simp [hdigit]), if_neg hstar]

theorem precision_absent : loop thousands_sep fmtflt size { c with state := .precision, precision := -1 } (ch :: format) =
    loop thousands_sep fmtflt size { c with state := .precision, precision := (0 : ℕ) } (ch :: format) := by
  rw [loop_cons, loop_cons, turn_precision thousands_sep fmtflt rfl, turn_precision thousands_sep fmtflt rfl]
  rfl

theorem dot_read {c : Conf δ} : loop thousands_sep fmtflt size { c with state := .dot } ('.'.toUInt8 :: format) =
    loop thousands_sep fmtflt size { c with state := .precision } format :=
  loop_pure thousands_sep fmtflt rfl

/-- `PRINT_S_DOT` and `PRINT_S_PRECISION` -/
theorem precision_read (d : Directive) (hdigit : isDigit ch = false) (hstar : ch ≠ '*'.toUInt8) (hdot : ch ≠ '.'.toUInt8)
    (c : Conf δ) :
    loop thousands_sep fmtflt size { c with state := .dot, precision := -1 } (precisionText d.precision ++ ch :: format) =
      (liftM (asPrecision c.args d.precision) >>= fun p => loop thousands_sep fmtflt size
        { c with state := .mod, precision := p.1, args := p.2 } (ch :: format) : Printer (Conf δ)) := by
  match hprecision : d.precision with
  | none => exact loop_pure thousands_sep fmtflt (if_neg hdot)
  | some .none =>
    exact ((dot_read thousands_sep fmtflt (c := { c with precision := -1 })).trans
      (precision_absent thousands_sep fmtflt)).trans (precision_over thousands_sep fmtflt hdigit hstar)
  | some (.number n) =>
    have hnumber : loop thousands_sep fmtflt size { c with state := .precision, precision := (0 : ℕ) }
        (decimal n ++ ch :: format) =
        loop thousands_sep fmtflt size { c with state := .precision, precision := n } (ch :: format) :=
      decimal_read thousands_sep fmtflt (fun w => { c with state := .precision, precision := w })
        (fun w e he hle format => loop_precision thousands_sep fmtflt rfl
          (precision_digit (c := { c with state := .precision }) he hle format))
        (d.precision_bound n hprecision)
    have hne : ∃ d₀ ds, decimal n = d₀ :: ds := List.exists_cons_of_ne_nil (by simp [decimal, lowFirst])
    obtain ⟨d₀, ds, hdecimal⟩ := hne
    rw [hdecimal] at hnumber
    change loop thousands_sep fmtflt size { c with state := .dot, precision := -1 }
      ('.'.toUInt8 :: (decimal n ++ ch :: format)) = _
    rw [hdecimal]
    exact (((dot_read thousands_sep fmtflt (c := { c with precision := -1 })).trans
      (precision_absent thousands_sep fmtflt)).trans hnumber).trans (precision_over thousands_sep fmtflt hdigit hstar)
  | some .star =>
    have hnot : isDigit '*'.toUInt8 = false := by decide
    have hread : loop thousands_sep fmtflt size { c with state := .precision, precision := -1 } ('*'.toUInt8 :: ch :: format) =
        (liftM (asPrecision c.args (some .star)) >>= fun p => loop thousands_sep fmtflt size
          { c with state := .mod, precision := p.1, args := p.2 } (ch :: format) : Printer (Conf δ)) := by
      rw [loop_cons, turn_precision thousands_sep fmtflt rfl]
      unfold precisionTurn asPrecision
      simp only [hnot, if_true]
      cases harg : vaInt c.args with
      | error e => rfl
      | ok p => rfl
    exact (dot_read thousands_sep fmtflt (c := { c with precision := -1 })).trans hread

/-- `PRINT_S_MOD` -/
theorem modifier_read (cflags : CFlags) (hmod : ch ∉ modifierChars) (c : Conf δ) :
    loop thousands_sep fmtflt size { c with state := .mod } (cflags.render ++ ch :: format) =
      loop thousands_sep fmtflt size { c with state := .conv, cflags := cflags } (ch :: format) := by
  have hne : ∀ m ∈ modifierChars, ch ≠ m := fun m hm heq => hmod (heq ▸ hm)
  have hh : ch ≠ 'h'.toUInt8 := hne _ (by decide)
  have hl : ch ≠ 'l'.toUInt8 := hne _ (by decide)
  have hstep {m : UInt8} (rest : Bytes) (h : modifier (m :: rest) = (cflags, ch :: format)) :
      loop thousands_sep fmtflt size { c with state := .mod } (m :: rest) =
        loop thousands_sep fmtflt size { c with state := .conv, cflags := cflags } (ch :: format) := by
    refine loop_pure thousands_sep fmtflt ?_
    change (pure ({ c with cflags := (modifier (m :: rest)).1, state := .conv }, (modifier (m :: rest)).2) :
      Printer (Conf δ × Bytes)) = _
    rw [h]
  cases cflags with
  | none =>
    refine hstep _ ?_
    unfold modifier
    simp only [if_neg hh, if_neg hl, if_neg (hne _ (by decide : 'L'.toUInt8 ∈ modifierChars)),
      if_neg (hne _ (by decide : 'j'.toUInt8 ∈ modifierChars)), if_neg (hne _ (by decide : 't'.toUInt8 ∈ modifierChars)),
      if_neg (hne _ (by decide : 'z'.toUInt8 ∈ modifierChars))]
  | short =>
    have hhead : (ch :: format).head? ≠ some 'h'.toUInt8 := fun h => hh (Option.some.inj h)
    refine hstep (ch :: format) ?_
    exact if_neg hhead
  | long =>
    have hhead : (ch :: format).head? ≠ some 'l'.toUInt8 := fun h => hl (Option.some.inj h)
    refine hstep (ch :: format) ?_
    exact if_neg hhead
  | char | llong | ldouble | size | ptrdiff | intmax => exact hstep _ rfl

/-! ## Whole formats -/

theorem behind_width : ∀ ch ∈ '.'.toUInt8 :: (modifierChars ++ conversionChars),
    isDigit ch = false ∧ ch ≠ '*'.toUInt8 ∧ ch ∉ flagChars := by decide +kernel

theorem behind_precision : ∀ ch ∈ modifierChars ++ conversionChars, ch ≠ '.'.toUInt8 := by decide +kernel

theorem behind_modifier : ∀ ch ∈ conversionChars, ch ∉ modifierChars := by decide +kernel

theorem modifier_head (d : Directive) (rest : Bytes) :
    ∃ ch more, d.cflags.render ++ d.conversion :: rest = ch :: more ∧ ch ∈ modifierChars ++ conversionChars := by
  cases d.cflags with
  | none => exact ⟨_, _, rfl, List.mem_append_right _ d.conversion_mem⟩
  | _ => exact ⟨_, _, rfl, by decide⟩

theorem precision_head (d : Directive) (rest : Bytes) :
    ∃ ch more, precisionText d.precision ++ (d.cflags.render ++ d.conversion :: rest) = ch :: more ∧
      ch ∈ '.'.toUInt8 :: (modifierChars ++ conversionChars) := by
  cases d.precision with
  | none =>
    obtain ⟨ch, more, heq, hmem⟩ := modifier_head d rest
    exact ⟨ch, more, heq, List.mem_cons_of_mem _ hmem⟩
  | some amount => exact ⟨_, _, rfl, List.mem_cons_self⟩

theorem decimal_head (hpos : 0 < n) : ∃ ch more, decimal n = ch :: more ∧ ch ∉ flagChars := by
  have hne : Nat.digits 10 n ≠ [] := Nat.digits_ne_nil_iff_ne_zero.mpr (Nat.ne_of_gt hpos)
  have hdigits : decimalDigits n = (Nat.digits 10 n).getLast hne :: (Nat.digits 10 n).dropLast.reverse := by
    rw [decimalDigits, if_neg (Nat.ne_of_gt hpos)]
    conv_lhs => rw [← List.dropLast_append_getLast hne]
    rw [List.reverse_append]
    rfl
  have hlast : (Nat.digits 10 n).getLast hne ≠ 0 := Nat.getLast_digit_ne_zero 10 (Nat.ne_of_gt hpos)
  have hlt : (Nat.digits 10 n).getLast hne < 10 := Nat.digits_lt_base (by omega) (List.getLast_mem hne)
  have hall : ∀ d < 10, d ≠ 0 → digit false d ∉ flagChars := by decide
  exact ⟨_, _, by rw [decimal_eq, hdigits, List.map_cons], hall _ hlt hlast⟩

theorem width_head (d : Directive) (rest : Bytes) :
    ∃ ch more, d.width.render ++ (precisionText d.precision ++ (d.cflags.render ++ d.conversion :: rest)) = ch :: more ∧
      ch ∉ flagChars := by
  cases hwidth : d.width with
  | none =>
    obtain ⟨ch, more, heq, hmem⟩ := precision_head d rest
    exact ⟨ch, more, heq, (behind_width ch hmem).2.2⟩
  | number n =>
    obtain ⟨ch, more, heq, hflag⟩ := decimal_head (d.width_bounds n hwidth).1
    exact ⟨ch, _, by rw [Amount.render, heq, List.cons_append], hflag⟩
  | star => exact ⟨_, _, rfl, by decide⟩

theorem lift_bind {α β : Type} (e : Except Halt α) (f : α → Except Halt β) :
    (liftM (e >>= f) : Printer β) = liftM e >>= fun a => (liftM (f a) : Printer β) := by
  cases e <;> rfl

/-- `PRINT_S_CONV` -/
theorem conv_read (hstate : c.state = .conv) : loop thousands_sep fmtflt size c (ch :: format) =
    (conversion thousands_sep fmtflt size c ch >>= fun c => if c.overflow then pure c
      else loop thousands_sep fmtflt size (Conf.start c.args c.counts) format : Printer (Conf δ)) := by
  rw [loop_cons]
  unfold turn
  rw [hstate]
  simp only [bind_assoc]
  congr 1
  funext c'
  split_ifs
  · exact loop_nil thousands_sep fmtflt c'
  · rfl

/-- What the loop does behind the conversion. -/
def afterConversion (size : ℕ) (rest : Bytes) (c : Conf δ) : Printer (Conf δ) :=
  if c.overflow then pure c else loop thousands_sep fmtflt size (Conf.start c.args c.counts) rest

/-- The states read a directive, whose conversion then has what the directive says. -/
theorem directive_read (d : Directive) (rest : Bytes) (args : List (Arg δ)) (counts : List (CFlags × ℕ)) :
    loop thousands_sep fmtflt size (Conf.start args counts) (d.render ++ rest) =
      (liftM (d.conf args counts) >>= fun c => conversion thousands_sep fmtflt size c d.conversion >>=
        afterConversion thousands_sep fmtflt size rest : Printer (Conf δ)) := by
  have hpercent : loop thousands_sep fmtflt size (Conf.start args counts) (d.render ++ rest) =
      loop thousands_sep fmtflt size { Conf.start args counts with state := .flags }
        (d.flags ++ (d.width.render ++ (precisionText d.precision ++ (d.cflags.render ++ d.conversion :: rest)))) := by
    simp only [Directive.render, List.cons_append, List.append_assoc, List.nil_append]
    exact loop_pure thousands_sep fmtflt rfl
  obtain ⟨wch, wmore, hwidth, hflag⟩ := width_head d rest
  obtain ⟨pch, pmore, hprecision, hpmem⟩ := precision_head d rest
  obtain ⟨mch, mmore, hmodifier, hmmem⟩ := modifier_head d rest
  have hpclass := behind_width pch hpmem
  have hmclass := behind_width mch (List.mem_cons_of_mem _ hmmem)
  rw [hpercent, hwidth]
  refine (flags_read thousands_sep fmtflt d.flags_mem hflag (Conf.start args counts)).trans ?_
  rw [← hwidth, hprecision]
  refine (width_read thousands_sep fmtflt d hpclass.1 hpclass.2.1
    { Conf.start args counts with flags := Flags.setAll {} d.flags }).trans ?_
  rw [← hprecision, hmodifier]
  have hbehind (p : Flags × ℤ × List (Arg δ)) :
      loop thousands_sep fmtflt size { Conf.start args counts with state := .dot, flags := p.1, width := p.2.1, args := p.2.2 }
        (precisionText d.precision ++ mch :: mmore) =
      (liftM (asPrecision p.2.2 d.precision) >>= fun q => conversion thousands_sep fmtflt size
        ⟨.conv, p.1, p.2.1, q.1, d.cflags, false, q.2, counts⟩ d.conversion >>=
          afterConversion thousands_sep fmtflt size rest : Printer (Conf δ)) := by
    refine (precision_read thousands_sep fmtflt d hmclass.1 hmclass.2.1 (behind_precision mch hmmem)
      { Conf.start args counts with flags := p.1, width := p.2.1, args := p.2.2 }).trans ?_
    rw [← hmodifier]
    exact congrArg _ (funext fun q => (modifier_read thousands_sep fmtflt d.cflags (behind_modifier _ d.conversion_mem)
      ⟨.mod, p.1, p.2.1, q.1, .none, false, q.2, counts⟩).trans (conv_read thousands_sep fmtflt rfl))
  refine (congrArg _ (funext hbehind)).trans ?_
  unfold Directive.conf
  rw [lift_bind, bind_assoc]
  refine congrArg _ (funext fun p => ?_)
  obtain ⟨flags, width, args⟩ := p
  simp only [lift_bind, bind_assoc]
  rfl

theorem chars_read {text : Bytes} (hplain : '%'.toUInt8 ∉ text) (args : List (Arg δ)) (counts : List (CFlags × ℕ)) :
    loop thousands_sep fmtflt size (Conf.start args counts) (text ++ rest) =
      (outchars size text >>= fun _ => loop thousands_sep fmtflt size (Conf.start args counts) rest : Printer (Conf δ)) := by
  induction text with
  | nil => rfl
  | cons ch text ih =>
    have hne : ch ≠ '%'.toUInt8 := fun h => hplain (h ▸ List.mem_cons_self)
    have hturn : turn thousands_sep fmtflt size (Conf.start args counts) ch (text ++ rest) =
        (do outchar size ch; return (Conf.start args counts, text ++ rest)) := if_neg hne
    rw [List.cons_append, loop_cons, hturn]
    simp only [outchars, bind_assoc, pure_bind]
    congr 1
    funext _
    exact ih fun h => hplain (List.mem_cons_of_mem ch h)

theorem render_emits (pieces : List Piece) (args : List (Arg δ)) (counts : List (CFlags × ℕ)) :
    Emits (fun size => loop thousands_sep fmtflt size (Conf.start args counts) (render pieces)) fun len =>
      meaning thousands_sep fmtflt args counts len pieces := by
  induction pieces generalizing args counts with
  | nil =>
    intro size out _
    exact congrFun (loop_nil thousands_sep fmtflt (Conf.start args counts)) out
  | cons piece rest ih =>
    cases piece with
    | chars text hplain =>
      have hread (size : ℕ) := @chars_read δ thousands_sep fmtflt size (render rest) text hplain args counts
      simp only [render, List.flatMap_cons, Piece.render] at hread ⊢
      simp only [hread]
      exact (Emits.outchars text).bind fun _ => ih args counts
    | directive d =>
      have hread (size : ℕ) := @directive_read δ thousands_sep fmtflt size d (render rest) args counts
      simp only [render, List.flatMap_cons, Piece.render] at hread ⊢
      simp only [hread]
      refine Emits.lift_bind (d.conf args counts) fun c => ?_
      refine (conversion_emits thousands_sep fmtflt c d.conversion).bind (g := fun c size =>
        afterConversion thousands_sep fmtflt size (render rest) c) (q := fun c len =>
        if c.overflow then .ok (c, []) else meaning thousands_sep fmtflt c.args c.counts len rest) fun c' => ?_
      unfold afterConversion
      cases c'.overflow with
      | true => exact .pure c'
      | false => exact ih c'.args c'.counts

end

end Libntech.Printf
