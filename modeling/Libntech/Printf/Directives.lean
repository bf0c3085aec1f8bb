import Libntech.Printf.Texts

/-! # What the directives of a format print

A format is made of characters and of directives; a directive is read by the states of the loop one after another.
-/
namespace Libntech.Printf
set_option autoImplicit false

open Libntech.Json (Bytes ascii)

/-! ## Conversions -/

inductive Conversion where
  | signed
  | unsigned (base : ℕ) (up : Bool)
  | double (style : FloatStyle) (up : Bool)
  | char
  | string
  | pointer
  | count
  | percent
  | skip
  deriving DecidableEq

def Conversion.ofChar (ch : UInt8) : Conversion :=
  if ch = 'd'.toUInt8 ∨ ch = 'i'.toUInt8 then .signed
  else if ch = 'X'.toUInt8 then .unsigned 16 true
  else if ch = 'x'.toUInt8 then .unsigned 16 false
  else if ch = 'o'.toUInt8 then .unsigned 8 false
  else if ch = 'u'.toUInt8 then .unsigned 10 false
  else if ch = 'A'.toUInt8 ∨ ch = 'F'.toUInt8 then .double .f true
  else if ch = 'a'.toUInt8 ∨ ch = 'f'.toUInt8 then .double .f false
  else if ch = 'E'.toUInt8 then .double .e true
  else if ch = 'e'.toUInt8 then .double .e false
  else if ch = 'G'.toUInt8 then .double .g true
  else if ch = 'g'.toUInt8 then .double .g false
  else if ch = 'c'.toUInt8 then .char
  else if ch = 's'.toUInt8 then .string
  else if ch = 'p'.toUInt8 then .pointer
  else if ch = 'n'.toUInt8 then .count
  else if ch = '%'.toUInt8 then .percent
  else .skip

section

variable {δ : Type} (thousands_sep : Bytes) (fmtflt : FloatStyle → δ → ℤ → ℤ → Flags → Option Bytes)

/-- What a conversion prints behind so many characters, with the width, the precision, the flags and the type that were
read. -/
def Conversion.text (c : Conf δ) (len : ℕ) : Conversion → Except Halt (Conf δ × Bytes)
  | .signed => do
    let (arg, args) ← vaInt c.args
    let text ← intPrinted thousands_sep (Int.bmod arg (2 ^ c.cflags.bits)) 10 c.width c.precision c.flags
    return ({ c with args := args }, text)
  | .unsigned base up => do
    let (arg, args) ← vaInt c.args
    let flags := { c.flags with up := up, unsigned := true }
    let text ← intPrinted thousands_sep (arg % 2 ^ c.cflags.bits) base c.width c.precision flags
    return ({ c with args := args }, text)
  | .double style up => do
    let (fvalue, args) ← vaDouble c.args
    let precision := if style = .g ∧ c.precision = 0 then 1 else c.precision
    match fmtflt style fvalue c.width precision { c.flags with up := up } with
    | none => return ({ c with args := args, overflow := true }, [])
    | some text => return ({ c with args := args }, text)
  | .char => do
    let (arg, args) ← vaInt c.args
    return ({ c with args := args }, [UInt8.ofNat (arg % 256).toNat])
  | .string => do
    let (value, args) ← vaString c.args
    (stringText value c.width c.precision c.flags).map fun text => ({ c with args := args }, text)
  | .pointer => do
    let (address, args) ← vaPointer c.args
    let flags := { c.flags with num := true, unsigned := true }
    let text ← (if address = 0 then .ok (justified c.flags.minus (c.width - 5) (ascii "(nil)"))
      else intPrinted thousands_sep address 16 c.width c.precision flags : Except Halt Bytes)
    return ({ c with args := args }, text)
  | .count => do
    let args ← vaCount c.args
    return ({ c with args := args, counts := c.counts ++ [(c.cflags, len)] }, [])
  | .percent => .ok (c, ['%'.toUInt8])
  | .skip => .ok (c, [])

theorem natAbs_bmod_lt (value : ℤ) (bits : ℕ) (hbits : bits ≤ 64) : (Int.bmod value (2 ^ bits)).natAbs < 2 ^ 64 := by
  have hpos : 0 < 2 ^ bits := Nat.two_pow_pos bits
  have hle : 2 ^ bits ≤ 2 ^ 64 := Nat.pow_le_pow_right (by omega) hbits
  have hlow := Int.le_bmod (x := value) hpos
  have hhigh := Int.bmod_lt (x := value) hpos
  omega

theorem CFlags.bits_le (cflags : CFlags) : cflags.bits ≤ 64 := by cases cflags <;> decide

/-- An unsigned number is what it is modulo `2 ^ 64`. -/
theorem intPrinted_unsigned {value value' : ℤ} {flags : Flags} (hunsigned : flags.unsigned = true)
    (heq : value % 2 ^ 64 = value' % 2 ^ 64) (base : ℕ) (width precision : ℤ) :
    intPrinted thousands_sep value base width precision flags =
      intPrinted thousands_sep value' base width precision flags := by
  have hmag : magnitude flags value = magnitude flags value' := by
    simp only [magnitude, hunsigned, if_true, heq]
  have hsign : signText flags value = signText flags value' := by simp [signText, hunsigned]
  have habs : absolute flags value = absolute flags value' := by simp only [absolute, hunsigned, if_true, heq]
  have htext : intText thousands_sep value base width precision flags =
      intText thousands_sep value' base width precision flags := by
    unfold intText
    rw [hmag, hsign]
  unfold intPrinted
  rw [habs, hsign, htext]

theorem nil_text (width : ℤ) (flags : Flags) :
    stringText (some (ascii "(nil)" ++ [0])) width (-1) flags = .ok (justified flags.minus (width - 5) (ascii "(nil)")) := by
  have hread : Readable (-1) (ascii "(nil)" ++ [0]) := by decide
  have hchars : chars (-1) (ascii "(nil)" ++ [0]) = ascii "(nil)" := by decide
  have hlength : (ascii "(nil)").length = 5 := by decide
  have hshort : ¬intMax < ((5 : ℕ) : ℤ) := by decide
  simp only [stringText, Option.getD_some, hchars, hlength, if_neg hshort, if_pos hread]
  rfl

variable (c : Conf δ)

theorem formatSigned_emits :
    Emits (fun size => formatSigned thousands_sep size c) fun len => Conversion.signed.text thousands_sep fmtflt c len := by
  refine Emits.lift_bind (vaInt c.args) fun p => ?_
  obtain ⟨arg, args⟩ := p
  have h := fmtint_emits thousands_sep (natAbs_bmod_lt arg _ c.cflags.bits_le) (by decide : 8 ≤ 10) c.width c.precision
    c.flags
  exact h.result _

theorem formatUnsigned_emits {base : ℕ} (hbase : 8 ≤ base) (up : Bool) :
    Emits (fun size => formatUnsigned thousands_sep size c base up) fun len =>
      (Conversion.unsigned base up).text thousands_sep fmtflt c len := by
  refine Emits.lift_bind (vaInt c.args) fun p => ?_
  obtain ⟨arg, args⟩ := p
  have h := fmtint_emits thousands_sep (natAbs_bmod_lt (arg % 2 ^ c.cflags.bits) 64 (Nat.le_refl _)) hbase c.width
    c.precision { c.flags with up := up, unsigned := true }
  have heq : Int.bmod (arg % 2 ^ c.cflags.bits) (2 ^ 64) % 2 ^ 64 = arg % 2 ^ c.cflags.bits % 2 ^ 64 :=
    Int.bmod_emod
  rw [intPrinted_unsigned thousands_sep rfl heq] at h
  exact h.result _

theorem formatDouble_emits (style : FloatStyle) (up : Bool) :
    Emits (fun size => formatDouble fmtflt size c style up) fun len =>
      (Conversion.double style up).text thousands_sep fmtflt c len := by
  refine Emits.lift_bind (vaDouble c.args) fun p => ?_
  obtain ⟨fvalue, args⟩ := p
  cases h : fmtflt style fvalue c.width (if style = .g ∧ c.precision = 0 then 1 else c.precision) { c.flags with up := up } with
  | none =>
    simp only [h]
    exact .pure _
  | some text =>
    simp only [h]
    exact (Emits.outchars text).returns _

theorem formatChar_emits :
    Emits (fun size => formatChar size c) fun len => Conversion.char.text thousands_sep fmtflt c len := by
  refine Emits.lift_bind (vaInt c.args) fun p => ?_
  obtain ⟨arg, args⟩ := p
  exact (Emits.outchar _).returns _

theorem formatString_emits :
    Emits (fun size => formatString size c) fun len => Conversion.string.text thousands_sep fmtflt c len := by
  refine Emits.lift_bind (vaString c.args) fun p => ?_
  obtain ⟨value, args⟩ := p
  exact (fmtstr_emits value c.width c.precision c.flags).result _

theorem formatPointer_emits :
    Emits (fun size => formatPointer thousands_sep size c) fun len => Conversion.pointer.text thousands_sep fmtflt c len := by
  refine Emits.lift_bind (vaPointer c.args) fun p => ?_
  obtain ⟨address, args⟩ := p
  by_cases hnull : address = 0
  · have h := fmtstr_emits (some (ascii "(nil)" ++ [0])) c.width (-1) c.flags
    rw [nil_text] at h
    simp only [if_pos hnull]
    exact h.result _
  · have h := fmtint_emits thousands_sep (natAbs_bmod_lt address 64 (Nat.le_refl _)) (by decide : 8 ≤ 16) c.width
      c.precision { c.flags with num := true, unsigned := true }
    rw [intPrinted_unsigned thousands_sep rfl Int.bmod_emod] at h
    simp only [if_neg hnull]
    exact h.result _

theorem storeCount_emits :
    Emits (fun _ => storeCount c) fun len => Conversion.count.text thousands_sep fmtflt c len := by
  refine Emits.lift_bind (vaCount c.args) fun args => ?_
  exact fun _ _ _ => rfl

theorem conversion_or {p : Prop} [Decidable p] {f g : ℕ → Printer (Conf δ)} {a b : Conversion}
    (hf : p → Emits f fun len => a.text thousands_sep fmtflt c len)
    (hg : Emits g fun len => b.text thousands_sep fmtflt c len) :
    Emits (fun size => if p then f size else g size) fun len => (if p then a else b).text thousands_sep fmtflt c len := by
  by_cases hp : p
  · simpa only [if_pos hp] using hf hp
  · simpa only [if_neg hp] using hg

theorem conversion_emits (ch : UInt8) :
    Emits (fun size => conversion thousands_sep fmtflt size c ch) fun len =>
      (Conversion.ofChar ch).text thousands_sep fmtflt c len := by
  refine conversion_or _ _ c (fun _ => formatSigned_emits thousands_sep fmtflt c) ?_
  refine conversion_or _ _ c (fun _ => formatUnsigned_emits thousands_sep fmtflt c (by decide) true) ?_
  refine conversion_or _ _ c (fun _ => formatUnsigned_emits thousands_sep fmtflt c (by decide) false) ?_
  refine conversion_or _ _ c (fun _ => formatUnsigned_emits thousands_sep fmtflt c (by decide) false) ?_
  refine conversion_or _ _ c (fun _ => formatUnsigned_emits thousands_sep fmtflt c (by decide) false) ?_
  refine conversion_or _ _ c (fun _ => formatDouble_emits thousands_sep fmtflt c .f true) ?_
  refine conversion_or _ _ c (fun _ => formatDouble_emits thousands_sep fmtflt c .f false) ?_
  refine conversion_or _ _ c (fun _ => formatDouble_emits thousands_sep fmtflt c .e true) ?_
  refine conversion_or _ _ c (fun _ => formatDouble_emits thousands_sep fmtflt c .e false) ?_
  refine conversion_or _ _ c (fun _ => formatDouble_emits thousands_sep fmtflt c .g true) ?_
  refine conversion_or _ _ c (fun _ => formatDouble_emits thousands_sep fmtflt c .g false) ?_
  refine conversion_or _ _ c (fun _ => formatChar_emits thousands_sep fmtflt c) ?_
  refine conversion_or _ _ c (fun _ => formatString_emits thousands_sep fmtflt c) ?_
  refine conversion_or _ _ c (fun _ => formatPointer_emits thousands_sep fmtflt c) ?_
  refine conversion_or _ _ c (fun _ => storeCount_emits thousands_sep fmtflt c) ?_
  refine conversion_or _ _ c (fun hpercent => ?_) (.pure c)
  rw [hpercent]
  exact (Emits.outchar _).returns c

end

end Libntech.Printf
