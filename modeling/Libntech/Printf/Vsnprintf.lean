import Libntech.Json.Element
import Mathlib.Algebra.Group.Int.Defs
import Mathlib.Algebra.Group.Nat.Defs
import Mathlib.Data.Int.Init

/-! # rpl_vsnprintf (`libcompat/snprintf.c`)

`INTMAX_T` has 64 bits, and `int` has 32. Conversions of floating-point numbers are a parameter, and so is the locale's
separator of thousands (a comma if it has none). The width is not negative, and no precision is below -1.
-/
namespace Libntech.Printf
set_option autoImplicit false

open Libntech.Json (Bytes ascii)

/-- What has no meaning in C: an access outside of an array, a signed number that is out of its range, or an argument that is
missing or of another type. -/
inductive Halt where
  | outOfBounds
  | overflow
  | argument
  deriving DecidableEq

def intMax : ℤ := 2147483647

/-- `MAX_CONVERT_LENGTH` -/
def maxConvertLength : ℕ := 43

/-! ## Output -/

/-- The buffer, and how many characters there were. -/
structure Out where
  str : Bytes
  len : ℕ
  deriving DecidableEq

abbrev Printer (α : Type) : Type := StateT Out (Except Halt) α

/-- `OUTCHAR` -/
def outchar (size : ℕ) (ch : UInt8) : Printer Unit := do
  let out ← get
  if out.len + 1 < size then
    if out.len < out.str.length then set (⟨out.str.set out.len ch, out.len + 1⟩ : Out) else throw .outOfBounds
  else set { out with len := out.len + 1 }

/-- A loop that puts out these characters. -/
def outchars (size : ℕ) : Bytes → Printer Unit
  | [] => pure ()
  | ch :: rest => do
    outchar size ch
    outchars size rest

/-- `while (padlen > 0)`, or `< 0` -/
def spaces (n : ℤ) : Bytes := List.replicate n.toNat ' '.toUInt8

/-! ## Conversions -/

/-- `PRINT_F_...`; those that tell the style of a floating-point number are arguments of its conversion. -/
structure Flags where
  minus : Bool := false
  plus : Bool := false
  space : Bool := false
  num : Bool := false
  zero : Bool := false
  quote : Bool := false
  up : Bool := false
  unsigned : Bool := false
  deriving DecidableEq

/-- The first loop of `fmtstr`, which counts in an `int`. -/
def strnLoop (precision : ℤ) : Bytes → ℕ → Except Halt ℕ
  | [], _ => .error .outOfBounds
  | c :: value, strln =>
    if c ≠ 0 ∧ (precision = -1 ∨ (strln : ℤ) < precision) then
      if strln = intMax then .error .overflow else strnLoop precision value (strln + 1)
    else .ok strln

/-- Its copying loop, with what is left of the precision. -/
def copyLoop (size : ℕ) (noprecision : Bool) : Bytes → ℤ → Printer Unit
  | [], _ => throw .outOfBounds
  | c :: value, precision =>
    if c ≠ 0 ∧ (noprecision ∨ 0 < precision) then do
      outchar size c
      copyLoop size noprecision value (precision - 1)
    else pure ()

/-- The value is a piece of memory. "We're forgiving" of `NULL`. The difference of two numbers that are not negative is an
`int`. -/
def fmtstr (size : ℕ) (value : Option Bytes) (width precision : ℤ) (flags : Flags) : Printer Unit := do
  let value := value.getD (ascii "(null)" ++ [0])
  let strln ← strnLoop precision value 0
  let padlen := max (width - strln) 0
  outchars size (spaces (if flags.minus then 0 else padlen))
  copyLoop size (precision = -1) value precision
  outchars size (spaces (if flags.minus then padlen else 0))

def digit (caps : Bool) (d : ℕ) : UInt8 :=
  (ascii (if caps then "0123456789ABCDEF" else "0123456789abcdef")).getD d 0

/-- "We return an unterminated buffer with the digits in reverse order." -/
def convert (base : ℕ) (caps : Bool) : ℕ → ℕ → Bytes
  | 0, _ => []
  | size + 1, value =>
    digit caps (value % base) :: if value / base = 0 then [] else convert base caps size (value / base)

section

variable (thousands_sep : Bytes)

/-- `separators *= strln` -/
def getnumsep (digits : ℕ) : Except Halt ℕ :=
  let separators := (digits - if digits % 3 = 0 then 1 else 0) / 3
  let strln := thousands_sep.length
  if intMax < strln ∨ intMax < (separators * strln : ℕ) then .error .overflow else .ok (separators * strln)

def printsep (size : ℕ) : Printer Unit := outchars size thousands_sep

/-- "The actual digits." -/
def digitsLoop (size separators : ℕ) (iconvert : Bytes) : ℕ → Printer Unit
  | 0 => pure ()
  | pos + 1 =>
    match iconvert[pos]? with
    | none => throw .outOfBounds
    | some c => do
      outchar size c
      if 0 < separators ∧ 0 < pos ∧ pos % 3 = 0 then printsep thousands_sep size
      digitsLoop size separators iconvert pos

/-- `uvalue`: the least number has no opposite. -/
def absolute (flags : Flags) (value : ℤ) : Except Halt ℕ :=
  if flags.unsigned then .ok (value % 2 ^ 64).toNat
  else if value = -2 ^ 63 then .error .overflow
  else .ok value.natAbs

/-- A difference of which all parts are taken off an `int`, so that no step is out of range if the last one is not. -/
def intDifference (n : ℤ) : Except Halt ℤ := if -2147483648 ≤ n ∧ n ≤ intMax then .ok n else .error .overflow

def fmtint (size : ℕ) (value : ℤ) (base : ℕ) (width precision : ℤ) (flags : Flags) : Printer Unit := do
  let uvalue ← absolute flags value
  let sign :=
    if flags.unsigned then []
    else if value < 0 then ['-'.toUInt8]
    else if flags.plus then ['+'.toUInt8]
    else if flags.space then [' '.toUInt8]
    else []
  let iconvert := convert base flags.up maxConvertLength uvalue
  let pos := iconvert.length
  let noprecision := precision = -1
  let precision := if flags.num ∧ uvalue ≠ 0 ∧ base = 8 ∧ precision ≤ pos then (pos : ℤ) + 1 else precision
  let hexprefix :=
    if flags.num ∧ uvalue ≠ 0 ∧ base = 16 then ['0'.toUInt8, if flags.up then 'X'.toUInt8 else 'x'.toUInt8] else []
  let separators ← (if flags.quote then getnumsep thousands_sep pos else .ok 0 : Except Halt ℕ)
  let zpadlen ← intDifference (precision - pos - separators)
  let spadlen ← intDifference (width - separators - max precision pos - sign.length - hexprefix.length)
  let zpadlen := max zpadlen 0
  let spadlen := max spadlen 0
  let zeroed := flags.minus = false ∧ flags.zero ∧ noprecision
  outchars size (spaces (if flags.minus ∨ zeroed then 0 else spadlen))
  outchars size sign
  outchars size hexprefix
  outchars size (List.replicate (if zeroed then zpadlen + spadlen else zpadlen).toNat '0'.toUInt8)
  digitsLoop thousands_sep size separators iconvert pos
  outchars size (spaces (if flags.minus then spadlen else 0))

end

/-- `%jd` of the least number, and `%#.2147483647x` of one, for whose prefix there is no room in an `int`. -/
example (size : ℕ) (out : Out) : fmtint [] size (-2 ^ 63) 10 0 (-1) {} out = .error .overflow ∧
    fmtint [] size 1 16 0 2147483647 { num := true, unsigned := true } out = .error .overflow := ⟨rfl, rfl⟩

/-! ## Arguments -/

/-- `PRINT_C_...` -/
inductive CFlags where
  | none
  | char
  | short
  | long
  | llong
  | ldouble
  | size
  | ptrdiff
  | intmax
  deriving DecidableEq

/-- The bits of the integer type that is asked for. -/
def CFlags.bits : CFlags → ℕ
  | .char => 8
  | .short => 16
  | .none | .ldouble => 32
  | _ => 64

inductive FloatStyle where
  | f
  | e
  | g
  deriving DecidableEq

/-- An argument. Integers of all types are `int`; a pointer is its address, and a string is `NULL` or the memory at it. -/
inductive Arg (δ : Type) where
  | int (value : ℤ)
  | string (value : Option Bytes)
  | pointer (address : ℕ)
  | double (value : δ)
  | count

/-! ## The state machine -/

/-- `PRINT_S_...` -/
inductive State where
  | default
  | flags
  | width
  | dot
  | precision
  | mod
  | conv
  deriving DecidableEq

/-- The variables of the loop, but for the output. What is stored through the pointers of `%n` is collected. -/
structure Conf (δ : Type) where
  state : State
  flags : Flags
  width : ℤ
  precision : ℤ
  cflags : CFlags
  overflow : Bool
  args : List (Arg δ)
  counts : List (CFlags × ℕ)

/-- As before the loop, and behind each conversion. -/
def Conf.start {δ : Type} (args : List (Arg δ)) (counts : List (CFlags × ℕ)) : Conf δ :=
  ⟨.default, {}, 0, -1, .none, false, args, counts⟩

section

variable {δ : Type}

def vaInt : List (Arg δ) → Except Halt (ℤ × List (Arg δ))
  | .int value :: args => .ok (value, args)
  | _ => .error .argument

def vaDouble : List (Arg δ) → Except Halt (δ × List (Arg δ))
  | .double fvalue :: args => .ok (fvalue, args)
  | _ => .error .argument

def vaString : List (Arg δ) → Except Halt (Option Bytes × List (Arg δ))
  | .string value :: args => .ok (value, args)
  | _ => .error .argument

def vaPointer : List (Arg δ) → Except Halt (ℕ × List (Arg δ))
  | .pointer address :: args => .ok (address, args)
  | _ => .error .argument

def vaCount : List (Arg δ) → Except Halt (List (Arg δ))
  | .count :: args => .ok args
  | _ => .error .argument

def isDigit (ch : UInt8) : Bool := '0'.toUInt8 ≤ ch ∧ ch ≤ '9'.toUInt8

def charToInt (ch : UInt8) : ℤ := (ch.toNat : ℤ) - '0'.toNat

/-- A character of `PRINT_S_FLAGS`. -/
def Flags.set (flags : Flags) (ch : UInt8) : Option Flags :=
  if ch = '-'.toUInt8 then some { flags with minus := true }
  else if ch = '+'.toUInt8 then some { flags with plus := true }
  else if ch = ' '.toUInt8 then some { flags with space := true }
  else if ch = '#'.toUInt8 then some { flags with num := true }
  else if ch = '0'.toUInt8 then some { flags with zero := true }
  else if ch = '\''.toUInt8 then some { flags with quote := true }
  else none

/-- The length modifier at the beginning of the format, and the format behind it. -/
def modifier (format : Bytes) : CFlags × Bytes :=
  match format with
  | [] => (.none, [])
  | ch :: rest =>
    if ch = 'h'.toUInt8 then if rest.head? = some 'h'.toUInt8 then (.char, rest.tail) else (.short, rest)
    else if ch = 'l'.toUInt8 then if rest.head? = some 'l'.toUInt8 then (.llong, rest.tail) else (.long, rest)
    else if ch = 'L'.toUInt8 then (.ldouble, rest)
    else if ch = 'j'.toUInt8 then (.intmax, rest)
    else if ch = 't'.toUInt8 then (.ptrdiff, rest)
    else if ch = 'z'.toUInt8 then (.size, rest)
    else (.none, ch :: rest)

variable (thousands_sep : Bytes) (fmtflt : FloatStyle → δ → ℤ → ℤ → Flags → Option Bytes)

def formatSigned (size : ℕ) (c : Conf δ) : Printer (Conf δ) := do
  let (arg, args) ← vaInt c.args
  let value := Int.bmod arg (2 ^ c.cflags.bits)
  fmtint thousands_sep size value 10 c.width c.precision c.flags
  return { c with args := args }

def formatUnsigned (size : ℕ) (c : Conf δ) (base : ℕ) (up : Bool) : Printer (Conf δ) := do
  let (arg, args) ← vaInt c.args
  let value := Int.bmod (arg % 2 ^ c.cflags.bits) (2 ^ 64)
  let flags := { c.flags with up := up, unsigned := true }
  fmtint thousands_sep size value base c.width c.precision flags
  return { c with args := args }

def formatDouble (size : ℕ) (c : Conf δ) (style : FloatStyle) (up : Bool) : Printer (Conf δ) := do
  let (fvalue, args) ← vaDouble c.args
  let precision := if style = .g ∧ c.precision = 0 then 1 else c.precision
  match fmtflt style fvalue c.width precision { c.flags with up := up } with
  | none => return { c with args := args, overflow := true }
  | some text =>
    outchars size text
    return { c with args := args }

def formatPointer (size : ℕ) (c : Conf δ) : Printer (Conf δ) := do
  let (address, args) ← vaPointer c.args
  let flags := { c.flags with num := true, unsigned := true }
  if address = 0 then fmtstr size (some (ascii "(nil)" ++ [0])) c.width (-1) c.flags
  else fmtint thousands_sep size (Int.bmod address (2 ^ 64)) 16 c.width c.precision flags
  return { c with args := args }

def formatString (size : ℕ) (c : Conf δ) : Printer (Conf δ) := do
  let (value, args) ← vaString c.args
  fmtstr size value c.width c.precision c.flags
  return { c with args := args }

def formatChar (size : ℕ) (c : Conf δ) : Printer (Conf δ) := do
  let (arg, args) ← vaInt c.args
  outchar size (UInt8.ofNat (arg % 256).toNat)
  return { c with args := args }

def storeCount (c : Conf δ) : Printer (Conf δ) := do
  let args ← vaCount c.args
  return { c with args := args, counts := c.counts ++ [(c.cflags, (← get).len)] }

/-- `PRINT_S_CONV` -/
def conversion (size : ℕ) (c : Conf δ) (ch : UInt8) : Printer (Conf δ) :=
  if ch = 'd'.toUInt8 ∨ ch = 'i'.toUInt8 then formatSigned thousands_sep size c
  else if ch = 'X'.toUInt8 then formatUnsigned thousands_sep size c 16 true
  else if ch = 'x'.toUInt8 then formatUnsigned thousands_sep size c 16 false
  else if ch = 'o'.toUInt8 then formatUnsigned thousands_sep size c 8 false
  else if ch = 'u'.toUInt8 then formatUnsigned thousands_sep size c 10 false
  else if ch = 'A'.toUInt8 ∨ ch = 'F'.toUInt8 then formatDouble fmtflt size c .f true
  else if ch = 'a'.toUInt8 ∨ ch = 'f'.toUInt8 then formatDouble fmtflt size c .f false
  else if ch = 'E'.toUInt8 then formatDouble fmtflt size c .e true
  else if ch = 'e'.toUInt8 then formatDouble fmtflt size c .e false
  else if ch = 'G'.toUInt8 then formatDouble fmtflt size c .g true
  else if ch = 'g'.toUInt8 then formatDouble fmtflt size c .g false
  else if ch = 'c'.toUInt8 then formatChar size c
  else if ch = 's'.toUInt8 then formatString size c
  else if ch = 'p'.toUInt8 then formatPointer thousands_sep size c
  else if ch = 'n'.toUInt8 then storeCount c
  else if ch = '%'.toUInt8 then do
    outchar size ch
    return c
  else pure c

/-- `PRINT_S_WIDTH`, for `ch` in front of the format. -/
def widthTurn (c : Conf δ) (ch : UInt8) (format : Bytes) : Except Halt (Conf δ × Bytes) :=
  if isDigit ch then
    if (intMax - charToInt ch) / 10 < c.width then .ok ({ c with overflow := true }, [])
    else .ok ({ c with width := 10 * c.width + charToInt ch }, format)
  else if ch = '*'.toUInt8 then do
    let (arg, args) ← vaInt c.args
    let width := Int.bmod arg (2 ^ 32)
    let c := { c with args := args, state := .dot }
    if width = -2147483648 then throw .overflow
    else if width < 0 then return ({ c with flags := { c.flags with minus := true }, width := -width }, format)
    else return ({ c with width := width }, format)
  else .ok ({ c with state := .dot }, ch :: format)

/-- `PRINT_S_PRECISION` -/
def precisionTurn (c : Conf δ) (ch : UInt8) (format : Bytes) : Except Halt (Conf δ × Bytes) :=
  let precision := if c.precision = -1 then 0 else c.precision
  if isDigit ch then
    if (intMax - charToInt ch) / 10 < precision then .ok ({ c with precision := precision, overflow := true }, [])
    else .ok ({ c with precision := 10 * precision + charToInt ch }, format)
  else if ch = '*'.toUInt8 then do
    let (arg, args) ← vaInt c.args
    let precision := Int.bmod arg (2 ^ 32)
    return ({ c with args := args, precision := if precision < 0 then -1 else precision, state := .mod }, format)
  else .ok ({ c with precision := precision, state := .mod }, ch :: format)

/-- One turn of the loop, for `ch` in front of the format; what is left of the format, which is nothing behind an overflow
(`goto out`). -/
def turn (size : ℕ) (c : Conf δ) (ch : UInt8) (format : Bytes) : Printer (Conf δ × Bytes) :=
  match c.state with
  | .default =>
    if ch = '%'.toUInt8 then pure ({ c with state := .flags }, format)
    else do
      outchar size ch
      return (c, format)
  | .flags =>
    match c.flags.set ch with
    | some flags => pure ({ c with flags := flags }, format)
    | none => pure ({ c with state := .width }, ch :: format)
  | .width => widthTurn c ch format
  | .dot =>
    if ch = '.'.toUInt8 then pure ({ c with state := .precision }, format)
    else pure ({ c with state := .mod }, ch :: format)
  | .precision => precisionTurn c ch format
  | .mod => pure ({ c with cflags := (modifier (ch :: format)).1, state := .conv }, (modifier (ch :: format)).2)
  | .conv => do
    let c ← conversion thousands_sep fmtflt size c ch
    if c.overflow then return (c, []) else return (Conf.start c.args c.counts, format)

/-- Every turn takes a character off the format or goes on to a state of smaller rank. -/
def State.rank : State → ℕ
  | .default | .conv => 0
  | .mod => 1
  | .dot | .precision => 2
  | .width => 3
  | .flags => 4

section

variable {α β : Type} {out out' : Out}

theorem Printer.bind_ok {f : Printer α} {g : α → Printer β} {b : β} :
    (f >>= g) out = .ok (b, out') ↔ ∃ a out₁, f out = .ok (a, out₁) ∧ g a out₁ = .ok (b, out') := by
  change (f out >>= fun p => g p.1 p.2) = _ ↔ _
  cases f out with
  | error e => simp [bind, Except.bind]
  | ok p =>
    obtain ⟨a, out₁⟩ := p
    simp [bind, Except.bind]

@[simp] theorem Printer.pure_ok {a b : α} : (pure a : Printer α) out = .ok (b, out') ↔ a = b ∧ out = out' := by
  change Except.ok (a, out) = .ok (b, out') ↔ _
  simp

@[simp] theorem Printer.lift_ok {e : Except Halt α} {a : α} :
    (liftM e : Printer α) out = .ok (a, out') ↔ e = .ok a ∧ out = out' := by
  change (e >>= fun a => Except.ok (a, out)) = .ok (a, out') ↔ _
  cases e with
  | error e => simp [bind, Except.bind]
  | ok b => simp [bind, Except.bind]

end

variable {c c' : Conf δ} {ch : UInt8} {format rest : Bytes}

theorem widthTurn_decreases (h : widthTurn c ch format = .ok (c', rest)) :
    rest.length ≤ format.length ∨ rest = ch :: format ∧ c'.state = .dot := by
  unfold widthTurn at h
  split_ifs at h with hdigit hover hstar
  · cases h
    exact .inl (Nat.zero_le _)
  · cases h
    exact .inl (Nat.le_refl _)
  · cases harg : vaInt c.args with
    | error e => simp [harg, bind, Except.bind] at h
    | ok a =>
      simp only [harg, bind, Except.bind] at h
      split_ifs at h <;> cases h <;> exact .inl (Nat.le_refl _)
  · cases h
    exact .inr ⟨rfl, rfl⟩

theorem precisionTurn_decreases (h : precisionTurn c ch format = .ok (c', rest)) :
    rest.length ≤ format.length ∨ rest = ch :: format ∧ c'.state = .mod := by
  unfold precisionTurn at h
  extract_lets precision at h
  split_ifs at h with hdigit hover hstar
  · cases h
    exact .inl (Nat.zero_le _)
  · cases h
    exact .inl (Nat.le_refl _)
  · cases harg : vaInt c.args with
    | error e => simp [harg, bind, Except.bind] at h
    | ok a =>
      simp only [harg, bind, Except.bind] at h
      cases h
      exact .inl (Nat.le_refl _)
  · cases h
    exact .inr ⟨rfl, rfl⟩

theorem modifier_length (format : Bytes) : (modifier format).2.length ≤ format.length := by
  cases format with
  | nil => exact Nat.le_refl _
  | cons ch rest =>
    have htail : rest.tail.length ≤ rest.length + 1 := by rw [List.length_tail]; omega
    simp only [modifier]
    split_ifs <;> simp only [List.length_cons] <;> omega

theorem turn_decreases {size : ℕ} {out out' : Out}
    (h : turn thousands_sep fmtflt size c ch format out = .ok ((c', rest), out')) :
    rest.length < format.length + 1 ∨ rest.length = format.length + 1 ∧ c'.state.rank < c.state.rank := by
  cases hstate : c.state with
  | default =>
    simp only [turn, hstate] at h
    split_ifs at h
    · cases h
      exact .inl (Nat.lt_succ_self _)
    · obtain ⟨_, _, _, h⟩ := Printer.bind_ok.mp h
      cases h
      exact .inl (Nat.lt_succ_self _)
  | flags =>
    simp only [turn, hstate] at h
    cases hset : c.flags.set ch with
    | some flags =>
      simp only [hset] at h
      cases h
      exact .inl (Nat.lt_succ_self _)
    | none =>
      simp only [hset] at h
      cases h
      exact .inr ⟨rfl, by simp [State.rank]⟩
  | width =>
    simp only [turn, hstate] at h
    obtain ⟨h, -⟩ := Printer.lift_ok.mp h
    rcases widthTurn_decreases h with hlt | ⟨rfl, hnext⟩
    · exact .inl (Nat.lt_succ_of_le hlt)
    · rw [hnext]
      exact .inr ⟨rfl, by simp [State.rank]⟩
  | dot =>
    simp only [turn, hstate] at h
    split_ifs at h <;> cases h
    · exact .inl (Nat.lt_succ_self _)
    · exact .inr ⟨rfl, by simp [State.rank]⟩
  | precision =>
    simp only [turn, hstate] at h
    obtain ⟨h, -⟩ := Printer.lift_ok.mp h
    rcases precisionTurn_decreases h with hlt | ⟨rfl, hnext⟩
    · exact .inl (Nat.lt_succ_of_le hlt)
    · rw [hnext]
      exact .inr ⟨rfl, by simp [State.rank]⟩
  | mod =>
    simp only [turn, hstate] at h
    cases h
    exact (Nat.lt_or_eq_of_le (modifier_length (ch :: format))).imp id fun heq => ⟨heq, by simp [State.rank]⟩
  | conv =>
    simp only [turn, hstate] at h
    obtain ⟨c₁, out₁, -, h⟩ := Printer.bind_ok.mp h
    split_ifs at h <;> cases h
    · exact .inl (Nat.succ_pos _)
    · exact .inl (Nat.lt_succ_self _)

/-- `while (ch != '\0')` -/
def loop (size : ℕ) (c : Conf δ) (format : Bytes) (out : Out) : Except Halt (Conf δ × Out) :=
  match format with
  | [] => .ok (c, out)
  | ch :: rest =>
    match _h : turn thousands_sep fmtflt size c ch rest out with
    | .error e => .error e
    | .ok ((c', format'), out') => loop size c' format' out'
termination_by (format.length, c.state.rank)
decreasing_by exact Prod.lex_def.mpr (turn_decreases thousands_sep fmtflt _h)

/-- What is returned, the buffer then, and what is stored through the pointers of `%n`. -/
structure Printed where
  value : ℤ
  str : Bytes
  counts : List (CFlags × ℕ)
  deriving DecidableEq

/-- The format is a string without its terminator, and the buffer is the memory behind `str`, or `NULL`. -/
def rplVsnprintf (str : Option Bytes) (size : ℕ) (format : Bytes) (args : List (Arg δ)) : Except Halt Printed := do
  let size := if str = none then 0 else size
  let (c, out) ← loop thousands_sep fmtflt size (Conf.start args []) format ⟨str.getD [], 0⟩
  let last := if out.len < size then out.len else size - 1
  if 0 < size ∧ out.str.length ≤ last then throw .outOfBounds
  let value := if c.overflow ∨ intMax ≤ out.len then -1 else (out.len : ℤ)
  return ⟨value, if 0 < size then out.str.set last 0 else out.str, c.counts⟩

/-! ## Callers -/

/-- `malloc` gives memory of the size that is asked for, or `NULL`. The string is `*ret`, if it was set. -/
def rplVasprintf (malloc : ℕ → Option Bytes) (format : Bytes) (args : List (Arg δ)) :
    Except Halt (ℤ × Option Bytes) := do
  let measured ← rplVsnprintf thousands_sep fmtflt none 0 format args
  if measured.value < 0 then return (-1, none)
  let size := measured.value.toNat + 1
  match malloc size with
  | none => return (-1, none)
  | some buf =>
    let printed ← rplVsnprintf thousands_sep fmtflt (some buf) size format args
    return (printed.value, some printed.str)

/-- The comparison of an `int` with a `size_t` -/
def unsigned (len : ℤ) : ℕ := (len % 2 ^ 64).toNat

/-- `fwrite` tells how many characters it has written; what is returned, and what is written. -/
def rplVfprintf (malloc : ℕ → Option Bytes) (fwrite : Bytes → ℕ) (staticbuf : Bytes) (format : Bytes)
    (args : List (Arg δ)) : Except Halt (ℤ × Bytes) := do
  let first ← rplVsnprintf thousands_sep fmtflt (some staticbuf) 1024 format args
  let write (len : ℤ) (buf : Bytes) : Except Halt (ℤ × Bytes) :=
    if 0 < len then
      let data := buf.take len.toNat
      .ok (fwrite data, data.take (fwrite data))
    else .ok (len, [])
  if unsigned first.value < 1024 then write first.value first.str
  else
    let bufSize := unsigned (first.value + 1)
    match malloc bufSize with
    | none => return (-1, [])
    | some buf =>
      let second ← rplVsnprintf thousands_sep fmtflt (some buf) bufSize format args
      if bufSize ≤ unsigned second.value then write (-1) second.str else write second.value second.str

end

end Libntech.Printf
