import Libntech.Json.CopyMeaning
import Libntech.Json.NumberMeaning
import Libntech.Mustache.Render

/-! # Reading the integers of a parsed document back (`libutils/json.c`, `libutils/string_lib.c`)

`JsonParseAsNumber` calls every number without a point an integer. The functions that read an integer take a sign and
digits that fit 64 bits, and the process exits on anything else: an exponent, or digits that stand for more.
-/
namespace Libntech.Mustache
set_option autoImplicit false

open Libntech.Json (Bytes CString JsonElement JsonPrimitiveType Heads Accepts Digits Exponent Parts ParseClosed sign
  isNumeral numberStart numeralsValue decimalInt jsonParse jsonTrue jsonFalse ascii appendElement)

/-! ## The functions -/

/-- `StringToInt64`, which is `StringToLong` with `strtoimax`; both types have 64 bits. -/
def stringToInt64 (str : Bytes) : Option ℤ := stringToLong str

def stringToLongExitOnError (str : Bytes) : Except Stop ℤ :=
  match stringToLong str with
  | some n => .ok n
  | none => .error .exited

def jsonPrimitiveGetAsInteger (value : Bytes) : Except Stop ℤ := stringToLongExitOnError value

/-- `JsonPrimitiveToString`; no text is `NULL`. -/
def jsonPrimitiveToString (realText : Bytes → Option Bytes) (type : JsonPrimitiveType) (value : Bytes) :
    Except Stop (Option Bytes) :=
  match type with
  | .bool => .ok (some (if value = jsonTrue then jsonTrue else jsonFalse))
  | .integer => do return some (decimalInt (← jsonPrimitiveGetAsInteger value))
  | .real =>
    match realText value with
    | some text => .ok (some text)
    | none => .error .assertFailed
  | .string => .ok (some value)
  | .null => .ok none

/-! ## What can be read back -/

/-- None of the readers fails or ends the process on the integer. -/
structure ReadsBack (value : Bytes) : Prop where
  int64 : ∃ n, stringToInt64 value = some n
  asInteger : ∃ n, jsonPrimitiveGetAsInteger value = .ok n
  toString (realText : Bytes → Option Bytes) : ∃ text, jsonPrimitiveToString realText .integer value = .ok text
  rendered (realText : Bytes → Option Bytes) (escaped : Bool) :
    ∃ text, renderVariablePrimitive realText .integer value escaped = .ok text

theorem readsBack_iff {value : Bytes} : ReadsBack value ↔ ∃ n, stringToLong value = some n := by
  constructor
  · exact fun h => h.int64
  · rintro ⟨n, hn⟩
    have hlong : jsonPrimitiveGetAsInteger value = .ok n := by rw [jsonPrimitiveGetAsInteger, stringToLongExitOnError, hn]
    refine ⟨⟨n, hn⟩, ⟨n, hlong⟩, fun realText => ⟨some (decimalInt n), ?_⟩, fun realText escaped => ⟨decimalInt n, ?_⟩⟩
    · rw [jsonPrimitiveToString, hlong]
      rfl
    · rw [renderVariablePrimitive, hn]

/-- A sign and digits, and nothing else, for a number of 64 bits. -/
def FitsLong (value : Bytes) : Prop :=
  ∃ negative d, value = sign negative ++ d ∧ Digits d ∧
    numeralsValue d ≤ if negative then 9223372036854775808 else 9223372036854775807

/-- The texts of the integers in an element. -/
inductive HoldsInteger : JsonElement → Bytes → Prop where
  | here {value : Bytes} : HoldsInteger (.primitive .integer value) value
  | array {children : List JsonElement} {e : JsonElement} {value : Bytes} : e ∈ children → HoldsInteger e value →
      HoldsInteger (.array children) value
  | object {children : List (Bytes × JsonElement)} {c : Bytes × JsonElement} {value : Bytes} : c ∈ children →
      HoldsInteger c.2 value → HoldsInteger (.object children) value

/-- The texts of the integers in the document that a text starts with: every number without a point, but for those
in a member that a later one of its name replaces. -/
def IntegerOf (s value : Bytes) : Prop := ∃ e r, Heads s e r ∧ HoldsInteger e value

/-! ## The integers that the parser makes -/

/-- A number without a point. -/
def PointFree (value : Bytes) : Prop := Accepts numberStart value ∧ '.'.toUInt8 ∉ value

theorem parts_pointFree {dot : Bool} {t : Bytes} (h : Parts dot false t) (hpoint : '.'.toUInt8 ∉ t) :
    t = [] ∨ Exponent t := by
  cases h with
  | done => exact .inl rfl
  | fraction hf _ =>
    obtain ⟨d, rfl, _⟩ := hf
    exact absurd List.mem_cons_self hpoint
  | @exponent _ x t hx h =>
    cases h with
    | done => exact .inr (by rwa [List.append_nil])
    | fraction hf _ =>
      obtain ⟨d, rfl, _⟩ := hf
      exact absurd (List.mem_append_right _ List.mem_cons_self) hpoint

theorem pointFree_split {value : Bytes} (h : PointFree value) :
    ∃ negative d x, value = sign negative ++ (d ++ x) ∧ Digits d ∧ (x = [] ∨ Exponent x) := by
  obtain ⟨hacc, hpoint⟩ := h
  rcases Json.accepts_start_iff.mp hacc with ⟨d, t, rfl, hd, ht⟩ | ⟨d, t, rfl, hd, ht⟩
  · refine ⟨true, d, t, rfl, hd, parts_pointFree ht fun hmem => hpoint ?_⟩
    exact List.mem_cons_of_mem _ (List.mem_append_right _ hmem)
  · refine ⟨false, d, t, rfl, Json.digits_iff.mpr (.inl hd), parts_pointFree ht fun hmem => hpoint ?_⟩
    exact List.mem_append_right _ hmem

theorem holdsInteger_parseClosed : ParseClosed fun e => ∀ value, HoldsInteger e value → PointFree value where
  string := nofun
  scalar := by
    rintro v e hv value h
    cases hv with
    | @number v n hrun hend =>
      cases hdot : n.seenDot with
      | true =>
        rw [hdot] at h
        cases h
      | false =>
        rw [hdot] at h
        cases h
        refine ⟨⟨n, hrun, hend⟩, fun hmem => ?_⟩
        have hseen := (Json.numberRun_last hrun).2.1.mpr (.inr hmem)
        rw [hdot] at hseen
        cases hseen
    | true => cases h
    | false => cases h
    | null => cases h
  arrayEmpty := by
    rintro value (_ | ⟨hmem, _⟩)
    cases hmem
  arrayAppend := by
    rintro children e hchildren he value (_ | ⟨hmem, h⟩)
    rcases List.mem_append.mp hmem with hmem | hmem
    · exact hchildren value (.array hmem h)
    · rw [List.mem_singleton] at hmem
      subst hmem
      exact he value h
  objectEmpty := by
    rintro value (_ | _ | ⟨hmem, _⟩)
    cases hmem
  objectAppend := by
    rintro children e key hchildren he value (_ | _ | ⟨hmem, h⟩)
    rcases List.mem_append.mp hmem with hmem | hmem
    · exact hchildren value (.object (Json.mem_removeKey hmem) h)
    · rw [List.mem_singleton] at hmem
      subst hmem
      exact he value h

/-! ## Reading them back -/

theorem numeral_range {c : UInt8} : isNumeral c = true ↔ 48 ≤ c.toNat ∧ c.toNat ≤ 57 := by
  have h0 : '0'.toUInt8.toNat = 48 := rfl
  have h1 : '1'.toUInt8.toNat = 49 := rfl
  have h9 : '9'.toUInt8.toNat = 57 := rfl
  simp only [isNumeral, Json.isDigit, Bool.or_eq_true, beq_iff_eq, Bool.and_eq_true, decide_eq_true_eq,
    UInt8.le_iff_toNat_le, ← UInt8.toNat_inj, h0, h1, h9]
  omega

theorem isDigit_eq : isDigit = isNumeral := by
  funext c
  have h0 : '0'.toUInt8.toNat = 48 := rfl
  have h9 : '9'.toUInt8.toNat = 57 := rfl
  rw [Bool.eq_iff_iff, numeral_range]
  simp only [isDigit, Bool.and_eq_true, decide_eq_true_eq, UInt8.le_iff_toNat_le, h0, h9]

theorem magnitude_eq {d : Bytes} (hd : ∀ c ∈ d, isNumeral c = true) :
    (d.foldl (fun n c => n * 10 + (c.toNat - 48)) 0 : ℤ) = numeralsValue d := by
  have hfold : ∀ m : ℕ, (d.foldl (fun n c => n * 10 + (c.toNat - 48)) m : ℤ) =
      (d.foldl (fun n c => 10 * n + (c.toNat - 48)) m : ℕ) := by
    induction d with
    | nil => exact fun m => rfl
    | cons c d ih =>
      intro m
      have hc := (numeral_range.mp (hd c List.mem_cons_self)).1
      have hstep : (m : ℤ) * 10 + (c.toNat - 48) = ((10 * m + (c.toNat - 48) : ℕ) : ℤ) := by omega
      rw [List.foldl_cons, List.foldl_cons, hstep]
      exact ih (fun x hx => hd x (List.mem_cons_of_mem _ hx)) _
  exact hfold 0

theorem stringToLong_digits (negative : Bool) {d x : Bytes} (hd : Digits d) (hx : ∀ c ∈ x.head?, isNumeral c = false) :
    stringToLong (sign negative ++ (d ++ x)) =
      let value : ℤ := if negative then -numeralsValue d else numeralsValue d
      if value < -9223372036854775808 ∨ 9223372036854775807 < value then none
      else if x.head?.any fun c => !isWhitespace c then none
      else some value := by
  obtain ⟨hne, hall⟩ := hd
  obtain ⟨c, t, rfl⟩ := List.exists_cons_of_ne_nil hne
  obtain ⟨htake, hdrop⟩ := Json.numerals_split hall hx
  have hmagnitude := magnitude_eq hall
  have hc := hall c List.mem_cons_self
  have hblank : isWhitespace c = false := by
    have hrange := numeral_range.mp hc
    have h32 : ' '.toUInt8.toNat = 32 := rfl
    have h13 : (13 : UInt8).toNat = 13 := rfl
    rw [Bool.eq_false_iff, ne_eq]
    simp only [isWhitespace, Bool.or_eq_true, beq_iff_eq, Bool.and_eq_true, decide_eq_true_eq, UInt8.le_iff_toNat_le,
      ← UInt8.toNat_inj, h32, h13]
    omega
  have hminus : c ≠ '-'.toUInt8 := Json.numeral_ne hc _ (by decide)
  have hplus : c ≠ '+'.toUInt8 := Json.numeral_ne hc _ (by decide)
  have hskip : ∀ (b : UInt8) (u : Bytes), isWhitespace b = false → (b :: u).dropWhile isWhitespace = b :: u := by
    intro b u hb
    rw [List.dropWhile_cons, hb, if_neg (by simp)]
  rw [← isDigit_eq, List.cons_append] at htake hdrop
  cases negative with
  | true =>
    simp only [stringToLong, sign, if_true, List.cons_append, List.nil_append, hskip '-'.toUInt8 _ rfl,
      List.head?_cons, true_or, List.tail_cons]
    rw [htake, hdrop, hmagnitude]
    simp
  | false =>
    simp only [stringToLong, sign, Bool.false_eq_true, if_false, List.cons_append, List.nil_append, hskip c _ hblank,
      List.head?_cons, Option.some.injEq, hminus, hplus, or_self]
    rw [htake, hdrop, hmagnitude]
    simp

theorem stringToLong_pointFree {value : Bytes} (h : PointFree value) :
    (∃ n, stringToLong value = some n) ↔ FitsLong value := by
  have hlimit : ∀ (negative : Bool) (k : ℕ), (k ≤ if negative then 9223372036854775808 else 9223372036854775807) ↔
      ¬ ((if negative then -(k : ℤ) else k) < -9223372036854775808 ∨
        9223372036854775807 < if negative then -(k : ℤ) else k) := by
    intro negative k
    cases negative with
    | true => simp only [if_true]; omega
    | false => simp only [Bool.false_eq_true, if_false]; omega
  obtain ⟨negative, d, x, rfl, hd, rfl | hx⟩ := pointFree_split h
  · have hread := stringToLong_digits negative (x := []) hd (by simp)
    rw [List.append_nil] at hread ⊢
    constructor
    · rintro ⟨n, hn⟩
      refine ⟨negative, d, rfl, hd, (hlimit negative _).mpr fun hout => ?_⟩
      rw [hread] at hn
      simp only [hout, if_true] at hn
      cases hn
    · rintro ⟨negative', d', heq, hd', hrange⟩
      have hread' := stringToLong_digits negative' (x := []) hd' (by simp)
      rw [List.append_nil] at hread'
      rw [heq, hread']
      have hin := (hlimit negative' _).mp hrange
      simp only [hin, if_false]
      exact ⟨_, rfl⟩
  · obtain ⟨mark, hmark, hmarks⟩ := Json.marks_exponent hx
    constructor
    · obtain ⟨c, u, e, rfl, hc, _, _⟩ := hx
      have hnum : isNumeral c = false := by
        by_contra hnum
        rw [Json.numeral_not_mark (Bool.not_eq_false _ |>.mp hnum)] at hc
        cases hc
      have hblank : isWhitespace c = false := by
        rcases Json.isExponentMark_iff.mp hc with rfl | rfl <;> decide
      rw [stringToLong_digits negative hd (by simpa using hnum)]
      simp [hblank]
    · -- an exponent mark is neither a sign nor a digit
      rintro ⟨negative', d', heq, hd', _⟩
      have hall := congrArg Json.marks heq
      simp only [Json.marks_append, Json.marks_sign, Json.marks_digits hd.2, Json.marks_digits hd'.2, hmarks,
        List.nil_append, List.append_nil] at hall
      cases hall

/-! ## The integers of a document -/

/-- The integers of an accepted document are all read back exactly if each is a sign and digits that fit 64 bits. -/
theorem integers_read_back_iff (s : CString) (e : JsonElement) (p : ℕ) (h : jsonParse s.bytes = .ok (e, p)) :
    (∀ value, HoldsInteger e value → ReadsBack value) ↔ ∀ value, IntegerOf s.bytes value → FitsLong value := by
  obtain ⟨r, hheads, _⟩ := Json.jsonParse_heads h
  have hsame : ∀ value, IntegerOf s.bytes value ↔ HoldsInteger e value := by
    intro value
    constructor
    · rintro ⟨e', r', hheads', hholds⟩
      obtain ⟨q, hparse, _⟩ := Json.heads_jsonParse s.nul_free hheads'
      rw [h] at hparse
      obtain ⟨rfl, _⟩ := Prod.mk.inj (Json.Outcome.ok.inj hparse)
      exact hholds
    · exact fun hholds => ⟨e, r, hheads, hholds⟩
  have hpoint := Json.heads_closed holdsInteger_parseClosed hheads
  constructor
  · intro hreads value hvalue
    have hholds := (hsame value).mp hvalue
    exact (stringToLong_pointFree (hpoint value hholds)).mp (readsBack_iff.mp (hreads value hholds))
  · intro hfits value hholds
    exact readsBack_iff.mpr ((stringToLong_pointFree (hpoint value hholds)).mpr (hfits value ((hsame value).mpr hholds)))

theorem integers_read_back_twelve :
    (∀ value, HoldsInteger (.array [.primitive .integer (ascii "-12")]) value → ReadsBack value) ↔
      ∀ value, IntegerOf (ascii "[-12]") value → FitsLong value :=
  integers_read_back_iff ⟨ascii "[-12]", by decide⟩ _ 4 rfl

/-- `1e5` is parsed as an integer, and the process exits when it is read. -/
theorem exponent_not_read_back :
    jsonParse (ascii "1e5") = .ok (.primitive .integer (ascii "1e5"), 2) ∧
      ¬ ∀ value, HoldsInteger (.primitive .integer (ascii "1e5")) value → ReadsBack value := by
  refine ⟨rfl, fun h => ?_⟩
  obtain ⟨n, hn⟩ := (h _ .here).int64
  have hnone : stringToLong (ascii "1e5") = none := by decide
  rw [stringToInt64, hnone] at hn
  cases hn

end Libntech.Mustache
