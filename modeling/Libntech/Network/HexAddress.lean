import Libntech.Lib.ScanfItems
import Libntech.Network.IPAddressNew

/-! # Addresses as hex digits

`IPAddressNewHex` knows its formats by the length of the text and by the numbers that `sscanf` finds in it (`Patterned`).
Each text of hex digits is such a text, but not the other way around; and the form of 32 characters leaves the port to
what the memory held.
-/
namespace Libntech.Network
set_option autoImplicit false

open Libntech.Json (Bytes ascii)
open Libntech.Lib.Scanf

/-- 8 or 32 hex digits, and a port of four behind a colon. -/
inductive HexText : Bytes → Prop where
  | plain {digits : Bytes} : digits.length = 8 ∨ digits.length = 32 → (∀ c ∈ digits, isxdigit c = true) → HexText digits
  | port {digits port : Bytes} : digits.length = 8 ∨ digits.length = 32 → (∀ c ∈ digits, isxdigit c = true) →
      port.length = 4 → (∀ c ∈ port, isxdigit c = true) → HexText (digits ++ ':'.toUInt8 :: port)

/-- A text of one of the lengths, with the numbers of its format. -/
inductive Patterned (text : Bytes) : Prop where
  | ipv4 : text.length = 8 → Finds ipv4Format text → Patterned text
  | ipv4Port : text.length = 13 → Finds (ipv4Format ++ portFormat) text → Patterned text
  | ipv6 : text.length = 32 → Finds ipv6Format text → Patterned text
  | ipv6Port : text.length = 37 → Finds (ipv6Format ++ portFormat) text → Patterned text

/-! ## The parsers -/

section Parsers

variable {text : Bytes}

theorem finds_ipv4 : Finds ipv4Format text ↔ (sscanf ipv4Format text).length = 4 :=
  finds_iff (by simp [ipv4Format, HexFormat]) text

theorem finds_ipv4Port :
    Finds (ipv4Format ++ portFormat) text ↔ (sscanf (ipv4Format ++ portFormat) text).length = 5 :=
  finds_iff (by simp [ipv4Format, portFormat, HexFormat, conversions]) text

theorem finds_ipv6 : Finds ipv6Format text ↔ (sscanf ipv6Format text).length = 8 :=
  finds_iff (by simp [ipv6Format, HexFormat]) text

theorem finds_ipv6Port :
    Finds (ipv6Format ++ portFormat) text ↔ (sscanf (ipv6Format ++ portFormat) text).length = 9 :=
  finds_iff (by simp [ipv6Format, portFormat, HexFormat, conversions]) text

theorem ipv4HexParser_memory (a b : IPV4Memory) : ipv4HexParser text a = ipv4HexParser text b := rfl

theorem ipv6HexParser_memory (h : ¬ (text.length = 32 ∧ Finds ipv6Format text)) (a b : IPV6Memory) :
    ipv6HexParser text a = ipv6HexParser text b := by
  rw [finds_ipv6] at h
  simp only [ipv6HexParser, if_neg h]

theorem ipv6HexParser_portless (h : text.length = 32 ∧ Finds ipv6Format text) (a : IPV6Memory) :
    ipv6HexParser text a = some { a with sixteen := hexSixteen (sscanf ipv6Format text) } := by
  rw [finds_ipv6] at h
  rw [ipv6HexParser, if_pos h]

theorem ipv4HexParser_none (h8 : text.length ≠ 8) (h13 : text.length ≠ 13) (a : IPV4Memory) :
    ipv4HexParser text a = none := by
  simp [ipv4HexParser, h8, h13]

theorem ipAddressNewHex_isSome (ipv4 : IPV4Memory) (ipv6 : IPV6Memory) :
    (ipAddressNewHex ipv4 ipv6 text).isSome ↔ Patterned text := by
  have hcases : Patterned text ↔ (text.length = 8 ∧ Finds ipv4Format text ∨
      text.length = 13 ∧ Finds (ipv4Format ++ portFormat) text) ∨
      (text.length = 32 ∧ Finds ipv6Format text ∨ text.length = 37 ∧ Finds (ipv6Format ++ portFormat) text) := by
    constructor
    · rintro (⟨hlength, hfinds⟩ | ⟨hlength, hfinds⟩ | ⟨hlength, hfinds⟩ | ⟨hlength, hfinds⟩)
      · exact .inl (.inl ⟨hlength, hfinds⟩)
      · exact .inl (.inr ⟨hlength, hfinds⟩)
      · exact .inr (.inl ⟨hlength, hfinds⟩)
      · exact .inr (.inr ⟨hlength, hfinds⟩)
    · rintro ((⟨hlength, hfinds⟩ | ⟨hlength, hfinds⟩) | ⟨hlength, hfinds⟩ | ⟨hlength, hfinds⟩)
      · exact .ipv4 hlength hfinds
      · exact .ipv4Port hlength hfinds
      · exact .ipv6 hlength hfinds
      · exact .ipv6Port hlength hfinds
  have hipv4 : (ipv4HexParser text ipv4).isSome ↔ text.length = 8 ∧ Finds ipv4Format text ∨
      text.length = 13 ∧ Finds (ipv4Format ++ portFormat) text := by
    rw [finds_ipv4, finds_ipv4Port]
    simp only [ipv4HexParser]
    split_ifs with hplain hport
    · exact iff_of_true rfl (.inl hplain)
    · exact iff_of_true rfl (.inr hport)
    · exact iff_of_false Bool.false_ne_true (not_or.mpr ⟨hplain, hport⟩)
  have hipv6 : (ipv6HexParser text ipv6).isSome ↔ text.length = 32 ∧ Finds ipv6Format text ∨
      text.length = 37 ∧ Finds (ipv6Format ++ portFormat) text := by
    rw [finds_ipv6, finds_ipv6Port]
    simp only [ipv6HexParser]
    split_ifs with hplain hport
    · exact iff_of_true rfl (.inl hplain)
    · exact iff_of_true rfl (.inr hport)
    · exact iff_of_false Bool.false_ne_true (not_or.mpr ⟨hplain, hport⟩)
  rw [hcases, ← hipv4, ← hipv6, ipAddressNewHex]
  cases ipv4HexParser text ipv4 with
  | none => simp
  | some address => simp

end Parsers

/-! ## Texts of hex digits -/

theorem isHex_of_isxdigit {c : UInt8} (h : isxdigit c = true) : isHex c = true := by
  simp only [isxdigit, isdigit, Bool.or_eq_true, Bool.and_eq_true, decide_eq_true_eq] at h
  simp only [isHex, hexDigit]
  split_ifs <;> simp_all

theorem finds_plain {width : ℕ} (hwidth : 1 ≤ width) (n : ℕ) {digits : Bytes} (hlength : digits.length = n * width)
    (hdigits : ∀ c ∈ digits, isxdigit c = true) : Finds (.replicate n (.hex width)) digits := by
  have hfinds := finds_digits hwidth n hlength (fun c hc => isHex_of_isxdigit (hdigits c hc)) (@Finds.nil [])
  rwa [List.append_nil, List.append_nil] at hfinds

theorem HexText.patterned {text : Bytes} (h : HexText text) : Patterned text := by
  cases h with
  | plain hlength hdigits =>
    rcases hlength with hlength | hlength
    · exact .ipv4 hlength (finds_plain (by decide) 4 hlength hdigits)
    · exact .ipv6 hlength (finds_plain (by decide) 8 hlength hdigits)
  | @port digits port hlength hdigits hfour hport =>
    have hhex : ∀ c ∈ digits, isHex c = true := fun c hc => isHex_of_isxdigit (hdigits c hc)
    have hcolon : Finds portFormat (':'.toUInt8 :: port) := .literal (finds_plain (by decide) 1 hfour hport)
    have htext : (digits ++ ':'.toUInt8 :: port).length = digits.length + 5 := by rw [List.length_append, List.length_cons, hfour]
    rcases hlength with hlength | hlength
    · exact .ipv4Port (by omega) (finds_digits (by decide) 4 hlength hhex hcolon)
    · exact .ipv6Port (by omega) (finds_digits (by decide) 8 hlength hhex hcolon)

/-! ## The results -/

/-- Success for the texts of hex digits alone, and a result that is known from the text, with the port 0 if it has none. -/
structure HexMeets (text : Bytes) : Prop where
  succeeds : ∀ ipv4 ipv6, (ipAddressNewHex ipv4 ipv6 text).isSome ↔ HexText text
  determined : ∀ ipv4 ipv6 ipv4' ipv6', ipAddressNewHex ipv4 ipv6 text = ipAddressNewHex ipv4' ipv6' text
  portless : ∀ ipv4 ipv6 address, ipAddressNewHex ipv4 ipv6 text = some address → ':'.toUInt8 ∉ text →
    ipAddressGetPort address = 0

theorem HexText.ipv4 {text : Bytes} (h : HexText text) (hcolon : ':'.toUInt8 ∉ text)
    (hportless : ¬ (text.length = 32 ∧ Finds ipv6Format text)) : text.length = 8 ∧ Finds ipv4Format text := by
  cases h with
  | plain hlength hdigits =>
    rcases hlength with hlength | hlength
    · exact ⟨hlength, finds_plain (by decide) 4 hlength hdigits⟩
    · exact absurd ⟨hlength, finds_plain (by decide) 8 hlength hdigits⟩ hportless
  | port _ _ _ _ => exact absurd (by simp) hcolon

theorem ipAddressNewHex_iff (text : Bytes) :
    HexMeets text ↔ ¬ (Patterned text ∧ ¬ HexText text) ∧ ¬ (text.length = 32 ∧ Finds ipv6Format text) := by
  constructor
  · intro h
    refine ⟨fun ⟨hpatterned, hhex⟩ => ?_, fun hportless => ?_⟩
    · have hsome := (ipAddressNewHex_isSome ⟨.replicate 4 0, 0⟩ ⟨.replicate 8 0, 0⟩).mpr hpatterned
      exact hhex ((h.succeeds _ _).mp hsome)
    · have hnone : ipv4HexParser text ⟨.replicate 4 0, 0⟩ = none := ipv4HexParser_none (by omega) (by omega) _
      have hsame := h.determined ⟨.replicate 4 0, 0⟩ ⟨.replicate 8 0, 0⟩ ⟨.replicate 4 0, 0⟩ ⟨.replicate 8 0, 1⟩
      simp only [ipAddressNewHex, hnone, ipv6HexParser_portless hportless, Option.map_some, Option.some.injEq,
        IPAddress.ipv6.injEq, IPV6Memory.mk.injEq] at hsame
      exact absurd hsame.2 (by decide)
  · rintro ⟨hloose, hportless⟩
    have hhex : Patterned text → HexText text := fun hpatterned => by
      by_contra hne
      exact hloose ⟨hpatterned, hne⟩
    refine ⟨fun ipv4 ipv6 => ?_, fun ipv4 ipv6 ipv4' ipv6' => ?_, fun ipv4 ipv6 address haddress hcolon => ?_⟩
    · rw [ipAddressNewHex_isSome]
      exact ⟨hhex, HexText.patterned⟩
    · rw [ipAddressNewHex, ipAddressNewHex, ipv4HexParser_memory ipv4 ipv4', ipv6HexParser_memory hportless ipv6 ipv6']
    · have hpatterned := (ipAddressNewHex_isSome ipv4 ipv6).mp (Option.isSome_of_eq_some haddress)
      have hplain := (hhex hpatterned).ipv4 hcolon hportless
      rw [finds_ipv4] at hplain
      rw [ipAddressNewHex, ipv4HexParser, if_pos hplain] at haddress
      rw [← Option.some.inj haddress]
      rfl

/-- The port of a text without one is what the memory held, and a text of blanks, signs and digits is accepted. -/
theorem memory_left :
    ipAddressNewHex ⟨.replicate 4 0, 0⟩ ⟨.replicate 8 0, 80⟩ (ascii "00010002000300040005000600070008") =
        some (.ipv6 ⟨#v[1, 2, 3, 4, 5, 6, 7, 8], 80⟩) ∧
      ipAddressNewHex ⟨.replicate 4 0, 0⟩ ⟨.replicate 8 0, 80⟩ (ascii " 1+2-3 4") = some (.ipv4 ⟨#v[4, 253, 2, 1], 0⟩) ∧
      ¬ HexMeets (ascii "00010002000300040005000600070008") ∧ ¬ HexMeets (ascii " 1+2-3 4") := by
  have hleft : ipAddressNewHex ⟨.replicate 4 0, 0⟩ ⟨.replicate 8 0, 80⟩ (ascii "00010002000300040005000600070008") =
      some (.ipv6 ⟨#v[1, 2, 3, 4, 5, 6, 7, 8], 80⟩) := by rfl
  have hblanks : ipAddressNewHex ⟨.replicate 4 0, 0⟩ ⟨.replicate 8 0, 80⟩ (ascii " 1+2-3 4") =
      some (.ipv4 ⟨#v[4, 253, 2, 1], 0⟩) := by rfl
  refine ⟨hleft, hblanks, fun h => ?_, fun h => ?_⟩
  · exact absurd (h.portless _ _ _ hleft (by decide)) (by decide)
  · have hhex := (h.succeeds _ _).mp (Option.isSome_of_eq_some hblanks)
    generalize htext : ascii " 1+2-3 4" = text at hhex
    cases hhex with
    | plain _ hdigits => exact absurd (hdigits ' '.toUInt8 (by rw [← htext]; decide)) (by decide)
    | @port digits port _ _ _ _ =>
      have hcolon : ':'.toUInt8 ∈ ascii " 1+2-3 4" := by
        rw [htext]
        simp
      exact absurd hcolon (by decide)

end Libntech.Network
