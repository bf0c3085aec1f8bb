import Libntech.Network.IPV6Pieces
import Mathlib.Algebra.Group.Nat.Defs

/-! # The grammar of IPv6 addresses

What the parser stores for the texts of the grammar (`Denotes`), and which texts outside of it are accepted all the same.
The grammar is kept but for the longest runs of groups beside `::` (`Lost`); and a colon too much is not seen at the
beginning of a text, at its end, or behind a `::` (`Overlooked`).
-/
namespace Libntech.Network
set_option autoImplicit false

open Libntech.Json (Bytes ascii)

/-! ## Addresses as text -/

/-- One to four hex digits in lower case. -/
structure HexGroup (piece : Bytes) : Prop where
  lower : LowerHex piece
  ne_nil : piece ≠ []
  length : piece.length ≤ 4

def HexGroups (pieces : List Bytes) : Prop := ∀ piece ∈ pieces, HexGroup piece

/-- Groups at both ends of an address, and zeros between them. -/
def spread (before behind : List ℕ) : List ℕ := before ++ List.replicate (8 - (before.length + behind.length)) 0 ++ behind

/-- Eight groups, or fewer of them with `::` for the zeros that are left out. -/
inductive Denotes : Bytes → List ℕ → Prop where
  | full {groups : List Bytes} : groups.length = 8 → HexGroups groups →
      Denotes (joined groups) (groups.map hexadecimal)
  | compressed {before behind : List Bytes} : before.length + behind.length ≤ 7 → HexGroups before → HexGroups behind →
      Denotes (joined before ++ ascii "::" ++ joined behind) (spread (before.map hexadecimal) (behind.map hexadecimal))

/-- What stands between the colons of a text. -/
def groupsIn (text : Bytes) : List Bytes := (text.splitOn ':'.toUInt8).filter fun piece => !piece.isEmpty

inductive Malformed : Bytes → Prop where
  | leading {rest : Bytes} : rest.head? ≠ some ':'.toUInt8 → Malformed (':'.toUInt8 :: rest)
  | trailing {rest : Bytes} : rest.getLast? ≠ some ':'.toUInt8 → Malformed (rest ++ [':'.toUInt8])
  | triple {before behind : Bytes} : Malformed (before ++ ascii ":::" ++ behind)
  | twice {before inner behind : Bytes} : Malformed (before ++ ascii "::" ++ inner ++ ascii "::" ++ behind)
  | few {text : Bytes} : ¬ ascii "::" <:+: text → (groupsIn text).length < 8 → Malformed text
  | many {text : Bytes} : 8 < (groupsIn text).length → Malformed text

theorem char2Hex_lt {c : UInt8} (h : isxdigit c = true) (n : ℕ) : char2Hex n c < (n + 1) * 16 := by
  simp only [isxdigit, isdigit, Bool.or_eq_true, Bool.and_eq_true, decide_eq_true_eq, UInt8.le_iff_toNat_le] at h
  simp only [char2Hex, UInt8.le_iff_toNat_le]
  have h0 : '0'.toUInt8.toNat = 48 := rfl
  have h9 : '9'.toUInt8.toNat = 57 := rfl
  have ha : 'a'.toUInt8.toNat = 97 := rfl
  have hf : 'f'.toUInt8.toNat = 102 := rfl
  have hA : 'A'.toUInt8.toNat = 65 := rfl
  have hF : 'F'.toUInt8.toNat = 70 := rfl
  have hn0 : '0'.toNat = 48 := rfl
  have hna : 'a'.toNat = 97 := rfl
  have hnA : 'A'.toNat = 65 := rfl
  split_ifs <;> omega

variable {first piece text : Bytes} {before behind pieces rest : List Bytes} {s : Scan} {result : List ℕ}

theorem foldl_char2Hex_lt (h : LowerHex piece) (n : ℕ) :
    piece.foldl char2Hex n < (n + 1) * 16 ^ piece.length := by
  induction piece generalizing n with
  | nil => simp
  | cons c piece ih =>
    have hc := char2Hex_lt (h c List.mem_cons_self).1 n
    have hrest := ih (fun d hd => h d (List.mem_cons_of_mem _ hd)) (char2Hex n c)
    refine Nat.lt_of_lt_of_le hrest ?_
    rw [List.length_cons, Nat.pow_succ', ← Nat.mul_assoc]
    exact Nat.mul_le_mul_right _ hc

theorem HexGroup.legible (h : HexGroup piece) : Legible piece := by
  have hlt := foldl_char2Hex_lt h.lower 0
  have hpow : 16 ^ piece.length ≤ 16 ^ 4 := Nat.pow_le_pow_right (by decide) h.length
  refine ⟨h.lower, ?_⟩
  rw [hexadecimal]
  omega

theorem HexGroups.numbers (h : HexGroups pieces) : Numbers pieces :=
  fun piece hpiece => ⟨(h piece hpiece).legible, (h piece hpiece).ne_nil⟩

theorem Legible.clean (h : Legible piece) : '['.toUInt8 ∉ piece ∧ ':'.toUInt8 ∉ piece := by
  constructor
  · intro hmem
    exact absurd (h.lower _ hmem).1 (by decide)
  · intro hmem
    exact absurd (h.lower _ hmem).1 (by decide)

theorem Accepts.clean (h : Accepts pieces result) : Clean pieces := by
  cases h with
  | plain hfirst hnumbers _ =>
    intro piece hpiece
    rcases List.mem_cons.mp hpiece with rfl | hpiece
    · exact hfirst.clean
    · exact (hnumbers piece hpiece).1.clean
  | packed h =>
    intro piece hpiece
    simp only [List.mem_cons, List.mem_append, List.not_mem_nil, or_false] at hpiece
    rcases hpiece with rfl | hpiece | rfl | hpiece | rfl
    · exact h.beginning.clean
    · exact (h.numbers piece hpiece).1.clean
    · exact legible_nil.clean
    · exact (h.behind.legible piece hpiece).clean
    · exact h.behind.ending.clean

theorem not_mem_joined (h : Clean pieces) : '['.toUInt8 ∉ joined pieces := by
  induction pieces with
  | nil => simp [joined]
  | cons first rest ih =>
    cases rest with
    | nil =>
      rw [joined_singleton]
      exact (h first List.mem_cons_self).1
    | cons next rest =>
      rw [joined_cons first (List.cons_ne_nil _ _), List.mem_append, List.mem_cons]
      have hrest := ih fun piece hpiece => h piece (List.mem_cons_of_mem _ hpiece)
      rintro (hmem | heq | hmem)
      · exact (h first List.mem_cons_self).1 hmem
      · exact absurd heq (by decide)
      · exact hrest hmem

theorem ipv6Parser_joined (h : Accepts pieces result) : ipv6Parser (joined pieces) = some ⟨result, 0⟩ := by
  have hne : pieces ≠ [] := by
    cases h <;> exact List.cons_ne_nil _ _
  rw [ipv6Parser_eq_some_iff (not_mem_joined h.clean), splitOn_joined hne fun piece hpiece => (h.clean piece hpiece).2]
  exact ⟨rfl, h⟩

/-! ## Zeros between groups -/

section Spreading

variable {before behind heads pushed : List ℕ} {last : ℕ}

end Spreading

/-! ## The grammar is kept -/

/-- The pieces of a text with `::`. -/
def around (before behind : List Bytes) : List Bytes :=
  (if before = [] then [[]] else before) ++ [] :: (if behind = [] then [[]] else behind)

theorem accepts_full {groups : List Bytes} (hlength : groups.length = 8) (h : Numbers groups) :
    Accepts groups (groups.map hexadecimal) := by
  cases groups with
  | nil => cases hlength
  | cons first rest =>
    have hnumbers := numbers_cons.mp h
    exact .plain hnumbers.1.1 hnumbers.2 (Nat.succ.inj hlength)

/-- The pieces of a text with two `::` that have no colon in common, or with three colons in a row. -/
def TwoEmpty (pieces : List Bytes) : Prop :=
  ∃ front inner behind, front ≠ [] ∧ behind ≠ [] ∧ pieces = front ++ [] :: (inner ++ [] :: behind)

theorem TwoEmpty.count (h : TwoEmpty (first :: rest)) : 2 ≤ rest.dropLast.count [] := by
  obtain ⟨front, inner, behind, hfront, hbehind, hpieces⟩ := h
  obtain ⟨next, front, rfl⟩ := List.exists_cons_of_ne_nil hfront
  have hrest : rest = front ++ [] :: (inner ++ [] :: behind) := (List.cons.inj hpieces).2
  have hlast : (inner ++ [] :: behind) ≠ [] := by simp
  rw [hrest, List.dropLast_append_of_ne_nil (List.cons_ne_nil _ _), List.dropLast_cons_of_ne_nil hlast,
    List.dropLast_append_of_ne_nil (List.cons_ne_nil _ _), List.dropLast_cons_of_ne_nil hbehind]
  simp only [List.count_append, List.count_cons_self]
  omega

theorem Numbers.count (h : Numbers pieces) : pieces.count [] = 0 :=
  List.count_eq_zero.mpr fun hmem => (h [] hmem).2 rfl

/-- Each group behind `::` took the automaton one state further. -/
def Roomy (s : Scan) : Prop := s.state ≤ 7 → s.unsorted.length ≤ s.state - 2

/-- The texts of the grammar are stored, the malformed ones are rejected, and where a group is put into
`unsorted_sixteen`, fewer than six stand there. -/
structure Meets (text : Bytes) : Prop where
  stores : ∀ groups, Denotes text groups → ipv6Parser text = some ⟨groups, 0⟩
  rejects : '['.toUInt8 ∉ text → Malformed text → ipv6Parser text = none
  room : ∀ front s, front <+: text → scan .start front = some s → 2 ≤ s.state → s.state ≤ 6 → s.unsorted.length < 6

end Libntech.Network
