import Libntech.Strings.CStrings
import Mathlib.Algebra.Group.Int.Defs
import Mathlib.Data.Int.Notation

/-! # Substrings (`StringSubstring`)

`start` and `len` are of type `int`, `source_len` is a `size_t` and `end` an `ssize_t`. The last place is limited to the
source, and so is never negative unless the source is empty; the first place is not.
-/
namespace Libntech.Strings
set_option autoImplicit false

open Libntech.Json (Bytes CString)

/-- A string whose array, with the NUL, is no longer than `PTRDIFF_MAX`. -/
structure StoredString extends CString where
  stored : bytes.length + 1 < 2 ^ 63

def StoredString.array (source : StoredString) : Bytes := source.bytes ++ [0]

def toSize (n : ℤ) : ℤ := n % 2 ^ 64
def toSSize (n : ℤ) : ℤ := n.bmod (2 ^ 64)
def toInt (n : ℤ) : ℤ := n.bmod (2 ^ 32)

/-- `MIN(end, source_len - 1)`, which compares unsigned numbers. -/
def lastPlace (source_len : ℕ) (last : ℤ) : ℤ := toSSize (min (toSize last) (toSize (source_len - 1)))

def firstPlace (source_len : ℕ) (start : ℤ) : ℤ := if start < 0 then toInt (source_len + start) else start

/-- The copy from the first place to the last one, and the string that it is then. -/
def copyPlaces (source : Bytes) (first last : ℤ) : Except Halt Bytes :=
  if last < first then .ok []
  else if 2 ^ 63 ≤ last - first + 2 then .error .overflow
  else if 0 ≤ first ∧ last < source.length then
    .ok (text ((source.drop first.toNat).take (last - first + 1).toNat))
  else .error .outOfBounds

def stringSubstring (source : Bytes) (source_len : ℕ) (start len : Int32) : Except Halt Bytes :=
  if len.toInt = 0 then .ok []
  else if len.toInt < 0 then
    copyPlaces source (firstPlace source_len start.toInt) (lastPlace source_len (toSSize (source_len + len.toInt - 1)))
  else if 2 ^ 31 ≤ start.toInt + len.toInt then .error .overflow
  else copyPlaces source (firstPlace source_len start.toInt) (lastPlace source_len (start.toInt + len.toInt - 1))

/-! ## The places -/

theorem toSSize_eq {n : ℤ} (hlow : -2 ^ 63 ≤ n) (hhigh : n < 2 ^ 63) : toSSize n = n :=
  Int.bmod_eq_of_le (by omega) (by omega)

theorem lastPlace_inside {source_len : ℕ} (hpos : 0 < source_len) (hlen : source_len + 1 < 2 ^ 63) (last : ℤ) :
    0 ≤ lastPlace source_len last ∧ lastPlace source_len last < source_len := by
  have hlimit : toSize (source_len - 1) = source_len - 1 := Int.emod_eq_of_lt (by omega) (by omega)
  have hnonneg : 0 ≤ toSize last := Int.emod_nonneg _ (by decide)
  rw [lastPlace, hlimit, toSSize_eq (by omega) (by omega)]
  omega

theorem lastPlace_empty {last : ℤ} (hlow : -2 ^ 63 ≤ last) (hhigh : last < 2 ^ 63) : lastPlace 0 last = last := by
  have hlimit : toSize ((0 : ℕ) - 1) = 2 ^ 64 - 1 := by decide
  have hle : toSize last ≤ 2 ^ 64 - 1 := by
    have hlt : toSize last < 2 ^ 64 := Int.emod_lt_of_pos last (by decide)
    omega
  have hback : toSSize (toSize last) = toSSize last := Int.emod_bmod last (2 ^ 64)
  rw [lastPlace, hlimit, Int.min_eq_left hle, hback, toSSize_eq hlow hhigh]

theorem firstPlace_empty {start : ℤ} (hlow : -2 ^ 31 ≤ start) (hhigh : start < 2 ^ 31) : firstPlace 0 start = start := by
  have hback : toInt ((0 : ℕ) + start) = start := by
    rw [Int.natCast_zero, Int.zero_add]
    exact Int.bmod_eq_of_le (by omega) (by omega)
  rw [firstPlace, hback, ite_self]

theorem firstPlace_nonneg_iff (source_len : ℕ) (start : ℤ) :
    0 ≤ firstPlace source_len start ↔ 0 ≤ start ∨ 0 ≤ (source_len + start).bmod (2 ^ 32) := by
  rw [firstPlace]
  split
  next hneg =>
    rw [or_iff_right (Int.not_le.mpr hneg)]
    rfl
  next hneg => simp [Int.not_lt.mp hneg]

/-! ## What is copied -/

/-- A substring of the source is the result. -/
def Substring (source : Bytes) (result : Except Halt Bytes) : Prop :=
  ∃ i j : ℕ, i ≤ j ∧ j ≤ source.length ∧ result = .ok ((source.take j).drop i)

theorem substring_empty (source : Bytes) : Substring source (.ok []) :=
  ⟨0, 0, Nat.le_refl 0, Nat.zero_le _, by rw [List.take_zero, List.drop_nil]⟩

theorem copyPlaces_nonempty {source : StoredString} {first last : ℤ} (hlast : 0 ≤ last) (hinside : last < source.bytes.length) :
    Substring source.bytes (copyPlaces source.array first last) ↔ 0 ≤ first := by
  have hstored := source.stored
  have harray : source.array.length = source.bytes.length + 1 := by
    rw [StoredString.array, List.length_append, List.length_singleton]
  unfold copyPlaces
  by_cases horder : last < first
  · rw [if_pos horder]
    exact iff_of_true (substring_empty _) (by omega)
  rw [if_neg horder]
  by_cases hfirst : 0 ≤ first
  · rw [if_neg (by omega), if_pos ⟨hfirst, by omega⟩]
    refine iff_of_true ⟨first.toNat, last.toNat + 1, by omega, by omega, congrArg _ ?_⟩ hfirst
    have hcount : (last - first + 1).toNat = last.toNat + 1 - first.toNat := by omega
    rw [hcount, ← List.drop_take, text, StoredString.array, List.take_append_of_le_length (by omega)]
    refine List.takeWhile_eq_self_iff.mpr fun c hc => ?_
    have hmem := List.mem_of_mem_take (List.mem_of_mem_drop hc)
    simpa using fun hnul : c = 0 => source.nul_free (hnul ▸ hmem)
  · refine iff_of_false ?_ hfirst
    rintro ⟨i, j, -, -, h⟩
    split at h
    · cases h
    · rw [if_neg fun hboth => hfirst hboth.1] at h
      cases h

theorem copyPlaces_empty {source : StoredString} {first last : ℤ} (hempty : source.bytes = []) (hlow : -2 ^ 60 ≤ first)
    (hhigh : last < 2 ^ 60) :
    Substring source.bytes (copyPlaces source.array first last) ↔ last < first ∨ (first = 0 ∧ last = 0) := by
  have harray : source.array = [0] := by rw [StoredString.array, hempty, List.nil_append]
  unfold copyPlaces
  by_cases horder : last < first
  · rw [if_pos horder]
    exact iff_of_true (substring_empty _) (.inl horder)
  rw [if_neg horder, if_neg (by omega), or_iff_right horder, harray, List.length_singleton]
  by_cases hfirst : first = 0 ∧ last = 0
  · obtain ⟨rfl, rfl⟩ := hfirst
    exact iff_of_true (substring_empty _) ⟨rfl, rfl⟩
  · rw [if_neg (by omega)]
    refine iff_of_false ?_ hfirst
    rintro ⟨i, j, -, -, h⟩
    cases h

/-- The sum of both does not overflow. In a string that is not empty, the first place is not in front of it; in the empty
one, nothing is left to be read, or its NUL alone. -/
def Resolvable (source_len : ℕ) (start len : ℤ) : Prop :=
  len = 0 ∨ start + len < 2 ^ 31 ∧
    if source_len = 0 then len < 0 ∧ len ≤ start ∨ start = 0 ∧ len = 1
    else 0 ≤ start ∨ 0 ≤ (source_len + start).bmod (2 ^ 32)

/-- A substring of the source is read and returned exactly for these arguments. -/
theorem stringSubstring_iff (source : StoredString) (start len : Int32) :
    Substring source.bytes (stringSubstring source.array source.bytes.length start len) ↔
      Resolvable source.bytes.length start.toInt len.toInt := by
  have hstart := start.toInt_lt
  have hstart' := start.le_toInt
  have hlen := len.toInt_lt
  have hlen' := len.le_toInt
  unfold stringSubstring Resolvable
  generalize start.toInt = start at *
  generalize len.toInt = len at *
  by_cases hzero : len = 0
  · rw [if_pos hzero]
    exact iff_of_true (substring_empty _) (.inl hzero)
  rw [if_neg hzero, or_iff_right hzero]
  by_cases hoverflow : 2 ^ 31 ≤ start + len
  · rw [if_neg (by omega), if_pos hoverflow]
    refine iff_of_false ?_ fun h => by omega
    rintro ⟨i, j, -, -, h⟩
    cases h
  rw [if_neg hoverflow, and_iff_right (Int.not_le.mp hoverflow)]
  by_cases hempty : source.bytes.length = 0
  · have hnil := List.length_eq_zero_iff.mp hempty
    rw [hempty, if_pos rfl, Int.natCast_zero, Int.zero_add, firstPlace_empty hstart' hstart, toSSize_eq (by omega) (by omega),
      lastPlace_empty (by omega) (by omega), lastPlace_empty (by omega) (by omega)]
    split
    · rw [copyPlaces_empty hnil (by omega) (by omega)]
      omega
    · rw [copyPlaces_empty hnil (by omega) (by omega)]
      omega
  · have hinside := lastPlace_inside (Nat.pos_of_ne_zero hempty) source.stored
    rw [if_neg hempty, ← firstPlace_nonneg_iff]
    split
    · exact copyPlaces_nonempty (hinside _).1 (hinside _).2
    · exact copyPlaces_nonempty (hinside _).1 (hinside _).2

/-- A start that is further back than the source is long: two bytes in front of it are read. -/
theorem read_before_source : ¬ Substring (Json.ascii "abc") (stringSubstring (Json.ascii "abc" ++ [0]) 3 (-5) 2) := by
  have hfault : stringSubstring (Json.ascii "abc" ++ [0]) 3 (-5) 2 = .error .outOfBounds := by decide
  rintro ⟨i, j, -, -, h⟩
  rw [hfault] at h
  cases h

end Libntech.Strings
