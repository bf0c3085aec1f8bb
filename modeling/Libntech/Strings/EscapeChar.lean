import Libntech.Csv.Writer
import Libntech.Strings.CStrings

/-! # Escaping a character (`CountChar`, `EscapeCharCopy`)

The count leaves out the character behind a backslash, and the copy escapes it all the same.
-/
namespace Libntech.Strings
set_option autoImplicit false

open Libntech.Json (Bytes CString ascii)
open Libntech.Csv (intMax)

/-- The loop of `CountChar`; `skip` is set when `++sp` has gone on to the next character. -/
def countCharLoop (sep : UInt8) : Bool → ℕ → Bytes → Except Halt ℕ
  | _, _, [] => .error .outOfBounds
  | true, count, _ :: string => countCharLoop sep false count string
  | false, count, c :: string =>
    if c = 0 then .ok count
    else if c = '\\'.toUInt8 ∧ string.head? = some sep then countCharLoop sep true count string
    else if c = sep then
      if count = intMax then .error .overflow else countCharLoop sep false (count + 1) string
    else countCharLoop sep false count string

def countChar (string : Bytes) (sep : UInt8) : Except Halt ℕ :=
  if (text string).length = 0 then .ok 0 else countCharLoop sep false 0 string

/-- The loop of `EscapeCharCopy`, which writes to the cells that are left of a block of zeros; what they hold then. -/
def escapeLoop (to_escape escape_with : UInt8) : Bytes → ℕ → Except Halt Bytes
  | [], room => .ok (List.replicate room 0)
  | c :: str, room =>
    if c = to_escape then
      if room < 2 then .error .outOfBounds
      else do return escape_with :: c :: (← escapeLoop to_escape escape_with str (room - 2))
    else
      if room < 1 then .error .outOfBounds
      else do return c :: (← escapeLoop to_escape escape_with str (room - 1))

/-- The block that is returned. -/
def escapeCharCopy (str : Bytes) (to_escape escape_with : UInt8) : Except Halt Bytes := do
  let in_size := (text str).length
  if (2 ^ 64 - 1) / 2 - 1 < in_size then .error .programmingError
  else
    let out_size := in_size + (← countChar str to_escape) + 1
    escapeLoop to_escape escape_with (text str) out_size

/-- Every occurrence of a character with another one in front. -/
def escaped (to_escape escape_with : UInt8) (str : Bytes) : Bytes :=
  str.flatMap fun c => if c = to_escape then [escape_with, c] else [c]

/-! ## Counting -/

variable {sep : UInt8} {str : Bytes}

theorem countCharLoop_le (hnul : 0 ∉ str) {skip : Bool} {count n : ℕ}
    (h : countCharLoop sep skip count (str ++ [0]) = .ok n) : n ≤ count + str.count sep := by
  induction str generalizing skip count with
  | nil =>
    cases skip with
    | true => cases h
    | false => exact Nat.le_of_eq (Except.ok.inj h).symm
  | cons c str ih =>
    obtain ⟨hne, hnul⟩ := not_or.mp (mt List.mem_cons.mpr hnul)
    have hcons : str.count sep ≤ (c :: str).count sep := List.count_le_count_cons
    cases skip with
    | true =>
      have hle := ih hnul h
      omega
    | false =>
      rw [List.cons_append, countCharLoop, if_neg (Ne.symm hne)] at h
      split at h
      · have hle := ih hnul h
        omega
      split at h
      next hsep =>
        split at h
        · cases h
        · have hle := ih hnul h
          rw [hsep, List.count_cons_self]
          omega
      next =>
        have hle := ih hnul h
        omega

theorem pair_infix_cons {α : Type} (a b c : α) (l : List α) :
    [a, b] <:+: c :: l ↔ (c = a ∧ l.head? = some b) ∨ [a, b] <:+: l := by
  rw [List.infix_cons_iff, List.cons_prefix_cons, List.singleton_prefix_iff_head?_eq_some, eq_comm]

theorem countCharLoop_skip_lt (hnul : 0 ∉ str) {count n : ℕ} (hhead : (str ++ [0]).head? = some sep)
    (h : countCharLoop sep true count (str ++ [0]) = .ok n) : n < count + str.count sep := by
  cases str with
  | nil => cases h
  | cons d str =>
    obtain rfl := Option.some.inj hhead
    have hle := countCharLoop_le (fun hmem => hnul (List.mem_cons_of_mem _ hmem)) h
    rw [List.count_cons_self]
    omega

/-- No occurrence is left out exactly where none has a backslash in front, as long as an `int` can count them. -/
theorem countCharLoop_iff (hnul : 0 ∉ str) {count : ℕ} (hcount : count ≤ intMax) :
    (∃ n, countCharLoop sep false count (str ++ [0]) = .ok n ∧ count + str.count sep ≤ n) ↔
      ¬ ['\\'.toUInt8, sep] <:+: str ++ [0] ∧ count + str.count sep ≤ intMax := by
  induction str generalizing count with
  | nil =>
    refine iff_of_true ⟨count, rfl, Nat.le_refl _⟩ ⟨fun hpair => ?_, hcount⟩
    have hlen := hpair.length_le
    simp at hlen
  | cons c str ih =>
    obtain ⟨hne, hnul⟩ := not_or.mp (mt List.mem_cons.mpr hnul)
    rw [List.cons_append, countCharLoop, if_neg (Ne.symm hne), pair_infix_cons]
    split
    next hpair =>
      refine iff_of_false ?_ fun h => h.1 (.inl hpair)
      rintro ⟨n, hn, hle⟩
      have hless := countCharLoop_skip_lt hnul hpair.2 hn
      have hcons : str.count sep ≤ (c :: str).count sep := List.count_le_count_cons
      omega
    next hpair =>
      rw [or_iff_right hpair]
      split
      next hsep =>
        rw [hsep, List.count_cons_self, ← Nat.add_assoc, Nat.add_right_comm]
        split
        next hmax =>
          refine iff_of_false ?_ fun h => by omega
          rintro ⟨n, hn, hle⟩
          cases hn
        next hmax => exact ih hnul (by omega)
      next hsep =>
        rw [List.count_cons_of_ne hsep]
        exact ih hnul hcount

/-! ## Copying -/

variable (to_escape escape_with : UInt8)

theorem length_escaped (str : Bytes) : (escaped to_escape escape_with str).length = str.length + str.count to_escape := by
  induction str with
  | nil => rfl
  | cons c str ih =>
    rw [escaped, List.flatMap_cons, List.length_append, ← escaped, ih, List.length_cons, List.count_cons]
    by_cases hc : c = to_escape
    · simp [hc]
      omega
    · simp [hc]
      omega

variable {to_escape escape_with} in
theorem nul_mem_escaped {str : Bytes} (hnul : 0 ∉ str) :
    0 ∈ escaped to_escape escape_with str ↔ escape_with = 0 ∧ to_escape ∈ str := by
  rw [escaped, List.mem_flatMap]
  constructor
  · rintro ⟨c, hc, hzero⟩
    split at hzero
    next heq =>
      rcases List.mem_cons.mp hzero with hwith | hsame
      · exact ⟨hwith.symm, heq ▸ hc⟩
      · exact absurd (List.mem_singleton.mp hsame ▸ hc) hnul
    next => exact absurd (List.mem_singleton.mp hzero ▸ hc) hnul
  · rintro ⟨rfl, hmem⟩
    exact ⟨to_escape, hmem, by simp⟩

theorem escapeLoop_eq (str : Bytes) (room : ℕ) : escapeLoop to_escape escape_with str room =
    if (escaped to_escape escape_with str).length ≤ room then
      .ok (escaped to_escape escape_with str ++ List.replicate (room - (escaped to_escape escape_with str).length) 0)
    else .error .outOfBounds := by
  induction str generalizing room with
  | nil => simp [escapeLoop, escaped]
  | cons c str ih =>
    have hcons : escaped to_escape escape_with (c :: str) =
        (if c = to_escape then [escape_with, c] else [c]) ++ escaped to_escape escape_with str := rfl
    have hstep (front rest : Bytes) :
        (if room < front.length then Except.error Halt.outOfBounds
          else
            (if rest.length ≤ room - front.length then
              Except.ok (rest ++ List.replicate (room - front.length - rest.length) 0)
            else .error .outOfBounds) >>= fun out => pure (front ++ out)) =
          if (front ++ rest).length ≤ room then .ok (front ++ rest ++ List.replicate (room - (front ++ rest).length) 0)
          else .error .outOfBounds := by
      rw [List.length_append]
      by_cases hroom : room < front.length
      · rw [if_pos hroom, if_neg (by omega)]
      by_cases hrest : rest.length ≤ room - front.length
      · rw [if_neg hroom, if_pos hrest, if_pos (by omega), Nat.sub_sub, List.append_assoc]
        rfl
      · rw [if_neg hroom, if_neg hrest, if_neg (by omega)]
        rfl
    rw [escapeLoop, hcons, ih, ih]
    by_cases hc : c = to_escape
    · rw [if_pos hc, if_pos hc]
      exact hstep [escape_with, c] _
    · rw [if_neg hc, if_neg hc]
      exact hstep [c] _

/-- The string in the block is the escaped one. -/
def Escapes (str : Bytes) (result : Except Halt Bytes) : Prop :=
  ∃ block, result = .ok block ∧ 0 ∈ block ∧ text block = escaped to_escape escape_with str

theorem escapeLoop_escapes {str : Bytes} (hnul : 0 ∉ str) (room : ℕ) :
    Escapes to_escape escape_with str (escapeLoop to_escape escape_with str room) ↔
      str.length + str.count to_escape < room ∧ (escape_with ≠ 0 ∨ to_escape ∉ str) := by
  rw [escapeLoop_eq, length_escaped]
  have hmem := @nul_mem_escaped to_escape escape_with str hnul
  constructor
  · rintro ⟨block, hblock, hzero, htext⟩
    split at hblock
    next hle =>
      injection hblock with hblock
      subst hblock
      have hfree : 0 ∉ escaped to_escape escape_with str := htext ▸ nul_not_mem_text _
      refine ⟨?_, ?_⟩
      · by_contra hfull
        rw [List.mem_append, or_iff_right hfree, List.mem_replicate] at hzero
        omega
      · rw [hmem] at hfree
        tauto
    next => cases hblock
  · rintro ⟨hlt, hfree⟩
    rw [if_pos (Nat.le_of_lt hlt)]
    have hfree : 0 ∉ escaped to_escape escape_with str := by
      rw [hmem]
      tauto
    refine ⟨_, rfl, ?_, ?_⟩
    · exact List.mem_append_right _ (List.mem_replicate.mpr ⟨by omega, rfl⟩)
    · obtain ⟨k, hk⟩ : ∃ k, room - (str.length + str.count to_escape) = k + 1 := ⟨_, (Nat.succ_pred (by omega)).symm⟩
      rw [hk, List.replicate_succ, text_append_nul _ hfree]

/-- No occurrence has a backslash in front, with the terminator as a character of the string; there are no more of them than
an `int` can count, and the string is not too long; and the character in front is not the NUL where one is needed. -/
structure Escapable (str : Bytes) : Prop where
  unescaped : ¬ ['\\'.toUInt8, to_escape] <:+: str ++ [0]
  counted : str.count to_escape ≤ intMax
  short : str.length ≤ (2 ^ 64 - 1) / 2 - 1
  visible : escape_with ≠ 0 ∨ to_escape ∉ str

theorem countChar_eq {str : Bytes} (hnul : 0 ∉ str) (sep : UInt8) :
    countChar (str ++ [0]) sep = countCharLoop sep false 0 (str ++ [0]) := by
  rw [countChar, text_append_nul _ hnul]
  split
  next hempty =>
    rw [List.length_eq_zero_iff.mp hempty]
    rfl
  next => rfl

/-- The copy is right, and stays in its block, exactly for these. -/
theorem escapeCharCopy_iff (str : CString) :
    Escapes to_escape escape_with str.bytes (escapeCharCopy (str.bytes ++ [0]) to_escape escape_with) ↔
      Escapable to_escape escape_with str.bytes := by
  obtain ⟨str, hnul⟩ := str
  have hcount := @countCharLoop_iff to_escape str hnul 0 (Nat.zero_le intMax)
  rw [Nat.zero_add] at hcount
  rw [escapeCharCopy, text_append_nul _ hnul, countChar_eq hnul]
  split
  next hlong =>
    refine iff_of_false ?_ fun h => ?_
    · rintro ⟨block, hblock, -⟩
      cases hblock
    · have hshort := h.short
      exact absurd hshort (Nat.not_le.mpr hlong)
  next hshort =>
    cases hloop : countCharLoop to_escape false 0 (str ++ [0]) with
    | error e =>
      refine iff_of_false ?_ fun h => ?_
      · rintro ⟨block, hblock, -⟩
        cases hblock
      · obtain ⟨n, hn, -⟩ := hcount.mpr ⟨h.unescaped, h.counted⟩
        rw [hloop] at hn
        cases hn
    | ok n =>
      have hall : str.count to_escape ≤ n ↔ ¬ ['\\'.toUInt8, to_escape] <:+: str ++ [0] ∧ str.count to_escape ≤ intMax := by
        rw [← hcount, hloop]
        constructor
        · exact fun hle => ⟨n, rfl, hle⟩
        · rintro ⟨m, hm, hle⟩
          injection hm with hm
          rwa [hm]
      change Escapes to_escape escape_with str (escapeLoop to_escape escape_with str (str.length + n + 1)) ↔ _
      rw [escapeLoop_escapes _ _ hnul]
      constructor
      · rintro ⟨hroom, hvisible⟩
        obtain ⟨hunescaped, hcounted⟩ := hall.mp (by omega)
        exact ⟨hunescaped, hcounted, Nat.not_lt.mp hshort, hvisible⟩
      · rintro ⟨hunescaped, hcounted, -, hvisible⟩
        have hle := hall.mpr ⟨hunescaped, hcounted⟩
        exact ⟨by omega, hvisible⟩

/-- One byte is counted too few for the escaped separator: no NUL is left in the block. -/
theorem terminator_missing : ¬ Escapes ','.toUInt8 '\\'.toUInt8 (ascii "\\,")
    (escapeCharCopy (ascii "\\," ++ [0]) ','.toUInt8 '\\'.toUInt8) := by
  rintro ⟨block, hblock, hzero, -⟩
  have hfull : escapeCharCopy (ascii "\\," ++ [0]) ','.toUInt8 '\\'.toUInt8 = .ok (ascii "\\\\,") := by decide
  rw [hfull] at hblock
  injection hblock with hblock
  subst hblock
  revert hzero
  decide

end Libntech.Strings
