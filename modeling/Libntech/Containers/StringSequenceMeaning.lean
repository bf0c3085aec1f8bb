import Libntech.Containers.StringSequence
import Libntech.Json.CopyMeaning
import Libntech.Lib.Terminated

/-! # What the two decoders of length-prefixed strings read

`records` is what a text says: as long as there is text, a prefix of ten characters, as many characters as it tells,
and a newline. The decoder in memory computes just this. The decoder of files does so too where every record begins
with a prefix; it fails an assertion or leaves an array where one does not. The array that it hands to `sscanf` has no
terminator, so that with a library that looks for it, every record is read past the array.
-/
namespace Libntech.Containers.StringSequence
set_option autoImplicit false

open Libntech.Json (Bytes CString decimal isSpace isNumeral splitSign numeralsValue ascii)

variable {seeksNul : Bool}

/-! ## Arrays -/

@[simp] theorem ok_bind {α β : Type} (a : α) (f : α → Except Fault β) : (Except.ok a >>= f) = f a := rfl
@[simp] theorem error_bind {α β : Type} (e : Fault) (f : α → Except Fault β) : (Except.error e >>= f) = .error e := rfl
@[simp] theorem pure_eq {α : Type} (a : α) : (pure a : Except Fault α) = .ok a := rfl

variable {data r t u : Bytes} {n p : ℕ} {c : UInt8}

theorem charAt_drop (h : data.drop p = u ++ c :: r) : charAt data (p + u.length) = .ok c := by
  have hget : data[p + u.length]? = some c := by
    rw [← List.getElem?_drop, h]
    simp
  rw [charAt, hget]

theorem charAt_getElem {i : ℕ} (h : data.drop p = r ++ t) (hc : r[i]? = some c) :
    charAt data (p + i) = .ok c := by
  have hget : data[p + i]? = some c := by
    rw [← List.getElem?_drop, h, List.getElem?_append_left (List.getElem?_eq_some_iff.mp hc).1, hc]
  rw [charAt, hget]

theorem charAt_head (h : data.drop p = c :: r) : charAt data p = .ok c :=
  charAt_drop (u := []) h

theorem drop_append (h : data.drop p = u ++ r) : data.drop (p + u.length) = r := by
  rw [← List.drop_drop, h, List.drop_left]

theorem drop_tail (h : data.drop p = c :: r) : data.drop (p + 1) = r :=
  drop_append (u := [c]) h

/-! ## The length prefix -/

/-- The length that the text begins with: ten characters, the first a digit and the last a blank. -/
def prefixLength (r : Bytes) : Option ℕ :=
  if (∃ c ∈ r.head?, isNumeral c = true) ∧ r[strLengthPrefixLen - 1]? = some ' '.toUInt8 then
    some (numeralsValue ((r.take strLengthPrefixLen).takeWhile isNumeral))
  else none

theorem hasNulByte_false (n : ℕ) : ∀ {p : ℕ} {u r : Bytes}, data.drop p = u ++ r → 0 ∉ u →
    n ≤ u.length → hasNulByte data p n = .ok false := by
  induction n with
  | zero => exact fun _ _ _ => rfl
  | succ n ih =>
    intro p u r h h0 hlen
    cases u with
    | nil => exact absurd hlen (by simp)
    | cons c u =>
      have hne : c ≠ 0 := fun hc => h0 (hc ▸ List.mem_cons_self)
      rw [hasNulByte, charAt_head h, ok_bind, if_neg hne]
      exact ih (drop_tail h) (fun hmem => h0 (List.mem_cons_of_mem _ hmem)) (Nat.succ_le_succ_iff.mp hlen)

theorem hasNulByte_true (n : ℕ) : ∀ {p : ℕ} {u r : Bytes}, data.drop p = u ++ 0 :: r → u.length < n →
    hasNulByte data p n = .ok true := by
  induction n with
  | zero => exact fun _ hlen => absurd hlen (by omega)
  | succ n ih =>
    intro p u r h hlen
    cases u with
    | nil => rw [hasNulByte, charAt_head h, ok_bind, if_pos rfl]
    | cons c u =>
      rw [hasNulByte, charAt_head h, ok_bind]
      split
      · rfl
      · exact ih (drop_tail h) (Nat.succ_lt_succ_iff.mp hlen)

theorem numeralsValue_lt {d : Bytes} (hd : ∀ c ∈ d, isNumeral c = true) : numeralsValue d < 10 ^ d.length := by
  induction d using List.reverseRecOn with
  | nil => decide
  | append_singleton d c ih =>
    have hc : isNumeral c = true := hd c (by simp)
    have hvalue : numeralsValue [c] < 10 := by
      have hle : c.toNat ≤ 57 := by
        simp only [isNumeral, Json.isDigit, Bool.or_eq_true, beq_iff_eq, Bool.and_eq_true, decide_eq_true_eq,
          UInt8.le_iff_toNat_le] at hc
        rcases hc with rfl | hc
        · decide
        · exact hc.2
      show 10 * 0 + (c.toNat - 48) < 10
      omega
    have hrest := ih fun x hx => hd x (List.mem_append_left _ hx)
    rw [Json.numeralsValue_append, List.length_append, List.length_singleton, pow_one, pow_succ]
    omega

theorem prefixLength_eq_some : prefixLength r = some n ↔
    (∃ c ∈ r.head?, isNumeral c = true) ∧ r[strLengthPrefixLen - 1]? = some ' '.toUInt8 ∧
      n = numeralsValue ((r.take strLengthPrefixLen).takeWhile isNumeral) := by
  unfold prefixLength
  split
  · rename_i h
    constructor
    · exact fun heq => ⟨h.1, h.2, (Option.some.inj heq).symm⟩
    · exact fun heq => by rw [heq.2.2]
  · rename_i h
    constructor
    · exact fun heq => by cases heq
    · exact fun heq => absurd ⟨heq.1, heq.2.1⟩ h

/-- A text with a length in front: digits, and a character that is none within the first ten. -/
theorem prefixLength_split (h : prefixLength r = some n) :
    ∃ d c y, r = d ++ c :: y ∧ d ≠ [] ∧ (∀ x ∈ d, isNumeral x = true) ∧ isNumeral c = false ∧ d.length < 10 ∧
      n = numeralsValue d := by
  obtain ⟨⟨b, hb, hnum⟩, hlast, rfl⟩ := prefixLength_eq_some.mp h
  have hlen : strLengthPrefixLen ≤ r.length := by
    have := (List.getElem?_eq_some_iff.mp hlast).1
    simp only [strLengthPrefixLen] at this ⊢
    omega
  have hw : (r.take strLengthPrefixLen).length = 10 := List.length_take_of_le hlen
  have hmem : ' '.toUInt8 ∈ r.take strLengthPrefixLen := by
    refine List.mem_iff_getElem?.mpr ⟨strLengthPrefixLen - 1, ?_⟩
    rw [List.getElem?_take_of_lt (by decide), hlast]
  have hsplit := List.takeWhile_append_dropWhile (p := isNumeral) (l := r.take strLengthPrefixLen)
  cases hrest : (r.take strLengthPrefixLen).dropWhile isNumeral with
  | nil =>
    rw [hrest, List.append_nil] at hsplit
    rw [← hsplit] at hmem
    exact absurd (List.all_eq_true.mp List.all_takeWhile _ hmem) (by decide)
  | cons c y =>
    have hc : isNumeral c = false := by
      have hhead := List.head?_dropWhile_not isNumeral (r.take strLengthPrefixLen)
      rw [hrest] at hhead
      simpa using hhead
    rw [hrest] at hsplit
    refine ⟨_, c, y ++ r.drop strLengthPrefixLen, ?_, ?_, List.all_eq_true.mp List.all_takeWhile, hc, ?_, rfl⟩
    · rw [← List.cons_append, ← List.append_assoc, hsplit, List.take_append_drop]
    · obtain ⟨t, rfl⟩ : ∃ t, r = b :: t := by
        cases r with
        | nil => cases hb
        | cons x t => exact ⟨t, by rw [Option.some.inj hb]⟩
      simp [strLengthPrefixLen, hnum]
    · have hlength := congrArg List.length hsplit
      rw [List.length_append, List.length_cons, hw] at hlength
      omega

theorem numeral_not_space (h : isNumeral c = true) : isSpace c = false := by
  by_contra hs
  have hspace : c = ' '.toUInt8 ∨ (9 ≤ c ∧ c ≤ 13) := by
    simpa [isSpace, or_iff_not_imp_left] using hs
  have hnum : c = '0'.toUInt8 ∨ ('1'.toUInt8 ≤ c ∧ c ≤ '9'.toUInt8) := by simpa [isNumeral, Json.isDigit] using h
  rcases hspace with rfl | ⟨_, hle⟩
  · exact absurd h (by decide)
  · rcases hnum with rfl | ⟨hge, _⟩
    · exact absurd hle (by decide)
    · exact absurd (UInt8.le_trans hge hle) (by decide)

theorem sscanfLong_digits {d y : Bytes} (hne : d ≠ []) (hd : ∀ x ∈ d, isNumeral x = true) (hc : isNumeral c = false)
    (hlen : d.length < 10) (hnul : seeksNul = true → 0 ∈ d ++ c :: y) :
    sscanfLong seeksNul (d ++ c :: y) = .ok (some (numeralsValue d : ℤ)) := by
  obtain ⟨htake, _⟩ := Json.numerals_split (r := c :: y) hd (by simpa using hc)
  obtain ⟨b, t, rfl⟩ := List.exists_cons_of_ne_nil hne
  have hb := hd b List.mem_cons_self
  have hspace : isSpace b = false := numeral_not_space hb
  have hsign : splitSign ((b :: t) ++ c :: y) = (false, (b :: t) ++ c :: y) := Json.splitSign_sign false _ hb
  have hdrop : ((b :: t) ++ c :: y).dropWhile isSpace = (b :: t) ++ c :: y := by
    rw [List.cons_append, List.dropWhile_cons, hspace, if_neg (by simp)]
  have hvalue : numeralsValue (b :: t) < 10 ^ 9 := by
    calc numeralsValue (b :: t) < 10 ^ (b :: t).length := numeralsValue_lt hd
      _ ≤ 10 ^ 9 := Nat.pow_le_pow_right (by decide) (by omega)
  have hshort : ¬ (b :: t).length = ((b :: t) ++ c :: y).length := by
    have := Nat.succ_pos y.length
    rw [List.length_append, List.length_cons (a := c)]
    omega
  have hclamp : max (-9223372036854775808) (min 9223372036854775807 (numeralsValue (b :: t) : ℤ)) =
      numeralsValue (b :: t) := by
    rw [min_eq_right (by omega), max_eq_right (by omega)]
  have hfound : (seeksNul && !((b :: t) ++ c :: y).contains 0) = false := by
    cases seeksNul with
    | false => rfl
    | true => rw [Bool.true_and, List.contains_iff_mem.mpr (hnul rfl), Bool.not_true]
  simp only [sscanfLong, hdrop, hsign, htake, hshort, if_false, hne, Bool.false_eq_true, hclamp, hfound]

/-- Without a terminator a library that looks for it reads past the array. -/
theorem sscanfLong_unterminated (h : 0 ∉ data) : sscanfLong true data = .error .outOfBounds := by
  have hmissing : (true && !data.contains 0) = true := by
    rw [Bool.true_and, Bool.not_eq_true', Bool.eq_false_iff]
    exact fun hmem => h (List.contains_iff_mem.mp hmem)
  simp only [sscanfLong, hmissing, if_true]

theorem getLengthPrefix_some (h : data.drop p = r ++ t) (h0 : 0 ∉ r) (hnul : seeksNul = true → 0 ∈ t)
    (hn : prefixLength r = some n) :
    getLengthPrefix seeksNul data p = .ok (n : ℤ) := by
  obtain ⟨⟨b, hb, hnum⟩, hlast, _⟩ := prefixLength_eq_some.mp hn
  obtain ⟨d, c, y, hr, hne, hd, hc, hlen, rfl⟩ := prefixLength_split hn
  have hten := (List.getElem?_eq_some_iff.mp hlast).1
  have hfirst : charAt data p = .ok b := by
    refine charAt_head (r := r.tail ++ t) ?_
    rw [h, ← List.cons_append, List.cons_head?_tail hb]
  have hblank := charAt_getElem h hlast
  rw [hr, List.append_assoc, List.cons_append] at h
  simp only [getLengthPrefix, hasNulByte_false 10 (u := r) (r := t) (by rw [h, hr]; simp) h0
    (by simp only [strLengthPrefixLen] at hten; omega), ok_bind, Bool.false_eq_true, if_false, hfirst, hnum,
    not_true_eq_false, hblank, ne_eq, h, sscanfLong_digits hne hd hc hlen
      fun hseeks => List.mem_append_right d (List.mem_cons_of_mem c (List.mem_append_right y (hnul hseeks)))]
  have hneg : ¬ ((numeralsValue d : ℤ) < 0) := by omega
  rw [if_neg hneg]
  rfl

theorem getLengthPrefix_unterminated (h0 : 0 ∉ r) (hn : prefixLength r = some n) :
    getLengthPrefix true r 0 = .error .outOfBounds := by
  obtain ⟨⟨b, hb, hnum⟩, hlast, _⟩ := prefixLength_eq_some.mp hn
  have hten := (List.getElem?_eq_some_iff.mp hlast).1
  have hself : r.drop 0 = r ++ [] := (List.append_nil _).symm
  have hfirst : charAt r 0 = .ok b := charAt_head (r := r.tail) (List.cons_head?_tail hb).symm
  have hblank := charAt_getElem hself hlast
  rw [Nat.zero_add] at hblank
  simp only [getLengthPrefix, hasNulByte_false 10 hself h0 (by simp only [strLengthPrefixLen] at hten; omega), ok_bind,
    Bool.false_eq_true, if_false, hfirst, hnum, not_true_eq_false, hblank, ne_eq, Nat.zero_add, List.drop_zero,
    sscanfLong_unterminated h0]
  rfl

theorem getLengthPrefix_none (h : data.drop p = r ++ t) (h0 : 0 ∉ r)
    (hlen : strLengthPrefixLen ≤ r.length ∨ ∃ u, t = 0 :: u) (hn : prefixLength r = none) :
    getLengthPrefix seeksNul data p = .ok (-1) := by
  by_cases hten : strLengthPrefixLen ≤ r.length
  · have hnul := hasNulByte_false 10 h h0 hten
    have hlast : strLengthPrefixLen - 1 < r.length := by
      simp only [strLengthPrefixLen] at hten ⊢
      omega
    cases r with
    | nil => exact absurd hten (by decide)
    | cons b r =>
      have hblank := charAt_getElem h (List.getElem?_eq_getElem hlast)
      simp only [getLengthPrefix, hnul, ok_bind, Bool.false_eq_true, if_false, charAt_head h]
      by_cases hnum : isNumeral b = true
      · have hne : (b :: r)[strLengthPrefixLen - 1] ≠ ' '.toUInt8 := by
          intro heq
          rw [prefixLength, if_pos ⟨⟨b, rfl, hnum⟩, by rw [List.getElem?_eq_getElem hlast, heq]⟩] at hn
          cases hn
        rw [hnum, if_neg (by simp), hblank, ok_bind, if_pos hne]
        rfl
      · rw [if_pos hnum]
        rfl
  · obtain ⟨u, rfl⟩ := hlen.resolve_left hten
    have hnul := hasNulByte_true 10 h (Nat.lt_of_not_le hten)
    simp only [getLengthPrefix, hnul, ok_bind, if_true]
    rfl

/-! ## What a text says -/

/-- The strings of a text, if it is a sequence of records. -/
def records (r : Bytes) : Option (List Bytes) :=
  if r = [] then some []
  else
    match prefixLength r with
    | none => none
    | some n =>
      if (r.drop strLengthPrefixLen)[n]? = some '\n'.toUInt8 then
        (records (r.drop (strLengthPrefixLen + n + 1))).map ((r.drop strLengthPrefixLen).take n :: ·)
      else none
  termination_by r.length
  decreasing_by
    have := List.length_pos_iff.mpr (by assumption)
    rw [List.length_drop]
    omega

theorem records_nil : records [] = some [] := by rw [records, if_pos rfl]

theorem records_none (hne : r ≠ []) (hn : prefixLength r = none) : records r = none := by
  rw [records, if_neg hne, hn]

theorem records_some (hn : prefixLength r = some n) :
    records r = if (r.drop strLengthPrefixLen)[n]? = some '\n'.toUInt8 then
      (records (r.drop (strLengthPrefixLen + n + 1))).map ((r.drop strLengthPrefixLen).take n :: ·) else none := by
  have hne : r ≠ [] := by
    rintro rfl
    cases hn
  rw [records, if_neg hne, hn]

theorem prefixLength_length (h : prefixLength r = some n) : strLengthPrefixLen ≤ r.length := by
  have hlast := (List.getElem?_eq_some_iff.mp (prefixLength_eq_some.mp h).2.1).1
  simp only [strLengthPrefixLen] at hlast ⊢
  omega

/-! ## Decoding in memory -/

theorem strncpy_eq (n : ℕ) : ∀ {p : ℕ} {r : Bytes}, data.drop p = r ++ 0 :: u → 0 ∉ r →
    strncpy data p n = .ok (r.take n) := by
  induction n with
  | zero => exact fun _ _ => rfl
  | succ n ih =>
    intro p r h h0
    cases r with
    | nil =>
      rw [strncpy, charAt_head h, ok_bind, if_pos rfl]
      rfl
    | cons c r =>
      have hne : c ≠ 0 := fun hc => h0 (hc ▸ List.mem_cons_self)
      rw [strncpy, charAt_head h, ok_bind, if_neg hne,
        ih (drop_tail h) fun hmem => h0 (List.mem_cons_of_mem _ hmem)]
      rfl

theorem cString_append {a b : Bytes} (h : 0 ∉ a) : cString (a ++ 0 :: b) = a := Lib.takeWhile_ne_terminated h b

/-- The character behind the first `n` becomes the terminator. -/
theorem take_set (h : n < r.length) : (r.take (n + 1)).set n 0 = r.take n ++ [0] := by
  rw [← List.take_append_getElem h, List.set_append_right _ _ (by rw [List.length_take_of_le (Nat.le_of_lt h)]),
    List.length_take_of_le (Nat.le_of_lt h), Nat.sub_self]
  rfl

theorem validDuplicate_eq (n : ℕ) (h : data.drop p = r ++ 0 :: u) (h0 : 0 ∉ r) :
    validDuplicate data p n = .ok (if r.length < n then none else some (r.take n)) := by
  have hn : n + 1 - 1 = n := rfl
  by_cases hlen : r.length ≤ n
  · -- the buffer is filled up with zeros
    obtain ⟨k, rfl⟩ := Nat.exists_eq_add_of_le hlen
    have htake : r.take (r.length + k + 1) = r := List.take_of_length_le (by omega)
    have hpad : r.length + k + 1 - r.length = k + 1 := by omega
    have hlast : charAt (r ++ List.replicate (k + 1) 0) (r.length + k) = .ok 0 := by
      rw [charAt, List.getElem?_append_right (by omega), Nat.add_sub_cancel_left, List.getElem?_replicate,
        if_pos (Nat.lt_succ_self k)]
    have hstring : cString (r ++ List.replicate (k + 1) 0) = r := cString_append (b := List.replicate k 0) h0
    simp only [validDuplicate, stringCopy, strncpy_eq _ h h0, ok_bind, htake, hpad, hn, hlast, ne_eq, not_true_eq_false,
      if_false, hstring]
    by_cases hk : r.length < r.length + k
    · simp only [pure_eq, ok_bind, hk, if_true]
    · simp only [pure_eq, ok_bind, hk, if_false, hstring,
        List.take_of_length_le (show r.length ≤ r.length + k by omega)]
  · have hlt : n < r.length := Nat.lt_of_not_le hlen
    have hchars : (r.take (n + 1)).length = n + 1 := List.length_take_of_le hlt
    have hlast : charAt (r.take (n + 1)) n = .ok r[n] := by
      rw [charAt, List.getElem?_take_of_lt (Nat.lt_succ_self n), List.getElem?_eq_getElem hlt]
    have hne : r[n] ≠ 0 := fun heq => h0 (heq ▸ List.getElem_mem hlt)
    have hstring : cString (r.take n ++ [0]) = r.take n := cString_append fun hmem => h0 (List.mem_of_mem_take hmem)
    simp only [validDuplicate, stringCopy, strncpy_eq _ h h0, ok_bind, hchars, Nat.sub_self, List.replicate_zero,
      List.append_nil, hn, hlast, ne_eq, hne, not_false_eq_true, if_true, take_set hlt,
      pure_eq, hstring]
    rw [if_neg (by omega), if_neg (by omega)]

theorem deserializeLoop_eq (fuel : ℕ) : ∀ {src : ℕ} {r : Bytes} (seq : List Bytes),
    data.drop src = r ++ [0] → 0 ∉ r → r.length < fuel →
    deserializeLoop seeksNul data fuel src seq = .ok ((records r).map (seq ++ ·)) := by
  induction fuel with
  | zero => exact fun _ _ _ hfuel => absurd hfuel (by omega)
  | succ fuel ih =>
    intro src r seq h h0 hfuel
    by_cases hr : r = []
    · subst hr
      rw [deserializeLoop, charAt_head h, ok_bind, if_pos rfl, records_nil, Option.map_some, List.append_nil]
      rfl
    obtain ⟨c, t, hcons⟩ := List.exists_cons_of_ne_nil hr
    have hc : c ≠ 0 := fun hc => h0 (by rw [hcons, hc]; exact List.mem_cons_self)
    have hhead : charAt data src = .ok c := charAt_head (r := t ++ [0]) (by rw [h, hcons]; rfl)
    rw [deserializeLoop, hhead, ok_bind, if_neg hc]
    cases hn : prefixLength r with
    | none =>
      rw [getLengthPrefix_none h h0 (.inr ⟨[], rfl⟩) hn, ok_bind, records_none hr hn]
      rfl
    | some n =>
      have hten := prefixLength_length hn
      have hblank := charAt_getElem h (prefixLength_eq_some.mp hn).2.1
      have hbody : data.drop (src + strLengthPrefixLen) = r.drop strLengthPrefixLen ++ [0] := by
        rw [← List.drop_drop, h, List.drop_append_of_le_length hten]
      have hbody0 : 0 ∉ r.drop strLengthPrefixLen := fun hmem => h0 (List.mem_of_mem_drop hmem)
      have hpos : src + strLengthPrefixLen - 1 = src + (strLengthPrefixLen - 1) := rfl
      rw [getLengthPrefix_some h h0 (fun _ => List.mem_singleton_self 0) hn, ok_bind, records_some hn]
      simp only [Int.not_ofNat_neg, if_false, hpos, hblank, ok_bind, ne_eq, not_true_eq_false, Int.toNat_natCast,
        validDuplicate_eq n hbody hbody0]
      cases hx : (r.drop strLengthPrefixLen)[n]? with
      | none =>
        have hlen := List.getElem?_eq_none_iff.mp hx
        rw [if_neg (show ¬ (none : Option UInt8) = some '\n'.toUInt8 by simp), Option.map_none]
        by_cases hshort : (r.drop strLengthPrefixLen).length < n
        · rw [if_pos hshort]
          rfl
        · -- the body is as long as it should be, and the end of the text follows
          rw [if_neg hshort]
          have hend : charAt data (src + strLengthPrefixLen + n) = .ok 0 := by
            obtain rfl : n = (r.drop strLengthPrefixLen).length := by omega
            exact charAt_drop hbody
          simp only [hend, ok_bind]
          rfl
      | some x =>
        have hlen := (List.getElem?_eq_some_iff.mp hx).1
        have hne := List.length_pos_iff.mpr hr
        rw [if_neg (by omega)]
        simp only [charAt_getElem hbody hx, ok_bind]
        by_cases hnl : x = '\n'.toUInt8
        · subst hnl
          have hnext : data.drop (src + strLengthPrefixLen + n + 1) = r.drop (strLengthPrefixLen + n + 1) ++ [0] := by
            rw [Nat.add_assoc, ← List.drop_drop, hbody, List.drop_append_of_le_length hlen, List.drop_drop,
              Nat.add_assoc]
          rw [if_neg (by simp), if_pos rfl, ih _ hnext (fun hmem => h0 (List.mem_of_mem_drop hmem))
            (by rw [List.length_drop]; omega)]
          cases records (r.drop (strLengthPrefixLen + n + 1)) with
          | none => rfl
          | some strs => simp
        · rw [if_pos hnl, if_neg (by simpa using hnl)]
          rfl

theorem seqStringDeserialize_eq (s : CString) : seqStringDeserialize seeksNul s.bytes = .ok (records s.bytes) := by
  have hstart : (s.bytes ++ [0]).drop 0 = s.bytes ++ [0] := rfl
  rw [seqStringDeserialize, deserializeLoop_eq (s.bytes.length + 1) [] hstart s.nul_free (Nat.lt_succ_self _)]
  cases records s.bytes <;> rfl

/-! ## What is serialized is read back -/

/-- The record of a string, from the length on. -/
def record (string : Bytes) : Bytes := writeLenPrefixedString [] string

theorem seqStringSerialize_eq (seq : List Bytes) : seqStringSerialize seq = seq.flatMap record := by
  have hfold : ∀ (seq : List Bytes) (w : Bytes), seq.foldl writeLenPrefixedString w = w ++ seq.flatMap record := by
    intro seq
    induction seq with
    | nil => exact fun w => (List.append_nil w).symm
    | cons string seq ih =>
      intro w
      rw [List.foldl_cons, ih, List.flatMap_cons, ← List.append_assoc]
      rfl
  exact hfold seq []

/-- The prefix of a string that is short enough, and what stands behind it. -/
theorem record_split {string : Bytes} (hlen : string.length < 1000000000) :
    ∃ p, record string = p ++ (string ++ ['\n'.toUInt8]) ∧ p.length = strLengthPrefixLen ∧ 0 ∉ p ∧
      ∀ r, prefixLength (p ++ r) = some string.length := by
  have hnum := Json.decimal_numerals string.length
  have hshort : (decimal string.length).length ≤ 9 := by
    by_contra hlong
    have := Json.pow_le_of_decimal_length (n := string.length) (k := 8) (by omega)
    omega
  have hrest : ∀ k, ∀ c ∈ (List.replicate (k + 1) ' '.toUInt8).head?, isNumeral c = false := by
    intro k c hc
    obtain rfl : ' '.toUInt8 = c := Option.some.inj hc
    decide
  obtain ⟨k, hk⟩ : ∃ k, strLengthPrefixLen = (decimal string.length).length + (k + 1) :=
    ⟨9 - (decimal string.length).length, by simp only [strLengthPrefixLen]; omega⟩
  have hpad : strLengthPrefixLen - (decimal string.length).length = k + 1 := by omega
  refine ⟨decimal string.length ++ List.replicate (k + 1) ' '.toUInt8, ?_, ?_, ?_, fun r => ?_⟩
  · rw [record, writeLenPrefixedString, hpad]
    simp
  · rw [List.length_append, List.length_replicate, hk]
  · rw [List.mem_append, not_or]
    refine ⟨fun h => absurd (hnum 0 h) (by decide), fun h => ?_⟩
    exact absurd (List.eq_of_mem_replicate h) (by decide)
  · have hwhole : (decimal string.length ++ List.replicate (k + 1) ' '.toUInt8).length = strLengthPrefixLen := by
      rw [List.length_append, List.length_replicate, hk]
    refine prefixLength_eq_some.mpr ⟨?_, ?_, ?_⟩
    · obtain ⟨c, t, hcons, hc⟩ := Json.decimal_cons string.length
      exact ⟨c, by rw [hcons]; rfl, hc⟩
    · have hpos : strLengthPrefixLen - 1 = (decimal string.length).length + k := by omega
      rw [List.append_assoc, hpos, List.getElem?_append_right (by omega), Nat.add_sub_cancel_left,
        List.getElem?_append_left (by rw [List.length_replicate]; omega), List.getElem?_replicate, if_pos (by omega)]
    · rw [List.take_left' hwhole, (Json.numerals_split hnum (hrest k)).1, Json.numeralsValue_decimal]

theorem records_record {string : Bytes} (hlen : string.length < 1000000000) :
    records (record string ++ r) = (records r).map (string :: ·) := by
  obtain ⟨p, hp, hten, _, hprefix⟩ := record_split hlen
  have hbody : (record string ++ r).drop strLengthPrefixLen = string ++ '\n'.toUInt8 :: r := by
    rw [hp, List.append_assoc, List.drop_left' hten, List.append_assoc]
    rfl
  have hn : prefixLength (record string ++ r) = some string.length := by
    rw [hp, List.append_assoc]
    exact hprefix _
  have hrest : (record string ++ r).drop (strLengthPrefixLen + string.length + 1) = r := by
    rw [Nat.add_assoc, ← List.drop_drop, hbody, ← List.drop_drop, List.drop_left]
    rfl
  rw [records_some hn, hbody, hrest, List.getElem?_append_right (Nat.le_refl _), Nat.sub_self, List.take_left]
  rfl

/-- Whatever the strings contain, deserializing what they were serialized to gives them back. -/
theorem deserialize_serialize (seeksNul : Bool) (seq : List CString) (h : ∀ string ∈ seq, string.bytes.length < 1000000000) :
    seqStringDeserialize seeksNul (seqStringSerialize (seq.map CString.bytes)) = .ok (some (seq.map CString.bytes)) := by
  have hnul : 0 ∉ seqStringSerialize (seq.map CString.bytes) := by
    rw [seqStringSerialize_eq, List.mem_flatMap]
    rintro ⟨bytes, hmem, h0⟩
    obtain ⟨string, hstring, rfl⟩ := List.mem_map.mp hmem
    obtain ⟨p, hp, _, hp0, _⟩ := record_split (h string hstring)
    rw [hp, List.mem_append, List.mem_append, List.mem_singleton] at h0
    rcases h0 with h0 | h0 | h0
    · exact hp0 h0
    · exact string.nul_free h0
    · exact absurd h0 (by decide)
  have hrecords : records (seqStringSerialize (seq.map CString.bytes)) = some (seq.map CString.bytes) := by
    rw [seqStringSerialize_eq]
    clear hnul
    induction seq with
    | nil => exact records_nil
    | cons string seq ih =>
      rw [List.map_cons, List.flatMap_cons, records_record (h string List.mem_cons_self),
        ih fun x hx => h x (List.mem_cons_of_mem _ hx)]
      rfl
  have hread : seqStringDeserialize seeksNul _ = _ := seqStringDeserialize_eq ⟨_, hnul⟩
  rw [hrecords] at hread
  exact hread

/-- A string with a digit, a blank and a newline, and an empty one. -/
theorem deserialize_serialize_two : seqStringDeserialize true (seqStringSerialize [ascii "1 \n", []]) =
    .ok (some [ascii "1 \n", []]) :=
  deserialize_serialize true [⟨ascii "1 \n", by decide⟩, ⟨[], by decide⟩] (by
    intro string hmem
    simp only [List.mem_cons, List.not_mem_nil, or_false] at hmem
    rcases hmem with rfl | rfl
    all_goals decide)

/-! ## Decoding a file -/

theorem take_again {m len : ℕ} (h : m ≤ len) :
    r.take m ++ (r.drop m).take (len - (r.take m).length) = r.take len ∧
      (r.drop m).drop (len - (r.take m).length) = r.drop len := by
  by_cases hm : m ≤ r.length
  · obtain ⟨k, rfl⟩ := Nat.exists_eq_add_of_le h
    rw [List.length_take_of_le hm, Nat.add_sub_cancel_left, List.drop_drop, List.take_add]
    exact ⟨rfl, rfl⟩
  · have hshort : r.length ≤ m := Nat.le_of_not_le hm
    rw [List.drop_eq_nil_of_le hshort, List.take_of_length_le hshort, List.take_nil, List.append_nil, List.drop_nil,
      List.take_of_length_le (Nat.le_trans hshort h), List.drop_eq_nil_of_le (Nat.le_trans hshort h)]
    exact ⟨rfl, rfl⟩

theorem fullReadLoop_eq (fuel : ℕ) : ∀ (fd : File) (len : ℕ) (total : Bytes), fd.reads.length + len < fuel →
    ∃ reads, fullReadLoop fuel fd len total = .ok (total ++ fd.rest.take len, ⟨fd.rest.drop len, reads⟩) := by
  induction fuel with
  | zero => exact fun _ _ _ hfuel => absurd hfuel (by omega)
  | succ fuel ih =>
    rintro ⟨r, reads⟩ len total hfuel
    by_cases hlen : len = 0
    · subst hlen
      exact ⟨reads, by rw [fullReadLoop, if_pos rfl, List.take_zero, List.append_nil]; rfl⟩
    -- a read that delivers something, or nothing at the end of the file
    have hdeliver : ∀ (m : ℕ) (reads' : List (Option ℕ)), 0 < m → m ≤ len →
        reads'.length + (len - (r.take m).length) < fuel ∨ r.take m = [] →
        ∃ reads'', (if r.take m = [] then (.ok (total, ⟨r.drop m, reads'⟩) : Except Fault (Bytes × File)) else
          fullReadLoop fuel ⟨r.drop m, reads'⟩ (len - (r.take m).length) (total ++ r.take m)) =
            .ok (total ++ r.take len, ⟨r.drop len, reads''⟩) := by
      intro m reads' hm hle hsmall
      by_cases hnil : r.take m = []
      · have hr : r = [] := by
          rcases List.take_eq_nil_iff.mp hnil with h | h
          · omega
          · exact h
        subst hr
        exact ⟨reads', by simp⟩
      · obtain ⟨reads'', heq⟩ := ih ⟨r.drop m, reads'⟩ (len - (r.take m).length) (total ++ r.take m)
          (hsmall.resolve_right hnil)
        obtain ⟨htake, hdrop⟩ := take_again (r := r) hle
        refine ⟨reads'', ?_⟩
        rw [if_neg hnil, heq]
        simp only [List.append_assoc, htake, hdrop]
    have hpos : ∀ m, r.take m ≠ [] → 0 < (r.take m).length := fun m h => List.length_pos_iff.mpr h
    rw [fullReadLoop, if_neg hlen]
    cases reads with
    | nil =>
      have hstep := hdeliver len [] (by omega) (Nat.le_refl _) ?_
      · exact hstep
      · by_cases hnil : r.take len = []
        · exact .inr hnil
        · have := hpos len hnil
          simp only [List.length_nil] at hfuel ⊢
          omega
    | cons answer reads =>
      rw [List.length_cons] at hfuel
      cases answer with
      | none => exact ih ⟨r, reads⟩ len total (by simp only; omega)
      | some more =>
        have hstep := hdeliver (min len (more + 1)) reads (by omega) (Nat.min_le_left _ _) (.inl (by omega))
        exact hstep

theorem fullRead_eq (fd : File) (len : ℕ) :
    ∃ reads, fullRead fd len = .ok (fd.rest.take len, ⟨fd.rest.drop len, reads⟩) :=
  fullReadLoop_eq _ fd len [] (Nat.lt_succ_self _)

theorem prefixLength_take : prefixLength (r.take strLengthPrefixLen) = some n ↔
    prefixLength r = some n := by
  have hhead : (r.take strLengthPrefixLen).head? = r.head? := by
    cases r <;> rfl
  rw [prefixLength_eq_some, prefixLength_eq_some, hhead, List.getElem?_take_of_lt (by decide), List.take_take,
    Nat.min_self]

/-- One record that begins with a prefix, whatever the array held before and however the bytes are delivered. -/
theorem readLenPrefixedString_some (h0 : 0 ∉ r) (hn : prefixLength r = some n) (junk : ℕ → UInt8)
    (reads : List (Option ℕ)) : ∃ reads', readLenPrefixedString false junk ⟨r, reads⟩ =
      .ok (if (r.drop strLengthPrefixLen)[n]? = some '\n'.toUInt8 then .string ((r.drop strLengthPrefixLen).take n)
        else .error, ⟨r.drop (strLengthPrefixLen + n + 1), reads'⟩) := by
  obtain ⟨reads₁, hfirst⟩ := fullRead_eq ⟨r, reads⟩ strLengthPrefixLen
  obtain ⟨reads₂, hsecond⟩ := fullRead_eq ⟨r.drop strLengthPrefixLen, reads₁⟩ (n + 1)
  have hten := prefixLength_length hn
  have hlen : (r.take strLengthPrefixLen).length = strLengthPrefixLen := List.length_take_of_le hten
  have hne : r.take strLengthPrefixLen ≠ [] := by
    intro h
    rw [h] at hlen
    cases hlen
  have hbuf0 : 0 ∉ r.take strLengthPrefixLen := fun h => h0 (List.mem_of_mem_take h)
  have hbuf := prefixLength_take.mpr hn
  have hself : (r.take strLengthPrefixLen).drop 0 = r.take strLengthPrefixLen ++ [] := (List.append_nil _).symm
  have hblank := charAt_getElem hself (prefixLength_eq_some.mp hbuf).2.1
  have hlength : getLengthPrefix false _ 0 = _ := getLengthPrefix_some hself hbuf0 (fun h => by cases h) hbuf
  rw [Nat.zero_add] at hblank
  have hsize : ((n : ℤ) + 1).toNat = n + 1 := rfl
  rw [List.drop_drop, ← Nat.add_assoc] at hsecond
  refine ⟨reads₂, ?_⟩
  simp only [readLenPrefixedString, hfirst, ok_bind, hne, if_false, hlen, Nat.sub_self, List.range_zero, List.map_nil,
    List.append_nil, hblank, ne_eq, not_true_eq_false, hlength, hsize, hsecond, Int.not_ofNat_neg, Int.toNat_natCast]
  generalize hb : r.drop strLengthPrefixLen = b
  have hb0 : 0 ∉ b := fun h => h0 (List.mem_of_mem_drop (hb ▸ h))
  by_cases hshort : b.length ≤ n
  · have hlt : ¬ ((b.take (n + 1)).length : ℤ) = n + 1 := by
      rw [List.length_take]
      omega
    rw [if_pos hlt, List.getElem?_eq_none hshort, if_neg (by simp)]
    rfl
  · have hlong : n < b.length := Nat.lt_of_not_le hshort
    have heq : ((b.take (n + 1)).length : ℤ) = n + 1 := by
      rw [List.length_take_of_le hlong]
      rfl
    have hlast : charAt (b.take (n + 1)) n = .ok b[n] := by
      rw [charAt, List.getElem?_take_of_lt (Nat.lt_succ_self n), List.getElem?_eq_getElem hlong]
    have hstring : cString (b.take n ++ [0]) = b.take n := cString_append fun hmem => hb0 (List.mem_of_mem_take hmem)
    rw [if_neg (by simpa using heq), hlast, List.getElem?_eq_getElem hlong, take_set hlong, hstring]
    simp only [ok_bind, Option.some.injEq]
    by_cases hnl : b[n] = '\n'.toUInt8
    · rw [if_neg (by simpa using hnl), if_pos hnl]
      rfl
    · rw [if_pos hnl, if_neg hnl]
      rfl

/-- With a library that looks for the terminator, such a record is read past the array. -/
theorem readLenPrefixedString_unterminated (h0 : 0 ∉ r) (hn : prefixLength r = some n) (junk : ℕ → UInt8)
    (reads : List (Option ℕ)) :
    readLenPrefixedString true junk ⟨r, reads⟩ = .error .outOfBounds := by
  obtain ⟨reads₁, hfirst⟩ := fullRead_eq ⟨r, reads⟩ strLengthPrefixLen
  have hlen : (r.take strLengthPrefixLen).length = strLengthPrefixLen := List.length_take_of_le (prefixLength_length hn)
  have hne : r.take strLengthPrefixLen ≠ [] := by
    intro h
    rw [h] at hlen
    cases hlen
  have hbuf0 : 0 ∉ r.take strLengthPrefixLen := fun h => h0 (List.mem_of_mem_take h)
  have hbuf := prefixLength_take.mpr hn
  have hself : (r.take strLengthPrefixLen).drop 0 = r.take strLengthPrefixLen ++ [] := (List.append_nil _).symm
  have hblank := charAt_getElem hself (prefixLength_eq_some.mp hbuf).2.1
  rw [Nat.zero_add] at hblank
  simp only [readLenPrefixedString, hfirst, ok_bind, hne, if_false, hlen, Nat.sub_self, List.range_zero, List.map_nil,
    List.append_nil, hblank, ne_eq, not_true_eq_false, getLengthPrefix_unterminated hbuf0 hbuf]
  rfl

/-- A record that does not begin with a prefix: with zeros in the array, the assertion fails or the array of length
zero is read before its start. -/
theorem readLenPrefixedString_none {r : Bytes} (h0 : 0 ∉ r) (hne : r ≠ []) (hn : prefixLength r = none)
    (reads : List (Option ℕ)) : ∃ fault, readLenPrefixedString seeksNul (fun _ => 0) ⟨r, reads⟩ = .error fault := by
  obtain ⟨reads₁, hfirst⟩ := fullRead_eq ⟨r, reads⟩ strLengthPrefixLen
  obtain ⟨reads₂, hsecond⟩ := fullRead_eq ⟨r.drop strLengthPrefixLen, reads₁⟩ 0
  have hbytes : r.take strLengthPrefixLen ≠ [] := by
    intro h
    rcases List.take_eq_nil_iff.mp h with h | h
    · cases h
    · exact hne h
  by_cases hten : strLengthPrefixLen ≤ r.length
  · have hlen : (r.take strLengthPrefixLen).length = strLengthPrefixLen := List.length_take_of_le hten
    have hbuf0 : 0 ∉ r.take strLengthPrefixLen := fun h => h0 (List.mem_of_mem_take h)
    have hbuf : prefixLength (r.take strLengthPrefixLen) = none := by
      rw [Option.eq_none_iff_forall_ne_some]
      intro n h
      rw [prefixLength_take.mp h] at hn
      cases hn
    have hself : (r.take strLengthPrefixLen).drop 0 = r.take strLengthPrefixLen ++ [] := (List.append_nil _).symm
    have hlength : getLengthPrefix seeksNul _ 0 = _ :=
      getLengthPrefix_none hself hbuf0 (.inl (Nat.le_of_eq hlen.symm)) hbuf
    have hlast : strLengthPrefixLen - 1 < (r.take strLengthPrefixLen).length := by
      rw [hlen]
      decide
    have hchar := charAt_getElem hself (List.getElem?_eq_getElem hlast)
    rw [Nat.zero_add] at hchar
    have hzero : ((-1 : ℤ) + 1).toNat = 0 := rfl
    simp only [readLenPrefixedString, hfirst, ok_bind, hbytes, if_false, hlen, Nat.sub_self, List.range_zero,
      List.map_nil, List.append_nil, hchar]
    split
    · exact ⟨_, rfl⟩
    · simp only [hlength, ok_bind, hzero, hsecond, List.take_zero, List.length_nil]
      exact ⟨.outOfBounds, rfl⟩
  · have hlt : r.length < strLengthPrefixLen := Nat.lt_of_not_le hten
    have htake : r.take strLengthPrefixLen = r := List.take_of_length_le (Nat.le_of_lt hlt)
    obtain ⟨k, hk⟩ : ∃ k, strLengthPrefixLen = r.length + (k + 1) := ⟨strLengthPrefixLen - r.length - 1, by omega⟩
    have hlast : charAt (r ++ (List.range (strLengthPrefixLen - r.length)).map fun _ => (0 : UInt8))
        (strLengthPrefixLen - 1) = .ok 0 := by
      have hpad : strLengthPrefixLen - r.length = k + 1 := by omega
      have hpos : strLengthPrefixLen - 1 = r.length + k := by omega
      rw [hpad, hpos, charAt, List.getElem?_append_right (Nat.le_add_right _ _), Nat.add_sub_cancel_left,
        List.getElem?_map, List.getElem?_range (Nat.lt_succ_self k)]
      rfl
    refine ⟨.assertFailed, ?_⟩
    simp only [readLenPrefixedString, hfirst, ok_bind, htake, hne, if_false, hlast]
    rw [if_pos (by decide)]

/-! ## The two decoders -/

/-- As far as the bodies are in order, every record begins with a prefix. -/
inductive PrefixedRecords : Bytes → Prop where
  | done : PrefixedRecords []
  | malformed {r : Bytes} {n : ℕ} : prefixLength r = some n →
      (r.drop strLengthPrefixLen)[n]? ≠ some '\n'.toUInt8 → PrefixedRecords r
  | record {r : Bytes} {n : ℕ} : prefixLength r = some n → (r.drop strLengthPrefixLen)[n]? = some '\n'.toUInt8 →
      PrefixedRecords (r.drop (strLengthPrefixLen + n + 1)) → PrefixedRecords r

theorem readFileLoop_records (junk : ℕ → ℕ → UInt8) (h : PrefixedRecords r) : ∀ {fuel call : ℕ}
    {reads : List (Option ℕ)} {seq : List Bytes}, 0 ∉ r → r.length < fuel →
    readFileLoop false junk fuel call ⟨r, reads⟩ seq = .ok ((records r).map (seq ++ ·)) := by
  induction h with
  | done =>
    intro fuel call reads seq _ hfuel
    obtain ⟨fuel, rfl⟩ : ∃ k, fuel = k + 1 := ⟨fuel - 1, by omega⟩
    obtain ⟨reads', hread⟩ := fullRead_eq ⟨[], reads⟩ strLengthPrefixLen
    rw [readFileLoop, readLenPrefixedString, hread, records_nil, Option.map_some, List.append_nil]
    rfl
  | malformed hn hbad =>
    intro fuel call reads seq h0 hfuel
    obtain ⟨fuel, rfl⟩ : ∃ k, fuel = k + 1 := ⟨fuel - 1, by omega⟩
    obtain ⟨reads', hread⟩ := readLenPrefixedString_some h0 hn (junk call) reads
    rw [readFileLoop, hread, if_neg hbad, records_some hn, if_neg hbad]
    rfl
  | @record r n hn hgood _ ih =>
    intro fuel call reads seq h0 hfuel
    have hten := prefixLength_length hn
    simp only [strLengthPrefixLen] at hten
    obtain ⟨fuel, rfl⟩ : ∃ k, fuel = k + 1 := ⟨fuel - 1, by omega⟩
    obtain ⟨reads', hread⟩ := readLenPrefixedString_some h0 hn (junk call) reads
    rw [readFileLoop, hread, if_pos hgood, records_some hn, if_pos hgood, ok_bind]
    simp only
    rw [ih (fun hmem => h0 (List.mem_of_mem_drop hmem)) (by rw [List.length_drop]; omega)]
    cases records (r.drop (strLengthPrefixLen + n + 1)) with
    | none => rfl
    | some strs => simp

theorem readFileLoop_fault (fuel : ℕ) : ∀ {r : Bytes} (call : ℕ) (reads : List (Option ℕ)) (seq : List Bytes), 0 ∉ r →
    ¬ PrefixedRecords r → ∃ fault, readFileLoop false (fun _ _ => 0) fuel call ⟨r, reads⟩ seq = .error fault := by
  induction fuel with
  | zero => exact fun _ _ _ _ _ => ⟨.outOfFuel, rfl⟩
  | succ fuel ih =>
    intro r call reads seq h0 hbad
    have hne : r ≠ [] := by
      rintro rfl
      exact hbad .done
    cases hn : prefixLength r with
    | none =>
      obtain ⟨fault, hread⟩ := readLenPrefixedString_none h0 hne hn reads
      exact ⟨fault, by rw [readFileLoop, hread]; rfl⟩
    | some n =>
      have hgood : (r.drop strLengthPrefixLen)[n]? = some '\n'.toUInt8 := by
        by_contra h
        exact hbad (.malformed hn h)
      obtain ⟨reads', hread⟩ := readLenPrefixedString_some h0 hn (fun _ => 0) reads
      rw [readFileLoop, hread, if_pos hgood, ok_bind]
      exact ih _ _ _ (fun hmem => h0 (List.mem_of_mem_drop hmem)) fun h => hbad (.record hn hgood h)

/-- With a library that looks for the terminator, the first record is a fault. -/
theorem readFileLoop_unterminated (h0 : 0 ∉ r) (hne : r ≠ []) (fuel : ℕ) :
    ∃ fault, readFileLoop true (fun _ _ => 0) (fuel + 1) 0 ⟨r, []⟩ [] = .error fault := by
  cases hn : prefixLength r with
  | none =>
    obtain ⟨fault, hread⟩ := @readLenPrefixedString_none true r h0 hne hn []
    exact ⟨fault, by rw [readFileLoop, hread]; rfl⟩
  | some n => exact ⟨.outOfBounds, by rw [readFileLoop, readLenPrefixedString_unterminated h0 hn]; rfl⟩

/-- Both decoders give the same sequence or both give `NULL`, without a failed assertion or an access outside an array,
whatever the arrays held before and however the bytes of the file are delivered. -/
def DecodersAgree (seeksNul : Bool) (s : Bytes) : Prop :=
  ∃ result, seqStringDeserialize seeksNul s = .ok result ∧
    ∀ junk reads, seqStringReadFile seeksNul junk ⟨s, reads⟩ = .ok result

/-- The decoders agree exactly on the empty text and, with a library that stops at the first character that does not
belong to the number, on the texts in which every record that is reached begins with a prefix. -/
theorem decoders_agree_iff (seeksNul : Bool) (s : CString) :
    DecodersAgree seeksNul s.bytes ↔ s.bytes = [] ∨ seeksNul = false ∧ PrefixedRecords s.bytes := by
  constructor
  · rintro ⟨result, _, hfile⟩
    have hok := hfile (fun _ _ => 0) []
    by_contra hbad
    obtain ⟨hne, hprefixed⟩ := not_or.mp hbad
    rw [seqStringReadFile] at hok
    cases seeksNul with
    | true =>
      obtain ⟨fault, hfault⟩ := readFileLoop_unterminated s.nul_free hne s.bytes.length
      rw [hfault] at hok
      cases hok
    | false =>
      obtain ⟨fault, hfault⟩ :=
        readFileLoop_fault (s.bytes.length + 1) 0 [] [] s.nul_free fun h => hprefixed ⟨rfl, h⟩
      rw [hfault] at hok
      cases hok
  · intro h
    refine ⟨records s.bytes, seqStringDeserialize_eq s, fun junk reads => ?_⟩
    obtain hnil | ⟨rfl, hprefixed⟩ := h
    · rw [hnil, records_nil]
      obtain ⟨reads', hread⟩ := fullRead_eq ⟨[], reads⟩ strLengthPrefixLen
      rw [seqStringReadFile, readFileLoop, readLenPrefixedString, hread]
      rfl
    · rw [seqStringReadFile, readFileLoop_records junk hprefixed s.nul_free (Nat.lt_succ_self _)]
      cases records s.bytes <;> rfl

/-- A file of one character fails the assertion, with either library. -/
theorem decoders_differ : ¬ DecodersAgree false (ascii "1") ∧ ¬ DecodersAgree true (ascii "1") := by
  have hdiffer : ∀ seeksNul, ¬ DecodersAgree seeksNul (ascii "1") := by
    rintro seeksNul ⟨result, _, hfile⟩
    have hok := hfile (fun _ _ => 0) []
    have hfault : seqStringReadFile seeksNul (fun _ _ => 0) ⟨ascii "1", []⟩ = .error .assertFailed := by rfl
    rw [hfault] at hok
    cases hok
  exact ⟨hdiffer false, hdiffer true⟩

end Libntech.Containers.StringSequence
