import Libntech.Json.Cursor
import Libntech.Json.Write
import Mathlib.Tactic.IntervalCases

/-! # Strings through the writer and the parser

The writer escapes a string once. The parser undoes every escape it knows but `\u`, so a key comes back with its
unprintable bytes spelled out; a value goes through `JsonDecodeString` too, which reads `\u` but also takes each
backslash of the string itself for the start of another escape.
-/
namespace Libntech.Json
set_option autoImplicit false

/-- The bytes that the writer can only write as `\u00xx`. -/
def needsHex (c : UInt8) : Bool :=
  !charIsPrintableAscii c && c != 8 && c != 12 && c != 10 && c != 13 && c != 9

/-- How the parser leaves one byte of a written string. -/
def spelled (c : UInt8) : Bytes := if needsHex c then encodeChar c else [c]

/-- What `JsonDecodeString` does not leave alone after a backslash. -/
def activeEscape (e : UInt8) : Bool :=
  e == '"'.toUInt8 || e == '\\'.toUInt8 || e == 'b'.toUInt8 || e == 'f'.toUInt8 || e == 'n'.toUInt8 ||
    e == 'r'.toUInt8 || e == 't'.toUInt8 || e == 'u'.toUInt8 || needsHex e

/-- No byte of the key is written as `\u00xx`. -/
def keySurvives (key : Bytes) : Bool := key.all fun c => !needsHex c

/-- No backslash of the string is followed by a letter of an escape or a byte that is written as `\u00xx`. -/
def stringSurvives : Bytes → Bool
  | [] => true
  | [_] => true
  | c :: e :: rest => !(c == '\\'.toUInt8 && activeEscape e) && stringSurvives (e :: rest)

/-! ## One character -/

theorem encodeChar_cases (c : UInt8) :
    (needsHex c = false ∧ ∃ e, encodeChar c = ['\\'.toUInt8, e] ∧ stringEscape e = some c) ∨
      (needsHex c = false ∧ encodeChar c = [c] ∧ c ≠ '"'.toUInt8 ∧ c ≠ '\\'.toUInt8) ∨
      needsHex c = true ∧ encodeChar c =
        ['\\'.toUInt8, 'u'.toUInt8, '0'.toUInt8, '0'.toUInt8, hexChar (c.toNat / 16), hexChar (c.toNat % 16)] := by
  by_cases h₁ : c = '"'.toUInt8 ∨ c = '\\'.toUInt8
  · refine .inl ⟨?_, c, by rw [encodeChar, if_pos h₁], by rw [stringEscape, if_pos (by tauto)]⟩
    rcases h₁ with rfl | rfl <;> decide
  have hq : c ≠ '"'.toUInt8 ∧ c ≠ '\\'.toUInt8 := by tauto
  by_cases h₂ : c = 8
  · subst h₂
    exact .inl ⟨by decide, 'b'.toUInt8, by decide, by decide⟩
  by_cases h₃ : c = 12
  · subst h₃
    exact .inl ⟨by decide, 'f'.toUInt8, by decide, by decide⟩
  by_cases h₄ : c = 10
  · subst h₄
    exact .inl ⟨by decide, 'n'.toUInt8, by decide, by decide⟩
  by_cases h₅ : c = 13
  · subst h₅
    exact .inl ⟨by decide, 'r'.toUInt8, by decide, by decide⟩
  by_cases h₆ : c = 9
  · subst h₆
    exact .inl ⟨by decide, 't'.toUInt8, by decide, by decide⟩
  by_cases h₇ : charIsPrintableAscii c = true
  · refine .inr (.inl ⟨by simp [needsHex, h₇], ?_, hq⟩)
    simp only [encodeChar, h₁, h₂, h₃, h₄, h₅, h₆, h₇, if_false, if_true]
  · refine .inr (.inr ⟨by simp [needsHex, h₂, h₃, h₄, h₅, h₆, h₇], ?_⟩)
    simp only [encodeChar, h₁, h₂, h₃, h₄, h₅, h₆, h₇, if_false]
    exact if_neg Bool.false_ne_true

theorem hexChar_digit {n : ℕ} (h : n < 16) : hexDigit (hexChar n) = some n ∧ hexChar n ≠ '"'.toUInt8 ∧
    hexChar n ≠ '\\'.toUInt8 ∧ needsHex (hexChar n) = false := by
  interval_cases n <;> decide

theorem stringBody_append {a b : Bytes} (ha : StringBody a) (hb : StringBody b) : StringBody (a ++ b) := by
  induction ha with
  | nil => exact hb
  | plain hq hs _ ih => exact .plain hq hs ih
  | escape _ ih => exact .escape ih

theorem encodeChar_body (c : UInt8) : StringBody (encodeChar c) := by
  rcases encodeChar_cases c with ⟨_, e, heq, _⟩ | ⟨_, heq, hq, hs⟩ | ⟨_, heq⟩
  · rw [heq]
    exact .escape .nil
  · rw [heq]
    exact .plain hq hs .nil
  · have hlt := c.toNat_lt
    obtain ⟨_, hq₁, hs₁, _⟩ := hexChar_digit (n := c.toNat / 16) (by omega)
    obtain ⟨_, hq₂, hs₂, _⟩ := hexChar_digit (n := c.toNat % 16) (by omega)
    rw [heq]
    exact .escape (.plain (by decide) (by decide) (.plain (by decide) (by decide)
      (.plain hq₁ hs₁ (.plain hq₂ hs₂ .nil))))

theorem encode_body (text : Bytes) : StringBody (jsonEncodeString text) := by
  induction text with
  | nil => exact .nil
  | cons c text ih => exact stringBody_append (encodeChar_body c) ih

theorem unescape_encodeChar (c : UInt8) (rest : Bytes) :
    unescape (encodeChar c ++ rest) = spelled c ++ unescape rest := by
  rcases encodeChar_cases c with ⟨hn, e, heq, he⟩ | ⟨hn, heq, hq, hs⟩ | ⟨hn, heq⟩
  · rw [heq, spelled, hn]
    exact unescape_known he rest
  · rw [heq, spelled, hn]
    exact unescape_plain hs rest
  · have hlt := c.toNat_lt
    obtain ⟨_, _, hs₁, _⟩ := hexChar_digit (n := c.toNat / 16) (by omega)
    obtain ⟨_, _, hs₂, _⟩ := hexChar_digit (n := c.toNat % 16) (by omega)
    rw [spelled, hn, if_pos rfl, heq]
    simp only [List.cons_append, List.nil_append]
    rw [unescape_unknown (by decide), unescape_plain (by decide), unescape_plain (by decide), unescape_plain hs₁,
      unescape_plain hs₂]

theorem unescape_encode (text : Bytes) : unescape (jsonEncodeString text) = text.flatMap spelled := by
  induction text with
  | nil => rfl
  | cons c text ih =>
    rw [jsonEncodeString, List.flatMap_cons, unescape_encodeChar, List.flatMap_cons]
    exact congrArg (spelled c ++ ·) ih

theorem flatMap_spelled {key : Bytes} (h : keySurvives key = true) : key.flatMap spelled = key := by
  induction key with
  | nil => rfl
  | cons c key ih =>
    simp only [keySurvives, List.all_cons, Bool.and_eq_true, Bool.not_eq_true'] at h
    rw [List.flatMap_cons, spelled, h.1, ih h.2]
    rfl

theorem length_flatMap_spelled (key : Bytes) :
    key.length ≤ (key.flatMap spelled).length ∧
      (keySurvives key = false → key.length < (key.flatMap spelled).length) := by
  induction key with
  | nil => exact ⟨Nat.le_refl _, fun h => absurd h (by decide)⟩
  | cons c key ih =>
    rw [List.flatMap_cons, List.length_append, List.length_cons]
    obtain ⟨hle, hlt⟩ := ih
    cases hn : needsHex c with
    | false =>
      rw [spelled, hn, if_neg Bool.false_ne_true, List.length_singleton]
      refine ⟨by omega, fun h => ?_⟩
      have hkey := hlt (by simpa [keySurvives, hn] using h)
      omega
    | true =>
      have hsix : (spelled c).length = 6 := by
        rcases encodeChar_cases c with ⟨hno, _⟩ | ⟨hno, _⟩ | ⟨_, heq⟩
        · rw [hn] at hno; cases hno
        · rw [hn] at hno; cases hno
        · rw [spelled, hn, if_pos rfl, heq]; rfl
      exact ⟨by omega, fun _ => by omega⟩

/-! ## Values, which are decoded once more -/

variable {c e : UInt8} {value : Bytes}

theorem decode_plain (hc : c ≠ '\\'.toUInt8) (r : Bytes) : decodeString (c :: r) = c :: decodeString r := by
  cases r with
  | nil => simp [decodeString]
  | cons e r => rw [decodeString, if_neg hc]

theorem decode_pair (he : activeEscape e = true) (hu : e ≠ 'u'.toUInt8) (hn : needsHex e = false) (r : Bytes) :
    ∃ x, needsHex x = false ∧ decodeString ('\\'.toUInt8 :: e :: r) = x :: decodeString r := by
  have hcases : e = '"'.toUInt8 ∨ e = '\\'.toUInt8 ∨ e = 'b'.toUInt8 ∨ e = 'f'.toUInt8 ∨ e = 'n'.toUInt8 ∨
      e = 'r'.toUInt8 ∨ e = 't'.toUInt8 := by
    simpa [activeEscape, hu, hn, or_assoc] using he
  rcases hcases with rfl | rfl | rfl | rfl | rfl | rfl | rfl
  · exact ⟨_, hn, by rw [decodeString, if_pos rfl, if_pos (by decide)]⟩
  · exact ⟨_, hn, by rw [decodeString, if_pos rfl, if_pos (by decide)]⟩
  · exact ⟨8, by decide, by rw [decodeString, if_pos rfl, if_neg (by decide), if_pos rfl]⟩
  · exact ⟨12, by decide, by
      rw [decodeString, if_pos rfl, if_neg (by decide), if_neg (by decide), if_pos rfl]⟩
  · exact ⟨10, by decide, by
      rw [decodeString, if_pos rfl, if_neg (by decide), if_neg (by decide), if_neg (by decide), if_pos rfl]⟩
  · exact ⟨13, by decide, by
      rw [decodeString, if_pos rfl, if_neg (by decide), if_neg (by decide), if_neg (by decide), if_neg (by decide),
        if_pos rfl]⟩
  · exact ⟨9, by decide, by
      rw [decodeString, if_pos rfl, if_neg (by decide), if_neg (by decide), if_neg (by decide), if_neg (by decide),
        if_neg (by decide), if_pos rfl]⟩

theorem decode_u (r : Bytes) :
    decodeString ('\\'.toUInt8 :: 'u'.toUInt8 :: r) =
      match hexStringToChar r with
      | some d => (if d = 0 then [] else [d]) ++ decodeString (r.drop 4)
      | none => decodeString ('u'.toUInt8 :: r) := by
  cases hd : hexStringToChar r with
  | some d =>
    rw [decodeString, if_pos rfl, if_neg (by decide), if_neg (by decide), if_neg (by decide), if_neg (by decide),
      if_neg (by decide), if_neg (by decide), if_pos rfl, hd]
  | none =>
    rw [decodeString, if_pos rfl, if_neg (by decide), if_neg (by decide), if_neg (by decide), if_neg (by decide),
      if_neg (by decide), if_neg (by decide), if_pos rfl, hd]

theorem decode_inactive (he : activeEscape e = false) (r : Bytes) :
    decodeString ('\\'.toUInt8 :: e :: r) = '\\'.toUInt8 :: decodeString (e :: r) := by
  simp only [activeEscape, Bool.or_eq_false_iff, beq_eq_false_iff_ne] at he
  obtain ⟨⟨⟨⟨⟨⟨⟨⟨h₁, h₂⟩, h₃⟩, h₄⟩, h₅⟩, h₆⟩, h₇⟩, h₈⟩, _⟩ := he
  rw [decodeString, if_pos rfl, if_neg (by tauto), if_neg h₃, if_neg h₄, if_neg h₅, if_neg h₆, if_neg h₇, if_neg h₈]

/-- The escape that the writer wrote for a byte is read as that byte. -/
theorem decode_hex (hn : needsHex c = true) (h0 : c ≠ 0) (r : Bytes) :
    decodeString (spelled c ++ r) = c :: decodeString r := by
  rcases encodeChar_cases c with ⟨hno, _⟩ | ⟨hno, _⟩ | ⟨_, heq⟩
  · rw [hn] at hno; cases hno
  · rw [hn] at hno; cases hno
  · have hlt := c.toNat_lt
    obtain ⟨hd₁, _⟩ := hexChar_digit (n := c.toNat / 16) (by omega)
    obtain ⟨hd₂, _⟩ := hexChar_digit (n := c.toNat % 16) (by omega)
    have hz : hexDigit '0'.toUInt8 = some 0 := by decide
    have hval : ((0 * 16 + 0) * 16 + c.toNat / 16) * 16 + c.toNat % 16 = c.toNat := by omega
    have hhex : hexStringToChar ('0'.toUInt8 :: '0'.toUInt8 :: hexChar (c.toNat / 16) :: hexChar (c.toNat % 16) :: r) =
        some c := by
      simp only [hexStringToChar, hz, hd₁, hd₂, Option.bind_eq_bind, Option.bind_some, hval]
      rw [if_neg (by omega)]
      simp
    rw [spelled, hn, if_pos rfl, heq]
    simp only [List.cons_append, List.nil_append]
    rw [decode_u, hhex]
    simp [h0]

theorem spelled_plain (hn : needsHex c = false) : spelled c = [c] := by
  rw [spelled, hn]
  rfl

/-- A value as the parser reads it back. -/
def readString (value : Bytes) : Bytes := decodeString (value.flatMap spelled)

theorem readString_survives (h0 : 0 ∉ value) (h : stringSurvives value = true) :
    readString value = value := by
  induction value with
  | nil => simp [readString, decodeString]
  | cons c value ih =>
    have h0c : c ≠ 0 := by
      rintro rfl
      exact h0 List.mem_cons_self
    have hrest : stringSurvives value = true := by
      cases value with
      | nil => rfl
      | cons e rest =>
        simp only [stringSurvives, Bool.and_eq_true] at h
        exact h.2
    have ih := ih (fun hm => h0 (List.mem_cons_of_mem _ hm)) hrest
    rw [readString] at ih ⊢
    rw [List.flatMap_cons]
    cases hn : needsHex c with
    | true => rw [decode_hex hn h0c, ih]
    | false =>
      rw [spelled_plain hn, List.singleton_append]
      by_cases hc : c = '\\'.toUInt8
      · subst hc
        cases value with
        | nil => simp [decodeString]
        | cons e rest =>
          have he : activeEscape e = false := by
            simp only [stringSurvives, Bool.and_eq_true, beq_self_eq_true, Bool.true_and, Bool.not_eq_true'] at h
            exact h.1
          have hne : needsHex e = false := by
            simp only [activeEscape, Bool.or_eq_false_iff] at he
            exact he.2
          rw [List.flatMap_cons, spelled_plain hne, List.singleton_append] at ih ⊢
          rw [decode_inactive he, ih]
      · rw [decode_plain hc, ih]

/-- A byte that is written as `\u00xx` weighs more than the five characters it can be taken for. -/
def weight (text : Bytes) : ℕ := (text.map fun c => if needsHex c then 11 else 2).sum

theorem weight_cons (c : UInt8) (text : Bytes) :
    weight (c :: text) = (if needsHex c then 11 else 2) + weight text := by
  simp [weight]

theorem spelled_digit {t : Bytes} {x : UInt8} (h : value.flatMap spelled = x :: t) (hx : hexDigit x ≠ none) :
    ∃ rest, value = x :: rest ∧ needsHex x = false ∧ t = rest.flatMap spelled := by
  cases value with
  | nil => cases h
  | cons c rest =>
    rw [List.flatMap_cons] at h
    cases hn : needsHex c with
    | false =>
      rw [spelled_plain hn, List.singleton_append, List.cons.injEq] at h
      obtain ⟨rfl, rfl⟩ := h
      exact ⟨rest, rfl, hn, rfl⟩
    | true =>
      rcases encodeChar_cases c with ⟨hno, _⟩ | ⟨hno, _⟩ | ⟨_, heq⟩
      · rw [hn] at hno; cases hno
      · rw [hn] at hno; cases hno
      · rw [spelled, hn, if_pos rfl, heq, List.cons_append, List.cons.injEq] at h
        rw [← h.1] at hx
        exact absurd (by decide) hx

theorem hexString_digits {text : Bytes} {d : UInt8} (h : hexStringToChar text = some d) :
    ∃ a b c e t, text = a :: b :: c :: e :: t ∧ hexDigit a ≠ none ∧ hexDigit b ≠ none ∧ hexDigit c ≠ none ∧
      hexDigit e ≠ none := by
  unfold hexStringToChar at h
  split at h
  · rename_i a b c e t
    refine ⟨a, b, c, e, t, rfl, ?_⟩
    simp only [Option.bind_eq_bind, Option.bind_eq_some_iff] at h
    obtain ⟨a', ha, b', hb, c', hc, e', he, _⟩ := h
    simp [ha, hb, hc, he]
  · cases h

theorem hexString_spelled {d : UInt8} (h : hexStringToChar (value.flatMap spelled) = some d) :
    ∃ a b c e rest, value = a :: b :: c :: e :: rest ∧ needsHex a = false ∧ needsHex b = false ∧
      needsHex c = false ∧ needsHex e = false ∧ (value.flatMap spelled).drop 4 = rest.flatMap spelled := by
  obtain ⟨a, b, c, e, t, heq, ha, hb, hc, he⟩ := hexString_digits h
  obtain ⟨r₁, rfl, hna, h₁⟩ := spelled_digit heq ha
  obtain ⟨r₂, rfl, hnb, h₂⟩ := spelled_digit h₁.symm hb
  obtain ⟨r₃, rfl, hnc, h₃⟩ := spelled_digit h₂.symm hc
  obtain ⟨r₄, rfl, hne, h₄⟩ := spelled_digit h₃.symm he
  refine ⟨a, b, c, e, r₄, rfl, hna, hnb, hnc, hne, ?_⟩
  rw [heq, h₄]
  rfl

/-- A backslash before a byte written as `\u00xx`: the two backslashes are taken for one. -/
theorem readString_backslash_hex (hn : needsHex e = true) (rest : Bytes) :
    ∃ h₁ h₂, needsHex h₁ = false ∧ needsHex h₂ = false ∧ readString ('\\'.toUInt8 :: e :: rest) =
      '\\'.toUInt8 :: 'u'.toUInt8 :: '0'.toUInt8 :: '0'.toUInt8 :: h₁ :: h₂ :: readString rest := by
  rcases encodeChar_cases e with ⟨hno, _⟩ | ⟨hno, _⟩ | ⟨_, heq⟩
  · rw [hn] at hno; cases hno
  · rw [hn] at hno; cases hno
  · have hlt := e.toNat_lt
    obtain ⟨_, _, hs₁, hn₁⟩ := hexChar_digit (n := e.toNat / 16) (by omega)
    obtain ⟨_, _, hs₂, hn₂⟩ := hexChar_digit (n := e.toNat % 16) (by omega)
    refine ⟨_, _, hn₁, hn₂, ?_⟩
    rw [readString, List.flatMap_cons, List.flatMap_cons, spelled_plain (by decide), spelled, hn, if_pos rfl, heq]
    simp only [List.cons_append, List.nil_append]
    rw [decodeString, if_pos rfl, if_pos (by decide), decode_plain (by decide), decode_plain (by decide),
      decode_plain (by decide), decode_plain hs₁, decode_plain hs₂, readString]

theorem weight_active (rest : Bytes) (he : activeEscape e = true)
    (hle : ∀ tail, tail.length ≤ rest.length → tail <:+ rest → weight (readString tail) ≤ weight tail) :
    weight (readString ('\\'.toUInt8 :: e :: rest)) < weight ('\\'.toUInt8 :: e :: rest) := by
  have hb : needsHex '\\'.toUInt8 = false := by decide
  have hrest := hle rest (Nat.le_refl _) (List.suffix_refl _)
  have hw : ∀ {c : UInt8}, needsHex c = false → ∀ t, weight (c :: t) = 2 + weight t := by
    intro c hc t
    rw [weight_cons, hc]
    rfl
  rw [hw hb, weight_cons]
  cases hn : needsHex e with
  | true =>
    obtain ⟨h₁, h₂, hn₁, hn₂, heq⟩ := readString_backslash_hex hn rest
    rw [heq, hw hb, hw (by decide), hw (by decide), hw (by decide), hw hn₁, hw hn₂, if_pos rfl]
    omega
  | false =>
    have hflat : ('\\'.toUInt8 :: e :: rest).flatMap spelled = '\\'.toUInt8 :: e :: rest.flatMap spelled := by
      rw [List.flatMap_cons, List.flatMap_cons, spelled_plain hb, spelled_plain hn]
      rfl
    rw [readString, hflat, if_neg Bool.false_ne_true]
    by_cases hu : e = 'u'.toUInt8
    · subst hu
      rw [decode_u]
      cases hd : hexStringToChar (rest.flatMap spelled) with
      | none =>
        dsimp only
        rw [decode_plain (by decide), hw (by decide)]
        rw [readString] at hrest
        omega
      | some d =>
        obtain ⟨a, b, c, x, tail, rfl, hna, hnb, hnc, hnx, hdrop⟩ := hexString_spelled hd
        have htail := hle tail (by simp only [List.length_cons]; omega) ⟨[a, b, c, x], rfl⟩
        rw [readString] at htail
        dsimp only
        rw [hdrop, hw hna, hw hnb, hw hnc, hw hnx]
        have hone : weight ((if d = 0 then [] else [d]) ++ decodeString (tail.flatMap spelled)) ≤
            11 + weight (decodeString (tail.flatMap spelled)) := by
          split
          · simp
          · rw [List.singleton_append, weight_cons]
            split
            · omega
            · omega
        omega
    · obtain ⟨x, hx, heq⟩ := decode_pair he hu hn (rest.flatMap spelled)
      rw [heq, hw hx]
      rw [readString] at hrest
      omega

/-- Reading back never adds weight, and every escape that is read where none was written takes some away. -/
theorem weight_readString (n : ℕ) : ∀ value : Bytes, value.length ≤ n → 0 ∉ value →
    weight (readString value) ≤ weight value ∧
      (stringSurvives value = false → weight (readString value) < weight value) := by
  induction n with
  | zero =>
    intro value hlen _
    rw [List.length_eq_zero_iff.mp (Nat.le_zero.mp hlen)]
    exact ⟨by simp [readString, decodeString], fun h => absurd h (by decide)⟩
  | succ n ih =>
    intro value hlen h0
    cases value with
    | nil => exact ⟨by simp [readString, decodeString], fun h => absurd h (by decide)⟩
    | cons c value =>
      rw [List.length_cons] at hlen
      have h0c : c ≠ 0 := by
        rintro rfl
        exact h0 List.mem_cons_self
      have h0v : 0 ∉ value := fun hm => h0 (List.mem_cons_of_mem _ hm)
      obtain ⟨hle, hlt⟩ := ih value (by omega) h0v
      rw [weight_cons]
      cases hn : needsHex c with
      | true =>
        have hne : c ≠ '\\'.toUInt8 := by
          rintro rfl
          exact absurd hn (by decide)
        have heq : readString (c :: value) = c :: readString value := by
          rw [readString, List.flatMap_cons, decode_hex hn h0c, readString]
        rw [heq, weight_cons, hn]
        refine ⟨by omega, fun hs => ?_⟩
        have hrest := hlt (by
          cases value with
          | nil => simp [stringSurvives] at hs
          | cons e rest => simpa [stringSurvives, hne] using hs)
        omega
      | false =>
        by_cases hc : c = '\\'.toUInt8
        · subst hc
          cases value with
          | nil => exact ⟨by simp [readString, spelled_plain hn, decodeString, weight, hn],
              fun h => absurd h (by simp [stringSurvives])⟩
          | cons e rest =>
            have hw := weight_cons '\\'.toUInt8 (e :: rest)
            rw [hn] at hw
            rw [← hw]
            cases he : activeEscape e with
            | true =>
              have hact := weight_active rest he fun tail hl hsuf => by
                rw [List.length_cons] at hlen
                exact (ih tail (by omega) fun hm => h0v (List.mem_cons_of_mem _ (hsuf.subset hm))).1
              exact ⟨Nat.le_of_lt hact, fun _ => hact⟩
            | false =>
              have hne : needsHex e = false := by
                simp only [activeEscape, Bool.or_eq_false_iff] at he
                exact he.2
              have heq : readString ('\\'.toUInt8 :: e :: rest) = '\\'.toUInt8 :: readString (e :: rest) := by
                rw [readString, List.flatMap_cons, List.flatMap_cons, spelled_plain hn, spelled_plain hne]
                simp only [List.cons_append, List.nil_append]
                rw [decode_inactive he, readString, List.flatMap_cons, spelled_plain hne]
                rfl
              rw [heq, weight_cons, weight_cons]
              refine ⟨by omega, fun hs => ?_⟩
              have hrest := hlt (by simpa [stringSurvives, he] using hs)
              omega
        · have heq : readString (c :: value) = c :: readString value := by
            rw [readString, List.flatMap_cons, spelled_plain hn, List.singleton_append, decode_plain hc, readString]
          rw [heq, weight_cons, hn]
          refine ⟨by omega, fun hs => ?_⟩
          have hrest := hlt (by
            cases value with
            | nil => simp [stringSurvives] at hs
            | cons e rest => simpa [stringSurvives, hc] using hs)
          omega

theorem readString_eq_iff (h0 : 0 ∉ value) : readString value = value ↔ stringSurvives value = true := by
  refine ⟨fun heq => ?_, readString_survives h0⟩
  by_contra hs
  have hlt := (weight_readString _ value (Nat.le_refl _) h0).2 (by simpa using hs)
  rw [heq] at hlt
  exact Nat.lt_irrefl _ hlt

end Libntech.Json
