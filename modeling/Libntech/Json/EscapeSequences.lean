import Libntech.Json.Escapes
import Libntech.Json.ParseMeaning

/-! # Escapes that pass through both decoders

`JsonDecodeString` undoes what `JsonEncodeString` did. A value that is parsed goes through two decoders, so an escape
that neither knows is at the mercy of what the first one leaves in front of it: a backslash there makes a pair with its
own.
-/
namespace Libntech.Json
set_option autoImplicit false

/-! ## Encoding and decoding -/

/-- How many backslashes a text ends with, when it stands behind `n` of them. -/
def endRun (n : ℕ) (text : Bytes) : ℕ := text.foldl (fun n c => if c = '\\'.toUInt8 then n + 1 else 0) n

theorem endRun_cons (n : ℕ) (c : UInt8) (text : Bytes) :
    endRun n (c :: text) = endRun (if c = '\\'.toUInt8 then n + 1 else 0) text := rfl

theorem endRun_add_two (text : Bytes) : ∀ n : ℕ, endRun (n + 2) text % 2 = endRun n text % 2 := by
  induction text with
  | nil => exact fun n => Nat.add_mod_right n 2
  | cons c text ih =>
    intro n
    rw [endRun_cons, endRun_cons]
    split
    · exact ih (n + 1)
    · rfl

variable {c e : UInt8} {b : Bytes}

/-- An escape that stands for one byte, `\/` apart. -/
theorem decode_known {x : UInt8} (he : stringEscape e = some x) (hslash : e ≠ '/'.toUInt8) (r : Bytes) :
    decodeString ('\\'.toUInt8 :: e :: r) = x :: decodeString r := by
  unfold stringEscape at he
  rw [decodeString, if_pos rfl]
  by_cases h₁ : e = '"'.toUInt8 ∨ e = '\\'.toUInt8
  · rw [if_pos (by tauto), Option.some.injEq] at he
    rw [if_pos h₁, he]
  rw [if_neg (by tauto)] at he
  rw [if_neg h₁]
  by_cases h₂ : e = 'b'.toUInt8
  · rw [if_pos h₂, Option.some.injEq] at he
    rw [if_pos h₂, he]
  rw [if_neg h₂] at he ⊢
  by_cases h₃ : e = 'f'.toUInt8
  · rw [if_pos h₃, Option.some.injEq] at he
    rw [if_pos h₃, he]
  rw [if_neg h₃] at he ⊢
  by_cases h₄ : e = 'n'.toUInt8
  · rw [if_pos h₄, Option.some.injEq] at he
    rw [if_pos h₄, he]
  rw [if_neg h₄] at he ⊢
  by_cases h₅ : e = 'r'.toUInt8
  · rw [if_pos h₅, Option.some.injEq] at he
    rw [if_pos h₅, he]
  rw [if_neg h₅] at he ⊢
  by_cases h₆ : e = 't'.toUInt8
  · rw [if_pos h₆, Option.some.injEq] at he
    rw [if_pos h₆, he]
  rw [if_neg h₆] at he
  cases he

theorem encodeChar_ne_slash : encodeChar c ≠ ['\\'.toUInt8, '/'.toUInt8] := by
  intro h
  by_cases hc : c = '/'.toUInt8
  · subst hc
    revert h
    decide
  · rcases encodeChar_cases c with ⟨_, e, heq, he⟩ | ⟨_, heq, _⟩ | ⟨_, heq⟩
    · rw [heq] at h
      obtain rfl : e = '/'.toUInt8 := by simpa using h
      exact hc (Option.some.inj (he.symm.trans (by decide)))
    · rw [heq] at h
      exact absurd (congrArg List.length h) (by simp)
    · rw [heq] at h
      exact absurd (congrArg List.length h) (by simp)

/-- What the encoder writes for a byte is read as that byte, whatever follows. -/
theorem decode_encodeChar (h0 : c ≠ 0) (r : Bytes) :
    decodeString (encodeChar c ++ r) = c :: decodeString r := by
  rcases encodeChar_cases c with ⟨_, e, heq, he⟩ | ⟨_, heq, _, hbackslash⟩ | ⟨hhex, _⟩
  · have hslash : e ≠ '/'.toUInt8 := by
      rintro rfl
      exact encodeChar_ne_slash heq
    rw [heq]
    exact decode_known he hslash r
  · rw [heq]
    exact decode_plain hbackslash r
  · have hspelled : spelled c = encodeChar c := by rw [spelled, if_pos hhex]
    rw [← hspelled]
    exact decode_hex hhex h0 r

theorem decode_encode {text : Bytes} (h0 : 0 ∉ text) : decodeString (jsonEncodeString text) = text := by
  induction text with
  | nil => simp [jsonEncodeString, decodeString]
  | cons c text ih =>
    have hc : c ≠ 0 := fun heq => h0 (heq ▸ List.mem_cons_self)
    rw [jsonEncodeString, List.flatMap_cons, decode_encodeChar hc]
    exact congrArg (c :: ·) (ih fun hmem => h0 (List.mem_cons_of_mem c hmem))

theorem hexChar_printable {n : ℕ} (h : n < 16) : charIsPrintableAscii (hexChar n) = true := by
  interval_cases n <;> decide

theorem encodeChar_printable (c : UInt8) : ∀ x ∈ encodeChar c, charIsPrintableAscii x = true := by
  have hlt := c.toNat_lt
  unfold encodeChar
  by_cases h₁ : c = '"'.toUInt8 ∨ c = '\\'.toUInt8
  · rw [if_pos h₁]
    rcases h₁ with rfl | rfl <;> exact List.all_eq_true.mp (by decide)
  rw [if_neg h₁]
  split_ifs with h₂ h₃ h₄ h₅ h₆ h₇
  · exact List.all_eq_true.mp (by decide)
  · exact List.all_eq_true.mp (by decide)
  · exact List.all_eq_true.mp (by decide)
  · exact List.all_eq_true.mp (by decide)
  · exact List.all_eq_true.mp (by decide)
  · exact fun x hx => List.mem_singleton.mp hx ▸ h₇
  · have hhigh := hexChar_printable (n := c.toNat / 16) (by omega)
    have hlow := hexChar_printable (n := c.toNat % 16) (by omega)
    intro x hx
    simp only [List.mem_cons, List.not_mem_nil, or_false] at hx
    rcases hx with rfl | rfl | rfl | rfl | rfl | rfl
    · decide
    · decide
    · decide
    · decide
    · exact hhigh
    · exact hlow

/-- A quote in a body stands behind an odd number of backslashes. -/
theorem quote_escaped (hb : StringBody b) : ∀ {n : ℕ} {front back : Bytes}, n % 2 = 0 →
    b = front ++ '"'.toUInt8 :: back → endRun n front % 2 = 1 := by
  induction hb with
  | nil =>
    intro n front back _ heq
    exact absurd heq.symm (List.append_ne_nil_of_right_ne_nil _ (List.cons_ne_nil _ _))
  | @plain c b hq hbs hb ih =>
    intro n front back hn heq
    cases front with
    | nil => exact absurd (List.cons.inj heq).1 hq
    | cons d front =>
      rw [List.cons_append, List.cons.injEq] at heq
      rw [endRun_cons, ← heq.1, if_neg hbs]
      exact ih rfl heq.2
  | @escape e b hb ih =>
    intro n front back hn heq
    cases front with
    | nil => exact absurd (List.cons.inj heq).1 (by decide)
    | cons d front =>
      rw [List.cons_append, List.cons.injEq] at heq
      rw [endRun_cons, ← heq.1, if_pos rfl]
      cases front with
      | nil =>
        show (n + 1) % 2 = 1
        omega
      | cons d front =>
        have htail := heq.2
        rw [List.cons_append, List.cons.injEq] at htail
        rw [endRun_cons]
        split
        · exact ih (by omega) htail.2
        · exact ih rfl htail.2

/-- Encoding and decoding give the string back; the code is printable, and each quote in it is escaped. -/
theorem encoded_string (s : CString) :
    decodeString (jsonEncodeString s.bytes) = s.bytes ∧
      (∀ c ∈ jsonEncodeString s.bytes, charIsPrintableAscii c = true) ∧
      ∀ front back, jsonEncodeString s.bytes = front ++ '"'.toUInt8 :: back → endRun 0 front % 2 = 1 := by
  refine ⟨decode_encode s.nul_free, fun c hc => ?_, fun front back heq => ?_⟩
  · obtain ⟨x, _, hx⟩ := List.mem_flatMap.mp hc
    exact encodeChar_printable x c hx
  · exact quote_escaped (encode_body s.bytes) rfl heq

/-! ## Escapes that are not known -/

/-- The value of a literal with that body. -/
def literalValue (body : Bytes) : Bytes := decodeString (unescape body)

/-- The escape of the letter `e` is none of the recognised ones, given what follows it. -/
def Unrecognised (e : UInt8) (back : Bytes) : Prop :=
  stringEscape e = none ∧ ¬ (e = 'u'.toUInt8 ∧ (hexStringToChar back).isSome)

/-- Each unrecognised escape of the body stands in the value, between what is before it and what is after it. -/
def KeepsUnrecognised (body : Bytes) : Prop :=
  ∀ front e back, body = front ++ '\\'.toUInt8 :: e :: back → StringBody front → StringBody back →
    Unrecognised e back →
    literalValue body = literalValue front ++ '\\'.toUInt8 :: e :: literalValue back

/-- No unrecognised escape of the body has the letter `u`, and an even number of escaped backslashes stands right in
front of each. -/
def EscapesStandFree (body : Bytes) : Prop :=
  ∀ front e back, body = front ++ '\\'.toUInt8 :: e :: back → StringBody front → StringBody back →
    Unrecognised e back → e ≠ 'u'.toUInt8 ∧ endRun 0 front % 4 = 0

theorem known_backslash : stringEscape '\\'.toUInt8 = some '\\'.toUInt8 := by decide

theorem stringEscape_backslash (he : stringEscape e = some '\\'.toUInt8) : e = '\\'.toUInt8 := by
  unfold stringEscape at he
  split_ifs at he
  · exact Option.some.inj he
  all_goals exact absurd (Option.some.inj he) (by decide)

theorem hexString_some {r : Bytes} {d : UInt8} (h : hexStringToChar r = some d) :
    ∃ x₁ x₂ x₃ x₄ tail, r = x₁ :: x₂ :: x₃ :: x₄ :: tail ∧
      x₁ ≠ '\\'.toUInt8 ∧ x₂ ≠ '\\'.toUInt8 ∧ x₃ ≠ '\\'.toUInt8 ∧ x₄ ≠ '\\'.toUInt8 := by
  have hne : ∀ {x : UInt8} {v : ℕ}, hexDigit x = some v → x ≠ '\\'.toUInt8 := by
    rintro x v hx rfl
    rw [(by decide : hexDigit '\\'.toUInt8 = none)] at hx
    cases hx
  unfold hexStringToChar at h
  split at h
  · rename_i a b c e t
    simp only [Option.bind_eq_bind, Option.bind_eq_some_iff] at h
    obtain ⟨a', ha, b', hb, c', hc, e', he, _⟩ := h
    exact ⟨a, b, c, e, t, rfl, hne ha, hne hb, hne hc, hne he⟩
  · cases h

theorem hexString_append {x₁ x₂ x₃ x₄ : UInt8} (tail s : Bytes) :
    hexStringToChar (x₁ :: x₂ :: x₃ :: x₄ :: tail ++ s) = hexStringToChar (x₁ :: x₂ :: x₃ :: x₄ :: tail) := rfl

theorem hexString_backslash (r s : Bytes) :
    hexStringToChar (r ++ '\\'.toUInt8 :: s) = hexStringToChar r := by
  cases hr : hexStringToChar r with
  | some d =>
    obtain ⟨x₁, x₂, x₃, x₄, tail, rfl, _⟩ := hexString_some hr
    rw [hexString_append, hr]
  | none =>
    cases h : hexStringToChar (r ++ '\\'.toUInt8 :: s) with
    | none => rfl
    | some d =>
      exfalso
      obtain ⟨x₁, x₂, x₃, x₄, tail, heq, h₁, h₂, h₃, h₄⟩ := hexString_some h
      -- the backslash would be among the four
      rcases r with _ | ⟨y₁, _ | ⟨y₂, _ | ⟨y₃, _ | ⟨y₄, r⟩⟩⟩⟩
      · exact h₁ (List.cons.inj heq).1.symm
      · exact h₂ (List.cons.inj (List.cons.inj heq).2).1.symm
      · exact h₃ (List.cons.inj (List.cons.inj (List.cons.inj heq).2).2).1.symm
      · exact h₄ (List.cons.inj (List.cons.inj (List.cons.inj (List.cons.inj heq).2).2).2).1.symm
      · rw [hexString_append, hr] at h
        cases h

theorem endRun_plain (hc : c ≠ '\\'.toUInt8) (n : ℕ) (text : Bytes) :
    endRun n (c :: text) = endRun 0 text := by
  rw [endRun_cons, if_neg hc]

theorem endRun_escaped (e : UInt8) (text : Bytes) :
    endRun 0 ('\\'.toUInt8 :: e :: text) % 2 = endRun 0 text % 2 := by
  rw [endRun_cons, if_pos rfl]
  by_cases he : e = '\\'.toUInt8
  · rw [endRun_cons, if_pos he]
    exact endRun_add_two text 0
  · rw [endRun_plain he]

/-- The decoder keeps an escape whose letter neither decoder knows. -/
theorem decode_unknown (he : stringEscape e = none) (hu : e ≠ 'u'.toUInt8) (r : Bytes) :
    decodeString ('\\'.toUInt8 :: e :: r) = '\\'.toUInt8 :: e :: decodeString r := by
  have hne : ∀ c, stringEscape c ≠ none → e ≠ c := by
    rintro c hc rfl
    exact hc he
  have hq := hne '"'.toUInt8 (by decide)
  have hbs := hne '\\'.toUInt8 (by decide)
  rw [decodeString, if_pos rfl, if_neg (by tauto), if_neg (hne _ (by decide)), if_neg (hne _ (by decide)),
    if_neg (hne _ (by decide)), if_neg (hne _ (by decide)), if_neg (hne _ (by decide)), if_neg hu, decode_plain hbs]

theorem decode_plain_text {t : Bytes} (h : ∀ c ∈ t, c ≠ '\\'.toUInt8) : decodeString t = t := by
  induction t with
  | nil => simp [decodeString]
  | cons c t ih => rw [decode_plain (h c List.mem_cons_self), ih fun d hd => h d (List.mem_cons_of_mem c hd)]

/-- What the decoder takes in one turn, which does not depend on a backslash behind the text. -/
theorem decode_turn (t : Bytes) (hne : t ≠ []) (hlast : t ≠ ['\\'.toUInt8]) :
    ∃ x rest, rest.length < t.length ∧ decodeString t = x ++ decodeString rest ∧
      (∀ s, decodeString (t ++ '\\'.toUInt8 :: s) = x ++ decodeString (rest ++ '\\'.toUInt8 :: s)) ∧
      endRun 0 t % 2 = endRun 0 rest % 2 := by
  obtain ⟨c, t, rfl⟩ := List.exists_cons_of_ne_nil hne
  by_cases hc : c = '\\'.toUInt8
  swap
  · exact ⟨[c], t, Nat.lt_succ_self _, decode_plain hc t, fun s => decode_plain hc _, by rw [endRun_plain hc]⟩
  subst hc
  obtain ⟨e, r, rfl⟩ := List.exists_cons_of_ne_nil (fun h => hlast (by rw [h]) : t ≠ [])
  have hshort : r.length < ('\\'.toUInt8 :: e :: r).length := Nat.lt_succ_of_lt (Nat.lt_succ_self _)
  cases he : stringEscape e with
  | some x =>
    by_cases hslash : e = '/'.toUInt8
    · subst hslash
      have hkeep : ∀ r, decodeString ('\\'.toUInt8 :: '/'.toUInt8 :: r) =
          ['\\'.toUInt8, '/'.toUInt8] ++ decodeString r := by
        intro r
        rw [decode_inactive (by decide), decode_plain (by decide)]
        rfl
      exact ⟨_, r, hshort, hkeep r, fun s => hkeep _, endRun_escaped _ r⟩
    · exact ⟨[x], r, hshort, decode_known he hslash r, fun s => decode_known he hslash _, endRun_escaped e r⟩
  | none =>
    by_cases hu : e = 'u'.toUInt8
    swap
    · exact ⟨['\\'.toUInt8, e], r, hshort, decode_unknown he hu r, fun s => decode_unknown he hu _,
        endRun_escaped e r⟩
    subst hu
    cases hd : hexStringToChar r with
    | none =>
      refine ⟨[], 'u'.toUInt8 :: r, by simp, ?_, fun s => ?_, ?_⟩
      · rw [decode_u, hd]
        rfl
      · rw [List.cons_append, List.cons_append, decode_u, hexString_backslash, hd]
        rfl
      · rw [endRun_escaped, endRun_plain (by decide)]
    | some d =>
      obtain ⟨x₁, x₂, x₃, x₄, tail, rfl, h₁, h₂, h₃, h₄⟩ := hexString_some hd
      refine ⟨if d = 0 then [] else [d], tail, by simp only [List.length_cons]; omega, ?_, fun s => ?_, ?_⟩
      · rw [decode_u, hd]
        rfl
      · rw [List.cons_append, List.cons_append, decode_u, hexString_backslash, hd]
        rfl
      · rw [endRun_escaped, endRun_plain h₁, endRun_plain h₂, endRun_plain h₃, endRun_plain h₄]

/-- Behind a text, a backslash starts an escape of its own exactly if the text ends with an even number of them. -/
theorem decode_behind (n : ℕ) : ∀ t : Bytes, t.length ≤ n → ∀ s, decodeString (t ++ '\\'.toUInt8 :: s) =
    decodeString t ++ if endRun 0 t % 2 = 0 then decodeString ('\\'.toUInt8 :: s) else decodeString s := by
  induction n with
  | zero =>
    intro t hlen s
    rw [List.length_eq_zero_iff.mp (Nat.le_zero.mp hlen)]
    simp [endRun, decodeString]
  | succ n ih =>
    intro t hlen s
    by_cases hne : t = []
    · subst hne
      simp [endRun, decodeString]
    by_cases hlast : t = ['\\'.toUInt8]
    · subst hlast
      rw [List.singleton_append, decode_known known_backslash (by decide)]
      simp [endRun, decodeString]
    · obtain ⟨x, rest, hlt, hhere, hbehind, hparity⟩ := decode_turn t hne hlast
      rw [hbehind, hhere, hparity, List.append_assoc, ih rest (by omega) s]

theorem unescape_append {front : Bytes} (hf : StringBody front) (b : Bytes) :
    unescape (front ++ b) = unescape front ++ unescape b := by
  induction hf with
  | nil => rfl
  | @plain c front _ hbs _ ih =>
    rw [List.cons_append, unescape_plain hbs, unescape_plain hbs, ih]
    rfl
  | @escape e front _ ih =>
    rw [List.cons_append, List.cons_append]
    cases he : stringEscape e with
    | some x =>
      rw [unescape_known he, unescape_known he, ih]
      rfl
    | none =>
      rw [unescape_unknown he, unescape_unknown he, ih]
      rfl

/-- The first decoder halves the run of backslashes that a body ends with. -/
theorem endRun_unescape (hb : StringBody b) : ∀ n : ℕ, 2 * endRun n (unescape b) = endRun (2 * n) b := by
  induction hb with
  | nil => exact fun n => rfl
  | @plain c b _ hbs _ ih =>
    intro n
    rw [unescape_plain hbs, endRun_plain hbs, endRun_plain hbs, ih 0]
  | @escape e b _ ih =>
    intro n
    have hrun : ∀ {x}, x ≠ '\\'.toUInt8 → endRun n (x :: unescape b) = endRun 0 (unescape b) :=
      fun hx => endRun_plain hx n _
    by_cases hbs : e = '\\'.toUInt8
    · subst hbs
      rw [unescape_known known_backslash, endRun_cons, endRun_cons, endRun_cons,
        if_pos rfl, if_pos rfl, ih]
      congr 1
    · rw [endRun_cons _ '\\'.toUInt8, if_pos rfl, endRun_plain hbs]
      cases he : stringEscape e with
      | some x =>
        have hx : x ≠ '\\'.toUInt8 := by
          rintro rfl
          exact hbs (stringEscape_backslash he)
        rw [unescape_known he, hrun hx, ih 0]
      | none => rw [unescape_unknown he, endRun_cons, endRun_plain hbs, ih 0]

theorem unescape_digit {t : Bytes} {x : UInt8} (hb : StringBody b) (h : unescape b = x :: t) (hx : hexDigit x ≠ none) :
    ∃ b', StringBody b' ∧ b = x :: b' ∧ t = unescape b' := by
  cases hb with
  | nil => cases h
  | @plain c b _ hbs hb =>
    rw [unescape_plain hbs, List.cons.injEq] at h
    exact ⟨b, hb, by rw [h.1], h.2.symm⟩
  | @escape e b hb =>
    exfalso
    cases he : stringEscape e with
    | some y =>
      rw [unescape_known he, List.cons.injEq] at h
      rw [← h.1] at hx
      apply hx
      unfold stringEscape at he
      split_ifs at he with h₁
      · rw [← Option.some.inj he]
        rcases h₁ with rfl | rfl | rfl <;> decide
      all_goals
        rw [← Option.some.inj he]
        decide
    | none =>
      rw [unescape_unknown he, List.cons.injEq] at h
      rw [← h.1] at hx
      exact hx (by decide)

theorem hexString_unescape (hb : StringBody b) (h : (hexStringToChar (unescape b)).isSome) :
    (hexStringToChar b).isSome := by
  obtain ⟨d, hd⟩ := Option.isSome_iff_exists.mp h
  obtain ⟨x₁, x₂, x₃, x₄, t, heq, h₁, h₂, h₃, h₄⟩ := hexString_digits hd
  obtain ⟨b₁, hb₁, rfl, heq₁⟩ := unescape_digit hb heq h₁
  obtain ⟨b₂, hb₂, rfl, heq₂⟩ := unescape_digit hb₁ heq₁.symm h₂
  obtain ⟨b₃, hb₃, rfl, heq₃⟩ := unescape_digit hb₂ heq₂.symm h₃
  obtain ⟨b₄, _, rfl, heq₄⟩ := unescape_digit hb₃ heq₃.symm h₄
  rw [heq, heq₄] at h
  exact h

/-- One unrecognised escape: its letter must not be `u`, and an even number of escaped backslashes must stand right
in front of it. -/
theorem kept_iff {front back : Bytes} (hf : StringBody front) (hb : StringBody back) (he : Unrecognised e back) :
    literalValue (front ++ '\\'.toUInt8 :: e :: back) = literalValue front ++ '\\'.toUInt8 :: e :: literalValue back ↔
      e ≠ 'u'.toUInt8 ∧ endRun 0 front % 4 = 0 := by
  have hparity : endRun 0 (unescape front) % 2 = 0 ↔ endRun 0 front % 4 = 0 := by
    have h := endRun_unescape hf 0
    rw [Nat.mul_zero] at h
    omega
  have hplain : e ≠ '\\'.toUInt8 := by
    rintro rfl
    exact absurd he.1 (by rw [known_backslash]; simp)
  have hbehind := decode_behind _ (unescape front) (Nat.le_refl _) (e :: unescape back)
  rw [decode_plain hplain] at hbehind
  rw [literalValue, unescape_append hf, unescape_unknown he.1, hbehind, ← hparity, ← literalValue,
    List.append_cancel_left_eq]
  have hlost : e :: decodeString (unescape back) ≠ '\\'.toUInt8 :: e :: literalValue back := by
    intro h
    exact hplain (List.cons.inj h).1
  split
  · rename_i heven
    by_cases hu : e = 'u'.toUInt8
    · subst hu
      have hnone : hexStringToChar (unescape back) = none := by
        by_contra hsome
        exact he.2 ⟨rfl, hexString_unescape hb (Option.isSome_iff_ne_none.mpr hsome)⟩
      rw [decode_u, hnone]
      dsimp only
      rw [decode_plain hplain]
      exact ⟨fun h => absurd h hlost, fun h => absurd rfl h.1⟩
    · rw [decode_unknown he.1 hu]
      exact ⟨fun _ => ⟨hu, heven⟩, fun _ => rfl⟩
  · rename_i hodd
    exact ⟨fun h => absurd h hlost, fun h => absurd h.2 hodd⟩

theorem keeps_iff (b : Bytes) : KeepsUnrecognised b ↔ EscapesStandFree b := by
  constructor
  · intro h front e back heq hf hb he
    have hkept := h front e back heq hf hb he
    rw [heq] at hkept
    exact (kept_iff hf hb he).mp hkept
  · intro h front e back heq hf hb he
    rw [heq]
    exact (kept_iff hf hb he).mpr (h front e back heq hf hb he)

/-- A character that was read, other than the NUL, is one of the text. -/
theorem at_of_peek {s : Bytes} {p : ℕ} (h : peek s p = .ok c) (hc : c ≠ 0) : ∃ r, At s p (c :: r) := by
  unfold peek at h
  cases hread : (s ++ [0])[p]? with
  | none => rw [hread] at h; cases h
  | some d =>
    rw [hread, Outcome.ok.injEq] at h
    subst h
    have hlt : p < s.length := by
      by_contra hge
      have hlast : (s ++ [0])[p]? = some 0 := by
        obtain ⟨hp, -⟩ := List.getElem?_eq_some_iff.mp hread
        rw [List.length_append, List.length_singleton] at hp
        obtain rfl : p = s.length := by omega
        exact List.getElem?_concat_length
      rw [hread, Option.some.injEq] at hlast
      exact hc hlast
    rw [List.getElem?_append_left hlt, List.getElem?_eq_getElem hlt, Option.some.injEq] at hread
    refine ⟨s.drop (p + 1), s.take p, ?_, by rw [List.length_take]; omega⟩
    rw [← hread, List.getElem_cons_drop, List.take_append_drop]

/-- What the scanner of strings accepts is a body between quotes, wherever it stands. -/
theorem parseAsString_body {s text : Bytes} (h0 : 0 ∉ s) {p q : ℕ} (h : parseAsString s p = .ok (text, q)) :
    ∃ b r, StringBody b ∧ At s p ('"'.toUInt8 :: (b ++ '"'.toUInt8 :: r)) ∧ text = unescape b ∧
      q = p + b.length + 1 := by
  have hstart : peek s p = .ok '"'.toUInt8 := by
    unfold parseAsString at h
    cases hc : peek s p with
    | ok c =>
      rw [hc] at h
      simp only [Outcome.ok_bind] at h
      by_cases hq : c = '"'.toUInt8
      · rw [hq]
      · rw [if_pos hq] at h
        cases h
    | error e => rw [hc] at h; cases h
    | outOfBounds => rw [hc] at h; cases h
    | outOfFuel => rw [hc] at h; cases h
  obtain ⟨r, hat⟩ := at_of_peek hstart (by decide)
  rcases string_cases r.length r (Nat.le_refl _) with ⟨b, r', hb, rfl⟩ | hb | ⟨b, hb, rfl⟩
  · rw [parseAsString_closed h0 hb hat, Outcome.ok.injEq, Prod.mk.injEq] at h
    exact ⟨b, r', hb, hat, h.1.symm, h.2.symm⟩
  · rw [parseAsString_open h0 hb hat] at h
    cases h
  · rw [parseAsString_cut h0 hb hat] at h
    cases h

/-- A literal that is parsed as a value, of a document, an array or an object, keeps its unrecognised escapes exactly
if they stand free. -/
theorem unrecognised_kept_iff {s : CString} {p q : ℕ} {text : Bytes} (h : parseAsString s.bytes p = .ok (text, q)) :
    ∃ b r, StringBody b ∧ At s.bytes p ('"'.toUInt8 :: (b ++ '"'.toUInt8 :: r)) ∧
      parseAsPrimitive s.bytes p = .ok (.primitive .string (literalValue b), q) ∧
      (∀ parseArray parseObject prev children, arrayItem s.bytes parseArray parseObject p '"'.toUInt8 prev children =
        .ok (children ++ [.primitive .string (literalValue b)], q)) ∧
      (∀ parseArray parseObject prev key children,
        objectItem s.bytes parseArray parseObject p '"'.toUInt8 prev ⟨some key, children⟩ =
          .ok (ObjectState.put ⟨some key, children⟩ key (.primitive .string (literalValue b)), q)) ∧
      (KeepsUnrecognised b ↔ EscapesStandFree b) := by
  obtain ⟨b, r, hb, hat, rfl, rfl⟩ := parseAsString_body s.nul_free h
  refine ⟨b, r, hb, hat, ?_, fun parseArray parseObject prev children => ?_,
    fun parseArray parseObject prev key children => ?_, keeps_iff b⟩
  · rw [primitive_text hat, h]
    rfl
  · rw [arrayItem, if_pos rfl, h]
    rfl
  · rw [objectItem, if_pos rfl]
    dsimp only
    rw [h]
    rfl

/-- The literal `"\u0100"`. -/
def wideLiteral : CString := ⟨ascii "\"\\u0100\"", by decide⟩

theorem wideLiteral_parsed : parseAsString wideLiteral.bytes 0 = .ok (ascii "\\u0100", 7) := rfl

theorem unrecognised_kept_wideLiteral : ∃ b,
    parseAsPrimitive wideLiteral.bytes 0 = .ok (.primitive .string (literalValue b), 7) ∧
      (KeepsUnrecognised b ↔ EscapesStandFree b) := by
  obtain ⟨b, _, _, _, hparse, _, _, hiff⟩ := unrecognised_kept_iff wideLiteral_parsed
  exact ⟨b, hparse, hiff⟩

/-- It comes out as the string `u0100`. -/
theorem wideLiteral_loses : ¬ KeepsUnrecognised (ascii "\\u0100") ∧
    parseAsPrimitive wideLiteral.bytes 0 = .ok (.primitive .string (ascii "u0100"), 7) := by
  constructor
  · intro h
    have hback : StringBody (ascii "0100") := by
      repeat refine .plain (by decide) (by decide) ?_
      exact .nil
    have hunknown : Unrecognised 'u'.toUInt8 (ascii "0100") := ⟨by decide, fun h => absurd h.2 (by decide)⟩
    exact ((kept_iff .nil hback hunknown).mp (h [] _ _ rfl .nil hback hunknown)).1 rfl
  · have hdecoded : decodeString (ascii "\\u0100") = ascii "u0100" := by
      have hnone : hexStringToChar (ascii "0100") = none := by decide
      have htext : ascii "\\u0100" = '\\'.toUInt8 :: 'u'.toUInt8 :: ascii "0100" := rfl
      rw [htext, decode_u, hnone]
      dsimp only
      have hplain : (ascii "u0100").all (· != '\\'.toUInt8) = true := by decide
      exact decode_plain_text fun c hc => bne_iff_ne.mp (List.all_eq_true.mp hplain c hc)
    have hparse := primitive_text (At.start wideLiteral.bytes)
    rw [wideLiteral_parsed, Outcome.ok_bind, hdecoded] at hparse
    exact hparse

end Libntech.Json
