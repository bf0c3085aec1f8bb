import Libntech.Json.Parse

/-! # The scanners of the JSON parser on the text ahead of the cursor

`At s p r`: the cursor `p` stands in `s` with the text `r` ahead of it, the terminating NUL after that.
Every scanner is described by what it does to `r`: the string scanner by `StringBody` and what an escape
stands for, the number scanner by a fold of `numberStep` up to the next separator, the words and unquoted
keys by the text they match.
-/
namespace Libntech.Json
set_option autoImplicit false

open Libntech.Strings (Seen stringStartsWith stringStartsWith_iff)

/-! ## Outcomes -/

namespace Outcome

variable {α β : Type}

@[simp] theorem ok_bind (a : α) (f : α → Outcome β) : (ok a >>= f) = f a := rfl
@[simp] theorem error_bind (e : JsonParseError) (f : α → Outcome β) : (error e >>= f) = error e := rfl
@[simp] theorem outOfBounds_bind (f : α → Outcome β) : (outOfBounds >>= f) = outOfBounds := rfl
@[simp] theorem outOfFuel_bind (f : α → Outcome β) : (outOfFuel >>= f) = outOfFuel := rfl
@[simp] theorem pure_eq (a : α) : (pure a : Outcome α) = ok a := rfl

end Outcome

/-! ## Positions -/

def At (s : Bytes) (p : ℕ) (r : Bytes) : Prop := ∃ t, s = t ++ r ∧ p = t.length

section Position

variable {s r v : Bytes} {p : ℕ} {c : UInt8}

theorem At.start (s : Bytes) : At s 0 s := ⟨[], rfl, rfl⟩

theorem At.peek_cons (h : At s p (c :: r)) : peek s p = .ok c := by
  obtain ⟨t, rfl, rfl⟩ := h
  simp [peek]

theorem At.peek_nil (h : At s p []) : peek s p = .ok 0 := by
  obtain ⟨t, rfl, rfl⟩ := h
  simp [peek]

theorem At.peek_beyond (h : At s p []) : peek s (p + 1) = .outOfBounds := by
  obtain ⟨t, rfl, rfl⟩ := h
  simp [peek]

theorem At.skip (h : At s p (v ++ r)) : At s (p + v.length) r := by
  obtain ⟨t, rfl, rfl⟩ := h
  exact ⟨t ++ v, by simp, by simp⟩

theorem At.next (h : At s p (c :: r)) : At s (p + 1) r := At.skip (v := [c]) h

theorem At.drop_eq (h : At s p r) : s.drop p = r := by
  obtain ⟨t, rfl, rfl⟩ := h
  simp

theorem At.le_length (h : At s p r) : p ≤ s.length := by
  obtain ⟨t, rfl, rfl⟩ := h
  simp

theorem At.length_le (h : At s p r) : r.length ≤ s.length := by
  obtain ⟨t, rfl, rfl⟩ := h
  simp

theorem At.nul_free (h : At s p r) (h0 : 0 ∉ s) : 0 ∉ r := by
  obtain ⟨t, rfl, rfl⟩ := h
  exact fun hr => h0 (List.mem_append_right _ hr)

theorem At.ne_zero (h : At s p (c :: r)) (h0 : 0 ∉ s) : c ≠ 0 := by
  rintro rfl
  exact h.nul_free h0 List.mem_cons_self

/-- The character before the rest is the last one of what was skipped. -/
theorem At.peek_last (h : At s p (v ++ r)) (hv : v ≠ []) :
    peek s (p + v.length - 1) = .ok (v.getLast hv) := by
  obtain ⟨t, rfl, rfl⟩ := h
  obtain rfl | ⟨u, x, rfl⟩ := List.eq_nil_or_concat v
  · exact absurd rfl hv
  · simp [peek]

end Position

/-! ## Strings -/

/-- What may stand between the quotes of a string: plain characters, and backslashes with the character
they escape. -/
inductive StringBody : Bytes → Prop where
  | nil : StringBody []
  | plain {c : UInt8} {b : Bytes} : c ≠ '"'.toUInt8 → c ≠ '\\'.toUInt8 → StringBody b → StringBody (c :: b)
  | escape {e : UInt8} {b : Bytes} : StringBody b → StringBody ('\\'.toUInt8 :: e :: b)

/-- The string that the parser reads from a body. -/
def unescape : Bytes → Bytes
  | [] => []
  | [c] => [c]
  | c :: e :: b =>
    if c = '\\'.toUInt8 then
      match stringEscape e with
      | some x => x :: unescape b
      | none => '\\'.toUInt8 :: e :: unescape b
    else c :: unescape (e :: b)

variable {p : ℕ} {r v : Bytes} {c e : UInt8}

theorem unescape_plain (hc : c ≠ '\\'.toUInt8) (b : Bytes) : unescape (c :: b) = c :: unescape b := by
  cases b with
  | nil => rfl
  | cons e b => rw [unescape, if_neg hc]

theorem unescape_known {x : UInt8} (he : stringEscape e = some x) (b : Bytes) :
    unescape ('\\'.toUInt8 :: e :: b) = x :: unescape b := by
  rw [unescape, if_pos rfl, he]

theorem unescape_unknown (he : stringEscape e = none) (b : Bytes) :
    unescape ('\\'.toUInt8 :: e :: b) = '\\'.toUInt8 :: e :: unescape b := by
  rw [unescape, if_pos rfl, he]

/-- Every text closes a string, stays inside it, or is cut off after a backslash. -/
theorem string_cases (n : ℕ) : ∀ r : Bytes, r.length ≤ n →
    (∃ b r', StringBody b ∧ r = b ++ '"'.toUInt8 :: r') ∨ StringBody r ∨
      ∃ b, StringBody b ∧ r = b ++ ['\\'.toUInt8] := by
  induction n with
  | zero =>
    intro r hr
    rw [List.length_eq_zero_iff.mp (Nat.le_zero.mp hr)]
    exact .inr (.inl .nil)
  | succ n ih =>
    intro r hr
    cases r with
    | nil => exact .inr (.inl .nil)
    | cons c r =>
      rw [List.length_cons] at hr
      by_cases hq : c = '"'.toUInt8
      · subst hq
        exact .inl ⟨[], r, .nil, rfl⟩
      by_cases hb : c = '\\'.toUInt8
      · subst hb
        cases r with
        | nil => exact .inr (.inr ⟨[], .nil, rfl⟩)
        | cons e r =>
          rw [List.length_cons] at hr
          rcases ih r (by omega) with ⟨b, r', hb, rfl⟩ | hb | ⟨b, hb, rfl⟩
          · exact .inl ⟨_ :: e :: b, r', .escape hb, rfl⟩
          · exact .inr (.inl (.escape hb))
          · exact .inr (.inr ⟨_ :: e :: b, .escape hb, rfl⟩)
      · rcases ih r (by omega) with ⟨b, r', hb', rfl⟩ | hb' | ⟨b, hb', rfl⟩
        · exact .inl ⟨c :: b, r', .plain hq hb hb', rfl⟩
        · exact .inr (.inl (.plain hq hb hb'))
        · exact .inr (.inr ⟨c :: b, .plain hq hb hb', rfl⟩)

section StringLoop

variable {s : Bytes} (h0 : 0 ∉ s)
include h0

theorem parseStringLoop_plain {fuel : ℕ} {out : Bytes} (h : At s p (c :: r)) (hq : c ≠ '"'.toUInt8)
    (hb : c ≠ '\\'.toUInt8) :
    parseStringLoop s (fuel + 1) p out = parseStringLoop s fuel (p + 1) (out ++ [c]) := by
  simp only [parseStringLoop, h.peek_cons, Outcome.ok_bind, h.ne_zero h0, if_false, hq, hb]

theorem parseStringLoop_escape {fuel : ℕ} {out : Bytes} (h : At s p ('\\'.toUInt8 :: e :: r)) :
    parseStringLoop s (fuel + 1) p out =
      parseStringLoop s fuel (p + 2) (out ++ (unescape ['\\'.toUInt8, e])) := by
  have hne : '\\'.toUInt8 ≠ '"'.toUInt8 := by decide
  simp only [parseStringLoop, h.peek_cons, h.next.peek_cons, Outcome.ok_bind, h.ne_zero h0, hne, if_false, if_true]
  cases he : stringEscape e with
  | some x => rw [unescape_known he]; rfl
  | none => rw [unescape_unknown he]; rfl

variable {b : Bytes}

theorem parseStringLoop_body (hb : StringBody b) : ∀ {p n : ℕ} {r o : Bytes}, At s p (b ++ r) →
    b.length ≤ n → ∃ k, n ≤ k + b.length ∧
      parseStringLoop s n p o = parseStringLoop s k (p + b.length) (o ++ unescape b) := by
  induction hb with
  | nil => exact fun {p fuel r out} _ _ => ⟨fuel, Nat.le_refl _, by simp [unescape]⟩
  | @plain c b hq hbs hb ih =>
    intro p fuel r out h hfuel
    rw [List.length_cons] at hfuel
    obtain ⟨fuel, rfl⟩ : ∃ k, fuel = k + 1 := ⟨fuel - 1, by omega⟩
    obtain ⟨k, hk, heq⟩ := ih (o := out ++ [c]) (At.next (r := b ++ r) h) (n := fuel) (by omega)
    refine ⟨k, by rw [List.length_cons]; omega, ?_⟩
    rw [parseStringLoop_plain h0 (r := b ++ r) h hq hbs, heq, unescape_plain hbs, List.length_cons]
    congr 1
    · omega
    · simp
  | @escape e b hb ih =>
    intro p fuel r out h hfuel
    rw [List.length_cons, List.length_cons] at hfuel
    obtain ⟨fuel, rfl⟩ : ∃ k, fuel = k + 1 := ⟨fuel - 1, by omega⟩
    have h₂ := At.next (At.next (r := e :: (b ++ r)) h)
    obtain ⟨k, hk, heq⟩ := ih (o := out ++ unescape ['\\'.toUInt8, e]) h₂ (n := fuel) (by omega)
    refine ⟨k, by rw [List.length_cons, List.length_cons]; omega, ?_⟩
    rw [parseStringLoop_escape h0 (r := b ++ r) h, heq, List.length_cons, List.length_cons]
    congr 1
    · omega
    · cases he : stringEscape e with
      | some x => rw [unescape_known he, unescape_known he]; simp [unescape]
      | none => rw [unescape_unknown he, unescape_unknown he]; simp [unescape]

theorem parseAsString_closed (hb : StringBody b) (h : At s p ('"'.toUInt8 :: (b ++ '"'.toUInt8 :: r))) :
    parseAsString s p = .ok (unescape b, p + b.length + 1) := by
  have hlen := h.length_le
  rw [List.length_cons, List.length_append] at hlen
  obtain ⟨k, hk, heq⟩ := parseStringLoop_body h0 hb (o := []) h.next (n := s.length + 2) (by omega)
  have hend := At.skip (h.next)
  obtain ⟨k, rfl⟩ : ∃ j, k = j + 1 := ⟨k - 1, by omega⟩
  rw [List.nil_append] at heq
  simp only [parseAsString, h.peek_cons, Outcome.ok_bind, ne_eq, not_true_eq_false, if_false, heq]
  rw [parseStringLoop, hend.peek_cons]
  simp only [Outcome.ok_bind, hend.ne_zero h0, if_false, if_true]
  congr 2
  omega

theorem parseAsString_open (hb : StringBody b) (h : At s p ('"'.toUInt8 :: b)) :
    parseAsString s p = .error .stringNoDoublequoteEnd := by
  have hlen := h.length_le
  rw [List.length_cons] at hlen
  have hnext : At s (p + 1) (b ++ []) := by rw [List.append_nil]; exact h.next
  obtain ⟨k, hk, heq⟩ := parseStringLoop_body h0 hb (o := []) hnext (n := s.length + 2) (by omega)
  obtain ⟨k, rfl⟩ : ∃ j, k = j + 1 := ⟨k - 1, by omega⟩
  simp only [parseAsString, h.peek_cons, Outcome.ok_bind, ne_eq, not_true_eq_false, if_false, heq]
  rw [parseStringLoop, hnext.skip.peek_nil]
  rfl

/-- A text cut off after a backslash: the unknown escape is kept with the NUL as its letter, and the
increment of the loop takes the cursor past it. -/
theorem parseAsString_cut (hb : StringBody b) (h : At s p ('"'.toUInt8 :: (b ++ ['\\'.toUInt8]))) :
    parseAsString s p = .outOfBounds := by
  have hlen := h.length_le
  rw [List.length_cons, List.length_append, List.length_singleton] at hlen
  obtain ⟨k, hk, heq⟩ := parseStringLoop_body h0 hb (o := []) h.next (n := s.length + 2) (by omega)
  have hend := At.skip (h.next)
  obtain ⟨k, rfl⟩ : ∃ j, k = j + 2 := ⟨k - 2, by omega⟩
  have hne : '\\'.toUInt8 ≠ '"'.toUInt8 := by decide
  have hesc : stringEscape 0 = none := by decide
  simp only [parseAsString, h.peek_cons, Outcome.ok_bind, ne_eq, not_true_eq_false, if_false, heq]
  rw [parseStringLoop, hend.peek_cons]
  simp only [Outcome.ok_bind, hend.ne_zero h0, hne, if_false, if_true, hend.next.peek_nil, hesc]
  rw [parseStringLoop, hend.next.peek_beyond]
  rfl

end StringLoop

/-! ## Numbers and words -/

/-- Nothing more, or a separator. -/
def SepNext : Bytes → Prop
  | [] => True
  | c :: _ => isSeparator c = true

/-- The flags after a run of characters, or the first error. -/
def numberRun : NumberState → Bytes → Except JsonParseError NumberState
  | n, [] => .ok n
  | n, c :: r =>
    match numberStep n c with
    | .error e => .error e
    | .ok n => numberRun n r

def numberStart : NumberState := ⟨false, false, false, 0⟩

def endsInDigit (n : NumberState) : Bool := n.prev == '0'.toUInt8 || isDigit n.prev

/-- A number, a boolean or a null, and the element it stands for. -/
inductive Scalar : Bytes → JsonElement → Prop where
  | number {v : Bytes} {n : NumberState} : numberRun numberStart v = .ok n → endsInDigit n = true →
      Scalar v (.primitive (if n.seenDot then .real else .integer) v)
  | true : Scalar jsonTrue (jsonBoolCreate true)
  | false : Scalar jsonFalse (jsonBoolCreate false)
  | null : Scalar jsonNull jsonNullCreate

/-- A scalar ends where a separator follows, or nothing; and what is ahead of a word is not so long that
`StringStartsWith` does not find it. -/
structure Ends (v r : Bytes) : Prop where
  sep : SepNext r
  seen : v ∈ [jsonTrue, jsonFalse, jsonNull] → Seen v (v.length + r.length)

theorem split_separator (r : Bytes) : ∃ v r', r = v ++ r' ∧ (∀ c ∈ v, isSeparator c = false) ∧ SepNext r' := by
  induction r with
  | nil => exact ⟨[], [], rfl, by simp, trivial⟩
  | cons c r ih =>
    cases hc : isSeparator c with
    | true => exact ⟨[], c :: r, rfl, by simp, hc⟩
    | false =>
      obtain ⟨v, r', rfl, hv, hr⟩ := ih
      refine ⟨c :: v, r', rfl, fun x hx => ?_, hr⟩
      rcases List.mem_cons.mp hx with rfl | hx
      · exact hc
      · exact hv x hx

theorem parseNumberLoop_eq {s : Bytes} (h0 : 0 ∉ s) (v : Bytes) : ∀ {p fuel : ℕ} {n : NumberState} {r out : Bytes},
    At s p (v ++ r) → (∀ c ∈ v, isSeparator c = false) → SepNext r → v.length < fuel →
    parseNumberLoop s fuel p n out =
      match numberRun n v with
      | .error e => .error e
      | .ok n' => .ok (n', out ++ v, p + v.length) := by
  induction v with
  | nil =>
    intro p fuel n r out h _ hr hfuel
    obtain ⟨fuel, rfl⟩ : ∃ k, fuel = k + 1 := ⟨fuel - 1, by omega⟩
    cases r with
    | nil =>
      rw [parseNumberLoop, h.peek_nil]
      simp [numberRun]
    | cons c r =>
      have hc : isSeparator c = true := hr
      rw [parseNumberLoop, At.peek_cons h]
      simp [numberRun, hc]
  | cons c v ih =>
    intro p fuel n r out h hv hr hfuel
    rw [List.length_cons] at hfuel
    obtain ⟨fuel, rfl⟩ : ∃ k, fuel = k + 1 := ⟨fuel - 1, by omega⟩
    have hc : isSeparator c = false := hv c List.mem_cons_self
    have hcons : At s p (c :: (v ++ r)) := h
    rw [parseNumberLoop, hcons.peek_cons, numberRun]
    simp only [Outcome.ok_bind, hcons.ne_zero h0, hc, Bool.false_eq_true, or_self, if_false]
    cases numberStep n c with
    | error e => rfl
    | ok n' =>
      dsimp only
      rw [ih hcons.next (fun x hx => hv x (List.mem_cons_of_mem _ hx)) hr (by omega)]
      cases numberRun n' v with
      | error e => rfl
      | ok n'' =>
        simp only [List.append_assoc, List.cons_append, List.nil_append, List.length_cons]
        congr 3
        omega

theorem numberStep_separator (n : NumberState) (hc : isSeparator c = true) :
    ∃ e, numberStep n c = .error e := by
  have hcases : c = ' '.toUInt8 ∨ c = '\t'.toUInt8 ∨ c = '\n'.toUInt8 ∨ c = '\r'.toUInt8 ∨ c = ','.toUInt8 ∨
      c = ']'.toUInt8 ∨ c = '\x7d'.toUInt8 := by
    simpa [isSeparator, isWhitespace, or_assoc] using hc
  have hgen : ∀ x : UInt8, x ≠ '-'.toUInt8 → x ≠ '+'.toUInt8 → x ≠ '0'.toUInt8 → x ≠ '.'.toUInt8 →
      x ≠ 'e'.toUInt8 → x ≠ 'E'.toUInt8 → isDigit x = false → ∃ e, numberStep n x = .error e := by
    intro x h₁ h₂ h₃ h₄ h₅ h₆ h₇
    simp only [numberStep, h₁, h₂, h₃, h₄, h₅, h₆, h₇, if_false, or_self, Bool.false_eq_true, not_false_eq_true,
      if_true]
    split
    · exact ⟨_, rfl⟩
    · exact ⟨_, rfl⟩
  rcases hcases with rfl | rfl | rfl | rfl | rfl | rfl | rfl
  all_goals exact hgen _ (by decide) (by decide) (by decide) (by decide) (by decide) (by decide) (by decide)

theorem numberRun_no_separator : ∀ {n n' : NumberState}, numberRun n v = .ok n' →
    ∀ c ∈ v, isSeparator c = false := by
  induction v with
  | nil => exact fun _ c hc => absurd hc (by simp)
  | cons x v ih =>
    intro n n' h c hc
    rw [numberRun] at h
    cases hs : numberStep n x with
    | error e => rw [hs] at h; exact absurd h (by simp)
    | ok m =>
      rw [hs] at h
      rcases List.mem_cons.mp hc with rfl | hc
      · by_contra hsep
        rw [Bool.not_eq_false] at hsep
        obtain ⟨e, he⟩ := numberStep_separator n hsep
        rw [he] at hs
        exact absurd hs (by simp)
      · exact ih h c hc

section Scalars

variable {s : Bytes} (h0 : 0 ∉ s)
include h0

theorem parseAsNumber_eq (h : At s p (v ++ r)) (hv : ∀ c ∈ v, isSeparator c = false) (hr : SepNext r) :
    parseAsNumber s p =
      match numberRun numberStart v with
      | .error e => .error e
      | .ok n =>
        if endsInDigit n then .ok (.primitive (if n.seenDot then .real else .integer) v, p + v.length - 1)
        else .error .numberDigitEnd := by
  have hlen := h.length_le
  rw [List.length_append] at hlen
  rw [parseAsNumber, parseNumberLoop_eq h0 v h hv hr (by omega)]
  cases hrun : numberRun numberStart v with
  | error e =>
    rw [numberStart] at hrun
    rw [hrun]
    rfl
  | ok n =>
    rw [numberStart] at hrun
    rw [hrun]
    have hiff : (n.prev ≠ '0'.toUInt8 ∧ ¬ isDigit n.prev = true) ↔ ¬ endsInDigit n = true := by
      simp [endsInDigit]
    dsimp only
    rw [Outcome.ok_bind]
    dsimp only
    by_cases he : endsInDigit n = true
    · rw [if_neg (fun hn => hiff.mp hn he), if_pos he, List.nil_append]
    · rw [if_pos (hiff.mpr he), if_neg he]

variable {text : Bytes} {n : NumberState}

omit h0 in
theorem startsWith_eq (h : At s p r) : startsWith s p text = .ok (stringStartsWith r text) := by
  rw [startsWith, if_neg (Nat.not_lt.mpr h.le_length), h.drop_eq]

omit h0 in
theorem stringStartsWith_append (hseen : Seen text (text.length + r.length)) (hshort : text.length < 2 ^ 31) :
    stringStartsWith (text ++ r) text = true := by
  rw [stringStartsWith_iff hshort, List.isPrefixOf_iff_prefix, List.length_append]
  exact ⟨List.prefix_append _ _, hseen⟩

omit h0 in
theorem parseWord_some (h : At s p (text ++ r)) (hshort : text.length < 2 ^ 31) (hr : SepNext r)
    (hseen : Seen text (text.length + r.length)) :
    parseWord s p text = .ok (some (p + text.length - 1)) := by
  have hstart : startsWith s p text = .ok true := by rw [startsWith_eq h, stringStartsWith_append hseen hshort]
  cases r with
  | nil => simp [parseWord, hstart, h.skip.peek_nil]
  | cons c r =>
    have hc : isSeparator c = true := hr
    simp [parseWord, hstart, h.skip.peek_cons, hc]

theorem parseWord_none (h : At s p r) (hshort : text.length < 2 ^ 31)
    (hno : ∀ t, r = text ++ t → SepNext t → ¬ Seen text (text.length + t.length)) :
    parseWord s p text = .ok none := by
  by_cases hpre : stringStartsWith r text = true
  · have hstart : startsWith s p text = .ok true := by rw [startsWith_eq h, hpre]
    obtain ⟨hbegins, hseen⟩ := (stringStartsWith_iff hshort r).mp hpre
    obtain ⟨t, rfl⟩ := List.isPrefixOf_iff_prefix.mp hbegins
    rw [List.length_append] at hseen
    cases t with
    | nil => exact absurd hseen (hno [] rfl trivial)
    | cons c t =>
      have hc : ¬ isSeparator c = true := fun hc => hno (c :: t) rfl hc hseen
      simp [parseWord, hstart, h.skip.peek_cons, hc, h.skip.ne_zero h0]
  · have hstart : startsWith s p text = .ok false := by rw [startsWith_eq h, Bool.eq_false_iff.mpr hpre]
    simp [parseWord, hstart]

theorem parseWord_cases (text : Bytes) (hshort : text.length < 2 ^ 31) (h : At s p r) :
    (∃ t, r = text ++ t ∧ SepNext t ∧ Seen text (text.length + t.length) ∧
        parseWord s p text = .ok (some (p + text.length - 1))) ∨ parseWord s p text = .ok none := by
  by_cases hex : ∃ t, r = text ++ t ∧ SepNext t ∧ Seen text (text.length + t.length)
  · obtain ⟨t, rfl, ht, hseen⟩ := hex
    exact .inl ⟨t, rfl, ht, hseen, parseWord_some h hshort ht hseen⟩
  · exact .inr (parseWord_none h0 h hshort fun t ht hsep hseen => hex ⟨t, ht, hsep, hseen⟩)

/-- `JsonParseAsBoolean` tries the second word only if the first is no prefix; no text has both. -/
theorem parseAsBoolean_eq (h : At s p r) :
    parseAsBoolean s p = (do
      match ← parseWord s p jsonTrue with
      | some q => return some (jsonBoolCreate true, q)
      | none => return (← parseWord s p jsonFalse).map (jsonBoolCreate false, ·)) := by
  by_cases hpre : stringStartsWith r jsonTrue = true
  · have hstart : startsWith s p jsonTrue = .ok true := by rw [startsWith_eq h, hpre]
    have hfalse : parseWord s p jsonFalse = .ok none := by
      refine parseWord_none h0 h (by decide) fun t ht _ => ?_
      obtain ⟨u, hu⟩ := List.isPrefixOf_iff_prefix.mp ((stringStartsWith_iff (by decide) r).mp hpre).1
      rw [ht] at hu
      have hhead := congrArg List.head? hu
      exact absurd hhead (by simp [jsonTrue, jsonFalse, ascii, Char.toUInt8])
    rw [parseAsBoolean, hstart, hfalse]
    rcases parseWord_cases h0 jsonTrue (by decide) h with ⟨t, _, _, _, hw⟩ | hw
    · rw [hw]; rfl
    · rw [hw]; rfl
  · have hstart : startsWith s p jsonTrue = .ok false := by rw [startsWith_eq h, Bool.eq_false_iff.mpr hpre]
    have htrue : parseWord s p jsonTrue = .ok none := by simp [parseWord, hstart]
    rw [parseAsBoolean, hstart, htrue]
    rfl

omit h0 in
theorem number_head (hrun : numberRun numberStart v = .ok n) (hne : v ≠ []) :
    ∃ c t, v = c :: t ∧ (c = '-'.toUInt8 ∨ c = '0'.toUInt8 ∨ isDigit c = true) := by
  cases v with
  | nil => exact absurd rfl hne
  | cons c t =>
    refine ⟨c, t, rfl, ?_⟩
    by_contra hno
    simp only [not_or] at hno
    obtain ⟨h₁, h₂, h₃⟩ := hno
    have hstep : ∃ e, numberStep numberStart c = .error e := by
      simp only [numberStep, numberStart, h₁, h₂, if_false]
      by_cases hp : c = '+'.toUInt8
      · exact ⟨.numberExponentPositive, by simp [hp, Char.toUInt8]⟩
      · by_cases hd : c = '.'.toUInt8
        · exact ⟨.numberNoDigit, by subst hd; rfl⟩
        · by_cases he : c = 'e'.toUInt8 ∨ c = 'E'.toUInt8
          · exact ⟨.numberExponentDigit, by rcases he with rfl | rfl <;> rfl⟩
          · exact ⟨.numberBadSymbol, by simp [hp, hd, he, h₃]⟩
    obtain ⟨e, he⟩ := hstep
    rw [numberRun, he] at hrun
    exact absurd hrun (by simp)

omit h0 in
theorem number_ne_nil (hrun : numberRun numberStart v = .ok n) (hend : endsInDigit n = true) : v ≠ [] := by
  rintro rfl
  rw [numberRun, Except.ok.injEq] at hrun
  subst hrun
  exact absurd hend (by decide)

omit h0 in
theorem scalar_ne_nil {e : JsonElement} (h : Scalar v e) : v ≠ [] := by
  cases h with
  | number hrun hend => exact number_ne_nil hrun hend
  | true => decide
  | false => decide
  | null => decide

omit h0 in
theorem number_ne_word (hend : endsInDigit n = true) (hword : v ∈ [jsonTrue, jsonFalse, jsonNull]) :
    numberRun numberStart v ≠ .ok n := by
  intro hrun
  obtain ⟨c, t, rfl, hc⟩ := number_head hrun (number_ne_nil hrun hend)
  simp only [List.mem_cons, List.not_mem_nil, or_false] at hword
  rcases hword with h | h | h
  · obtain ⟨rfl, -⟩ := List.cons.inj h
    exact absurd hc (by decide)
  · obtain ⟨rfl, -⟩ := List.cons.inj h
    exact absurd hc (by decide)
  · obtain ⟨rfl, -⟩ := List.cons.inj h
    exact absurd hc (by decide)

theorem parseScalar_some {t : Bytes} {e : JsonElement} (hv : Scalar v e) (hr : Ends v r) (h : At s p (v ++ r))
    (hc : v = c :: t) : parseScalar s p c = .ok (some (e, p + v.length - 1)) := by
  cases hv with
  | number hrun hend =>
    obtain ⟨c', t', heq, hhead⟩ := number_head hrun (number_ne_nil hrun hend)
    rw [hc, List.cons.injEq] at heq
    obtain ⟨rfl, rfl⟩ := heq
    rw [parseScalar, if_pos hhead, parseAsNumber_eq h0 h (numberRun_no_separator hrun) hr.sep, hrun]
    dsimp only
    rw [if_pos hend]
    rfl
  | true =>
    have hct : c = 't'.toUInt8 := ((List.cons.inj hc).1).symm
    subst hct
    rw [parseScalar, if_neg (by decide), parseAsBoolean_eq h0 h, parseWord_some h (by decide) hr.sep (hr.seen (by simp))]
    rfl
  | false =>
    have hct : c = 'f'.toUInt8 := ((List.cons.inj hc).1).symm
    subst hct
    have htrue : parseWord s p jsonTrue = .ok none := by
      refine parseWord_none h0 h (by decide) fun u hu _ => ?_
      have hhead := congrArg List.head? hu
      exact absurd hhead (by simp [jsonTrue, jsonFalse, ascii, Char.toUInt8])
    rw [parseScalar, if_neg (by decide), parseAsBoolean_eq h0 h, htrue,
      parseWord_some h (by decide) hr.sep (hr.seen (by simp))]
    rfl
  | null =>
    have hct : c = 'n'.toUInt8 := ((List.cons.inj hc).1).symm
    subst hct
    have hno : ∀ w, w = jsonTrue ∨ w = jsonFalse → parseWord s p w = .ok none := by
      rintro w (rfl | rfl)
      · refine parseWord_none h0 h (by decide) fun u hu _ => ?_
        have hhead := congrArg List.head? hu
        exact absurd hhead (by simp [jsonTrue, jsonNull, ascii, Char.toUInt8])
      · refine parseWord_none h0 h (by decide) fun u hu _ => ?_
        have hhead := congrArg List.head? hu
        exact absurd hhead (by simp [jsonFalse, jsonNull, ascii, Char.toUInt8])
    rw [parseScalar, if_neg (by decide), parseAsBoolean_eq h0 h, hno jsonTrue (.inl rfl), hno jsonFalse (.inr rfl)]
    simp only [Outcome.ok_bind, Outcome.pure_eq, Option.map_none, parseAsNull,
      parseWord_some h (by decide) hr.sep (hr.seen (by simp)), Option.map_some]

theorem parseScalar_cases (h : At s p (c :: r)) :
    (∃ v r' e, c :: r = v ++ r' ∧ Scalar v e ∧ Ends v r' ∧
        parseScalar s p c = .ok (some (e, p + v.length - 1))) ∨
      parseScalar s p c = .ok none ∨ ∃ e, parseScalar s p c = .error e := by
  by_cases hnum : c = '-'.toUInt8 ∨ c = '0'.toUInt8 ∨ isDigit c = true
  · obtain ⟨v, r', hsplit, hv, hr⟩ := split_separator (c :: r)
    have heq := parseAsNumber_eq h0 (hsplit ▸ h) hv hr
    cases hrun : numberRun numberStart v with
    | error e =>
      rw [hrun] at heq
      refine .inr (.inr ⟨e, ?_⟩)
      rw [parseScalar, if_pos hnum, heq]
      rfl
    | ok n =>
      rw [hrun] at heq
      dsimp only at heq
      by_cases hend : endsInDigit n = true
      · rw [if_pos hend] at heq
        refine .inl ⟨v, r', _, hsplit, .number hrun hend, ⟨hr, fun hword => absurd hrun (number_ne_word hend hword)⟩, ?_⟩
        rw [parseScalar, if_pos hnum, heq]
        rfl
      · rw [if_neg hend] at heq
        refine .inr (.inr ⟨.numberDigitEnd, ?_⟩)
        rw [parseScalar, if_pos hnum, heq]
        rfl
  · have hword : ∀ {t : Bytes} {text : Bytes} {e : JsonElement}, c :: r = text ++ t → Ends text t → Scalar text e →
        ∃ v r' e, c :: r = v ++ r' ∧ Scalar v e ∧ Ends v r' ∧
          parseScalar s p c = .ok (some (e, p + v.length - 1)) := by
      intro t text e heq ht hs
      obtain ⟨c', text', htext⟩ := List.exists_cons_of_ne_nil (scalar_ne_nil hs)
      have hcc : c = c' := by
        rw [htext] at heq
        exact (List.cons.inj heq).1
      refine ⟨text, t, e, heq, hs, ht, parseScalar_some h0 hs ht (heq ▸ h) (by rw [htext, hcc])⟩
    rcases parseWord_cases h0 jsonTrue (by decide) h with ⟨t, heq, ht, hseen, _⟩ | h₁
    · exact .inl (hword heq ⟨ht, fun _ => hseen⟩ .true)
    rcases parseWord_cases h0 jsonFalse (by decide) h with ⟨t, heq, ht, hseen, _⟩ | h₂
    · exact .inl (hword heq ⟨ht, fun _ => hseen⟩ .false)
    rcases parseWord_cases h0 jsonNull (by decide) h with ⟨t, heq, ht, hseen, _⟩ | h₃
    · exact .inl (hword heq ⟨ht, fun _ => hseen⟩ .null)
    refine .inr (.inl ?_)
    rw [parseScalar, if_neg hnum, parseAsBoolean_eq h0 h, h₁, h₂]
    simp only [Outcome.ok_bind, Outcome.pure_eq, Option.map_none, parseAsNull, h₃]

end Scalars

/-! ## Unquoted keys -/

def isKeyChar (c : UInt8) : Bool := c == '-'.toUInt8 || isWord c

theorem skipWhile_eq {s : Bytes} (h0 : 0 ∉ s) (accept : UInt8 → Bool) (v : Bytes) : ∀ {p n : ℕ} {r : Bytes},
    At s p (v ++ r) → (∀ c ∈ v, accept c = true) → (∀ c ∈ r.head?, accept c = false) → v.length < n →
    skipWhile s accept n p = .ok (p + v.length) := by
  induction v with
  | nil =>
    intro p fuel r h _ hr hfuel
    obtain ⟨fuel, rfl⟩ : ∃ k, fuel = k + 1 := ⟨fuel - 1, by omega⟩
    cases r with
    | nil =>
      rw [skipWhile, h.peek_nil]
      simp
    | cons c r =>
      have hc := hr c rfl
      rw [skipWhile, At.peek_cons h]
      simp [hc]
  | cons c v ih =>
    intro p fuel r h hv hr hfuel
    rw [List.length_cons] at hfuel
    obtain ⟨fuel, rfl⟩ : ∃ k, fuel = k + 1 := ⟨fuel - 1, by omega⟩
    have hcons : At s p (c :: (v ++ r)) := h
    have hc := hv c List.mem_cons_self
    rw [skipWhile, hcons.peek_cons, Outcome.ok_bind, if_pos ⟨hcons.ne_zero h0, hc⟩,
      ih hcons.next (fun x hx => hv x (List.mem_cons_of_mem _ hx)) hr (by omega), List.length_cons]
    congr 1
    omega

/-- A word that can be a key without quotes. -/
inductive BareWord : Bytes → Prop where
  | mk {c : UInt8} {w : Bytes} : isWord c = true → (∀ x ∈ w, isKeyChar x = true) → BareWord (c :: w)

theorem BareWord.head {w : Bytes} (hw : BareWord w) : ∃ c t, w = c :: t ∧ isKeyChar c = true := by
  obtain ⟨hc, _⟩ := hw
  exact ⟨_, _, rfl, by simp [isKeyChar, hc]⟩

theorem split_while (accept : UInt8 → Bool) (r : Bytes) :
    ∃ v r', r = v ++ r' ∧ (∀ c ∈ v, accept c = true) ∧ ∀ c ∈ r'.head?, accept c = false := by
  induction r with
  | nil => exact ⟨[], [], rfl, by simp, by simp⟩
  | cons c r ih =>
    cases hc : accept c with
    | false => exact ⟨[], c :: r, rfl, by simp, by simpa using hc⟩
    | true =>
      obtain ⟨v, r', rfl, hv, hr⟩ := ih
      refine ⟨c :: v, r', rfl, fun x hx => ?_, hr⟩
      rcases List.mem_cons.mp hx with rfl | hx
      · exact hc
      · exact hv x hx

theorem keyChar_whitespace (h : isWhitespace c = true) : isKeyChar c = false := by
  have hcases : c = ' '.toUInt8 ∨ c = '\t'.toUInt8 ∨ c = '\n'.toUInt8 ∨ c = '\r'.toUInt8 := by
    simpa [isWhitespace, or_assoc] using h
  rcases hcases with rfl | rfl | rfl | rfl
  all_goals decide

section Keys

variable {s : Bytes} (h0 : 0 ∉ s)
include h0

theorem unquotedKey_some {w ws : Bytes} (hw : BareWord w) (hws : ∀ c ∈ ws, isWhitespace c = true)
    (h : At s p (w ++ (ws ++ ':'.toUInt8 :: r))) :
    unquotedKeyWithColon s p = .ok (some (p + w.length, p + w.length + ws.length)) := by
  obtain ⟨hc, hw⟩ := hw
  rename_i c w
  have hlen := h.length_le
  simp only [List.length_append, List.length_cons] at hlen
  have hcons : At s p (c :: (w ++ (ws ++ ':'.toUInt8 :: r))) := h
  have hstop : ∀ x ∈ (ws ++ ':'.toUInt8 :: r).head?, isKeyChar x = false := by
    cases ws with
    | nil =>
      intro x hx
      rw [List.nil_append, List.head?_cons, Option.mem_some_iff] at hx
      subst hx
      decide
    | cons y ws =>
      intro x hx
      rw [List.cons_append, List.head?_cons, Option.mem_some_iff] at hx
      subst hx
      exact keyChar_whitespace (hws y List.mem_cons_self)
  have h₁ := skipWhile_eq h0 isKeyChar w hcons.next hw hstop (n := s.length + 2) (by omega)
  have h₂ := skipWhile_eq h0 isWhitespace ws hcons.next.skip hws (by simp; decide) (n := s.length + 2) (by omega)
  have h₃ := hcons.next.skip.skip.peek_cons
  have hfun : (fun c => c == '-'.toUInt8 || isWord c) = isKeyChar := rfl
  simp only [unquotedKeyWithColon, hcons.peek_cons, Outcome.ok_bind, hc, not_true_eq_false, if_false, hfun, h₁, h₂,
    h₃, ne_eq, Outcome.pure_eq, List.length_cons]
  congr 3
  · omega
  · omega

theorem unquotedKey_cases (h : At s p (c :: r)) :
    (∃ w ws r', BareWord w ∧ (∀ x ∈ ws, isWhitespace x = true) ∧ c :: r = w ++ (ws ++ ':'.toUInt8 :: r')) ∨
      unquotedKeyWithColon s p = .ok none := by
  cases hc : isWord c with
  | false =>
    refine .inr ?_
    simp [unquotedKeyWithColon, h.peek_cons, hc]
  | true =>
    obtain ⟨w, r₁, rfl, hw, hr₁⟩ := split_while isKeyChar r
    obtain ⟨ws, r₂, rfl, hws, hr₂⟩ := split_while isWhitespace r₁
    have hlen := h.length_le
    simp only [List.length_append, List.length_cons] at hlen
    have h₁ := skipWhile_eq h0 isKeyChar w h.next hw hr₁ (n := s.length + 2) (by omega)
    have h₂ := skipWhile_eq h0 isWhitespace ws h.next.skip hws hr₂ (n := s.length + 2) (by omega)
    have hfun : (fun c => c == '-'.toUInt8 || isWord c) = isKeyChar := rfl
    have hend := h.next.skip.skip
    cases r₂ with
    | nil =>
      refine .inr ?_
      simp only [unquotedKeyWithColon, h.peek_cons, Outcome.ok_bind, hc, not_true_eq_false, if_false, hfun, h₁, h₂,
        hend.peek_nil, ne_eq, Outcome.pure_eq]
      rw [if_pos (by decide)]
    | cons x r₂ =>
      by_cases hx : x = ':'.toUInt8
      · subst hx
        exact .inl ⟨c :: w, ws, r₂, .mk hc hw, hws, rfl⟩
      · refine .inr ?_
        simp only [unquotedKeyWithColon, h.peek_cons, Outcome.ok_bind, hc, not_true_eq_false, if_false, hfun, h₁, h₂,
          hend.peek_cons, ne_eq, hx, not_false_eq_true, if_true, Outcome.pure_eq]

end Keys

end Libntech.Json
