import Libntech.Lib.Scanf
import Mathlib.Data.List.TakeWhile
import Mathlib.Tactic.SplitIfs

/-! # What the conversions of `sscanf` find

The C standard calls the longest beginning of a text that a number may begin with the input item of a conversion
(`HexItem`); the conversion fails when the item is not a number. `Finds` says so of a whole format, without the numbers.
-/
namespace Libntech.Lib.Scanf
set_option autoImplicit false

def isHex (c : UInt8) : Bool := (hexDigit c).isSome

/-- `0x` -/
def IsZeroX (z x : UInt8) : Prop := z = '0'.toUInt8 ∧ (x = 'x'.toUInt8 ∨ x = 'X'.toUInt8)

/-- A hexadecimal number without a sign. -/
inductive Unsigned : List UInt8 → Prop where
  | plain {digits : List UInt8} : digits ≠ [] → (∀ c ∈ digits, isHex c = true) → Unsigned digits
  | zeroX {z x : UInt8} {digits : List UInt8} : IsZeroX z x → digits ≠ [] → (∀ c ∈ digits, isHex c = true) →
      Unsigned (z :: x :: digits)

def IsSign (c : UInt8) : Prop := c = '-'.toUInt8 ∨ c = '+'.toUInt8

inductive HexNumber : List UInt8 → Prop where
  | unsigned {text : List UInt8} : Unsigned text → HexNumber text
  | signed {sign : UInt8} {text : List UInt8} : IsSign sign → Unsigned text → HexNumber (sign :: text)

/-- The input item of `%x` at the beginning of a text. -/
structure HexItem (width : ℕ) (text item : List UInt8) : Prop where
  beginning : item <+: text
  within : item.length ≤ width
  begins : ∃ more, HexNumber (item ++ more)
  longest : ∀ other, other <+: text → other.length ≤ width → (∃ more, HexNumber (other ++ more)) → other.length ≤ item.length

/-- A text in which all conversions of a format find a number. -/
inductive Finds : List Directive → List UInt8 → Prop where
  | nil {text : List UInt8} : Finds [] text
  | hex {width : ℕ} {format : List Directive} {blanks item rest : List UInt8} : (∀ c ∈ blanks, isSpace c = true) →
      HexItem width (item ++ rest) item → HexNumber item → Finds format rest →
      Finds (.hex width :: format) (blanks ++ (item ++ rest))
  | literal {c : UInt8} {format : List Directive} {text : List UInt8} : Finds format text →
      Finds (.literal c :: format) (c :: text)

/-! ## Digits -/

theorem splitDigits_hex (s : List UInt8) :
    ((splitDigits hexDigit s).1 = [] ↔ s.takeWhile isHex = []) ∧ (splitDigits hexDigit s).2 = s.dropWhile isHex := by
  induction s with
  | nil => simp [splitDigits]
  | cons c s ih =>
    cases hc : hexDigit c with
    | some d => simp [splitDigits, isHex, hc, ih.2]
    | none => simp [splitDigits, isHex, hc]

theorem isHex_zero : isHex '0'.toUInt8 = true := by decide

theorem IsZeroX.not_isHex {z x : UInt8} (h : IsZeroX z x) : isHex x = false := by
  obtain ⟨-, rfl | rfl⟩ := h
  all_goals decide

variable {s text : List UInt8} {c : UInt8} {format : List Directive} {width : ℕ}

theorem begins_unsigned_iff :
    (∃ more, Unsigned (text ++ more)) ↔
      (∀ c ∈ text, isHex c = true) ∨ ∃ z x digits, text = z :: x :: digits ∧ IsZeroX z x ∧ ∀ c ∈ digits, isHex c = true := by
  constructor
  · rintro ⟨more, h⟩
    generalize hwhole : text ++ more = whole at h
    cases h with
    | plain _ hdigits =>
      refine .inl fun c hc => hdigits c ?_
      rw [← hwhole]
      exact List.mem_append_left _ hc
    | @zeroX z x digits hz _ hdigits =>
      cases text with
      | nil => exact .inl fun c hc => absurd hc List.not_mem_nil
      | cons first text =>
        obtain ⟨rfl, hrest⟩ := List.cons.inj hwhole
        cases text with
        | nil =>
          refine .inl fun c hc => ?_
          rw [List.mem_singleton.mp hc, hz.1]
          exact isHex_zero
        | cons second text =>
          obtain ⟨rfl, rfl⟩ := List.cons.inj hrest
          exact .inr ⟨_, _, text, rfl, hz, fun c hc => hdigits c (List.mem_append_left _ hc)⟩
  · have hzero : ∀ c ∈ ['0'.toUInt8], isHex c = true := fun c hc => by rw [List.mem_singleton.mp hc]; exact isHex_zero
    rintro (hdigits | ⟨z, x, digits, rfl, hz, hdigits⟩)
    · exact ⟨['0'.toUInt8], .plain (by simp) fun c hc => (List.mem_append.mp hc).elim (hdigits c) (hzero c)⟩
    · exact ⟨['0'.toUInt8], .zeroX hz (by simp) fun c hc => (List.mem_append.mp hc).elim (hdigits c) (hzero c)⟩

/-! ## Items -/

theorem length_le_takeWhile {other : List UInt8} (h : other <+: s) (hhex : ∀ c ∈ other, isHex c = true) :
    other.length ≤ (s.takeWhile isHex).length := by
  obtain ⟨rest, rfl⟩ := h
  rw [List.takeWhile_append_of_pos hhex, List.length_append]
  exact Nat.le_add_right _ _

theorem mem_takeWhile_isHex : ∀ c ∈ s.takeWhile isHex, isHex c = true := fun _ hc =>
  List.mem_takeWhile_imp hc

theorem skipHexPrefix_zeroX {z x : UInt8} (s : List UInt8) (h : IsZeroX z x) : skipHexPrefix (z :: x :: s) = s := if_pos h

theorem skipHexPrefix_other (h : ∀ z x rest, s = z :: x :: rest → ¬ IsZeroX z x) : skipHexPrefix s = s := by
  fun_cases skipHexPrefix s with
  | case1 z x rest hz => exact absurd hz (h z x rest rfl)
  | case2 z x rest hz => rfl
  | case3 s hs => rfl

/-- The longest beginning of an unsigned number, and how the digits tell that it is one. -/
theorem unsigned_item (s : List UInt8) :
    ∃ item, s = item ++ (splitDigits hexDigit (skipHexPrefix s)).2 ∧ (∃ more, Unsigned (item ++ more)) ∧
      (∀ other, other <+: s → (∃ more, Unsigned (other ++ more)) → other.length ≤ item.length) ∧
      (Unsigned item ↔ (splitDigits hexDigit (skipHexPrefix s)).1 ≠ []) := by
  by_cases hzero : ∃ z x rest, s = z :: x :: rest ∧ IsZeroX z x
  · obtain ⟨z, x, rest, rfl, hz⟩ := hzero
    rw [skipHexPrefix_zeroX rest hz]
    obtain ⟨hnil, hbehind⟩ := splitDigits_hex rest
    refine ⟨z :: x :: rest.takeWhile isHex, ?_, ?_, fun other hother hbegins => ?_, ?_⟩
    · rw [hbehind, List.cons_append, List.cons_append, List.takeWhile_append_dropWhile]
    · exact begins_unsigned_iff.mpr (.inr ⟨z, x, _, rfl, hz, mem_takeWhile_isHex⟩)
    · rcases begins_unsigned_iff.mp hbegins with hhex | ⟨z', x', digits, rfl, -, hhex⟩
      · -- the second character is no digit
        have hle := length_le_takeWhile hother hhex
        have hone : ((z :: x :: rest).takeWhile isHex).length = 1 := by
          simp [hz.1, isHex_zero, hz.not_isHex]
        rw [List.length_cons, List.length_cons]
        omega
      · obtain ⟨-, hother⟩ := List.cons_prefix_cons.mp hother
        obtain ⟨-, hother⟩ := List.cons_prefix_cons.mp hother
        have hle := length_le_takeWhile hother hhex
        simp only [List.length_cons]
        omega
    · rw [ne_eq, hnil]
      constructor
      · intro h hempty
        rw [hempty] at h
        cases h with
        | plain _ hdigits =>
          have hx := hdigits x (by simp)
          rw [hz.not_isHex] at hx
          cases hx
        | zeroX _ hne _ => exact hne rfl
      · intro hne
        exact .zeroX hz hne mem_takeWhile_isHex
  · have hother : ∀ z x rest, s = z :: x :: rest → ¬ IsZeroX z x := fun z x rest heq hz => hzero ⟨z, x, rest, heq, hz⟩
    rw [skipHexPrefix_other hother]
    obtain ⟨hnil, hbehind⟩ := splitDigits_hex s
    refine ⟨s.takeWhile isHex, ?_, ?_, fun other hprefix hbegins => ?_, ?_⟩
    · rw [hbehind, List.takeWhile_append_dropWhile]
    · exact begins_unsigned_iff.mpr (.inl mem_takeWhile_isHex)
    · rcases begins_unsigned_iff.mp hbegins with hhex | ⟨z, x, digits, rfl, hz, -⟩
      · exact length_le_takeWhile hprefix hhex
      · obtain ⟨rest, hs⟩ := hprefix
        exact absurd hz (hother z x (digits ++ rest) hs.symm)
    · rw [ne_eq, hnil]
      constructor
      · intro h hempty
        rw [hempty] at h
        cases h with
        | plain hne _ => exact hne rfl
      · intro hne
        exact .plain hne mem_takeWhile_isHex

theorem IsSign.not_unsigned (h : IsSign c) (s : List UInt8) : ¬ Unsigned (c :: s) := by
  intro hunsigned
  have hc : isHex c = true := by
    cases hunsigned with
    | plain _ hdigits => exact hdigits c List.mem_cons_self
    | zeroX hz _ _ =>
      rw [hz.1]
      exact isHex_zero
  rcases h with rfl | rfl
  all_goals exact absurd hc (by decide)

theorem hexNumber_signed (h : IsSign c) (s : List UInt8) : HexNumber (c :: s) ↔ Unsigned s := by
  constructor
  · intro hnumber
    cases hnumber with
    | unsigned hunsigned => exact absurd hunsigned (h.not_unsigned s)
    | signed _ hunsigned => exact hunsigned
  · exact .signed h

theorem hexNumber_unsigned (h : ∀ c, s.head? = some c → ¬ IsSign c) : HexNumber s ↔ Unsigned s := by
  constructor
  · intro hnumber
    cases hnumber with
    | unsigned hunsigned => exact hunsigned
    | signed hsign _ => exact absurd hsign (h _ rfl)
  · exact .unsigned

theorem splitSign_signed (h : IsSign c) (s : List UInt8) : (splitSign (c :: s)).2 = s := by
  rcases h with rfl | rfl
  all_goals rfl

theorem splitSign_unsigned (h : ∀ c, s.head? = some c → ¬ IsSign c) : (splitSign s).2 = s := by
  cases s with
  | nil => rfl
  | cons c s =>
    have hc := h c rfl
    rw [IsSign, not_or] at hc
    simp [splitSign, hc]

/-- The item of a text that is cut to the width, and how the digits tell that it is a number. -/
theorem signed_item (s : List UInt8) :
    ∃ item, s = item ++ (splitDigits hexDigit (skipHexPrefix (splitSign s).2)).2 ∧ (∃ more, HexNumber (item ++ more)) ∧
      (∀ other, other <+: s → (∃ more, HexNumber (other ++ more)) → other.length ≤ item.length) ∧
      (HexNumber item ↔ (splitDigits hexDigit (skipHexPrefix (splitSign s).2)).1 ≠ []) := by
  by_cases hsign : ∃ c rest, s = c :: rest ∧ IsSign c
  · obtain ⟨c, rest, rfl, hc⟩ := hsign
    rw [splitSign_signed hc]
    obtain ⟨item, hrest, ⟨more, hbegins⟩, hlongest, hnumber⟩ := unsigned_item rest
    refine ⟨c :: item, by rw [List.cons_append, ← hrest], ⟨more, .signed hc hbegins⟩, fun other hother hother' => ?_, ?_⟩
    · cases other with
      | nil => exact Nat.zero_le _
      | cons d other =>
        obtain ⟨rfl, htail⟩ := List.cons_prefix_cons.mp hother
        obtain ⟨more', hmore⟩ := hother'
        exact Nat.succ_le_succ (hlongest other htail ⟨more', (hexNumber_signed hc _).mp hmore⟩)
    · rw [hexNumber_signed hc, hnumber]
  · have hhead : ∀ c, s.head? = some c → ¬ IsSign c := by
      intro c hc hsign'
      obtain ⟨rest, rfl⟩ := List.head?_eq_some_iff.mp hc
      exact hsign ⟨c, rest, rfl, hsign'⟩
    rw [splitSign_unsigned hhead]
    obtain ⟨item, hrest, ⟨more, hbegins⟩, hlongest, hnumber⟩ := unsigned_item s
    have hunsigned {other more : List UInt8} (hother : other <+: s) (hne : other ≠ []) (h : HexNumber (other ++ more)) :
        Unsigned (other ++ more) := by
      obtain ⟨d, other, rfl⟩ := List.exists_cons_of_ne_nil hne
      refine (hexNumber_unsigned fun c hc => ?_).mp h
      obtain ⟨rest, hs⟩ := hother
      exact hhead c (by rw [← hs]; exact hc)
    refine ⟨item, hrest, ⟨more, .unsigned hbegins⟩, fun other hother hother' => ?_, ?_⟩
    · by_cases hne : other = []
      · rw [hne]
        exact Nat.zero_le _
      · obtain ⟨more', hmore⟩ := hother'
        exact hlongest other hother ⟨more', hunsigned hother hne hmore⟩
    · rw [← hnumber]
      refine hexNumber_unsigned fun c hc => hhead c ?_
      obtain ⟨item', rfl⟩ := List.head?_eq_some_iff.mp hc
      rw [hrest]
      rfl

/-- `%x` reads the input item behind the blanks, and finds a number if the item is one. -/
theorem scanHex_item (width : ℕ) (s : List UInt8) :
    ∃ item rest, s.dropWhile isSpace = item ++ rest ∧ HexItem width (item ++ rest) item ∧
      (HexNumber item → ∃ n, scanHex width s = some (n, rest)) ∧ (¬ HexNumber item → scanHex width s = none) := by
  obtain ⟨text, htext⟩ : ∃ text, text = s.dropWhile isSpace := ⟨_, rfl⟩
  obtain ⟨item, hitem, hbegins, hlongest, hnumber⟩ := signed_item (text.take width)
  have hsplit : text = item ++ ((splitDigits hexDigit (skipHexPrefix (splitSign (text.take width)).2)).2 ++ text.drop width) := by
    rw [← List.append_assoc, ← hitem, List.take_append_drop]
  have hscan : scanHex width s =
      if (splitDigits hexDigit (skipHexPrefix (splitSign (text.take width)).2)).1 = [] then none
      else some (signed (splitSign (text.take width)).1
          (digitsValue 16 (splitDigits hexDigit (skipHexPrefix (splitSign (text.take width)).2)).1),
        (splitDigits hexDigit (skipHexPrefix (splitSign (text.take width)).2)).2 ++ text.drop width) := by
    rw [scanHex, htext]
  rw [← htext]
  refine ⟨item, _, hsplit, ?_, fun h => ?_, fun h => ?_⟩
  · rw [← hsplit]
    refine ⟨⟨_, hsplit.symm⟩, ?_, hbegins, fun other hother hwidth => hlongest other ?_⟩
    · have hlength := congrArg List.length hitem
      rw [List.length_append, List.length_take] at hlength
      omega
    · exact List.prefix_take_iff.mpr ⟨hother, hwidth⟩
  · rw [hscan, if_neg (hnumber.mp h)]
    exact ⟨_, rfl⟩
  · rw [hscan, if_pos (not_not.mp fun hne => h (hnumber.mpr hne))]

/-! ## Formats -/

theorem HexNumber.not_space (h : HexNumber text) : ∃ c rest, text = c :: rest ∧ isSpace c = false := by
  have hhex {c : UInt8} (hc : isHex c = true) : isSpace c = false := by
    by_contra hspace
    rw [Bool.not_eq_false] at hspace
    simp only [isSpace, Bool.or_eq_true, Bool.and_eq_true, decide_eq_true_eq, beq_iff_eq] at hspace
    simp only [isHex, hexDigit] at hc
    rcases hspace with rfl | ⟨h9, h13⟩
    · exact absurd hc (by decide)
    · have h0 : ¬ '0'.toUInt8 ≤ c := fun hle => absurd (UInt8.le_trans hle h13) (by decide)
      have ha : ¬ 'a'.toUInt8 ≤ c := fun hle => absurd (UInt8.le_trans hle h13) (by decide)
      have hA : ¬ 'A'.toUInt8 ≤ c := fun hle => absurd (UInt8.le_trans hle h13) (by decide)
      simp [h0, ha, hA] at hc
  have hunsigned {text : List UInt8} (h : Unsigned text) : ∃ c rest, text = c :: rest ∧ isSpace c = false := by
    cases h with
    | plain hne hdigits =>
      obtain ⟨c, rest, rfl⟩ := List.exists_cons_of_ne_nil hne
      exact ⟨c, rest, rfl, hhex (hdigits c List.mem_cons_self)⟩
    | zeroX hz _ _ => exact ⟨_, _, rfl, by rw [hz.1]; decide⟩
  cases h with
  | unsigned h => exact hunsigned h
  | signed hsign _ =>
    refine ⟨_, _, rfl, ?_⟩
    rcases hsign with rfl | rfl
    all_goals decide

theorem HexItem.unique {item other : List UInt8} (h : HexItem width text item) (h' : HexItem width text other) :
    item = other := by
  have hle := h'.longest item h.beginning h.within h.begins
  have hge := h.longest other h'.beginning h'.within h'.begins
  rw [← List.prefix_iff_eq_take.mp h.beginning |>.symm, ← List.prefix_iff_eq_take.mp h'.beginning |>.symm]
  congr 1
  omega

theorem finds_hex_iff :
    Finds (.hex width :: format) s ↔ ∃ n rest, scanHex width s = some (n, rest) ∧ Finds format rest := by
  obtain ⟨item, rest, hsplit, hitem, hfound, hnone⟩ := scanHex_item width s
  constructor
  · intro h
    generalize hformat : Directive.hex width :: format = whole at h
    cases h with
    | nil => cases hformat
    | literal _ => cases hformat
    | @hex width' format' blanks item' rest' hblanks hitem' hnumber hrest =>
      obtain ⟨hwidth, rfl⟩ := List.cons.inj hformat
      obtain rfl := Directive.hex.inj hwidth
      obtain ⟨c, tail, htail, hspace⟩ := hnumber.not_space
      have hdrop : (blanks ++ (item' ++ rest')).dropWhile isSpace = item' ++ rest' := by
        rw [List.dropWhile_append_of_pos hblanks, htail, List.cons_append, List.dropWhile_cons_of_neg (by simp [hspace])]
      rw [hdrop] at hsplit
      rw [← hsplit] at hitem
      obtain rfl := hitem'.unique hitem
      obtain rfl := List.append_cancel_left hsplit
      obtain ⟨n, hn⟩ := hfound hnumber
      exact ⟨n, rest', hn, hrest⟩
  · rintro ⟨n, rest', hscan, hrest⟩
    have hnumber : HexNumber item := by
      by_contra hne
      rw [hnone hne] at hscan
      cases hscan
    obtain ⟨n', hn'⟩ := hfound hnumber
    rw [hn'] at hscan
    cases hscan
    rw [← List.takeWhile_append_dropWhile (p := isSpace) (l := s), hsplit]
    exact .hex (fun c hc => List.mem_takeWhile_imp hc) hitem hnumber hrest

theorem finds_literal_iff : Finds (.literal c :: format) s ↔ ∃ rest, s = c :: rest ∧ Finds format rest := by
  constructor
  · intro h
    generalize hformat : Directive.literal c :: format = whole at h
    cases h with
    | nil => cases hformat
    | hex _ _ _ _ => cases hformat
    | literal h =>
      obtain ⟨hc, rfl⟩ := List.cons.inj hformat
      obtain rfl := Directive.literal.inj hc
      exact ⟨_, rfl, h⟩
  · rintro ⟨rest, rfl, h⟩
    exact .literal h

/-- Formats of `%x`, with no character behind the last one. -/
def HexFormat : List Directive → Prop
  | [] => True
  | .hex _ :: format => HexFormat format
  | .literal _ :: format => HexFormat format ∧ 0 < conversions format
  | .decimal :: _ => False

/-- All conversions assign a number exactly when the text has one for each. -/
theorem finds_iff (h : HexFormat format) (s : List UInt8) :
    Finds format s ↔ (sscanf format s).length = conversions format := by
  induction format generalizing s with
  | nil => exact iff_of_true .nil rfl
  | cons directive format ih =>
    cases directive with
    | decimal => exact absurd h id
    | hex width =>
      have hcount : conversions (.hex width :: format) = conversions format + 1 := by simp [conversions]
      rw [finds_hex_iff, sscanf, hcount]
      cases hscan : scanHex width s with
      | none => simp
      | some found =>
        have hrest := ih h found.2
        simp only [List.length_cons, Nat.add_right_cancel_iff, ← hrest]
        constructor
        · rintro ⟨n, rest, hfound, hfinds⟩
          cases hfound
          exact hfinds
        · intro hfinds
          exact ⟨found.1, found.2, rfl, hfinds⟩
    | literal c =>
      have hcount : conversions (.literal c :: format) = conversions format := by simp [conversions]
      rw [finds_literal_iff, hcount]
      cases s with
      | nil => simp [sscanf, Nat.ne_of_lt h.2]
      | cons d s =>
        rw [sscanf]
        split
        next heq => simp [heq, ih h.1 s]
        next hne => simp [Ne.symm hne, Nat.ne_of_lt h.2]

theorem finds_digits (hwidth : 1 ≤ width) (n : ℕ) {digits rest : List UInt8} (hlength : digits.length = n * width)
    (hdigits : ∀ c ∈ digits, isHex c = true) (h : Finds format rest) :
    Finds (.replicate n (.hex width) ++ format) (digits ++ rest) := by
  induction n generalizing digits with
  | zero =>
    rw [Nat.zero_mul] at hlength
    rw [List.eq_nil_of_length_eq_zero hlength]
    exact h
  | succ n ih =>
    rw [Nat.succ_mul] at hlength
    have hitem : (digits.take width).length = width := by
      rw [List.length_take]
      omega
    have hne : digits.take width ≠ [] := by
      intro hnil
      rw [hnil, List.length_nil] at hitem
      omega
    have hnumber : HexNumber (digits.take width) := .unsigned (.plain hne fun c hc => hdigits c (List.mem_of_mem_take hc))
    have hrest := @ih (digits.drop width) (by rw [List.length_drop]; omega) fun c hc => hdigits c (List.mem_of_mem_drop hc)
    have htext : digits ++ rest = [] ++ (digits.take width ++ (digits.drop width ++ rest)) := by
      rw [List.nil_append, ← List.append_assoc, List.take_append_drop]
    rw [htext, List.replicate_succ, List.cons_append]
    refine .hex (by simp) ⟨⟨_, rfl⟩, Nat.le_of_eq hitem, ⟨[], by rwa [List.append_nil]⟩, fun other _ hother _ => ?_⟩ hnumber hrest
    exact hother.trans (Nat.le_of_eq hitem.symm)

end Libntech.Lib.Scanf
