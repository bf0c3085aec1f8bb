import Libntech.Containers.SubstitutionPasses

/-! # What PCRE2 reads after the passes

The passes see bytes and not the parts of the substitution string, and the later ones see the texts that the first one
has put in. So a text may read as more than itself: its dollar signs and digits, and backslashes before digits, join
with what stands around them. `Harmless` says that nothing of the kind happens, and PCRE2 then reads what is meant.
-/
namespace Libntech.Containers.Template
set_option autoImplicit false

open Libntech.Json (Bytes CString ascii decimal)

/-! ## The substitution string with the texts in it -/

/-- The texts are put in byte by byte. -/
def Token.filled (texts : Special → Bytes) : Token → List Token
  | .special kind => (texts kind).map .byte
  | token => [token]

def filled (texts : Special → Bytes) (tokens : List Token) : List Token := tokens.flatMap (Token.filled texts)

/-- The bytes of a part, with `mark` before the digits of a reference with a backslash. -/
def Token.spell (mark : UInt8) : Token → Bytes
  | .byte c => [c]
  | .escape => [dollarSign, dollarSign]
  | .special _ => []
  | .reference .dollar name _ => dollarSign :: name
  | .reference .backslash name _ => mark :: name
  | .reference .braces name _ => dollarSign :: openBrace :: (name ++ [closeBrace])

def spell (mark : UInt8) (tokens : List Token) : Bytes := tokens.flatMap (Token.spell mark)

theorem spell_cons (mark : UInt8) (t : Token) (tokens : List Token) :
    spell mark (t :: tokens) = t.spell mark ++ spell mark tokens := rfl

theorem spell_braces (mark : UInt8) (name : Bytes) (item : Item) (tokens : List Token) :
    spell mark (.reference .braces name item :: tokens) =
      dollarSign :: openBrace :: (name ++ closeBrace :: spell mark tokens) := by
  simp [spell_cons, Token.spell]

theorem spell_append (mark : UInt8) (A B : List Token) : spell mark (A ++ B) = spell mark A ++ spell mark B :=
  List.flatMap_append

/-- A token that is not a special sequence, with a name that is one. -/
def Token.Proper : Token → Prop
  | .special _ => False
  | .reference form name item => Names name item ∧ (form = .backslash → ∃ k, item = .group k)
  | _ => True

def Proper (tokens : List Token) : Prop := ∀ t ∈ tokens, t.Proper

theorem Proper.tail {t : Token} {tokens : List Token} (h : Proper (t :: tokens)) : Proper tokens :=
  fun t' ht' => h t' (List.mem_cons_of_mem _ ht')

variable {name t w : Bytes} {tokens : List Token} {item : Item} {c : UInt8}

theorem Proper.head {t : Token} (h : Proper (t :: tokens)) : t.Proper := h t List.mem_cons_self

theorem filled_meaning (n : ℕ) (texts : Special → Bytes) (tokens : List Token) :
    (filled texts tokens).flatMap (Token.meaning n texts) = tokens.flatMap (Token.meaning n texts) := by
  rw [filled, List.flatMap_assoc]
  congr 1
  funext t
  cases t with
  | special kind =>
    rw [Token.filled, List.flatMap_map]
    exact List.map_eq_flatMap.symm
  | byte c => simp [Token.filled]
  | escape => simp [Token.filled]
  | reference form name item => simp [Token.filled]

/-! ## Names -/

section Names

variable {name : Bytes} {item : Item} (h : Names name item)
include h

theorem Names.ne_nil : name ≠ [] := by
  cases h with
  | number hne => exact hne
  | word hne => exact hne
  | mark => decide

theorem Names.chars : ∀ c ∈ name, isWord c = true ∨ c = '*'.toUInt8 := by
  intro c hc
  cases h with
  | number _ hdigits =>
    left
    rw [isWord, hdigits c hc]
    rfl
  | word _ hword => exact .inl (hword c hc)
  | mark =>
    have hmark : (ascii "*MARK").all (fun c => isWord c || c = '*'.toUInt8) = true := by decide
    simpa using List.all_eq_true.mp hmark c hc

theorem Names.head (rest : Bytes) : (name ++ rest).headD 0 = name.headD 0 ∧ name.headD 0 ∈ name := by
  cases name with
  | nil => exact absurd rfl h.ne_nil
  | cons c name => exact ⟨rfl, List.mem_cons_self⟩

end Names

theorem Names.off (h : Names name item) (hword : isWord c = false) (hstar : c ≠ '*'.toUInt8) : c ∉ name := by
  intro hc
  obtain hc | hc := h.chars c hc
  · rw [hword] at hc
    cases hc
  · exact hstar hc

theorem Names.no_dollar (h : Names name item) : dollarSign ∉ name :=
  h.off (by decide) (by decide)

theorem Names.no_backslash (h : Names name item) : backslash ∉ name :=
  h.off (by decide) (by decide)

theorem special_word {kind : Special} (h : special c = some kind) :
    isWord c = false ∧ c ≠ '*'.toUInt8 ∧ c ≠ dollarSign ∧ c ≠ backslash ∧ c ≠ openBrace := by
  unfold special at h
  split at h
  · next hc => subst hc; decide
  · split at h
    · next hc => subst hc; decide
    · split at h
      · next hc => subst hc; decide
      · split at h
        · next hc => subst hc; decide
        · cases h

theorem Names.no_special (h : Names name item) (rest : Bytes) : special ((name ++ rest).headD 0) = none := by
  obtain ⟨hhead, hmem⟩ := h.head rest
  rw [hhead]
  cases hs : special (name.headD 0) with
  | none => rfl
  | some kind => exact absurd hmem (h.off (special_word hs).1 (special_word hs).2.1)

/-! ## The first pass -/

/-- No `$$` is followed by a character that is special behind a dollar sign. -/
def Plain : List Token → Prop
  | [] => True
  | t :: rest => (t = .escape → ∀ c rest', rest = .byte c :: rest' → special c = none) ∧ Plain rest

section First

variable (texts : Special → Bytes)

theorem replaceSpecials_cons (hc : c ≠ dollarSign) (t : Bytes) :
    replaceSpecials texts (c :: t) = c :: replaceSpecials texts t := by
  cases t with
  | nil => rfl
  | cons d t => rw [replaceSpecials, if_neg hc]

theorem replaceSpecials_dollar {t : Bytes} (h : special (t.headD 0) = none) :
    replaceSpecials texts (dollarSign :: t) = dollarSign :: replaceSpecials texts t := by
  cases t with
  | nil => rfl
  | cons d t =>
    rw [List.headD_cons] at h
    rw [replaceSpecials, if_pos rfl, h]

theorem replaceSpecials_append (hw : dollarSign ∉ w) (t : Bytes) :
    replaceSpecials texts (w ++ t) = w ++ replaceSpecials texts t := by
  induction w with
  | nil => rfl
  | cons c w ih =>
    rw [List.mem_cons, not_or] at hw
    rw [List.cons_append, replaceSpecials_cons texts (Ne.symm hw.1), ih hw.2, List.cons_append]

theorem special_dollarSign : special dollarSign = none := by decide

theorem special_backslash : special backslash = none := by decide

theorem special_openBrace : special openBrace = none := by decide

theorem special_closeBrace : special closeBrace = none := by decide

theorem replaceSpecials_braces (h : Names name item) (t : Bytes) :
    replaceSpecials texts (dollarSign :: openBrace :: (name ++ closeBrace :: t)) =
      dollarSign :: openBrace :: (name ++ closeBrace :: replaceSpecials texts t) := by
  rw [@replaceSpecials_dollar texts (openBrace :: _) special_openBrace, replaceSpecials_cons texts (by decide),
    replaceSpecials_append texts h.no_dollar, replaceSpecials_cons texts (by decide)]

/-- What stands behind `$$` does not make a special sequence of its second dollar sign. -/
theorem special_behind_escape (h : Lexes t tokens) (hplain : Plain (.escape :: tokens)) : special (t.headD 0) = none := by
  cases h with
  | nil => decide
  | byte hc hb h => exact hplain.1 rfl _ _ rfl
  | escape h => exact special_dollarSign
  | special hs h => exact special_dollarSign
  | backslash hname hends h => exact special_backslash
  | name hname hends h => exact special_dollarSign
  | braces hname h => exact special_dollarSign

theorem filled_cons (t : Token) (tokens : List Token) :
    filled texts (t :: tokens) = t.filled texts ++ filled texts tokens := rfl

theorem spell_bytes (mark : UInt8) (text : Bytes) : spell mark (text.map .byte) = text := by
  rw [spell, List.flatMap_map]
  exact List.flatMap_singleton' text

theorem replaceSpecials_lexes (h : Lexes t tokens) (hplain : Plain tokens) :
    replaceSpecials texts t = spell backslash (filled texts tokens) := by
  induction h with
  | nil => rfl
  | byte hc hb h ih =>
    rw [replaceSpecials_cons texts hc, ih hplain.2]
    rfl
  | escape h ih =>
    rw [@replaceSpecials_dollar texts (dollarSign :: _) special_dollarSign,
      replaceSpecials_dollar texts (special_behind_escape h hplain), ih hplain.2]
    rfl
  | special hs h ih =>
    rw [replaceSpecials, if_pos rfl, hs, filled_cons, spell_append, Token.filled, spell_bytes, ih hplain.2]
  | backslash hname hends h ih =>
    rw [replaceSpecials_cons texts (by decide), replaceSpecials_append texts hname.no_dollar, ih hplain.2]
    rfl
  | name hname hends h ih =>
    rw [replaceSpecials_dollar texts (hname.no_special _), replaceSpecials_append texts hname.no_dollar, ih hplain.2]
    rfl
  | braces hname h ih =>
    rw [replaceSpecials_braces texts hname, ih hplain.2, ← spell_braces]
    rfl

end First

theorem Lexes.proper_filled (texts : Special → Bytes) (h : Lexes t tokens) :
    Proper (filled texts tokens) := by
  have hcons : ∀ (tok : Token) {tokens : List Token}, tok.Proper → Proper (filled texts tokens) →
      Proper (tok :: filled texts tokens) := fun tok _ htok hrest => List.forall_mem_cons.mpr ⟨htok, hrest⟩
  induction h with
  | nil => exact fun t ht => absurd ht List.not_mem_nil
  | byte hc hb h ih => exact hcons _ trivial ih
  | escape h ih => exact hcons _ trivial ih
  | special hs h ih =>
    intro tok htok
    rw [filled_cons, List.mem_append] at htok
    obtain htok | htok := htok
    · obtain ⟨c, -, rfl⟩ := List.mem_map.mp htok
      trivial
    · exact ih tok htok
  | backslash hname hends h ih => exact hcons _ ⟨hname, fun _ => ⟨_, rfl⟩⟩ ih
  | name hname hends h ih => exact hcons _ ⟨hname, fun hform => by cases hform⟩ ih
  | braces hname h ih => exact hcons _ ⟨hname, fun hform => by cases hform⟩ ih

/-! ## The second pass -/

/-- The byte that leads the tokens is a digit. -/
def leadsDigit : List Token → Bool
  | .byte c :: _ => isdigit c
  | _ => false

theorem spell_head {mark : UInt8} (hmark : isdigit mark = false) (h : Proper tokens) :
    isdigit ((spell mark tokens).headD 0) = leadsDigit tokens := by
  cases tokens with
  | nil => rfl
  | cons t tokens =>
    cases t with
    | byte c => rfl
    | escape => exact dollarSign_not_digit
    | special kind => exact absurd h.head id
    | reference form name item =>
      cases form with
      | dollar => exact dollarSign_not_digit
      | backslash => exact hmark
      | braces => exact dollarSign_not_digit

/-- No backslash comes to stand before a digit. -/
def NoPair : List Token → Prop
  | [] => True
  | t :: rest => (t = .byte backslash → leadsDigit rest = false) ∧ NoPair rest

theorem translate_append (hw : backslash ∉ w) (t : Bytes) :
    translateBackslashes (w ++ t) = w ++ translateBackslashes t := by
  induction w with
  | nil => rfl
  | cons c w ih =>
    rw [List.mem_cons, not_or] at hw
    have hc : ¬ (c = backslash ∧ isdigit ((w ++ t).headD 0) = true) := fun h => hw.1 h.1.symm
    rw [List.cons_append, translateBackslashes, if_neg hc, ih hw.2, List.cons_append]

theorem Names.group_digits {k : ℕ} (h : Names name (.group k)) :
    (∀ c ∈ name, isdigit c = true) ∧ digitsValue name = k := by
  cases h with
  | number _ hdigits => exact ⟨hdigits, rfl⟩

/-- Every token but a backslash byte: the pass changes the mark only. -/
theorem translate_token {t : Token} (h : t.Proper) (hbyte : t ≠ .byte backslash) (rest : Bytes) :
    translateBackslashes (t.spell backslash ++ rest) = t.spell dollarSign ++ translateBackslashes rest := by
  cases t with
  | byte c =>
    have hc : backslash ∉ [c] := by
      rw [List.mem_singleton]
      rintro rfl
      exact hbyte rfl
    exact translate_append hc rest
  | escape => exact translate_append (by decide) rest
  | special kind => rfl
  | reference form name item =>
    obtain ⟨hname, hgroup⟩ := h
    cases form with
    | dollar =>
      have hw : backslash ∉ dollarSign :: name := by
        rw [List.mem_cons, not_or]
        exact ⟨by decide, hname.no_backslash⟩
      exact translate_append hw rest
    | backslash =>
      obtain ⟨k, rfl⟩ := hgroup rfl
      obtain ⟨hhead, hmem⟩ := hname.head rest
      have hdigit : isdigit ((name ++ rest).headD 0) = true := by
        rw [hhead]
        exact hname.group_digits.1 _ hmem
      show translateBackslashes (backslash :: (name ++ rest)) = dollarSign :: (name ++ translateBackslashes rest)
      rw [translateBackslashes, if_pos ⟨rfl, hdigit⟩, translate_append hname.no_backslash]
    | braces =>
      have hw : backslash ∉ dollarSign :: openBrace :: (name ++ [closeBrace]) := by
        simp only [List.mem_cons, List.mem_append, List.not_mem_nil, or_false, not_or]
        exact ⟨by decide, by decide, hname.no_backslash, by decide⟩
      exact translate_append hw rest

theorem translate_backslash (rest : Bytes) : translateBackslashes (backslash :: rest) =
    (if isdigit (rest.headD 0) = true then dollarSign else backslash) :: translateBackslashes rest := by
  rw [translateBackslashes]
  simp

theorem translate_spell (h : Proper tokens) (hpair : NoPair tokens) :
    translateBackslashes (spell backslash tokens) = spell dollarSign tokens := by
  induction tokens with
  | nil => rfl
  | cons t tokens ih =>
    rw [spell_cons, spell_cons, ← ih h.tail hpair.2]
    by_cases hbyte : t = .byte backslash
    · subst hbyte
      show translateBackslashes (backslash :: spell backslash tokens) = backslash :: _
      rw [translate_backslash, spell_head (by decide) h.tail, hpair.1 rfl]
      rfl
    · exact translate_token h.head hbyte _

theorem scanLoop_append (w t : Bytes) (s : Scan) : ∃ s', scanLoop s (w ++ t) = scanLoop s' t := by
  induction w generalizing s with
  | nil => exact ⟨s, rfl⟩
  | cons c w ih => exact ih _

/-- Where the scan sees no backslash before a digit there is no such reference. -/
theorem no_backslash_of_scan (h : Lexes t tokens) :
    ∀ {s : Scan}, (scanLoop s t).hasBackslashBref = false → ∀ name item, .reference .backslash name item ∉ tokens := by
  induction h with
  | nil => exact fun _ _ _ hmem => absurd hmem List.not_mem_nil
  | byte hc hb h ih =>
    intro s hs name item hmem
    cases hmem with
    | tail _ hmem => exact ih hs name item hmem
  | escape h ih =>
    intro s hs name item hmem
    cases hmem with
    | tail _ hmem => exact ih hs name item hmem
  | special hspecial h ih =>
    intro s hs name item hmem
    cases hmem with
    | tail _ hmem => exact ih hs name item hmem
  | @backslash digits t k tokens hname hends h ih =>
    intro s hs
    obtain ⟨hhead, hmem⟩ := hname.head t
    have hdigit : isdigit ((digits ++ t).headD 0) = true := by
      rw [hhead]
      exact hname.group_digits.1 _ hmem
    have htrue : (scanLoop s (backslash :: (digits ++ t))).hasBackslashBref = true := by
      rw [scanLoop]
      refine scanLoop_backslash ?_ _
      have hnot : ¬ (backslash = dollarSign ∧ (special ((digits ++ t).headD 0)).isSome = true) :=
        fun h => absurd h.1 (by decide)
      unfold scanStep
      rw [if_neg hnot, if_pos ⟨rfl, hdigit⟩]
    rw [htrue] at hs
    cases hs
  | @name name t item tokens hname hends h ih =>
    intro s hs name' item' hmem
    obtain ⟨s', hs'⟩ := scanLoop_append (dollarSign :: name) t s
    cases hmem with
    | tail _ hmem => exact ih (hs'.symm ▸ hs) name' item' hmem
  | @braces name t item tokens hname h ih =>
    intro s hs name' item' hmem
    obtain ⟨s', hs'⟩ := scanLoop_append (dollarSign :: openBrace :: (name ++ [closeBrace])) t s
    rw [List.cons_append, List.cons_append, List.append_assoc, List.singleton_append] at hs'
    cases hmem with
    | tail _ hmem => exact ih (hs'.symm ▸ hs) name' item' hmem

theorem spell_congr (mark mark' : UInt8) (h : ∀ name item, .reference .backslash name item ∉ tokens) :
    spell mark tokens = spell mark' tokens := by
  unfold spell
  refine List.flatMap_congr fun t ht => ?_
  cases t with
  | reference form name item =>
    cases form with
    | backslash => exact absurd ht (h name item)
    | dollar => rfl
    | braces => rfl
  | byte c => rfl
  | escape => rfl
  | special kind => rfl

theorem reference_mem_filled {texts : Special → Bytes} {form : Form}
    (h : .reference form name item ∈ filled texts tokens) : .reference form name item ∈ tokens := by
  obtain ⟨t, ht, hmem⟩ := List.mem_flatMap.mp h
  cases t with
  | special kind =>
    obtain ⟨c, -, hc⟩ := List.mem_map.mp hmem
    cases hc
  | byte c => cases List.mem_singleton.mp hmem
  | escape => cases List.mem_singleton.mp hmem
  | reference form' name' item' =>
    cases List.mem_singleton.mp hmem
    exact ht

/-! ## The last pass -/

section Last

variable {n : ℕ}

theorem not_above {t : Bytes} (h : isdigit (t.headD 0) = false) : ¬ Above n t := by
  rw [Above, digits_of_head h, digitsValue_nil]
  omega

theorem deleted_cons (hc : c ≠ dollarSign) (t : Bytes) :
    deleted n false (c :: t) = c :: deleted n false t := by
  rw [deleted]
  simp [hc]

theorem deleted_append (hw : dollarSign ∉ w) (t : Bytes) :
    deleted n false (w ++ t) = w ++ deleted n false t := by
  induction w with
  | nil => rfl
  | cons c w ih =>
    rw [List.mem_cons, not_or] at hw
    rw [List.cons_append, deleted_cons (Ne.symm hw.1), ih hw.2, List.cons_append]

theorem deleted_dollar (skipping : Bool) (t : Bytes) : deleted n skipping (dollarSign :: t) =
    if Above n t then deleted n true t else dollarSign :: deleted n false t := by
  rw [deleted]
  simp [dollarSign_not_digit]

theorem deleted_kept (h : ¬ Above n t) :
    deleted n false (dollarSign :: t) = dollarSign :: deleted n false t := by
  rw [deleted_dollar, if_neg h]

theorem deleted_above (skipping : Bool) (h : Above n t) :
    deleted n skipping (dollarSign :: t) = deleted n true t := by
  rw [deleted_dollar, if_pos h]

theorem deleted_digits (hw : ∀ c ∈ w, isdigit c = true) (t : Bytes) :
    deleted n true (w ++ t) = deleted n true t := by
  induction w with
  | nil => rfl
  | cons c w ih =>
    rw [List.forall_mem_cons] at hw
    rw [List.cons_append, deleted, hw.1, Bool.true_and, if_pos rfl, ih hw.2]

theorem deleted_escape (h : ¬ Above n t) :
    deleted n false (dollarSign :: dollarSign :: t) = dollarSign :: dollarSign :: deleted n false t := by
  rw [deleted_kept (@not_above n (dollarSign :: _) dollarSign_not_digit), deleted_kept h]

theorem deleted_braces (h : Names name item) (skipping : Bool) (t : Bytes) :
    deleted n skipping (dollarSign :: openBrace :: (name ++ closeBrace :: t)) =
      dollarSign :: openBrace :: (name ++ closeBrace :: deleted n false t) := by
  have hopen : ¬ Above n (openBrace :: (name ++ closeBrace :: t)) := not_above (by decide : isdigit openBrace = false)
  rw [deleted_dollar, if_neg hopen, deleted_cons (by decide), deleted_append h.no_dollar, deleted_cons (by decide)]

theorem deleted_skipping (h : isdigit (t.headD 0) = false) : deleted n true t = deleted n false t := by
  cases t with
  | nil => rfl
  | cons c t =>
    rw [List.headD_cons] at h
    rw [deleted, deleted, h, Bool.and_false, Bool.false_and]

end Last

/-! ## The condition -/

/-- A reference that the last pass leaves. -/
def Token.kept (n : ℕ) : Token → Bool
  | .reference form _ item => form = .braces || item.Within n
  | _ => true

def left (n : ℕ) (tokens : List Token) : List Token := tokens.filter (Token.kept n)

/-- What has to hold of a reference without braces and what stands behind it: its digits are not followed by one; no
more are they, or a name by a character of a name, when references have been deleted; and it is not above `n`, unless
these are deleted. -/
structure Stands (n : ℕ) (deletes : Prop) (item : Item) (rest : List Token) : Prop where
  digits : ∀ k, item = .group k → item.Ends (spell dollarSign rest)
  ends : item.Within n → item.Ends (spell dollarSign (left n rest))
  above : ¬ item.Within n → deletes

def Token.Apart (n : ℕ) (deletes : Prop) (rest : List Token) : Token → Prop
  | .escape => deletes → ¬ Above n (Template.spell dollarSign rest)
  | .reference .braces _ item => item.Within n
  | .reference _ _ item => Stands n deletes item rest
  | _ => True

def Apart (n : ℕ) (deletes : Prop) : List Token → Prop
  | [] => True
  | t :: rest => t.Apart n deletes rest ∧ Apart n deletes rest

/-- No byte of a text is a NUL or a dollar sign, no backslash comes to stand before a digit where these are turned into
dollar signs, and where references are deleted their numbers are those of an `int`. -/
structure Harmless (n : ℕ) (s : Scan) (tokens : List Token) : Prop where
  nul : .byte 0 ∉ tokens
  dollar : .byte dollarSign ∉ tokens
  pair : s.hasBackslashBref = true → NoPair tokens
  countable : (n : ℤ) < s.highestBref → Countable (spell dollarSign tokens)
  apart : Apart n ((n : ℤ) < s.highestBref) tokens

/-! ## Harmless strings mean what they are to mean -/

section Sound

variable {n : ℕ} {deletes : Prop} {tokens : List Token}

theorem isdigit_of_word (h : isWord c = false) : isdigit c = false := by
  cases hc : isdigit c with
  | false => rfl
  | true =>
    rw [isWord, hc] at h
    cases h

/-- A name that is a number begins with a digit, and only such a name. -/
theorem Names.above_iff (h : Names name item) {rest : Bytes} (hends : ∀ k, item = .group k → item.Ends rest) :
    Above n (name ++ rest) ↔ ¬ item.Within n := by
  cases h with
  | number hne hdigits =>
    have hrest : isdigit (rest.headD 0) = false := hends _ rfl
    rw [Above, List.takeWhile_append_of_pos hdigits, digits_of_head hrest, List.append_nil]
    exact Nat.not_le.symm
  | @word name hne hword hhead hlen =>
    refine iff_of_false (not_above ?_) (fun hnot => hnot trivial)
    rw [((Names.word hne hword hhead hlen).head rest).1]
    exact hhead
  | mark => exact iff_of_false (not_above (by rfl)) fun hnot => hnot trivial

theorem left_cons_kept {t : Token} (h : t.kept n = true) : left n (t :: tokens) = t :: left n tokens :=
  List.filter_cons_of_pos h

theorem left_cons_gone {t : Token} (h : t.kept n = false) : left n (t :: tokens) = left n tokens :=
  List.filter_cons_of_neg (by rw [h]; exact Bool.false_ne_true)

theorem deleted_reference (hname : Names name item) (h : Stands n deletes item tokens) :
    deleted n false (dollarSign :: (name ++ spell dollarSign tokens)) =
      if item.Within n then dollarSign :: (name ++ deleted n false (spell dollarSign tokens))
      else deleted n false (spell dollarSign tokens) := by
  have habove : Above n (name ++ spell dollarSign tokens) ↔ ¬ item.Within n := hname.above_iff h.digits
  by_cases hwithin : item.Within n
  · rw [if_pos hwithin, deleted_kept fun ha => habove.mp ha hwithin, deleted_append hname.no_dollar]
  · rw [if_neg hwithin, deleted_above false (habove.mpr hwithin)]
    cases item with
    | group k => rw [deleted_digits hname.group_digits.1, deleted_skipping (h.digits k rfl)]
    | byte c => exact absurd trivial hwithin
    | named name' => exact absurd trivial hwithin
    | mark => exact absurd trivial hwithin

theorem kept_reference {form : Form} (hform : form ≠ .braces) (name : Bytes) (item : Item) :
    (Token.reference form name item).kept n = decide (item.Within n) := by
  rw [Token.kept, decide_eq_false hform, Bool.false_or]

/-- The last pass deletes the references that are not to be left, and nothing else. -/
theorem deleted_spell (hproper : Proper tokens) (hdollar : .byte dollarSign ∉ tokens) (hapart : Apart n True tokens) :
    deleted n false (spell dollarSign tokens) = spell dollarSign (left n tokens) := by
  induction tokens with
  | nil => rfl
  | cons t tokens ih =>
    rw [List.mem_cons, not_or] at hdollar
    have hrest := ih hproper.tail hdollar.2 hapart.2
    rw [spell_cons]
    cases t with
    | special kind => exact absurd hproper.head id
    | byte c =>
      have hc : c ≠ dollarSign := fun hc => hdollar.1 (by rw [hc])
      rw [left_cons_kept rfl, spell_cons, ← hrest]
      exact deleted_cons hc _
    | escape =>
      have hnot : ¬ Above n (spell dollarSign tokens) := hapart.1 trivial
      rw [left_cons_kept rfl, spell_cons, ← hrest]
      exact deleted_escape hnot
    | reference form name item =>
      have hname := hproper.head.1
      have hopen : ∀ form, form ≠ .braces → Stands n True item tokens →
          deleted n false (dollarSign :: (name ++ spell dollarSign tokens)) =
            spell dollarSign (left n (.reference form name item :: tokens)) := by
        intro form hform hstands
        rw [deleted_reference hname hstands, hrest]
        by_cases hwithin : item.Within n
        · rw [if_pos hwithin, left_cons_kept (by rw [kept_reference hform, decide_eq_true hwithin]), spell_cons]
          cases form with
          | dollar => rfl
          | backslash => rfl
          | braces => exact absurd rfl hform
        · rw [if_neg hwithin, left_cons_gone (by rw [kept_reference hform, decide_eq_false hwithin])]
      cases form with
      | dollar => exact hopen .dollar (by decide) hapart.1
      | backslash => exact hopen .backslash (by decide) hapart.1
      | braces =>
        rw [left_cons_kept rfl, spell_braces, ← hrest, ← spell_cons, spell_braces, deleted_braces hname]

theorem reads_spell (texts : Special → Bytes) (hproper : Proper tokens) (hdollar : .byte dollarSign ∉ tokens)
    (hapart : Apart n deletes tokens) :
    Reads n (spell dollarSign (left n tokens)) (tokens.flatMap (Token.meaning n texts)) := by
  induction tokens with
  | nil => exact .nil
  | cons t tokens ih =>
    rw [List.mem_cons, not_or] at hdollar
    have hrest := ih hproper.tail hdollar.2 hapart.2
    rw [List.flatMap_cons]
    cases t with
    | special kind => exact absurd hproper.head id
    | byte c =>
      have hc : c ≠ dollarSign := fun hc => hdollar.1 (by rw [hc])
      rw [left_cons_kept rfl]
      exact .byte hc hrest
    | escape =>
      rw [left_cons_kept rfl]
      exact .escape hrest
    | reference form name item =>
      have hname := hproper.head.1
      have hopen : ∀ form, form ≠ .braces → Stands n deletes item tokens →
          Reads n (spell dollarSign (left n (.reference form name item :: tokens)))
            ((Token.reference form name item).meaning n texts ++ tokens.flatMap (Token.meaning n texts)) := by
        intro form hform hstands
        by_cases hwithin : item.Within n
        · rw [left_cons_kept (by rw [kept_reference hform, decide_eq_true hwithin]), spell_cons, Token.meaning,
            if_pos hwithin]
          cases form with
          | dollar => exact .name hname (hstands.ends hwithin) hwithin hrest
          | backslash => exact .name hname (hstands.ends hwithin) hwithin hrest
          | braces => exact absurd rfl hform
        · rw [left_cons_gone (by rw [kept_reference hform, decide_eq_false hwithin]), Token.meaning, if_neg hwithin]
          exact hrest
      cases form with
      | dollar => exact hopen .dollar (by decide) hapart.1
      | backslash => exact hopen .backslash (by decide) hapart.1
      | braces =>
        have hwithin : item.Within n := hapart.1
        rw [left_cons_kept rfl, Token.meaning, if_pos hwithin, spell_braces]
        exact .braces hname hwithin hrest

theorem left_eq_self (hproper : Proper tokens) (hapart : Apart n False tokens) : left n tokens = tokens := by
  induction tokens with
  | nil => rfl
  | cons t tokens ih =>
    have hrest := ih hproper.tail hapart.2
    have hkept : t.kept n = true := by
      cases t with
      | special kind => rfl
      | byte c => rfl
      | escape => rfl
      | reference form name item =>
        have hopen : Stands n False item tokens → item.Within n := fun h => not_not.mp h.above
        cases form with
        | dollar => exact decide_eq_true (hopen hapart.1)
        | backslash => exact decide_eq_true (hopen hapart.1)
        | braces => rfl
    rw [left_cons_kept hkept, hrest]

end Sound

/-! ## The string after two passes -/

section Handed

variable {n : ℕ} {t : Bytes} {tokens : List Token} {texts : Special → Bytes}

/-- What is handed over, if the second pass has changed nothing but the marks. -/
theorem passes_eq (hlex : Lexes t tokens) (hplain : Plain tokens)
    (hpair : (scan t).hasBackslashBref = true → NoPair (filled texts tokens)) :
    passes n texts t = if (n : ℤ) < (scan t).highestBref then
      deleteReferences n false (spell dollarSign (filled texts tokens))
    else some (spell dollarSign (filled texts tokens)) := by
  have hsecond : (if (scan t).hasBackslashBref then translateBackslashes (replaceSpecials texts t)
      else replaceSpecials texts t) = spell dollarSign (filled texts tokens) := by
    rw [replaceSpecials_lexes texts hlex hplain]
    cases hback : (scan t).hasBackslashBref with
    | true => exact translate_spell (hlex.proper_filled texts) (hpair hback)
    | false =>
      exact spell_congr _ _ fun name item hmem => no_backslash_of_scan hlex hback name item (reference_mem_filled hmem)
  unfold passes
  dsimp only
  rw [hsecond]

theorem Harmless.passes_reads (hlex : Lexes t tokens) (hplain : Plain tokens)
    (h : Harmless n (scan t) (filled texts tokens)) :
    ∃ u, passes n texts t = some u ∧ Reads n u (tokens.flatMap (Token.meaning n texts)) := by
  have hproper := hlex.proper_filled texts
  have hreads := reads_spell texts hproper h.dollar h.apart
  have hapart := h.apart
  rw [filled_meaning] at hreads
  refine ⟨spell dollarSign (left n (filled texts tokens)), ?_, hreads⟩
  rw [passes_eq hlex hplain h.pair]
  by_cases hdeletes : (n : ℤ) < (scan t).highestBref
  · rw [eq_true hdeletes] at hapart
    rw [if_pos hdeletes, deleteReferences_eq_some_iff]
    exact ⟨h.countable hdeletes, deleted_spell hproper h.dollar hapart⟩
  · rw [eq_false hdeletes] at hapart
    rw [if_neg hdeletes, left_eq_self hproper hapart]

variable {subject : Bytes} {m : Match subject}

theorem cut_special (h : .byte 0 ∉ filled (specialText n m) tokens) {kind : Special} (hmem : .special kind ∈ tokens) :
    cutTexts n m kind = specialText n m kind := by
  refine untilNul_eq_self fun h0 => h ?_
  exact List.mem_flatMap.mpr ⟨_, hmem, List.mem_map_of_mem h0⟩

theorem filled_cut (h : .byte 0 ∉ filled (specialText n m) tokens) :
    filled (cutTexts n m) tokens = filled (specialText n m) tokens := by
  refine List.flatMap_congr fun tok htok => ?_
  cases tok with
  | special kind => rw [Token.filled, cut_special h htok, Token.filled]
  | byte c => rfl
  | escape => rfl
  | reference form name item => rfl

theorem meaning_cut (h : .byte 0 ∉ filled (specialText n m) tokens) :
    tokens.flatMap (Token.meaning n (cutTexts n m)) = tokens.flatMap (Token.meaning n (specialText n m)) := by
  refine List.flatMap_congr fun tok htok => ?_
  cases tok with
  | special kind => rw [Token.meaning, cut_special h htok, Token.meaning]
  | byte c => rfl
  | escape => rfl
  | reference form name item => rfl

end Handed

end Libntech.Containers.Template
