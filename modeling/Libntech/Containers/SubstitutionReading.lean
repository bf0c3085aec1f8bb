import Libntech.Containers.SubstitutionHarmless

/-! # Readings of a string

PCRE2 reads each byte as itself or as part of `$$` or of a reference, so that a reading is known by how its string
begins, and the bytes of the string by the items.

A string that keeps its references is then read token by token. A reference that takes in more than its name is another
item, or leaves bytes behind it to be read where they are no more.
-/
namespace Libntech.Containers.Template
set_option autoImplicit false

open Libntech.Json (Bytes CString ascii decimal)

/-! ## Counting -/

variable {name w y z : Bytes} {item : Item} {c : UInt8} {n : ℕ}

section Counts

variable {n : ℕ} {t : Bytes} {items : List Item}

theorem Names.count_dollar (h : Names name item) : name.count dollarSign = 0 :=
  List.count_eq_zero.mpr h.no_dollar

theorem Names.count_close (h : Names name item) : name.count closeBrace = 0 :=
  List.count_eq_zero.mpr (h.off (by decide) (by decide))

theorem Names.not_byte : ¬ Names name (.byte c) := nofun

theorem Reads.count_byte (hword : isWord c = false) (hstar : c ≠ '*'.toUInt8) (hdollar : c ≠ dollarSign)
    (hopen : c ≠ openBrace) (hclose : c ≠ closeBrace) (h : Reads n t items) : items.count (.byte c) = t.count c := by
  have hname : ∀ {name : Bytes} {item : Item}, Names name item → name.count c = 0 := fun hname =>
    List.count_eq_zero.mpr (hname.off hword hstar)
  have hitem : ∀ {name : Bytes} {item : Item}, Names name item → item ≠ .byte c := by
    rintro name item hname rfl
    exact Names.not_byte hname
  induction h with
  | nil => rfl
  | @byte d t items hd h ih =>
    rw [List.count_cons, List.count_cons, ih]
    simp
  | escape h ih =>
    have hne : Item.byte dollarSign ≠ .byte c := fun heq => hdollar (Item.byte.inj heq).symm
    rw [List.count_cons_of_ne hne, ih, List.count_cons_of_ne hdollar.symm, List.count_cons_of_ne hdollar.symm]
  | name hn hends hwithin h ih =>
    rw [List.count_cons_of_ne (hitem hn), ih, List.count_cons_of_ne hdollar.symm, List.count_append, hname hn,
      Nat.zero_add]
  | braces hn hwithin h ih =>
    rw [List.count_cons_of_ne (hitem hn), ih, List.count_cons_of_ne hdollar.symm, List.count_cons_of_ne hopen.symm,
      List.count_append, hname hn, Nat.zero_add, List.count_cons_of_ne hclose.symm]

/-- The dollar signs that an item needs. -/
def Item.dollars : Item → ℕ
  | .byte c => if c = dollarSign then 2 else 0
  | _ => 1

def dollars (items : List Item) : ℕ := (items.map Item.dollars).sum

theorem dollars_cons (item : Item) (items : List Item) : dollars (item :: items) = item.dollars + dollars items := by
  rw [dollars, List.map_cons, List.sum_cons]
  rfl

theorem dollars_append (A B : List Item) : dollars (A ++ B) = dollars A + dollars B := by
  rw [dollars, List.map_append, List.sum_append]
  rfl

theorem Names.dollars (h : Names name item) : item.dollars = 1 := by
  cases h <;> rfl

theorem Reads.count_dollar (h : Reads n t items) : t.count dollarSign = Template.dollars items := by
  induction h with
  | nil => rfl
  | @byte c t items hc h ih => rw [List.count_cons_of_ne hc, ih, dollars_cons, Item.dollars, if_neg hc, Nat.zero_add]
  | escape h ih =>
    rw [List.count_cons_self, List.count_cons_self, ih, dollars_cons, Item.dollars, if_pos rfl]
    omega
  | name hn hends hwithin h ih =>
    rw [List.count_cons_self, List.count_append, hn.count_dollar, ih, dollars_cons, hn.dollars]
    omega
  | braces hn hwithin h ih =>
    rw [List.count_cons_self, List.count_cons_of_ne (by decide), List.count_append, hn.count_dollar,
      List.count_cons_of_ne (by decide), ih, dollars_cons, hn.dollars]
    omega

end Counts

/-! ## How a reading begins -/

section Readings

variable {n : ℕ} {t : Bytes} {items : List Item}

theorem Reads.uncons (hc : c ≠ dollarSign) (h : Reads n (c :: t) items) :
    ∃ items', items = .byte c :: items' ∧ Reads n t items' := by
  cases h with
  | byte _ h => exact ⟨_, rfl, h⟩
  | escape h => exact absurd rfl hc
  | name hname hends hwithin h => exact absurd rfl hc
  | braces hname hwithin h => exact absurd rfl hc

theorem Reads.unappend (hw : dollarSign ∉ w) (h : Reads n (w ++ t) items) :
    ∃ items', items = w.map .byte ++ items' ∧ Reads n t items' := by
  induction w generalizing items with
  | nil => exact ⟨items, rfl, h⟩
  | cons c w ih =>
    rw [List.mem_cons, not_or] at hw
    obtain ⟨items₁, hitems, h₁⟩ := h.uncons (Ne.symm hw.1)
    obtain ⟨items₂, hitems₁, h₂⟩ := ih hw.2 h₁
    refine ⟨items₂, ?_, h₂⟩
    rw [hitems, hitems₁, List.map_cons, List.cons_append]

theorem Names.not_dollar (h : Names name item) {t : Bytes} : name ++ y ≠ dollarSign :: t := by
  intro heq
  have hhead := (h.head y).2
  rw [← (h.head y).1, heq, List.headD_cons] at hhead
  exact h.no_dollar hhead

theorem Names.not_open (h : Names name item) {t : Bytes} : name ++ y ≠ openBrace :: t := by
  intro heq
  have hhead := (h.head y).2
  rw [← (h.head y).1, heq, List.headD_cons] at hhead
  exact h.off (by decide) (by decide) hhead

theorem Reads.unescape (h : Reads n (dollarSign :: dollarSign :: t) items) :
    ∃ items', items = .byte dollarSign :: items' ∧ Reads n t items' := by
  generalize hs : dollarSign :: dollarSign :: t = s at h
  cases h with
  | nil => cases hs
  | byte hc h => exact absurd (List.cons.inj hs).1.symm hc
  | escape h =>
    cases hs
    exact ⟨_, rfl, h⟩
  | name hname hends hwithin h => exact absurd (List.cons.inj hs).2.symm hname.not_dollar
  | braces hname hwithin h => exact absurd (List.cons.inj (List.cons.inj hs).2).1 (by decide)

/-- A dollar sign begins `$$` or a reference. -/
theorem Reads.undollar (h : Reads n (dollarSign :: t) items) :
    (∃ t' items', t = dollarSign :: t' ∧ items = .byte dollarSign :: items' ∧ Reads n t' items') ∨
      ∃ w y item items', t = w ++ y ∧ w ≠ [] ∧ dollarSign ∉ w ∧ w.count closeBrace ≤ 1 ∧ (∀ c, item ≠ .byte c) ∧
        items = item :: items' ∧ Reads n y items' := by
  have hitem : ∀ {name : Bytes} {item : Item}, Names name item → ∀ c, item ≠ .byte c := by
    rintro name item hname c rfl
    exact Names.not_byte hname
  generalize hs : dollarSign :: t = s at h
  cases h with
  | nil => cases hs
  | byte hc h => exact absurd (List.cons.inj hs).1.symm hc
  | escape h => exact .inl ⟨_, _, (List.cons.inj hs).2, rfl, h⟩
  | @name name y item items hname hends hwithin h =>
    refine .inr ⟨name, y, item, items, (List.cons.inj hs).2, hname.ne_nil, hname.no_dollar, ?_, hitem hname, rfl, h⟩
    rw [hname.count_close]
    exact Nat.zero_le 1
  | @braces name y item items hname hwithin h =>
    refine .inr ⟨openBrace :: (name ++ [closeBrace]), y, item, items, ?_, List.cons_ne_nil _ _, ?_, ?_, hitem hname, rfl,
      h⟩
    · rw [(List.cons.inj hs).2]
      simp
    · simp only [List.mem_cons, List.mem_append, List.not_mem_nil, or_false, not_or]
      exact ⟨by decide, hname.no_dollar, by decide⟩
    · rw [List.count_cons_of_ne (by decide), List.count_append, hname.count_close]
      decide

/-- In front of a name, the dollar sign begins a reference without braces. -/
theorem Reads.unname (hname : Names name item) (h : Reads n (dollarSign :: (name ++ z)) items) :
    ∃ name' y item' items', Names name' item' ∧ name ++ z = name' ++ y ∧ item'.Ends y ∧ item'.Within n ∧
      items = item' :: items' ∧ Reads n y items' := by
  generalize hs : dollarSign :: (name ++ z) = s at h
  cases h with
  | nil => cases hs
  | byte hc h => exact absurd (List.cons.inj hs).1.symm hc
  | escape h => exact absurd (List.cons.inj hs).2 hname.not_dollar
  | name hname' hends hwithin h => exact ⟨_, _, _, _, hname', (List.cons.inj hs).2, hends, hwithin, rfl, h⟩
  | braces hname' hwithin h => exact absurd (List.cons.inj hs).2 hname.not_open

theorem Names.unique {item' : Item} (h : Names name item) (h' : Names name item') : item = item' := by
  cases h with
  | number hne hdigits =>
    cases h' with
    | number => rfl
    | word hne' hword hhead hlen =>
      have hdigit := hdigits _ ((Names.number hne hdigits).head []).2
      rw [hhead] at hdigit
      cases hdigit
    | mark => exact absurd (hdigits '*'.toUInt8 (by decide)) (by decide)
  | word hne hword hhead hlen =>
    cases h' with
    | number hne' hdigits =>
      have hdigit := hdigits _ ((Names.number hne' hdigits).head []).2
      rw [hhead] at hdigit
      cases hdigit
    | word => rfl
    | mark => exact absurd (hword '*'.toUInt8 (by decide)) (by decide)
  | mark =>
    generalize hmark : ascii "*MARK" = name at h'
    cases h' with
    | number hne hdigits =>
      rw [← hmark] at hdigits
      exact absurd (hdigits '*'.toUInt8 (by decide)) (by decide)
    | word hne hword hhead hlen =>
      rw [← hmark] at hword
      exact absurd (hword '*'.toUInt8 (by decide)) (by decide)
    | mark => rfl

theorem Names.brace_inj {name' : Bytes} {item' : Item} (h : Names name item) (h' : Names name' item')
    (heq : name ++ closeBrace :: z = name' ++ closeBrace :: y) : name = name' ∧ z = y := by
  have hoff : ∀ {name : Bytes} {item : Item}, Names name item → ∀ c ∈ name, (c != closeBrace) = true := by
    intro name item hname c hc
    rw [bne_iff_ne]
    rintro rfl
    exact hname.off (by decide) (by decide) hc
  have htake : ∀ {name z : Bytes} {item : Item}, Names name item →
      (name ++ closeBrace :: z).takeWhile (· != closeBrace) = name := by
    intro name z item hname
    rw [List.takeWhile_append_of_pos (hoff hname)]
    simp
  have hnames : name = name' := by rw [← @htake name z item h, heq, htake h']
  subst hnames
  exact ⟨rfl, (List.cons.inj (List.append_cancel_left heq)).2⟩

theorem Reads.unbrace (hname : Names name item)
    (h : Reads n (dollarSign :: openBrace :: (name ++ closeBrace :: z)) items) :
    ∃ items', items = item :: items' ∧ item.Within n ∧ Reads n z items' := by
  generalize hs : dollarSign :: openBrace :: (name ++ closeBrace :: z) = s at h
  cases h with
  | nil => cases hs
  | byte hc h => exact absurd (List.cons.inj hs).1.symm hc
  | escape h => exact absurd (List.cons.inj (List.cons.inj hs).2).1 (by decide)
  | name hname' hends hwithin h => exact absurd (List.cons.inj hs).2.symm hname'.not_open
  | braces hname' hwithin h =>
    obtain ⟨rfl, rfl⟩ := hname.brace_inj hname' (List.cons.inj (List.cons.inj hs).2).2
    obtain rfl := hname.unique hname'
    exact ⟨_, rfl, hwithin, h⟩

end Readings

/-! ## References -/

theorem digitsValue_le_append (ds es : Bytes) : digitsValue ds ≤ digitsValue (ds ++ es) := by
  rw [digitsValue, digitsValue, List.foldl_append]
  generalize ds.foldl _ 0 = value
  induction es generalizing value with
  | nil => exact Nat.le_refl _
  | cons e es ih =>
    rw [List.foldl_cons]
    exact Nat.le_trans (by omega) (ih _)

theorem Names.above_append {k : ℕ} (h : Names name (.group k)) (hk : n < k) (t : Bytes) :
    Above n (name ++ t) := by
  obtain ⟨hdigits, hvalue⟩ := h.group_digits
  rw [Above, List.takeWhile_append_of_pos hdigits]
  exact Nat.lt_of_lt_of_le (hvalue ▸ hk) (digitsValue_le_append _ _)

theorem Names.digits_of_above {t : Bytes} (h : Names name item) (habove : Above n (name ++ t)) :
    ∀ c ∈ name, isdigit c = true := by
  cases h with
  | number hne hdigits => exact hdigits
  | @word name hne hword hhead hlen =>
    refine absurd habove (not_above ?_)
    rw [((Names.word hne hword hhead hlen).head t).1]
    exact hhead
  | mark => exact absurd habove (not_above rfl)

theorem Item.above (h : ¬ item.Within n) : ∃ k, item = .group k ∧ n < k := by
  cases item with
  | group k => exact ⟨k, rfl, Nat.lt_of_not_le h⟩
  | byte c => exact absurd trivial h
  | named name => exact absurd trivial h
  | mark => exact absurd trivial h

section References

variable {n : ℕ} {texts : Special → Bytes} {tokens : List Token} {t : Bytes} {items : List Item}

theorem Reads.byte_head (hc : c ≠ dollarSign) (h : Reads n t (.byte c :: items)) :
    ∃ t', t = c :: t' ∧ Reads n t' items := by
  cases h with
  | byte _ h => exact ⟨_, rfl, h⟩
  | escape h => exact absurd rfl hc
  | name hname hends hwithin h => exact absurd hname Names.not_byte
  | braces hname hwithin h => exact absurd hname Names.not_byte

theorem Names.same {name' : Bytes} (h : Names name item) (h' : Names name' item) (hgroup : ∀ k, item ≠ .group k) :
    name = name' := by
  cases h with
  | number => exact absurd rfl (hgroup _)
  | word hne hword hhead hlen =>
    cases h' with
    | word => rfl
  | mark =>
    cases h' with
    | mark => rfl

theorem digits_head (hne : w ≠ []) (hw : ∀ c ∈ w, isdigit c = true) : isdigit ((w ++ y).headD 0) = true := by
  cases w with
  | nil => exact absurd rfl hne
  | cons c w => exact hw c List.mem_cons_self

/-- A reference that reads as what it means ends with its name, if digits behind it are meant as bytes. -/
theorem reads_reference (hname : Names name item)
    (hdigits : isdigit (z.headD 0) = true → ∃ c items', items = .byte c :: items' ∧ isdigit c = true)
    (h : Reads n (dollarSign :: (name ++ z)) (item :: items)) : item.Ends z ∧ Reads n z items := by
  obtain ⟨name', y, item', items', hname', heq, hends, -, hitems, hread⟩ := h.unname hname
  obtain ⟨rfl, rfl⟩ := List.cons.inj hitems
  by_cases hgroup : ∀ k, item ≠ .group k
  · obtain rfl := hname.same hname' hgroup
    obtain rfl := List.append_cancel_left heq
    exact ⟨hends, hread⟩
  · obtain ⟨k, hk⟩ := not_forall.mp hgroup
    obtain rfl := not_not.mp hk
    obtain ⟨w, hlonger, hz⟩ | ⟨w, hshorter, hy⟩ := List.append_eq_append_iff.mp heq
    · by_cases hw : w = []
      · subst hw
        rw [List.nil_append] at hz
        exact hz ▸ ⟨hends, hread⟩
      · -- the digits behind the name are part of the number and bytes
        have hhead : isdigit (z.headD 0) = true := by
          rw [hz]
          exact digits_head hw fun c hc => hname'.group_digits.1 c (hlonger ▸ List.mem_append_right _ hc)
        obtain ⟨c, items', rfl, hc⟩ := hdigits hhead
        have hdollar : c ≠ dollarSign := by
          rintro rfl
          exact absurd hc (by decide)
        obtain ⟨y', rfl, -⟩ := hread.byte_head hdollar
        rw [Item.Ends, List.headD_cons, hc] at hends
        cases hends
    · by_cases hw : w = []
      · subst hw
        rw [List.nil_append] at hy
        exact hy ▸ ⟨hends, hread⟩
      · have hhead : isdigit (y.headD 0) = true := by
          rw [hy]
          exact digits_head hw fun c hc => hname.group_digits.1 c (hshorter ▸ List.mem_append_right _ hc)
        rw [Item.Ends, hhead] at hends
        cases hends

theorem leadsDigit_iff : leadsDigit tokens = true ↔ ∃ c rest, tokens = .byte c :: rest ∧ isdigit c = true := by
  unfold leadsDigit
  split
  · simp
  · next h =>
    refine iff_of_false Bool.false_ne_true ?_
    rintro ⟨c, rest, rfl, -⟩
    exact h c rest rfl

theorem meaning_digit (h : leadsDigit tokens = true) :
    ∃ c items', tokens.flatMap (Token.meaning n texts) = .byte c :: items' ∧ isdigit c = true := by
  obtain ⟨c, rest, rfl, hc⟩ := leadsDigit_iff.mp h
  exact ⟨c, _, rfl, hc⟩

end References

/-! ## Where nothing is deleted

A dollar sign of a text begins to be read as `$$`, so that from there on the reading is behind what is meant. It gets
over `$$` of the substitution string in this way, but not over anything else. -/

section Undeleted

variable {n : ℕ} {texts : Special → Bytes} {tokens : List Token} {t : Bytes} {items : List Item}

/-- A reference above `n` is not read. -/
theorem not_reads_above (hname : Names name item) (hwithin : ¬ item.Within n) :
    ¬ Reads n (dollarSign :: (name ++ z)) items := by
  intro h
  obtain ⟨k, rfl, hk⟩ := Item.above hwithin
  have habove : Above n (name ++ z) := hname.above_append hk z
  obtain ⟨name', y, item', items', hname', heq, hends, hwithin', -, -⟩ := h.unname hname
  rw [heq, hname'.above_iff fun _ _ => hends] at habove
  exact habove hwithin'

theorem Reads.second (h : Reads n (dollarSign :: t) (.byte dollarSign :: items)) :
    ∃ t', t = dollarSign :: t' ∧ Reads n t' items := by
  obtain ⟨t', items', ht, hitems, hread⟩ | ⟨w, y, item, items', -, -, -, -, hitem, hitems, -⟩ := h.undollar
  · rw [(List.cons.inj hitems).2]
    exact ⟨t', ht, hread⟩
  · exact absurd (List.cons.inj hitems).1.symm (hitem _)

theorem not_reads_behind (hproper : Proper tokens) (hne : w ≠ []) (hw : dollarSign ∉ w) :
    ¬ Reads n (w ++ spell dollarSign tokens) (tokens.flatMap (Token.meaning n texts)) := by
  induction tokens generalizing w with
  | nil =>
    intro h
    obtain ⟨items, hitems, -⟩ := h.unappend hw
    exact hne (List.map_eq_nil_iff.mp (List.append_eq_nil_iff.mp hitems.symm).1)
  | cons t tokens ih =>
    intro h
    cases w with
    | nil => exact hne rfl
    | cons d w =>
      rw [List.mem_cons, not_or] at hw
      obtain ⟨items, hitems, hread⟩ := h.uncons (Ne.symm hw.1)
      cases t with
      | special kind => exact hproper.head
      | byte c =>
        obtain ⟨hc, htail⟩ := List.cons.inj hitems
        obtain rfl := Item.byte.inj hc
        have hmoved : w ++ [c] ++ spell dollarSign tokens = w ++ spell dollarSign (.byte c :: tokens) := by
          simp [spell_cons, Token.spell]
        have hread : Reads n (w ++ [c] ++ spell dollarSign tokens) (tokens.flatMap (Token.meaning n texts)) := by
          rw [hmoved, show tokens.flatMap (Token.meaning n texts) = items from htail]
          exact hread
        have hoff : dollarSign ∉ w ++ [c] := by
          rw [List.mem_append, List.mem_singleton, not_or]
          exact ⟨hw.2, hw.1⟩
        exact ih hproper.tail (List.append_ne_nil_of_right_ne_nil w (List.cons_ne_nil c [])) hoff hread
      | escape => exact hw.1 (Item.byte.inj (List.cons.inj hitems).1)
      | reference form name item =>
        have hname := hproper.head.1
        rw [List.flatMap_cons, Token.meaning] at hitems
        by_cases hwithin : item.Within n
        · rw [if_pos hwithin] at hitems
          have hitem : item = .byte d := (List.cons.inj hitems).1
          exact Names.not_byte (hitem ▸ hname)
        · -- the reference is still to be read
          obtain ⟨items', -, hread'⟩ := hread.unappend hw.2
          cases form with
          | dollar => exact not_reads_above hname hwithin hread'
          | backslash => exact not_reads_above hname hwithin hread'
          | braces =>
            rw [spell_braces] at hread'
            obtain ⟨-, -, hwithin', -⟩ := hread'.unbrace hname
            exact hwithin hwithin'

/-- The dollar sign of a reference is not the second one of `$$`. -/
theorem not_reads_second (hproper : Proper tokens) (hname : Names name item) (hne : w ≠ []) (hw : dollarSign ∉ w)
    (count : ℕ) : ¬ Reads n (w ++ spell dollarSign tokens)
      (List.replicate count (.byte dollarSign) ++ ((if item.Within n then [item] else []) ++
        tokens.flatMap (Token.meaning n texts))) := by
  intro h
  cases count with
  | zero =>
    by_cases hwithin : item.Within n
    · rw [if_pos hwithin] at h
      obtain ⟨items, hitems, -⟩ := h.unappend hw
      cases w with
      | nil => exact hne rfl
      | cons d w =>
        have hitem : item = .byte d := (List.cons.inj hitems).1
        exact Names.not_byte (hitem ▸ hname)
    · rw [if_neg hwithin] at h
      exact not_reads_behind hproper hne hw h
  | succ count =>
    obtain ⟨items, hitems, -⟩ := h.unappend hw
    cases w with
    | nil => exact hne rfl
    | cons d w =>
      have hd : dollarSign = d := Item.byte.inj (List.cons.inj hitems).1
      exact hw (by rw [hd]; exact List.mem_cons_self)

theorem replicate_append_cons (count : ℕ) (item : Item) (items : List Item) :
    List.replicate count item ++ item :: items = List.replicate (count + 1) item ++ items := by
  rw [List.replicate_succ']
  simp

/-- Nor does a reading that is behind dollar signs, behind one of them or not. -/
theorem not_reads_dollars (hproper : Proper tokens) (count : ℕ) :
    (¬ Reads n (dollarSign :: spell dollarSign tokens)
      (List.replicate (count + 1) (.byte dollarSign) ++ tokens.flatMap (Token.meaning n texts))) ∧
    ¬ Reads n (spell dollarSign tokens)
      (List.replicate (count + 1) (.byte dollarSign) ++ tokens.flatMap (Token.meaning n texts)) := by
  induction tokens generalizing count with
  | nil =>
    refine ⟨fun h => ?_, nofun⟩
    obtain ⟨t, ht, -⟩ := h.second
    cases ht
  | cons t tokens ih =>
    have hnext := ih hproper.tail
    have hopen : ∀ {w name : Bytes} {form : Form} {item : Item}, Names name item → w ≠ [] → dollarSign ∉ w →
        spell dollarSign (.reference form name item :: tokens) = dollarSign :: (w ++ spell dollarSign tokens) →
        (¬ Reads n (dollarSign :: spell dollarSign (.reference form name item :: tokens))
          (List.replicate (count + 1) (.byte dollarSign) ++
            (Token.reference form name item :: tokens).flatMap (Token.meaning n texts))) ∧
        ¬ Reads n (spell dollarSign (.reference form name item :: tokens))
          (List.replicate (count + 1) (.byte dollarSign) ++
            (Token.reference form name item :: tokens).flatMap (Token.meaning n texts)) := by
      intro w name form item hname hne hw hspell
      rw [hspell]
      refine ⟨fun h => ?_, fun h => ?_⟩
      · obtain ⟨t, ht, hread⟩ := h.second
        rw [← (List.cons.inj ht).2] at hread
        exact not_reads_second hproper.tail hname hne hw count hread
      · obtain ⟨t, ht, -⟩ := h.second
        cases w with
        | nil => exact hne rfl
        | cons d w => exact hw (by rw [(List.cons.inj ht).1]; exact List.mem_cons_self)
    cases t with
    | special kind => exact absurd hproper.head id
    | byte c =>
      refine ⟨fun h => ?_, fun h => ?_⟩
      · obtain ⟨t, ht, hread⟩ := h.second
        obtain ⟨rfl, rfl⟩ := List.cons.inj ht
        have hmoved := replicate_append_cons count (.byte dollarSign) (tokens.flatMap (Token.meaning n texts))
        exact (hnext count).2 (hmoved ▸ hread)
      · by_cases hc : c = dollarSign
        · subst hc
          have hmoved := replicate_append_cons (count + 1) (.byte dollarSign) (tokens.flatMap (Token.meaning n texts))
          exact (hnext (count + 1)).1 (hmoved ▸ h)
        · obtain ⟨items, hitems, -⟩ := h.uncons hc
          exact hc (Item.byte.inj (List.cons.inj hitems).1).symm
    | escape =>
      have hmoved := replicate_append_cons count (.byte dollarSign) (tokens.flatMap (Token.meaning n texts))
      refine ⟨fun h => ?_, fun h => ?_⟩
      · obtain ⟨t, ht, hread⟩ := h.second
        obtain rfl := (List.cons.inj ht).2
        exact (hnext count).1 (hmoved ▸ hread)
      · obtain ⟨items, hitems, hread⟩ := h.unescape
        obtain rfl := (List.cons.inj hitems).2
        exact (hnext count).2 (hmoved ▸ hread)
    | reference form name item =>
      have hname := hproper.head.1
      cases form with
      | dollar => exact hopen hname hname.ne_nil hname.no_dollar rfl
      | backslash => exact hopen hname hname.ne_nil hname.no_dollar rfl
      | braces =>
        refine @hopen (openBrace :: (name ++ [closeBrace])) _ _ _ hname (List.cons_ne_nil _ _) ?_ rfl
        simp only [List.mem_cons, List.mem_append, List.not_mem_nil, or_false, not_or]
        exact ⟨by decide, hname.no_dollar, by decide⟩

/-- A string that keeps its references is read as what is meant only if no token joins with what stands behind it. -/
theorem apart_of_reads (hproper : Proper tokens)
    (h : Reads n (spell dollarSign tokens) (tokens.flatMap (Token.meaning n texts))) :
    .byte dollarSign ∉ tokens ∧ Apart n False tokens := by
  induction tokens with
  | nil => exact ⟨List.not_mem_nil, trivial⟩
  | cons t tokens ih =>
    have hrest := ih hproper.tail
    cases t with
    | special kind => exact absurd hproper.head id
    | byte c =>
      have hc : c ≠ dollarSign := by
        rintro rfl
        exact (not_reads_dollars hproper.tail 0).1 h
      obtain ⟨items, hitems, hread⟩ := h.uncons hc
      obtain rfl := (List.cons.inj hitems).2
      obtain ⟨hdollar, hapart⟩ := hrest hread
      refine ⟨?_, trivial, hapart⟩
      rw [List.mem_cons, not_or]
      exact ⟨fun heq => hc (Token.byte.inj heq).symm, hdollar⟩
    | escape =>
      obtain ⟨items, hitems, hread⟩ := h.unescape
      obtain rfl := (List.cons.inj hitems).2
      obtain ⟨hdollar, hapart⟩ := hrest hread
      exact ⟨List.not_mem_cons_of_ne_of_not_mem (by simp) hdollar, False.elim, hapart⟩
    | reference form name item =>
      have hname := hproper.head.1
      have hopen : Reads n (dollarSign :: (name ++ spell dollarSign tokens))
            ((Token.reference form name item).meaning n texts ++ tokens.flatMap (Token.meaning n texts)) →
          Stands n False item tokens ∧ .byte dollarSign ∉ tokens ∧ Apart n False tokens := by
        intro h
        have hwithin : item.Within n := by
          by_contra hnot
          exact not_reads_above hname hnot h
        rw [Token.meaning, if_pos hwithin] at h
        obtain ⟨hends, hread⟩ := reads_reference hname
          (fun hdigit => meaning_digit (by rwa [spell_head dollarSign_not_digit hproper.tail] at hdigit)) h
        obtain ⟨hdollar, hapart⟩ := hrest hread
        refine ⟨⟨fun _ _ => hends, fun _ => ?_, fun hnot => absurd hwithin hnot⟩, hdollar, hapart⟩
        rwa [left_eq_self hproper.tail hapart]
      cases form with
      | dollar =>
        obtain ⟨hstands, hdollar, hapart⟩ := hopen h
        exact ⟨List.not_mem_cons_of_ne_of_not_mem (by simp) hdollar, hstands, hapart⟩
      | backslash =>
        obtain ⟨hstands, hdollar, hapart⟩ := hopen h
        exact ⟨List.not_mem_cons_of_ne_of_not_mem (by simp) hdollar, hstands, hapart⟩
      | braces =>
        rw [spell_braces] at h
        obtain ⟨items, hitems, hwithin, hread⟩ := h.unbrace hname
        rw [List.flatMap_cons, Token.meaning, if_pos hwithin] at hitems
        obtain rfl := (List.cons.inj hitems).2
        obtain ⟨hdollar, hapart⟩ := hrest hread
        exact ⟨List.not_mem_cons_of_ne_of_not_mem (by simp) hdollar, hwithin, hapart⟩

end Undeleted

end Libntech.Containers.Template
