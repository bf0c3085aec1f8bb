import Libntech.Containers.SubstitutionReading

/-! # Readings of what the last pass leaves

The last pass leaves some bytes of each token, which are `Leavings`. What is left has the dollar signs that the items
need only if each token is left as a whole or goes as a whole, and then it is read token by token.
-/
namespace Libntech.Containers.Template
set_option autoImplicit false

open Libntech.Json (Bytes CString ascii decimal)

/-! ## What the last pass leaves -/

/-- The bytes of a token that are left, in front of `rest`. -/
inductive Piece (n : ℕ) (rest : List Token) : Token → Bytes → Prop where
  | digit {c : UInt8} : isdigit c = true → Piece n rest (.byte c) []
  | lost : Piece n rest (.byte dollarSign) []
  | byte {c : UInt8} : c ≠ dollarSign → Piece n rest (.byte c) [c]
  | dollar : Piece n rest (.byte dollarSign) [dollarSign]
  | escape : ¬ Above n (spell dollarSign rest) → Piece n rest .escape [dollarSign, dollarSign]
  | half : Piece n rest .escape [dollarSign]
  | gone {form : Form} {name : Bytes} {item : Item} : form ≠ .braces → Piece n rest (.reference form name item) []
  | reference {form : Form} {name : Bytes} {item : Item} : form ≠ .braces → Names name item → item.Within n →
      ¬ Above n (name ++ spell dollarSign rest) → Piece n rest (.reference form name item) (dollarSign :: name)
  | braces {name : Bytes} {item : Item} : Names name item →
      Piece n rest (.reference .braces name item) (dollarSign :: openBrace :: (name ++ [closeBrace]))

inductive Leavings (n : ℕ) : List Token → Bytes → Prop where
  | nil : Leavings n [] []
  | cons {t : Token} {rest : List Token} {w u : Bytes} : Piece n rest t w → Leavings n rest u →
      Leavings n (t :: rest) (w ++ u)

section Leavings

variable {n : ℕ} {tokens : List Token}

theorem deleted_leavings (h : Proper tokens) (skipping : Bool) :
    Leavings n tokens (deleted n skipping (spell dollarSign tokens)) := by
  induction tokens generalizing skipping with
  | nil => exact .nil
  | cons t tokens ih =>
    have hrest := ih h.tail
    cases t with
    | special kind => exact absurd h.head id
    | byte c =>
      show Leavings n _ (deleted n skipping (c :: spell dollarSign tokens))
      rw [deleted]
      split
      · next hskip => exact .cons (.digit (Bool.and_eq_true_iff.mp hskip).2) (hrest true)
      · split
        · next habove =>
          rw [habove.1]
          exact .cons .lost (hrest true)
        · by_cases hc : c = dollarSign
          · subst hc
            exact .cons .dollar (hrest false)
          · exact .cons (.byte hc) (hrest false)
    | escape =>
      show Leavings n _ (deleted n skipping (dollarSign :: dollarSign :: spell dollarSign tokens))
      rw [deleted_dollar, if_neg (@not_above n (dollarSign :: _) dollarSign_not_digit), deleted_dollar]
      split
      · exact .cons .half (hrest true)
      · next hnot => exact .cons (.escape hnot) (hrest false)
    | reference form name item =>
      have hname := h.head.1
      have hopen : ∀ form, form ≠ .braces →
          Leavings n (.reference form name item :: tokens)
            (deleted n skipping (dollarSign :: (name ++ spell dollarSign tokens))) := by
        intro form hform
        rw [deleted_dollar]
        split
        · next habove =>
          rw [deleted_digits (hname.digits_of_above habove)]
          exact .cons (.gone hform) (hrest true)
        · next hnot =>
          have hwithin : item.Within n := by
            by_contra habove
            obtain ⟨k, rfl, hk⟩ := Item.above habove
            exact hnot (hname.above_append hk _)
          rw [deleted_append hname.no_dollar]
          exact .cons (.reference hform hname hwithin hnot) (hrest false)
      cases form with
      | dollar => exact hopen .dollar (by decide)
      | backslash => exact hopen .backslash (by decide)
      | braces =>
        rw [spell_braces, deleted_braces hname]
        have hleft := Leavings.cons (.braces hname) (hrest false)
        simpa using hleft

end Leavings

/-! ## The dollar signs that are left

A token that is not left as a whole lacks a dollar sign, and one in a text lacks its second. A reading gets over this only
by taking `$$` for what is two dollar signs of different tokens, or `${` for bytes behind one. In the first case what
follows is read as bytes, in the second a closing brace is not, so that the two are weighed against each other. -/

def Token.owed (n : ℕ) : Token → ℕ
  | .byte c => if c = dollarSign then 2 else 0
  | .escape => 2
  | .special _ => 0
  | .reference _ _ item => if item.Within n then 1 else 0

def owed (n : ℕ) (tokens : List Token) : ℕ := (tokens.map (Token.owed n)).sum

def Token.closing : Token → ℕ
  | .byte c => if c = closeBrace then 1 else 0
  | _ => 0

def closing (tokens : List Token) : ℕ := (tokens.map Token.closing).sum

/-- Left as a whole, or gone as a whole. -/
def Token.Whole (n : ℕ) (rest : List Token) : Token → Prop
  | .byte c => c ≠ dollarSign
  | .escape => ¬ Above n (Template.spell dollarSign rest)
  | .special _ => True
  | .reference .braces _ item => item.Within n
  | .reference _ name item => item.Within n → ¬ Above n (name ++ Template.spell dollarSign rest)

def Whole (n : ℕ) : List Token → Prop
  | [] => True
  | t :: rest => t.Whole n rest ∧ Whole n rest

section Balance

variable {n : ℕ} {tokens : List Token} {u : Bytes} {items : List Item}

@[simp] theorem owed_nil : owed n [] = 0 := rfl

@[simp] theorem owed_cons (t : Token) : owed n (t :: tokens) = t.owed n + owed n tokens := by
  simp [owed]

@[simp] theorem closing_nil : closing [] = 0 := rfl

@[simp] theorem closing_cons (t : Token) : closing (t :: tokens) = t.closing + closing tokens := by
  simp [closing]

@[simp] theorem owed_byte {c : UInt8} (hc : c ≠ dollarSign) : (Token.byte c).owed n = 0 := by simp [Token.owed, hc]

@[simp] theorem owed_dollar : (Token.byte dollarSign).owed n = 2 := by simp [Token.owed]

theorem whole_reference {form : Form} {name : Bytes} {item : Item} (hform : form ≠ .braces)
    (h : item.Within n → ¬ Above n (name ++ spell dollarSign tokens)) :
    (Token.reference form name item).Whole n tokens := by
  cases form with
  | dollar => exact h
  | backslash => exact h
  | braces => exact absurd rfl hform

theorem Piece.nothing {t : Token} (h : Piece n tokens t []) : t.closing = 0 ∧ (t.owed n = 0 → t.Whole n tokens) := by
  cases h with
  | @digit c hc =>
    have hclose : c ≠ closeBrace := by
      rintro rfl
      exact absurd hc (by decide)
    have hdollar : c ≠ dollarSign := by
      rintro rfl
      exact absurd hc (by decide)
    exact ⟨by simp [Token.closing, hclose], fun _ => hdollar⟩
  | lost => exact ⟨by decide, fun howed => by simp at howed⟩
  | gone hform =>
    refine ⟨rfl, fun howed => whole_reference hform fun hwithin => ?_⟩
    rw [Token.owed, if_pos hwithin] at howed
    cases howed

theorem Leavings.drop {v : Bytes} (h : Leavings n tokens v) : ∀ {w y : Bytes}, v = w ++ y → dollarSign ∉ w →
    ∃ rest, Leavings n rest y ∧ rest.length ≤ tokens.length ∧
      closing tokens + 2 * owed n rest ≤ closing rest + 2 * owed n tokens + w.count closeBrace ∧
      (closing tokens + 2 * owed n rest = closing rest + 2 * owed n tokens + w.count closeBrace → Whole n rest →
        Whole n tokens) := by
  induction h with
  | nil =>
    intro w y hv hw
    obtain ⟨rfl, rfl⟩ := List.append_eq_nil_iff.mp hv.symm
    exact ⟨[], .nil, Nat.le_refl _, by simp, fun _ hwhole => hwhole⟩
  | @cons t tokens p u hpiece hu ih =>
    intro w y hv hw
    cases w with
    | nil =>
      rw [List.nil_append] at hv
      exact ⟨t :: tokens, hv ▸ .cons hpiece hu, Nat.le_refl _, by simp, fun _ hwhole => hwhole⟩
    | cons d w =>
      rw [List.mem_cons, not_or] at hw
      rw [List.length_cons, owed_cons, closing_cons]
      by_cases hp : p = []
      · subst hp
        obtain ⟨rest, hrest, hlen, hle, hwhole⟩ := ih hv (List.mem_cons.not.mpr (not_or.mpr hw))
        obtain ⟨hclosing, hnothing⟩ := hpiece.nothing
        exact ⟨rest, hrest, by omega, by omega, fun heq hr => ⟨hnothing (by omega), hwhole (by omega) hr⟩⟩
      · cases hpiece with
        | digit hc => exact absurd rfl hp
        | lost => exact absurd rfl hp
        | gone hform => exact absurd rfl hp
        | @byte c hc =>
          obtain ⟨rfl, htail⟩ := List.cons.inj hv
          obtain ⟨rest, hrest, hlen, hle, hwhole⟩ := ih htail hw.2
          have howed : (Token.byte c).owed n = 0 := owed_byte hc
          have hcount : (c :: w).count closeBrace = (Token.byte c).closing + w.count closeBrace := by
            rw [List.count_cons, Token.closing, Nat.add_comm]
            simp
          exact ⟨rest, hrest, by omega, by omega, fun heq hr => ⟨hc, hwhole (by omega) hr⟩⟩
        | dollar => exact absurd (List.cons.inj hv).1 hw.1
        | escape hnot => exact absurd (List.cons.inj hv).1 hw.1
        | half => exact absurd (List.cons.inj hv).1 hw.1
        | reference hform hname hwithin hnot => exact absurd (List.cons.inj hv).1 hw.1
        | braces hname => exact absurd (List.cons.inj hv).1 hw.1

/-- The dollar signs that are left are no more than those that are owed, and as many only if every token is whole. -/
def Balanced (n : ℕ) (tokens : List Token) (u : Bytes) (items : List Item) : Prop :=
  2 * u.count dollarSign + closing tokens ≤ 2 * owed n tokens + items.count (.byte closeBrace) ∧
    (2 * u.count dollarSign + closing tokens = 2 * owed n tokens + items.count (.byte closeBrace) → Whole n tokens)

/-- The same behind one dollar sign too many. -/
def Trailing (n : ℕ) (tokens : List Token) (u : Bytes) (items : List Item) : Prop :=
  2 * u.count dollarSign + closing tokens ≤ 2 * owed n tokens + items.count (.byte closeBrace) + 1

theorem count_bytes (w : Bytes) (c : UInt8) (items : List Item) :
    (w.map Item.byte ++ items).count (.byte c) = w.count c + items.count (.byte c) := by
  rw [List.count_append, List.count_map_of_injective w Item.byte (fun _ _ h => Item.byte.inj h)]

theorem count_cons_item {item : Item} (h : ∀ c, item ≠ .byte c) (c : UInt8) (items : List Item) :
    (item :: items).count (.byte c) = items.count (.byte c) := List.count_cons_of_ne (h c)

theorem count_cons_dollar (items : List Item) :
    (Item.byte dollarSign :: items).count (.byte closeBrace) = items.count (.byte closeBrace) :=
  List.count_cons_of_ne (by decide)

section Steps

variable {t : Token} {p : Bytes} (hpiece : Piece n tokens t p) (hu : Leavings n tokens u)
  (htrailing : ∀ items, Reads n (dollarSign :: u) items → Trailing n tokens u items)
include hpiece hu htrailing

theorem balanced_step
    (hbalanced : ∀ rest u items, rest.length ≤ tokens.length → Leavings n rest u → Reads n u items →
      Balanced n rest u items)
    (h : Reads n (p ++ u) items) : Balanced n (t :: tokens) (p ++ u) items := by
  have hsame := fun items => hbalanced tokens u items (Nat.le_refl _) hu
  rw [Balanced, owed_cons, closing_cons, List.count_append]
  by_cases hp : p = []
  · subst hp
    obtain ⟨hclosing, hnothing⟩ := hpiece.nothing
    obtain ⟨hle, hwhole⟩ := hsame items h
    rw [List.count_nil]
    exact ⟨by omega, fun heq => ⟨hnothing (by omega), hwhole (by omega)⟩⟩
  · cases hpiece with
    | digit hc => exact absurd rfl hp
    | lost => exact absurd rfl hp
    | gone hform => exact absurd rfl hp
    | @byte c hc =>
      obtain ⟨items, rfl, hread⟩ := h.uncons hc
      obtain ⟨hle, hwhole⟩ := hsame items hread
      have hcount : (Item.byte c :: items).count (.byte closeBrace) =
          items.count (.byte closeBrace) + (Token.byte c).closing := by
        rw [List.count_cons, Token.closing]
        simp
      rw [owed_byte hc, hcount, List.count_cons_of_ne hc, List.count_nil]
      exact ⟨by omega, fun heq => ⟨hc, hwhole (by omega)⟩⟩
    | dollar =>
      have hle := htrailing items h
      rw [Trailing] at hle
      have hclosing : (Token.byte dollarSign).closing = 0 := by decide
      rw [owed_dollar, List.count_singleton_self]
      exact ⟨by omega, fun heq => by omega⟩
    | escape hnot =>
      obtain ⟨items, rfl, hread⟩ := h.unescape
      obtain ⟨hle, hwhole⟩ := hsame items hread
      rw [count_cons_dollar]
      have hcount : [dollarSign, dollarSign].count dollarSign = 2 := by decide
      have howed : Token.escape.owed n = 2 := rfl
      have hclosing : Token.escape.closing = 0 := rfl
      exact ⟨by omega, fun heq => ⟨hnot, hwhole (by omega)⟩⟩
    | half =>
      have hle := htrailing items h
      rw [Trailing] at hle
      have howed : Token.escape.owed n = 2 := rfl
      have hclosing : Token.escape.closing = 0 := rfl
      rw [List.count_singleton_self]
      exact ⟨by omega, fun heq => by omega⟩
    | @reference form name item hform hname hwithin hnot =>
      have howed : (Token.reference form name item).owed n = 1 := if_pos hwithin
      have hclosing : (Token.reference form name item).closing = 0 := rfl
      have hwhole' := @whole_reference n tokens form name item hform fun _ => hnot
      obtain ⟨name', y, item', items, hname', heq, -, -, rfl, hread⟩ := h.unname hname
      rw [count_cons_item fun c hc => Names.not_byte (hc ▸ hname'), List.count_cons_self, hname.count_dollar]
      obtain ⟨w, hlonger, hy⟩ | ⟨w, hshorter, hy⟩ := List.append_eq_append_iff.mp heq
      · -- the name that is read takes in bytes of the tokens behind
        have hw : dollarSign ∉ w := fun hmem => hname'.no_dollar (hlonger ▸ List.mem_append_right _ hmem)
        have hclose : w.count closeBrace = 0 := by
          have hcount := hname'.count_close
          rw [hlonger, List.count_append] at hcount
          omega
        obtain ⟨rest, hrest, hlen, hle, hwhole⟩ := hu.drop hy hw
        obtain ⟨hle', hwhole''⟩ := hbalanced rest y items hlen hrest hread
        have hcount : u.count dollarSign = y.count dollarSign := by
          rw [hy, List.count_append, List.count_eq_zero.mpr hw, Nat.zero_add]
        exact ⟨by omega, fun heq => ⟨hwhole', hwhole (by omega) (hwhole'' (by omega))⟩⟩
      · have hw : dollarSign ∉ w := fun hmem => hname.no_dollar (hshorter ▸ List.mem_append_right _ hmem)
        rw [hy] at hread
        obtain ⟨items, rfl, htail⟩ := hread.unappend hw
        obtain ⟨hle, hwhole⟩ := hsame items htail
        rw [count_bytes]
        exact ⟨by omega, fun heq => ⟨hwhole', hwhole (by omega)⟩⟩
    | @braces name item hname =>
      have hu' : dollarSign :: openBrace :: (name ++ [closeBrace]) ++ u =
          dollarSign :: openBrace :: (name ++ closeBrace :: u) := by simp
      rw [hu'] at h
      obtain ⟨items, rfl, hwithin, hread⟩ := h.unbrace hname
      obtain ⟨hle, hwhole⟩ := hsame items hread
      have howed : (Token.reference .braces name item).owed n = 1 := if_pos hwithin
      have hclosing : (Token.reference .braces name item).closing = 0 := rfl
      have hcount : (dollarSign :: openBrace :: (name ++ [closeBrace])).count dollarSign = 1 := by
        rw [List.count_cons_self, List.count_cons_of_ne (by decide), List.count_append, hname.count_dollar]
        decide
      rw [count_cons_item fun c hc => Names.not_byte (hc ▸ hname)]
      exact ⟨by omega, fun heq => ⟨hwithin, hwhole (by omega)⟩⟩

theorem trailing_step
    (hbalanced : ∀ rest u items, rest.length ≤ tokens.length + 1 → Leavings n rest u → Reads n u items →
      Balanced n rest u items)
    (h : Reads n (dollarSign :: (p ++ u)) items) : Trailing n (t :: tokens) (p ++ u) items := by
  have hsame := fun items h => (hbalanced tokens u items (Nat.le_succ _) hu h).1
  rw [Trailing, owed_cons, closing_cons]
  obtain ⟨v, items, hv, rfl, hread⟩ | ⟨w, y, item, items, hwy, hne, hw, hcount, hitem, rfl, hread⟩ := h.undollar
  · rw [count_cons_dollar]
    by_cases hp : p = []
    · subst hp
      have hle := htrailing (.byte dollarSign :: items) h
      rw [Trailing, count_cons_dollar] at hle
      have hclosing := hpiece.nothing.1
      rw [List.nil_append]
      omega
    · cases hpiece with
      | digit hc => exact absurd rfl hp
      | lost => exact absurd rfl hp
      | gone hform => exact absurd rfl hp
      | byte hc => exact absurd (List.cons.inj hv).1 hc
      | dollar =>
        obtain rfl := (List.cons.inj hv).2
        have hle := hsame items hread
        have hclosing : (Token.byte dollarSign).closing = 0 := by decide
        rw [owed_dollar, List.count_append, List.count_singleton_self]
        omega
      | escape hnot =>
        obtain rfl := (List.cons.inj hv).2
        have hle := htrailing items hread
        rw [Trailing] at hle
        have hcount : [dollarSign, dollarSign].count dollarSign = 2 := by decide
        have howed : Token.escape.owed n = 2 := rfl
        have hclosing : Token.escape.closing = 0 := rfl
        rw [List.count_append]
        omega
      | half =>
        obtain rfl := (List.cons.inj hv).2
        have hle := hsame items hread
        have howed : Token.escape.owed n = 2 := rfl
        have hclosing : Token.escape.closing = 0 := rfl
        rw [List.count_append, List.count_singleton_self]
        omega
      | @reference form name item hform hname hwithin hnot =>
        obtain rfl := (List.cons.inj hv).2
        obtain ⟨items, rfl, htail⟩ := hread.unappend hname.no_dollar
        have hle := hsame items htail
        have howed : (Token.reference form name item).owed n = 1 := if_pos hwithin
        have hclosing : (Token.reference form name item).closing = 0 := rfl
        rw [count_bytes, hname.count_close, List.count_append, List.count_cons_self, hname.count_dollar]
        omega
      | @braces name item hname =>
        obtain rfl := (List.cons.inj hv).2
        have hoff : dollarSign ∉ openBrace :: (name ++ [closeBrace]) := by
          simp only [List.mem_cons, List.mem_append, List.not_mem_nil, or_false, not_or]
          exact ⟨by decide, hname.no_dollar, by decide⟩
        have hclose : (openBrace :: (name ++ [closeBrace])).count closeBrace = 1 := by
          rw [List.count_cons_of_ne (by decide), List.count_append, hname.count_close]
          decide
        obtain ⟨items, rfl, htail⟩ := hread.unappend hoff
        have hle := hsame items htail
        have hclosing : (Token.reference .braces name item).closing = 0 := rfl
        rw [count_bytes, hclose, List.count_append, List.count_cons_self, List.count_eq_zero.mpr hoff]
        omega
  · -- a reference that begins with the dollar sign that is too many
    obtain ⟨rest, hrest, hlen, hle, -⟩ := Leavings.drop (.cons hpiece hu) hwy hw
    have hle' := (hbalanced rest y items hlen hrest hread).1
    have hsum : (p ++ u).count dollarSign = y.count dollarSign := by
      rw [hwy, List.count_append, List.count_eq_zero.mpr hw, Nat.zero_add]
    rw [owed_cons, closing_cons] at hle
    rw [hsum, count_cons_item hitem]
    omega

end Steps

/-- Step by step along the tokens, with a dollar sign too many and without. -/
theorem balanced_and_trailing (length : ℕ) : ∀ (tokens : List Token) (u : Bytes) (items : List Item),
    tokens.length ≤ length → Leavings n tokens u →
    (Reads n u items → Balanced n tokens u items) ∧ (Reads n (dollarSign :: u) items → Trailing n tokens u items) := by
  have hnil : ∀ {u : Bytes} {items : List Item}, Leavings n [] u →
      (Reads n u items → Balanced n [] u items) ∧ (Reads n (dollarSign :: u) items → Trailing n [] u items) := by
    intro u items hu
    cases hu with
    | nil =>
      refine ⟨fun _ => ⟨by simp, fun _ => trivial⟩, fun h => ?_⟩
      rw [Trailing, List.count_nil, closing_nil]
      omega
  induction length with
  | zero =>
    intro tokens u items hlen hu
    obtain rfl := List.length_eq_zero_iff.mp (Nat.le_zero.mp hlen)
    exact hnil hu
  | succ length ih =>
    have hbalanced : ∀ (tokens : List Token) (u : Bytes) (items : List Item), tokens.length ≤ length + 1 →
        Leavings n tokens u → Reads n u items → Balanced n tokens u items := by
      intro tokens u items hlen hu h
      cases hu with
      | nil => exact (hnil .nil).1 h
      | @cons t tokens p u hpiece hu =>
        have hshort : tokens.length ≤ length := Nat.le_of_succ_le_succ hlen
        exact balanced_step hpiece hu (fun items => (ih tokens u items hshort hu).2)
          (fun rest u items hrest hu => (ih rest u items (Nat.le_trans hrest hshort) hu).1) h
    intro tokens u items hlen hu
    refine ⟨hbalanced tokens u items hlen hu, fun h => ?_⟩
    cases hu with
    | nil => exact (hnil .nil).2 h
    | @cons t tokens p u hpiece hu =>
      have hshort : tokens.length ≤ length := Nat.le_of_succ_le_succ hlen
      exact trailing_step hpiece hu (fun items => (ih tokens u items hshort hu).2)
        (fun rest u items hrest => hbalanced rest u items (Nat.le_trans hrest hlen)) h

end Balance

/-! ## Token by token, again -/

section Sync

variable {n : ℕ} {texts : Special → Bytes} {tokens : List Token} {t : Bytes} {items : List Item}

theorem meaning_owed (h : Proper tokens) : dollars (tokens.flatMap (Token.meaning n texts)) = owed n tokens := by
  induction tokens with
  | nil => rfl
  | cons t tokens ih =>
    rw [List.flatMap_cons, dollars_append, owed_cons, ih h.tail]
    congr 1
    cases t with
    | special kind => exact absurd h.head id
    | byte c => exact Nat.add_zero _
    | escape => rfl
    | reference form name item =>
      rw [Token.meaning, Token.owed]
      split
      · exact h.head.1.dollars
      · rfl

theorem meaning_closing (h : Proper tokens) :
    (tokens.flatMap (Token.meaning n texts)).count (.byte closeBrace) = closing tokens := by
  induction tokens with
  | nil => rfl
  | cons t tokens ih =>
    rw [List.flatMap_cons, List.count_append, closing_cons, ih h.tail]
    congr 1
    cases t with
    | special kind => exact absurd h.head id
    | byte c => simp [Token.meaning, Token.closing, List.count_singleton]
    | escape => rfl
    | reference form name item =>
      rw [Token.meaning]
      split
      · rw [count_cons_item fun c hc => Names.not_byte (hc ▸ h.head.1)]
        rfl
      · rfl

/-- Where what is left reads as what is meant, it is what is meant to be left. -/
theorem whole_of_reads (hproper : Proper tokens) (skipping : Bool)
    (h : Reads n (deleted n skipping (spell dollarSign tokens)) (tokens.flatMap (Token.meaning n texts))) :
    Whole n tokens := by
  have hbalanced := (balanced_and_trailing _ tokens _ _ (Nat.le_refl _) (deleted_leavings hproper skipping)).1 h
  refine hbalanced.2 ?_
  rw [h.count_dollar, meaning_owed hproper, meaning_closing hproper]

theorem Whole.no_dollar (h : Whole n tokens) : .byte dollarSign ∉ tokens := by
  induction tokens with
  | nil => exact List.not_mem_nil
  | cons t tokens ih =>
    rw [List.mem_cons, not_or]
    refine ⟨?_, ih h.2⟩
    rintro rfl
    exact h.1 rfl

theorem deleted_true_head (t : Bytes) : isdigit ((deleted n true t).headD 0) = false := by
  induction t with
  | nil => rfl
  | cons c t ih =>
    rw [deleted]
    split
    · exact ih
    · next hskip =>
      split
      · exact ih
      · rw [List.headD_cons]
        simpa using hskip

theorem deleted_head (t : Bytes) : isdigit ((deleted n false t).headD 0) = isdigit (t.headD 0) := by
  cases t with
  | nil => rfl
  | cons c t =>
    rw [deleted, Bool.false_and, if_neg Bool.false_ne_true]
    split
    · next habove =>
      rw [deleted_true_head, List.headD_cons, habove.1]
      rfl
    · rfl

/-- What the last pass leaves is read as what is meant only if no token joins with what stands behind it. -/
theorem apart_of_deleted (hproper : Proper tokens) (hwhole : Whole n tokens)
    (h : Reads n (deleted n false (spell dollarSign tokens)) (tokens.flatMap (Token.meaning n texts))) :
    Apart n True tokens := by
  induction tokens with
  | nil => trivial
  | cons t tokens ih =>
    have hrest := ih hproper.tail hwhole.2
    have hlead : isdigit ((spell dollarSign tokens).headD 0) = leadsDigit tokens :=
      spell_head dollarSign_not_digit hproper.tail
    cases t with
    | special kind => exact absurd hproper.head id
    | byte c =>
      have hc : c ≠ dollarSign := hwhole.1
      rw [spell_cons] at h
      obtain ⟨items, hitems, hread⟩ := (deleted_cons hc _ ▸ h).uncons hc
      rw [(List.cons.inj hitems).2.symm] at hread
      exact ⟨trivial, hrest hread⟩
    | escape =>
      have hnot : ¬ Above n (spell dollarSign tokens) := hwhole.1
      obtain ⟨items, hitems, hread⟩ := (deleted_escape hnot ▸ h).unescape
      rw [(List.cons.inj hitems).2.symm] at hread
      exact ⟨fun _ => hnot, hrest hread⟩
    | reference form name item =>
      have hname := hproper.head.1
      have hopen : ∀ form, form ≠ .braces → (item.Within n → ¬ Above n (name ++ spell dollarSign tokens)) →
          Reads n (deleted n false (dollarSign :: (name ++ spell dollarSign tokens)))
            ((Token.reference form name item).meaning n texts ++ tokens.flatMap (Token.meaning n texts)) →
          Stands n True item tokens ∧ Apart n True tokens := by
        intro form hform hnot h
        rw [Token.meaning] at h
        by_cases hwithin : item.Within n
        · rw [if_pos hwithin, deleted_kept (hnot hwithin), deleted_append hname.no_dollar] at h
          obtain ⟨hends, hread⟩ := reads_reference hname
            (fun hdigit => meaning_digit (by rwa [deleted_head, hlead] at hdigit)) h
          have hapart := hrest hread
          refine ⟨⟨?_, fun _ => ?_, fun hnot => absurd hwithin hnot⟩, hapart⟩
          · rintro k rfl
            rw [Item.Ends, deleted_head] at hends
            exact hends
          · rwa [deleted_spell hproper.tail hwhole.2.no_dollar hapart] at hends
        · obtain ⟨k, rfl, hk⟩ := Item.above hwithin
          rw [if_neg hwithin, deleted_above false (hname.above_append hk _),
            deleted_digits hname.group_digits.1, List.nil_append] at h
          have hnodigit : isdigit ((spell dollarSign tokens).headD 0) = false := by
            rw [hlead]
            cases hdigit : leadsDigit tokens with
            | false => rfl
            | true =>
              obtain ⟨c, items, hitems, hc⟩ := @meaning_digit n texts tokens hdigit
              have hdollar : c ≠ dollarSign := by
                rintro rfl
                exact absurd hc (by decide)
              rw [hitems] at h
              obtain ⟨t, ht, -⟩ := h.byte_head hdollar
              have hhead := @deleted_true_head n (spell dollarSign tokens)
              rw [ht, List.headD_cons, hc] at hhead
              cases hhead
          rw [deleted_skipping hnodigit] at h
          exact ⟨⟨fun _ _ => hnodigit, fun hwithin' => absurd hwithin' hwithin, fun _ => trivial⟩, hrest h⟩
      cases form with
      | dollar => exact hopen .dollar (by decide) hwhole.1 h
      | backslash => exact hopen .backslash (by decide) hwhole.1 h
      | braces =>
        have hwithin : item.Within n := hwhole.1
        rw [spell_braces, deleted_braces hname] at h
        obtain ⟨items, hitems, -, hread⟩ := h.unbrace hname
        rw [List.flatMap_cons, Token.meaning, if_pos hwithin] at hitems
        rw [(List.cons.inj hitems).2.symm] at hread
        exact ⟨hwithin, hrest hread⟩

end Sync

end Libntech.Containers.Template
