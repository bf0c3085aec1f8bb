import Libntech.Containers.SubstitutionBalance

/-! # When the string that is handed over means what it is to mean

It does where the substitution string has no `$$` before a character that is special behind a dollar sign and the texts
that are put in do no harm, and else only where the texts that such a `$$` calls for make up for what it loses.
-/
namespace Libntech.Containers.Template
set_option autoImplicit false

open Libntech.Json (Bytes CString ascii decimal)

/-! ## The bytes that the passes keep -/

section Kept

variable {n : ℕ} {texts : Special → Bytes} {t u : Bytes}

theorem count_deleted {c : UInt8} (hdigit : isdigit c = false) (hdollar : c ≠ dollarSign) (skipping : Bool) (t : Bytes) :
    (deleted n skipping t).count c = t.count c := by
  induction t generalizing skipping with
  | nil => rfl
  | cons d t ih =>
    rw [deleted]
    split
    · next hskip =>
      have hne : d ≠ c := by
        rintro rfl
        rw [hdigit, Bool.and_false] at hskip
        cases hskip
      rw [List.count_cons_of_ne hne, ih]
    · split
      · next habove =>
        rw [habove.1, List.count_cons_of_ne hdollar.symm, ih]
      · rw [List.count_cons, List.count_cons, ih]

theorem count_translate {c : UInt8} (hback : c ≠ backslash) (hdollar : c ≠ dollarSign) (t : Bytes) :
    (translateBackslashes t).count c = t.count c := by
  induction t with
  | nil => rfl
  | cons d t ih =>
    rw [translateBackslashes]
    split
    · next h => rw [h.1, List.count_cons_of_ne hdollar.symm, List.count_cons_of_ne hback.symm, ih]
    · rw [List.count_cons, List.count_cons, ih]

/-- The string after the second pass. -/
def marked (texts : Special → Bytes) (t : Bytes) : Bytes :=
  if (scan t).hasBackslashBref then translateBackslashes (replaceSpecials texts t) else replaceSpecials texts t

theorem passes_marked : passes n texts t =
    if (n : ℤ) < (scan t).highestBref then deleteReferences n false (marked texts t) else some (marked texts t) := rfl

theorem passes_count {c : UInt8} (hdigit : isdigit c = false) (hdollar : c ≠ dollarSign) (h : passes n texts t = some u) :
    u.count c = (marked texts t).count c := by
  rw [passes_marked] at h
  split at h
  · obtain ⟨-, rfl⟩ := (deleteReferences_eq_some_iff n false _ u).mp h
    exact count_deleted hdigit hdollar false _
  · rw [Option.some.inj h]

theorem marked_count {c : UInt8} (hback : c ≠ backslash) (hdollar : c ≠ dollarSign) :
    (marked texts t).count c = (replaceSpecials texts t).count c := by
  unfold marked
  split
  · exact count_translate hback hdollar _
  · rfl

end Kept

/-! ## No NUL, and no backslash too many -/

section Backslashes

variable {n : ℕ} {texts : Special → Bytes} {tokens : List Token}

theorem not_mem_replaceSpecials {c : UInt8} (htexts : ∀ kind, c ∉ texts kind) {t : Bytes} (ht : c ∉ t) :
    c ∉ replaceSpecials texts t := by
  induction t using replaceSpecials.induct with
  | case1 => exact ht
  | case2 d => exact ht
  | case3 d rest kind hspecial ih =>
    rw [replaceSpecials, if_pos rfl, hspecial]
    simp_all
  | case4 d rest hspecial ih =>
    rw [replaceSpecials, if_pos rfl, hspecial]
    simp_all
  | case5 d e rest hd ih =>
    rw [replaceSpecials, if_neg hd]
    simp_all

theorem meaning_count {t : Token} (h : t.Proper) {c : UInt8} (hdollar : c ≠ dollarSign) (hne : t ≠ .byte c) :
    (t.meaning n texts).count (.byte c) = 0 := by
  rw [List.count_eq_zero]
  cases t with
  | special kind => exact absurd h id
  | byte d =>
    rw [Token.meaning, List.mem_singleton]
    rintro heq
    exact hne (by rw [Item.byte.inj heq])
  | escape =>
    rw [Token.meaning, List.mem_singleton]
    exact fun heq => hdollar (Item.byte.inj heq)
  | reference form name item =>
    rw [Token.meaning]
    split
    · rw [List.mem_singleton]
      rintro rfl
      exact Names.not_byte h.1
    · exact List.not_mem_nil

theorem spell_count {t : Token} (h : t.Proper) (hne : t ≠ .byte backslash) :
    (t.spell dollarSign).count backslash = 0 := by
  rw [List.count_eq_zero]
  cases t with
  | special kind => exact absurd h id
  | byte d =>
    rw [Token.spell, List.mem_singleton]
    rintro rfl
    exact hne rfl
  | escape => decide
  | reference form name item =>
    have hname := h.1.no_backslash
    have hdollar : backslash ≠ dollarSign := by decide
    have hopen : backslash ≠ openBrace := by decide
    have hclose : backslash ≠ closeBrace := by decide
    cases form with
    | dollar => simp [Token.spell, hname, hdollar]
    | backslash => simp [Token.spell, hname, hdollar]
    | braces => simp [Token.spell, hname, hdollar, hopen, hclose]

/-- A backslash that the second pass turns is missing among the bytes. -/
theorem count_backslash (h : Proper tokens) :
    (translateBackslashes (spell backslash tokens)).count backslash ≤
        (tokens.flatMap (Token.meaning n texts)).count (.byte backslash) ∧
      ((translateBackslashes (spell backslash tokens)).count backslash =
        (tokens.flatMap (Token.meaning n texts)).count (.byte backslash) → NoPair tokens) := by
  induction tokens with
  | nil => exact ⟨Nat.le_refl _, fun _ => trivial⟩
  | cons t tokens ih =>
    obtain ⟨hle, hpair⟩ := ih h.tail
    rw [List.flatMap_cons, List.count_append]
    by_cases hbyte : t = .byte backslash
    · subst hbyte
      have htranslate : translateBackslashes (spell backslash (.byte backslash :: tokens)) =
          (if leadsDigit tokens = true then dollarSign else backslash) ::
            translateBackslashes (spell backslash tokens) := by
        rw [← spell_head (by decide : isdigit backslash = false) h.tail]
        exact translate_backslash _
      have hone : ((Token.byte backslash).meaning n texts).count (.byte backslash) = 1 := by simp [Token.meaning]
      rw [htranslate, hone]
      cases hlead : leadsDigit tokens with
      | true =>
        have hne : dollarSign ≠ backslash := by decide
        rw [if_pos rfl, List.count_cons_of_ne hne]
        exact ⟨by omega, fun heq => by omega⟩
      | false =>
        rw [if_neg Bool.false_ne_true, List.count_cons_self]
        exact ⟨by omega, fun heq => ⟨fun _ => hlead, hpair (by omega)⟩⟩
    · rw [spell_cons, translate_token h.head hbyte, List.count_append, spell_count h.head hbyte,
        meaning_count h.head (by decide) hbyte]
      exact ⟨by omega, fun heq => ⟨fun heq' => absurd heq' hbyte, hpair (by omega)⟩⟩

end Backslashes

/-! ## Special characters -/

section Specials

variable {n : ℕ} {texts texts' : Special → Bytes} {t : Bytes} {tokens : List Token}

/-- A string has no more of each special character than the items, and as many only if something holds. -/
def Keeps (s : Bytes) (items : List Item) (whole : Prop) : Prop :=
  (∀ c kind, special c = some kind → s.count c ≤ items.count (.byte c)) ∧
    ((∀ c kind, special c = some kind → s.count c = items.count (.byte c)) → whole)

theorem Keeps.step {s s' : Bytes} {items items' : List Item} {whole whole' : Prop} (h : Keeps s items whole)
    (hadd : ∀ c kind, special c = some kind → s'.count c + items.count (.byte c) = s.count c + items'.count (.byte c))
    (hwhole : whole → whole') : Keeps s' items' whole' := by
  refine ⟨fun c kind hc => ?_, fun heq => hwhole (h.2 fun c kind hc => ?_)⟩
  · have hle := h.1 c kind hc
    have hsum := hadd c kind hc
    omega
  · have hsum := hadd c kind hc
    rw [heq c kind hc] at hsum
    omega

section Counts

variable {c : UInt8} {kind : Special} (hc : special c = some kind)
include hc

theorem count_cons_plain {d : UInt8} (hd : special d = none) (s : Bytes) : (d :: s).count c = s.count c := by
  have hne : d ≠ c := by
    rintro rfl
    rw [hd] at hc
    cases hc
  exact List.count_cons_of_ne hne

theorem count_plain {w : Bytes} (hw : ∀ d ∈ w, special d = none) : w.count c = 0 := by
  refine List.count_eq_zero.mpr fun hmem => ?_
  rw [hw c hmem] at hc
  cases hc

theorem Names.count_special {name : Bytes} {item : Item} (h : Names name item) : name.count c = 0 :=
  List.count_eq_zero.mpr (h.off (special_word hc).1 (special_word hc).2.1)

theorem count_escape (items : List Item) : (Item.byte dollarSign :: items).count (.byte c) = items.count (.byte c) := by
  have hne : dollarSign ≠ c := Ne.symm (special_word hc).2.2.1
  exact List.count_cons_of_ne fun heq => hne (Item.byte.inj heq)

end Counts

theorem count_reference {name : Bytes} {item : Item} (h : Names name item) (items : List Item) (c : UInt8) :
    ((if item.Within n then [item] else []) ++ items).count (.byte c) = items.count (.byte c) := by
  split
  · exact count_cons_item (fun c hc => Names.not_byte (hc ▸ h)) c items
  · rfl

/-- Each `$$` before a special character loses it, if no text brings it back. -/
theorem keeps_of_lexes (h : Lexes t tokens) (htexts : ∀ kind, ∀ c ∈ texts kind, special c = none)
    (htexts' : ∀ kind, ∀ c ∈ texts' kind, special c = none) :
    Keeps (replaceSpecials texts t) (tokens.flatMap (Token.meaning n texts')) (Plain tokens) := by
  induction h with
  | nil => exact ⟨fun _ _ _ => Nat.le_refl _, fun _ => trivial⟩
  | @byte d t tokens hd hb h ih =>
    refine ih.step (fun c kind hc => ?_) fun hplain => ⟨by simp, hplain⟩
    rw [replaceSpecials_cons texts hd, List.flatMap_cons, Token.meaning, List.singleton_append, List.count_cons,
      List.count_cons]
    simp
    omega
  | @escape t tokens h ih =>
    rw [@replaceSpecials_dollar texts (dollarSign :: _) special_dollarSign]
    cases hspecial : special (t.headD 0) with
    | none =>
      refine ih.step (fun c kind hc => ?_) fun hplain => ⟨fun _ c rest hrest => ?_, hplain⟩
      · rw [replaceSpecials_dollar texts hspecial, count_cons_plain hc special_dollarSign,
          count_cons_plain hc special_dollarSign, List.flatMap_cons, Token.meaning, List.singleton_append,
          count_escape hc]
      · subst hrest
        cases h with
        | byte => exact hspecial
    | some kind =>
      cases t with
      | nil => cases hspecial
      | cons d t =>
        have hd : special d = some kind := hspecial
        rw [replaceSpecials_cons texts (special_word hd).2.2.1] at ih
        have hstring : ∀ c kind', special c = some kind' →
            (dollarSign :: replaceSpecials texts (dollarSign :: d :: t)).count c =
              (replaceSpecials texts t).count c := by
          intro c kind' hc
          rw [replaceSpecials, if_pos rfl, hd, count_cons_plain hc special_dollarSign, List.count_append,
            count_plain hc (htexts kind), Nat.zero_add]
        have hitems : ∀ c kind', special c = some kind' →
            ((Token.escape :: tokens).flatMap (Token.meaning n texts')).count (.byte c) =
              (tokens.flatMap (Token.meaning n texts')).count (.byte c) := by
          intro c kind' hc
          rw [List.flatMap_cons, Token.meaning, List.singleton_append, count_escape hc]
        refine ⟨fun c kind' hc => ?_, fun heq => ?_⟩
        · rw [hstring c kind' hc, hitems c kind' hc]
          exact Nat.le_trans List.count_le_count_cons (ih.1 c kind' hc)
        · have hlost := ih.1 d kind hd
          rw [← hitems d kind hd, ← heq d kind hd, hstring d kind hd, List.count_cons_self] at hlost
          omega
  | @special d kind' t tokens hs h ih =>
    refine ih.step (fun c kind hc => ?_) fun hplain => ⟨by simp, hplain⟩
    rw [replaceSpecials, if_pos rfl, hs, List.flatMap_cons, Token.meaning, count_bytes, List.count_append,
      count_plain hc (htexts kind'), count_plain hc (htexts' kind')]
    omega
  | @backslash digits t k tokens hn hends h ih =>
    refine ih.step (fun c kind hc => ?_) fun hplain => ⟨by simp, hplain⟩
    rw [replaceSpecials_cons texts (by decide), replaceSpecials_append texts hn.no_dollar, List.flatMap_cons,
      Token.meaning, count_reference hn, count_cons_plain hc special_backslash, List.count_append, hn.count_special hc,
      Nat.zero_add]
  | @name name t item tokens hn hends h ih =>
    refine ih.step (fun c kind hc => ?_) fun hplain => ⟨by simp, hplain⟩
    rw [replaceSpecials_dollar texts (hn.no_special _), replaceSpecials_append texts hn.no_dollar, List.flatMap_cons,
      Token.meaning, count_reference hn, count_cons_plain hc special_dollarSign, List.count_append,
      hn.count_special hc, Nat.zero_add]
  | @braces name t item tokens hn h ih =>
    refine ih.step (fun c kind hc => ?_) fun hplain => ⟨by simp, hplain⟩
    rw [replaceSpecials_braces texts hn, List.flatMap_cons, Token.meaning, count_reference hn,
      count_cons_plain hc special_dollarSign, count_cons_plain hc special_openBrace, List.count_append,
      hn.count_special hc, count_cons_plain hc special_closeBrace, Nat.zero_add]

end Specials

/-! ## When it means what it is to mean -/

section Meaning

variable {n : ℕ} {subject : Bytes} {m : Match subject} {substitute : CString} {tokens : List Token} {u : Bytes}

theorem passes_byte {t : Bytes} {texts : Special → Bytes} (c : UInt8) {items : List Item} (hword : isWord c = false)
    (hstar : c ≠ '*'.toUInt8) (hdollar : c ≠ dollarSign) (hopen : c ≠ openBrace) (hclose : c ≠ closeBrace)
    (hpasses : passes n texts t = some u) (h : Reads n u items) :
    items.count (.byte c) = (marked texts t).count c := by
  rw [h.count_byte hword hstar hdollar hopen hclose, passes_count (isdigit_of_word hword) hdollar hpasses]

theorem nul_of_reads (hpasses : passes n (cutTexts n m) substitute.bytes = some u)
    (h : Reads n u (tokens.flatMap (Token.meaning n (specialText n m)))) :
    .byte 0 ∉ filled (specialText n m) tokens := by
  intro hmem
  have hnul : 0 ∉ replaceSpecials (cutTexts n m) substitute.bytes :=
    not_mem_replaceSpecials (fun kind h0 => by simpa using List.mem_takeWhile_imp h0) substitute.nul_free
  have hcount := passes_byte 0 (by decide) (by decide) (by decide) (by decide) (by decide) hpasses h
  rw [marked_count (by decide) (by decide), List.count_eq_zero.mpr hnul, List.count_eq_zero, ← filled_meaning] at hcount
  exact hcount (List.mem_flatMap.mpr ⟨_, hmem, List.mem_singleton_self _⟩)

theorem harmless_of_reads (hlex : Lexes substitute.bytes tokens) (hplain : Plain tokens)
    (hpasses : passes n (cutTexts n m) substitute.bytes = some u)
    (h : Reads n u (tokens.flatMap (Token.meaning n (specialText n m)))) :
    Harmless n (scan substitute.bytes) (filled (specialText n m) tokens) := by
  have hnul := nul_of_reads hpasses h
  have hcut := filled_cut hnul
  have hproper := hlex.proper_filled (specialText n m)
  have hpair : (scan substitute.bytes).hasBackslashBref = true → NoPair (filled (specialText n m) tokens) := by
    intro hback
    have hcount := passes_byte backslash (by decide) (by decide) (by decide) (by decide) (by decide) hpasses h
    rw [marked, if_pos hback, replaceSpecials_lexes _ hlex hplain, hcut, ← filled_meaning] at hcount
    exact (count_backslash hproper).2 hcount.symm
  rw [passes_eq hlex hplain (by rwa [hcut]), hcut] at hpasses
  rw [← filled_meaning] at h
  by_cases hdeletes : (n : ℤ) < (scan substitute.bytes).highestBref
  · rw [if_pos hdeletes, deleteReferences_eq_some_iff] at hpasses
    obtain ⟨hcountable, rfl⟩ := hpasses
    have hwhole := whole_of_reads hproper false h
    refine ⟨hnul, hwhole.no_dollar, hpair, fun _ => hcountable, ?_⟩
    rw [eq_true hdeletes]
    exact apart_of_deleted hproper hwhole h
  · rw [if_neg hdeletes] at hpasses
    obtain rfl := Option.some.inj hpasses
    obtain ⟨hdollar, hapart⟩ := apart_of_reads hproper h
    refine ⟨hnul, hdollar, hpair, fun hdeletes' => absurd hdeletes' hdeletes, ?_⟩
    rwa [eq_false hdeletes]

/-- The texts do not make up for a special character that is lost behind `$$`. -/
theorem plain_of_reads (hlex : Lexes substitute.bytes tokens)
    (htexts : ∀ kind, ∀ c ∈ specialText n m kind, special c = none)
    (hpasses : passes n (cutTexts n m) substitute.bytes = some u)
    (h : Reads n u (tokens.flatMap (Token.meaning n (specialText n m)))) : Plain tokens := by
  have hcut : ∀ kind, ∀ c ∈ cutTexts n m kind, special c = none :=
    fun kind c hc => htexts kind c (List.takeWhile_subset _ hc)
  refine (@keeps_of_lexes n _ _ _ _ hlex hcut htexts).2 fun c kind hc => ?_
  obtain ⟨hword, hstar, hdollar, hback, hopen⟩ := special_word hc
  have hclose : c ≠ closeBrace := by
    rintro rfl
    rw [special_closeBrace] at hc
    cases hc
  rw [passes_byte c hword hstar hdollar hopen hclose hpasses h, marked_count hback hdollar]

end Meaning

/-- The string that is handed over means what it is to mean if the substitution string is plain and the texts are
harmless, and not otherwise, unless a `$$` is taken for the beginning of a special sequence and the text of this has
special characters of its own. -/
theorem means_iff_harmless (fresh : Memory) (n : ℕ) {subject : Bytes} (m : Match subject) (substitute : CString)
    (tokens : List Token) (hlex : Lexes substitute.bytes tokens) :
    (Plain tokens ∧ Harmless n (scan substitute.bytes) (filled (specialText n m) tokens) →
      Means fresh n m substitute tokens) ∧
    ((Plain tokens ∨ ∀ kind, ∀ c ∈ specialText n m kind, special c = none) → Means fresh n m substitute tokens →
      Plain tokens ∧ Harmless n (scan substitute.bytes) (filled (specialText n m) tokens)) := by
  refine ⟨fun ⟨hplain, hharmless⟩ => ?_, fun hspecial ⟨u, hhanded, hread⟩ => ?_⟩
  · have hnul := hharmless.nul
    rw [← filled_cut hnul] at hharmless
    obtain ⟨u, hpasses, hread⟩ := hharmless.passes_reads hlex hplain
    rw [meaning_cut hnul] at hread
    exact ⟨u, (handed_eq fresh n m substitute).trans hpasses, hread⟩
  · rw [handed_eq] at hhanded
    have hplain : Plain tokens := hspecial.elim id fun htexts => plain_of_reads hlex htexts hhanded hread
    exact ⟨hplain, harmless_of_reads hlex hplain hhanded hread⟩

/-- `<$&>\1$2` for a match of `a` in `ab` by a pattern with one group. -/
theorem means_iff_harmless_letter : Means (fun _ _ => 7) 1 (⟨0, 1, by decide, by decide⟩ : Match [97, 98])
    ⟨[60, 36, 38, 62, 92, 49, 36, 50], by decide⟩ [.byte 60, .special .whole, .byte 62,
      .reference .backslash [49] (.group 1), .reference .dollar [50] (.group 2)] := by
  have hone : Names [49] (.group 1) := .number (by decide) (List.all_eq_true.mp rfl)
  have htwo : Names [50] (.group 2) := .number (by decide) (List.all_eq_true.mp rfl)
  have hlex : Lexes [60, 36, 38, 62, 92, 49, 36, 50] [.byte 60, .special .whole, .byte 62,
      .reference .backslash [49] (.group 1), .reference .dollar [50] (.group 2)] :=
    .byte (by decide) (by decide) (.special rfl (.byte (by decide) (by decide)
      (.backslash hone (by decide : isdigit 36 = false)
        (@Lexes.name [50] [] _ _ htwo (by decide : isdigit 0 = false) .nil))))
  refine (means_iff_harmless (fun _ _ => 7) 1 _ ⟨_, _⟩ _ hlex).1 ⟨?_, ?_⟩
  · exact ⟨nofun, nofun, nofun, nofun, nofun, trivial⟩
  · have hfilled : filled (specialText 1 (⟨0, 1, by decide, by decide⟩ : Match [97, 98])) [.byte 60, .special .whole,
        .byte 62, .reference .backslash [49] (.group 1), .reference .dollar [50] (.group 2)] =
        [.byte 60, .byte 97, .byte 62, .reference .backslash [49] (.group 1), .reference .dollar [50] (.group 2)] := rfl
    rw [hfilled]
    have hdeletes : ((1 : ℕ) : ℤ) < (scan [60, 36, 38, 62, 92, 49, 36, 50]).highestBref := by decide
    have hbytes : ∀ c, .byte c ∈ [Token.byte 60, .byte 97, .byte 62, .reference .backslash [49] (.group 1),
        .reference .dollar [50] (.group 2)] → c ∈ [60, 97, 62] := by simp
    have hback : ∀ c ∈ [60, 97, 62], Token.byte c ≠ .byte backslash := fun c hc heq => by
      rw [Token.byte.inj heq] at hc
      exact absurd hc (by decide)
    refine ⟨fun h => absurd (hbytes _ h) (by decide), fun h => absurd (hbytes _ h) (by decide), fun _ => ?_,
      fun _ => by decide, ?_⟩
    · exact ⟨fun h => absurd h (hback 60 (by simp)), fun h => absurd h (hback 97 (by simp)),
        fun h => absurd h (hback 62 (by simp)), nofun, nofun, trivial⟩
    · exact ⟨trivial, trivial, trivial, ⟨fun _ _ => by decide, fun _ => by decide, fun h => absurd (Nat.le_refl 1) h⟩,
        ⟨fun _ _ => by decide, fun h => absurd h (by decide : ¬ 2 ≤ 1), fun _ => hdeletes⟩, trivial⟩

/-- `$&` for the match `$1` in itself is handed over as `$1`, a reference; and `$12` is handed over as it is where there
are five groups, as only its first digit has been looked at. -/
theorem text_read_as_reference :
    ¬ (∀ tokens, Lexes [36, 38] tokens → Means (fun _ _ => 7) 1 (⟨0, 2, by decide, by decide⟩ : Match [36, 49])
      ⟨[36, 38], by decide⟩ tokens) ∧
    ¬ ∀ tokens, Lexes [36, 49, 50] tokens → Means (fun _ _ => 7) 5 (⟨0, 0, by decide, by decide⟩ : Match [])
      ⟨[36, 49, 50], by decide⟩ tokens := by
  refine ⟨fun h => ?_, fun h => ?_⟩
  · obtain ⟨u, hhanded, hread⟩ := h [.special .whole] (.special rfl .nil)
    rw [handed_eq] at hhanded
    obtain rfl : [36, 49] = u := Option.some.inj hhanded
    obtain ⟨t, ht, -⟩ := Reads.second hread
    exact absurd (List.cons.inj ht).1 (by decide)
  · obtain ⟨u, hhanded, hread⟩ := h [.reference .dollar [49, 50] (.group 12)]
      (@Lexes.name [49, 50] [] _ _ (.number (by decide) (List.all_eq_true.mp rfl)) (by decide : isdigit 0 = false) .nil)
    rw [handed_eq] at hhanded
    obtain rfl : [36, 49, 50] = u := Option.some.inj hhanded
    exact absurd hread.count_dollar (by decide)

end Libntech.Containers.Template
