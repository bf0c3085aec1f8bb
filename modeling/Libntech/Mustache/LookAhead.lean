import Libntech.Mustache.DelimiterBuffers
import Libntech.Mustache.Turns

/-! # The look-ahead for `@` (`libutils/mustache.c`)

`SectionBody` reads the body of a section as `Render` does, tag by tag and through the sections inside it, up to its
closing tag. `ShouldIterateObject` reads the same tags, but only up to the first `#` or `/`; it goes on behind the
opening tag of an inverted section as if that were a comment; and it knows `@` only in three spellings.
-/
namespace Libntech.Mustache
set_option autoImplicit false

open Libntech.Json
open Libntech.Strings (Seen stringStartsWith stringStartsWith_iff)

/-! ## The tags of a body -/

/-- Where `Render` goes on behind a tag. -/
def nextInput (start : Bytes) (tag : MustacheTag) : Option ℕ :=
  match isTagTypeRenderable tag.type, tag.begin, tag.stop with
  | false, some begin, some stop =>
    match isTagStandalone start begin stop with
    | some line => some line.2
    | none => some stop
  | _, _, stop => stop

/-- The delimiters of a well-formed template are not empty and have no whitespace. -/
structure Delimiters.Proper (d : Delimiters) : Prop extends d.Usable where
  startSolid : ∀ c ∈ d.start.text, isWhitespace c = false
  stopSolid : ∀ c ∈ d.stop.text, isWhitespace c = false

/-- A tag of a body, with the number of sections inside the body that are open in front of it, and the delimiters. -/
structure BodyTag where
  depth : ℕ
  tag : MustacheTag
  delims : Delimiters

/-- From a position up to the closing tag of the section, with `depth` sections inside it open. -/
inductive SectionBody (start : Bytes) : ℕ → ℕ → Delimiters → List BodyTag → Prop
  | closed {input : ℕ} {d : Delimiters} : (nextTag start input d).type = .sectionEnd → SectionBody start 0 input d []
  | leave {depth input next : ℕ} {d : Delimiters} {rest : List BodyTag} : (nextTag start input d).type = .sectionEnd →
    nextInput start (nextTag start input d) = some next → SectionBody start depth next d rest →
    SectionBody start (depth + 1) input d (⟨depth + 1, nextTag start input d, d⟩ :: rest)
  | enter {depth input next : ℕ} {d : Delimiters} {rest : List BodyTag} :
    (nextTag start input d).type.opensSection = true → nextInput start (nextTag start input d) = some next →
    SectionBody start (depth + 1) next d rest → SectionBody start depth input d (⟨depth, nextTag start input d, d⟩ :: rest)
  | delim {depth input next : ℕ} {d d' : Delimiters} {rest : List BodyTag} : (nextTag start input d).type = .delim →
    setDelimiters ((nextTag start input d).name start) d = (.ok (), d') → d'.Proper →
    nextInput start (nextTag start input d) = some next → SectionBody start depth next d' rest →
    SectionBody start depth input d (⟨depth, nextTag start input d, d⟩ :: rest)
  | comment {depth input next : ℕ} {d : Delimiters} {rest : List BodyTag} : (nextTag start input d).type = .comment →
    nextInput start (nextTag start input d) = some next → SectionBody start depth next d rest →
    SectionBody start depth input d (⟨depth, nextTag start input d, d⟩ :: rest)
  | var {depth input next : ℕ} {d : Delimiters} {rest : List BodyTag} : (nextTag start input d).type.isVariable = true →
    nextInput start (nextTag start input d) = some next → SectionBody start depth next d rest →
    SectionBody start depth input d (⟨depth, nextTag start input d, d⟩ :: rest)

/-- `RenderVariable` is called for the tag, in `key_mode`. -/
def BodyTag.isKey (start : Bytes) (t : BodyTag) : Bool :=
  t.tag.type.isVariable && t.tag.contentLen != 0 &&
    strncmpEqual (t.tag.name start) (ascii "@") (t.tag.name start).length

variable {d d' : Delimiters} {start text : Bytes} {i input : ℕ} {seen : List BodyTag}

/-- The tag is written `{{@}}` or `{{&@}}`, in the delimiters in force, or `{{{@}}}` in the usual ones, and the rest of
the template is not so long that the parts of the tag are not found in it. -/
def BodyTag.isSpelled (start : Bytes) (t : BodyTag) : Bool :=
  let text := start.drop (t.tag.begin.getD 0)
  let first := t.delims.start.text
  let last := t.delims.stop.text
  ((first ++ ascii "@" ++ last).isPrefixOf text && Seen first text.length &&
      Seen last (text.length - (first.length + 1))) ||
    ((first ++ ascii "&@" ++ last).isPrefixOf text && Seen first text.length &&
      Seen (ascii "&@") (text.length - first.length) && Seen last (text.length - (first.length + 2))) ||
    (first == ascii "\x7b\x7b" && last == ascii "\x7d\x7d" &&
      (ascii "\x7b\x7b\x7b@\x7d\x7d\x7d").isPrefixOf text &&
      Seen (ascii "\x7b\x7b\x7b@\x7d\x7d\x7d") text.length)

/-- The tags in front of the first `#` or `/`. -/
def leading (seen : List BodyTag) : List BodyTag :=
  seen.takeWhile fun t => t.tag.type != .section && t.tag.type != .sectionEnd

/-- The body directly contains an `@`. -/
def ContainsKey (start : Bytes) (seen : List BodyTag) : Prop := ∃ t ∈ seen, t.depth = 0 ∧ t.isKey start = true

/-! ## Behind a line -/

theorem lineEnd_blank {e : ℕ} (htext : start.drop i = text) (he : lineEnd text i = some e) :
    i ≤ e ∧ ∀ j, i ≤ j → j < e → isWhitespace (charAt start j) = true := by
  have hblank : ∀ c : UInt8, isSpace c = true → isWhitespace c = true := by
    intro c hc
    rw [isSpace, Bool.or_eq_true, beq_iff_eq, beq_iff_eq] at hc
    rcases hc with rfl | rfl <;> rfl
  induction text generalizing i with
  | nil =>
    obtain rfl := Option.some.inj he
    exact ⟨Nat.le_refl _, fun j hle hlt => absurd hlt (by omega)⟩
  | cons c rest ih =>
    obtain ⟨hc, hrest, -⟩ := charAt_of_drop htext
    have hnext : isWhitespace c = true → lineEnd rest (i + 1) = some e →
        i ≤ e ∧ ∀ j, i ≤ j → j < e → isWhitespace (charAt start j) = true := by
      intro hwhite he
      obtain ⟨hle, hall⟩ := ih hrest he
      refine ⟨by omega, fun j hj hlt => ?_⟩
      rcases Nat.eq_or_lt_of_le hj with rfl | hj
      · rw [hc]
        exact hwhite
      · exact hall j hj hlt
    rw [lineEnd] at he
    split_ifs at he with hspace hnl hcr hcrnl
    · exact hnext (hblank c hspace) he
    · obtain rfl := Option.some.inj he
      refine ⟨Nat.le_succ i, fun j hj hlt => ?_⟩
      obtain rfl : j = i := by omega
      rw [hc, hnl]
      rfl
    · obtain rfl := Option.some.inj he
      obtain ⟨tail, htail⟩ := List.head?_eq_some_iff.mp hcrnl
      obtain ⟨hchar, -, -⟩ := charAt_of_drop (hrest.trans htail)
      refine ⟨Nat.le_add_right i 2, fun j hj hlt => ?_⟩
      rcases Nat.eq_or_lt_of_le hj with rfl | hj
      · rw [hc, hcr]
        rfl
      · obtain rfl : j = i + 1 := by omega
        rw [hchar]
        rfl
    · exact hnext (by rw [hcr]; rfl) he

theorem strstr_skip {needle : Bytes} {c : UInt8} {k : ℕ} (hle : i ≤ k) (hk : k ≤ text.length)
    (h : ∀ j, i ≤ j → j < k → charAt text j ≠ c) : strstr text i (c :: needle) = strstr text k (c :: needle) := by
  induction k, hle using Nat.le_induction with
  | base => rfl
  | succ k hle ih =>
    rw [ih (by omega) fun j hj hlt => h j hj (by omega)]
    obtain ⟨x, rest, htext⟩ : ∃ x rest, text.drop k = x :: rest := ⟨_, _, List.drop_eq_getElem_cons (by omega)⟩
    obtain ⟨hx, hrest, -⟩ := charAt_of_drop htext
    have hne : ¬ (c :: needle).isPrefixOf (x :: rest) = true := by
      rw [List.isPrefixOf_cons_cons, Bool.and_eq_true, beq_iff_eq]
      exact fun hp => h k hle (Nat.lt_succ_self k) (hx.trans hp.1.symm)
    rw [strstr, strstr, htext, hrest, findFirst, if_neg hne, Option.map_map]
    congr 1
    funext j
    simp only [Function.comp]
    omega

/-- The rest of the line of a standalone tag, which `Render` leaves out, has no tag. -/
theorem nextTag_behind {next stop : ℕ} (hd : d.Usable) (hd' : d'.Proper)
    (hstop : (nextTag start input d).stop = some stop) (hnext : nextInput start (nextTag start input d) = some next) :
    nextTag start stop d' = nextTag start next d' := by
  have hskip : ∀ k, stop ≤ k → k ≤ start.length → (∀ j, stop ≤ j → j < k → isWhitespace (charAt start j) = true) →
      nextTag start stop d' = nextTag start k d' := by
    intro k hle hk hwhite
    cases htext : d'.start.text with
    | nil => exact absurd htext hd'.start.nonempty
    | cons c rest =>
      have hsolid := hd'.startSolid c (by rw [htext]; exact List.mem_cons_self)
      have hsame : strstr start stop (c :: rest) = strstr start k (c :: rest) := by
        refine strstr_skip hle hk fun j hj hlt heq => ?_
        rw [← heq, hwhite j hj hlt] at hsolid
        cases hsolid
      rw [nextTag, nextTag, htext, hsame]
  unfold nextInput at hnext
  rw [hstop] at hnext
  cases hrenderable : isTagTypeRenderable (nextTag start input d).type with
  | true =>
    rw [hrenderable] at hnext
    cases hnext
    rfl
  | false =>
    rw [hrenderable] at hnext
    cases hbegin : (nextTag start input d).begin with
    | none =>
      rw [hbegin] at hnext
      cases hnext
      rfl
    | some begin =>
      rw [hbegin] at hnext
      have htag := (nextTag_complete hd hbegin hstop).1
      dsimp only at hnext
      cases hline : isTagStandalone start begin stop with
      | none =>
        rw [hline] at hnext
        cases hnext
        rfl
      | some line =>
        rw [hline] at hnext
        cases hnext
        unfold isTagStandalone at hline
        split at hline
        · rename_i b e _ he
          cases hline
          obtain ⟨hle, hwhite⟩ := lineEnd_blank rfl he
          exact hskip e hle (lineEnd_fresh htag.inside rfl he).2.1 hwhite
        · cases hline

/-! ## The local delimiters -/

/-- What is read with the one pair is read with the other. -/
structure SameText (d d' : Delimiters) : Prop where
  usable : d.Usable
  usable' : d'.Usable
  start : d.start.text = d'.start.text
  stop : d.stop.text = d'.stop.text

theorem SameText.alike (h : SameText d d') : d.Alike d' where
  startText := h.start
  startLen := by rw [h.usable.start.len, h.start, h.usable'.start.len]
  stopText := h.stop
  stopLen := by rw [h.usable.stop.len, h.stop, h.usable'.stop.len]

theorem nextTag_text (h : SameText d d') (start : Bytes) (input : ℕ) :
    nextTag start input d = nextTag start input d' := nextTag_alike h.alike start input

theorem setDelimiters_text {content : Bytes} {e : Delimiters} (d' : Delimiters) (h0 : 0 ∉ content)
    (hset : setDelimiters content d = (.ok (), e)) :
    ∃ e', setDelimiters content d' = (.ok (), e') ∧ SameText e e' := by
  have husable := setDelimiters_usable h0 hset
  have hsetting := setDelimiters_setting content d
  have htoken := token_nul_free h0
  rw [hset] at hsetting
  cases hsetting with
  | set htwo hstart hstop =>
    obtain ⟨hlen₁, -⟩ := Delimiter.set_some hstart
    obtain ⟨hlen₂, -⟩ := Delimiter.set_some hstop
    have htext₁ := (set_held (htoken 0 (by rw [htwo]; decide)) hstart).2
    have htext₂ := (set_held (htoken 1 (by rw [htwo]; decide)) hstop).2
    have hsetting' := setDelimiters_setting content d'
    cases hset' : setDelimiters content d' with
    | mk result e' =>
      rw [hset'] at hsetting'
      cases hsetting' with
      | refused h => rcases h with h | h <;> omega
      | overflows _ h => omega
      | halfRefused _ _ h => omega
      | halfOverflows _ _ h => omega
      | set _ hstart' hstop' =>
        have htext₁' := (set_held (htoken 0 (by rw [htwo]; decide)) hstart').2
        have htext₂' := (set_held (htoken 1 (by rw [htwo]; decide)) hstop').2
        exact ⟨_, rfl, husable, setDelimiters_usable h0 hset', htext₁.trans htext₁'.symm, htext₂.trans htext₂'.symm⟩

/-! ## The three spellings -/

theorem append_prefix_drop {a rest : Bytes} :
    a ++ rest <+: text.drop i ↔ a <+: text.drop i ∧ rest <+: text.drop (i + a.length) := by
  constructor
  · rintro ⟨tail, htail⟩
    rw [List.append_assoc] at htail
    refine ⟨⟨rest ++ tail, htail⟩, ⟨tail, ?_⟩⟩
    rw [← List.drop_drop, ← htail, List.drop_left]
  · rintro ⟨⟨tail, htail⟩, hrest⟩
    rw [← List.drop_drop, ← htail, List.drop_left] at hrest
    obtain ⟨behind, hbehind⟩ := hrest
    exact ⟨behind, by rw [List.append_assoc, hbehind, htail]⟩

theorem singleton_prefix_drop {c : UInt8} (hc : c ≠ 0) : [c] <+: text.drop i ↔ charAt text i = c := by
  constructor
  · intro h
    exact charAt_prefix h (i := 0) (by simp)
  · intro h
    cases htext : text.drop i with
    | nil =>
      rw [List.drop_eq_nil_iff] at htext
      rw [charAt, List.getD_eq_getElem?_getD, List.getElem?_eq_none htext] at h
      exact absurd h.symm hc
    | cons x rest =>
      rw [(charAt_of_drop htext).1] at h
      rw [h]
      exact ⟨rest, rfl⟩

/-- `IsKeyExtensionVar` looks for the spelling that fits the type of the tag. -/
theorem isSpelled_eq (hd : d.Usable) (hnone : (nextTag start input d).type ≠ .none)
    (herr : (nextTag start input d).type ≠ .err) (depth : ℕ) :
    BodyTag.isSpelled start ⟨depth, nextTag start input d, d⟩ =
      (((nextTag start input d).type == .var || (nextTag start input d).type == .varUnescaped) &&
        isKeyExtensionVar start (nextTag start input d).type ((nextTag start input d).begin.getD 0) d) := by
  obtain ⟨b, -, hbegin, -, htype⟩ := nextTag_marked hnone herr
  generalize nextTag start input d = tag at hbegin htype ⊢
  have hat : [('@'.toUInt8)] <+: start.drop (b + d.start.len) ↔ charAt start (b + d.start.len) = '@'.toUInt8 :=
    singleton_prefix_drop (by decide)
  have hfirst : ∀ rest, d.start.text ++ rest <+: start.drop b ↔
      d.start.text <+: start.drop b ∧ rest <+: start.drop (b + d.start.len) := by
    intro rest
    rw [append_prefix_drop, ← hd.start.len]
  have hplain : d.start.text ++ ascii "@" ++ d.stop.text <+: start.drop b ↔ d.start.text <+: start.drop b ∧
      charAt start (b + d.start.len) = '@'.toUInt8 ∧ d.stop.text <+: start.drop (b + d.start.len + 1) := by
    rw [List.append_assoc, hfirst, append_prefix_drop]
    exact and_congr_right fun _ => and_congr_left fun _ => hat
  have hunescaped : d.start.text ++ ascii "&@" ++ d.stop.text <+: start.drop b ↔ d.start.text <+: start.drop b ∧
      ascii "&@" <+: start.drop (b + d.start.len) ∧ d.stop.text <+: start.drop (b + d.start.len + 2) := by
    rw [List.append_assoc, hfirst, append_prefix_drop]
    exact Iff.rfl
  have hamp : ascii "&@" <+: start.drop (b + d.start.len) → charAt start (b + d.start.len) = '&'.toUInt8 :=
    fun h => charAt_prefix h (i := 0) (by decide)
  have hbrace : d.start.text = ascii "\x7b\x7b" → ascii "\x7b\x7b\x7b@\x7d\x7d\x7d" <+: start.drop b →
      charAt start (b + d.start.len) = '\x7b'.toUInt8 := by
    intro htext h
    rw [hd.start.len, htext]
    exact charAt_prefix h (i := 2) (by decide)
  -- the calls of `StringStartsWith`, with the length of what is ahead of each
  have hcall : ∀ (pre : Bytes) (k : ℕ), pre.length < 2 ^ 31 →
      (stringStartsWith (start.drop (b + k)) pre = true ↔
        pre <+: start.drop (b + k) ∧ Seen pre ((start.drop b).length - k)) := by
    intro pre k hpre
    rw [stringStartsWith_iff hpre, List.isPrefixOf_iff_prefix, List.length_drop, List.length_drop, Nat.sub_sub]
  have hshort : ∀ {e : Delimiter}, e.Usable → e.text.length < 2 ^ 31 := fun {e} he => by
    have hlt : e.len < 10 := he.short
    rw [← he.len]
    omega
  have hcallFirst := hcall _ 0 (hshort hd.start)
  have hcallBraces := hcall (ascii "\x7b\x7b\x7b@\x7d\x7d\x7d") 0 (by decide)
  have hcallLast := hcall _ (d.start.text.length + 1) (hshort hd.stop)
  have hcallAmp := hcall (ascii "&@") d.start.text.length (by decide)
  have hcallEnd := hcall _ (d.start.text.length + 2) (hshort hd.stop)
  rw [Nat.add_zero, Nat.sub_zero] at hcallFirst hcallBraces
  rw [← hd.start.len] at hcallAmp
  rw [← hd.start.len, ← Nat.add_assoc] at hcallLast hcallEnd
  rw [Bool.eq_iff_iff]
  unfold BodyTag.isSpelled isKeyExtensionVar
  simp only [hbegin, Option.getD_some, Bool.or_eq_true, Bool.and_eq_true, List.isPrefixOf_iff_prefix, beq_iff_eq, hplain,
    hunescaped, decide_eq_true_eq, ← hd.start.len]
  clear hcall hshort
  generalize charAt start (b + d.start.len) = c at htype hamp hbrace hplain ⊢
  have hvar : c = '@'.toUInt8 → tag.type = .var := by
    rintro rfl
    exact htype
  have hvarAmp : c = '&'.toUInt8 → tag.type = .varUnescaped := by
    rintro rfl
    exact htype
  have hvarBrace : c = '\x7b'.toUInt8 → tag.type = .varUnescaped := by
    rintro rfl
    exact htype
  have hnoAt : tag.type ≠ .var → c ≠ '@'.toUInt8 := fun hne h => hne (hvar h)
  have hnoAmp : tag.type ≠ .varUnescaped → ¬ ascii "&@" <+: start.drop (b + d.start.len) :=
    fun hne h => hne (hvarAmp (hamp h))
  have hnoBrace : tag.type ≠ .varUnescaped →
      ¬ ((d.start.text = ascii "\x7b\x7b" ∧ d.stop.text = ascii "\x7d\x7d") ∧
        ascii "\x7b\x7b\x7b@\x7d\x7d\x7d" <+: start.drop b) :=
    fun hne h => hne (hvarBrace (hbrace h.1.1 h.2))
  by_cases hplainType : tag.type = .var
  · have hother : tag.type ≠ .varUnescaped := by rw [hplainType]; decide
    simp only [hplainType, hnoAmp hother, hnoBrace hother, false_and, and_false, or_false, true_or, true_and, if_true,
      Bool.and_eq_true, beq_iff_eq, and_assoc]
    rw [hcallFirst, hcallLast]
    constructor
    · rintro ⟨hfirst, hc, hlast, hseen, hseenLast⟩
      exact ⟨⟨hfirst, hseen⟩, hc, hlast, hseenLast⟩
    · rintro ⟨⟨hfirst, hseen⟩, hc, hlast, hseenLast⟩
      exact ⟨hfirst, hc, hlast, hseen, hseenLast⟩
  · by_cases hunescapedType : tag.type = .varUnescaped
    · have hlengths : d.start.text = ascii "\x7b\x7b" ∧ d.stop.text = ascii "\x7d\x7d" →
          d.start.len = 2 ∧ d.stop.len = 2 := by
        rintro ⟨hstart, hstop⟩
        rw [hd.start.len, hd.stop.len, hstart, hstop]
        exact ⟨rfl, rfl⟩
      rw [if_neg hplainType, if_pos hunescapedType]
      simp only [hunescapedType, hnoAt hplainType, false_and, and_false, false_or, or_true, true_and, Bool.or_eq_true,
        Bool.and_eq_true, beq_iff_eq, and_assoc]
      rw [hcallFirst, hcallAmp, hcallEnd, hcallBraces]
      refine or_congr ⟨?_, ?_⟩ ⟨fun h => ?_, fun h => h.2.2⟩
      · rintro ⟨hfirst, hmark, hlast, hseen, hseenMark, hseenLast⟩
        exact ⟨⟨hfirst, hseen⟩, ⟨hmark, hseenMark⟩, hlast, hseenLast⟩
      · rintro ⟨⟨hfirst, hseen⟩, ⟨hmark, hseenMark⟩, hlast, hseenLast⟩
        exact ⟨hfirst, hmark, hlast, hseen, hseenMark, hseenLast⟩
      · obtain ⟨hstart, hstop⟩ := hlengths ⟨h.1, h.2.1⟩
        exact ⟨hstart, hstop, h⟩
    · simp only [hplainType, hunescapedType, hnoAt hplainType, hnoAmp hunescapedType, hnoBrace hunescapedType, false_and,
        and_false, or_self]

/-! ## The loop of `ShouldIterateObject` -/

theorem isKeyExtensionVar_text (h : SameText d d') (start : Bytes) (type : TagType) (begin : ℕ) :
    isKeyExtensionVar start type begin d = isKeyExtensionVar start type begin d' := by
  have hstart : d.start.len = d'.start.len := by rw [h.usable.start.len, h.start, h.usable'.start.len]
  have hstop : d.stop.len = d'.stop.len := by rw [h.usable.stop.len, h.stop, h.usable'.stop.len]
  simp only [isKeyExtensionVar, h.start, h.stop, hstart, hstop]

/-- A tag that neither opens nor closes a section in the look-ahead. -/
def ReadsOn (type : TagType) : Prop := type ≠ .none ∧ type ≠ .err ∧ type ≠ .section ∧ type ≠ .sectionEnd

theorem any_leading_cons (hd : d.Usable) (h : ReadsOn (nextTag start input d).type) (depth : ℕ) (rest : List BodyTag) :
    ((leading (⟨depth, nextTag start input d, d⟩ :: rest)).any fun t => t.isSpelled start) =
      (((nextTag start input d).type == .var || (nextTag start input d).type == .varUnescaped) &&
          isKeyExtensionVar start (nextTag start input d).type ((nextTag start input d).begin.getD 0) d ||
        (leading rest).any fun t => t.isSpelled start) := by
  obtain ⟨hnone, herr, hsection, hend⟩ := h
  rw [← isSpelled_eq hd hnone herr depth, ← List.any_cons, leading, List.takeWhile_cons_of_pos, leading]
  rw [Bool.and_eq_true, bne_iff_ne, bne_iff_ne]
  exact ⟨hsection, hend⟩

theorem leading_stop {t : BodyTag} {rest : List BodyTag} (h : t.tag.type = .section ∨ t.tag.type = .sectionEnd) :
    leading (t :: rest) = [] := by
  rw [leading, List.takeWhile_cons_of_neg]
  rw [Bool.and_eq_true, bne_iff_ne, bne_iff_ne]
  rcases h with h | h
  · exact fun hne => hne.1 h
  · exact fun hne => hne.2 h

/-- The tags of the body are read until the answer is known; the local delimiters and the position may differ, as long as
the next tag is the same. -/
theorem iterateLoop_reads (h0 : 0 ∉ start) {depth : ℕ} (h : SectionBody start depth input d seen) :
    d.Proper → ∀ (fuel input' : ℕ) (d' : Delimiters), SameText d d' →
      nextTag start input' d' = nextTag start input d → iterateLoop start fuel (some input') d' = .error .outOfFuel ∨
        iterateLoop start fuel (some input') d' = .ok ((leading seen).any fun t => t.isSpelled start) := by
  -- behind a tag that it reads on at, the loop finds the next tag of the body
  have hgo : ∀ {input next : ℕ} {d e : Delimiters} {rest : List BodyTag}, d.Proper → e.Proper →
      ReadsOn (nextTag start input d).type → nextInput start (nextTag start input d) = some next →
      (∀ (fuel input' : ℕ) (d' : Delimiters), SameText e d' → nextTag start input' d' = nextTag start next e →
        iterateLoop start fuel (some input') d' = .error .outOfFuel ∨
          iterateLoop start fuel (some input') d' = .ok ((leading rest).any fun t => t.isSpelled start)) →
      ∀ (fuel : ℕ) (e' : Delimiters), SameText e e' →
        iterateLoop start fuel (nextTag start input d).stop e' = .error .outOfFuel ∨
          iterateLoop start fuel (nextTag start input d).stop e' = .ok ((leading rest).any fun t => t.isSpelled start) := by
    intro input next d e rest hd he hreads hnext ih fuel e' hsame
    obtain ⟨begin, stop, -, hstop⟩ := nextTag_ends hreads.1 hreads.2.1
    have hbehind := nextTag_behind hd.toUsable he hstop hnext
    rw [hstop]
    exact ih fuel stop e' hsame ((nextTag_text hsame start stop).symm.trans hbehind)
  induction h with
  | closed htype =>
    intro hd fuel input' d' hsame htag
    cases fuel with
    | zero => exact .inl rfl
    | succ fuel =>
      refine .inr ?_
      rw [iterateLoop_succ, iterateTurn, htag, htype]
      rfl
  | leave htype =>
    intro hd fuel input' d' hsame htag
    cases fuel with
    | zero => exact .inl rfl
    | succ fuel =>
      refine .inr ?_
      rw [iterateLoop_succ, iterateTurn, htag, htype, leading_stop (.inr htype)]
      rfl
  | @enter depth input next d rest hopens hnext _ ih =>
    intro hd fuel input' d' hsame htag
    cases fuel with
    | zero => exact .inl rfl
    | succ fuel =>
      cases htype : (nextTag start input d).type with
      | «section» =>
        refine .inr ?_
        rw [iterateLoop_succ, iterateTurn, htag, htype, leading_stop (.inl htype)]
        rfl
      | inverted =>
        have hreads : ReadsOn (nextTag start input d).type := by rw [htype, ReadsOn]; decide
        have hrest := hgo hd hd hreads hnext (ih hd) fuel d' hsame
        rw [iterateLoop_succ, iterateTurn, htag, any_leading_cons hd.toUsable hreads, htype]
        exact hrest
      | _ => rw [htype] at hopens; cases hopens
  | @delim depth input next d e rest htype hset hproper hnext _ ih =>
    intro hd fuel input' d' hsame htag
    cases fuel with
    | zero => exact .inl rfl
    | succ fuel =>
      have hreads : ReadsOn (nextTag start input d).type := by rw [htype, ReadsOn]; decide
      obtain ⟨e', hset', hsame'⟩ := setDelimiters_text d' (name_nul_free h0 (nextTag start input d)) hset
      have hrest := hgo hd hproper hreads hnext (ih hproper) fuel e' hsame'
      rw [iterateLoop_succ, iterateTurn, htag, any_leading_cons hd.toUsable hreads, htype]
      dsimp only
      rw [hset']
      exact hrest
  | @comment depth input next d rest htype hnext _ ih =>
    intro hd fuel input' d' hsame htag
    cases fuel with
    | zero => exact .inl rfl
    | succ fuel =>
      have hreads : ReadsOn (nextTag start input d).type := by rw [htype, ReadsOn]; decide
      have hrest := hgo hd hd hreads hnext (ih hd) fuel d' hsame
      rw [iterateLoop_succ, iterateTurn, htag, any_leading_cons hd.toUsable hreads, htype]
      exact hrest
  | @var depth input next d rest hvariable hnext _ ih =>
    intro hd fuel input' d' hsame htag
    cases fuel with
    | zero => exact .inl rfl
    | succ fuel =>
      have hreads : ReadsOn (nextTag start input d).type := by
        rw [ReadsOn]
        revert hvariable
        cases (nextTag start input d).type <;> decide
      have hrest := hgo hd hd hreads hnext (ih hd) fuel d' hsame
      have hkey := isKeyExtensionVar_text hsame start (nextTag start input d).type ((nextTag start input d).begin.getD 0)
      rw [iterateLoop_succ, iterateTurn, htag, any_leading_cons hd.toUsable hreads, hkey]
      cases htype : (nextTag start input d).type with
      | var =>
        dsimp only
        cases isKeyExtensionVar start .var ((nextTag start input d).begin.getD 0) d' with
        | true => exact .inr rfl
        | false => exact hrest
      | varUnescaped =>
        dsimp only
        cases isKeyExtensionVar start .varUnescaped ((nextTag start input d).begin.getD 0) d' with
        | true => exact .inr rfl
        | false => exact hrest
      | varSerialized => exact hrest
      | varSerializedCompact => exact hrest
      | _ => rw [htype] at hvariable; cases hvariable

/-! ## The answer -/

theorem sectionBody_inside {depth : ℕ} (hd : d.Usable) (h : SectionBody start depth input d seen) :
    input ≤ start.length := by
  have hends : (nextTag start input d).type ≠ .none → (nextTag start input d).type ≠ .err → input ≤ start.length := by
    intro hnone herr
    obtain ⟨begin, stop, hbegin, hstop⟩ := nextTag_ends hnone herr
    have htag := (nextTag_complete hd hbegin hstop).1
    have hbehind := htag.behind
    have hforward := htag.forward
    have hinside := htag.inside
    omega
  cases h with
  | closed htype => exact hends (by rw [htype]; decide) (by rw [htype]; decide)
  | leave htype => exact hends (by rw [htype]; decide) (by rw [htype]; decide)
  | delim htype => exact hends (by rw [htype]; decide) (by rw [htype]; decide)
  | comment htype => exact hends (by rw [htype]; decide) (by rw [htype]; decide)
  | enter hopens =>
    refine hends (fun heq => ?_) (fun heq => ?_)
    · rw [heq] at hopens; cases hopens
    · rw [heq] at hopens; cases hopens
  | var hvariable =>
    refine hends (fun heq => ?_) (fun heq => ?_)
    · rw [heq] at hvariable; cases hvariable
    · rw [heq] at hvariable; cases hvariable

theorem shouldIterateObject_reads (h0 : 0 ∉ start) (hd : d.Proper) (h : SectionBody start 0 input d seen) :
    shouldIterateObject start (some input) d = .ok ((leading seen).any fun t => t.isSpelled start) := by
  have hstops := shouldIterateObject_stops h0 (sectionBody_inside hd.toUsable h) hd.toUsable
  obtain ⟨rest, hstart⟩ := copy_eq hd.start.len.symm hd.start.short
  obtain ⟨rest', hstop⟩ := copy_eq hd.stop.len.symm hd.stop.short
  have htext : Delimiter.text ⟨d.start.text ++ 0 :: rest, d.start.len⟩ = d.start.text :=
    Lib.takeWhile_ne_terminated d.start.nul_free rest
  have htext' : Delimiter.text ⟨d.stop.text ++ 0 :: rest', d.stop.len⟩ = d.stop.text :=
    Lib.takeWhile_ne_terminated d.stop.nul_free rest'
  have hsame : SameText d ⟨⟨d.start.text ++ 0 :: rest, d.start.len⟩, ⟨d.stop.text ++ 0 :: rest', d.stop.len⟩⟩ := by
    refine ⟨hd.toUsable, ⟨⟨?_, ?_, hd.start.short, ?_⟩, ⟨?_, ?_, hd.stop.short, ?_⟩⟩, htext.symm, htext'.symm⟩
    · rw [htext]; exact hd.start.len
    · rw [htext]; exact hd.start.nonempty
    · rw [htext]; exact hd.start.solid
    · rw [htext']; exact hd.stop.len
    · rw [htext']; exact hd.stop.nonempty
    · rw [htext']; exact hd.stop.solid
  rw [shouldIterateObject, hstart, hstop] at hstops ⊢
  have hreads := iterateLoop_reads h0 h hd (start.length + 2) input _ hsame (nextTag_text hsame start input).symm
  exact hreads.resolve_left hstops

/-- Each direct `@` stands behind a `#` or `/`, or is spelled in another way. -/
def MissesKey (start : Bytes) (seen : List BodyTag) : Prop :=
  ContainsKey start seen ∧ ∀ t ∈ leading seen, t.isSpelled start = false

/-- There is no direct `@`, but one in front of any `#` or `/`, so in an inverted section. -/
def MistakesKey (start : Bytes) (seen : List BodyTag) : Prop :=
  ¬ ContainsKey start seen ∧ ∃ t ∈ leading seen, t.isSpelled start = true

/-- For each section of a well-formed template the look-ahead tells whether its body directly contains an `@`, exactly if
it neither misses one nor takes another tag for one. -/
theorem shouldIterateObject_iff (template : CString) {input : ℕ} {d : Delimiters} (hd : d.Proper) {seen : List BodyTag}
    (hbody : SectionBody template.bytes 0 input d seen) :
    (shouldIterateObject template.bytes (some input) d = .ok true ↔ ContainsKey template.bytes seen) ↔
      ¬ MissesKey template.bytes seen ∧ ¬ MistakesKey template.bytes seen := by
  have htrue : shouldIterateObject template.bytes (some input) d = .ok true ↔
      ∃ t ∈ leading seen, t.isSpelled template.bytes = true := by
    rw [shouldIterateObject_reads template.nul_free hd hbody, Except.ok.injEq, List.any_eq_true]
  have hfalse : (∀ t ∈ leading seen, t.isSpelled template.bytes = false) ↔
      ¬ ∃ t ∈ leading seen, t.isSpelled template.bytes = true := by
    simp
  rw [htrue, MissesKey, MistakesKey, hfalse]
  by_cases hspelled : ∃ t ∈ leading seen, t.isSpelled template.bytes = true <;>
    by_cases hkey : ContainsKey template.bytes seen <;>
    simp only [hspelled, hkey, and_true, and_false, not_true, not_false_iff, iff_true, iff_false, iff_self]

theorem Delimiters.proper_initial : Delimiters.initial.Proper where
  toUsable := Delimiters.usable_initial
  startSolid c hc := by
    obtain rfl : c = '\x7b'.toUInt8 := List.eq_of_mem_replicate (n := 2) hc
    rfl
  stopSolid c hc := by
    obtain rfl : c = '\x7d'.toUInt8 := List.eq_of_mem_replicate (n := 2) hc
    rfl

/-- `{{#o}}x{{@}}{{/o}}` -/
def keyTemplate : CString := ⟨ascii "\x7b\x7b#o\x7d\x7dx\x7b\x7b@\x7d\x7d\x7b\x7b/o\x7d\x7d", by decide⟩

theorem shouldIterateObject_iff_plain :
    ∃ seen, SectionBody keyTemplate.bytes 0 6 .initial seen ∧
      (shouldIterateObject keyTemplate.bytes (some 6) .initial = .ok true ↔ ContainsKey keyTemplate.bytes seen) := by
  have hbody : SectionBody keyTemplate.bytes 0 6 .initial _ := .var rfl rfl (.closed rfl)
  refine ⟨_, hbody, (shouldIterateObject_iff keyTemplate Delimiters.proper_initial hbody).mpr ⟨?_, ?_⟩⟩
  · exact fun hmisses => absurd (hmisses.2 _ List.mem_cons_self) (by decide)
  · exact fun hmistakes => hmistakes.1 ⟨_, List.mem_cons_self, rfl, by decide⟩

/-- `{{#o}}{{ @ }}{{/o}}` -/
def blankKey : CString := ⟨ascii "\x7b\x7b#o\x7d\x7d\x7b\x7b @ \x7d\x7d\x7b\x7b/o\x7d\x7d", by decide⟩

/-- `{{#o}}{{^e}}{{@}}{{/e}}{{/o}}` -/
def invertedKey : CString :=
  ⟨ascii "\x7b\x7b#o\x7d\x7d\x7b\x7b^e\x7d\x7d\x7b\x7b@\x7d\x7d\x7b\x7b/e\x7d\x7d\x7b\x7b/o\x7d\x7d",
    by decide⟩

/-- A direct `@` with blanks around it is not seen, and one in an inverted section is. -/
theorem look_ahead_differs :
    (∃ seen, SectionBody blankKey.bytes 0 6 .initial seen ∧ ContainsKey blankKey.bytes seen ∧
      shouldIterateObject blankKey.bytes (some 6) .initial = .ok false) ∧
    ∃ seen, SectionBody invertedKey.bytes 0 6 .initial seen ∧ ¬ ContainsKey invertedKey.bytes seen ∧
      shouldIterateObject invertedKey.bytes (some 6) .initial = .ok true := by
  refine ⟨⟨_, .var rfl rfl (.closed rfl), ⟨_, List.mem_cons_self, rfl, by decide⟩, by decide⟩, ?_⟩
  refine ⟨_, .enter rfl rfl (.var rfl rfl (.leave rfl rfl (.closed rfl))), ?_, by decide⟩
  rintro ⟨t, ht, hdepth, hkey⟩
  simp only [List.mem_cons, List.not_mem_nil, or_false] at ht
  rcases ht with rfl | rfl | rfl
  · exact absurd hkey (by decide)
  · cases hdepth
  · cases hdepth

end Libntech.Mustache
