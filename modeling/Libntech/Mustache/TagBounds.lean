import Libntech.Lib.Terminated
import Libntech.Mustache.Tags

/-! # Where tags and lines lie

The delimiters in use are not empty and have no blanks. So a complete tag lies in the template, behind the position
where it was looked for; the blanks in front of its content end before its end delimiter; and a position behind a tag
or behind a line has no blank before it, so that no line of a later tag begins before it.
-/
namespace Libntech.Mustache
set_option autoImplicit false

open Libntech.Json

/-! ## Positions in a text -/

variable {content needle start text token : Bytes} {i input p : ℕ} {c : UInt8} {d : Delimiters}

theorem findFirst_some (h : findFirst needle text = some i) : needle <+: text.drop i := by
  induction text generalizing i with
  | nil =>
    rw [findFirst] at h
    split_ifs at h with hempty
    obtain rfl := Option.some.inj h
    rw [List.isEmpty_iff.mp hempty]
    exact List.nil_prefix
  | cons c rest ih =>
    rw [findFirst] at h
    split_ifs at h with hstarts
    · obtain rfl := Option.some.inj h
      exact List.isPrefixOf_iff_prefix.mp hstarts
    · obtain ⟨j, hj, rfl⟩ := Option.map_eq_some_iff.mp h
      exact ih hj

theorem strstr_some (h : strstr text i needle = some p) : i ≤ p ∧ needle <+: text.drop p := by
  obtain ⟨k, hk, rfl⟩ := Option.map_eq_some_iff.mp h
  have hfound := findFirst_some hk
  rw [List.drop_drop] at hfound
  exact ⟨Nat.le_add_right _ _, hfound⟩

theorem prefix_drop_length (h : needle <+: text.drop p) (hne : needle ≠ []) :
    p + needle.length ≤ text.length := by
  have hlen := h.length_le
  have hpos := List.length_pos_iff.mpr hne
  rw [List.length_drop] at hlen
  omega

theorem charAt_prefix (h : needle <+: text.drop p) (hi : i < needle.length) :
    charAt text (p + i) = needle[i] := by
  obtain ⟨rest, hrest⟩ := h
  have hget : text[p + i]? = some needle[i] := by
    rw [← List.getElem?_drop, ← hrest, List.getElem?_append_left hi, List.getElem?_eq_getElem hi]
  rw [charAt, List.getD_eq_getElem?_getD, hget, Option.getD_some]

theorem strncmpEqual_prefix {s t : Bytes} (h0 : 0 ∉ t) (h : strncmpEqual s t t.length = true) : t <+: s := by
  induction t generalizing s with
  | nil => exact List.nil_prefix
  | cons b t ih =>
    cases s with
    | nil => cases h
    | cons a s =>
      rw [List.length_cons, strncmpEqual, Bool.and_eq_true, beq_iff_eq] at h
      obtain ⟨rfl, hrest⟩ := h
      exact List.cons_prefix_cons.mpr ⟨rfl, ih (fun hmem => h0 (List.mem_cons_of_mem _ hmem)) hrest⟩

/-! ## Delimiters -/

/-- A delimiter that can be used: a text that is not empty and has no blanks, with its length. -/
structure Delimiter.Usable (d : Delimiter) : Prop where
  len : d.len = d.text.length
  nonempty : d.text ≠ []
  short : d.len < mustacheMaxDelimSize
  solid : ∀ c ∈ d.text, isSpace c = false

structure Delimiters.Usable (d : Delimiters) : Prop where
  start : d.start.Usable
  stop : d.stop.Usable

theorem Delimiter.nul_free (d : Delimiter) : 0 ∉ d.text := Lib.notMem_takeWhile_ne 0 _

theorem Delimiter.Usable.pos {d : Delimiter} (h : d.Usable) : 0 < d.len := by
  rw [h.len]
  exact List.length_pos_iff.mpr h.nonempty

theorem Delimiters.usable_initial : Delimiters.initial.Usable where
  start := ⟨rfl, by decide, by decide, List.forall_mem_cons.mpr ⟨rfl, List.forall_mem_cons.mpr ⟨rfl, by simp⟩⟩⟩
  stop := ⟨rfl, by decide, by decide, List.forall_mem_cons.mpr ⟨rfl, List.forall_mem_cons.mpr ⟨rfl, by simp⟩⟩⟩

theorem Delimiter.set_some {d d' : Delimiter} (h : d.set token = some d') :
    token.length < mustacheMaxDelimSize ∧ d' = ⟨token ++ 0 :: d.chars.drop (token.length + 1), token.length⟩ := by
  rw [Delimiter.set] at h
  split_ifs at h with hlen
  exact ⟨hlen, (Option.some.inj h).symm⟩

theorem Delimiter.set_usable {d d' : Delimiter} (h0 : 0 ∉ token) (hne : token ≠ [])
    (hsolid : ∀ c ∈ token, isSpace c = false) (h : d.set token = some d') : d'.Usable := by
  obtain ⟨hlen, rfl⟩ := Delimiter.set_some h
  have htext : Delimiter.text ⟨token ++ 0 :: d.chars.drop (token.length + 1), token.length⟩ = token :=
    Lib.takeWhile_ne_terminated h0 _
  exact ⟨by rw [htext], by rw [htext]; exact hne, hlen, by rw [htext]; exact hsolid⟩

/-! ## Tokens -/

section Tokens

variable {seps str : Bytes}

theorem drop_length_takeWhile (p : UInt8 → Bool) (l : Bytes) : l.drop (l.takeWhile p).length = l.dropWhile p := by
  conv_lhs => rhs; rw [← List.takeWhile_append_dropWhile (p := p) (l := l)]
  exact List.drop_left

theorem take_length_takeWhile (p : UInt8 → Bool) (l : Bytes) : l.take (l.takeWhile p).length = l.takeWhile p := by
  conv_lhs => rhs; rw [← List.takeWhile_append_dropWhile (p := p) (l := l)]
  exact List.take_left

theorem countTokens_dropWhile_blank :
    countTokens seps false str = countTokens seps false (str.dropWhile fun c => seps.contains c) := by
  induction str with
  | nil => rfl
  | cons c rest ih =>
    cases hc : seps.contains c with
    | true => rw [countTokens, if_pos hc, List.dropWhile_cons_of_pos hc, ih]
    | false => rw [List.dropWhile_cons_of_neg (by rw [hc]; decide)]

theorem countTokens_inside :
    countTokens seps true str = countTokens seps false (str.dropWhile fun c => !seps.contains c) := by
  induction str with
  | nil => rfl
  | cons c rest ih =>
    cases hc : seps.contains c with
    | true => rw [List.dropWhile_cons_of_neg (by rw [hc]; decide), countTokens, countTokens, if_pos hc, if_pos hc]
    | false =>
      rw [List.dropWhile_cons_of_pos (by rw [hc]; rfl), countTokens, if_neg (by rw [hc]; decide), if_pos rfl, ih]

theorem stringNextToken_some {ref : ℕ × ℕ} (h : stringNextToken str seps = some ref) :
    (str.drop ref.1).take ref.2 ≠ [] ∧ (∀ c ∈ (str.drop ref.1).take ref.2, seps.contains c = false) ∧
      countTokens seps false str = countTokens seps false (str.drop (ref.1 + ref.2)) + 1 := by
  rw [stringNextToken] at h
  split_ifs at h with hlt
  obtain rfl := Option.some.inj h
  dsimp only
  rw [← List.drop_drop, drop_length_takeWhile, drop_length_takeWhile, take_length_takeWhile,
    @countTokens_dropWhile_blank seps str]
  cases htail : str.dropWhile fun c => seps.contains c with
  | nil =>
    have hlen := congrArg List.length (List.takeWhile_append_dropWhile (p := fun c => seps.contains c) (l := str))
    rw [htail, List.append_nil] at hlen
    omega
  | cons c rest =>
    have hc : seps.contains c = false := by
      have hhead := List.head?_dropWhile_not (fun c => seps.contains c) str
      rw [htail] at hhead
      exact hhead
    have hpos : (!seps.contains c) = true := by rw [hc]; rfl
    refine ⟨?_, fun d hd => ?_, ?_⟩
    · rw [List.takeWhile_cons_of_pos (p := fun c => !seps.contains c) hpos]
      exact List.cons_ne_nil _ _
    · simpa using List.mem_takeWhile_imp hd
    · rw [countTokens, if_neg (by rw [hc]; decide), if_neg (by decide),
        List.dropWhile_cons_of_pos (p := fun c => !seps.contains c) hpos, countTokens_inside]

theorem stringNextToken_none (h : stringNextToken str seps = none) : countTokens seps false str = 0 := by
  rw [stringNextToken] at h
  split_ifs at h with hlt
  have hnil : (str.dropWhile fun c => seps.contains c) = [] := by
    rw [← drop_length_takeWhile, List.drop_eq_nil_iff]
    omega
  rw [countTokens_dropWhile_blank, hnil]
  rfl

theorem stringGetToken_some (index : ℕ) (h : index < stringCountTokens str seps) :
    ∃ token, stringGetToken str seps index = some token ∧ token ≠ [] ∧ (∀ c ∈ token, seps.contains c = false) ∧
      token ⊆ str := by
  rw [stringCountTokens] at h
  induction index generalizing str with
  | zero =>
    cases hnext : stringNextToken str seps with
    | none =>
      rw [stringNextToken_none hnext] at h
      omega
    | some ref =>
      obtain ⟨hne, hsolid, -⟩ := stringNextToken_some hnext
      refine ⟨(str.drop ref.1).take ref.2, by rw [stringGetToken, hnext]; rfl, hne, hsolid, fun c hc => ?_⟩
      exact List.mem_of_mem_drop (List.mem_of_mem_take hc)
  | succ index ih =>
    cases hnext : stringNextToken str seps with
    | none =>
      rw [stringNextToken_none hnext] at h
      omega
    | some ref =>
      obtain ⟨-, -, hcount⟩ := stringNextToken_some hnext
      rw [hcount] at h
      obtain ⟨token, htoken, hne, hsolid, hsub⟩ := ih (Nat.lt_of_succ_lt_succ h)
      refine ⟨token, by rw [stringGetToken, hnext]; exact htoken, hne, hsolid, fun c hc => ?_⟩
      exact List.mem_of_mem_drop (hsub hc)

end Tokens

theorem isSpace_of_contains (h : (ascii " \t").contains c = false) : isSpace c = false := by
  have hblanks : (ascii " \t").contains c = (c == ' '.toUInt8 || (c == '\t'.toUInt8 || false)) := rfl
  rw [hblanks, Bool.or_false, Bool.or_comm] at h
  exact h

/-- What `SetDelimiters` does with a content and its first two tokens. -/
inductive Setting (content : Bytes) (d : Delimiters) (first second : Bytes) : Except Stop Unit × Delimiters → Prop
  | refused : stringCountTokens content (ascii " \t") ≠ 2 ∨ mustacheMaxDelimSize < first.length →
    Setting content d first second (.error .failed, d)
  | overflows : stringCountTokens content (ascii " \t") = 2 → first.length = mustacheMaxDelimSize →
    Setting content d first second (.error .outOfBounds, d)
  | halfRefused {start : Delimiter} : stringCountTokens content (ascii " \t") = 2 → d.start.set first = some start →
    mustacheMaxDelimSize < second.length → Setting content d first second (.error .failed, ⟨start, d.stop⟩)
  | halfOverflows {start : Delimiter} : stringCountTokens content (ascii " \t") = 2 → d.start.set first = some start →
    second.length = mustacheMaxDelimSize → Setting content d first second (.error .outOfBounds, ⟨start, d.stop⟩)
  | set {start stop : Delimiter} : stringCountTokens content (ascii " \t") = 2 → d.start.set first = some start →
    d.stop.set second = some stop → Setting content d first second (.ok (), ⟨start, stop⟩)

theorem Delimiter.set_none {d : Delimiter} (h : d.set token = none) (hle : ¬ mustacheMaxDelimSize < token.length) :
    token.length = mustacheMaxDelimSize := by
  rw [Delimiter.set] at h
  split_ifs at h with hlt
  omega

theorem setDelimiters_setting (content : Bytes) (d : Delimiters) :
    Setting content d ((stringGetToken content (ascii " \t") 0).getD []) ((stringGetToken content (ascii " \t") 1).getD [])
      (setDelimiters content d) := by
  rw [setDelimiters]
  by_cases htwo : stringCountTokens content (ascii " \t") = 2
  · rw [if_neg (not_not.mpr htwo)]
    dsimp only
    generalize (stringGetToken content (ascii " \t") 0).getD [] = first
    generalize (stringGetToken content (ascii " \t") 1).getD [] = second
    split
    · rename_i hlong
      exact .refused (.inr hlong)
    · rename_i hle₁
      cases hstart : d.start.set first with
      | none => exact .overflows htwo (Delimiter.set_none hstart hle₁)
      | some start =>
        dsimp only
        split
        · rename_i hlong
          exact .halfRefused htwo hstart hlong
        · rename_i hle₂
          cases hstop : d.stop.set second with
          | none => exact .halfOverflows htwo hstart (Delimiter.set_none hstop hle₂)
          | some stop => exact .set htwo hstart hstop
  · rw [if_pos htwo]
    exact .refused (.inl htwo)

theorem token_nul_free (h0 : 0 ∉ content) (index : ℕ) (h : index < stringCountTokens content (ascii " \t")) :
    0 ∉ (stringGetToken content (ascii " \t") index).getD [] := by
  obtain ⟨token, htoken, -, -, hsub⟩ := stringGetToken_some index h
  rw [htoken]
  exact fun hmem => h0 (hsub hmem)

theorem setDelimiters_usable {d' : Delimiters} (h0 : 0 ∉ content) (h : setDelimiters content d = (.ok (), d')) :
    d'.Usable := by
  have hsetting := setDelimiters_setting content d
  rw [h] at hsetting
  cases hsetting with
  | set htwo hstart hstop =>
    obtain ⟨first, htoken₁, hne₁, hsolid₁, hsub₁⟩ := stringGetToken_some 0 (by rw [htwo]; decide)
    obtain ⟨second, htoken₂, hne₂, hsolid₂, hsub₂⟩ := stringGetToken_some 1 (by rw [htwo]; decide)
    rw [htoken₁, Option.getD_some] at hstart
    rw [htoken₂, Option.getD_some] at hstop
    exact ⟨Delimiter.set_usable (fun hmem => h0 (hsub₁ hmem)) hne₁
        (fun c hc => isSpace_of_contains (hsolid₁ c hc)) hstart,
      Delimiter.set_usable (fun hmem => h0 (hsub₂ hmem)) hne₂
        (fun c hc => isSpace_of_contains (hsolid₂ c hc)) hstop⟩

theorem setDelimiters_stop {d' : Delimiters} : setDelimiters content d ≠ (.error .outOfFuel, d') := by
  intro h
  have hsetting := setDelimiters_setting content d
  rw [h] at hsetting
  cases hsetting

/-! ## Blanks around the content -/

theorem length_takeWhile_le {p : UInt8 → Bool} {l : Bytes} {m : ℕ} (hget : l[m]? = some c) (hc : p c = false) :
    (l.takeWhile p).length ≤ m := by
  by_contra hlt
  have hm : m < (l.takeWhile p).length := Nat.lt_of_not_le hlt
  have hsame : (l.takeWhile p)[m] = c := by
    obtain ⟨hml, rfl⟩ := List.getElem?_eq_some_iff.mp hget
    exact (List.takeWhile_prefix p).getElem hm
  have hp := List.mem_takeWhile_imp (List.getElem_mem hm)
  rw [hsame, hc] at hp
  cases hp

/-- As long as the blanks end before the content does, the length is taken from no zero. -/
theorem trimFront_eq {content len : ℕ} (h : (text.takeWhile isSpace).length ≤ len) :
    trimFront text content len =
      (content + (text.takeWhile isSpace).length, len - (text.takeWhile isSpace).length) := by
  induction text generalizing content len with
  | nil => rfl
  | cons c rest ih =>
    rw [trimFront]
    by_cases hc : isSpace c = true
    · rw [List.takeWhile_cons_of_pos hc, List.length_cons] at h ⊢
      have hpred : sizePred len = len - 1 := by rw [sizePred, if_neg (by omega)]
      rw [if_pos hc, hpred, ih (by omega)]
      congr 1 <;> omega
    · rw [if_neg hc, List.takeWhile_cons_of_neg hc]
      rfl

theorem trimBack_le (start : Bytes) (content len : ℕ) : trimBack start content len ≤ len := by
  induction len with
  | zero => exact Nat.le_refl 0
  | succ len ih =>
    rw [trimBack]
    split
    · exact Nat.le_succ_of_le ih
    · exact Nat.le_refl _

/-! ## The next tag -/

/-- The content that a tag is given before its blanks are trimmed, and where it and the tag end. -/
def rawTag (start : Bytes) (input : ℕ) (d : Delimiters) : Option (ℕ × ℕ × ℕ × ℕ) := do
  let begin ← strstr start input d.start.text
  let mark := tagMark (charAt start (begin + d.start.len))
  let content := begin + d.start.len + mark.2.1
  let ends ← tagEnd start content mark.2.2 d
  return (begin, content, ends.1, ends.2)

theorem tagMark_extra {e : UInt8} (h : (tagMark c).2.2 = some e) : isSpace e = false := by
  unfold tagMark at h
  split_ifs at h <;> cases h <;> rfl

/-- The end delimiter, or the mark before it, is where the content ends, and the tag ends behind it. -/
theorem tagEnd_some {content : ℕ} {extra : Option UInt8} {ends : ℕ × ℕ} (hd : d.stop.Usable)
    (hextra : ∀ e, extra = some e → isSpace e = false) (h : tagEnd start content extra d = some ends) :
    content ≤ ends.1 ∧ ends.1 < ends.2 ∧ ends.2 ≤ start.length ∧ isSpace (charAt start ends.1) = false ∧
      isSpace (charAt start (ends.2 - 1)) = false := by
  have hpos := hd.pos
  have hlast : ∀ p, d.stop.text <+: start.drop p → isSpace (charAt start (p + d.stop.len - 1)) = false := by
    intro p hp
    have hlt : d.stop.len - 1 < d.stop.text.length := by
      rw [← hd.len]
      omega
    rw [Nat.add_sub_assoc hpos, charAt_prefix hp hlt]
    exact hd.solid _ (List.getElem_mem hlt)
  unfold tagEnd at h
  cases extra with
  | none =>
    obtain ⟨p, hp, rfl⟩ := Option.map_eq_some_iff.mp h
    obtain ⟨hle, hstarts⟩ := strstr_some hp
    have hlen := prefix_drop_length hstarts hd.nonempty
    have hfirst : 0 < d.stop.text.length := List.length_pos_iff.mpr hd.nonempty
    refine ⟨hle, Nat.lt_add_of_pos_right hpos, by rw [hd.len]; exact hlen, ?_, hlast p hstarts⟩
    have hchar := charAt_prefix hstarts hfirst
    rw [Nat.add_zero] at hchar
    rw [hchar]
    exact hd.solid _ (List.getElem_mem hfirst)
  | some e =>
    cases hfound : strstr start content [e] with
    | none =>
      simp only [hfound] at h
      cases h
    | some p =>
      simp only [hfound] at h
      split_ifs at h with hstop
      obtain rfl := Option.some.inj h
      obtain ⟨hle, hmark⟩ := strstr_some hfound
      rw [hd.len] at hstop
      have hstarts := strncmpEqual_prefix d.stop.nul_free hstop
      have hlen := prefix_drop_length hstarts hd.nonempty
      refine ⟨hle, by dsimp only; omega, by rw [hd.len]; exact hlen, ?_, hlast (p + 1) hstarts⟩
      have hchar := charAt_prefix hmark (i := 0) Nat.zero_lt_one
      rw [Nat.add_zero] at hchar
      rw [hchar]
      exact hextra e rfl

/-- A complete tag: it lies in the template behind the position; the blanks in front of the content end before the
content does; and what is left of the content lies in the tag. -/
structure TagInside (start : Bytes) (input : ℕ) (d : Delimiters) (tag : MustacheTag) (begin stop : ℕ) : Prop where
  behind : input ≤ begin
  forward : begin < stop
  inside : stop ≤ start.length
  trims : ∃ content contentEnd, rawTag start input d = some (begin, content, contentEnd, stop) ∧ content ≤ contentEnd ∧
    ((start.drop content).takeWhile isSpace).length ≤ contentEnd - content
  content : begin ≤ tag.content
  contentLen : tag.content + tag.contentLen ≤ stop

theorem nextTag_complete {begin stop : ℕ} (hd : d.Usable) (hbegin : (nextTag start input d).begin = some begin)
    (hstop : (nextTag start input d).stop = some stop) :
    TagInside start input d (nextTag start input d) begin stop ∧ isSpace (charAt start (stop - 1)) = false := by
  unfold nextTag at hbegin hstop ⊢
  cases hfound : strstr start input d.start.text with
  | none =>
    rw [hfound] at hbegin
    cases hbegin
  | some b =>
    rw [hfound] at hbegin hstop
    dsimp only at hbegin hstop ⊢
    generalize hmark : tagMark (charAt start (b + d.start.len)) = mark at hbegin hstop ⊢
    generalize hcontent : b + d.start.len + mark.2.1 = content at hbegin hstop ⊢
    cases hends : tagEnd start content mark.2.2 d with
    | none =>
      rw [hends] at hstop
      cases hstop
    | some ends =>
      rw [hends] at hbegin hstop
      obtain rfl := Option.some.inj hbegin
      obtain rfl := Option.some.inj hstop
      have hpos := hd.start.pos
      obtain ⟨hbehind, -⟩ := strstr_some hfound
      obtain ⟨hle, hlt, hlen, hsolid, hlast⟩ := tagEnd_some hd.stop (fun e he => tagMark_extra (hmark ▸ he)) hends
      have hget : (start.drop content)[ends.1 - content]? = some (charAt start ends.1) := by
        rw [List.getElem?_drop, Nat.add_sub_cancel' hle, charAt, List.getD_eq_getElem?_getD,
          List.getElem?_eq_getElem (Nat.lt_of_lt_of_le hlt hlen), Option.getD_some]
      have hblanks := length_takeWhile_le hget hsolid
      have hraw : rawTag start input d = some (b, content, ends.1, ends.2) := by
        simp only [rawTag, hfound, Option.bind_eq_bind, Option.bind_some, hmark, hcontent, hends]
        rfl
      dsimp only
      rw [trimFront_eq hblanks]
      generalize hk : ((start.drop content).takeWhile isSpace).length = blanks at hblanks ⊢
      have hback := trimBack_le start (content + blanks) (ends.1 - content - blanks)
      exact ⟨⟨hbehind, by omega, hlen, ⟨_, _, hraw, hle, hk ▸ hblanks⟩, by dsimp only; omega, by dsimp only; omega⟩, hlast⟩

/-! ## Lines -/

/-- A position with no blank before it: the start of the template, its end, or behind a tag or a line. -/
def Fresh (start : Bytes) (input : ℕ) : Prop :=
  input ≤ start.length ∧ (input = 0 ∨ input = start.length ∨ isSpace (charAt start (input - 1)) = false)

/-- The line of a tag does not begin before the position from which the tag was looked for. -/
theorem lineBegin_behind {tagStart b : ℕ} (h : Fresh start input) (hle : input ≤ tagStart)
    (hlt : tagStart < start.length) (hb : lineBegin start tagStart = some b) : input ≤ b := by
  induction tagStart with
  | zero => omega
  | succ i ih =>
    by_cases heq : input = i + 1
    · subst heq
      have hsolid : isSpace (charAt start i) = false := by
        rcases h.2 with h0 | hend | hsolid
        · omega
        · omega
        · exact hsolid
      rw [lineBegin, if_neg (by rw [hsolid]; decide)] at hb
      split_ifs at hb
      exact Nat.le_of_eq (Option.some.inj hb)
    · rw [lineBegin] at hb
      split_ifs at hb
      · exact ih (by omega) (by omega) hb
      · obtain rfl := Option.some.inj hb
        exact hle

theorem charAt_of_drop {rest : Bytes} (h : start.drop i = c :: rest) :
    charAt start i = c ∧ start.drop (i + 1) = rest ∧ i < start.length := by
  have hlen := congrArg List.length h
  rw [List.length_drop, List.length_cons] at hlen
  refine ⟨?_, ?_, by omega⟩
  · have hget : start[i]? = some c := by rw [← Nat.add_zero i, ← List.getElem?_drop, h, List.getElem?_cons_zero]
    rw [charAt, List.getD_eq_getElem?_getD, hget, Option.getD_some]
  · rw [← List.drop_drop, h, List.drop_one, List.tail_cons]

theorem lineEnd_fresh {e : ℕ} (hi : i ≤ start.length) (htext : start.drop i = text) (he : lineEnd text i = some e) :
    i ≤ e ∧ Fresh start e := by
  induction text generalizing i with
  | nil =>
    obtain rfl := Option.some.inj he
    rw [List.drop_eq_nil_iff] at htext
    exact ⟨Nat.le_refl _, hi, .inr (.inl (by omega))⟩
  | cons c rest ih =>
    obtain ⟨hc, hrest, hlt⟩ := charAt_of_drop htext
    have hnext : ∀ he : lineEnd rest (i + 1) = some e, i ≤ e ∧ Fresh start e := fun he =>
      ⟨Nat.le_of_succ_le (ih hlt hrest he).1, (ih hlt hrest he).2⟩
    rw [lineEnd] at he
    split_ifs at he with hblank hnl hcr hcrnl
    · exact hnext he
    · obtain rfl := Option.some.inj he
      refine ⟨Nat.le_succ i, hlt, .inr (.inr ?_)⟩
      rw [Nat.add_sub_cancel, hc, hnl]
      rfl
    · obtain rfl := Option.some.inj he
      obtain ⟨tail, htail⟩ := List.head?_eq_some_iff.mp hcrnl
      obtain ⟨hchar, -, hlt'⟩ := charAt_of_drop (hrest.trans htail)
      refine ⟨Nat.le_add_right i 2, hlt', .inr (.inr ?_)⟩
      show isSpace (charAt start (i + 1)) = false
      rw [hchar]
      rfl
    · exact hnext he

theorem isTagStandalone_line {begin stop : ℕ} {line : ℕ × ℕ} (h : Fresh start input) (hbehind : input ≤ begin)
    (hforward : begin < stop) (hinside : stop ≤ start.length) (hline : isTagStandalone start begin stop = some line) :
    input ≤ line.1 ∧ stop ≤ line.2 ∧ Fresh start line.2 := by
  unfold isTagStandalone at hline
  split at hline
  · rename_i b e hb he
    obtain rfl := Option.some.inj hline
    obtain ⟨hle, hfresh⟩ := lineEnd_fresh hinside rfl he
    exact ⟨lineBegin_behind h hbehind (Nat.lt_of_lt_of_le hforward hinside) hb, hle, hfresh⟩
  · cases hline

end Libntech.Mustache
