import Libntech.Mustache.Assertions

/-! # The buffers of the delimiters

`SetDelimiters` allows a token as long as the buffer and then writes its terminator behind it, and it sets the start
delimiter before it looks at the length of the other one. With other tags the buffers are safe, in every turn of `Render`
and of `ShouldIterateObject`.
-/
namespace Libntech.Mustache
set_option autoImplicit false

open Libntech.Json

/-- The buffer holds a C string of the length that is kept beside it, so that what reads up to the terminator, or up to
that length, stays inside. -/
structure Delimiter.Held (d : Delimiter) : Prop where
  inside : d.len < mustacheMaxDelimSize
  terminated : d.chars[d.len]? = some 0
  length : d.text.length = d.len

structure Delimiters.Held (d : Delimiters) : Prop where
  start : d.start.Held
  stop : d.stop.Held

theorem Delimiters.held_initial : Delimiters.initial.Held where
  start := ⟨by decide, by decide, by decide⟩
  stop := ⟨by decide, by decide, by decide⟩

/-! ## `SetDelimiters` -/

/-- A call of `SetDelimiters` that writes inside the buffers; the delimiters it accepts are held, and one that it refuses
leaves both as they were. -/
def SetsSafely (content : Bytes) (d : Delimiters) : Prop :=
  match setDelimiters content d with
  | (.ok _, d') => d'.Held
  | (.error .failed, d') => d' = d
  | (.error _, _) => False

/-- There are not two tokens, or the first is too long to be accepted, or both leave place for a terminator, or the
second is too long and the first is the start delimiter that is set already. -/
def fits (content : Bytes) (d : Delimiters) : Bool :=
  let seps := ascii " \t"
  let first := (stringGetToken content seps 0).getD []
  let second := (stringGetToken content seps 1).getD []
  stringCountTokens content seps != 2 || decide (mustacheMaxDelimSize < first.length) ||
    (decide (first.length < mustacheMaxDelimSize) &&
      (decide (second.length < mustacheMaxDelimSize) ||
        (decide (mustacheMaxDelimSize < second.length) && first == d.start.text)))

theorem held_of_text {text rest : Bytes} {len : ℕ} (h0 : 0 ∉ text) (hlen : text.length = len)
    (hinside : len < mustacheMaxDelimSize) : Delimiter.Held ⟨text ++ 0 :: rest, len⟩ where
  inside := hinside
  terminated := by
    rw [← hlen, List.getElem?_append_right (Nat.le_refl _), Nat.sub_self, List.getElem?_cons_zero]
  length := (congrArg List.length (Lib.takeWhile_ne_terminated h0 rest)).trans hlen

theorem set_held {d d' : Delimiter} {token : Bytes} (h0 : 0 ∉ token) (h : d.set token = some d') :
    d'.Held ∧ d'.text = token := by
  obtain ⟨hlen, rfl⟩ := Delimiter.set_some h
  exact ⟨held_of_text h0 rfl hlen, Lib.takeWhile_ne_terminated h0 _⟩

theorem copy_held {d : Delimiter} (h : d.Held) : ∃ d', d.copy = some d' ∧ d'.Held := by
  obtain ⟨rest, hcopy⟩ := copy_eq h.length h.inside
  exact ⟨_, hcopy, held_of_text d.nul_free h.length h.inside⟩

/-- A held buffer is its text, the terminator, and what is behind. -/
theorem Delimiter.Held.chars_eq {d : Delimiter} (h : d.Held) : d.chars = d.text ++ 0 :: d.chars.drop (d.len + 1) := by
  have htext : d.text = d.chars.take d.len := by
    rw [← h.length]
    exact (take_length_takeWhile _ _).symm
  obtain ⟨hlt, hget⟩ := List.getElem?_eq_some_iff.mp h.terminated
  rw [htext, ← hget, ← List.drop_eq_getElem_cons hlt, List.take_append_drop]

theorem Delimiter.Held.set_text {d : Delimiter} (h : d.Held) : d.set d.text = some d := by
  have hchars := h.chars_eq
  unfold Delimiter.set
  rw [if_pos (h.length ▸ h.inside), h.length, ← hchars]

variable {start : Bytes} {d : Delimiters}

theorem setDelimiters_held {content : Bytes} {d' : Delimiters} {result : Except Stop Unit} (h0 : 0 ∉ content)
    (hd : d.Held) (h : setDelimiters content d = (result, d')) : d'.Held := by
  have hsetting := setDelimiters_setting content d
  have htoken := token_nul_free h0
  rw [h] at hsetting
  cases hsetting with
  | refused _ => exact hd
  | overflows _ _ => exact hd
  | halfRefused htwo hstart _ => exact ⟨(set_held (htoken 0 (by rw [htwo]; decide)) hstart).1, hd.stop⟩
  | halfOverflows htwo hstart _ => exact ⟨(set_held (htoken 0 (by rw [htwo]; decide)) hstart).1, hd.stop⟩
  | set htwo hstart hstop =>
    exact ⟨(set_held (htoken 0 (by rw [htwo]; decide)) hstart).1, (set_held (htoken 1 (by rw [htwo]; decide)) hstop).1⟩

theorem setsSafely_iff {content : Bytes} (h0 : 0 ∉ content) (hd : d.Held) :
    SetsSafely content d ↔ fits content d = true := by
  have hsetting := setDelimiters_setting content d
  have hheld : ∀ d', setDelimiters content d = (.ok (), d') → d'.Held := fun d' => setDelimiters_held h0 hd
  have htext : stringCountTokens content (ascii " \t") = 2 → 0 ∉ (stringGetToken content (ascii " \t") 0).getD [] :=
    fun htwo => token_nul_free h0 0 (by rw [htwo]; decide)
  unfold SetsSafely fits
  dsimp only
  generalize (stringGetToken content (ascii " \t") 0).getD [] = first at hsetting htext ⊢
  generalize (stringGetToken content (ascii " \t") 1).getD [] = second at hsetting ⊢
  generalize setDelimiters content d = result at hsetting hheld ⊢
  simp only [Bool.or_eq_true, Bool.and_eq_true, decide_eq_true_iff, bne_iff_ne, beq_iff_eq]
  cases hsetting with
  | refused hrefused => exact ⟨fun _ => .inl hrefused, fun _ => rfl⟩
  | overflows htwo hlen =>
    refine ⟨False.elim, ?_⟩
    rintro ((hcount | hlong) | ⟨hshort, -⟩)
    · exact hcount htwo
    · omega
    · omega
  | halfRefused htwo hstart hlong =>
    obtain ⟨hshort, -⟩ := Delimiter.set_some hstart
    constructor
    · intro hsame
      have hsame' := congrArg Delimiters.start hsame
      refine .inr ⟨hshort, .inr ⟨hlong, ?_⟩⟩
      exact (set_held (htext htwo) hstart).2.symm.trans (congrArg Delimiter.text hsame')
    · rintro ((hcount | hlong') | ⟨-, hshort' | ⟨-, rfl⟩⟩)
      · exact absurd htwo hcount
      · omega
      · omega
      · rw [hd.start.set_text] at hstart
        rw [← Option.some.inj hstart]
  | halfOverflows htwo hstart hlen =>
    obtain ⟨hshort, -⟩ := Delimiter.set_some hstart
    refine ⟨False.elim, ?_⟩
    rintro ((hcount | hlong) | ⟨-, hshort' | ⟨hlong, -⟩⟩)
    · exact hcount htwo
    · omega
    · omega
    · omega
  | set htwo hstart hstop =>
    exact ⟨fun _ => .inr ⟨(Delimiter.set_some hstart).1, .inl (Delimiter.set_some hstop).1⟩, fun _ => hheld _ rfl⟩

/-! ## `ShouldIterateObject` -/

/-- `iterateLoop` that asserts in each turn. -/
def iterateAsserting (holds : ℕ → Delimiters → Bool) (start : Bytes) : ℕ → Option ℕ → Delimiters → Except Stop Bool
  | 0, _, _ => .error .outOfFuel
  | _ + 1, none, _ => .error .assertFailed
  | fuel + 1, some input, d =>
    if holds input d then iterateTurn start (iterateAsserting holds start fuel) input d else .error .assertFailed

theorem iterateTurn_congr (h0 : 0 ∉ start) {f g : Option ℕ → Delimiters → Except Stop Bool} (input : ℕ) (hd : d.Held)
    (h : ∀ n d, Delimiters.Held d → f n d = g n d) :
    iterateTurn start f input d = iterateTurn start g input d := by
  unfold iterateTurn
  dsimp only
  generalize nextTag start input d = tag
  cases tag.type with
  | delim =>
    dsimp only
    cases hset : setDelimiters (tag.name start) d with
    | mk result d' =>
      cases result with
      | error stop => cases stop <;> rfl
      | ok _ => exact h tag.stop d' (setDelimiters_held (name_nul_free h0 tag) hd hset)
  | var => rw [h tag.stop d hd]
  | varUnescaped => rw [h tag.stop d hd]
  | varSerialized => exact h tag.stop d hd
  | varSerializedCompact => exact h tag.stop d hd
  | inverted => exact h tag.stop d hd
  | comment => exact h tag.stop d hd
  | «section» => rfl
  | sectionEnd => rfl
  | err => rfl
  | none => rfl

theorem iterateAsserting_congr {holds holds' : ℕ → Delimiters → Bool} (h0 : 0 ∉ start)
    (hholds : ∀ input d, Delimiters.Held d → holds input d = holds' input d) (fuel : ℕ) :
    ∀ (input : Option ℕ) (d : Delimiters), d.Held →
      iterateAsserting holds start fuel input d = iterateAsserting holds' start fuel input d := by
  induction fuel with
  | zero => exact fun _ _ _ => rfl
  | succ fuel ih =>
    intro input d hd
    cases input with
    | none => rfl
    | some input => rw [iterateAsserting, iterateAsserting, hholds input d hd, iterateTurn_congr h0 input hd ih]

/-! ## Turns -/

/-- The delimiters are held, and if the next tag sets them, the call for it is safe. -/
def TagSafe (start : Bytes) (input : ℕ) (d : Delimiters) : Prop :=
  d.Held ∧ ((nextTag start input d).type = .delim → SetsSafely ((nextTag start input d).name start) d)

/-- If the next tag sets the delimiters, its tokens fit. -/
def tagFits (start : Bytes) (input : ℕ) (d : Delimiters) : Bool :=
  (nextTag start input d).type != .delim || fits ((nextTag start input d).name start) d

open Classical in
noncomputable def tagSafe (start : Bytes) (input : ℕ) (d : Delimiters) : Bool := decide (TagSafe start input d)

open Classical in
theorem tagSafe_iff {input : ℕ} : tagSafe start input d = true ↔ TagSafe start input d :=
  decide_eq_true_iff

theorem tagSafe_eq (h0 : 0 ∉ start) (input : ℕ) (hd : d.Held) :
    tagSafe start input d = tagFits start input d := by
  rw [Bool.eq_iff_iff, tagSafe_iff]
  unfold TagSafe tagFits
  rw [Bool.or_eq_true, bne_iff_ne, ← setsSafely_iff (name_nul_free h0 _) hd]
  constructor
  · rintro ⟨-, hsafe⟩
    exact Decidable.not_or_of_imp hsafe
  · exact fun hfits => ⟨hd, fun htype => hfits.resolve_left (not_not.mpr htype)⟩

/-- The copies that `ShouldIterateObject` makes exist, and each of its turns is safe. -/
def IteratesSafely (start : Bytes) (input : Option ℕ) (d : Delimiters) : Prop :=
  ∃ locStart locStop, d.start.copy = some locStart ∧ d.stop.copy = some locStop ∧
    iterateAsserting (tagSafe start) start (start.length + 2) input ⟨locStart, locStop⟩ =
      shouldIterateObject start input d

/-- The tokens fit in each turn of `ShouldIterateObject`. -/
def iteratesFitting (start : Bytes) (input : Option ℕ) (d : Delimiters) : Bool :=
  match d.start.copy, d.stop.copy with
  | some locStart, some locStop =>
    decide (iterateAsserting (tagFits start) start (start.length + 2) input ⟨locStart, locStop⟩ =
      shouldIterateObject start input d)
  | _, _ => false

theorem iteratesSafely_iff (h0 : 0 ∉ start) (input : Option ℕ) (hd : d.Held) :
    IteratesSafely start input d ↔ iteratesFitting start input d = true := by
  obtain ⟨locStart, hstart, hlocStart⟩ := copy_held hd.start
  obtain ⟨locStop, hstop, hlocStop⟩ := copy_held hd.stop
  have hcongr := iterateAsserting_congr h0 (fun input d hd => tagSafe_eq h0 input hd) (start.length + 2) input
    ⟨locStart, locStop⟩ ⟨hlocStart, hlocStop⟩
  unfold IteratesSafely iteratesFitting
  rw [hstart, hstop]
  dsimp only
  rw [decide_eq_true_iff, ← hcongr]
  constructor
  · rintro ⟨_, _, hstart', hstop', hsame⟩
    obtain rfl := Option.some.inj hstart'
    obtain rfl := Option.some.inj hstop'
    exact hsame
  · exact fun hsame => ⟨locStart, locStop, rfl, rfl, hsame⟩

/-- The tag opens a section for which `ShouldIterateObject` is called. -/
def opensObject (start : Bytes) (tag : MustacheTag) (sc : Scope) : Bool :=
  (decide (tag.type = .section) || decide (tag.type = .inverted)) &&
    match (lookupVariable sc (tag.name start)).bind (deref sc.doc) with
    | some (.object _) => true
    | _ => false

/-- A turn of `Render` that is safe, with the turns of `ShouldIterateObject` in it. -/
def TurnSafely (start : Bytes) (input : ℕ) (skipContent : Bool) (st : State) : Prop :=
  TagSafe start input st.delims ∧
    (opensObject start (nextTag start input st.delims) st.toScope = true →
      IteratesSafely start (renderBefore start input (nextTag start input st.delims) skipContent st).1 st.delims)

/-- All tokens fit, in the turn and in those of `ShouldIterateObject` in it. -/
def turnFits (start : Bytes) (input : ℕ) (skipContent : Bool) (st : State) : Bool :=
  tagFits start input st.delims &&
    (!opensObject start (nextTag start input st.delims) st.toScope ||
      iteratesFitting start (renderBefore start input (nextTag start input st.delims) skipContent st).1 st.delims)

open Classical in
noncomputable def turnSafely (start : Bytes) (input : ℕ) (skipContent : Bool) (st : State) : Bool :=
  decide (TurnSafely start input skipContent st)

open Classical in
theorem turnSafely_iff {input : ℕ} {skipContent : Bool} {st : State} :
    turnSafely start input skipContent st = true ↔ TurnSafely start input skipContent st :=
  decide_eq_true_iff

theorem turnSafely_eq (h0 : 0 ∉ start) (input : ℕ) (skipContent : Bool) {st : State} (hd : st.delims.Held) :
    turnSafely start input skipContent st = turnFits start input skipContent st := by
  rw [Bool.eq_iff_iff, turnSafely_iff]
  unfold TurnSafely turnFits
  rw [iteratesSafely_iff h0 _ hd, Bool.and_eq_true, Bool.or_eq_true, ← tagSafe_eq h0 input hd, tagSafe_iff]
  cases opensObject start (nextTag start input st.delims) st.toScope with
  | true => simp
  | false => simp

/-! ## Whole runs -/

theorem respects_held : Respects fun s t : State => s = t ∧ s.delims.Held where
  scope := fun h => Scope.alike_of_eq (congrArg State.toScope h.1)
  stack := by
    rintro s t hashStack ⟨rfl, hd⟩
    exact ⟨rfl, hd⟩
  doc := by
    rintro s t doc ⟨rfl, hd⟩
    exact ⟨rfl, hd⟩
  delims := by
    rintro s t content ⟨rfl, hd⟩ h0
    exact ⟨rfl, setDelimiters_held h0 hd rfl⟩
  out := by
    rintro s t text ⟨rfl, hd⟩
    exact ⟨rfl, hd⟩
  closed := by
    rintro s t s₀ t₀ tag body ⟨rfl, hd⟩ ⟨rfl, -⟩
    exact ⟨rfl, hd⟩

/-- `MustacheRender` that asserts in each turn. -/
def mustacheAsserting (holds : ℕ → Bool → State → Bool) (realText : Bytes → Option Bytes) (fuel : ℕ) (out : Bytes)
    (input : CString) (hash : JsonElement) : Except Stop (Option ℕ) × State :=
  renderAsserting holds realText input.bytes fuel false (some 0) none false ⟨⟨hash, [some []], .initial⟩, out, []⟩

/-- For every template and all data: all turns of a run are safe if and only if the tokens fit in all of them. -/
theorem mustacheRender_buffers_iff (realText : Bytes → Option Bytes) (fuel : ℕ) (out : Bytes) (input : CString)
    (hash : JsonElement) :
    mustacheAsserting (turnSafely input.bytes) realText fuel out input hash = mustacheRender realText fuel out input hash ↔
      mustacheAsserting (turnFits input.bytes) realText fuel out input hash =
        mustacheRender realText fuel out input hash := by
  have hsame : mustacheAsserting (turnSafely input.bytes) realText fuel out input hash =
      mustacheAsserting (turnFits input.bytes) realText fuel out input hash := by
    have hholds : ∀ {s t : State}, s = t ∧ s.delims.Held → ∀ position skip,
        turnSafely input.bytes position skip s = turnFits input.bytes position skip t := by
      rintro s t ⟨rfl, hd⟩ position skip
      exact turnSafely_eq input.nul_free position skip hd
    obtain ⟨hresult, hstate, -⟩ := renderAsserting_related respects_held hholds realText input.nul_free fuel false
      ⟨⟨hash, [some []], .initial⟩, out, []⟩ _ ⟨rfl, Delimiters.held_initial⟩ (some 0) none false
    exact Prod.ext hresult hstate
  rw [hsame]

/-- `{{=AAAAAAAAAA %>=}}` -/
def longestStart : CString := ⟨ascii "\x7b\x7b=AAAAAAAAAA %>=\x7d\x7d", by decide⟩

/-- `{{=<% AAAAAAAAAAA=}}` -/
def tooLongStop : CString := ⟨ascii "\x7b\x7b=<% AAAAAAAAAAA=\x7d\x7d", by decide⟩

/-- Ten characters are accepted, and the terminator is written behind the buffer; a refused end delimiter leaves the start
delimiter that was set before it. -/
theorem longest_token_overflows :
    (mustacheRender (fun _ => none) 2 [] longestStart (.object [])).1 = .error .outOfBounds ∧
      (mustacheRender (fun _ => none) 2 [] tooLongStop (.object [])).1 = .error .failed ∧
        (mustacheRender (fun _ => none) 2 [] tooLongStop (.object [])).2.delims.start.text = ascii "<%" := by
  decide

end Libntech.Mustache
