import Libntech.Json.Grammar

/-! # Where `JsonParse` reads

The parser follows the grammar of `Json.Grammar`: a loop over a frame succeeds on what closes the frame, reads
past the terminating NUL on what is cut off inside a string, and returns an error on everything else. No text
makes it run out of turns.
-/
namespace Libntech.Json
set_option autoImplicit false

/-! ## The loops follow the grammar -/

variable {r : Bytes} {fuel p : ℕ} {c : UInt8} {e : JsonElement} {f : Frame}

section Complete

variable {s : Bytes} (h0 : 0 ∉ s)
include h0

mutual

theorem item_loop {f g : Frame} {r r' : Bytes} {p n : ℕ} (hi : Item f r g r') (h : At s p r)
    (hfuel : 2 * r.length + 1 ≤ n) :
    ∃ q, f.loop s (n + 1) p = g.loop s n q ∧ At s q r' ∧ r'.length < r.length := by
  cases hi with
  | blank hc =>
    refine ⟨p + 1, loop_blank f h0 h hc, h.next, ?_⟩
    simp
  | @punct _ _ c _ hg =>
    have hmark := punct_mark hg
    refine ⟨p + 1, ?_, h.next, by simp⟩
    rw [loop_item f h0 h hmark.1 hmark.2, item_punct h.peek_cons hg]
    rfl
  | @text _ _ b _ hb hg =>
    have hend := (At.skip h.next)
    refine ⟨p + b.length + 2, ?_, ?_, ?_⟩
    · rw [loop_item f h0 h (by decide) (quote_ne_closer f),
        item_text_ok hg (parseAsString_closed h0 hb h) (by
          have hpeek := hend.peek_cons
          rwa [Nat.add_right_comm] at hpeek)]
      rfl
    · have hnext := hend.next
      have hpos : p + 1 + b.length + 1 = p + b.length + 2 := by omega
      rwa [hpos] at hnext
    · simp only [List.length_cons, List.length_append]
      omega
  | @scalar _ _ v _ e last hs hlast hr hg =>
    obtain ⟨c, t, rfl, hkey⟩ := scalar_head hs
    obtain ⟨_, hws, hclose⟩ := plain_of_keyChar f hkey
    refine ⟨p + (c :: t).length, ?_, h.skip, by rw [List.length_append, List.length_cons]; omega⟩
    rw [loop_item (r := t ++ r') f h0 h hws hclose, item_scalar h0 h hs hlast hr hg rfl]
    rfl
  | @key _ _ w ws _ hw hws hg =>
    obtain ⟨c, t, rfl, hkey⟩ := hw.head
    obtain ⟨_, hblank, hclose⟩ := plain_of_keyChar f hkey
    refine ⟨p + (c :: t).length + ws.length + 1, ?_, h.skip.skip.next, ?_⟩
    · rw [loop_item (r := t ++ (ws ++ ':'.toUInt8 :: r')) f h0 h hblank hclose, item_key h0 h hw hws hg rfl]
      rfl
    · simp only [List.length_append, List.length_cons]
      omega
  | @nested _ _ k c d r₁ _ e hn hopen hclose hg =>
    rw [List.length_cons] at hfuel
    obtain ⟨n, rfl⟩ : ∃ j, n = j + 1 := ⟨n - 1, by omega⟩
    obtain ⟨q, hloop, hpeek, hat, hlen⟩ := closes_loop hclose h.next (n := n) (by omega)
    obtain ⟨hws, hne⟩ := opened_mark f hopen
    refine ⟨q + 1, ?_, hat, ?_⟩
    · rw [loop_item f h0 h hws hne, item_nested hopen h.peek_cons hn, hloop]
      simp only [Outcome.ok_bind, hpeek, hg]
    · rw [List.length_cons]
      omega
  termination_by n

theorem closes_loop {f : Frame} {r r' : Bytes} {e : JsonElement} {d : UInt8} {p n : ℕ}
    (hc : Closes f r e d r') (h : At s p r) (hfuel : 2 * r.length + 2 ≤ n) :
    ∃ q, f.loop s n p = .ok (e, q) ∧ peek s q = .ok d ∧ At s (q + 1) r' ∧ r'.length < r.length := by
  obtain ⟨n, rfl⟩ : ∃ j, n = j + 1 := ⟨n - 1, by omega⟩
  cases hc with
  | here he =>
    refine ⟨p, ?_, h.peek_cons, h.next, by simp⟩
    rcases loop_closer f h0 h rfl (n := n) with ⟨e', he', hloop⟩ | ⟨hnone, _⟩
    · rw [he, Option.some.injEq] at he'
      rw [he']
      exact hloop
    · rw [he] at hnone
      cases hnone
  | item hi hc =>
    obtain ⟨q, hloop, hat, hlen⟩ := item_loop hi h (n := n) (by omega)
    obtain ⟨q', hloop', hpeek, hat', hlen'⟩ := closes_loop hc hat (n := n) (by omega)
    exact ⟨q', hloop.trans hloop', hpeek, hat', by omega⟩
  termination_by n

end

/-- An abort where `P` holds is an abort of the whole parse. -/
theorem reaches_loop {P : Frame → Bytes → Prop} {o : ∀ {α : Type}, Outcome α}
    (ho : ∀ {α β : Type} (k : α → Outcome β), ((o : Outcome α) >>= k) = o)
    (hP : ∀ {f : Frame} {r : Bytes} {p : ℕ} (fuel : ℕ), P f r → At s p r → f.loop s (fuel + 1) p = o)
    (hr : Reaches P f r) : ∀ {p fuel : ℕ}, At s p r → 2 * r.length + 2 ≤ fuel →
    f.loop s fuel p = o := by
  induction hr with
  | here h =>
    intro p fuel hat hfuel
    obtain ⟨fuel, rfl⟩ : ∃ j, fuel = j + 1 := ⟨fuel - 1, by omega⟩
    exact hP fuel h hat
  | @nested f k c r hn hopen _ ih =>
    intro p fuel h hfuel
    rw [List.length_cons] at hfuel
    obtain ⟨fuel, rfl⟩ : ∃ j, fuel = j + 2 := ⟨fuel - 2, by omega⟩
    obtain ⟨hws, hne⟩ := opened_mark f hopen
    rw [loop_item f h0 h hws hne, item_nested hopen h.peek_cons hn, ih h.next (by omega), ho, ho]
  | item hi _ ih =>
    intro p fuel h hfuel
    obtain ⟨fuel, rfl⟩ : ∃ j, fuel = j + 1 := ⟨fuel - 1, by omega⟩
    obtain ⟨q, hloop, hat, hlen⟩ := item_loop h0 hi h (n := fuel) (by omega)
    rw [hloop]
    exact ih hat (by omega)

end Complete

/-! ## Every text is one of the three -/

section Sound

variable {s : Bytes} (h0 : 0 ∉ s)

/-- How a loop over a frame ends on the text ahead. -/
def Settled (s : Bytes) (fuel p : ℕ) (f : Frame) (r : Bytes) : Prop :=
  (∃ e d r' q, Closes f r e d r' ∧ f.loop s fuel p = .ok (e, q) ∧ peek s q = .ok d ∧ At s (q + 1) r' ∧
      r'.length < r.length) ∨
    (∃ e, f.loop s fuel p = .error e) ∨ Cut f r ∧ f.loop s fuel p = .outOfBounds

include h0

theorem item_cases (h : At s p (c :: r)) (hnest : ∀ k, Frame.opened c = some k → Settled s fuel (p + 1) k r) :
    (∃ g r' q, Item f (c :: r) g r' ∧ f.item s (fuel + 1) p c = .ok (g, q) ∧ At s (q + 1) r' ∧
        r'.length ≤ r.length) ∨
      (∃ e, f.item s (fuel + 1) p c = .error e) ∨ Cut f (c :: r) ∧ f.item s (fuel + 1) p c = .outOfBounds := by
  by_cases hq : c = '"'.toUInt8
  · subst hq
    rcases string_cases r.length r (Nat.le_refl _) with ⟨b, r', hb, rfl⟩ | hb | ⟨b, hb, rfl⟩
    · cases hg : f.text (unescape b) with
      | none => exact .inr (.inl (item_text_none hg))
      | some g =>
        have hend := At.skip h.next
        have hpos : p + 1 + b.length = p + b.length + 1 := by omega
        rw [hpos] at hend
        refine .inl ⟨g, r', _, .text hb hg, item_text_ok hg (parseAsString_closed h0 hb h) hend.peek_cons, hend.next, ?_⟩
        rw [List.length_append, List.length_cons]
        omega
    · cases hg : f.text r with
      | none => exact .inr (.inl (item_text_none hg))
      | some g =>
        have hne : f.text r ≠ none := by simp [hg]
        exact .inr (.inl ⟨_, (item_text_stop hne).1 _ (parseAsString_open h0 hb h)⟩)
    · cases hg : f.text b with
      | none => exact .inr (.inl (item_text_none hg))
      | some g =>
        have hne : f.text b ≠ none := by simp [hg]
        exact .inr (.inr ⟨.here ⟨b, hne, hb, rfl⟩, (item_text_stop hne).2 (parseAsString_cut h0 hb h)⟩)
  cases hopen : Frame.opened c with
  | some k =>
    cases hn : f.nests with
    | false => exact .inr (.inl (item_nested_refused hopen hn))
    | true =>
      have heq := item_nested (n := fuel) hopen h.peek_cons hn
      rcases hnest k hopen with ⟨e, d, r', q, hclose, hloop, hpeek, hat, hlen⟩ | ⟨e, hloop⟩ | ⟨hcut, hloop⟩
      · obtain ⟨g, hg⟩ := value_of_nests hn d e
        refine .inl ⟨g, r', q, .nested hn hopen hclose hg, ?_, hat, by omega⟩
        rw [heq, hloop]
        simp only [Outcome.ok_bind, hpeek, hg]
      · exact .inr (.inl ⟨e, by rw [heq, hloop]; rfl⟩)
      · exact .inr (.inr ⟨.nested hn hopen hcut, by rw [heq, hloop]; rfl⟩)
  | none =>
    cases hpunct : f.isPunct c with
    | true =>
      cases hg : f.punct c with
      | none => exact .inr (.inl (item_punct_refused hpunct hg))
      | some g => exact .inl ⟨g, r, p, .punct hg, item_punct h.peek_cons hg, h.next, Nat.le_refl _⟩
    | false =>
      rcases item_plain_cases h0 h ⟨hq, hopen, hpunct⟩ with hitem | herr
      · exact .inl hitem
      · exact .inr (.inl herr)

theorem loop_settled (fuel : ℕ) : ∀ {p : ℕ} {f : Frame} {r : Bytes}, At s p r → 2 * r.length + 2 ≤ fuel →
    Settled s fuel p f r := by
  induction fuel using Nat.strongRecOn with
  | ind fuel ih =>
    intro p f r h hfuel
    obtain ⟨fuel, rfl⟩ : ∃ k, fuel = k + 2 := ⟨fuel - 2, by omega⟩
    cases r with
    | nil => exact .inr (.inl (loop_end f h))
    | cons c r =>
      rw [List.length_cons] at hfuel
      -- what is left of the text after one item is settled by induction
      have hrest : ∀ {g : Frame} {r' : Bytes} {q : ℕ}, Item f (c :: r) g r' → At s q r' → r'.length ≤ r.length →
          f.loop s (fuel + 2) p = g.loop s (fuel + 1) q → Settled s (fuel + 2) p f (c :: r) := by
        intro g r' q hi hat hlen heq
        unfold Settled
        rw [heq]
        rcases ih (fuel + 1) (by omega) (f := g) hat (by omega) with ⟨e, d, r'', q', hclose, hloop, hpeek, hat', hlen'⟩ |
          herr | ⟨hcut, hloop⟩
        · refine .inl ⟨e, d, r'', q', .item hi hclose, hloop, hpeek, hat', ?_⟩
          rw [List.length_cons]
          omega
        · exact .inr (.inl herr)
        · exact .inr (.inr ⟨.item hi hcut, hloop⟩)
      by_cases hws : isWhitespace c = true
      · exact hrest (.blank hws) h.next (Nat.le_refl _) (loop_blank f h0 h hws)
      have hws : isWhitespace c = false := by simpa using hws
      by_cases hclose : c = f.closer
      · rcases loop_closer f h0 h hclose (n := fuel + 1) with ⟨e, he, hloop⟩ | ⟨_, herr⟩
        · subst hclose
          exact .inl ⟨e, f.closer, r, p, .here he, hloop, h.peek_cons, h.next, by simp⟩
        · exact .inr (.inl herr)
      have heq := loop_item f h0 h hws hclose (n := fuel + 1)
      have hnest : ∀ k, Frame.opened c = some k → Settled s fuel (p + 1) k r :=
        fun k _ => ih fuel (by omega) h.next (by omega)
      rcases item_cases h0 (f := f) h hnest with ⟨g, r', q, hi, hitem, hat, hlen⟩ | ⟨e, hitem⟩ | ⟨hcut, hitem⟩
      · rw [hitem] at heq
        exact hrest hi hat hlen heq
      · rw [hitem] at heq
        exact .inr (.inl ⟨e, heq⟩)
      · rw [hitem] at heq
        exact .inr (.inr ⟨hcut, heq⟩)

end Sound

/-! ## Whole documents -/

/-- A document that is accepted, with its element. What follows it is not read. -/
inductive Document : Bytes → JsonElement → Prop where
  | blank {c : UInt8} {r : Bytes} {e : JsonElement} : isWhitespace c = true → Document r e → Document (c :: r) e
  | text {b r : Bytes} : StringBody b →
      Document ('"'.toUInt8 :: (b ++ '"'.toUInt8 :: r)) (.primitive .string (decodeString (unescape b)))
  | scalar {v r : Bytes} {e : JsonElement} : Scalar v e → Ends v r → Document (v ++ r) e
  | container {c d : UInt8} {f : Frame} {r r' : Bytes} {e : JsonElement} : Frame.opened c = some f →
      Closes f r e d r' → Document (c :: r) e

/-- The text starts with a document, which is accepted with its element, and the rest follows. -/
inductive Heads : Bytes → JsonElement → Bytes → Prop where
  | blank {c : UInt8} {r r' : Bytes} {e : JsonElement} : isWhitespace c = true → Heads r e r' → Heads (c :: r) e r'
  | text {b r : Bytes} : StringBody b →
      Heads ('"'.toUInt8 :: (b ++ '"'.toUInt8 :: r)) (.primitive .string (decodeString (unescape b))) r
  | scalar {v r : Bytes} {e : JsonElement} : Scalar v e → Ends v r → Heads (v ++ r) e r
  | container {c d : UInt8} {f : Frame} {r r' : Bytes} {e : JsonElement} : Frame.opened c = some f →
      Closes f r e d r' → Heads (c :: r) e r'

/-- A text that is well formed up to a string that ends in a backslash with no character after it. -/
inductive CutInString : Bytes → Prop where
  | blank {c : UInt8} {r : Bytes} : isWhitespace c = true → CutInString r → CutInString (c :: r)
  | text {b : Bytes} : StringBody b → CutInString ('"'.toUInt8 :: (b ++ ['\\'.toUInt8]))
  | container {c : UInt8} {f : Frame} {r : Bytes} : Frame.opened c = some f → Cut f r → CutInString (c :: r)

section Documents

variable {s : Bytes}

theorem primitive_text (h : At s p ('"'.toUInt8 :: r)) :
    parseAsPrimitive s p = parseAsString s p >>= fun a => .ok (.primitive .string (decodeString a.1), a.2) := by
  simp only [parseAsPrimitive, h.peek_cons, Outcome.ok_bind, if_true, Outcome.pure_eq]

theorem primitive_scalar (h : At s p (c :: r)) (hq : c ≠ '"'.toUInt8) :
    parseAsPrimitive s p = parseScalar s p c >>= fun a =>
      match a with
      | some e => .ok e
      | none => .error .objectBadSymbol := by
  simp only [parseAsPrimitive, h.peek_cons, Outcome.ok_bind, hq, if_false]
  rfl

variable (h0 : 0 ∉ s)
include h0

theorem parse_blank (h : At s p (c :: r)) (hc : isWhitespace c = true) :
    parseWithLookup s (fuel + 1) p = parseWithLookup s fuel (p + 1) := by
  have hne : ∀ d, isWhitespace d = false → c ≠ d := by
    rintro d hd rfl
    exact absurd hc (by simp [hd])
  have h₁ := hne '\x7b'.toUInt8 (by decide)
  have h₂ := hne '['.toUInt8 (by decide)
  simp only [parseWithLookup, h.peek_cons, Outcome.ok_bind, h.ne_zero h0, h₁, h₂, if_false, hc, if_true]

theorem parse_container (h : At s p (c :: r)) (hopen : Frame.opened c = some f) :
    parseWithLookup s (fuel + 1) p = f.loop s (2 * s.length + 3) (p + 1) := by
  rcases opened_cases hopen with ⟨rfl, rfl⟩ | ⟨rfl, rfl⟩
  · have hne : '['.toUInt8 ≠ '\x7b'.toUInt8 := by decide
    simp only [parseWithLookup, h.peek_cons, Outcome.ok_bind, h.ne_zero h0, hne, if_false, if_true, parseAsArray,
      ne_eq, not_true_eq_false, Frame.loop]
  · simp only [parseWithLookup, h.peek_cons, Outcome.ok_bind, h.ne_zero h0, if_false, if_true, parseAsObject,
      ne_eq, not_true_eq_false, Frame.loop]

theorem parse_primitive (h : At s p (c :: r)) (hc : isWhitespace c = false) (hopen : Frame.opened c = none) :
    parseWithLookup s (fuel + 1) p = parseAsPrimitive s p := by
  have h₁ : c ≠ '['.toUInt8 := by
    rintro rfl
    exact absurd hopen (by simp [Frame.opened])
  have h₂ : c ≠ '\x7b'.toUInt8 := by
    rintro rfl
    exact absurd hopen (by simp [Frame.opened, Char.toUInt8])
  simp only [parseWithLookup, h.peek_cons, Outcome.ok_bind, h.ne_zero h0, h₁, h₂, if_false, hc, Bool.false_eq_true]

/-- What starts with a document is parsed to its element, and the cursor is left on the last character of it. -/
theorem heads_parse {r' : Bytes} (hd : Heads r e r') : ∀ {p fuel : ℕ}, At s p r →
    r.length < fuel → ∃ q, parseWithLookup s fuel p = .ok (e, q) ∧ At s (q + 1) r' := by
  induction hd with
  | blank hc _ ih =>
    intro p fuel h hfuel
    rw [List.length_cons] at hfuel
    obtain ⟨fuel, rfl⟩ : ∃ k, fuel = k + 1 := ⟨fuel - 1, by omega⟩
    rw [parse_blank h0 h hc]
    exact ih h.next (by omega)
  | @text b r hb =>
    intro p fuel h hfuel
    obtain ⟨fuel, rfl⟩ : ∃ k, fuel = k + 1 := ⟨fuel - 1, by omega⟩
    rw [parse_primitive h0 h (by decide) (by decide), primitive_text h, parseAsString_closed h0 hb h]
    have hend := (At.skip h.next).next
    rw [Nat.add_right_comm p 1] at hend
    exact ⟨_, rfl, hend⟩
  | @scalar v r e hs hr =>
    intro p fuel h hfuel
    obtain ⟨fuel, rfl⟩ : ∃ k, fuel = k + 1 := ⟨fuel - 1, by omega⟩
    obtain ⟨c, t, rfl, hkey⟩ := scalar_head hs
    obtain ⟨hplain, hws, _⟩ := plain_of_keyChar (.array 0 []) hkey
    rw [parse_primitive (r := t ++ r) h0 h hws hplain.2.1, primitive_scalar (r := t ++ r) h hplain.1,
      parseScalar_some h0 hs hr h rfl]
    exact ⟨_, rfl, h.skip⟩
  | container hopen hclose =>
    intro p fuel h hfuel
    obtain ⟨fuel, rfl⟩ : ∃ k, fuel = k + 1 := ⟨fuel - 1, by omega⟩
    have hlen := h.length_le
    rw [List.length_cons] at hlen
    obtain ⟨q, hloop, _, hat, _⟩ := closes_loop h0 hclose h.next (n := 2 * s.length + 3) (by omega)
    rw [parse_container h0 h hopen]
    exact ⟨q, hloop, hat⟩

omit h0 in
theorem Document.heads (hd : Document r e) : ∃ r', Heads r e r' := by
  induction hd with
  | blank hc _ ih =>
    obtain ⟨r', h⟩ := ih
    exact ⟨r', .blank hc h⟩
  | text hb => exact ⟨_, .text hb⟩
  | scalar hs hr => exact ⟨_, .scalar hs hr⟩
  | container hopen hclose => exact ⟨_, .container hopen hclose⟩

theorem document_parse (hd : Document r e) (h : At s p r) (hfuel : r.length < fuel) :
    ∃ q, parseWithLookup s fuel p = .ok (e, q) := by
  obtain ⟨r', hheads⟩ := hd.heads
  obtain ⟨q, hparse, _⟩ := heads_parse h0 hheads h hfuel
  exact ⟨q, hparse⟩

/-- How a parse ends on the text ahead: with the document it starts with, with an error, or beyond the text. -/
theorem parse_settled (fuel : ℕ) : ∀ {p : ℕ} {r : Bytes}, At s p r → r.length < fuel →
    (∃ e q r', Heads r e r' ∧ parseWithLookup s fuel p = .ok (e, q) ∧ At s (q + 1) r') ∨
      (∃ e, parseWithLookup s fuel p = .error e) ∨ CutInString r ∧ parseWithLookup s fuel p = .outOfBounds := by
  induction fuel with
  | zero => exact fun _ hfuel => absurd hfuel (by omega)
  | succ fuel ih =>
    intro p r h hfuel
    cases r with
    | nil =>
      refine .inr (.inl ⟨.noData, ?_⟩)
      rw [parseWithLookup, h.peek_nil]
      rfl
    | cons c r =>
      rw [List.length_cons] at hfuel
      by_cases hws : isWhitespace c = true
      · rw [parse_blank h0 h hws]
        rcases ih h.next (by omega) with ⟨e, q, r', hd, hparse, hat⟩ | herr | ⟨hcut, hparse⟩
        · exact .inl ⟨e, q, r', .blank hws hd, hparse, hat⟩
        · exact .inr (.inl herr)
        · exact .inr (.inr ⟨.blank hws hcut, hparse⟩)
      have hws : isWhitespace c = false := by simpa using hws
      cases hopen : Frame.opened c with
      | some f =>
        have hlen := h.length_le
        rw [List.length_cons] at hlen
        rw [parse_container h0 h hopen]
        rcases loop_settled h0 (2 * s.length + 3) (f := f) h.next (by omega) with ⟨e, d, r', q, hclose, hloop, _, hat, _⟩ |
          herr | ⟨hc, hloop⟩
        · exact .inl ⟨e, q, r', .container hopen hclose, hloop, hat⟩
        · exact .inr (.inl herr)
        · exact .inr (.inr ⟨.container hopen hc, hloop⟩)
      | none =>
        rw [parse_primitive h0 h hws hopen]
        by_cases hq : c = '"'.toUInt8
        · subst hq
          rw [primitive_text h]
          rcases string_cases r.length r (Nat.le_refl _) with ⟨b, r', hb, rfl⟩ | hb | ⟨b, hb, rfl⟩
          · rw [parseAsString_closed h0 hb h]
            refine .inl ⟨_, _, r', .text hb, rfl, ?_⟩
            have hend := (At.skip h.next).next
            rwa [Nat.add_right_comm p 1] at hend
          · rw [parseAsString_open h0 hb h]
            exact .inr (.inl ⟨_, rfl⟩)
          · rw [parseAsString_cut h0 hb h]
            exact .inr (.inr ⟨.text hb, rfl⟩)
        · rw [primitive_scalar h hq]
          rcases parseScalar_cases h0 h with ⟨v, r', e, hsplit, hv, hr, hs⟩ | hs | ⟨e, hs⟩
          · rw [hs, hsplit]
            rw [hsplit] at h
            obtain ⟨x, t, rfl, _⟩ := scalar_head hv
            exact .inl ⟨_, _, r', .scalar hv hr, rfl, h.skip⟩
          · rw [hs]
            exact .inr (.inl ⟨_, rfl⟩)
          · rw [hs]
            exact .inr (.inl ⟨_, rfl⟩)

end Documents

theorem heads_jsonParse {s : Bytes} (h0 : 0 ∉ s) (hd : Heads s e r) :
    ∃ q, jsonParse s = .ok (e, q) ∧ At s (q + 1) r :=
  heads_parse h0 hd (At.start s) (by omega)

/-- What `JsonParse` succeeds on starts with a document, and the cursor is left on the last character of it. -/
theorem jsonParse_heads {s : CString} (h : jsonParse s.bytes = .ok (e, p)) :
    ∃ r, Heads s.bytes e r ∧ At s.bytes (p + 1) r := by
  have hsettled := parse_settled s.nul_free (s.bytes.length + 2) (At.start s.bytes) (by omega)
  change (∃ e q r', Heads s.bytes e r' ∧ jsonParse s.bytes = .ok (e, q) ∧ At s.bytes (q + 1) r') ∨
    (∃ e, jsonParse s.bytes = .error e) ∨ CutInString s.bytes ∧ jsonParse s.bytes = .outOfBounds at hsettled
  rw [h] at hsettled
  rcases hsettled with ⟨e', q, r, hd, heq, hat⟩ | ⟨_, heq⟩ | ⟨_, heq⟩
  · obtain ⟨rfl, rfl⟩ := Prod.mk.inj (Outcome.ok.inj heq)
    exact ⟨r, hd, hat⟩
  · cases heq
  · cases heq

end Libntech.Json
