import Libntech.Json.Copy
import Libntech.Json.Separators
import Libntech.Json.Words

/-! # How much of a text the JSON parser consumes

`JsonParse` leaves the cursor on the last character of the document and reads at most the character behind it, where
a number or a word has to end. So what follows a document changes neither the element nor the cursor, as long as it
does not go on with a number or a word, and as long as it does not make the text so long that `StringStartsWith` does
not find a word in it. `JsonParseAll` then looks at what follows: `isspace` decides there, which knows more characters
than the parser's own whitespace.
-/
namespace Libntech.Json
set_option autoImplicit false

open Libntech.Strings (Seen seen_of_lt)

/-! ## JsonParseAll -/

/-- `JSON_PARSE_OK` or `JSON_PARSE_ERROR_INVALID_END`, with `*json_out` and the cursor. -/
inductive ParseAllResult where
  | ok (jsonOut : Option JsonElement) (p : ℕ)
  | invalidEnd (jsonOut : Option JsonElement) (p : ℕ)

/-- The loop of `JsonParseAll`: whether only blanks follow. -/
def blankToEnd (s : Bytes) : ℕ → ℕ → Outcome Bool
  | 0, _ => .outOfFuel
  | fuel + 1, ch => do
    let c ← peek s ch
    if c = 0 then .ok true else if isSpace c then blankToEnd s fuel (ch + 1) else .ok false

def jsonParseAll (s : Bytes) : Outcome ParseAllResult := do
  let (e, p) ← jsonParse s
  let c ← peek s p
  if c = 0 then .ok (.ok (some e) p)
  else
    let blank ← blankToEnd s (s.length + 2) (p + 1)
    return if blank then .ok (some e) p else .invalidEnd none p

theorem blankToEnd_eq {s : Bytes} (h0 : 0 ∉ s) (t : Bytes) : ∀ {p fuel : ℕ}, At s p t → t.length < fuel →
    blankToEnd s fuel p = .ok (t.all isSpace) := by
  induction t with
  | nil =>
    intro p fuel h hfuel
    obtain ⟨fuel, rfl⟩ : ∃ k, fuel = k + 1 := ⟨fuel - 1, by omega⟩
    rw [blankToEnd, h.peek_nil]
    rfl
  | cons c t ih =>
    intro p fuel h hfuel
    rw [List.length_cons] at hfuel
    obtain ⟨fuel, rfl⟩ : ∃ k, fuel = k + 1 := ⟨fuel - 1, by omega⟩
    rw [blankToEnd, h.peek_cons, Outcome.ok_bind, if_neg (h.ne_zero h0), List.all_cons]
    cases hc : isSpace c with
    | false => rfl
    | true =>
      rw [if_pos rfl, Bool.true_and]
      exact ih h.next (by omega)

/-! ## What follows a document -/

/-- What may follow the text without going on with its last number or word. -/
def MayFollow (v t : Bytes) : Prop :=
  SepNext t ∨ ∃ c, v.getLast? = some c ∧ (c = '"'.toUInt8 ∨ c = ']'.toUInt8 ∨ c = '\x7d'.toUInt8)

variable {r r' w : Bytes} {e : JsonElement} {f : Frame} {n p : ℕ}

theorem item_ne_nil {g : Frame} (h : Item f r g r') : r ≠ [] := by
  cases h with
  | blank _ => exact List.cons_ne_nil _ _
  | punct _ => exact List.cons_ne_nil _ _
  | text _ _ => exact List.cons_ne_nil _ _
  | scalar hs _ _ _ => exact fun h => scalar_ne_nil hs (List.append_eq_nil_iff.mp h).1
  | key _ _ _ => simp
  | nested _ _ _ _ => exact List.cons_ne_nil _ _

theorem closes_ne_nil {d : UInt8} (h : Closes f r e d r') : r ≠ [] := by
  cases h with
  | here _ => exact List.cons_ne_nil _ _
  | item hi _ => exact item_ne_nil hi

theorem heads_ne_nil (h : Heads r e r') : r ≠ [] := by
  cases h with
  | blank _ _ => exact List.cons_ne_nil _ _
  | text _ => exact List.cons_ne_nil _ _
  | scalar hs _ => exact fun h => scalar_ne_nil hs (List.append_eq_nil_iff.mp h).1
  | container _ _ => exact List.cons_ne_nil _ _

/-- A word that is a value stands here, so many characters in front of the end. -/
def WordHere (w : Bytes) (n : ℕ) (f : Frame) (r : Bytes) : Prop :=
  w ∈ words ∧ (∀ d e, f.value d e ≠ none) ∧ ∃ r', r = w ++ r' ∧ SepNext r' ∧ n = r.length

/-- The text has the word as a value, so many characters in front of the end. -/
inductive HasWord (w : Bytes) (n : ℕ) : Bytes → Prop where
  | blank {c : UInt8} {r : Bytes} : isWhitespace c = true → HasWord w n r → HasWord w n (c :: r)
  | whole {r : Bytes} : w ∈ words → SepNext r → n = (w ++ r).length → HasWord w n (w ++ r)
  | container {c : UInt8} {f : Frame} {r : Bytes} : Frame.opened c = some f → Reaches (WordHere w n) f r →
      HasWord w n (c :: r)

theorem sepNext_append (h : SepNext r) (hne : r ≠ []) (t : Bytes) : SepNext (r ++ t) := by
  cases r with
  | nil => exact absurd rfl hne
  | cons c r => exact h

/-! ## More text behind -/

section Behind

variable (t : Bytes)

/-- With the text behind it, a word of this one is not found. -/
def Loses (f : Frame) (r : Bytes) : Prop :=
  (∃ w n, Reaches (WordHere w n) f r ∧ ¬ Seen w (n + t.length)) ∧ Reaches Unseen f (r ++ t)

variable {t}

theorem Loses.nested {f h : Frame} {c : UInt8} {r : Bytes} (hn : f.nests = true) (hopen : Frame.opened c = some h)
    (hloses : Loses t h r) : Loses t f (c :: r) := by
  obtain ⟨⟨w, n, hreaches, hseen⟩, hunseen⟩ := hloses
  exact ⟨⟨w, n, .nested hn hopen hreaches, hseen⟩, .nested hn hopen hunseen⟩

/-- What follows the closing bracket is not looked at, but for the length that it has. By induction over the derivation;
an item that is not the last thing in the text keeps its separator. -/
theorem append_or_loses :
    (∀ {f g : Frame} {r r' : Bytes}, Item f r g r' → r' ≠ [] → Item f (r ++ t) g (r' ++ t) ∨ Loses t f r) ∧
      ∀ {f : Frame} {r r' : Bytes} {e : JsonElement} {d : UInt8}, Closes f r e d r' →
        Closes f (r ++ t) e d (r' ++ t) ∨ Loses t f r := by
  let ItemGoes (f : Frame) (r : Bytes) (g : Frame) (r' : Bytes) (_ : Item f r g r') : Prop :=
    r' ≠ [] → Item f (r ++ t) g (r' ++ t) ∨ Loses t f r
  let ClosesGoes (f : Frame) (r : Bytes) (e : JsonElement) (d : UInt8) (r' : Bytes) (_ : Closes f r e d r') : Prop :=
    Closes f (r ++ t) e d (r' ++ t) ∨ Loses t f r
  have hblank : ∀ {f : Frame} {c : UInt8} {r : Bytes} (hc : isWhitespace c = true),
      ItemGoes f (c :: r) f r (.blank hc) := fun hc _ => .inl (.blank hc)
  have hpunct : ∀ {f g : Frame} {c : UInt8} {r : Bytes} (hg : f.punct c = some g),
      ItemGoes f (c :: r) g r (.punct hg) := fun hg _ => .inl (.punct hg)
  have htext : ∀ {f g : Frame} {b r : Bytes} (hb : StringBody b) (hg : f.text (unescape b) = some g),
      ItemGoes f ('"'.toUInt8 :: (b ++ '"'.toUInt8 :: r)) g r (.text hb hg) := by
    intro f g b r hb hg _
    rw [List.cons_append, List.append_assoc, List.cons_append]
    exact .inl (.text hb hg)
  have hscalar : ∀ {f g : Frame} {v r : Bytes} {e : JsonElement} {last : UInt8} (hs : Scalar v e)
      (hlast : v.getLast? = some last) (hr : Ends v r) (hg : f.value last e = some g),
      ItemGoes f (v ++ r) g r (.scalar hs hlast hr hg) := by
    intro f g v r e last hs hlast hr hg hne
    by_cases hseen : v ∈ words → Seen v (v.length + (r ++ t).length)
    · rw [List.append_assoc]
      exact .inl (.scalar hs hlast ⟨sepNext_append hr.sep hne t, hseen⟩ hg)
    · obtain ⟨hword, hseen⟩ := Classical.not_imp.mp hseen
      refine .inr ⟨⟨v, (v ++ r).length, .here ⟨hword, value_ne_none hg, r, rfl, hr.sep, rfl⟩, ?_⟩, .here ?_⟩
      · rw [List.length_append, Nat.add_assoc, ← List.length_append]
        exact hseen
      · rw [List.append_assoc]
        exact ⟨value_ne_none hg, v, r ++ t, hword, rfl, hseen⟩
  have hkey : ∀ {f g : Frame} {w ws r : Bytes} (hw : BareWord w) (hws : ∀ x ∈ ws, isWhitespace x = true)
      (hg : f.key w = some g), ItemGoes f (w ++ (ws ++ ':'.toUInt8 :: r)) g r (.key hw hws hg) := by
    intro f g w ws r hw hws hg _
    rw [List.append_assoc, List.append_assoc, List.cons_append]
    exact .inl (.key hw hws hg)
  have hnested : ∀ {f g h : Frame} {c d : UInt8} {r r' : Bytes} {e : JsonElement} (hn : f.nests = true)
      (hopen : Frame.opened c = some h) (hclose : Closes h r e d r') (hg : f.value d e = some g),
      ClosesGoes h r e d r' hclose → ItemGoes f (c :: r) g r' (.nested hn hopen hclose hg) := by
    intro f g h c d r r' e hn hopen _ hg ih _
    obtain hgoes | hloses := ih
    · exact .inl (.nested hn hopen hgoes hg)
    · exact .inr (hloses.nested hn hopen)
  have hhere : ∀ {f : Frame} {e : JsonElement} {r : Bytes} (he : f.element = some e),
      ClosesGoes f (f.closer :: r) e f.closer r (.here he) := fun he => .inl (.here he)
  have hitem : ∀ {f g : Frame} {r r' r'' : Bytes} {e : JsonElement} {d : UInt8} (hi : Item f r g r')
      (hc : Closes g r' e d r''), ItemGoes f r g r' hi → ClosesGoes g r' e d r'' hc →
      ClosesGoes f r e d r'' (.item hi hc) := by
    intro f g r r' r'' e d hi hc ihItem ihCloses
    obtain hgoes | hloses := ihItem (closes_ne_nil hc)
    · obtain hcloses | ⟨⟨w, n, hreaches, hseen⟩, hunseen⟩ := ihCloses
      · exact .inl (.item hgoes hcloses)
      · exact .inr ⟨⟨w, n, .item hi hreaches, hseen⟩, .item hgoes hunseen⟩
    · exact .inr hloses
  exact ⟨fun hi => @Item.rec ItemGoes ClosesGoes hblank hpunct htext hscalar hkey hnested hhere hitem _ _ _ _ hi,
    fun hc => @Closes.rec ItemGoes ClosesGoes hblank hpunct htext hscalar hkey hnested hhere hitem _ _ _ _ _ hc⟩

theorem wordHere_ne_nil (h : Reaches (WordHere w n) f r) : r ≠ [] := by
  cases h with
  | here h =>
    obtain ⟨hw, -, r', rfl, -, -⟩ := h
    obtain ⟨e, hs⟩ := word_scalar hw
    exact fun hnil => scalar_ne_nil hs (List.append_eq_nil_iff.mp hnil).1
  | nested _ _ _ => exact List.cons_ne_nil _ _
  | item hi _ => exact item_ne_nil hi

/-- On the way to a word that is not found, the parser finds all words or stops earlier. -/
theorem reaches_unseen (h : Reaches (WordHere w n) f r) (hseen : ¬ Seen w (n + t.length)) : Reaches Unseen f (r ++ t) := by
  induction h with
  | here h =>
    obtain ⟨hw, hvalue, r', rfl, -, rfl⟩ := h
    rw [List.length_append, Nat.add_assoc, ← List.length_append] at hseen
    rw [List.append_assoc]
    exact .here ⟨hvalue, w, r' ++ t, hw, rfl, hseen⟩
  | nested hn hopen _ ih => exact .nested hn hopen ih
  | item hi hrest ih =>
    obtain hgoes | hloses := append_or_loses.1 hi (wordHere_ne_nil hrest)
    · exact .item hgoes ih
    · exact hloses.2

theorem stopsAtWord (h : HasWord w n r) (hseen : ¬ Seen w (n + t.length)) : StopsAtWord (r ++ t) := by
  induction h with
  | blank hc _ ih => exact .blank hc ih
  | @whole r hw _ hn =>
    rw [hn, List.length_append, Nat.add_assoc, ← List.length_append] at hseen
    rw [List.append_assoc]
    exact .whole hw hseen
  | container hopen hreaches => exact .container hopen (reaches_unseen hreaches hseen)

theorem heads_append (h : Heads r e r') (hr : r' = []) (ht : MayFollow r t)
    (hseen : ∀ w n, HasWord w n r → Seen w (n + t.length)) : Heads (r ++ t) e t := by
  induction h with
  | @blank c r r' e hc hh ih =>
    refine .blank hc (ih hr (ht.imp id fun hlast => ?_) fun w n hword => hseen w n (.blank hc hword))
    obtain ⟨x, hx, hend⟩ := hlast
    rw [List.getLast?_cons_of_ne_nil (heads_ne_nil hh)] at hx
    exact ⟨x, hx, hend⟩
  | text hb =>
    subst hr
    rw [List.cons_append, List.append_assoc]
    exact .text hb
  | @scalar v r e hs hend =>
    subst hr
    have hsep : SepNext t := by
      refine ht.resolve_right ?_
      rintro ⟨x, hx, hend⟩
      rw [List.append_nil] at hx
      have hplain := scalar_isPlain hs x (List.mem_of_getLast? hx)
      rcases hend with rfl | rfl | rfl
      all_goals exact absurd hplain (by decide)
    rw [List.append_nil]
    refine .scalar hs ⟨hsep, fun hword => ?_⟩
    have hfound := hseen v (v ++ []).length (.whole hword trivial rfl)
    rw [List.append_nil] at hfound
    exact hfound
  | container hopen hclose =>
    subst hr
    obtain hgoes | ⟨⟨w, n, hreaches, hlost⟩, -⟩ := append_or_loses.2 hclose
    · exact .container hopen hgoes
    · exact absurd (hseen w n (.container hopen hreaches)) hlost

end Behind

theorem hasWord_length (h : HasWord w n r) : w.length ≤ n ∧ n ≤ r.length := by
  have hreaches : ∀ {f : Frame} {r : Bytes}, Reaches (WordHere w n) f r → w.length ≤ n ∧ n ≤ r.length := by
    intro f r hr
    induction hr with
    | here h =>
      obtain ⟨-, -, r', rfl, -, rfl⟩ := h
      simp
    | nested _ _ _ ih => exact ⟨ih.1, ih.2.trans (Nat.le_succ _)⟩
    | item hi _ ih =>
      obtain ⟨x, hx, -⟩ := item_carries hi
      rw [hx, List.length_append]
      exact ⟨ih.1, ih.2.trans (Nat.le_add_left _ _)⟩
  induction h with
  | blank _ _ ih => exact ⟨ih.1, ih.2.trans (Nat.le_succ _)⟩
  | whole _ _ hn =>
    rw [hn]
    simp
  | container _ h => exact ⟨(hreaches h).1, (hreaches h).2.trans (Nat.le_succ _)⟩

theorem at_unique {s : Bytes} {q : ℕ} (hp : At s p r) (hq : At s q r) : p = q := by
  obtain ⟨u, rfl, rfl⟩ := hp
  obtain ⟨w, heq, rfl⟩ := hq
  rw [List.append_cancel_right heq]

/-- The parse of a text with more behind it, when the text is one document to its last character. -/
theorem parse_append_iff {v t : CString} (h : jsonParse v.bytes = .ok (e, p)) (hlast : p + 1 = v.bytes.length)
    (ht : MayFollow v.bytes t.bytes) :
    jsonParse (v.bytes ++ t.bytes) = .ok (e, p) ↔ ∀ w n, HasWord w n v.bytes → Seen w (n + t.bytes.length) := by
  have h0 : 0 ∉ v.bytes ++ t.bytes := by
    rw [List.mem_append, not_or]
    exact ⟨v.nul_free, t.nul_free⟩
  constructor
  · intro hparse w n hword
    by_contra hseen
    have hstops := unseen_parse h0 (stopsAtWord hword hseen) (At.start _) (Nat.lt_add_of_pos_right Nat.two_pos)
    rw [jsonParse, hstops] at hparse
    cases hparse
  · intro hseen
    obtain ⟨r, hheads, hat⟩ := jsonParse_heads h
    obtain rfl : r = [] := by
      obtain ⟨u, hu, hlen⟩ := hat
      have hwhole := congrArg List.length hu
      rw [List.length_append] at hwhole
      exact List.eq_nil_of_length_eq_zero (by omega)
    obtain ⟨q, hparse, hrest⟩ := heads_jsonParse h0 (heads_append hheads rfl ht hseen)
    have hend : At (v.bytes ++ t.bytes) (p + 1) t.bytes := ⟨v.bytes, rfl, hlast⟩
    obtain rfl : q = p := Nat.succ_injective (at_unique hrest hend)
    exact hparse

theorem parseAll_of_parse {v t : CString} (hlast : p + 1 = v.bytes.length)
    (hparse : jsonParse (v.bytes ++ t.bytes) = .ok (e, p)) :
    jsonParseAll (v.bytes ++ t.bytes) = .ok (if t.bytes.all isSpace then .ok (some e) p else .invalidEnd none p) := by
  have h0 : 0 ∉ v.bytes ++ t.bytes := by
    rw [List.mem_append, not_or]
    exact ⟨v.nul_free, t.nul_free⟩
  have hend : At (v.bytes ++ t.bytes) (p + 1) t.bytes := ⟨v.bytes, rfl, hlast⟩
  have hne : v.bytes ≠ [] := List.ne_nil_of_length_pos (by omega)
  have hpeek := At.peek_last (At.start (v.bytes ++ t.bytes)) hne
  have hpos : 0 + v.bytes.length - 1 = p := by omega
  rw [hpos] at hpeek
  have hnul : v.bytes.getLast hne ≠ 0 := fun heq => v.nul_free (heq ▸ List.getLast_mem hne)
  have hlen := hend.length_le
  simp only [jsonParseAll, hparse, Outcome.ok_bind, hpeek, hnul, if_false,
    blankToEnd_eq h0 t.bytes hend (show t.bytes.length < (v.bytes ++ t.bytes).length + 2 by omega), Outcome.pure_eq]

/-- A text that is one document to its last character. What follows it changes nothing about the parse, and
`JsonParseAll` accepts it exactly if it is blank: all this if and only if no word is lost, which needs 2^31 characters. -/
theorem consumption_local_iff (v t : CString) (e : JsonElement) (p : ℕ) (h : jsonParse v.bytes = .ok (e, p))
    (hlast : p + 1 = v.bytes.length) (ht : MayFollow v.bytes t.bytes) :
    (jsonParse (v.bytes ++ t.bytes) = .ok (e, p) ∧
      jsonParseAll (v.bytes ++ t.bytes) =
        .ok (if t.bytes.all isSpace then .ok (some e) p else .invalidEnd none p) ↔
      ∀ w n, HasWord w n v.bytes → Seen w (n + t.bytes.length)) ∧
    (v.bytes.length + t.bytes.length < 2 ^ 31 → ∀ w n, HasWord w n v.bytes → Seen w (n + t.bytes.length)) := by
  refine ⟨⟨fun hboth => (parse_append_iff h hlast ht).mp hboth.1, fun hseen => ?_⟩, fun hshort w n hword => ?_⟩
  · have hparse := (parse_append_iff h hlast ht).mpr hseen
    exact ⟨hparse, parseAll_of_parse hlast hparse⟩
  · obtain ⟨hlow, hhigh⟩ := hasWord_length hword
    exact seen_of_lt (by omega) (by omega)

/-- An array with a character behind it that is no separator. -/
theorem consumption_local_iff_array :
    jsonParse (ascii "[1]x") = .ok (.array [.primitive .integer (ascii "1")], 2) ∧
      jsonParseAll (ascii "[1]x") = .ok (.invalidEnd none 2) := by
  have hlocal := consumption_local_iff ⟨ascii "[1]", by decide⟩ ⟨ascii "x", by decide⟩ _ 2 rfl rfl
    (.inr ⟨']'.toUInt8, by decide, by decide⟩)
  exact hlocal.1.mpr (hlocal.2 (by decide))

/-- `true` is parsed, but not with 2^31 blanks behind it. -/
theorem blanks_hide_word : jsonParse jsonTrue = .ok (jsonBoolCreate true, 3) ∧
    jsonParse (jsonTrue ++ List.replicate (2 ^ 31) ' '.toUInt8) = .error .objectBadSymbol := by
  have h0 : 0 ∉ jsonTrue ++ List.replicate (2 ^ 31) ' '.toUInt8 := by
    rw [List.mem_append, not_or]
    exact ⟨by decide, fun hmem => absurd (List.eq_of_mem_replicate hmem) (by decide)⟩
  have hseen : ¬ Seen jsonTrue (jsonTrue.length + (List.replicate (2 ^ 31) ' '.toUInt8).length) := by
    rw [List.length_replicate]
    decide
  refine ⟨rfl, ?_⟩
  exact unseen_parse h0 (.whole (by simp [words]) hseen) (At.start _) (Nat.lt_add_of_pos_right Nat.two_pos)

end Libntech.Json
