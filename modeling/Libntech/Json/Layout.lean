import Libntech.Json.Words
import Libntech.Json.WriteMeaning

/-! # Written text in the grammar of the parser

The written text of an element is one item of the parser's grammar, whatever blanks the writer puts between the
tokens, and adds `readback` of the element to the frame. A real that was cut right after its point, or a word that is
too far in front of the end, stops the parser.
-/
namespace Libntech.Json
set_option autoImplicit false

open Libntech.Csv (intMax)
open Libntech.Strings (Seen)

/-! ## Blanks and separators -/

structure Blanks.Clean (w : Blanks) : Prop where
  indent : ∀ level, ∀ c ∈ w.indent level, isWhitespace c = true
  newline : ∀ c ∈ w.newline, isWhitespace c = true
  space : ∀ c ∈ w.space, isWhitespace c = true

theorem printIndent_blank (num : ℕ) : ∀ c ∈ printIndent num, isWhitespace c = true := by
  intro c hc
  rw [printIndent] at hc
  rw [List.eq_of_mem_replicate hc]
  decide

theorem prettyBlanks_clean : prettyBlanks.Clean where
  indent := printIndent_blank
  newline := List.all_eq_true.mp (by decide)
  space := List.all_eq_true.mp (by decide)

theorem compactBlanks_clean : compactBlanks.Clean where
  indent := fun _ _ hc => absurd hc (by simp [compactBlanks])
  newline := fun _ hc => absurd hc (by simp [compactBlanks])
  space := fun _ hc => absurd hc (by simp [compactBlanks])

/-- A property of what is ahead that an item in front does not change: the frame is closed, or an error is met. -/
structure Inherited (Goal : Frame → Bytes → Prop) : Prop where
  item : ∀ {f g : Frame} {r r' : Bytes}, Item f r g r' → Goal g r' → Goal f r

theorem closes_inherited (e : JsonElement) (d : UInt8) (r : Bytes) : Inherited fun f t => Closes f t e d r :=
  ⟨fun hi hc => .item hi hc⟩

theorem reaches_inherited (P : Frame → Bytes → Prop) : Inherited (Reaches P) := ⟨fun hi hr => .item hi hr⟩

variable {behind level p : ℕ} {e : JsonElement} {b s t v word : Bytes} {n : NumberState} {f : Frame} {w : Blanks}
  {c : UInt8}

theorem Inherited.blanks {Goal : Frame → Bytes → Prop} (h : Inherited Goal) (hb : ∀ c ∈ b, isWhitespace c = true)
    {r : Bytes} (hr : Goal f r) : Goal f (b ++ r) := by
  induction b with
  | nil => exact hr
  | cons c b ih => exact h.item (.blank (hb c List.mem_cons_self)) (ih fun x hx => hb x (List.mem_cons_of_mem _ hx))

theorem sepNext_blanks {r : Bytes} (hb : ∀ c ∈ b, isWhitespace c = true) (hr : SepNext r) : SepNext (b ++ r) := by
  cases b with
  | nil => exact hr
  | cons c b =>
    show isSeparator c = true
    simp [isSeparator, hb c List.mem_cons_self]

/-! ## One value -/

/-- The last character of a value: none that the parser would take for the start of something. -/
def endsValue (c : UInt8) : Bool :=
  c != ','.toUInt8 && c != '['.toUInt8 && c != ':'.toUInt8 && c != '\x7b'.toUInt8

theorem endsValue_of_numeral (h : isNumeral c = true) : endsValue c = true := by
  have hne : ∀ d, isNumeral d = false → c ≠ d := by
    rintro d hd rfl
    exact absurd h (by simp [hd])
  simp only [endsValue, Bool.and_eq_true, bne_iff_ne]
  exact ⟨⟨⟨hne _ (by decide), hne _ (by decide)⟩, hne _ (by decide)⟩, hne _ (by decide)⟩

/-- With so many characters behind it, the text `t` is one item, which adds `e`. -/
def Adds (t : Bytes) (e : JsonElement) (behind : ℕ) : Prop :=
  ∀ (f : Frame) (r : Bytes), f.nests = true → SepNext r → r.length = behind →
    ∃ last g, endsValue last = true ∧ f.value last e = some g ∧ Item f (t ++ r) g r

theorem text_of_nests (hn : f.nests = true) (t : Bytes) :
    f.text t = f.value '"'.toUInt8 (.primitive .string (decodeString t)) := by
  obtain ⟨prev, children⟩ | ⟨prev, name, children⟩ := f
  · rfl
  · cases name with
    | none => exact absurd hn (by simp [Frame.nests])
    | some key => rfl

theorem adds_string (v : Bytes) (behind : ℕ) :
    Adds (jsonPrimitiveWrite .string v) (.primitive .string (decodeString (unescape (jsonEncodeString v)))) behind := by
  intro f r hn hr _
  obtain ⟨g, hg⟩ := value_of_nests hn '"'.toUInt8 (.primitive .string (decodeString (unescape (jsonEncodeString v))))
  refine ⟨'"'.toUInt8, g, by decide, hg, ?_⟩
  have hitem : Item f ('"'.toUInt8 :: (jsonEncodeString v ++ '"'.toUInt8 :: r)) g r :=
    .text (encode_body v) (by rw [text_of_nests hn, hg])
  simpa [jsonPrimitiveWrite] using hitem

theorem adds_scalar (h : Scalar v e) (hlast : v.getLast? = some c) (hend : endsValue c = true)
    (hseen : v ∈ words → Seen v (v.length + behind)) :
    Adds v e behind := by
  rintro f r hn hr rfl
  obtain ⟨g, hg⟩ := value_of_nests hn c e
  exact ⟨c, g, hend, hg, .scalar h hlast ⟨hr, hseen⟩ hg⟩

theorem scalar_number (hrun : numberRun numberStart v = .ok n) (hend : endsInDigit n = true) :
    Scalar v (.primitive (if '.'.toUInt8 ∈ v then .real else .integer) v) := by
  have htype : (if '.'.toUInt8 ∈ v then JsonPrimitiveType.real else .integer) =
      if n.seenDot = true then .real else .integer := by
    have hiff : n.seenDot = true ↔ '.'.toUInt8 ∈ v := by simpa [numberStart] using (numberRun_last hrun).2.1
    by_cases hd : '.'.toUInt8 ∈ v
    · rw [if_pos hd, if_pos (hiff.mpr hd)]
    · rw [if_neg hd, if_neg fun h => hd (hiff.mp h)]
  rw [htype]
  exact .number hrun hend

theorem adds_number (hrun : numberRun numberStart v = .ok n) (hend : endsInDigit n = true) (behind : ℕ) :
    Adds v (.primitive (if '.'.toUInt8 ∈ v then .real else .integer) v) behind := by
  have hlast : v.getLast? = some n.prev := by
    rw [(numberRun_last hrun).1, List.getLast?_eq_some_getLast (number_ne_nil hrun hend)]
    rfl
  exact adds_scalar (scalar_number hrun hend) hlast (endsValue_of_numeral hend) fun hword =>
    absurd hrun (number_ne_word hend hword)

theorem primitiveWrite_short {type : JsonPrimitiveType} (htype : type ≠ .string) (hlen : v.length ≤ intMax) :
    jsonPrimitiveWrite type v = v := by
  rw [jsonPrimitiveWrite, if_neg htype, List.take_of_length_le hlen]

/-- The element is written as one of the words. -/
structure IsWord (e : JsonElement) (word : Bytes) : Prop where
  mem : word ∈ words
  scalar : Scalar word e
  text : ∀ w level, valueText w level e = word
  readable_iff : ∀ w level behind, readable w level e behind = true ↔ Seen word (word.length + behind)
  readback_eq : readback e = e

theorem words_short (h : word ∈ words) : word.length ≤ intMax :=
  Nat.le_of_lt_succ (word_short h)

theorem boolWord (b : Bool) : IsWord (jsonBoolCreate b) (if b then jsonTrue else jsonFalse) := by
  have hmem : (if b then jsonTrue else jsonFalse) ∈ words := by cases b <;> simp [words]
  refine ⟨hmem, ?_, fun w level => ?_, fun w level behind => ?_, rfl⟩
  · cases b with
    | true => exact .true
    | false => exact .false
  · rw [jsonBoolCreate, valueText, primitiveWrite_short (by decide) (words_short hmem)]
  · rw [jsonBoolCreate, readable, primitiveReadable, decide_eq_true_iff]

theorem nullWord : IsWord jsonNullCreate jsonNull := by
  have hmem : jsonNull ∈ words := by simp [words]
  refine ⟨hmem, .null, fun w level => ?_, fun w level behind => ?_, rfl⟩
  · rw [jsonNullCreate, valueText, primitiveWrite_short (by decide) (words_short hmem)]
  · rw [jsonNullCreate, readable, primitiveReadable, decide_eq_true_iff]

theorem IsWord.adds (h : IsWord e word) (hread : readable w level e behind = true) :
    Adds (valueText w level e) (readback e) behind := by
  have hlast : ∃ c, word.getLast? = some c ∧ endsValue c = true := by
    have hmem := h.mem
    simp only [words, List.mem_cons, List.not_mem_nil, or_false] at hmem
    rcases hmem with rfl | rfl | rfl
    · exact ⟨'e'.toUInt8, by decide, by decide⟩
    · exact ⟨'e'.toUInt8, by decide, by decide⟩
    · exact ⟨'l'.toUInt8, by decide, by decide⟩
  obtain ⟨c, hlast, hend⟩ := hlast
  rw [h.text, h.readback_eq]
  exact adds_scalar h.scalar hlast hend fun _ => (h.readable_iff w level behind).mp hread

theorem opened_array : Frame.opened '['.toUInt8 = some (.array '['.toUInt8 []) := by
  rw [Frame.opened, if_pos rfl]

theorem opened_object : Frame.opened '\x7b'.toUInt8 = some (.object '\x7b'.toUInt8 ⟨none, []⟩) := by
  rw [Frame.opened, if_neg (by decide), if_pos rfl]

theorem adds_container {d : UInt8} {h : Frame} (hopen : Frame.opened c = some h) (hd : endsValue d = true)
    (hclose : ∀ r, r.length = behind → Closes h (t ++ r) e d r) :
    Adds (c :: t) e behind := by
  intro f r hn _ hbehind
  obtain ⟨g, hg⟩ := value_of_nests hn d e
  exact ⟨d, g, hd, hg, .nested hn hopen (hclose r hbehind) hg⟩

theorem prev_point_iff (hrun : numberRun numberStart v = .ok n) :
    n.prev = '.'.toUInt8 ↔ v.getLast? = some '.'.toUInt8 := by
  rw [(numberRun_last hrun).1]
  cases v.getLast? with
  | none => exact ⟨fun h => absurd h (by decide), fun h => absurd h (by simp)⟩
  | some c => simp

theorem endsInDigit_of_readable (hrun : numberRun numberStart v = .ok n)
    (hend : endsInDigit n = true ∨ n.prev = '.'.toUInt8) (hp : readable w level (.primitive .real v) behind = true) :
    endsInDigit n = true := by
  refine hend.resolve_right fun hpoint => ?_
  rw [readable, primitiveReadable, (prev_point_iff hrun).mp hpoint] at hp
  exact absurd hp (by decide)

/-- A number that the parser refuses because of its end. -/
def CutNumber (f : Frame) (r : Bytes) : Prop :=
  ∃ v n r', f.nests = true ∧ numberRun numberStart v = .ok n ∧ n.prev = '.'.toUInt8 ∧ SepNext r' ∧ r = v ++ r'

theorem cutNumber_head (hrun : numberRun numberStart v = .ok n) (hp : n.prev = '.'.toUInt8) :
    ∃ c t, v = c :: t ∧ isKeyChar c = true ∧ (c = '-'.toUInt8 ∨ c = '0'.toUInt8 ∨ isDigit c = true) := by
  have hne : v ≠ [] := by
    rintro rfl
    exact absurd ((prev_point_iff hrun).mp hp) (by simp)
  obtain ⟨c, t, rfl, hc⟩ := number_head hrun hne
  refine ⟨c, t, rfl, ?_, hc⟩
  rcases hc with rfl | rfl | hc
  · decide
  · decide
  · exact isKeyChar_of_isDigit hc

theorem parseAsNumber_cut {r : Bytes} (h0 : 0 ∉ s) (h : At s p (v ++ r)) (hrun : numberRun numberStart v = .ok n)
    (hp : n.prev = '.'.toUInt8) (hr : SepNext r) :
    parseAsNumber s p = .error .numberDigitEnd := by
  rw [parseAsNumber_eq h0 h (numberRun_no_separator hrun) hr, hrun]
  dsimp only
  rw [if_neg (by rw [endsInDigit, hp]; decide)]

theorem cutNumber_loop (h0 : 0 ∉ s) {r : Bytes} (fuel : ℕ) (hc : CutNumber f r) (h : At s p r) :
    f.loop s (fuel + 1) p = .error .numberDigitEnd := by
  obtain ⟨v, n, r', hn, hrun, hp, hsep, rfl⟩ := hc
  obtain ⟨c, t, rfl, hkey, hhead⟩ := cutNumber_head hrun hp
  obtain ⟨hplain, hws, hclose⟩ := plain_of_keyChar f hkey
  obtain ⟨g, hg⟩ := value_of_nests hn 0 jsonNullCreate
  rw [loop_item (r := t ++ r') f h0 h hws hclose, item_plain_value hplain (value_ne_none hg), parseScalar,
    if_pos hhead, parseAsNumber_cut h0 h hrun hp hsep]
  rfl

/-! ## The children of a container -/

theorem length_behind (newline tail : Bytes) :
    ([','.toUInt8] ++ (newline ++ tail)).length = 1 + newline.length + tail.length := by
  rw [List.length_append, List.length_append, List.length_singleton, Nat.add_assoc]

section Children

variable {w : Blanks} (hw : w.Clean) {Goal : Frame → Bytes → Prop} (hgoal : Inherited Goal)
include hw hgoal

variable {tail : Bytes}

theorem element_goal {prev : UInt8} {done : List JsonElement} (hadd : Adds t e (1 + w.newline.length + tail.length))
    (hprev : prev = '['.toUInt8 ∨ prev = ','.toUInt8) (hcont : Goal (.array ','.toUInt8 (done ++ [e])) tail) :
    Goal (.array prev done) (t ++ ([','.toUInt8] ++ (w.newline ++ tail))) := by
  have hnests : (Frame.array prev done).nests = true := by
    rcases hprev with rfl | rfl <;> simp [Frame.nests]
  have hcomma : SepNext ([','.toUInt8] ++ (w.newline ++ tail)) := by
    show isSeparator ','.toUInt8 = true
    decide
  obtain ⟨last, g, hend, hg, hitem⟩ := hadd _ _ hnests hcomma (length_behind _ _)
  obtain rfl := Option.some.inj hg
  simp only [endsValue, Bool.and_eq_true, bne_iff_ne] at hend
  refine hgoal.item hitem (hgoal.item (.punct ?_) (hgoal.blanks hw.newline hcont))
  simp [Frame.punct, hend]

theorem elements_goal (es : List JsonElement) : ∀ {prev : UInt8} {done : List JsonElement} {tail : Bytes},
    (∀ e ∈ es, ∀ {n}, readable w (level + 1) e n = true → Adds (valueText w (level + 1) e) (readback e) n) →
    elementsReadable w level es tail.length = true → es ≠ [] →
    (prev = '['.toUInt8 ∨ prev = ','.toUInt8) → SepNext (w.newline ++ tail) →
    (∀ last, Goal (.array last (done ++ readbackElements es)) tail) →
    Goal (.array prev done) (elementsText w level es ++ tail) := by
  induction es with
  | nil => exact fun _ _ hne => absurd rfl hne
  | cons e rest ih =>
    intro prev done tail hadd hread _ hprev hsep hcont
    rw [elementsReadable, Bool.and_eq_true] at hread
    rw [elementsText]
    simp only [List.append_assoc]
    refine hgoal.blanks (hw.indent _) ?_
    cases rest with
    | nil =>
      have hnests : (Frame.array prev done).nests = true := by
        rcases hprev with rfl | rfl <;> simp [Frame.nests]
      obtain ⟨last, g, hend, hg, hitem⟩ := hadd e List.mem_cons_self hread.1 _ (w.newline ++ tail) hnests hsep
        (by simp [elementsLength])
      obtain rfl := Option.some.inj hg
      exact hgoal.item hitem (hgoal.blanks hw.newline (hcont last))
    | cons e' rest =>
      have hhead := hadd e List.mem_cons_self hread.1
      rw [Nat.add_assoc, ← elementsText_length, ← List.length_append] at hhead
      refine element_goal hw hgoal hhead hprev ?_
      refine ih (fun x hx => hadd x (List.mem_cons_of_mem _ hx)) hread.2 (by simp) (.inr rfl) hsep fun last => ?_
      have hlist : done ++ [readback e] ++ readbackElements (e' :: rest) = done ++ readbackElements (e :: e' :: rest) := by
        simp [readbackElements]
      rw [hlist]
      exact hcont last

theorem key_goal {prev : UInt8} {done : List (Bytes × JsonElement)} (key : Bytes)
    (hprev : prev = '\x7b'.toUInt8 ∨ prev = ','.toUInt8)
    (hcont : Goal (.object ':'.toUInt8 ⟨some (unescape (jsonEncodeString key)), done⟩) tail) :
    Goal (.object prev ⟨none, done⟩)
      ('"'.toUInt8 :: (jsonEncodeString key ++ ['"'.toUInt8, ':'.toUInt8]) ++ (w.space ++ tail)) := by
  have htext : (Frame.object prev ⟨none, done⟩).text (unescape (jsonEncodeString key)) =
      some (.object '"'.toUInt8 ⟨some (unescape (jsonEncodeString key)), done⟩) := by
    rw [Frame.text, if_pos hprev]
  have hkey : Item (.object prev ⟨none, done⟩)
      ('"'.toUInt8 :: (jsonEncodeString key ++ '"'.toUInt8 :: (':'.toUInt8 :: (w.space ++ tail))))
      (.object '"'.toUInt8 ⟨some (unescape (jsonEncodeString key)), done⟩) (':'.toUInt8 :: (w.space ++ tail)) :=
    .text (encode_body key) htext
  have hcolon : (Frame.object '"'.toUInt8 ⟨some (unescape (jsonEncodeString key)), done⟩).punct ':'.toUInt8 =
      some (.object ':'.toUInt8 ⟨some (unescape (jsonEncodeString key)), done⟩) := by
    rw [Frame.punct, if_pos ⟨by decide, by decide, .inl ⟨rfl, by simp⟩⟩]
  have hgoal' := hgoal.item hkey (hgoal.item (.punct hcolon) (hgoal.blanks hw.space hcont))
  simpa using hgoal'

theorem member_goal {key : Bytes} {done : List (Bytes × JsonElement)}
    (hadd : Adds t e (1 + w.newline.length + tail.length))
    (hcont : Goal (.object ','.toUInt8 ⟨none, appendElement done key e⟩) tail) :
    Goal (.object ':'.toUInt8 ⟨some key, done⟩) (t ++ ([','.toUInt8] ++ (w.newline ++ tail))) := by
  have hcomma : SepNext ([','.toUInt8] ++ (w.newline ++ tail)) := by
    show isSeparator ','.toUInt8 = true
    decide
  obtain ⟨last, g, hend, hg, hitem⟩ := hadd (.object ':'.toUInt8 ⟨some key, done⟩) _ rfl hcomma (length_behind _ _)
  obtain rfl := Option.some.inj hg
  simp only [endsValue, Bool.and_eq_true, bne_iff_ne] at hend
  refine hgoal.item hitem (hgoal.item (.punct ?_) (hgoal.blanks hw.newline hcont))
  simp [Frame.punct, hend]

theorem members_goal (ms : List (Bytes × JsonElement)) : ∀ {prev : UInt8}
    {done : List (Bytes × JsonElement)} {tail : Bytes},
    (∀ m ∈ ms, ∀ {n}, readable w (level + 1) m.2 n = true → Adds (valueText w (level + 1) m.2) (readback m.2) n) →
    membersReadable w level ms tail.length = true →
    (prev = '\x7b'.toUInt8 ∨ prev = ','.toUInt8) → SepNext (w.newline ++ tail) →
    (∀ last, Goal (.object last ⟨none, readbackMembers done ms⟩) tail) →
    Goal (.object prev ⟨none, done⟩) (membersText w level ms ++ tail) := by
  induction ms with
  | nil => exact fun {prev done tail} _ _ _ _ hcont => hcont prev
  | cons m rest ih =>
    obtain ⟨key, e⟩ := m
    intro prev done tail hadd hread hprev hsep hcont
    rw [membersReadable, Bool.and_eq_true] at hread
    rw [membersText]
    simp only [List.append_assoc]
    refine hgoal.blanks (hw.indent _) (key_goal hw hgoal key hprev ?_)
    cases rest with
    | nil =>
      obtain ⟨last, g, hend, hg, hitem⟩ := hadd (key, e) List.mem_cons_self hread.1
        (.object ':'.toUInt8 ⟨some (unescape (jsonEncodeString key)), done⟩) (w.newline ++ tail) rfl hsep
        (by simp [membersLength])
      obtain rfl := Option.some.inj hg
      exact hgoal.item hitem (hgoal.blanks hw.newline (hcont last))
    | cons m' rest =>
      have hhead := hadd (key, e) List.mem_cons_self hread.1
      rw [Nat.add_assoc, ← membersText_length, ← List.length_append] at hhead
      refine member_goal hw hgoal hhead ?_
      exact ih (fun x hx => hadd x (List.mem_cons_of_mem _ hx)) hread.2 (.inr rfl) hsep hcont

end Children

/-! ## No NUL is written -/

theorem blank_ne_zero (hb : ∀ c ∈ b, isWhitespace c = true) : 0 ∉ b := fun h =>
  absurd (hb 0 h) (by decide)

theorem encode_nul_free {text : Bytes} (h : 0 ∉ text) : 0 ∉ jsonEncodeString text := by
  intro hmem
  obtain ⟨c, hc, hx⟩ := List.mem_flatMap.mp hmem
  have hc0 : c ≠ 0 := by
    rintro rfl
    exact h hc
  rcases encodeChar_cases c with ⟨_, e, heq, he⟩ | ⟨_, heq, _⟩ | ⟨_, heq⟩
  · rw [heq] at hx
    simp only [List.mem_cons, List.not_mem_nil, or_false] at hx
    rcases hx with hx | rfl
    · exact absurd hx (by decide)
    · exact absurd he (by simp [stringEscape, Char.toUInt8])
  · rw [heq, List.mem_singleton] at hx
    exact hc0 hx.symm
  · have hlt := c.toNat_lt
    have hdigit : ∀ n, n < 16 → (0 : UInt8) ≠ hexChar n := by
      rintro n hn hzero
      have hsome := (hexChar_digit hn).1
      rw [← hzero] at hsome
      exact absurd hsome (by simp [hexDigit, Char.toUInt8])
    rw [heq] at hx
    simp only [List.mem_cons, List.not_mem_nil, or_false] at hx
    rcases hx with hx | hx | hx | hx | hx | hx
    · exact absurd hx (by decide)
    · exact absurd hx (by decide)
    · exact absurd hx (by decide)
    · exact absurd hx (by decide)
    · exact hdigit _ (by omega) hx
    · exact hdigit _ (by omega) hx

theorem elementsText_nul_free (hw : w.Clean) (level : ℕ) (es : List JsonElement)
    (h : ∀ e ∈ es, 0 ∉ valueText w (level + 1) e) : 0 ∉ elementsText w level es := by
  induction es with
  | nil => simp [elementsText]
  | cons e rest ih =>
    have hindent := blank_ne_zero (hw.indent (level + 1))
    have hnewline := blank_ne_zero hw.newline
    have he := h e List.mem_cons_self
    have hrest := ih fun x hx => h x (List.mem_cons_of_mem _ hx)
    rw [elementsText]
    simp only [List.mem_append, not_or]
    refine ⟨⟨⟨⟨hindent, he⟩, ?_⟩, hnewline⟩, hrest⟩
    split
    · simp
    · decide

theorem membersText_nul_free (hw : w.Clean) (level : ℕ) (ms : List (Bytes × JsonElement)) (hkeys : ∀ m ∈ ms, 0 ∉ m.1)
    (h : ∀ m ∈ ms, 0 ∉ valueText w (level + 1) m.2) : 0 ∉ membersText w level ms := by
  induction ms with
  | nil => simp [membersText]
  | cons m rest ih =>
    obtain ⟨key, e⟩ := m
    have hindent := blank_ne_zero (hw.indent (level + 1))
    have hnewline := blank_ne_zero hw.newline
    have hspace := blank_ne_zero hw.space
    have hkey := encode_nul_free (hkeys (key, e) List.mem_cons_self)
    have he := h (key, e) List.mem_cons_self
    have hrest := ih (fun x hx => hkeys x (List.mem_cons_of_mem _ hx)) fun x hx => h x (List.mem_cons_of_mem _ hx)
    rw [membersText]
    simp only [List.mem_append, List.mem_cons, not_or, List.not_mem_nil, or_false]
    refine ⟨⟨⟨⟨⟨⟨hindent, by decide, hkey, by decide, by decide⟩, hspace⟩, he⟩, ?_⟩, hnewline⟩, hrest⟩
    split
    · simp
    · decide

theorem valueText_nul_free (hw : w.Clean) (h : Regular e) : ∀ {level : ℕ},
    0 ∉ valueText w level e := by
  induction h with
  | @string v h0 =>
    intro level
    have hkey := encode_nul_free h0
    rw [valueText, jsonPrimitiveWrite, if_pos rfl]
    simp only [List.mem_cons, List.mem_append, not_or, List.not_mem_nil, or_false]
    exact ⟨by decide, hkey, by decide⟩
  | integer hrun _ _ hlen =>
    intro level
    rw [valueText, primitiveWrite_short (by decide) hlen]
    exact (numberRun_last hrun).2.2
  | real hrun _ hlen =>
    intro level
    rw [valueText, primitiveWrite_short (by decide) hlen]
    exact (numberRun_last hrun).2.2
  | bool b =>
    intro level
    rw [(boolWord b).text]
    cases b <;> decide
  | null =>
    intro level
    rw [nullWord.text]
    decide
  | @array es _ ih =>
    intro level
    cases es with
    | nil => exact (by decide : 0 ∉ ascii "[]")
    | cons e rest =>
      have hindent := blank_ne_zero (hw.indent level)
      have hnewline := blank_ne_zero hw.newline
      have hes := elementsText_nul_free hw level (e :: rest) fun x hx => ih x hx
      have hopen : 0 ∉ ascii "[" := by decide
      rw [valueText]
      simp only [List.mem_append, List.mem_singleton, not_or]
      exact ⟨⟨⟨⟨hopen, hnewline⟩, hes⟩, hindent⟩, by decide⟩
  | @object ms _ hkeys _ ih =>
    intro level
    have hindent := blank_ne_zero (hw.indent level)
    have hnewline := blank_ne_zero hw.newline
    have hms := membersText_nul_free hw level ms hkeys fun x hx => ih x hx
    rw [valueText]
    simp only [List.mem_append, List.mem_singleton, not_or]
    exact ⟨⟨⟨⟨by decide, hnewline⟩, hms⟩, hindent⟩, by decide⟩

/-! ## Whole elements -/

section Elements

variable {w : Blanks} (hw : w.Clean)
include hw

theorem sepNext_line (level : ℕ) {r : Bytes} (hc : isSeparator c = true) :
    SepNext (w.newline ++ (w.indent level ++ c :: r)) :=
  sepNext_blanks hw.newline (sepNext_blanks (hw.indent level) hc)

omit hw in
theorem behind_closer (c : UInt8) (r : Bytes) :
    (w.indent level).length + 1 + r.length = (w.indent level ++ c :: r).length := by
  rw [List.length_append, List.length_cons]
  omega

theorem array_closes {es : List JsonElement}
    (h : ∀ e ∈ es, ∀ {n}, readable w (level + 1) e n = true → Adds (valueText w (level + 1) e) (readback e) n)
    (hread : readable w level (.array es) behind = true) :
    ∃ t, valueText w level (.array es) = '['.toUInt8 :: t ∧
      ∀ r, r.length = behind → Closes (.array '['.toUInt8 []) (t ++ r) (readback (.array es)) ']'.toUInt8 r := by
  cases es with
  | nil => exact ⟨[']'.toUInt8], by rw [valueText]; decide, fun r _ => Closes.here (f := .array '['.toUInt8 []) rfl⟩
  | cons e rest =>
    refine ⟨w.newline ++ (elementsText w level (e :: rest) ++ (w.indent level ++ [']'.toUInt8])), ?_, fun r hr => ?_⟩
    · simp [valueText, ascii, Char.toUInt8]
    · rw [readable, ← hr, behind_closer ']'.toUInt8] at hread
      have hend : ∀ last, Closes (.array last ([] ++ readbackElements (e :: rest)))
          (w.indent level ++ ']'.toUInt8 :: r) (readback (.array (e :: rest))) ']'.toUInt8 r := by
        intro last
        refine (closes_inherited _ _ _).blanks (hw.indent level) ?_
        rw [readback]
        exact Closes.here (f := .array last _) rfl
      have hclose := elements_goal hw (closes_inherited _ _ _) (e :: rest) h hread (by simp) (.inl rfl)
        (sepNext_line hw level (by decide)) hend
      simpa using (closes_inherited _ _ _).blanks hw.newline hclose

theorem object_closes {ms : List (Bytes × JsonElement)}
    (h : ∀ m ∈ ms, ∀ {n}, readable w (level + 1) m.2 n = true → Adds (valueText w (level + 1) m.2) (readback m.2) n)
    (hread : readable w level (.object ms) behind = true) :
    ∃ t, valueText w level (.object ms) = '\x7b'.toUInt8 :: t ∧
      ∀ r, r.length = behind → Closes (.object '\x7b'.toUInt8 ⟨none, []⟩) (t ++ r) (readback (.object ms)) '\x7d'.toUInt8 r := by
  refine ⟨w.newline ++ (membersText w level ms ++ (w.indent level ++ ['\x7d'.toUInt8])), ?_, fun r hr => ?_⟩
  · simp [valueText]
  · rw [readable, ← hr, behind_closer '\x7d'.toUInt8] at hread
    have hend : ∀ last, Closes (.object last ⟨none, readbackMembers [] ms⟩)
        (w.indent level ++ '\x7d'.toUInt8 :: r) (readback (.object ms)) '\x7d'.toUInt8 r := by
      intro last
      refine (closes_inherited _ _ _).blanks (hw.indent level) ?_
      rw [readback]
      exact Closes.here (f := .object last _) rfl
    have hclose := members_goal hw (closes_inherited _ _ _) ms h hread (.inl rfl)
      (sepNext_line hw level (by decide)) hend
    simpa using (closes_inherited _ _ _).blanks hw.newline hclose

theorem adds_value (h : Regular e) : ∀ {level behind : ℕ}, readable w level e behind = true →
    Adds (valueText w level e) (readback e) behind := by
  induction h with
  | @string v _ =>
    intro level behind _
    rw [valueText, readback]
    exact adds_string v behind
  | @integer v n hrun hend _ hlen =>
    intro level behind _
    rw [valueText, readback, primitiveWrite_short (by decide) hlen]
    exact adds_number hrun hend behind
  | @real v n hrun hend hlen =>
    intro level behind hread
    rw [valueText, readback, primitiveWrite_short (by decide) hlen]
    exact adds_number hrun (endsInDigit_of_readable hrun hend hread) behind
  | bool b => exact (boolWord b).adds
  | null => exact nullWord.adds
  | array _ ih =>
    intro level behind hread
    obtain ⟨t, ht, hclose⟩ := array_closes hw (fun e he _ hread => ih e he hread) hread
    rw [ht]
    exact adds_container opened_array (by decide) hclose
  | object _ _ _ ih =>
    intro level behind hread
    obtain ⟨t, ht, hclose⟩ := object_closes hw (fun m hm _ hread => ih m hm hread) hread
    rw [ht]
    exact adds_container opened_object (by decide) hclose

/-- The parser stops here, at a real that was cut or at a word that it does not find. -/
def Stuck (f : Frame) (r : Bytes) : Prop := CutNumber f r ∨ Unseen f r

/-- With so many characters behind it, the text leads the parser to where it stops. -/
def Sticks (t : Bytes) (behind : ℕ) : Prop :=
  ∀ (f : Frame) (r : Bytes), f.nests = true → SepNext r → r.length = behind → Reaches Stuck f (t ++ r)

omit hw in
theorem reaches_or {P Q : Frame → Bytes → Prop} {r : Bytes} (h : Reaches (fun f r => P f r ∨ Q f r) f r) :
    Reaches P f r ∨ Reaches Q f r := by
  induction h with
  | here h => exact h.imp .here .here
  | nested hn hopen _ ih => exact ih.imp (.nested hn hopen) (.nested hn hopen)
  | item hi _ ih => exact ih.imp (.item hi) (.item hi)

omit hw in
theorem IsWord.lost (h : IsWord e word) (hread : readable w level e behind = false) :
    ¬ Seen word (word.length + behind) := by
  rw [← h.readable_iff w level behind, hread]
  exact Bool.false_ne_true

omit hw in
theorem IsWord.sticks (h : IsWord e word) (hread : readable w level e behind = false) :
    Sticks (valueText w level e) behind := by
  rintro f r hn _ rfl
  obtain ⟨g, hg⟩ := value_of_nests hn 0 jsonNullCreate
  rw [h.text]
  exact .here (.inr ⟨value_ne_none hg, word, r, h.mem, rfl, h.lost hread⟩)

theorem elements_stuck (es : List JsonElement) : ∀ {prev : UInt8} {done : List JsonElement} {tail : Bytes},
    (∀ e ∈ es, ∀ {n}, readable w (level + 1) e n = true → Adds (valueText w (level + 1) e) (readback e) n) →
    (∀ e ∈ es, ∀ {n}, readable w (level + 1) e n = false → Sticks (valueText w (level + 1) e) n) →
    elementsReadable w level es tail.length = false →
    (prev = '['.toUInt8 ∨ prev = ','.toUInt8) → SepNext (w.newline ++ tail) →
    Reaches Stuck (.array prev done) (elementsText w level es ++ tail) := by
  induction es with
  | nil => exact fun _ _ hbad => absurd hbad (by simp [elementsReadable])
  | cons e rest ih =>
    intro prev done tail hadd hstick hbad hprev hsep
    have hnests : (Frame.array prev done).nests = true := by
      rcases hprev with rfl | rfl <;> simp [Frame.nests]
    rw [elementsReadable] at hbad
    rw [elementsText]
    simp only [List.append_assoc]
    refine (reaches_inherited _).blanks (hw.indent _) ?_
    cases hread : readable w (level + 1) e
        ((if rest.isEmpty then 0 else 1) + w.newline.length + elementsLength w level rest + tail.length) with
    | false =>
      refine hstick e List.mem_cons_self hread _ _ hnests ?_ ?_
      · cases rest with
        | nil => exact hsep
        | cons e' rest => exact (by decide : isSeparator ','.toUInt8 = true)
      · simp only [List.length_append, elementsText_length, ← Nat.add_assoc]
        split <;> rfl
    | true =>
      rw [hread, Bool.true_and] at hbad
      cases rest with
      | nil => exact absurd hbad (by simp [elementsReadable])
      | cons e' rest =>
        have hhead := hadd e List.mem_cons_self hread
        rw [Nat.add_assoc, ← elementsText_length, ← List.length_append] at hhead
        refine element_goal hw (reaches_inherited _) hhead hprev ?_
        exact ih (fun y hy => hadd y (List.mem_cons_of_mem _ hy)) (fun y hy => hstick y (List.mem_cons_of_mem _ hy))
          hbad (.inr rfl) hsep

theorem members_stuck (ms : List (Bytes × JsonElement)) : ∀ {prev : UInt8}
    {done : List (Bytes × JsonElement)} {tail : Bytes},
    (∀ m ∈ ms, ∀ {n}, readable w (level + 1) m.2 n = true → Adds (valueText w (level + 1) m.2) (readback m.2) n) →
    (∀ m ∈ ms, ∀ {n}, readable w (level + 1) m.2 n = false → Sticks (valueText w (level + 1) m.2) n) →
    membersReadable w level ms tail.length = false →
    (prev = '\x7b'.toUInt8 ∨ prev = ','.toUInt8) → SepNext (w.newline ++ tail) →
    Reaches Stuck (.object prev ⟨none, done⟩) (membersText w level ms ++ tail) := by
  induction ms with
  | nil => exact fun _ _ hbad => absurd hbad (by simp [membersReadable])
  | cons m rest ih =>
    obtain ⟨key, e⟩ := m
    intro prev done tail hadd hstick hbad hprev hsep
    rw [membersReadable] at hbad
    rw [membersText]
    simp only [List.append_assoc]
    refine (reaches_inherited _).blanks (hw.indent _) (key_goal hw (reaches_inherited _) key hprev ?_)
    cases hread : readable w (level + 1) e
        ((if rest.isEmpty then 0 else 1) + w.newline.length + membersLength w level rest + tail.length) with
    | false =>
      refine hstick (key, e) List.mem_cons_self hread _ _ rfl ?_ ?_
      · cases rest with
        | nil => exact hsep
        | cons m' rest => exact (by decide : isSeparator ','.toUInt8 = true)
      · simp only [List.length_append, membersText_length, ← Nat.add_assoc]
        split <;> rfl
    | true =>
      rw [hread, Bool.true_and] at hbad
      cases rest with
      | nil => exact absurd hbad (by simp [membersReadable])
      | cons m' rest =>
        have hhead := hadd (key, e) List.mem_cons_self hread
        rw [Nat.add_assoc, ← membersText_length, ← List.length_append] at hhead
        refine member_goal hw (reaches_inherited _) hhead ?_
        exact ih (fun y hy => hadd y (List.mem_cons_of_mem _ hy)) (fun y hy => hstick y (List.mem_cons_of_mem _ hy))
          hbad (.inr rfl) hsep

theorem array_stuck {es : List JsonElement} (hreg : ∀ e ∈ es, Regular e)
    (hstick : ∀ e ∈ es, ∀ {n}, readable w (level + 1) e n = false → Sticks (valueText w (level + 1) e) n)
    (hread : readable w level (.array es) behind = false) :
    ∃ t, valueText w level (.array es) = '['.toUInt8 :: t ∧
      ∀ r, r.length = behind → Reaches Stuck (.array '['.toUInt8 []) (t ++ r) := by
  cases es with
  | nil => exact absurd hread (by simp [readable, elementsReadable])
  | cons e rest =>
    refine ⟨w.newline ++ (elementsText w level (e :: rest) ++ (w.indent level ++ [']'.toUInt8])), ?_, fun r hr => ?_⟩
    · simp [valueText, ascii, Char.toUInt8]
    · rw [readable, ← hr, behind_closer ']'.toUInt8] at hread
      have hstuck : Reaches Stuck (.array '['.toUInt8 [])
          (elementsText w level (e :: rest) ++ (w.indent level ++ ']'.toUInt8 :: r)) := elements_stuck hw (e :: rest)
        (fun e he _ hread => adds_value hw (hreg e he) hread) hstick hread (.inl rfl)
        (sepNext_line hw level (by decide))
      simpa using (reaches_inherited _).blanks hw.newline hstuck

theorem object_stuck {ms : List (Bytes × JsonElement)} (hreg : ∀ m ∈ ms, Regular m.2)
    (hstick : ∀ m ∈ ms, ∀ {n}, readable w (level + 1) m.2 n = false → Sticks (valueText w (level + 1) m.2) n)
    (hread : readable w level (.object ms) behind = false) :
    ∃ t, valueText w level (.object ms) = '\x7b'.toUInt8 :: t ∧
      ∀ r, r.length = behind → Reaches Stuck (.object '\x7b'.toUInt8 ⟨none, []⟩) (t ++ r) := by
  refine ⟨w.newline ++ (membersText w level ms ++ (w.indent level ++ ['\x7d'.toUInt8])), ?_, fun r hr => ?_⟩
  · simp [valueText]
  · rw [readable, ← hr, behind_closer '\x7d'.toUInt8] at hread
    have hstuck : Reaches Stuck (.object '\x7b'.toUInt8 ⟨none, []⟩)
        (membersText w level ms ++ (w.indent level ++ '\x7d'.toUInt8 :: r)) := members_stuck hw ms
      (fun m hm _ hread => adds_value hw (hreg m hm) hread) hstick hread (.inl rfl)
      (sepNext_line hw level (by decide))
    simpa using (reaches_inherited _).blanks hw.newline hstuck

/-- The written text of an element that is not readable stops the parser. -/
theorem value_stuck (h : Regular e) : ∀ {level behind : ℕ}, readable w level e behind = false →
    Sticks (valueText w level e) behind := by
  induction h with
  | string _ => exact fun hread => absurd hread (by simp [readable, primitiveReadable])
  | integer _ _ _ _ => exact fun hread => absurd hread (by simp [readable, primitiveReadable])
  | @real v n hrun hend hlen =>
    intro level behind hread f r hn hr _
    have hlast : v.getLast? = some '.'.toUInt8 := by simpa [readable, primitiveReadable] using hread
    rw [valueText, primitiveWrite_short (by decide) hlen]
    exact .here (.inl ⟨v, n, r, hn, hrun, (prev_point_iff hrun).mpr hlast, hr, rfl⟩)
  | bool b => exact (boolWord b).sticks
  | null => exact nullWord.sticks
  | array hreg ih =>
    intro level behind hread f r hn _ hr
    obtain ⟨t, ht, hstuck⟩ := array_stuck hw hreg (fun e he _ hread => ih e he hread) hread
    rw [ht]
    exact .nested hn opened_array (hstuck r hr)
  | object _ _ hreg ih =>
    intro level behind hread f r hn _ hr
    obtain ⟨t, ht, hstuck⟩ := object_stuck hw hreg (fun m hm _ hread => ih m hm hread) hread
    rw [ht]
    exact .nested hn opened_object (hstuck r hr)

omit hw in
theorem stuck_loop (h0 : 0 ∉ s) {r : Bytes} {fuel : ℕ} (hr : Reaches Stuck f r) (h : At s p r)
    (hfuel : 2 * r.length + 2 ≤ fuel) : ∃ er, f.loop s fuel p = .error er := by
  obtain hcut | hunseen := reaches_or hr
  · exact ⟨.numberDigitEnd, reaches_loop h0 (o := .error .numberDigitEnd) (fun _ => rfl)
      (fun fuel hc hat => cutNumber_loop h0 fuel hc hat) hcut h hfuel⟩
  · exact ⟨.objectBadSymbol, unseen_loop h0 hunseen h hfuel⟩

/-! ## Whole texts -/

theorem document_value (h : Regular e) (hread : readable w level e 0 = true) :
    Document (valueText w level e) (readback e) := by
  have hscalar : ∀ {v : Bytes} {x : JsonElement}, Scalar v x → (v ∈ words → Seen v (v.length + 0)) → Document v x := by
    intro v x hs hseen
    have hdoc : Document (v ++ []) x := .scalar hs ⟨trivial, hseen⟩
    rwa [List.append_nil] at hdoc
  have hnumber : ∀ {v : Bytes} {n : NumberState}, numberRun numberStart v = .ok n → endsInDigit n = true →
      Document v (.primitive (if '.'.toUInt8 ∈ v then .real else .integer) v) := fun hrun hend =>
    hscalar (scalar_number hrun hend) fun hword => absurd hrun (number_ne_word hend hword)
  have hword : ∀ {x : JsonElement} {word : Bytes}, IsWord x word → readable w level x 0 = true →
      Document (valueText w level x) (readback x) := by
    intro x word h hread
    rw [h.text, h.readback_eq]
    exact hscalar h.scalar fun _ => (h.readable_iff w level 0).mp hread
  cases h with
  | @string v _ =>
    rw [valueText, readback]
    exact .text (encode_body v)
  | @integer v n hrun hend _ hlen =>
    rw [valueText, readback, primitiveWrite_short (by decide) hlen]
    exact hnumber hrun hend
  | @real v n hrun hend hlen =>
    rw [valueText, readback, primitiveWrite_short (by decide) hlen]
    exact hnumber hrun (endsInDigit_of_readable hrun hend hread)
  | bool b => exact hword (boolWord b) hread
  | null => exact hword nullWord hread
  | array hreg =>
    obtain ⟨t, ht, hclose⟩ := array_closes hw (fun e he _ hread => adds_value hw (hreg e he) hread) hread
    rw [ht]
    have hall := hclose [] rfl
    rw [List.append_nil] at hall
    exact .container opened_array hall
  | object _ _ hreg =>
    obtain ⟨t, ht, hclose⟩ := object_closes hw (fun m hm _ hread => adds_value hw (hreg m hm) hread) hread
    rw [ht]
    have hall := hclose [] rfl
    rw [List.append_nil] at hall
    exact .container opened_object hall

theorem parse_stuck (h0 : 0 ∉ s) (h : Regular e) {fuel : ℕ} (hread : readable w level e 0 = false)
    (hat : At s p (valueText w level e)) (hfuel : (valueText w level e).length < fuel + 1) :
    ∃ er, parseWithLookup s (fuel + 1) p = .error er := by
  have hlen := hat.length_le
  have hcontainer : ∀ {c : UInt8} {f : Frame} {t : Bytes}, Frame.opened c = some f → valueText w level e = c :: t →
      (∀ r, r.length = 0 → Reaches Stuck f (t ++ r)) → ∃ er, parseWithLookup s (fuel + 1) p = .error er := by
    intro c f t hopen ht hstuck
    rw [ht] at hat hlen
    rw [List.length_cons] at hlen
    have hnil := hstuck [] rfl
    rw [List.append_nil] at hnil
    rw [parse_container h0 hat hopen]
    exact stuck_loop h0 hnil hat.next (by omega)
  have hword : ∀ {word : Bytes}, IsWord e word → ∃ er, parseWithLookup s (fuel + 1) p = .error er := by
    intro word h
    rw [h.text] at hat hfuel
    have hstops : StopsAtWord (word ++ []) := .whole h.mem (h.lost hread)
    rw [List.append_nil] at hstops
    exact ⟨.objectBadSymbol, unseen_parse h0 hstops hat hfuel⟩
  cases h with
  | string _ => exact absurd hread (by simp [readable, primitiveReadable])
  | integer _ _ _ _ => exact absurd hread (by simp [readable, primitiveReadable])
  | bool b => exact hword (boolWord b)
  | null => exact hword nullWord
  | @real v n hrun hend hshort =>
    have hlast : v.getLast? = some '.'.toUInt8 := by simpa [readable, primitiveReadable] using hread
    have hpoint := (prev_point_iff hrun).mpr hlast
    obtain ⟨c, t, rfl, hkey, hhead⟩ := cutNumber_head hrun hpoint
    obtain ⟨hplain, hws, _⟩ := plain_of_keyChar (.array 0 []) hkey
    rw [valueText, primitiveWrite_short (by decide) hshort] at hat
    have hnil : At s p ((c :: t) ++ []) := by rwa [List.append_nil]
    refine ⟨.numberDigitEnd, ?_⟩
    rw [parse_primitive h0 hat hws hplain.2.1, primitive_scalar hat hplain.1, parseScalar, if_pos hhead,
      parseAsNumber_cut h0 hnil hrun hpoint trivial]
    rfl
  | array hreg =>
    obtain ⟨t, ht, hstuck⟩ := array_stuck hw hreg (fun e he _ hread => value_stuck hw (hreg e he) hread) hread
    exact hcontainer opened_array ht hstuck
  | object _ _ hreg =>
    obtain ⟨t, ht, hstuck⟩ := object_stuck hw hreg (fun m hm _ hread => value_stuck hw (hreg m hm) hread) hread
    exact hcontainer opened_object ht hstuck

omit hw in
theorem parse_blanks (h0 : 0 ∉ s) {r : Bytes} (hb : ∀ c ∈ b, isWhitespace c = true) :
    ∀ {p n : ℕ}, At s p (b ++ r) →
    parseWithLookup s (n + b.length) p = parseWithLookup s n (p + b.length) := by
  induction b with
  | nil => exact fun _ => rfl
  | cons c b ih =>
    intro p fuel h
    have hnext := ih (fun x hx => hb x (List.mem_cons_of_mem _ hx)) (At.next (r := b ++ r) h) (n := fuel)
    rw [List.length_cons, ← Nat.add_assoc, parse_blank (r := b ++ r) h0 h (hb c List.mem_cons_self), hnext]
    congr 1
    omega

/-- What `JsonParse` returns for the text of an element with blanks before it. -/
theorem jsonParse_value (h : Regular e) (level : ℕ) (hb : ∀ c ∈ b, isWhitespace c = true) :
    (readable w level e 0 = true → ∃ q, jsonParse (b ++ valueText w level e) = .ok (readback e, q)) ∧
      (readable w level e 0 = false → ∃ er, jsonParse (b ++ valueText w level e) = .error er) := by
  have h0 : 0 ∉ b ++ valueText w level e := by
    rw [List.mem_append, not_or]
    exact ⟨blank_ne_zero hb, valueText_nul_free hw h⟩
  have hat := At.start (b ++ valueText w level e)
  have hskip := hat.skip
  have heq : jsonParse (b ++ valueText w level e) =
      parseWithLookup (b ++ valueText w level e) ((valueText w level e).length + 2) (0 + b.length) := by
    have hblank := parse_blanks h0 hb hat (n := (valueText w level e).length + 2)
    rw [← hblank, jsonParse, List.length_append]
    congr 1
    omega
  rw [heq]
  exact ⟨fun hread => document_parse h0 (document_value hw h hread) hskip (by omega),
    fun hread => parse_stuck hw h0 h hread hskip (by omega)⟩

end Elements

end Libntech.Json
