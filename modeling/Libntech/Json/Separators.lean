import Libntech.Json.ParseMeaning
import Mathlib.Data.List.Chain

/-! # The separators of arrays and objects

`JsonParseAsArray` and `JsonParseAsObject` look at the previous character before some kinds of tokens and not before
others. `Separated` is the grammar with every separator in its place: one comma between two elements or members, none
before the first, at most one behind the last, and one colon behind each key. What the parser lets through beside that
shows in the tokens of the text: a value that follows another one directly, or a comma behind an opening brace.
-/
namespace Libntech.Json
set_option autoImplicit false

/-! ## Tokens -/

inductive Token where
  | string
  | word
  | mark (c : UInt8)
  deriving DecidableEq

inductive LexMode where
  | between
  | inWord
  | inString
  | escaped

def isMark (c : UInt8) : Bool :=
  c == '['.toUInt8 || c == ']'.toUInt8 || c == '\x7b'.toUInt8 || c == '\x7d'.toUInt8 || c == ','.toUInt8 ||
    c == ':'.toUInt8

/-- The tokens that start in a text. -/
def lex : LexMode → Bytes → List Token
  | _, [] => []
  | .inString, c :: r => lex (if c = '"'.toUInt8 then .between else if c = '\\'.toUInt8 then .escaped else .inString) r
  | .escaped, _ :: r => lex .inString r
  | .between, c :: r =>
    if isWhitespace c then lex .between r
    else if c = '"'.toUInt8 then .string :: lex .inString r
    else if isMark c then .mark c :: lex .between r
    else .word :: lex .inWord r
  | .inWord, c :: r =>
    if isWhitespace c then lex .between r
    else if c = '"'.toUInt8 then .string :: lex .inString r
    else if isMark c then .mark c :: lex .between r
    else lex .inWord r

/-- A value may end with the token. -/
def Token.ends : Token → Bool
  | .string => true
  | .word => true
  | .mark c => c == ']'.toUInt8 || c == '\x7d'.toUInt8

/-- A value or a key may start with the token. -/
def Token.starts : Token → Bool
  | .string => true
  | .word => true
  | .mark c => c == '['.toUInt8 || c == '\x7b'.toUInt8

/-- The two tokens may follow each other. -/
def Fits (a b : Token) : Prop :=
  ¬ (a.ends = true ∧ b.starts = true) ∧ ¬ (a = .mark '\x7b'.toUInt8 ∧ b = .mark ','.toUInt8)

instance : DecidableRel Fits := fun a b =>
  inferInstanceAs (Decidable (¬ (a.ends = true ∧ b.starts = true) ∧
    ¬ (a = .mark '\x7b'.toUInt8 ∧ b = .mark ','.toUInt8)))

/-! ## The grammar -/

def Blank (w : Bytes) : Prop := ∀ c ∈ w, isWhitespace c = true

/-- A key with quotes or without, and the name it stands for. -/
inductive KeyText : Bytes → Bytes → Prop where
  | quoted {b : Bytes} : StringBody b → KeyText ('"'.toUInt8 :: (b ++ ['"'.toUInt8])) (unescape b)
  | bare {w : Bytes} : BareWord w → KeyText w w

/-- The children of an object after its members were appended one by one. -/
def appended (members : List (Bytes × JsonElement)) : List (Bytes × JsonElement) :=
  members.foldl (fun children m => appendElement children m.1 m.2) []

mutual

/-- The text of a value, from its first character to its last. -/
inductive Separated : Bytes → JsonElement → Prop where
  | string {b : Bytes} : StringBody b →
      Separated ('"'.toUInt8 :: (b ++ ['"'.toUInt8])) (.primitive .string (decodeString (unescape b)))
  | scalar {v : Bytes} {e : JsonElement} : Scalar v e → Separated v e
  | array {t w : Bytes} {es : List JsonElement} : Elements t es → Blank w →
      Separated ('['.toUInt8 :: (t ++ w ++ [']'.toUInt8])) (.array es)
  | arrayOpen {t : Bytes} {es : List JsonElement} : ElementsAhead t es →
      Separated ('['.toUInt8 :: (t ++ [']'.toUInt8])) (.array es)
  | object {t w : Bytes} {ms : List (Bytes × JsonElement)} : Members t ms → Blank w →
      Separated ('\x7b'.toUInt8 :: (t ++ w ++ ['\x7d'.toUInt8])) (.object (appended ms))
  | objectOpen {t : Bytes} {ms : List (Bytes × JsonElement)} : MembersAhead t ms →
      Separated ('\x7b'.toUInt8 :: (t ++ ['\x7d'.toUInt8])) (.object (appended ms))

/-- The elements of an array so far, the last character being that of an element. -/
inductive Elements : Bytes → List JsonElement → Prop where
  | mk {t v : Bytes} {es : List JsonElement} {e : JsonElement} : ElementsAhead t es → Separated v e →
      Elements (t ++ v) (es ++ [e])

/-- Nothing yet, or elements with a comma behind them. -/
inductive ElementsAhead : Bytes → List JsonElement → Prop where
  | start {w : Bytes} : Blank w → ElementsAhead w []
  | comma {t w w' : Bytes} {es : List JsonElement} : Elements t es → Blank w → Blank w' →
      ElementsAhead (t ++ w ++ ','.toUInt8 :: w') es

/-- The members of an object so far, the last character being that of a value. -/
inductive Members : Bytes → List (Bytes × JsonElement) → Prop where
  | mk {t k w w' v key : Bytes} {ms : List (Bytes × JsonElement)} {e : JsonElement} : MembersAhead t ms →
      KeyText k key → Blank w → Blank w' → Separated v e →
      Members (t ++ k ++ w ++ ':'.toUInt8 :: w' ++ v) (ms ++ [(key, e)])

inductive MembersAhead : Bytes → List (Bytes × JsonElement) → Prop where
  | start {w : Bytes} : Blank w → MembersAhead w []
  | comma {t w w' : Bytes} {ms : List (Bytes × JsonElement)} : Members t ms → Blank w → Blank w' →
      MembersAhead (t ++ w ++ ','.toUInt8 :: w') ms

end

/-! ## The tokens of the parts of a document -/

/-- A character of a word. -/
def isPlain (c : UInt8) : Bool := !isWhitespace c && c != '"'.toUInt8 && !isMark c

/-- A word ends before the text. -/
def Stops : Bytes → Prop
  | [] => True
  | c :: _ => isWhitespace c = true ∨ isMark c = true

variable {c last : UInt8} {f g : Frame} {b r t v w : Bytes} {e : JsonElement} {a : Token}

theorem mark_cases (h : isMark c = true) : c = '['.toUInt8 ∨ c = ']'.toUInt8 ∨ c = '\x7b'.toUInt8 ∨
    c = '\x7d'.toUInt8 ∨ c = ','.toUInt8 ∨ c = ':'.toUInt8 := by
  simpa [isMark, or_assoc] using h

theorem mark_apart (h : isMark c = true) :
    isWhitespace c = false ∧ c ≠ '"'.toUInt8 ∧ isKeyChar c = false := by
  rcases mark_cases h with rfl | rfl | rfl | rfl | rfl | rfl
  all_goals decide

theorem stops_of_sepNext (h : SepNext r) : Stops r := by
  cases r with
  | nil => trivial
  | cons c r =>
    simp only [SepNext, isSeparator, Bool.or_eq_true, beq_iff_eq] at h
    rcases h with ((h | rfl) | rfl) | rfl
    · exact .inl h
    · exact .inr (by decide)
    · exact .inr (by decide)
    · exact .inr (by decide)

theorem stops_mark (h : isMark c = true) : Stops (c :: r) := .inr h

theorem stops_blank (hw : Blank w) (hr : Stops r) : Stops (w ++ r) := by
  cases w with
  | nil => exact hr
  | cons c w => exact .inl (hw c List.mem_cons_self)

section Lexing

attribute [local simp] lex

theorem lex_mark (h : isMark c = true) (r : Bytes) : lex .between (c :: r) = .mark c :: lex .between r := by
  obtain ⟨hws, hq, _⟩ := mark_apart h
  simp [hws, hq, h]

theorem lex_blank (h : Blank w) (r : Bytes) : lex .between (w ++ r) = lex .between r := by
  induction w with
  | nil => rfl
  | cons c w ih =>
    have hrest := ih fun x hx => h x (List.mem_cons_of_mem _ hx)
    simp [h c List.mem_cons_self, hrest]

theorem lex_inWord_stops (h : Stops r) : lex .inWord r = lex .between r := by
  cases r with
  | nil => rfl
  | cons c r =>
    rw [lex, lex]
    by_cases hws : isWhitespace c = true
    · rw [if_pos hws, if_pos hws]
    · have hmark := h.resolve_left hws
      have hq := (mark_apart hmark).2.1
      rw [if_neg hws, if_neg hws, if_neg hq, if_neg hq, if_pos hmark, if_pos hmark]

theorem lex_word (hne : v ≠ []) (hv : ∀ c ∈ v, isPlain c = true) (hr : Stops r) :
    lex .between (v ++ r) = .word :: lex .between r := by
  have hrest : ∀ t : Bytes, (∀ c ∈ t, isPlain c = true) → lex .inWord (t ++ r) = lex .between r := by
    intro t ht
    induction t with
    | nil => exact lex_inWord_stops hr
    | cons c t ih =>
      have hc := ht c List.mem_cons_self
      simp only [isPlain, Bool.and_eq_true, Bool.not_eq_true', bne_iff_ne] at hc
      rw [List.cons_append, lex, hc.1.1, hc.2, if_neg (by simp), if_neg hc.1.2, if_neg (by simp)]
      exact ih fun x hx => ht x (List.mem_cons_of_mem _ hx)
  cases v with
  | nil => exact absurd rfl hne
  | cons c t =>
    have hc := hv c List.mem_cons_self
    simp only [isPlain, Bool.and_eq_true, Bool.not_eq_true', bne_iff_ne] at hc
    rw [List.cons_append, lex, hc.1.1, hc.2, if_neg (by simp), if_neg hc.1.2, if_neg (by simp),
      hrest t fun x hx => hv x (List.mem_cons_of_mem _ hx)]

theorem lex_string (h : StringBody b) (r : Bytes) :
    lex .between ('"'.toUInt8 :: (b ++ '"'.toUInt8 :: r)) = .string :: lex .between r := by
  have hbody : lex .inString (b ++ '"'.toUInt8 :: r) = lex .between r := by
    induction h with
    | nil => rfl
    | plain hq hb _ ih =>
      rw [List.cons_append, lex, if_neg hq, if_neg hb]
      exact ih
    | escape _ ih => exact ih
  rw [lex, if_neg (by decide), if_pos rfl, hbody]

end Lexing

theorem plain_of_isKeyChar (h : isKeyChar c = true) : isPlain c = true := by
  have hne : ∀ d, isKeyChar d = false → c ≠ d := by
    rintro d hd rfl
    exact absurd h (by simp [hd])
  have hws : isWhitespace c = false := by
    by_contra hws
    exact absurd h (by simp [keyChar_whitespace (Bool.not_eq_false _ |>.mp hws)])
  have hmark : isMark c = false := by
    by_contra hmark
    exact absurd h (by simp [(mark_apart (Bool.not_eq_false _ |>.mp hmark)).2.2])
  simp [isPlain, hws, hmark, hne _ (by decide : isKeyChar '"'.toUInt8 = false)]

theorem numberStep_isPlain {n n' : NumberState} (h : numberStep n c = .ok n') : isPlain c = true := by
  by_cases hmarked : c = '-'.toUInt8 ∨ c = '+'.toUInt8 ∨ c = '0'.toUInt8 ∨ c = '.'.toUInt8 ∨ c = 'e'.toUInt8 ∨
      c = 'E'.toUInt8
  · rcases hmarked with rfl | rfl | rfl | rfl | rfl | rfl
    all_goals decide
  · simp only [not_or] at hmarked
    have hexp : ¬ (c = 'e'.toUInt8 ∨ c = 'E'.toUInt8) := by simp [hmarked]
    simp only [numberStep] at h
    rw [if_neg hmarked.1, if_neg hmarked.2.1, if_neg hmarked.2.2.1, if_neg hmarked.2.2.2.1, if_neg hexp] at h
    split at h
    · cases h
    · split at h
      · cases h
      · rename_i hdigit
        exact plain_of_isKeyChar (isKeyChar_of_isDigit (Classical.not_not.mp hdigit))

theorem numberRun_isPlain : ∀ {n n' : NumberState}, numberRun n v = .ok n' → ∀ c ∈ v, isPlain c = true := by
  induction v with
  | nil => exact fun _ _ hc => absurd hc List.not_mem_nil
  | cons c v ih =>
    intro n n' h x hx
    rw [numberRun] at h
    cases hstep : numberStep n c with
    | error e =>
      rw [hstep] at h
      cases h
    | ok m =>
      rw [hstep] at h
      rcases List.mem_cons.mp hx with rfl | hx
      · exact numberStep_isPlain hstep
      · exact ih h x hx

theorem scalar_isPlain (h : Scalar v e) : ∀ c ∈ v, isPlain c = true := by
  cases h with
  | number hrun _ => exact numberRun_isPlain hrun
  | true => exact List.all_eq_true.mp (by decide)
  | false => exact List.all_eq_true.mp (by decide)
  | null => exact List.all_eq_true.mp (by decide)

theorem lex_scalar (h : Scalar v e) (hr : Stops r) : lex .between (v ++ r) = .word :: lex .between r :=
  lex_word (scalar_ne_nil h) (scalar_isPlain h) hr

theorem lex_bareWord (h : BareWord w) (hr : Stops r) : lex .between (w ++ r) = .word :: lex .between r := by
  obtain ⟨hc, hw⟩ := h
  refine lex_word (List.cons_ne_nil _ _) (fun x hx => plain_of_isKeyChar ?_) hr
  rcases List.mem_cons.mp hx with rfl | hx
  · simp [isKeyChar, hc]
  · exact hw x hx

/-! ## Texts with every separator in its place -/

/-- What follows a token of the given kind fits. -/
def FitsAfter (ends : Bool) (r : Bytes) : Prop := ∀ a : Token, a.ends = ends → (a :: lex .between r).IsChain Fits

theorem fits_starts {b : Token} (ha : a.ends = false) (hb : b.starts = true) : Fits a b := by
  refine ⟨fun h => ?_, fun h => ?_⟩
  · rw [ha] at h
    cases h.1
  · rw [h.2] at hb
    cases hb

theorem fits_mark (hc : (Token.mark c).starts = false) (ha : a.ends = true ∨ c ≠ ','.toUInt8) :
    Fits a (.mark c) := by
  refine ⟨fun h => ?_, fun h => ?_⟩
  · rw [hc] at h
    cases h.2
  · rcases ha with ha | ha
    · rw [h.1] at ha
      cases ha
    · exact ha (Token.mark.inj h.2)

theorem fitsAfter_starts {b : Token} (hb : b.starts = true) (hlex : lex .between r = b :: lex .between t)
    (h : (b :: lex .between t).IsChain Fits) : FitsAfter false r := by
  intro a ha
  rw [hlex, List.isChain_cons_cons]
  exact ⟨fits_starts ha hb, h⟩

theorem fitsAfter_blank {ends : Bool} (hw : Blank w) (h : FitsAfter ends r) : FitsAfter ends (w ++ r) := by
  intro a ha
  rw [lex_blank hw]
  exact h a ha

theorem fitsAfter_mark {ends : Bool} (hmark : isMark c = true) (hc : (Token.mark c).starts = false)
    (hends : ends = true ∨ c ≠ ','.toUInt8) (h : (Token.mark c :: lex .between r).IsChain Fits) :
    FitsAfter ends (c :: r) := by
  intro a ha
  rw [lex_mark hmark, List.isChain_cons_cons]
  refine ⟨fits_mark hc ?_, h⟩
  rw [ha]
  exact hends

theorem keyText_fits {k key : Bytes} (hk : KeyText k key) (hr : Stops r) (h : FitsAfter true r) :
    FitsAfter false (k ++ r) := by
  cases hk with
  | quoted hb =>
    refine fitsAfter_starts (b := .string) (t := r) rfl ?_ (h .string rfl)
    rw [List.cons_append, List.append_assoc]
    exact lex_string hb r
  | bare hw => exact fitsAfter_starts rfl (lex_bareWord hw hr) (h .word rfl)

mutual

theorem separated_fits {v : Bytes} {e : JsonElement} (hv : Separated v e) {r : Bytes} (hr : Stops r)
    (h : FitsAfter true r) : FitsAfter false (v ++ r) := by
  cases hv with
  | string hb =>
    refine fitsAfter_starts (b := .string) (t := r) rfl ?_ (h .string rfl)
    rw [List.cons_append, List.append_assoc]
    exact lex_string hb r
  | scalar hs => exact fitsAfter_starts rfl (lex_scalar hs hr) (h .word rfl)
  | @array t w es ht hw =>
    have hclose : FitsAfter true (']'.toUInt8 :: r) := fitsAfter_mark rfl rfl (.inl rfl) (h _ rfl)
    have hin := elements_fits ht (stops_blank hw (stops_mark rfl)) (fitsAfter_blank hw hclose)
    simp only [List.cons_append, List.append_assoc, List.nil_append]
    exact fitsAfter_starts rfl (lex_mark rfl _) (hin _ rfl)
  | arrayOpen ht =>
    have hclose : FitsAfter false (']'.toUInt8 :: r) := fitsAfter_mark rfl rfl (.inr (by decide)) (h _ rfl)
    simp only [List.cons_append, List.append_assoc, List.nil_append]
    exact fitsAfter_starts rfl (lex_mark rfl _) (elementsAhead_fits ht hclose _ rfl)
  | @object t w ms ht hw =>
    have hclose : FitsAfter true ('\x7d'.toUInt8 :: r) := fitsAfter_mark rfl rfl (.inl rfl) (h _ rfl)
    have hin := members_fits ht (stops_blank hw (stops_mark rfl)) (fitsAfter_blank hw hclose)
    simp only [List.cons_append, List.append_assoc, List.nil_append]
    exact fitsAfter_starts rfl (lex_mark rfl _) (hin _ rfl)
  | objectOpen ht =>
    have hclose : FitsAfter false ('\x7d'.toUInt8 :: r) := fitsAfter_mark rfl rfl (.inr (by decide)) (h _ rfl)
    simp only [List.cons_append, List.append_assoc, List.nil_append]
    exact fitsAfter_starts rfl (lex_mark rfl _) (membersAhead_fits ht hclose _ rfl)
  termination_by 2 * v.length

theorem elements_fits {t : Bytes} {es : List JsonElement} (ht : Elements t es) {r : Bytes} (hr : Stops r)
    (h : FitsAfter true r) : FitsAfter false (t ++ r) := by
  cases ht with
  | mk ht hv =>
    rw [List.append_assoc]
    exact elementsAhead_fits ht (separated_fits hv hr h)
  termination_by 2 * t.length + 1

theorem elementsAhead_fits {t : Bytes} {es : List JsonElement} (ht : ElementsAhead t es) {r : Bytes}
    (h : FitsAfter false r) : FitsAfter false (t ++ r) := by
  cases ht with
  | start hw => exact fitsAfter_blank hw h
  | @comma t w w' _ ht hw hw' =>
    have hcomma : FitsAfter true (','.toUInt8 :: (w' ++ r)) :=
      fitsAfter_mark rfl rfl (.inl rfl) (fitsAfter_blank hw' h _ rfl)
    rw [List.append_assoc, List.append_assoc]
    exact elements_fits ht (stops_blank hw (stops_mark rfl)) (fitsAfter_blank hw hcomma)
  termination_by 2 * t.length

theorem members_fits {t : Bytes} {ms : List (Bytes × JsonElement)} (ht : Members t ms) {r : Bytes} (hr : Stops r)
    (h : FitsAfter true r) : FitsAfter false (t ++ r) := by
  cases ht with
  | @mk t k w w' v key ms e ht hk hw hw' hv =>
    have hvalue := fitsAfter_blank hw' (separated_fits hv hr h)
    have hcolon : FitsAfter true (':'.toUInt8 :: (w' ++ (v ++ r))) :=
      fitsAfter_mark rfl rfl (.inl rfl) (hvalue _ rfl)
    have hkey := keyText_fits hk (stops_blank hw (stops_mark rfl)) (fitsAfter_blank hw hcolon)
    simp only [List.append_assoc, List.cons_append]
    exact membersAhead_fits ht hkey
  termination_by 2 * t.length + 1

theorem membersAhead_fits {t : Bytes} {ms : List (Bytes × JsonElement)} (ht : MembersAhead t ms) {r : Bytes}
    (h : FitsAfter false r) : FitsAfter false (t ++ r) := by
  cases ht with
  | start hw => exact fitsAfter_blank hw h
  | @comma t w w' _ ht hw hw' =>
    have hcomma : FitsAfter true (','.toUInt8 :: (w' ++ r)) :=
      fitsAfter_mark rfl rfl (.inl rfl) (fitsAfter_blank hw' h _ rfl)
    rw [List.append_assoc, List.append_assoc]
    exact members_fits ht (stops_blank hw (stops_mark rfl)) (fitsAfter_blank hw hcomma)
  termination_by 2 * t.length

end

/-! ## What the parser has read of a container -/

/-- The previous character is an opening bracket, a comma or a colon. -/
def isOpener (c : UInt8) : Bool :=
  c == '['.toUInt8 || c == '\x7b'.toUInt8 || c == ','.toUInt8 || c == ':'.toUInt8

/-- The previous character and the last token tell the same. -/
def Shows (prev : UInt8) (a : Token) : Prop :=
  a.ends = !isOpener prev ∧ (a = .mark '\x7b'.toUInt8 ↔ prev = '\x7b'.toUInt8)

namespace Frame

def prev : Frame → UInt8
  | array prev _ => prev
  | object prev _ => prev

/-- The bracket that starts the frame. -/
def opener : Frame → UInt8
  | array _ _ => '['.toUInt8
  | object _ _ => '\x7b'.toUInt8

end Frame

/-- A text between the opening bracket and the frame, with every separator in its place. -/
inductive Progress : Frame → Bytes → Prop where
  | arrayAhead {t : Bytes} {es : List JsonElement} {prev : UInt8} : ElementsAhead t es →
      prev = '['.toUInt8 ∨ prev = ','.toUInt8 → Progress (.array prev es) t
  | arrayValue {t w : Bytes} {es : List JsonElement} {prev : UInt8} : Elements t es → Blank w → isOpener prev = false →
      Progress (.array prev es) (t ++ w)
  | objectAhead {t : Bytes} {ms : List (Bytes × JsonElement)} {prev : UInt8} : MembersAhead t ms →
      prev = '\x7b'.toUInt8 ∨ prev = ','.toUInt8 → Progress (.object prev ⟨none, appended ms⟩) t
  | objectKey {t k w key : Bytes} {ms : List (Bytes × JsonElement)} {prev : UInt8} : MembersAhead t ms →
      KeyText k key → Blank w → isOpener prev = false → Progress (.object prev ⟨some key, appended ms⟩) (t ++ k ++ w)
  | objectColon {t k w w' key : Bytes} {ms : List (Bytes × JsonElement)} : MembersAhead t ms → KeyText k key →
      Blank w → Blank w' → Progress (.object ':'.toUInt8 ⟨some key, appended ms⟩) (t ++ k ++ w ++ ':'.toUInt8 :: w')
  | objectValue {t w : Bytes} {ms : List (Bytes × JsonElement)} {prev : UInt8} : Members t ms → Blank w →
      isOpener prev = false → Progress (.object prev ⟨none, appended ms⟩) (t ++ w)

theorem blank_nil : Blank [] := fun _ hc => absurd hc List.not_mem_nil

theorem blank_append {w' : Bytes} (h : Blank w) (h' : Blank w') : Blank (w ++ w') := by
  intro c hc
  rcases List.mem_append.mp hc with hc | hc
  · exact h c hc
  · exact h' c hc

theorem appended_append (ms : List (Bytes × JsonElement)) (key : Bytes) (e : JsonElement) :
    appended (ms ++ [(key, e)]) = appendElement (appended ms) key e := by
  rw [appended, List.foldl_append]
  rfl

theorem progress_opened (h : Frame.opened c = some f) : Progress f [] ∧ f.prev = c ∧ f.opener = c := by
  rcases opened_cases h with ⟨rfl, rfl⟩ | ⟨rfl, rfl⟩
  · exact ⟨.arrayAhead (.start blank_nil) (.inl rfl), rfl, rfl⟩
  · have hempty : MembersAhead [] [] := .start blank_nil
    exact ⟨.objectAhead hempty (.inl rfl), rfl, rfl⟩

theorem progress_blank (h : Progress f t) (hw : Blank w) : Progress f (t ++ w) := by
  cases h with
  | arrayAhead ht hprev =>
    refine .arrayAhead ?_ hprev
    cases ht with
    | start hw₀ => exact .start (blank_append hw₀ hw)
    | comma ht hw₀ hw₁ =>
      rw [List.append_assoc, List.cons_append]
      exact .comma ht hw₀ (blank_append hw₁ hw)
  | arrayValue ht hw₀ hprev =>
    rw [List.append_assoc]
    exact .arrayValue ht (blank_append hw₀ hw) hprev
  | objectAhead ht hprev =>
    refine .objectAhead ?_ hprev
    cases ht with
    | start hw₀ => exact .start (blank_append hw₀ hw)
    | comma ht hw₀ hw₁ =>
      rw [List.append_assoc, List.cons_append]
      exact .comma ht hw₀ (blank_append hw₁ hw)
  | objectKey ht hk hw₀ hprev =>
    rw [List.append_assoc]
    exact .objectKey ht hk (blank_append hw₀ hw) hprev
  | objectColon ht hk hw₀ hw₁ =>
    rw [List.append_assoc, List.cons_append]
    exact .objectColon ht hk hw₀ (blank_append hw₁ hw)
  | objectValue ht hw₀ hprev =>
    rw [List.append_assoc]
    exact .objectValue ht (blank_append hw₀ hw) hprev

theorem progress_value (h : Progress f t) (hprev : isOpener f.prev = true) (hv : Separated v e)
    (hlast : isOpener last = false) (hg : f.value last e = some g) : Progress g (t ++ v) := by
  cases h with
  | arrayAhead ht _ =>
    obtain rfl := Option.some.inj hg
    have := Progress.arrayValue (.mk ht hv) blank_nil hlast
    rwa [List.append_nil] at this
  | arrayValue _ _ hno => exact absurd hprev (by simp [Frame.prev, hno])
  | objectAhead _ _ => cases hg
  | objectKey _ _ _ hno => exact absurd hprev (by simp [Frame.prev, hno])
  | objectColon ht hk hw hw' =>
    obtain rfl := Option.some.inj hg
    have := Progress.objectValue (.mk ht hk hw hw' hv) blank_nil hlast
    rwa [List.append_nil, appended_append] at this
  | objectValue _ _ _ => cases hg

theorem progress_punct (h : Progress f t) (hcomma : c = ','.toUInt8 → f.prev ≠ '\x7b'.toUInt8) (hg : f.punct c = some g) :
    Progress g (t ++ [c]) := by
  cases h with
  | @arrayAhead t es prev ht hprev =>
    refine absurd hg ?_
    rw [Frame.punct, if_neg (by tauto)]
    simp
  | @arrayValue t w es prev ht hw _ =>
    rw [Frame.punct] at hg
    split at hg
    · rename_i hc
      obtain rfl := Option.some.inj hg
      obtain rfl := hc.1
      exact .arrayAhead (.comma ht hw blank_nil) (.inr rfl)
    · cases hg
  | @objectAhead t ms prev ht hprev =>
    rw [Frame.punct] at hg
    split at hg
    · rename_i hc
      rcases hc.2.2 with ⟨_, hname⟩ | ⟨hc', _⟩
      · exact absurd rfl hname
      · exact absurd hprev (by simp only [not_or]; exact ⟨hcomma hc', hc.2.1⟩)
    · cases hg
  | @objectKey t k w key ms prev ht hk hw hprev =>
    rw [Frame.punct] at hg
    split at hg
    · rename_i hc
      obtain rfl := Option.some.inj hg
      rcases hc.2.2 with ⟨rfl, _⟩ | ⟨_, hname⟩
      · exact .objectColon ht hk hw blank_nil
      · cases hname
    · cases hg
  | objectColon _ _ _ _ =>
    refine absurd hg ?_
    rw [Frame.punct, if_neg (by simp)]
    simp
  | @objectValue t w ms prev ht hw _ =>
    rw [Frame.punct] at hg
    split at hg
    · rename_i hc
      obtain rfl := Option.some.inj hg
      rcases hc.2.2 with ⟨_, hname⟩ | ⟨rfl, _⟩
      · exact absurd rfl hname
      · exact .objectAhead (.comma ht hw blank_nil) (.inr rfl)
    · cases hg

theorem progress_closer (h : Progress f t) (he : f.element = some e) :
    Separated (f.opener :: (t ++ [f.closer])) e := by
  cases h with
  | arrayAhead ht _ =>
    obtain rfl := Option.some.inj he
    exact .arrayOpen ht
  | arrayValue ht hw _ =>
    obtain rfl := Option.some.inj he
    exact .array ht hw
  | objectAhead ht _ =>
    obtain rfl := Option.some.inj he
    exact .objectOpen ht
  | objectKey _ _ _ _ => cases he
  | objectColon _ _ _ _ => cases he
  | objectValue ht hw _ =>
    obtain rfl := Option.some.inj he
    exact .object ht hw

theorem progress_key {k key : Bytes} {prev : UInt8} {children : List (Bytes × JsonElement)}
    (h : Progress (.object prev ⟨none, children⟩) t) (hprev : isOpener prev = true) (hk : KeyText k key) :
    (∀ last, isOpener last = false → Progress (.object last ⟨some key, children⟩) (t ++ k)) ∧
      ∀ w, Blank w → Progress (.object ':'.toUInt8 ⟨some key, children⟩) (t ++ (k ++ (w ++ [':'.toUInt8]))) := by
  cases h with
  | objectAhead ht _ =>
    refine ⟨fun last hlast => ?_, fun w hw => ?_⟩
    · have := Progress.objectKey ht hk blank_nil hlast
      rwa [List.append_nil] at this
    · have := Progress.objectColon ht hk hw blank_nil
      rwa [List.append_assoc, List.append_assoc] at this
  | objectValue _ _ hno => exact absurd hprev (by simp [hno])

theorem progress_text (h : Progress f t) (hprev : isOpener f.prev = true) (hb : StringBody b)
    (hg : f.text (unescape b) = some g) :
    Progress g (t ++ '"'.toUInt8 :: (b ++ ['"'.toUInt8])) ∧ g.prev = '"'.toUInt8 := by
  obtain ⟨prev, children⟩ | ⟨prev, name, children⟩ := f
  · obtain rfl := Option.some.inj hg
    exact ⟨progress_value h hprev (.string hb) rfl rfl, rfl⟩
  · cases name with
    | some key =>
      obtain rfl := Option.some.inj hg
      exact ⟨progress_value h hprev (.string hb) rfl rfl, rfl⟩
    | none =>
      rw [Frame.text] at hg
      split at hg
      · obtain rfl := Option.some.inj hg
        exact ⟨(progress_key h hprev (.quoted hb)).1 _ rfl, rfl⟩
      · cases hg

theorem scalar_last (h : Scalar v e) (hlast : v.getLast? = some last) : isOpener last = false := by
  have hplain := scalar_isPlain h last (List.mem_of_getLast? hlast)
  simp only [isPlain, Bool.and_eq_true, Bool.not_eq_true'] at hplain
  have hmark := hplain.2
  simp only [isMark, Bool.or_eq_false_iff] at hmark
  simp [isOpener, hmark]

theorem shows_word (h : isOpener last = false) : Shows last .word := by
  refine ⟨by rw [h]; rfl, fun hword => Token.noConfusion hword, ?_⟩
  rintro rfl
  cases h

theorem shows_mark (h : isMark c = true) : Shows c (.mark c) := by
  rcases mark_cases h with rfl | rfl | rfl | rfl | rfl | rfl
  all_goals exact ⟨rfl, by decide⟩

theorem value_prev (h : f.value last e = some g) : g.prev = last ∧ g.opener = f.opener := by
  obtain ⟨prev, children⟩ | ⟨prev, name, children⟩ := f
  · obtain rfl := Option.some.inj h
    exact ⟨rfl, rfl⟩
  · cases name with
    | none => cases h
    | some key =>
      obtain rfl := Option.some.inj h
      exact ⟨rfl, rfl⟩

theorem text_opener (h : f.text b = some g) : g.opener = f.opener := by
  obtain ⟨prev, children⟩ | ⟨prev, name, children⟩ := f
  · obtain rfl := Option.some.inj h
    rfl
  · cases name with
    | some key =>
      obtain rfl := Option.some.inj h
      rfl
    | none =>
      rw [Frame.text] at h
      split at h
      · obtain rfl := Option.some.inj h
        rfl
      · cases h

theorem punct_prev (h : f.punct c = some g) : g.prev = c ∧ g.opener = f.opener ∧ isMark c = true := by
  obtain ⟨prev, children⟩ | ⟨prev, o⟩ := f
  · rw [Frame.punct] at h
    split at h
    · rename_i hc
      obtain rfl := Option.some.inj h
      obtain rfl := hc.1
      exact ⟨rfl, rfl, rfl⟩
    · cases h
  · rw [Frame.punct] at h
    split at h
    · rename_i hc
      obtain rfl := Option.some.inj h
      rcases hc.2.2 with ⟨rfl, _⟩ | ⟨rfl, _⟩
      · exact ⟨rfl, rfl, rfl⟩
      · exact ⟨rfl, rfl, rfl⟩
    · cases h

theorem opener_of_fits {prev : UInt8} {b : Token} (h : Shows prev a) (hfits : Fits a b) (hb : b.starts = true) :
    isOpener prev = true := by
  cases hprev : isOpener prev with
  | true => rfl
  | false => exact absurd ⟨by rw [h.1, hprev]; rfl, hb⟩ hfits.1

/-! ## A run of the parser over fitting tokens -/

/-- The text `x` leads from one frame to the other: if its tokens fit what stands before it, then every separator in
it is in its place, and the tokens behind it fit its last one. -/
def Carries (f g : Frame) (x z : Bytes) : Prop :=
  ∀ {t : Bytes} {a : Token}, Progress f t → Shows f.prev a → (a :: lex .between (x ++ z)).IsChain Fits →
    Progress g (t ++ x) ∧ ∃ b, Shows g.prev b ∧ (b :: lex .between z).IsChain Fits

theorem carries_text (hb : StringBody b) (hg : f.text (unescape b) = some g) (z : Bytes) :
    Carries f g ('"'.toUInt8 :: (b ++ ['"'.toUInt8])) z := by
  intro t a ht ha hfits
  rw [List.cons_append, List.append_assoc, List.singleton_append, lex_string hb, List.isChain_cons_cons] at hfits
  obtain ⟨hnext, hprev⟩ := progress_text ht (opener_of_fits ha hfits.1 rfl) hb hg
  refine ⟨hnext, .string, ?_, hfits.2⟩
  rw [hprev]
  exact ⟨rfl, by decide⟩

theorem carries_scalar (hs : Scalar v e) (hlast : v.getLast? = some last) (hg : f.value last e = some g) {z : Bytes}
    (hz : Stops z) : Carries f g v z := by
  intro t a ht ha hfits
  rw [lex_scalar hs hz, List.isChain_cons_cons] at hfits
  have hopen := scalar_last hs hlast
  refine ⟨progress_value ht (opener_of_fits ha hfits.1 rfl) (.scalar hs) hopen hg, .word, ?_, hfits.2⟩
  rw [(value_prev hg).1]
  exact shows_word hopen

theorem carries_punct (hg : f.punct c = some g) (z : Bytes) : Carries f g [c] z := by
  obtain ⟨hprev, _, hmark⟩ := punct_prev hg
  intro t a ht ha hfits
  rw [List.singleton_append, lex_mark hmark, List.isChain_cons_cons] at hfits
  refine ⟨progress_punct ht (fun hc hbrace => ?_) hg, .mark c, ?_, hfits.2⟩
  · exact hfits.1.2 ⟨ha.2.mpr hbrace, by rw [hc]⟩
  · rw [hprev]
    exact shows_mark hmark

theorem carries_key {ws : Bytes} (hw : BareWord w) (hws : Blank ws) (hg : f.key w = some g) (z : Bytes) :
    Carries f g (w ++ (ws ++ [':'.toUInt8])) z := by
  intro t a ht ha hfits
  have hlex : lex .between (w ++ (ws ++ [':'.toUInt8]) ++ z) = .word :: .mark ':'.toUInt8 :: lex .between z := by
    rw [List.append_assoc, List.append_assoc, List.singleton_append,
      lex_bareWord hw (stops_blank hws (stops_mark rfl)), lex_blank hws, lex_mark rfl]
  rw [hlex, List.isChain_cons_cons, List.isChain_cons_cons] at hfits
  have hprev := opener_of_fits ha hfits.1 rfl
  obtain ⟨prev, children⟩ | ⟨prev, name, children⟩ := f
  · cases hg
  · cases name with
    | some key => cases hg
    | none =>
      obtain rfl := Option.some.inj hg
      exact ⟨(progress_key ht hprev (.bare hw)).2 ws hws, .mark ':'.toUInt8, shows_mark rfl, hfits.2.2⟩

mutual

theorem item_carries {f g : Frame} {r r' : Bytes} (hi : Item f r g r') : ∃ x, r = x ++ r' ∧ x ≠ [] ∧
    g.opener = f.opener ∧ ∀ {z}, (SepNext r' → Stops z) → Carries f g x z := by
  cases hi with
  | @blank _ c _ hc =>
    have hblank : Blank [c] := fun x hx => by rw [List.mem_singleton.mp hx]; exact hc
    refine ⟨[c], rfl, List.cons_ne_nil _ _, rfl, fun _ t a ht ha hfits => ?_⟩
    rw [lex_blank hblank] at hfits
    exact ⟨progress_blank ht hblank, a, ha, hfits⟩
  | @punct _ _ c _ hg =>
    exact ⟨[c], rfl, List.cons_ne_nil _ _, (punct_prev hg).2.1, fun _ => carries_punct hg _⟩
  | @text _ _ b _ hb hg =>
    refine ⟨'"'.toUInt8 :: (b ++ ['"'.toUInt8]), ?_, List.cons_ne_nil _ _, text_opener hg, fun _ => carries_text hb hg _⟩
    rw [List.cons_append, List.append_assoc, List.singleton_append]
  | @scalar _ _ v _ e last hs hlast hr hg =>
    exact ⟨v, rfl, scalar_ne_nil hs, (value_prev hg).2, fun hz => carries_scalar hs hlast hg (hz hr.sep)⟩
  | @key _ _ w ws _ hw hws hg =>
    refine ⟨w ++ (ws ++ [':'.toUInt8]), ?_, by simp, ?_, fun _ => carries_key hw hws hg _⟩
    · rw [List.append_assoc, List.append_assoc, List.singleton_append]
    · obtain ⟨prev, children⟩ | ⟨prev, name, children⟩ := f
      · cases hg
      · cases name with
        | some key => cases hg
        | none =>
          obtain rfl := Option.some.inj hg
          rfl
  | @nested _ _ h c d r₁ _ e hn hopen hclose hg =>
    obtain ⟨y, hy, _, hd, hcarries⟩ := closes_carries hclose
    obtain ⟨hstart, hprev, hopener⟩ := progress_opened hopen
    have hmark : isMark c = true ∧ (Token.mark c).starts = true := by
      rcases opened_cases hopen with ⟨rfl, _⟩ | ⟨rfl, _⟩
      · exact ⟨rfl, rfl⟩
      · exact ⟨rfl, rfl⟩
    have hdmark : isMark d = true ∧ isOpener d = false := by
      rcases hd with rfl | rfl
      · exact ⟨rfl, rfl⟩
      · exact ⟨rfl, rfl⟩
    refine ⟨c :: y, by rw [hy]; rfl, List.cons_ne_nil _ _, (value_prev hg).2, fun {z} _ t a ht ha hfits => ?_⟩
    rw [List.cons_append, lex_mark hmark.1, List.isChain_cons_cons] at hfits
    obtain ⟨hvalue, hrest⟩ := hcarries hstart (by rw [hprev]; exact shows_mark hmark.1) hfits.2
    rw [hopener, List.nil_append] at hvalue
    refine ⟨progress_value ht (opener_of_fits ha hfits.1 hmark.2) hvalue hdmark.2 hg, .mark d, ?_, hrest⟩
    rw [(value_prev hg).1]
    exact shows_mark hdmark.1
  termination_by 2 * r.length

theorem closes_carries {f : Frame} {r r' : Bytes} {e : JsonElement} {d : UInt8} (hc : Closes f r e d r') :
    ∃ y, r = y ++ r' ∧ y ≠ [] ∧ (d = ']'.toUInt8 ∨ d = '\x7d'.toUInt8) ∧ ∀ {t z : Bytes} {a : Token}, Progress f t →
      Shows f.prev a → (a :: lex .between (y ++ z)).IsChain Fits →
      Separated (f.opener :: (t ++ y)) e ∧ (Token.mark d :: lex .between z).IsChain Fits := by
  cases hc with
  | here he =>
    have hcloser : f.closer = ']'.toUInt8 ∨ f.closer = '\x7d'.toUInt8 := by
      cases f with
      | array prev children => exact .inl rfl
      | object prev o => exact .inr rfl
    have hmark : isMark f.closer = true := by
      rcases hcloser with h | h
      · rw [h]; rfl
      · rw [h]; rfl
    refine ⟨[f.closer], rfl, List.cons_ne_nil _ _, hcloser, fun ht _ hfits => ⟨progress_closer ht he, ?_⟩⟩
    rw [List.singleton_append, lex_mark hmark, List.isChain_cons_cons] at hfits
    exact hfits.2
  | @item _ g _ r₁ _ _ _ hi hc =>
    obtain ⟨x, hx, hne, hopener, hitem⟩ := item_carries hi
    have hlen : r₁.length < r.length := by
      have := List.length_pos_of_ne_nil hne
      rw [hx, List.length_append]
      omega
    obtain ⟨y, hy, hy0, hd, hrest⟩ := closes_carries hc
    refine ⟨x ++ y, by rw [hx, hy, List.append_assoc], by simp [hy0], hd, fun {t z a} ht ha hfits => ?_⟩
    have hstops : SepNext r₁ → Stops (y ++ z) := by
      intro hsep
      obtain ⟨c, y, rfl⟩ := List.exists_cons_of_ne_nil hy0
      rw [hy] at hsep
      exact stops_of_sepNext (r := c :: (y ++ z)) hsep
    rw [List.append_assoc] at hfits
    obtain ⟨hnext, b, hb, hfits⟩ := hitem hstops ht ha hfits
    rw [← hopener, ← List.append_assoc]
    exact hrest hnext hb hfits
  termination_by 2 * r.length + 1

end

/-! ## Whole documents -/

/-- Every separator in the text of the element is in its place. -/
def SeparatorsKept (text : Bytes) (e : JsonElement) : Prop := ∃ w v, text = w ++ v ∧ Blank w ∧ Separated v e

theorem fits_of_separatorsKept {text : Bytes} (h : SeparatorsKept text e) :
    (lex .between text).IsChain Fits := by
  obtain ⟨w, v, rfl, hw, hv⟩ := h
  have hend : FitsAfter true [] := fun a _ => List.isChain_singleton a
  have hfits := separated_fits hv (r := []) trivial hend (.mark '['.toUInt8) rfl
  rw [List.append_nil] at hfits
  rw [lex_blank hw]
  exact hfits.of_cons

theorem heads_separated {s : Bytes} (h : Heads s e r) : ∃ w v, s = w ++ v ++ r ∧ Blank w ∧
    ((lex .between v).IsChain Fits → Separated v e) := by
  induction h with
  | @blank c _ _ _ hc _ ih =>
    obtain ⟨w, v, rfl, hw, hv⟩ := ih
    refine ⟨c :: w, v, rfl, fun x hx => ?_, hv⟩
    rcases List.mem_cons.mp hx with rfl | hx
    · exact hc
    · exact hw x hx
  | @text b r hb =>
    refine ⟨[], '"'.toUInt8 :: (b ++ ['"'.toUInt8]), ?_, blank_nil, fun _ => .string hb⟩
    rw [List.nil_append, List.cons_append, List.append_assoc, List.singleton_append]
  | @scalar v r e hs _ => exact ⟨[], v, rfl, blank_nil, fun _ => .scalar hs⟩
  | @container c d f r r' e hopen hclose =>
    obtain ⟨y, rfl, _, _, hcarries⟩ := closes_carries hclose
    obtain ⟨hstart, hprev, hopener⟩ := progress_opened hopen
    have hmark : isMark c = true := by
      rcases opened_cases hopen with ⟨rfl, _⟩ | ⟨rfl, _⟩
      · rfl
      · rfl
    refine ⟨[], c :: y, rfl, blank_nil, fun hfits => ?_⟩
    rw [lex_mark hmark] at hfits
    have hvalue := hcarries (z := []) hstart (by rw [hprev]; exact shows_mark hmark) (by rw [List.append_nil]; exact hfits)
    rw [hopener, List.nil_append] at hvalue
    exact hvalue.1

/-- In what `JsonParse` has read of a text when it succeeds, every separator is in its place exactly if no value
follows another token of a value directly and no comma an opening brace. -/
theorem separators_kept_iff {s : CString} {e : JsonElement} {p : ℕ} (h : jsonParse s.bytes = .ok (e, p)) :
    SeparatorsKept (s.bytes.take (p + 1)) e ↔ (lex .between (s.bytes.take (p + 1))).IsChain Fits := by
  refine ⟨fits_of_separatorsKept, fun hfits => ?_⟩
  obtain ⟨r, hheads, t, hsplit, hpos⟩ := jsonParse_heads h
  obtain ⟨w, v, hs, hw, hv⟩ := heads_separated hheads
  have htext : s.bytes.take (p + 1) = w ++ v := by
    rw [hpos, hsplit, List.take_left]
    exact List.append_cancel_right (hsplit.symm.trans hs)
  rw [htext] at hfits ⊢
  rw [lex_blank hw] at hfits
  exact ⟨w, v, rfl, hw, hv hfits⟩

theorem separators_kept_pair : SeparatorsKept (ascii "[1, 2]")
    (.array [.primitive .integer (ascii "1"), .primitive .integer (ascii "2")]) :=
  (separators_kept_iff (s := ⟨ascii "[1, 2]", by decide⟩) (p := 5) rfl).mpr (by decide)

/-- Two numbers need no comma between them, and a value no colon before it. -/
theorem separators_missing :
    (∃ e p, jsonParse (ascii "[1 2]") = .ok (e, p) ∧ ¬ SeparatorsKept ((ascii "[1 2]").take (p + 1)) e) ∧
      ∃ e p, jsonParse (ascii "\x7b\"a\" 1\x7d") = .ok (e, p) ∧ ¬ SeparatorsKept ((ascii "\x7b\"a\" 1\x7d").take (p + 1)) e := by
  refine ⟨⟨_, 4, rfl, fun h => ?_⟩, _, 6, rfl, fun h => ?_⟩
  · exact absurd (fits_of_separatorsKept h) (by decide)
  · exact absurd (fits_of_separatorsKept h) (by decide)

end Libntech.Json
