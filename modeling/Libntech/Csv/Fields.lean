import Libntech.Csv.ParserMeaning
import Mathlib.Data.List.Induction

/-! # The grammar of a CSV line

A line is fields with separators between them. A field is a text without quotes, or a text in quotes with blanks around
them (`CsvField`). What the automaton does with its state is known from the line alone (`nextState`): after each text it
stands in a place of the grammar (`Shape`), so it gives up on the malformed lines and on no others.
-/
namespace Libntech.Csv
set_option autoImplicit false

/-! ## Lines -/

def Blanks (text : List UInt8) : Prop := ∀ c ∈ text, csvclBlank c = true

/-- Neither a separator nor a quote. -/
def PlainText (text : List UInt8) : Prop := ∀ c ∈ text, plainByte c = true

/-- A field as it stands in a line. -/
inductive CsvField where
  | unquoted (text : List UInt8) (plain : PlainText text)
  | quoted (before body after : List UInt8) (hbefore : Blanks before) (hafter : Blanks after)

def CsvField.text : CsvField → List UInt8
  | .unquoted text _ => text
  | .quoted before body after _ _ => before ++ '"'.toUInt8 :: (doubled body ++ '"'.toUInt8 :: after)

/-- Fields with a separator behind each. -/
def ended (fields : List CsvField) : List UInt8 := fields.flatMap fun field => field.text ++ [','.toUInt8]

/-- A text whose last character is against the grammar: a quote in a field that has begun without one, or a character
behind a closing quote. -/
inductive Violation : List UInt8 → Prop where
  | stray (fields : List CsvField) {text : List UInt8} : PlainText text → ¬ Blanks text →
      Violation (ended fields ++ (text ++ ['"'.toUInt8]))
  | behind (fields : List CsvField) {before body after : List UInt8} {c : UInt8} (hbefore : Blanks before)
      (hafter : Blanks after) : csvclBlank c = false → csvclSep c = false → (csvclQuote c = true → after ≠ []) →
      Violation (ended fields ++ ((CsvField.quoted before body after hbefore hafter).text ++ [c]))

inductive Malformed : List UInt8 → Prop where
  | violated {front rest : List UInt8} : Violation front → Malformed (front ++ rest)
  | unclosed (fields : List CsvField) {before body : List UInt8} : Blanks before →
      Malformed (ended fields ++ (before ++ '"'.toUInt8 :: doubled body))

/-! ## The state alone -/

def nextState (state : CsvState) (c : UInt8) : CsvState :=
  match state with
  | .newLine | .preStartSpace | .separator =>
    if csvclSep c then .separator
    else if csvclBlank c then .preStartSpace
    else if csvclQuote c then .leadingQuote
    else .noQuoteMode
  | .noQuoteMode => if csvclSep c then .separator else if csvclQuote c then .error else .noQuoteMode
  | .leadingQuote | .withQuoteMode => if csvclQuote c then .internalQuote else .withQuoteMode
  | .internalQuote =>
    if csvclSep c then .separator
    else if csvclBlank c then .spaceAfterQuote
    else if csvclQuote c then .withQuoteMode
    else .error
  | .spaceAfterQuote => if csvclSep c then .separator else if csvclBlank c then .spaceAfterQuote else .error
  | .error => .error
  | .closed => .closed

/-- The state after a text. -/
def stateAfter (text : List UInt8) : CsvState := text.foldl nextState .newLine

theorem bind_ok {α β : Type} {x : Except Halt α} {f : α → Except Halt β} {b : β} (h : (x >>= f) = .ok b) :
    ∃ a, x = .ok a ∧ f a = .ok b := by
  cases x with
  | error e => cases h
  | ok a => exact ⟨a, rfl, h⟩

variable {c : UInt8} {m : Automaton} {halt : Halt} {before : List UInt8}

theorem bind_error {α β : Type} {x : Except Halt α} {f : α → Except Halt β} (h : (x >>= f) = .error halt) :
    x = .error halt ∨ ∃ a, x = .ok a ∧ f a = .error halt := by
  cases x with
  | error e =>
    obtain rfl := Except.error.inj h
    exact .inl rfl
  | ok a => exact .inr ⟨a, rfl, h⟩

theorem step_state {m' : Automaton} (h : step m c = .ok m') :
    m'.currentState = nextState m.currentState c := by
  unfold step at h
  unfold nextState
  cases hstate : m.currentState with
  | error => simp [hstate] at h
  | closed => simp [hstate] at h
  | _ =>
    simp only [hstate] at h ⊢
    split_ifs at h ⊢
    all_goals first
      | cases h; rfl
      | obtain ⟨m₁, -, h⟩ := bind_ok h; cases h; rfl
      | obtain ⟨m₁, -, h⟩ := bind_ok h; obtain ⟨m₂, -, h⟩ := bind_ok h; cases h; rfl

theorem put_error (h : m.put c = .error halt) : halt = .outOfBounds := by
  unfold Automaton.put at h
  split at h
  · cases h
    rfl
  · split at h
    · cases h
    · cases h
      rfl

theorem snatch_error (h : m.snatch c = .error halt) : halt = .outOfBounds := by
  obtain h | ⟨m₁, -, h⟩ := bind_error h
  · exact put_error h
  · cases h

theorem append_error (h : m.append = .error halt) : halt = .outOfBounds := by
  obtain h | ⟨field, -, h⟩ := bind_error h
  · unfold cString at h
    split at h
    · cases h
    · cases h
      rfl
  · cases h

theorem terminate_error (h : m.terminate = .error halt) : halt = .outOfBounds := by
  unfold Automaton.terminate at h
  split at h
  · cases h
  · exact put_error h

theorem step_failed {e : CsvParserError} (h : step m c = .error (.failed e)) :
    m.currentState = .error ∨ m.currentState = .closed := by
  have hput {m : Automaton} {c : UInt8} (h : m.put c = .error (.failed e)) : False := by cases put_error h
  have hsnatch {m : Automaton} {c : UInt8} (h : m.snatch c = .error (.failed e)) : False := by cases snatch_error h
  have happend {m : Automaton} (h : m.append = .error (.failed e)) : False := by cases append_error h
  have hterminate {m : Automaton} (h : m.terminate = .error (.failed e)) : False := by cases terminate_error h
  unfold step at h
  cases hstate : m.currentState with
  | error => exact .inl rfl
  | closed => exact .inr rfl
  | _ =>
    simp only [hstate] at h
    exfalso
    split_ifs at h
    all_goals
      obtain h | ⟨m₁, -, h⟩ := bind_error h
      · first
          | exact hput h
          | exact hsnatch h
          | exact happend h
          | exact hterminate h
      · first
          | cases h
          | obtain h | ⟨m₂, -, h⟩ := bind_error h
            · exact happend h
            · cases h

/-! ## The state after a text -/

theorem run_state {m' : Automaton} {text : List UInt8} (h : run m text = .ok m') :
    m'.currentState = text.foldl nextState m.currentState := by
  induction text generalizing m with
  | nil =>
    obtain rfl := Except.ok.inj h
    rfl
  | cons c text ih =>
    rw [run, List.foldlM_cons] at h
    obtain ⟨m₁, hstep, hrun⟩ := bind_ok h
    rw [ih hrun, step_state hstep, List.foldl_cons]

theorem run_halts {text : List UInt8} (h : run m text = .error halt) :
    ∃ front c rest m', text = front ++ c :: rest ∧ run m front = .ok m' ∧ step m' c = .error halt := by
  induction text generalizing m with
  | nil => cases h
  | cons c text ih =>
    rw [run, List.foldlM_cons] at h
    obtain h | ⟨m₁, hstep, hrun⟩ := bind_error h
    · exact ⟨[], c, text, m, rfl, rfl, h⟩
    · obtain ⟨front, d, rest, m', rfl, hfront, hlast⟩ := ih hrun
      exact ⟨c :: front, d, rest, m', rfl, (run_step hstep front).trans hfront, hlast⟩

/-! ## Where a text ends in the grammar -/

inductive Shape : List UInt8 → CsvState → Prop where
  | start : Shape [] .newLine
  | separated {fields : List CsvField} : fields ≠ [] → Shape (ended fields) .separator
  | blanks (fields : List CsvField) {text : List UInt8} : text ≠ [] → Blanks text →
      Shape (ended fields ++ text) .preStartSpace
  | plain (fields : List CsvField) {text : List UInt8} : PlainText text → ¬ Blanks text →
      Shape (ended fields ++ text) .noQuoteMode
  | opened (fields : List CsvField) {before : List UInt8} : Blanks before →
      Shape (ended fields ++ (before ++ ['"'.toUInt8])) .leadingQuote
  | inside (fields : List CsvField) {before body : List UInt8} : Blanks before → body ≠ [] →
      Shape (ended fields ++ (before ++ '"'.toUInt8 :: doubled body)) .withQuoteMode
  | closed (fields : List CsvField) {before body : List UInt8} (hbefore : Blanks before) (hafter : Blanks []) :
      Shape (ended fields ++ (CsvField.quoted before body [] hbefore hafter).text) .internalQuote
  | after (fields : List CsvField) {before body after : List UInt8} (hbefore : Blanks before) (hafter : Blanks after) :
      after ≠ [] → Shape (ended fields ++ (CsvField.quoted before body after hbefore hafter).text) .spaceAfterQuote
  | error {front rest : List UInt8} : Violation front → Shape (front ++ rest) .error

theorem blanks_nil : Blanks [] := fun _ h => absurd h List.not_mem_nil

theorem blanks_append {s t : List UInt8} : Blanks (s ++ t) ↔ Blanks s ∧ Blanks t := List.forall_mem_append

theorem blanks_singleton : Blanks [c] ↔ csvclBlank c = true := List.forall_mem_singleton

theorem plainText_append {s t : List UInt8} : PlainText (s ++ t) ↔ PlainText s ∧ PlainText t := List.forall_mem_append

theorem plainText_singleton : PlainText [c] ↔ plainByte c = true := List.forall_mem_singleton

theorem plainByte_iff : plainByte c = true ↔ csvclSep c = false ∧ csvclQuote c = false := by
  simp [plainByte]

theorem blank_plain (h : csvclBlank c = true) : plainByte c = true := by
  simp only [csvclBlank, Bool.or_eq_true, beq_iff_eq] at h
  rcases h with ((rfl | rfl) | rfl) | rfl
  all_goals decide

theorem Blanks.plain {text : List UInt8} (h : Blanks text) : PlainText text := fun c hc => blank_plain (h c hc)

theorem sep_eq (h : csvclSep c = true) : c = ','.toUInt8 := beq_iff_eq.mp h

theorem quote_eq (h : csvclQuote c = true) : c = '"'.toUInt8 := beq_iff_eq.mp h

theorem doubled_append (s t : List UInt8) : doubled (s ++ t) = doubled s ++ doubled t := by
  induction s with
  | nil => rfl
  | cons c s ih =>
    rw [List.cons_append, doubled, doubled, ih]
    split <;> rfl

theorem ended_snoc (fields : List CsvField) (field : CsvField) :
    ended (fields ++ [field]) = ended fields ++ (field.text ++ [','.toUInt8]) := by
  simp [ended]

theorem shape_ended (fields : List CsvField) (field : CsvField) :
    Shape (ended fields ++ (field.text ++ [','.toUInt8])) .separator := by
  rw [← ended_snoc]
  exact .separated (by simp)

/-- The next character of a field that has no character yet but blanks. -/
theorem shape_first (fields : List CsvField) {text : List UInt8} (h : Blanks text) (c : UInt8) :
    Shape (ended fields ++ (text ++ [c])) (nextState .newLine c) := by
  unfold nextState
  cases hsep : csvclSep c with
  | true =>
    obtain rfl := sep_eq hsep
    exact shape_ended fields (.unquoted text h.plain)
  | false =>
    cases hblank : csvclBlank c with
    | true => exact .blanks fields (by simp) (blanks_append.mpr ⟨h, blanks_singleton.mpr hblank⟩)
    | false =>
      cases hquote : csvclQuote c with
      | true =>
        obtain rfl := quote_eq hquote
        exact .opened fields h
      | false =>
        have hplain := plainText_singleton.mpr (plainByte_iff.mpr ⟨hsep, hquote⟩)
        refine .plain fields (plainText_append.mpr ⟨h.plain, hplain⟩) fun hblanks => ?_
        rw [blanks_append, blanks_singleton, hblank] at hblanks
        exact Bool.false_ne_true hblanks.2

theorem quoted_text (before body after : List UInt8) (hbefore : Blanks before) (hafter : Blanks after) :
    (CsvField.quoted before body after hbefore hafter).text =
      before ++ '"'.toUInt8 :: (doubled body ++ '"'.toUInt8 :: after) := rfl

theorem shape_body (fields : List CsvField) (hbefore : Blanks before) (body : List UInt8) (c : UInt8) :
    Shape (ended fields ++ (before ++ '"'.toUInt8 :: doubled body) ++ [c]) (nextState .withQuoteMode c) := by
  unfold nextState
  rw [List.append_assoc, List.append_assoc, List.cons_append]
  cases hquote : csvclQuote c with
  | true =>
    obtain rfl := quote_eq hquote
    exact .closed fields hbefore blanks_nil
  | false =>
    have hdoubled : doubled body ++ [c] = doubled (body ++ [c]) := by
      have hne : c ≠ '"'.toUInt8 := beq_eq_false_iff_ne.mp hquote
      rw [doubled_append, doubled, if_neg hne]
      rfl
    rw [hdoubled]
    exact .inside fields hbefore (by simp)

theorem shape_after (fields : List CsvField) {before body after : List UInt8} (hbefore : Blanks before)
    (hafter : Blanks after) {c : UInt8} (hquote : csvclQuote c = true → after ≠ []) :
    Shape (ended fields ++ (CsvField.quoted before body after hbefore hafter).text ++ [c])
      (nextState .spaceAfterQuote c) := by
  unfold nextState
  cases hsep : csvclSep c with
  | true =>
    obtain rfl := sep_eq hsep
    rw [List.append_assoc]
    exact shape_ended fields _
  | false =>
    cases hblank : csvclBlank c with
    | true =>
      have hblanks := blanks_append.mpr ⟨hafter, blanks_singleton.mpr hblank⟩
      have htext : (CsvField.quoted before body after hbefore hafter).text ++ [c] =
          (CsvField.quoted before body (after ++ [c]) hbefore hblanks).text := by simp [quoted_text]
      rw [List.append_assoc, htext]
      exact .after fields hbefore hblanks (by simp)
    | false =>
      have hviolation : Violation (ended fields ++ ((CsvField.quoted before body after hbefore hafter).text ++ [c])) :=
        .behind fields hbefore hafter hblank hsep hquote
      have herror : Shape (_ ++ []) .error := .error hviolation
      rw [List.append_nil, ← List.append_assoc] at herror
      exact herror

theorem Shape.next {text : List UInt8} {state : CsvState} (h : Shape text state) (c : UInt8) :
    Shape (text ++ [c]) (nextState state c) := by
  cases h with
  | start => exact shape_first [] blanks_nil c
  | @separated fields _ =>
    have hfirst := shape_first fields blanks_nil c
    rw [List.nil_append] at hfirst
    exact hfirst
  | blanks fields hne hblanks =>
    rw [List.append_assoc]
    exact shape_first fields hblanks c
  | @plain fields text hplain hblanks =>
    unfold nextState
    rw [List.append_assoc]
    cases hsep : csvclSep c with
    | true =>
      obtain rfl := sep_eq hsep
      exact shape_ended fields (.unquoted text hplain)
    | false =>
      cases hquote : csvclQuote c with
      | true =>
        obtain rfl := quote_eq hquote
        have herror : Shape (_ ++ []) .error := .error (.stray fields hplain hblanks)
        rw [List.append_nil] at herror
        exact herror
      | false =>
        refine .plain fields (plainText_append.mpr ⟨hplain, plainText_singleton.mpr (plainByte_iff.mpr ⟨hsep, hquote⟩)⟩) ?_
        exact fun h => hblanks (blanks_append.mp h).1
  | opened fields hbefore => exact shape_body fields hbefore [] c
  | @inside fields before body hbefore hne => exact shape_body fields hbefore body c
  | @closed fields before body hbefore hafter =>
    by_cases hquote : csvclQuote c = true
    · obtain rfl := quote_eq hquote
      have htext : (CsvField.quoted before body [] hbefore hafter).text ++ ['"'.toUInt8] =
          before ++ '"'.toUInt8 :: doubled (body ++ ['"'.toUInt8]) := by simp [quoted_text, doubled_append, doubled]
      rw [List.append_assoc, htext]
      exact .inside fields hbefore (by simp)
    · have hafter' := @shape_after fields before body [] hbefore hafter c fun h => absurd h hquote
      have hstate : nextState .internalQuote c = nextState .spaceAfterQuote c := by
        rw [Bool.not_eq_true] at hquote
        simp only [nextState, hquote, Bool.false_eq_true, if_false]
      rw [hstate]
      exact hafter'
  | after fields hbefore hafter hne => exact shape_after fields hbefore hafter fun _ => hne
  | @error front rest hviolation =>
    rw [List.append_assoc]
    exact .error hviolation

theorem shape_stateAfter (text : List UInt8) : Shape text (stateAfter text) := by
  induction text using List.reverseRecOn with
  | nil => exact .start
  | append_singleton text c ih =>
    rw [stateAfter, List.foldl_append]
    exact ih.next c

/-! ## The state where a text ends -/

theorem foldl_plain {text : List UInt8} (h : PlainText text) (hblanks : ¬ Blanks text) :
    text.foldl nextState .preStartSpace = .noQuoteMode := by
  have hrest {text : List UInt8} (h : PlainText text) : text.foldl nextState .noQuoteMode = .noQuoteMode := by
    induction text with
    | nil => rfl
    | cons c text ih =>
      obtain ⟨hsep, hquote⟩ := plainByte_iff.mp (h c List.mem_cons_self)
      have hstep : nextState .noQuoteMode c = .noQuoteMode := by simp [nextState, hsep, hquote]
      rw [List.foldl_cons, hstep, ih fun d hd => h d (List.mem_cons_of_mem _ hd)]
  induction text with
  | nil => exact absurd blanks_nil hblanks
  | cons c text ih =>
    obtain ⟨hsep, hquote⟩ := plainByte_iff.mp (h c List.mem_cons_self)
    have htail : PlainText text := fun d hd => h d (List.mem_cons_of_mem _ hd)
    cases hblank : csvclBlank c with
    | true =>
      have hstep : nextState .preStartSpace c = .preStartSpace := by simp [nextState, hsep, hblank]
      rw [List.foldl_cons, hstep]
      exact ih htail fun hall => hblanks (List.forall_mem_cons.mpr ⟨hblank, hall⟩)
    | false =>
      have hstep : nextState .preStartSpace c = .noQuoteMode := by simp [nextState, hsep, hblank, hquote]
      rw [List.foldl_cons, hstep, hrest htail]

theorem blank_class (h : csvclBlank c = true) : csvclSep c = false ∧ csvclQuote c = false :=
  plainByte_iff.mp (blank_plain h)

theorem foldl_blanks {text : List UInt8} (h : Blanks text) : text.foldl nextState .preStartSpace = .preStartSpace := by
  induction text with
  | nil => rfl
  | cons c text ih =>
    have hblank := h c List.mem_cons_self
    have hstep : nextState .preStartSpace c = .preStartSpace := by simp [nextState, blank_class hblank, hblank]
    rw [List.foldl_cons, hstep, ih fun d hd => h d (List.mem_cons_of_mem _ hd)]

theorem foldl_doubled (body : List UInt8) : (doubled body).foldl nextState .withQuoteMode = .withQuoteMode := by
  induction body with
  | nil => rfl
  | cons c body ih =>
    rw [doubled]
    split
    next hquote =>
      rw [hquote]
      exact ih
    next hquote =>
      have hstep : nextState .withQuoteMode c = .withQuoteMode := by
        simp [nextState, csvclQuote, hquote]
      rw [List.foldl_cons, hstep, ih]

theorem foldl_after {after : List UInt8} (h : Blanks after) :
    after.foldl nextState .spaceAfterQuote = .spaceAfterQuote := by
  induction after with
  | nil => rfl
  | cons c after ih =>
    have hblank := h c List.mem_cons_self
    have hstep : nextState .spaceAfterQuote c = .spaceAfterQuote := by simp [nextState, blank_class hblank, hblank]
    rw [List.foldl_cons, hstep, ih fun d hd => h d (List.mem_cons_of_mem _ hd)]

theorem foldl_error (text : List UInt8) : text.foldl nextState .error = .error := by
  induction text with
  | nil => rfl
  | cons c text ih => exact ih

/-- A text that begins in one of the states before a field is read as from the third of them. -/
theorem foldl_before {text : List UInt8} (hne : text ≠ []) {state : CsvState} (h : state = .newLine ∨ state = .separator) :
    text.foldl nextState state = text.foldl nextState .preStartSpace := by
  obtain ⟨c, text, rfl⟩ := List.exists_cons_of_ne_nil hne
  rcases h with rfl | rfl
  all_goals rfl

theorem foldl_open (h : Blanks before) (body : List UInt8) :
    (before ++ '"'.toUInt8 :: doubled body).foldl nextState .preStartSpace =
      if body = [] then .leadingQuote else .withQuoteMode := by
  have hopen : nextState .preStartSpace '"'.toUInt8 = .leadingQuote := rfl
  rw [List.foldl_append, foldl_blanks h, List.foldl_cons, hopen]
  split
  next hnil =>
    rw [hnil]
    rfl
  next hne =>
    obtain ⟨c, rest, hcons⟩ : ∃ c rest, doubled body = c :: rest := by
      obtain ⟨c, body, rfl⟩ := List.exists_cons_of_ne_nil hne
      rw [doubled]
      split
      all_goals exact ⟨_, _, rfl⟩
    have hsame : (doubled body).foldl nextState .leadingQuote = (doubled body).foldl nextState .withQuoteMode := by
      rw [hcons]
      rfl
    rw [hsame, foldl_doubled]

theorem foldl_quoted {after : List UInt8} (body : List UInt8) (hbefore : Blanks before) (hafter : Blanks after) :
    (CsvField.quoted before body after hbefore hafter).text.foldl nextState .preStartSpace =
      if after = [] then .internalQuote else .spaceAfterQuote := by
  have htext : (CsvField.quoted before body after hbefore hafter).text =
      (before ++ '"'.toUInt8 :: doubled body) ++ '"'.toUInt8 :: after := by simp [quoted_text]
  have hclose : nextState (if body = [] then .leadingQuote else .withQuoteMode) '"'.toUInt8 = .internalQuote := by
    split
    all_goals rfl
  rw [htext, List.foldl_append, foldl_open hbefore, List.foldl_cons, hclose]
  cases after with
  | nil => rfl
  | cons c after =>
    have hblank := hafter c List.mem_cons_self
    have hstep : nextState .internalQuote c = .spaceAfterQuote := by simp [nextState, blank_class hblank, hblank]
    rw [List.foldl_cons, hstep, foldl_after fun d hd => hafter d (List.mem_cons_of_mem _ hd), if_neg (List.cons_ne_nil _ _)]

theorem foldl_field (field : CsvField) : nextState (field.text.foldl nextState .preStartSpace) ','.toUInt8 = .separator := by
  cases field with
  | unquoted text plain =>
    by_cases hblanks : Blanks text
    · show nextState (text.foldl nextState .preStartSpace) ','.toUInt8 = _
      rw [foldl_blanks hblanks]
      rfl
    · show nextState (text.foldl nextState .preStartSpace) ','.toUInt8 = _
      rw [foldl_plain plain hblanks]
      rfl
  | quoted before body after hbefore hafter =>
    rw [foldl_quoted]
    split
    all_goals rfl

theorem stateAfter_ended {fields : List CsvField} (h : fields ≠ []) : stateAfter (ended fields) = .separator := by
  induction fields using List.reverseRecOn with
  | nil => exact absurd rfl h
  | append_singleton fields field ih =>
    have hfresh : stateAfter (ended fields) = .newLine ∨ stateAfter (ended fields) = .separator := by
      cases fields with
      | nil => exact .inl rfl
      | cons first fields => exact .inr (ih (List.cons_ne_nil _ _))
    have hne : field.text ++ [','.toUInt8] ≠ [] := by simp
    rw [ended_snoc, stateAfter, List.foldl_append]
    show List.foldl _ (stateAfter _) _ = _
    rw [foldl_before hne hfresh, List.foldl_append]
    exact foldl_field field

/-- Behind complete fields a text is read as at the beginning of the line. -/
theorem stateAfter_behind (fields : List CsvField) {text : List UInt8} (hne : text ≠ []) :
    stateAfter (ended fields ++ text) = text.foldl nextState .preStartSpace := by
  rw [stateAfter, List.foldl_append]
  cases fields with
  | nil => exact foldl_before hne (.inl rfl)
  | cons first fields => exact foldl_before hne (.inr (stateAfter_ended (List.cons_ne_nil _ _)))

theorem plain_ne_nil {text : List UInt8} (h : ¬ Blanks text) : text ≠ [] := by
  rintro rfl
  exact h blanks_nil

theorem quoted_ne_nil (before body after : List UInt8) (hbefore : Blanks before) (hafter : Blanks after) :
    (CsvField.quoted before body after hbefore hafter).text ≠ [] := by simp [quoted_text]

theorem Violation.state {text : List UInt8} (h : Violation text) :
    stateAfter text = .error ∧ ∃ front c, text = front ++ [c] ∧ stateAfter front ≠ .error := by
  cases h with
  | stray fields hplain hblanks =>
    have hstate := stateAfter_behind fields (plain_ne_nil hblanks)
    rw [foldl_plain hplain hblanks] at hstate
    refine ⟨?_, _, _, (List.append_assoc ..).symm, by rw [hstate]; decide⟩
    rw [← List.append_assoc, stateAfter, List.foldl_append]
    show nextState (stateAfter _) _ = _
    rw [hstate]
    rfl
  | @behind fields before body after c hbefore hafter hblank hsep hquote =>
    have hstate := stateAfter_behind fields (quoted_ne_nil before body after hbefore hafter)
    rw [foldl_quoted] at hstate
    refine ⟨?_, _, _, (List.append_assoc ..).symm, by rw [hstate]; split <;> decide⟩
    rw [← List.append_assoc, stateAfter, List.foldl_append]
    show nextState (stateAfter _) c = _
    rw [hstate]
    split
    next hnil =>
      have hno : csvclQuote c = false := by
        rw [← Bool.not_eq_true]
        exact fun h => hquote h hnil
      simp [nextState, hblank, hsep, hno]
    next => simp [nextState, hblank, hsep]

theorem Shape.state_eq {text : List UInt8} {state : CsvState} (h : Shape text state) : stateAfter text = state := by
  cases h with
  | start => rfl
  | separated hne => exact stateAfter_ended hne
  | blanks fields hne hblanks => rw [stateAfter_behind fields hne, foldl_blanks hblanks]
  | plain fields hplain hblanks => rw [stateAfter_behind fields (plain_ne_nil hblanks), foldl_plain hplain hblanks]
  | opened fields hbefore =>
    rw [stateAfter_behind fields (by simp)]
    exact foldl_open hbefore []
  | inside fields hbefore hne => rw [stateAfter_behind fields (by simp), foldl_open hbefore, if_neg hne]
  | closed fields hbefore hafter =>
    rw [stateAfter_behind fields (quoted_ne_nil _ _ _ _ _), foldl_quoted, if_pos rfl]
  | after fields hbefore hafter hne => rw [stateAfter_behind fields (quoted_ne_nil _ _ _ _ _), foldl_quoted, if_neg hne]
  | error hviolation =>
    rw [stateAfter, List.foldl_append]
    show List.foldl _ (stateAfter _) _ = _
    rw [hviolation.state.1, foldl_error]

theorem malformed_iff (line : List UInt8) :
    Malformed line ↔ stateAfter line = .error ∨ stateAfter line = .leadingQuote ∨ stateAfter line = .withQuoteMode := by
  constructor
  · intro h
    cases h with
    | violated hviolation => exact .inl (Shape.error hviolation).state_eq
    | unclosed fields hbefore =>
      rw [stateAfter_behind fields (by simp), foldl_open hbefore]
      split
      · exact .inr (.inl rfl)
      · exact .inr (.inr rfl)
  · intro h
    have hshape := shape_stateAfter line
    generalize stateAfter line = state at h hshape
    cases hshape with
    | @opened fields before hbefore => exact @Malformed.unclosed fields before [] hbefore
    | inside fields hbefore _ => exact .unclosed fields hbefore
    | error hviolation => exact .violated hviolation
    | _ => simp at h

/-- A line that is not malformed is fields with separators between them. -/
theorem wellformed_iff (line : List UInt8) :
    ¬ Malformed line ↔ ∃ fields last, line = ended fields ++ CsvField.text last := by
  rw [malformed_iff]
  constructor
  · intro h
    have hshape := shape_stateAfter line
    generalize stateAfter line = state at h hshape
    have hnil : PlainText [] := blanks_nil.plain
    cases hshape with
    | start => exact ⟨[], .unquoted [] hnil, rfl⟩
    | @separated fields _ => exact ⟨fields, .unquoted [] hnil, (List.append_nil _).symm⟩
    | blanks fields _ hblanks => exact ⟨fields, .unquoted _ hblanks.plain, rfl⟩
    | plain fields hplain _ => exact ⟨fields, .unquoted _ hplain, rfl⟩
    | closed fields hbefore hafter => exact ⟨fields, _, rfl⟩
    | after fields hbefore hafter _ => exact ⟨fields, _, rfl⟩
    | _ => simp at h
  · rintro ⟨fields, last, rfl⟩
    have hend := foldl_field last
    by_cases hne : last.text = []
    · rw [hne, List.append_nil]
      cases fields with
      | nil => decide
      | cons first fields =>
        rw [stateAfter_ended (List.cons_ne_nil _ _)]
        decide
    · rw [stateAfter_behind fields hne]
      generalize last.text.foldl nextState .preStartSpace = state at hend
      rintro (rfl | rfl | rfl)
      all_goals cases hend

end Libntech.Csv
