import Libntech.Containers.SequenceMeaning
import Libntech.Csv.Parser
import Libntech.Csv.Writer
import Libntech.Lib.Terminated

/-! # What the CSV automaton reads in a written field

A written field starts with the automaton at the beginning of the line or behind a separator (`Fresh`). While the
field is read, the buffer is the part read so far and the bytes of earlier fields behind it (`holding`).
-/
namespace Libntech.Csv
set_option autoImplicit false

open Libntech.Containers

/-! ## The buffer -/

/-- The automaton with `text` in its buffer and `sn` right behind it. -/
def holding (text tail : List UInt8) (state : CsvState) (list : List (List UInt8)) : Automaton :=
  { snatched := text ++ tail, sn := some text.length, currentState := state, newlist := list }

theorem holding_currentState (text tail : List UInt8) (state : CsvState) (list : List (List UInt8)) :
    (holding text tail state list).currentState = state := rfl

theorem put_holding (text tail : List UInt8) (a c : UInt8) (state : CsvState) (list : List (List UInt8)) :
    (holding text (a :: tail) state list).put c = .ok (holding text (c :: tail) state list) := by
  unfold Automaton.put holding
  simp

theorem snatch_holding (text tail : List UInt8) (a c : UInt8) (state : CsvState) (list : List (List UInt8)) :
    (holding text (a :: tail) state list).snatch c = .ok (holding (text ++ [c]) tail state list) := by
  unfold Automaton.snatch
  rw [put_holding]
  simp [holding, bind, Except.bind]

theorem cString_append (text tail : List UInt8) (hnul : 0 ∉ text) : cString (text ++ 0 :: tail) = .ok text := by
  unfold cString
  rw [if_pos (by simp), Lib.takeWhile_ne_terminated hnul]

theorem append_holding (text tail : List UInt8) (state : CsvState) (list : List (List UInt8)) (hnul : 0 ∉ text) :
    (holding text (0 :: tail) state list).append = .ok (holding text (0 :: tail) state (list ++ [text])) := by
  unfold Automaton.append holding
  rw [cString_append text tail hnul]
  rfl

theorem ok_bind {α β : Type} (a : α) (f : α → Except Halt β) : ((.ok a : Except Halt α) >>= f) = f a := rfl

variable {m : Automaton} {f snatched : List UInt8} {list : List (List UInt8)} {size : ℕ} {c : UInt8}

theorem run_step {m' : Automaton} (h : step m c = .ok m') (t : List UInt8) : run m (c :: t) = run m' t := by
  unfold run
  rw [List.foldlM_cons, h]
  rfl

theorem run_append {m' : Automaton} {s : List UInt8} (h : run m s = .ok m') (t : List UInt8) :
    run m (s ++ t) = run m' t := by
  unfold run at h ⊢
  rw [List.foldlM_append, h]
  rfl

/-! ## Bytes outside quotes -/

/-- Inside a field that is not quoted. -/
def Plain (state : CsvState) : Prop := state = .preStartSpace ∨ state = .noQuoteMode

/-- Neither a separator nor a quote. -/
def plainByte (c : UInt8) : Bool := !csvclSep c && !csvclQuote c

/-- At the beginning of the line or right behind a separator. -/
structure Fresh (m : Automaton) (list : List (List UInt8)) (size : ℕ) : Prop where
  newlist : m.newlist = list
  size : m.snatched.length = size
  state : (m.currentState = .newLine ∧ m.sn = some 0) ∨ (m.currentState = .separator ∧ m.sn = none)

theorem step_plain (text tail : List UInt8) (a c : UInt8) (state : CsvState) (list : List (List UInt8))
    (hstate : Plain state) (hc : plainByte c = true) : ∃ state', Plain state' ∧
      step (holding text (a :: tail) state list) c = .ok (holding (text ++ [c]) tail state' list) := by
  unfold plainByte at hc
  rw [Bool.and_eq_true, Bool.not_eq_true', Bool.not_eq_true'] at hc
  obtain ⟨hsep, hquote⟩ := hc
  obtain rfl | rfl := hstate
  · cases hblank : csvclBlank c with
    | true =>
      refine ⟨.preStartSpace, .inl rfl, ?_⟩
      simp only [step, holding_currentState, hsep, hblank, Bool.false_eq_true, if_false, if_true, snatch_holding]
      rfl
    | false =>
      refine ⟨.noQuoteMode, .inr rfl, ?_⟩
      simp only [step, holding_currentState, hsep, hblank, hquote, Bool.false_eq_true, if_false, snatch_holding]
      rfl
  · refine ⟨.noQuoteMode, .inr rfl, ?_⟩
    simp only [step, holding_currentState, hsep, hquote, Bool.false_eq_true, if_false, snatch_holding]
    rfl

theorem run_plain (f text tail : List UInt8) (state : CsvState) (list : List (List UInt8)) (hstate : Plain state)
    (hf : ∀ c ∈ f, plainByte c = true) (hroom : f.length < tail.length) :
    ∃ state', Plain state' ∧
      run (holding text tail state list) f = .ok (holding (text ++ f) (tail.drop f.length) state' list) := by
  induction f generalizing text tail state with
  | nil => exact ⟨state, hstate, by rw [List.append_nil]; rfl⟩
  | cons c f ih =>
    cases tail with
    | nil => exact absurd hroom (Nat.not_lt_zero _)
    | cons a tail =>
      obtain ⟨state₁, hstate₁, hstep⟩ := step_plain text tail a c state list hstate (hf c List.mem_cons_self)
      obtain ⟨state₂, hstate₂, hrun⟩ := ih (text ++ [c]) tail state₁ hstate₁
        (fun d hd => hf d (List.mem_cons_of_mem c hd)) (by simpa using hroom)
      refine ⟨state₂, hstate₂, ?_⟩
      rw [run_step hstep, List.append_cons text c f]
      exact hrun

theorem step_first (hfresh : Fresh m list (size + 1)) (c : UInt8) (hc : plainByte c = true) : ∃ state, Plain state ∧
      step m c = .ok (holding [c] (m.snatched.drop 1) state list) := by
  unfold plainByte at hc
  rw [Bool.and_eq_true, Bool.not_eq_true', Bool.not_eq_true'] at hc
  obtain ⟨hsep, hquote⟩ := hc
  obtain ⟨snatched, sn, state, newlist⟩ := m
  obtain ⟨hlist, hsize, hstate⟩ := hfresh
  simp only at hlist hsize hstate
  subst hlist
  cases snatched with
  | nil => cases hsize
  | cons a tail =>
    -- both states go the same way: a blank may still be in front of a quoted field
    have hturn : step ⟨a :: tail, sn, state, newlist⟩ c =
        .ok (holding [c] tail (if csvclBlank c then .preStartSpace else .noQuoteMode) newlist) := by
      have hsnatch := snatch_holding [] tail a c
      obtain ⟨rfl, rfl⟩ | ⟨rfl, rfl⟩ := hstate
      all_goals
        cases hblank : csvclBlank c with
        | true =>
          simp only [step, hsep, hblank, Bool.false_eq_true, if_false, if_true]
          exact congrArg (· >>= _) (hsnatch _ newlist)
        | false =>
          simp only [step, hsep, hblank, hquote, Bool.false_eq_true, if_false]
          exact congrArg (· >>= _) (hsnatch _ newlist)
    refine ⟨_, ?_, hturn⟩
    split
    · exact .inl rfl
    · exact .inr rfl

theorem run_first (hfresh : Fresh m list size) (hne : f ≠ []) (hf : ∀ c ∈ f, plainByte c = true)
    (hroom : f.length < size) :
    ∃ state, Plain state ∧ run m f = .ok (holding f (m.snatched.drop f.length) state list) := by
  cases f with
  | nil => exact absurd rfl hne
  | cons c f =>
    cases size with
    | zero => exact absurd hroom (Nat.not_lt_zero _)
    | succ size =>
      have hsize := hfresh.size
      obtain ⟨state, hstate, hstep⟩ := step_first hfresh c (hf c List.mem_cons_self)
      obtain ⟨state', hstate', hrun⟩ := run_plain f [c] (m.snatched.drop 1) state list hstate
        (fun d hd => hf d (List.mem_cons_of_mem c hd)) (by rw [List.length_cons] at hroom; rw [List.length_drop]; omega)
      refine ⟨state', hstate', ?_⟩
      rw [List.drop_drop, Nat.add_comm] at hrun
      rw [run_step hstep]
      exact hrun

theorem Fresh.room {n : ℕ} (hfresh : Fresh m list size) (h : n < size) :
    ∃ a, m.snatched.drop n = a :: m.snatched.drop (n + 1) := ⟨_, List.drop_eq_getElem_cons (hfresh.size ▸ h)⟩

/-! ## Bytes between quotes -/

theorem step_quoted (text tail : List UInt8) (a c : UInt8) (list : List (List UInt8)) (hc : csvclQuote c = false) :
    step (holding text (a :: tail) .withQuoteMode list) c = .ok (holding (text ++ [c]) tail .withQuoteMode list) := by
  simp only [step, holding_currentState, hc, Bool.false_eq_true, if_false, snatch_holding]
  rfl

theorem step_quote (text tail : List UInt8) (list : List (List UInt8)) :
    step (holding text tail .withQuoteMode list) '"'.toUInt8 = .ok (holding text tail .internalQuote list) := rfl

theorem step_doubled (text tail : List UInt8) (a : UInt8) (list : List (List UInt8)) :
    step (holding text (a :: tail) .internalQuote list) '"'.toUInt8 =
      .ok (holding (text ++ ['"'.toUInt8]) tail .withQuoteMode list) :=
  congrArg (· >>= _) (snatch_holding text tail a '"'.toUInt8 .internalQuote list)

theorem run_doubled (f text tail : List UInt8) (list : List (List UInt8)) (hroom : f.length < tail.length) :
    run (holding text tail .withQuoteMode list) (doubled f) =
      .ok (holding (text ++ f) (tail.drop f.length) .withQuoteMode list) := by
  induction f generalizing text tail with
  | nil =>
    rw [List.append_nil]
    rfl
  | cons c f ih =>
    cases tail with
    | nil => exact absurd hroom (Nat.not_lt_zero _)
    | cons a tail =>
      have hrun := ih (text ++ [c]) tail (by simpa using hroom)
      rw [doubled, List.append_cons text c f, List.length_cons, List.drop_succ_cons, ← hrun]
      split
      next hquote =>
        subst hquote
        rw [run_step (step_quote text (a :: tail) list), run_step (step_doubled text tail a list)]
      next hquote =>
        rw [run_step (step_quoted text tail a c list (beq_eq_false_iff_ne.mpr hquote))]

theorem run_opened (list : List (List UInt8)) (hne : f ≠ []) (hroom : f.length < snatched.length) :
    run ⟨snatched, none, .leadingQuote, list⟩ (doubled f) =
      .ok (holding f (snatched.drop f.length) .withQuoteMode list) := by
  obtain ⟨c, f, rfl⟩ := List.exists_cons_of_ne_nil hne
  cases snatched with
  | nil => exact absurd hroom (Nat.not_lt_zero _)
  | cons a tail =>
    have hrun := run_doubled f [c] tail list (by simpa using hroom)
    rw [doubled]
    split
    next hquote =>
      subst hquote
      have hstep : step ⟨a :: tail, none, .leadingQuote, list⟩ '"'.toUInt8 =
          .ok (holding [] (a :: tail) .internalQuote list) := rfl
      rw [run_step hstep, run_step (step_doubled [] tail a list)]
      exact hrun
    next hquote =>
      have hstep : step ⟨a :: tail, none, .leadingQuote, list⟩ c = .ok (holding [c] tail .withQuoteMode list) := by
        simp only [step, csvclQuote, beq_eq_false_iff_ne.mpr hquote, Bool.false_eq_true, if_false]
        exact congrArg (· >>= _) (snatch_holding [] tail a c .leadingQuote list)
      rw [run_step hstep]
      exact hrun

theorem run_body (f : List UInt8) (list : List (List UInt8)) (hroom : f.length < snatched.length) :
    run ⟨snatched, none, .leadingQuote, list⟩ (doubled f ++ ['"'.toUInt8]) =
      .ok (holding f (snatched.drop f.length) .internalQuote list) := by
  by_cases hnil : f = []
  · rw [hnil]
    rfl
  · rw [run_append (run_opened list hnil hroom)]
    rfl

theorem run_escaped (hfresh : Fresh m list size) (hne : f ≠ []) (hroom : f.length < size) :
    run m ('"'.toUInt8 :: (doubled f ++ ['"'.toUInt8])) = .ok (holding f (m.snatched.drop f.length) .internalQuote list) := by
  obtain ⟨snatched, sn, state, newlist⟩ := m
  obtain ⟨hlist, hsize, hstate⟩ := hfresh
  simp only at hlist hsize hstate
  subst hlist
  have hopen : step ⟨snatched, sn, state, newlist⟩ '"'.toUInt8 = .ok ⟨snatched.set 0 0, none, .leadingQuote, newlist⟩ := by
    obtain ⟨rfl, rfl⟩ | ⟨rfl, rfl⟩ := hstate
    · rfl
    · rfl
  have hpos := List.length_pos_iff.mpr hne
  rw [run_step hopen, run_body f newlist (by rw [List.length_set]; omega), List.drop_set_of_lt hpos]

/-! ## The end of a field -/

/-- The bytes of a field that is not escaped, as far as they are written. -/
def kept (f : List UInt8) : List UInt8 := if f.any special then f else f.take intMax

/-- What the buffer still holds behind the separator of a field. -/
def leftover (f : List UInt8) : List UInt8 := if f.any special then f else []

theorem kept_of_special (h : f.any special = true) : kept f = f := if_pos h

theorem fieldText_of_special (h : f.any special = true) :
    fieldText f = '"'.toUInt8 :: (doubled f ++ ['"'.toUInt8]) := if_pos h

theorem fieldText_of_plain (h : ¬ f.any special = true) : fieldText f = kept f := by
  rw [fieldText, kept, if_neg h, if_neg h]

theorem ne_nil_of_special (h : f.any special = true) : f ≠ [] := by
  intro hnil
  rw [hnil] at h
  cases h

theorem kept_plain (h : ¬ f.any special = true) (hc : c ∈ kept f) : special c = false := by
  rw [kept, if_neg h] at hc
  rw [List.any_eq_true, not_exists] at h
  have hnot := h c
  rw [not_and, Bool.not_eq_true] at hnot
  exact hnot (List.mem_of_mem_take hc)

theorem plainByte_of_special (h : special c = false) : plainByte c = true := by
  unfold special at h
  unfold plainByte csvclSep csvclQuote
  simp only [Bool.or_eq_false_iff] at h
  simp [h.1.1.1, h.1.1.2]

theorem kept_ne_nil (h : f ≠ []) : kept f ≠ [] := by
  unfold kept
  split
  · exact h
  · intro hnil
    rw [List.take_eq_nil_iff] at hnil
    obtain hzero | hnil := hnil
    · cases hzero
    · exact h hnil

theorem kept_nul_free (f : Field) : 0 ∉ kept f.bytes := by
  unfold kept
  split
  · exact f.nul_free
  · exact fun h => f.nul_free (List.mem_of_mem_take h)

theorem kept_length (f : List UInt8) : (kept f).length ≤ (fieldText f).length := by
  by_cases h : f.any special = true
  · have hdoubled : ∀ s : List UInt8, s.length ≤ (doubled s).length := by
      intro s
      induction s with
      | nil => exact Nat.le_refl 0
      | cons c s ih =>
        rw [doubled]
        split
        · simp only [List.length_cons]
          omega
        · simp only [List.length_cons]
          omega
    have hle := hdoubled f
    rw [kept_of_special h, fieldText_of_special h]
    simp only [List.length_cons, List.length_append]
    omega
  · rw [fieldText_of_plain h]

/-- The separator ends a field that is not quoted, and clears the buffer. -/
theorem step_sep_plain (text tail : List UInt8) (a : UInt8) (state : CsvState) (list : List (List UInt8))
    (hstate : Plain state) (hnul : 0 ∉ text) : step (holding text (a :: tail) state list) ','.toUInt8 =
      .ok ⟨(text ++ 0 :: tail).set 0 0, none, .separator, list ++ [text]⟩ := by
  obtain rfl | rfl := hstate
  · show ((holding text (a :: tail) .preStartSpace list).put 0 >>= _) = _
    simp only [put_holding, ok_bind, append_holding text tail .preStartSpace list hnul]
    rfl
  · show ((holding text (a :: tail) .noQuoteMode list).put 0 >>= _) = _
    simp only [put_holding, ok_bind, append_holding text tail .noQuoteMode list hnul]
    rfl

/-- The separator ends a quoted field, which stays in the buffer. -/
theorem step_sep_quoted (text tail : List UInt8) (a : UInt8) (list : List (List UInt8)) (hnul : 0 ∉ text) :
    step (holding text (a :: tail) .internalQuote list) ','.toUInt8 =
      .ok ⟨text ++ 0 :: tail, none, .separator, list ++ [text]⟩ := by
  show ((holding text (a :: tail) .internalQuote list).put 0 >>= _) = _
  simp only [put_holding, ok_bind, append_holding text tail .internalQuote list hnul]
  rfl

theorem cString_cleared (h : snatched ≠ []) : cString (snatched.set 0 0) = .ok [] := by
  cases snatched with
  | nil => exact absurd rfl h
  | cons a tail => exact cString_append [] tail (List.not_mem_nil)

theorem step_sep_fresh (hfresh : Fresh m list size) (hroom : 0 < size) :
    step m ','.toUInt8 = .ok ⟨m.snatched.set 0 0, none, .separator, list ++ [[]]⟩ := by
  obtain ⟨snatched, sn, state, newlist⟩ := m
  obtain ⟨hlist, hsize, hstate⟩ := hfresh
  simp only at hlist hsize hstate
  subst hlist
  obtain ⟨rfl, rfl⟩ | ⟨rfl, rfl⟩ := hstate
  · show (Automaton.put ⟨snatched, some 0, .newLine, newlist⟩ 0 >>= _) = _
    simp only [Automaton.put, hsize, hroom, if_true]
    rfl
  · have hne : snatched ≠ [] := by
      intro hnil
      rw [hnil, List.length_nil] at hsize
      omega
    show (Automaton.append ⟨snatched.set 0 0, none, .separator, newlist⟩ >>= _) = _
    simp only [Automaton.append, cString_cleared hne]
    rfl

theorem run_separated (hfresh : Fresh m list size) (f : Field) (hroom : (fieldText f.bytes).length < size) :
    ∃ m', run m (fieldText f.bytes ++ [','.toUInt8]) = .ok m' ∧ Fresh m' (list ++ [kept f.bytes]) size ∧
      m'.currentState = .separator ∧ cString m'.snatched = .ok (leftover f.bytes) := by
  have hle := kept_length f.bytes
  by_cases hspecial : f.bytes.any special = true
  · rw [kept_of_special hspecial] at hle ⊢
    rw [fieldText_of_special hspecial, leftover, if_pos hspecial] at *
    have hsize := hfresh.size
    have hrun := run_escaped hfresh (ne_nil_of_special hspecial) (by omega)
    obtain ⟨a, htail⟩ := hfresh.room (n := f.bytes.length) (by omega)
    rw [htail] at hrun
    refine ⟨⟨f.bytes ++ 0 :: m.snatched.drop (f.bytes.length + 1), none, .separator, list ++ [f.bytes]⟩, ?_,
      ⟨rfl, ?_, .inr ⟨rfl, rfl⟩⟩, rfl, cString_append _ _ f.nul_free⟩
    · rw [run_append hrun, run_step (step_sep_quoted f.bytes _ a list f.nul_free)]
      rfl
    · simp only [List.length_append, List.length_cons, List.length_drop]
      omega
  · rw [fieldText_of_plain hspecial] at *
    rw [leftover, if_neg hspecial]
    by_cases hnil : kept f.bytes = []
    · rw [hnil, List.nil_append]
      have hpos : 0 < size := by omega
      have hne : m.snatched ≠ [] := by
        intro h
        have hsize := hfresh.size
        rw [h, List.length_nil] at hsize
        omega
      refine ⟨⟨m.snatched.set 0 0, none, .separator, list ++ [[]]⟩, ?_, ⟨rfl, ?_, .inr ⟨rfl, rfl⟩⟩, rfl,
        cString_cleared hne⟩
      · rw [run_step (step_sep_fresh hfresh hpos)]
        rfl
      · rw [List.length_set, hfresh.size]
    · have hsize := hfresh.size
      obtain ⟨state, hstate, hrun⟩ := run_first hfresh hnil
        (fun c hc => plainByte_of_special (kept_plain hspecial hc)) hroom
      obtain ⟨a, htail⟩ := hfresh.room hroom
      rw [htail] at hrun
      refine ⟨⟨(kept f.bytes ++ 0 :: m.snatched.drop ((kept f.bytes).length + 1)).set 0 0, none, .separator,
        list ++ [kept f.bytes]⟩, ?_, ⟨rfl, ?_, .inr ⟨rfl, rfl⟩⟩, rfl, cString_cleared ?_⟩
      · rw [run_append hrun, run_step (step_sep_plain (kept f.bytes) _ a state list hstate (kept_nul_free f))]
        rfl
      · simp only [List.length_set, List.length_append, List.length_cons, List.length_drop]
        omega
      · exact List.append_ne_nil_of_right_ne_nil _ (List.cons_ne_nil _ _)

/-! ## The end of the line -/

theorem itemAt_append_left (p tail : List UInt8) {i : ℤ} (h0 : 0 ≤ i) (h : i < p.length) :
    ∃ c ∈ p, itemAt (p ++ tail) i = some c := by
  have hlt : i.toNat < p.length := by omega
  refine ⟨p[i.toNat], List.getElem_mem hlt, ?_⟩
  rw [itemAt, if_pos h0, List.getElem?_append_left hlt, List.getElem?_eq_getElem hlt]

/-- Where the two last bytes by the `int` are not CRLF, nothing is trimmed. -/
theorem trimTrailing_keeps (p tail : List UInt8) (n : ℕ) (hcr : '\r'.toUInt8 ∉ p) (hn : toInt n ≤ p.length) :
    trimTrailing (p ++ tail) n = p ++ tail := by
  unfold trimTrailing
  refine if_neg ?_
  rintro ⟨hlen, hitem, _⟩
  obtain ⟨c, hc, hat⟩ := itemAt_append_left p tail (i := toInt n - 2) (by omega) (by omega)
  rw [hat, Option.some.injEq] at hitem
  exact hcr (hitem ▸ hc)

theorem trimTrailing_crlf (p tail : List UInt8) (h : p.length + 2 < 2147483648) :
    trimTrailing (p ++ crlf ++ 0 :: tail) (p ++ crlf).length = p ++ 0 :: '\n'.toUInt8 :: 0 :: tail := by
  have hlen : (p ++ crlf).length = p.length + 2 := by simp [crlf]
  have hcr : itemAt (p ++ crlf ++ 0 :: tail) (p.length : ℤ) = some '\r'.toUInt8 := by
    rw [itemAt, if_pos (Int.natCast_nonneg _), Int.toNat_natCast]
    simp [crlf]
  have hlf : itemAt (p ++ crlf ++ 0 :: tail) ((p.length + 1 : ℕ) : ℤ) = some '\n'.toUInt8 := by
    rw [itemAt, if_pos (Int.natCast_nonneg _), Int.toNat_natCast]
    simp [crlf]
  unfold trimTrailing
  rw [hlen, toInt_of_lt h]
  have h2 : ((p.length + 2 : ℕ) : ℤ) - 2 = (p.length : ℤ) := by omega
  have h1 : ((p.length + 2 : ℕ) : ℤ) - 1 = ((p.length + 1 : ℕ) : ℤ) := by omega
  simp only [h2, h1]
  rw [if_pos ⟨by omega, hcr, hlf⟩, Int.toNat_natCast]
  simp [crlf]

theorem terminate_holding (text tail : List UInt8) (a : UInt8) (state : CsvState) (list : List (List UInt8)) :
    (holding text (a :: tail) state list).terminate = .ok (holding text (0 :: tail) state list) :=
  put_holding text tail a 0 state list

theorem trim_plain (text tail : List UInt8) (state : CsvState) (list : List (List UInt8)) (hstate : Plain state)
    (hnul : 0 ∉ text) : (holding text (0 :: tail) state list).trim = .ok { holding text (0 :: tail) state list with
      snatched := trimTrailing (text ++ 0 :: tail) text.length } := by
  have hstring : cString (holding text (0 :: tail) state list).snatched = .ok text := cString_append text tail hnul
  unfold Automaton.trim
  rw [holding_currentState, if_pos hstate.symm, hstring, ok_bind]
  rfl

theorem finish_plain (text tail field : List UInt8) (a : UInt8) (state : CsvState) (list : List (List UInt8))
    (hstate : Plain state) (hnul : 0 ∉ text) (hfield : cString (trimTrailing (text ++ 0 :: tail) text.length) = .ok field) :
    finish (holding text (a :: tail) state list) = .ok (list ++ [field]) := by
  have hends : state ≠ .leadingQuote ∧ state ≠ .withQuoteMode := by
    obtain rfl | rfl := hstate
    · exact ⟨by decide, by decide⟩
    · exact ⟨by decide, by decide⟩
  unfold finish
  rw [holding_currentState, if_pos hends, terminate_holding, ok_bind, trim_plain text tail state list hstate hnul, ok_bind,
    Automaton.append, hfield]
  rfl

theorem finish_quoted (text tail : List UInt8) (a : UInt8) (list : List (List UInt8)) (hnul : 0 ∉ text) :
    finish (holding text (a :: tail) .internalQuote list) = .ok (list ++ [text]) := by
  have htrim : (holding text (0 :: tail) .internalQuote list).trim =
      .ok (holding text (0 :: tail) .internalQuote list) := rfl
  unfold finish
  rw [holding_currentState, if_pos ⟨by decide, by decide⟩, terminate_holding, ok_bind, htrim, ok_bind,
    append_holding text tail .internalQuote list hnul]
  rfl

/-- The last field of a line that ends with CRLF, as it is read. -/
def lineEnd (f : List UInt8) : List UInt8 :=
  if f.any special then f
  else if (kept f).length + 2 < 2147483648 then kept f
  else kept f ++ crlf

theorem crlf_plain : ∀ c ∈ crlf, plainByte c = true := List.all_eq_true.mp (by decide)

theorem crlf_nul_free : (0 : UInt8) ∉ crlf := by decide

theorem kept_no_cr (h : ¬ f.any special = true) : '\r'.toUInt8 ∉ kept f := by
  intro hc
  have hspecial := kept_plain h hc
  cases hspecial

theorem finish_line (hfresh : Fresh m list size) (f : Field) (hroom : (fieldText f.bytes ++ crlf).length < size) :
    ∃ m', run m (fieldText f.bytes ++ crlf) = .ok m' ∧ finish m' = .ok (list ++ [lineEnd f.bytes]) := by
  have hle := kept_length f.bytes
  have hcrlf : crlf.length = 2 := rfl
  rw [List.length_append, hcrlf] at hroom
  by_cases hspecial : f.bytes.any special = true
  · rw [kept_of_special hspecial] at hle
    rw [lineEnd, if_pos hspecial]
    have hrun := run_escaped hfresh (ne_nil_of_special hspecial) (by omega)
    obtain ⟨a, htail⟩ := hfresh.room (n := f.bytes.length) (by omega)
    rw [htail] at hrun
    generalize m.snatched.drop (f.bytes.length + 1) = tail at hrun
    refine ⟨⟨f.bytes ++ 0 :: tail, none, .spaceAfterQuote, list⟩, ?_, ?_⟩
    · -- CR leaves the quoted field, LF writes the NUL behind it
      have hcr : step (holding f.bytes (a :: tail) .internalQuote list) '\r'.toUInt8 =
        .ok (holding f.bytes (a :: tail) .spaceAfterQuote list) := rfl
      have hlf : step (holding f.bytes (a :: tail) .spaceAfterQuote list) '\n'.toUInt8 =
          .ok ⟨f.bytes ++ 0 :: tail, none, .spaceAfterQuote, list⟩ :=
        congrArg (· >>= _) (terminate_holding f.bytes tail a .spaceAfterQuote list)
      rw [fieldText_of_special hspecial, run_append hrun, crlf, run_step hcr, run_step hlf]
      rfl
    · show (Automaton.append ⟨f.bytes ++ 0 :: tail, none, .spaceAfterQuote, list⟩ >>= _) = _
      rw [Automaton.append, cString_append f.bytes tail f.nul_free]
      rfl
  · rw [fieldText_of_plain hspecial] at *
    have hplain : ∀ c ∈ kept f.bytes ++ crlf, plainByte c = true := by
      intro c hc
      rw [List.mem_append] at hc
      obtain hc | hc := hc
      · exact plainByte_of_special (kept_plain hspecial hc)
      · exact crlf_plain c hc
    have hnul : 0 ∉ kept f.bytes ++ crlf := by
      rw [List.mem_append, not_or]
      exact ⟨kept_nul_free f, crlf_nul_free⟩
    have hsize : (kept f.bytes ++ crlf).length = (kept f.bytes).length + 2 := by rw [List.length_append, hcrlf]
    have hne : kept f.bytes ++ crlf ≠ [] := List.append_ne_nil_of_right_ne_nil _ (List.cons_ne_nil _ _)
    obtain ⟨state, hstate, hrun⟩ := run_first hfresh hne hplain (by omega)
    obtain ⟨a, htail⟩ := hfresh.room (n := (kept f.bytes ++ crlf).length) (by omega)
    rw [htail] at hrun
    generalize m.snatched.drop _ = tail at hrun
    refine ⟨_, hrun, finish_plain _ _ _ _ _ _ hstate hnul ?_⟩
    rw [lineEnd, if_neg hspecial]
    by_cases hint : (kept f.bytes).length + 2 < 2147483648
    · rw [if_pos hint, trimTrailing_crlf _ _ hint, cString_append _ _ (kept_nul_free f)]
    · have hle2 := toInt_add_two_le (n := (kept f.bytes ++ crlf).length) (by omega)
      have hkeeps := trimTrailing_keeps (kept f.bytes) (crlf ++ 0 :: tail) (kept f.bytes ++ crlf).length
        (kept_no_cr hspecial) (by omega)
      rw [← List.append_assoc] at hkeeps
      rw [if_neg hint, hkeeps, cString_append _ _ hnul]

/-- What the buffer holds at the beginning of a field. -/
def Behind (m : Automaton) (prev : List UInt8) : Prop :=
  (m.currentState = .newLine ∧ prev = []) ∨ (m.currentState = .separator ∧ cString m.snatched = .ok prev)

theorem finish_empty {prev : List UInt8} (hfresh : Fresh m list size) (hprev : Behind m prev) (hroom : 0 < size) :
    finish m = .ok (list ++ [prev]) := by
  obtain ⟨snatched, sn, state, newlist⟩ := m
  obtain ⟨hlist, hsize, hstate⟩ := hfresh
  unfold Behind at hprev
  simp only at hlist hsize hstate hprev
  subst hlist
  obtain ⟨rfl, rfl⟩ | ⟨rfl, rfl⟩ := hstate
  · obtain ⟨_, rfl⟩ | ⟨hsep, _⟩ := hprev
    · have hterminate : Automaton.terminate ⟨snatched, some 0, .newLine, newlist⟩ =
          .ok ⟨snatched.set 0 0, some 0, .newLine, newlist⟩ := by
        simp only [Automaton.terminate, Automaton.put, hsize, hroom, if_true]
      have hne : snatched ≠ [] := List.length_pos_iff.mp (hsize ▸ hroom)
      show (Automaton.terminate ⟨snatched, some 0, .newLine, newlist⟩ >>= _) = _
      rw [hterminate, ok_bind]
      show (Automaton.append ⟨snatched.set 0 0, some 0, .newLine, newlist⟩ >>= _) = _
      rw [Automaton.append, cString_cleared hne]
      rfl
    · cases hsep
  · obtain ⟨hnew, _⟩ | ⟨_, hstring⟩ := hprev
    · cases hnew
    · show (Automaton.append ⟨snatched, none, .separator, newlist⟩ >>= _) = _
      rw [Automaton.append, hstring]
      rfl

/-- The field and the end of the text. A field of no bytes is taken from the buffer as it is. -/
theorem finish_bare {prev : List UInt8} (hfresh : Fresh m list size) (hprev : Behind m prev) (f : Field)
    (hroom : (fieldText f.bytes).length < size) :
    ∃ m', run m (fieldText f.bytes) = .ok m' ∧
      finish m' = .ok (list ++ [if f.bytes = [] then prev else kept f.bytes]) := by
  have hle := kept_length f.bytes
  by_cases hspecial : f.bytes.any special = true
  · rw [kept_of_special hspecial] at hle ⊢
    rw [if_neg (ne_nil_of_special hspecial)]
    have hrun := run_escaped hfresh (ne_nil_of_special hspecial) (by omega)
    obtain ⟨a, htail⟩ := hfresh.room (n := f.bytes.length) (by omega)
    rw [htail] at hrun
    rw [fieldText_of_special hspecial]
    exact ⟨_, hrun, finish_quoted f.bytes _ a list f.nul_free⟩
  · rw [fieldText_of_plain hspecial] at *
    by_cases hnil : f.bytes = []
    · rw [if_pos hnil, hnil]
      exact ⟨m, rfl, finish_empty hfresh hprev (by omega)⟩
    · rw [if_neg hnil]
      obtain ⟨state, hstate, hrun⟩ := run_first hfresh (kept_ne_nil hnil)
        (fun c hc => plainByte_of_special (kept_plain hspecial hc)) hroom
      obtain ⟨a, htail⟩ := hfresh.room hroom
      rw [htail] at hrun
      refine ⟨_, hrun, finish_plain _ _ _ _ _ _ hstate (kept_nul_free f) ?_⟩
      rw [trimTrailing_keeps _ _ _ (kept_no_cr hspecial) (toInt_le _), cString_append _ _ (kept_nul_free f)]

end Libntech.Csv
