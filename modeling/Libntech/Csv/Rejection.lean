import Libntech.Csv.Scratch
import Mathlib.Data.List.TakeWhile

/-! # Which lines are rejected

The automaton acts on its error state when it reads the next character, so a violation that is the last character of the
line goes unseen. A malformed line whose violation is seen is rejected, if the automaton comes that far: a field whose
closing quote is followed by one blank is taken without a NUL of its own (`Overruns`).
-/
namespace Libntech.Csv
set_option autoImplicit false

/-! ## Staying in the buffer -/

/-- The states in which the next character is written where `sn` points. -/
def pointing (state : CsvState) : Bool :=
  state = .newLine ∨ state = .preStartSpace ∨ state = .noQuoteMode ∨ state = .internalQuote ∨ state = .withQuoteMode

/-- After `n` characters. -/
structure Within (m : Automaton) (n size : ℕ) : Prop where
  size : m.snatched.length = size
  place : ∀ i, m.sn = some i → i ≤ n
  points : pointing m.currentState = true → m.sn.isSome

/-- A turn ends within the buffer, and has not touched the places behind `n`. -/
def Advances (m : Automaton) (turn : Except Halt Automaton) (n size : ℕ) : Prop :=
  ∃ m', turn = .ok m' ∧ Within m' (n + 1) size ∧ ∀ j, n < j → m'.snatched[j]? = m.snatched[j]?

section Turns

variable {m : Automaton} {n size : ℕ}

variable {turn : Automaton → Except Halt Automaton}

theorem advances_bind {m₁ : Automaton} {x : Except Halt Automaton} (hx : x = .ok m₁)
    (hfar : ∀ j, n < j → m₁.snatched[j]? = m.snatched[j]?) (h : Advances m₁ (turn m₁) n size) :
    Advances m (x >>= turn) n size := by
  obtain ⟨m', hturn, hwithin, hrest⟩ := h
  exact ⟨m', by rw [hx, ok_bind, hturn], hwithin, fun j hj => by rw [hrest j hj, hfar j hj]⟩

theorem put_within (h : Within m n size) (hroom : n < size) (hsn : m.sn.isSome = true) (c : UInt8) :
    ∃ i ≤ n, m.sn = some i ∧ m.put c = .ok { m with snatched := m.snatched.set i c } := by
  obtain ⟨i, hi⟩ := Option.isSome_iff_exists.mp hsn
  have hle := h.place i hi
  have hsize := h.size
  refine ⟨i, hle, hi, ?_⟩
  unfold Automaton.put
  rw [hi]
  exact if_pos (by omega)

theorem snatch_advances (h : Within m n size) (hroom : n < size) (hsn : m.sn.isSome = true) (c : UInt8) (state : CsvState) :
    Advances m (m.snatch c >>= fun m => .ok { m with currentState := state }) n size := by
  obtain ⟨i, hle, hi, hput⟩ := put_within h hroom hsn c
  refine ⟨_, by rw [Automaton.snatch, hput, ok_bind, ok_bind], ⟨?_, ?_, ?_⟩, ?_⟩
  · rw [List.length_set, h.size]
  · intro k hk
    obtain rfl : i + 1 = k := by simpa [hi] using hk
    omega
  · simp [hi]
  · exact fun j hj => List.getElem?_set_ne (by omega)

theorem clear_advances (h : Within m n size) {sn : Option ℕ} (hsn : ∀ i, sn = some i → i ≤ n + 1) {state : CsvState}
    (hstate : pointing state = false) (list : List (List UInt8)) :
    Advances m (.ok ⟨m.clear.snatched, sn, state, list⟩) n size :=
  ⟨_, rfl, ⟨by rw [Automaton.clear, List.length_set, h.size], hsn, by simp [hstate]⟩,
    fun _ hj => getElem?_set_zero _ (by omega)⟩

theorem stay_advances (h : Within m n size) {sn : Option ℕ} (hsn : ∀ i, sn = some i → i ≤ n + 1) {state : CsvState}
    (hstate : pointing state = true → sn.isSome = true) (list : List (List UInt8)) :
    Advances m (.ok ⟨m.snatched, sn, state, list⟩) n size := ⟨_, rfl, ⟨h.size, hsn, hstate⟩, fun _ _ => rfl⟩

/-- `*sn = '\0'`, and the text is taken where it is. -/
theorem put_advances (h : Within m n size) (hroom : n < size) (hsn : m.sn.isSome = true)
    (hturn : ∀ m₁ : Automaton, Within m₁ n size → 0 ∈ m₁.snatched → Advances m₁ (turn m₁) n size) :
    Advances m (m.put 0 >>= turn) n size := by
  obtain ⟨i, hle, hi, hput⟩ := put_within h hroom hsn 0
  have hsize := h.size
  refine advances_bind hput (fun j hj => List.getElem?_set_ne (by omega)) (hturn _ ⟨?_, h.place, h.points⟩ ?_)
  · rw [List.length_set, hsize]
  · exact List.mem_set (by omega) 0

theorem append_advances (h : Within m n size) (hnul : 0 ∈ m.snatched)
    (hturn : ∀ m₁ : Automaton, Within m₁ n size → Advances m₁ (turn m₁) n size) :
    Advances m (m.append >>= turn) n size := by
  have happend : m.append = .ok { m with newlist := m.newlist ++ [m.snatched.takeWhile (· ≠ 0)] } := by
    rw [Automaton.append, cString, if_pos hnul, ok_bind]
  exact advances_bind happend (fun _ _ => rfl) (hturn _ ⟨h.size, h.place, h.points⟩)

end Turns

variable {m : Automaton} {buffer line : List UInt8} {n size : ℕ}

/-- The next character, unless the automaton gives up, or takes a text that has no NUL. -/
theorem step_within (h : Within m n size) (hroom : n < size) (c : UInt8) :
    Advances m (step m c) n size ∨ m.currentState = .error ∨ m.currentState = .closed ∨
      m.currentState = .spaceAfterQuote ∧ csvclSep c = true ∧ 0 ∉ m.snatched := by
  have hnone : ∀ i, none = some i → i ≤ n + 1 := by simp
  have hzero : ∀ i, some 0 = some i → i ≤ n + 1 := by simp
  have hplace : ∀ i, m.sn = some i → i ≤ n + 1 := fun i hi => Nat.le_succ_of_le (h.place i hi)
  have hfront (state : CsvState) : Within ⟨m.snatched, some 0, state, m.newlist⟩ n size := ⟨h.size, by simp, fun _ => rfl⟩
  have hsep {m : Automaton} (h : Within m n size) (hnul : 0 ∈ m.snatched) :
      Advances m (m.append >>= fun m => .ok ⟨m.snatched, none, .separator, m.newlist⟩) n size :=
    append_advances h hnul fun _ h => stay_advances h hnone (by decide) _
  have hclear {m : Automaton} (h : Within m n size) (hnul : 0 ∈ m.snatched) :
      Advances m (m.append >>= fun m => .ok ⟨m.clear.snatched, none, .separator, m.newlist⟩) n size :=
    append_advances h hnul fun _ h => clear_advances h hnone (by decide) _
  unfold step
  cases hstate : m.currentState with
  | error => exact .inr (.inl rfl)
  | closed => exact .inr (.inr (.inl rfl))
  | newLine =>
    have hsn := h.points (by rw [hstate]; decide)
    left
    simp only
    split_ifs
    · exact put_advances h hroom hsn fun _ h _ => stay_advances h hnone (by decide) _
    · exact snatch_advances h hroom hsn c _
    · exact clear_advances h hnone (by decide) _
    · exact snatch_advances h hroom hsn c _
  | preStartSpace =>
    have hsn := h.points (by rw [hstate]; decide)
    left
    simp only
    split_ifs
    · exact put_advances h hroom hsn fun _ h hnul => hclear h hnul
    · exact snatch_advances h hroom hsn c _
    · exact clear_advances h hnone (by decide) _
    · exact snatch_advances h hroom hsn c _
  | noQuoteMode =>
    have hsn := h.points (by rw [hstate]; decide)
    left
    simp only
    split_ifs
    · exact put_advances h hroom hsn fun _ h hnul => hclear h hnul
    · exact clear_advances h hnone (by decide) _
    · exact snatch_advances h hroom hsn c _
  | separator =>
    left
    simp only
    split_ifs
    · have hempty : Within m.clear n size := ⟨by rw [Automaton.clear, List.length_set, h.size], h.place, h.points⟩
      obtain ⟨m', hturn, hwithin, hfar⟩ := hsep hempty (List.mem_set (by rw [h.size]; omega) 0)
      exact ⟨m', hturn, hwithin, fun j hj => (hfar j hj).trans (getElem?_set_zero _ (by omega))⟩
    · exact snatch_advances (hfront _) hroom rfl c _
    · exact clear_advances h hnone (by decide) _
    · exact snatch_advances (hfront _) hroom rfl c _
  | leadingQuote =>
    left
    simp only
    split_ifs
    · exact stay_advances h hzero (fun _ => rfl) _
    · exact snatch_advances (hfront _) hroom rfl c _
  | internalQuote =>
    have hsn := h.points (by rw [hstate]; decide)
    left
    simp only
    split_ifs
    · exact put_advances h hroom hsn fun _ h hnul => hsep h hnul
    · exact stay_advances h hplace (fun hno => absurd hno (by decide)) _
    · exact snatch_advances h hroom hsn c _
    · refine clear_advances h (fun k hk => ?_) (by decide) _
      obtain ⟨i, hi, rfl⟩ := Option.map_eq_some_iff.mp hk
      exact Nat.succ_le_succ (h.place i hi)
  | withQuoteMode =>
    have hsn := h.points (by rw [hstate]; decide)
    left
    simp only
    split_ifs
    · exact stay_advances h hplace (fun _ => hsn) _
    · exact snatch_advances h hroom hsn c _
  | spaceAfterQuote =>
    simp only
    split_ifs with hc hblank
    · by_cases hnul : 0 ∈ m.snatched
      · exact .inl (hsep h hnul)
      · exact .inr (.inr (.inr ⟨trivial, hc, hnul⟩))
    · left
      unfold Automaton.terminate
      cases hsn : m.sn with
      | none => exact stay_advances h hnone (by decide) _
      | some i => exact put_advances h hroom (by rw [hsn]; rfl) fun _ h _ => stay_advances h hnone (by decide) _
    · exact .inl (clear_advances h hnone (by decide) _)

theorem step_ok_within {m' : Automaton} (h : Within m n size) (hroom : n < size) {c : UInt8} (hstep : step m c = .ok m') :
    Within m' (n + 1) size ∧ ∀ j, n < j → m'.snatched[j]? = m.snatched[j]? := by
  rcases step_within h hroom c with ⟨m₁, hturn, hwithin⟩ | hstate | hstate | ⟨hstate, hsep, hnul⟩
  · rw [hstep] at hturn
    obtain rfl := Except.ok.inj hturn
    exact hwithin
  · simp [step, hstate] at hstep
  · simp [step, hstate] at hstep
  · simp [step, hstate, hsep, Automaton.append, cString, hnul, bind, Except.bind] at hstep

theorem run_ok_within {m' : Automaton} (h : Within m n size) {text : List UInt8} (hroom : n + text.length ≤ size)
    (hrun : run m text = .ok m') :
    Within m' (n + text.length) size ∧ ∀ j, n + text.length ≤ j → m'.snatched[j]? = m.snatched[j]? := by
  induction text generalizing m n with
  | nil =>
    obtain rfl := Except.ok.inj hrun
    exact ⟨h, fun _ _ => rfl⟩
  | cons c text ih =>
    rw [List.length_cons] at hroom ⊢
    rw [run, List.foldlM_cons] at hrun
    obtain ⟨m₁, hstep, hrest⟩ := bind_ok hrun
    obtain ⟨hwithin, hfar⟩ := step_ok_within h (by omega) hstep
    obtain ⟨hlast, hbehind⟩ := ih hwithin (by omega) hrest
    rw [Nat.add_assoc, Nat.add_comm 1] at hlast hbehind
    exact ⟨hlast, fun j hj => (hbehind j hj).trans (hfar j (by omega))⟩

theorem begun_within (buffer : List UInt8) : Within (begun buffer) 0 buffer.length :=
  ⟨rfl, fun _ hi => Nat.le_of_eq (Option.some.inj hi).symm, fun _ => rfl⟩

/-- Where the automaton leaves the buffer: at a text without a NUL. -/
theorem run_outOfBounds (hroom : line.length < buffer.length) (h : run (begun buffer) line = .error .outOfBounds) :
    ∃ front rest m, line = front ++ ','.toUInt8 :: rest ∧ run (begun buffer) front = .ok m ∧
      m.currentState = .spaceAfterQuote ∧ 0 ∉ m.snatched := by
  obtain ⟨front, c, rest, m, rfl, hfront, hstep⟩ := run_halts h
  rw [List.length_append, List.length_cons] at hroom
  have hwithin := (run_ok_within (begun_within buffer) (by omega) hfront).1
  rcases step_within hwithin (by omega) c with ⟨m₁, hturn, -⟩ | hstate | hstate | ⟨hstate, hsep, hnul⟩
  · rw [hstep] at hturn
    cases hturn
  · simp [step, hstate] at hstep
  · simp [step, hstate] at hstep
  · obtain rfl := sep_eq hsep
    exact ⟨front, rest, m, rfl, hfront, hstate, hnul⟩

/-! ## A text without a NUL -/

/-- A field in quotes that one blank follows, when no NUL is left behind its text: none of the earlier texts that have
come to a place behind it has put a NUL there last. -/
inductive Overruns : List UInt8 → Prop where
  | field (earlier : List CsvField) {before body after rest : List UInt8} (hbefore : Blanks before) (hafter : Blanks after) :
      body ≠ [] → after.length = 1 →
      (∀ j, body.length ≤ j → lastAt j (earlier.flatMap CsvField.writes ++ [before]) ≠ some 0) →
      Overruns (ended earlier ++ ((CsvField.quoted before body after hbefore hafter).text ++ ','.toUInt8 :: rest))

theorem getElem?_opened {earlier : List CsvField} (h : Collected buffer earlier m) (before : List UInt8) {j : ℕ}
    (hj : 1 ≤ j) : ((written m.snatched before).set 0 0)[j]? =
      (lastAt j (earlier.flatMap CsvField.writes ++ [before])).or buffer[j]? := by
  rw [getElem?_set_zero _ hj, getElem?_written, h.snatched, getElem?_leave_all _ _ hj, lastAt_append, lastAt_singleton,
    Option.or_assoc]

theorem overruns_of_run (hnul : 0 ∉ line) (hroom : line.length < buffer.length)
    (h : run (begun buffer) line = .error .outOfBounds) : Overruns line := by
  obtain ⟨front, rest, m, rfl, hfront, hstate, hend⟩ := run_outOfBounds hroom h
  have hspace : stateAfter front = .spaceAfterQuote := (run_state hfront).symm.trans hstate
  have hshape := shape_stateAfter front
  rw [hspace] at hshape
  cases hshape with
  | @after fields before body after hbefore hafter hne =>
    simp only [List.length_append, List.length_cons] at hroom
    rw [List.append_assoc, List.mem_append, not_or] at hnul
    obtain ⟨m₁, hrun, hcollected⟩ | ⟨hrun, -⟩ := run_fields buffer hnul.1 (by omega)
    · have hquoted := run_quoted hcollected.fresh body hbefore hafter (by omega)
      rw [run_append hrun, hquoted] at hfront
      obtain rfl := Except.ok.inj hfront
      rw [spaced, if_neg hne] at hend
      have hone : after.length = 1 := by
        by_contra hlong
        rw [if_neg hlong] at hend
        exact hend (by simp)
      rw [if_pos hone, holding, List.mem_append, not_or] at hend
      have hdrop {j : ℕ} (hj : body.length ≤ j) : ((written m₁.snatched before).set 0 0)[j]? ≠ some 0 := by
        intro hzero
        refine hend.2 (List.mem_of_getElem? (i := j - body.length) ?_)
        rw [List.getElem?_drop, Nat.add_sub_cancel' hj]
        exact hzero
      have hbody : body ≠ [] := by
        rintro rfl
        refine hdrop (Nat.zero_le 0) (List.getElem?_set_self ?_)
        have hsize := hcollected.fresh.size
        rw [length_written]
        all_goals
          simp only [quoted_text, List.length_append] at hroom
          omega
      rw [List.append_assoc]
      refine .field fields hbefore hafter hbody hone fun j hj hzero => hdrop hj ?_
      rw [getElem?_opened hcollected before (by have := List.length_pos_iff.mpr hbody; omega), hzero, Option.some_or]
    · rw [run_append_error hrun] at hfront
      cases hfront

/-- With no NUL in the buffer but the first one, the text without a NUL does not end. -/
theorem Overruns.run (h : Overruns line) (hnul : 0 ∉ line) :
    run (begun (scratch (fun _ => 1) line)) line = .error .outOfBounds := by
  cases h with
  | @field earlier before body after rest hbefore hafter hne hone hlast =>
    generalize hline : ended earlier ++ ((CsvField.quoted before body after hbefore hafter).text ++ ','.toUInt8 :: rest) = line
      at hnul
    have hroom := length_scratch (fun _ => 1) line
    have hlen := congrArg List.length hline
    simp only [List.length_append, List.length_cons] at hlen
    rw [← hline, List.mem_append, not_or, List.mem_append, not_or] at hnul
    have hnobody : 0 ∉ body := fun h => hnul.2.1 (by simp [quoted_text, mem_doubled h])
    have hpos := List.length_pos_iff.mpr hne
    rw [← hline]
    nth_rewrite 1 [hline]
    obtain ⟨m, hrun, hm⟩ | ⟨hrun, -⟩ := run_fields (scratch (fun _ => 1) line) hnul.1 (by omega)
    · have hfield := run_field hm.fresh _ hnul.2.1 (by omega)
      have htaken : taken m.snatched (.quoted before body after hbefore hafter) = .error .outOfBounds := by
        refine if_neg fun hzero => ?_
        obtain ⟨j, hj⟩ := List.mem_iff_getElem?.mp hzero
        rw [leave, if_pos hone, List.append_nil, getElem?_written] at hj
        by_cases hbehind : j < body.length
        · rw [List.getElem?_eq_getElem hbehind, Option.some_or] at hj
          exact hnobody (Option.some.inj hj ▸ List.getElem_mem hbehind)
        · rw [List.getElem?_eq_none (by omega), Option.none_or, getElem?_opened hm before (by omega), Option.or_eq_some_iff] at hj
          obtain hj | ⟨-, hj⟩ := hj
          · exact hlast j (by omega) hj
          · have hlt := (List.getElem?_eq_some_iff.mp hj).1
            rw [getElem?_scratch _ (by omega) (by omega)] at hj
            exact absurd (Option.some.inj hj) (by decide)
      rw [htaken] at hfield
      rw [run_append hrun, List.append_cons]
      exact run_append_error hfield rest
    · exact run_append_error hrun _

/-! ## Failures -/

theorem stateAfter_append (front rest : List UInt8) :
    stateAfter (front ++ rest) = rest.foldl nextState (stateAfter front) := List.foldl_append

theorem stateAfter_ne_closed (text : List UInt8) : stateAfter text ≠ .closed := by
  intro h
  have hshape := shape_stateAfter text
  rw [h] at hshape
  cases hshape

/-- A violation at the end of the line has no violation before it. -/
theorem Violation.first {front rest : List UInt8} {c : UInt8} (h : Violation (front ++ c :: rest)) :
    stateAfter front ≠ .error := by
  intro herror
  obtain ⟨-, before, last, hline, hbefore⟩ := h.state
  obtain hnil | ⟨middle, d, hrest⟩ := List.eq_nil_or_concat (c :: rest)
  · cases hnil
  · rw [hrest, List.concat_eq_append, ← List.append_assoc] at hline
    obtain ⟨rfl, -⟩ := List.append_inj' hline rfl
    exact hbefore (by rw [stateAfter_append, herror, foldl_error])

theorem finish_failed {e : CsvParserError} (h : finish m = .error (.failed e)) :
    m.currentState = .leadingQuote ∨ m.currentState = .withQuoteMode := by
  by_contra hstate
  rw [not_or] at hstate
  unfold finish at h
  rw [if_pos hstate] at h
  obtain h | ⟨m₁, -, h⟩ := bind_error h
  · cases terminate_error h
  obtain h | ⟨m₂, -, h⟩ := bind_error h
  · unfold Automaton.trim at h
    split at h
    · obtain h | ⟨text, -, h⟩ := bind_error h
      · cases (cString_error h).1
      · cases h
    · cases h
  · obtain h | ⟨m₃, -, h⟩ := bind_error h
    · cases append_error h
    · cases h

theorem launch_eq (heap : ℕ → UInt8) (line : List UInt8) :
    launchCsvAutomata heap line = run (begun (scratch heap line)) line >>= finish := rfl

theorem launch_failed {heap : ℕ → UInt8} {e : CsvParserError} (h : launchCsvAutomata heap line = .error (.failed e)) :
    Malformed line ∧ ¬ Violation line := by
  obtain hrun | ⟨m, hrun, hfinish⟩ := bind_error h
  · obtain ⟨front, c, rest, m, rfl, hfront, hstep⟩ := run_halts hrun
    have hstate : stateAfter front = .error := by
      have hsame : m.currentState = stateAfter front := run_state hfront
      rw [← hsame]
      exact (step_failed hstep).resolve_right fun hclosed => stateAfter_ne_closed front (hsame.symm.trans hclosed)
    have hshape := shape_stateAfter front
    refine ⟨?_, fun hviolation => hviolation.first hstate⟩
    rw [hstate] at hshape
    cases hshape with
    | error hviolation =>
      rw [List.append_assoc]
      exact .violated hviolation
  · have hsame : m.currentState = stateAfter line := run_state hrun
    have hstate := finish_failed hfinish
    rw [hsame] at hstate
    refine ⟨(malformed_iff line).mpr (.inr hstate), fun hviolation => ?_⟩
    rw [hviolation.state.1] at hstate
    obtain h | h := hstate
    · cases h
    · cases h

/-- A malformed line that is read to its end is not closed there. -/
theorem finish_malformed (hrun : run (begun buffer) line = .ok m) (hmalformed : Malformed line)
    (hnot : ¬ Violation line) : finish m = .error (.failed .unexpectedEnd) := by
  have hsame : m.currentState = stateAfter line := run_state hrun
  obtain hstate | hstate := (malformed_iff line).mp hmalformed
  · have hshape := shape_stateAfter line
    rw [hstate] at hshape
    cases hshape with
    | @error front rest hviolation =>
      cases rest with
      | nil => exact absurd hviolation (by rwa [List.append_nil] at hnot)
      | cons c rest =>
        rw [run, List.foldlM_append] at hrun
        obtain ⟨m₁, hfront, hrun⟩ := bind_ok hrun
        rw [List.foldlM_cons] at hrun
        obtain ⟨m₂, hstep, -⟩ := bind_ok hrun
        have hstate₁ : m₁.currentState = .error := (run_state hfront).trans hviolation.state.1
        simp [step, hstate₁] at hstep
  · unfold finish
    rw [if_neg]
    rintro ⟨hleading, hquoted⟩
    rw [hsame] at hleading hquoted
    exact hstate.elim hleading hquoted

/-! ## Rejected lines -/

theorem takeWhile_line (line : Field) : line.bytes.takeWhile (· ≠ 0) = line.bytes := by
  exact Lib.takeWhile_ne_self line.nul_free

theorem parse_list_iff (heap : ℕ → UInt8) (line : Field) (fields : List (List UInt8)) :
    seqParseCsvString heap line.bytes = .list fields ↔ launchCsvAutomata heap line.bytes = .ok fields := by
  rw [seqParseCsvString, takeWhile_line]
  rcases launchCsvAutomata heap line.bytes with (⟨e⟩ | _) | list
  all_goals simp

theorem parse_null_iff (heap : ℕ → UInt8) (line : Field) :
    seqParseCsvString heap line.bytes = .null ↔ ∃ e, launchCsvAutomata heap line.bytes = .error (.failed e) := by
  rw [seqParseCsvString, takeWhile_line]
  rcases launchCsvAutomata heap line.bytes with (⟨e⟩ | _) | list
  all_goals simp

/-- The lines that are rejected are the malformed ones, unless the violation is the last character, or a text without a
NUL comes before it. -/
theorem seqParseCsvString_null_iff (line : Field) :
    (∀ heap, seqParseCsvString heap line.bytes = .null ↔ Malformed line.bytes) ↔
      ¬ Violation line.bytes ∧ ¬ (Malformed line.bytes ∧ Overruns line.bytes) := by
  constructor
  · intro h
    refine ⟨fun hviolation => ?_, fun ⟨hmalformed, hoverruns⟩ => ?_⟩
    · have hmalformed : Malformed (line.bytes ++ []) := .violated hviolation
      rw [List.append_nil] at hmalformed
      obtain ⟨e, hfailed⟩ := (parse_null_iff (fun _ => 0) line).mp ((h _).mpr hmalformed)
      exact (launch_failed hfailed).2 hviolation
    · obtain ⟨e, hfailed⟩ := (parse_null_iff (fun _ => 1) line).mp ((h _).mpr hmalformed)
      have hrun := hoverruns.run line.nul_free
      rw [launch_eq, hrun] at hfailed
      cases hfailed
  · rintro ⟨hviolation, hoverruns⟩ heap
    rw [parse_null_iff]
    constructor
    · rintro ⟨e, hfailed⟩
      exact (launch_failed hfailed).1
    · intro hmalformed
      cases hrun : run (begun (scratch heap line.bytes)) line.bytes with
      | ok m =>
        have hfinish := finish_malformed hrun hmalformed hviolation
        exact ⟨.unexpectedEnd, by rw [launch_eq, hrun, ok_bind, hfinish]⟩
      | error halt =>
        cases halt with
        | failed e => exact ⟨e, by rw [launch_eq, hrun]; rfl⟩
        | outOfBounds =>
          have hroom := length_scratch heap line.bytes
          exact absurd ⟨hmalformed, overruns_of_run line.nul_free (by omega) hrun⟩ hoverruns

/-- The quote behind `a` is the last character, and the line is accepted. -/
theorem last_quote_accepted : seqParseCsvString (fun _ => 0) ['a'.toUInt8, '"'.toUInt8] = .list [[]] ∧
    Malformed ['a'.toUInt8, '"'.toUInt8] :=
  ⟨by decide, (malformed_iff _).mpr (.inl rfl)⟩

end Libntech.Csv
