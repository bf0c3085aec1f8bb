import Libntech.Csv.Fields

/-! # The buffer from field to field

A field is written from the front of the buffer, over what the fields before it have left there. At its separator the
string in the buffer is taken (`taken`), and the buffer stays as it is or loses its first byte (`leave`). A byte of it is
what the last field that has come that far has put there (`getElem?_leave_all`).
-/
namespace Libntech.Csv
set_option autoImplicit false

/-! ## Writes at the front of a buffer -/

section Writes

variable {α : Type}

def written (buffer text : List α) : List α := text ++ buffer.drop text.length

theorem length_written {buffer text : List α} (h : text.length ≤ buffer.length) :
    (written buffer text).length = buffer.length := by
  simp only [written, List.length_append, List.length_drop]
  omega

theorem getElem?_written (buffer text : List α) (j : ℕ) : (written buffer text)[j]? = text[j]?.or buffer[j]? := by
  unfold written
  by_cases h : j < text.length
  · rw [List.getElem?_append_left h, List.getElem?_eq_getElem h, Option.some_or]
  · rw [List.getElem?_append_right (by omega), List.getElem?_drop, List.getElem?_eq_none (by omega : text.length ≤ j),
      Option.none_or, Nat.add_sub_cancel' (by omega)]

/-- What the last of the texts that reach the place puts there. -/
def lastAt (j : ℕ) (texts : List (List α)) : Option α := texts.foldl (fun found text => text[j]?.or found) none

theorem lastAt_append (j : ℕ) (s t : List (List α)) : lastAt j (s ++ t) = (lastAt j t).or (lastAt j s) := by
  have hfrom (t : List (List α)) (found : Option α) :
      t.foldl (fun found text => text[j]?.or found) found = (lastAt j t).or found := by
    induction t generalizing found with
    | nil => rfl
    | cons text t ih => rw [lastAt, List.foldl_cons, List.foldl_cons, ih, ih, Option.or_none, Option.or_assoc]
  rw [lastAt, List.foldl_append]
  exact hfrom t _

theorem lastAt_singleton (j : ℕ) (text : List α) : lastAt j [text] = text[j]? := Option.or_none

theorem lastAt_pair (j : ℕ) (s t : List α) : lastAt j [s, t] = t[j]?.or s[j]? := by
  rw [← List.singleton_append, lastAt_append, lastAt_singleton, lastAt_singleton]

end Writes

/-! ## A field in the buffer -/

/-- What a field writes, each text from the front. -/
def CsvField.writes : CsvField → List (List UInt8)
  | .unquoted text _ => [text ++ [0]]
  | .quoted before body after _ _ => [before, body ++ if after.length = 1 then [] else [0]]

/-- The buffer behind the separator. -/
def leave (buffer : List UInt8) : CsvField → List UInt8
  | .unquoted text _ => (written buffer (text ++ [0])).set 0 0
  | .quoted before body after _ _ =>
    written ((written buffer before).set 0 0) (body ++ if after.length = 1 then [] else [0])

/-- What is taken from the buffer at the separator. -/
def taken (buffer : List UInt8) : CsvField → Except Halt (List UInt8)
  | .unquoted text _ => .ok text
  | .quoted before body after hbefore hafter => cString (leave buffer (.quoted before body after hbefore hafter))

/-- The content of a field by the grammar. -/
def CsvField.value : CsvField → List UInt8
  | .unquoted text _ => text
  | .quoted _ body _ _ _ => body

variable {j : ℕ} {buffer : List UInt8} {c : UInt8} {field : CsvField} {halt : Halt}

theorem getElem?_set_zero (buffer : List UInt8) (hj : 1 ≤ j) : (buffer.set 0 0)[j]? = buffer[j]? :=
  List.getElem?_set_ne (by omega)

theorem getElem?_leave (buffer : List UInt8) (field : CsvField) (hj : 1 ≤ j) :
    (leave buffer field)[j]? = (lastAt j field.writes).or buffer[j]? := by
  cases field with
  | unquoted text plain =>
    rw [leave, getElem?_set_zero _ hj, getElem?_written, CsvField.writes, lastAt_singleton]
  | quoted before body after hbefore hafter =>
    rw [leave, getElem?_written, getElem?_set_zero _ hj, getElem?_written, CsvField.writes, lastAt_pair, Option.or_assoc]

theorem getElem?_leave_all (buffer : List UInt8) (fields : List CsvField) (hj : 1 ≤ j) :
    (fields.foldl leave buffer)[j]? = (lastAt j (fields.flatMap CsvField.writes)).or buffer[j]? := by
  induction fields using List.reverseRecOn with
  | nil => rfl
  | append_singleton fields field ih =>
    rw [List.foldl_append, List.foldl_cons, List.foldl_nil, getElem?_leave _ _ hj, ih, List.flatMap_append, lastAt_append,
      List.flatMap_singleton, Option.or_assoc]

theorem length_doubled (body : List UInt8) : body.length ≤ (doubled body).length := by
  induction body with
  | nil => exact Nat.le_refl 0
  | cons c body ih =>
    rw [doubled]
    split
    all_goals
      simp only [List.length_cons]
      omega

theorem mem_doubled {body : List UInt8} (h : c ∈ body) : c ∈ doubled body := by
  induction body with
  | nil => exact h
  | cons d body ih =>
    rw [List.mem_cons] at h
    rw [doubled]
    obtain rfl | h := h
    · split
      · exact List.mem_cons_of_mem _ List.mem_cons_self
      · exact List.mem_cons_self
    · split
      · exact List.mem_cons_of_mem _ (List.mem_cons_of_mem _ (ih h))
      · exact List.mem_cons_of_mem _ (ih h)

/-- The texts that a field writes are not longer than itself and the byte behind it. -/
theorem writes_length (field : CsvField) {text : List UInt8} (h : text ∈ field.writes) : text.length ≤ field.text.length + 1 := by
  cases field with
  | unquoted body plain =>
    rw [CsvField.writes, List.mem_singleton] at h
    rw [h, List.length_append]
    exact Nat.le_refl _
  | quoted before body after hbefore hafter =>
    have hbody := length_doubled body
    have hend : (if after.length = 1 then [] else [0] : List UInt8).length ≤ 1 := by
      split
      all_goals simp
    rw [CsvField.writes, List.mem_cons, List.mem_singleton] at h
    simp only [quoted_text, List.length_append, List.length_cons]
    obtain rfl | rfl := h
    · omega
    · rw [List.length_append]
      omega

theorem length_leave (h : field.text.length < buffer.length) :
    (leave buffer field).length = buffer.length := by
  cases field with
  | unquoted text plain =>
    have htext := writes_length (.unquoted text plain) (List.mem_singleton.mpr rfl)
    rw [leave, List.length_set, length_written (by omega)]
  | quoted before body after hbefore hafter =>
    have hfront := writes_length (.quoted before body after hbefore hafter) List.mem_cons_self
    have hbody := writes_length (.quoted before body after hbefore hafter) (List.mem_cons_of_mem _ List.mem_cons_self)
    have hfirst : ((written buffer before).set 0 0).length = buffer.length := by
      rw [List.length_set, length_written (by omega)]
    rw [leave, length_written (by omega), hfirst]

/-! ## Reading a field -/

theorem run_single (m : Automaton) (c : UInt8) : run m [c] = step m c := by
  rw [run, List.foldlM_cons]
  cases step m c with
  | error e => rfl
  | ok m' => rfl

section Reading

variable {m : Automaton} {list : List (List UInt8)} {size : ℕ}

theorem run_before (hfresh : Fresh m list size) {before : List UInt8} (hbefore : Blanks before) (hroom : before.length < size) :
    run m (before ++ ['"'.toUInt8]) = .ok ⟨(written m.snatched before).set 0 0, none, .leadingQuote, list⟩ := by
  by_cases hnil : before = []
  · obtain ⟨snatched, sn, state, newlist⟩ := m
    obtain ⟨hlist, hsize, hstate⟩ := hfresh
    simp only at hlist hstate
    subst hlist hnil
    obtain ⟨rfl, rfl⟩ | ⟨rfl, rfl⟩ := hstate
    · rfl
    · rfl
  · obtain ⟨state, hstate, hrun⟩ := run_first hfresh hnil hbefore.plain hroom
    have hspace : state = .preStartSpace := by
      have hsame := run_state hrun
      have hstart : m.currentState = .newLine ∨ m.currentState = .separator := by
        obtain ⟨h, -⟩ | ⟨h, -⟩ := hfresh.state
        · exact .inl h
        · exact .inr h
      rw [foldl_before hnil hstart, foldl_blanks hbefore] at hsame
      exact hsame
    subst hspace
    rw [run_append hrun]
    rfl

variable {after : List UInt8}

/-- Blanks behind the closing quote, when the text has its NUL already. -/
theorem run_spaces (snatched : List UInt8) (hafter : Blanks after) :
    run ⟨snatched, none, .spaceAfterQuote, list⟩ after = .ok ⟨snatched, none, .spaceAfterQuote, list⟩ := by
  induction after with
  | nil => rfl
  | cons c after ih =>
    have hblank := hafter c List.mem_cons_self
    have hstep : step ⟨snatched, none, .spaceAfterQuote, list⟩ c = .ok ⟨snatched, none, .spaceAfterQuote, list⟩ := by
      simp only [step, blank_class hblank, hblank, Bool.false_eq_true, if_false, if_true]
      rfl
    rw [run_step hstep, ih fun d hd => hafter d (List.mem_cons_of_mem _ hd)]

theorem step_space (text tail : List UInt8) (h : csvclBlank c = true) :
    step (holding text tail .internalQuote list) c = .ok (holding text tail .spaceAfterQuote list) := by
  simp only [step, holding_currentState, blank_class h, h, Bool.false_eq_true, if_false, if_true]
  rfl

theorem step_second_space (text tail : List UInt8) (a : UInt8) (h : csvclBlank c = true) :
    step (holding text (a :: tail) .spaceAfterQuote list) c = .ok ⟨text ++ 0 :: tail, none, .spaceAfterQuote, list⟩ := by
  simp only [step, holding_currentState, blank_class h, h, Bool.false_eq_true, if_false, if_true, terminate_holding]
  rfl

/-- The automaton behind the blanks that follow a closing quote. -/
def spaced (text tail after : List UInt8) (list : List (List UInt8)) : Automaton :=
  if after = [] then holding text tail .internalQuote list
  else if after.length = 1 then holding text tail .spaceAfterQuote list
  else ⟨text ++ 0 :: tail.tail, none, .spaceAfterQuote, list⟩

theorem run_after (text tail : List UInt8) (a : UInt8) (hafter : Blanks after) :
    run (holding text (a :: tail) .internalQuote list) after = .ok (spaced text (a :: tail) after list) := by
  cases after with
  | nil => rfl
  | cons c after =>
    rw [run_step (step_space text _ (hafter c List.mem_cons_self))]
    cases after with
    | nil => rfl
    | cons d after =>
      have hrest : Blanks after := fun e he => hafter e (List.mem_cons_of_mem _ (List.mem_cons_of_mem _ he))
      rw [run_step (step_second_space text tail a (hafter d (List.mem_cons_of_mem _ List.mem_cons_self))),
        run_spaces _ hrest]
      rfl

theorem step_sep_spaced (snatched : List UInt8) (sn : Option ℕ) :
    step ⟨snatched, sn, .spaceAfterQuote, list⟩ ','.toUInt8 =
      cString snatched >>= fun value => .ok ⟨snatched, none, .separator, list ++ [value]⟩ := by
  show (Automaton.append _ >>= _) = _
  unfold Automaton.append
  cases cString snatched with
  | error e => rfl
  | ok value => rfl

theorem run_quoted (hfresh : Fresh m list size) {before : List UInt8} (body : List UInt8) (hbefore : Blanks before)
    (hafter : Blanks after) (hroom : (CsvField.quoted before body after hbefore hafter).text.length < size) :
    run m (CsvField.quoted before body after hbefore hafter).text =
      .ok (spaced body (((written m.snatched before).set 0 0).drop body.length) after list) := by
  have hbody := length_doubled body
  have hsize := hfresh.size
  simp only [quoted_text, List.length_append, List.length_cons] at hroom
  have hlen : ((written m.snatched before).set 0 0).length = size := by
    rw [List.length_set, length_written (by omega), hsize]
  have htext : (CsvField.quoted before body after hbefore hafter).text =
      (before ++ ['"'.toUInt8]) ++ ((doubled body ++ ['"'.toUInt8]) ++ after) := by simp [quoted_text]
  rw [htext, run_append (run_before hfresh hbefore (by omega)), run_append (run_body body list (by omega)),
    List.drop_eq_getElem_cons (by omega), run_after _ _ _ hafter]

theorem run_field (hfresh : Fresh m list size) (field : CsvField) (hnul : 0 ∉ field.text)
    (hroom : field.text.length < size) : run m (field.text ++ [','.toUInt8]) =
      taken m.snatched field >>= fun value => .ok ⟨leave m.snatched field, none, .separator, list ++ [value]⟩ := by
  have hsize := hfresh.size
  cases field with
  | unquoted text plain =>
    by_cases hnil : text = []
    · subst hnil
      have hstep := step_sep_fresh hfresh (by omega)
      obtain ⟨a, htail⟩ := hfresh.room (n := 0) (by omega)
      have hleave : leave m.snatched (.unquoted [] plain) = m.snatched.set 0 0 := by
        rw [List.drop_zero] at htail
        rw [leave, htail]
        rfl
      rw [taken, ok_bind, hleave]
      exact (run_single m _).trans hstep
    · obtain ⟨state, hstate, hrun⟩ := run_first hfresh hnil plain hroom
      obtain ⟨a, htail⟩ := hfresh.room (n := text.length) hroom
      rw [htail] at hrun
      have hleave : leave m.snatched (.unquoted text plain) =
          (text ++ 0 :: m.snatched.drop (text.length + 1)).set 0 0 := by simp [leave, written]
      rw [taken, ok_bind, hleave, ← step_sep_plain text _ a state list hstate hnul, ← run_single]
      exact run_append hrun _
  | quoted before body after hbefore hafter =>
    have hbody := length_doubled body
    have hnobody : 0 ∉ body := fun h => hnul (by simp [quoted_text, mem_doubled h])
    rw [run_append (run_quoted hfresh body hbefore hafter hroom), run_single, taken, leave]
    simp only [quoted_text, List.length_append, List.length_cons] at hroom
    have hlen : ((written m.snatched before).set 0 0).length = size := by
      rw [List.length_set, length_written (by omega), hsize]
    generalize (written m.snatched before).set 0 0 = buffer at hlen
    obtain ⟨a, htail⟩ : ∃ a, buffer.drop body.length = a :: buffer.drop (body.length + 1) :=
      ⟨_, List.drop_eq_getElem_cons (by omega)⟩
    have hended : written buffer (body ++ [0]) = body ++ 0 :: buffer.drop (body.length + 1) := by simp [written]
    unfold spaced
    split_ifs with hnil hone hone
    · simp [hnil] at hone
    · -- right behind the quote
      rw [htail, hended, cString_append _ _ hnobody, ok_bind, ← step_sep_quoted body _ a list hnobody]
    · -- one blank: the text has no NUL of its own
      rw [List.append_nil]
      rw [holding, step_sep_spaced, written]
    · rw [hended, cString_append _ _ hnobody, ok_bind, htail, List.tail_cons]
      rw [step_sep_spaced, cString_append _ _ hnobody, ok_bind]

end Reading

/-! ## All fields before the last -/

/-- The automaton at the beginning of a line. -/
def begun (buffer : List UInt8) : Automaton := ⟨buffer, some 0, .newLine, []⟩

/-- The buffer that `malloc` returns, with a NUL in front. -/
def scratch (heap : ℕ → UInt8) (line : List UInt8) : List UInt8 := ((List.range (line.length + 1)).map heap).set 0 0

theorem length_scratch (heap : ℕ → UInt8) (line : List UInt8) : (scratch heap line).length = line.length + 1 := by
  simp [scratch]

theorem getElem?_scratch (heap : ℕ → UInt8) {line : List UInt8} (hj : 1 ≤ j) (hline : j ≤ line.length) :
    (scratch heap line)[j]? = some (heap j) := by
  rw [scratch, getElem?_set_zero _ hj, List.getElem?_map, List.getElem?_range (by omega), Option.map_some]

theorem cString_error (h : cString buffer = .error halt) : halt = .outOfBounds ∧ 0 ∉ buffer := by
  unfold cString at h
  split at h
  · cases h
  next hnul =>
    cases h
    exact ⟨rfl, hnul⟩

theorem taken_error (h : taken buffer field = .error halt) :
    halt = .outOfBounds ∧ 0 ∉ leave buffer field := by
  cases field with
  | unquoted text plain => cases h
  | quoted before body after hbefore hafter => exact cString_error h

/-- What the automaton has made of complete fields. -/
structure Collected (buffer : List UInt8) (fields : List CsvField) (m : Automaton) : Prop where
  fresh : Fresh m m.newlist buffer.length
  snatched : m.snatched = fields.foldl leave buffer
  length : m.newlist.length = fields.length
  values : ∀ k field, fields[k]? = some field →
    ∃ value, taken ((fields.take k).foldl leave buffer) field = .ok value ∧ m.newlist[k]? = some value

theorem run_append_error {m : Automaton} {s : List UInt8} (h : run m s = .error halt) (t : List UInt8) :
    run m (s ++ t) = .error halt := by
  unfold run at h ⊢
  rw [List.foldlM_append, h]
  rfl

theorem Collected.next {fields : List CsvField} {m : Automaton} (h : Collected buffer fields m) {value : List UInt8}
    (hvalue : taken m.snatched field = .ok value) (hroom : field.text.length < buffer.length) :
    Collected buffer (fields ++ [field]) ⟨leave m.snatched field, none, .separator, m.newlist ++ [value]⟩ := by
  have hsize := h.fresh.size
  refine ⟨⟨rfl, ?_, .inr ⟨rfl, rfl⟩⟩, ?_, ?_, ?_⟩
  · rw [length_leave (by omega), hsize]
  · rw [List.foldl_append, ← h.snatched]
    rfl
  · rw [List.length_append, List.length_append, h.length]
    rfl
  · intro k last hlast
    by_cases hk : k < fields.length
    · rw [List.getElem?_append_left hk] at hlast
      obtain ⟨earlier, htaken, hat⟩ := h.values k last hlast
      refine ⟨earlier, ?_, ?_⟩
      · rw [List.take_append_of_le_length (by omega)]
        exact htaken
      · rw [List.getElem?_append_left (by rw [h.length]; omega)]
        exact hat
    · have hklt := (List.getElem?_eq_some_iff.mp hlast).1
      rw [List.length_append, List.length_singleton] at hklt
      obtain rfl : k = fields.length := by omega
      rw [List.getElem?_append_right (Nat.le_refl _), Nat.sub_self, List.getElem?_cons_zero, Option.some.injEq] at hlast
      subst hlast
      refine ⟨value, ?_, ?_⟩
      · rw [List.take_append_of_le_length (Nat.le_refl _), List.take_length, ← h.snatched]
        exact hvalue
      · rw [← h.length, List.getElem?_append_right (Nat.le_refl _), Nat.sub_self, List.getElem?_cons_zero]

/-- The fields are all taken, or one of them has no NUL behind it in the whole buffer. -/
theorem run_fields (buffer : List UInt8) {fields : List CsvField} (hnul : 0 ∉ ended fields)
    (hroom : (ended fields).length < buffer.length) :
    (∃ m, run (begun buffer) (ended fields) = .ok m ∧ Collected buffer fields m) ∨
      run (begun buffer) (ended fields) = .error .outOfBounds ∧ ∃ earlier field later,
        fields = earlier ++ field :: later ∧ taken (earlier.foldl leave buffer) field = .error .outOfBounds := by
  induction fields using List.reverseRecOn with
  | nil => exact .inl ⟨begun buffer, rfl, ⟨rfl, rfl, .inl ⟨rfl, rfl⟩⟩, rfl, rfl, by simp⟩
  | append_singleton fields field ih =>
    rw [ended_snoc] at hnul hroom ⊢
    rw [List.mem_append, not_or, List.mem_append, not_or] at hnul
    simp only [List.length_append, List.length_singleton] at hroom
    obtain ⟨m, hrun, hm⟩ | ⟨hrun, earlier, first, later, rfl, htaken⟩ := ih hnul.1 (by omega)
    · have hfield := run_field hm.fresh field hnul.2.1 (by omega)
      rw [run_append hrun, hfield]
      cases htaken : taken m.snatched field with
      | ok value => exact .inl ⟨_, rfl, hm.next htaken (by omega)⟩
      | error halt =>
        obtain rfl := (taken_error htaken).1
        exact .inr ⟨rfl, fields, field, [], rfl, hm.snatched ▸ htaken⟩
    · exact .inr ⟨run_append_error hrun _, earlier, first, later ++ [field], by simp, htaken⟩

end Libntech.Csv
