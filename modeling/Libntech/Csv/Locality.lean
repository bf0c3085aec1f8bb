import Libntech.Csv.Rejection

/-! # What is read as a field

Each field of an accepted line is its own content (`ReadAs`), where the line leaves nothing in the buffer that a later
field takes (`Separate`): a NUL has to stand behind a field that is taken without one of its own, and the buffer must not
hold a text in quotes where the line ends behind a separator.
-/
namespace Libntech.Csv
set_option autoImplicit false

open Libntech.Containers

/-! ## The line end -/

/-- A text without the CRLF at its end. -/
def trimmed (text : List UInt8) : List UInt8 := if crlf <:+ text then text.take (text.length - 2) else text

/-- The length of a text, as the `int` that it is stored in; 0 where that is negative. -/
def intLength (text : List UInt8) : ℕ := (toInt text.length).toNat

/-- A text without the CRLF at its end, as far as an `int` counts it. -/
def cut (text : List UInt8) : List UInt8 :=
  if crlf <:+ text.take (intLength text) then text.take (intLength text - 2) else text

theorem intLength_le (text : List UInt8) : intLength text ≤ text.length := by
  have h := toInt_le text.length
  unfold intLength
  omega

variable {after before buffer line text value : List UInt8} {fields : List CsvField} {last : CsvField}
  {heap : ℕ → UInt8}

theorem intLength_of_lt (h : text.length < 2147483648) : intLength text = text.length := by
  rw [intLength, toInt_of_lt h, Int.toNat_natCast]

theorem toInt_lt (n : ℕ) : toInt n < 2147483648 := by
  rw [toInt, Int.bmod_def]
  omega

theorem crlf_suffix_iff {n : ℕ} (hn : n ≤ text.length) :
    crlf <:+ text.take n ↔ 2 ≤ n ∧ text[n - 2]? = some '\r'.toUInt8 ∧ text[n - 1]? = some '\n'.toUInt8 := by
  have hlen : (text.take n).length = n := by rw [List.length_take, Nat.min_eq_left hn]
  rw [List.suffix_iff_getElem?, hlen]
  constructor
  · rintro ⟨htwo, hat⟩
    have hcr := hat 0 (by decide)
    have hlf := hat 1 (by decide)
    have htwo : 2 ≤ n := htwo
    rw [List.getElem?_take_of_lt (by simp [crlf]; omega)] at hcr hlf
    refine ⟨htwo, ?_, ?_⟩
    · simpa [crlf] using hcr
    · have hplace : 1 + n - crlf.length = n - 1 := by simp [crlf]; omega
      rw [hplace] at hlf
      exact hlf
  · rintro ⟨htwo, hcr, hlf⟩
    refine ⟨htwo, fun i hi => ?_⟩
    have hi : i < 2 := hi
    obtain rfl | rfl : i = 0 ∨ i = 1 := by omega
    · rw [List.getElem?_take_of_lt (by simp [crlf]; omega)]
      simpa [crlf] using hcr
    · have hplace : 1 + n - crlf.length = n - 1 := by simp [crlf]; omega
      rw [List.getElem?_take_of_lt (by simp [crlf]; omega), hplace]
      exact hlf

/-- The trimming finds a CRLF at the end of what the `int` counts. -/
theorem trim_iff (text tail : List UInt8) : (1 < toInt text.length ∧
      itemAt (text ++ tail) (toInt text.length - 2) = some '\r'.toUInt8 ∧
      itemAt (text ++ tail) (toInt text.length - 1) = some '\n'.toUInt8) ↔ crlf <:+ text.take (intLength text) := by
  have hle := toInt_le text.length
  have hitem {i : ℤ} (hlow : 0 ≤ i) (hhigh : i < text.length) : itemAt (text ++ tail) i = text[i.toNat]? := by
    rw [itemAt, if_pos hlow, List.getElem?_append_left (by omega)]
  rw [crlf_suffix_iff (intLength_le text), intLength]
  by_cases hlong : 1 < toInt text.length
  · have hcr : (toInt text.length - 2).toNat = (toInt text.length).toNat - 2 := by omega
    have hlf : (toInt text.length - 1).toNat = (toInt text.length).toNat - 1 := by omega
    have htwo : 2 ≤ (toInt text.length).toNat := by omega
    rw [hitem (by omega) (by omega), hitem (by omega) (by omega), hcr, hlf, and_iff_right hlong, and_iff_right htwo]
  · refine iff_of_false (fun h => hlong h.1) fun h => hlong ?_
    have htwo := h.1
    omega

theorem cString_trimTrailing (tail : List UInt8) (hnul : 0 ∉ text) :
    cString (trimTrailing (text ++ 0 :: tail) text.length) = .ok (cut text) := by
  have hle := intLength_le text
  have htrim := trim_iff text (0 :: tail)
  unfold trimTrailing cut
  by_cases hcrlf : crlf <:+ text.take (intLength text)
  · have htwo := ((crlf_suffix_iff hle).mp hcrlf).1
    have hplace : (toInt text.length - 2).toNat = intLength text - 2 := by
      unfold intLength
      omega
    rw [if_pos hcrlf, if_pos (htrim.mpr hcrlf), hplace, List.set_append_left _ _ (by omega),
      List.set_eq_take_append_cons_drop, if_pos (by omega), List.append_assoc, List.cons_append]
    exact cString_append _ _ fun h => hnul (List.mem_of_mem_take h)
  · rw [if_neg hcrlf, if_neg fun h => hcrlf (htrim.mp h)]
    exact cString_append _ _ hnul

theorem cut_eq_iff (text : List UInt8) : cut text = trimmed text ↔
    text.length < 2147483648 ∨ ¬ crlf <:+ text ∧ ¬ crlf <:+ text.take (intLength text) := by
  by_cases hshort : text.length < 2147483648
  · rw [cut, trimmed, intLength_of_lt hshort, List.take_length]
    exact iff_of_true rfl (.inl hshort)
  · have hlt : intLength text < text.length := by
      have h := toInt_lt text.length
      unfold intLength
      omega
    have htrimmed : text.length - 2 ≤ (trimmed text).length := by
      unfold trimmed
      split_ifs
      · rw [List.length_take]
        omega
      · omega
    rw [or_iff_right hshort, cut]
    split_ifs with hcut
    · refine iff_of_false (fun h => ?_) fun h => h.2 hcut
      have htwo := ((crlf_suffix_iff hlt.le).mp hcut).1
      have hlen := congrArg List.length h
      rw [List.length_take] at hlen
      omega
    · rw [trimmed, and_iff_left hcut]
      split_ifs with hsuffix
      · refine iff_of_false (fun h => ?_) fun h => h hsuffix
        have hlen := congrArg List.length h
        rw [List.length_take] at hlen
        omega
      · exact iff_of_true rfl hsuffix

/-! ## Fields and their contents -/

/-- The content of the last field of a line. -/
def CsvField.lastValue : CsvField → List UInt8
  | .unquoted text _ => trimmed text
  | .quoted _ body _ _ _ => body

/-- The fields are those of the line. -/
structure ReadAs (line : List UInt8) (values : List (List UInt8)) : Prop where
  grammar : ∃ fields last, line = ended fields ++ CsvField.text last
  values : ∀ fields last, line = ended fields ++ CsvField.text last → values = fields.map CsvField.value ++ [last.lastValue]

/-- No field of the line takes a byte that is not its own. -/
structure Separate (fields : List CsvField) (last : CsvField) : Prop where
  /-- One blank behind the closing quote: the NUL behind the text is the last byte that an earlier text has put there. -/
  spaced : ∀ earlier before body after hbefore hafter later,
    fields = earlier ++ .quoted before body after hbefore hafter :: later → body ≠ [] → after.length = 1 →
    lastAt body.length (earlier.flatMap CsvField.writes ++ [before]) = some 0
  /-- No text in quotes is in front of an empty last field. -/
  empty : last.text = [] → ∀ earlier before body after hbefore hafter,
    fields = earlier ++ [.quoted before body after hbefore hafter] → body = []
  /-- An `int` finds the end of the last field. -/
  trimmed : ∀ text plain, last = .unquoted text plain →
    text.length < 2147483648 ∨ ¬ crlf <:+ text ∧ ¬ crlf <:+ text.take (intLength text)

/-! ## What is taken -/

theorem cString_ok (h : cString buffer = .ok value) : value = buffer.takeWhile (· ≠ 0) := by
  unfold cString at h
  split at h
  · exact (Except.ok.inj h).symm
  · cases h

/-- The string that begins with a text is that text, if the byte behind it is a NUL. -/
theorem cString_text_iff (hnul : 0 ∉ text) (hroom : text.length < buffer.length)
    (h : cString (text ++ buffer.drop text.length) = .ok value) : value = text ↔ buffer[text.length]? = some 0 := by
  rw [cString_ok h, Lib.takeWhile_ne_append hnul, List.append_right_eq_self, List.drop_eq_getElem_cons hroom, List.takeWhile_cons,
    List.getElem?_eq_getElem hroom, Option.some.injEq]
  split_ifs with hzero
  · exact iff_of_false id (of_decide_eq_true hzero)
  · exact iff_of_true rfl (by simpa using hzero)

/-- The buffer behind the opening quote of a field. -/
def opened (buffer before : List UInt8) : List UInt8 := (written buffer before).set 0 0

theorem length_opened (h : before.length ≤ buffer.length) :
    (opened buffer before).length = buffer.length := by rw [opened, List.length_set, length_written h]

theorem taken_quoted_iff {body : List UInt8} {hbefore : Blanks before} {hafter : Blanks after} (hnul : 0 ∉ body)
    (hbuffer : before.length ≤ buffer.length) (hroom : body.length < buffer.length)
    (h : taken buffer (.quoted before body after hbefore hafter) = .ok value) :
    value = body ↔ (body ≠ [] → after.length = 1 → (opened buffer before)[body.length]? = some 0) := by
  have hlen := length_opened hbuffer
  rw [taken, leave] at h
  by_cases hone : after.length = 1
  · rw [if_pos hone, List.append_nil, written] at h
    rw [cString_text_iff hnul (by rw [← opened, hlen]; exact hroom) h, ← opened]
    refine ⟨fun h _ _ => h, fun h => ?_⟩
    by_cases hnil : body = []
    · rw [hnil, List.length_nil, opened, List.getElem?_set_self]
      rw [length_written hbuffer]
      omega
    · exact h hnil hone
  · rw [if_neg hone, written, List.append_assoc, List.singleton_append, cString_append _ _ hnul, Except.ok.injEq] at h
    exact iff_of_true h.symm fun _ h => absurd h hone

theorem getElem?_opened_leave (earlier : List CsvField) (before : List UInt8) {j : ℕ} (hj : 1 ≤ j) :
    (opened (earlier.foldl leave buffer) before)[j]? =
      (lastAt j (earlier.flatMap CsvField.writes ++ [before])).or buffer[j]? := by
  rw [opened, getElem?_set_zero _ hj, getElem?_written, getElem?_leave_all _ _ hj, lastAt_append, lastAt_singleton,
    Option.or_assoc]

/-! ## The last field -/

section Last

variable {m : Automaton} {list : List (List UInt8)} {size : ℕ}

theorem finish_unquoted (hfresh : Fresh m list size) (hne : text ≠ []) (plain : PlainText text) (hnul : 0 ∉ text)
    (hroom : text.length < size) : run m text >>= finish = .ok (list ++ [cut text]) := by
  obtain ⟨state, hstate, hrun⟩ := run_first hfresh hne plain hroom
  obtain ⟨a, htail⟩ := hfresh.room hroom
  rw [hrun, htail, ok_bind]
  exact finish_plain _ _ _ _ _ _ hstate hnul (cString_trimTrailing _ hnul)

theorem finish_spaced (text tail : List UInt8) (a : UInt8) (hnul : 0 ∉ text) :
    finish (spaced text (a :: tail) after list) = .ok (list ++ [text]) := by
  unfold spaced
  split_ifs
  · exact finish_quoted text tail a list hnul
  · have htrim : (holding text (0 :: tail) .spaceAfterQuote list).trim =
        .ok (holding text (0 :: tail) .spaceAfterQuote list) := rfl
    unfold finish
    rw [holding_currentState, if_pos ⟨by decide, by decide⟩, terminate_holding, ok_bind, htrim, ok_bind,
      append_holding text tail .spaceAfterQuote list hnul]
    rfl
  · show (Automaton.append ⟨text ++ 0 :: tail, none, .spaceAfterQuote, list⟩ >>= _) = _
    rw [Automaton.append, cString_append text tail hnul]
    rfl

theorem finish_in_quotes (hfresh : Fresh m list size) (body : List UInt8) (hbefore : Blanks before)
    (hafter : Blanks after) (hnul : 0 ∉ body)
    (hroom : (CsvField.quoted before body after hbefore hafter).text.length < size) :
    run m (CsvField.quoted before body after hbefore hafter).text >>= finish = .ok (list ++ [body]) := by
  have hbody := length_doubled body
  have hsize := hfresh.size
  rw [run_quoted hfresh body hbefore hafter hroom, ok_bind]
  simp only [quoted_text, List.length_append, List.length_cons] at hroom
  have hlen : ((written m.snatched before).set 0 0).length = size := by
    rw [List.length_set, length_written (by omega), hsize]
  rw [List.drop_eq_getElem_cons (by omega)]
  exact finish_spaced _ _ _ hnul

/-- The line ends behind a separator: the string in the buffer is taken. -/
theorem finish_separator (hfresh : Fresh m list size) (hstate : m.currentState = .separator) :
    finish m = cString m.snatched >>= fun value => .ok (list ++ [value]) := by
  obtain ⟨snatched, sn, state, newlist⟩ := m
  obtain ⟨hlist, -, hfresh⟩ := hfresh
  simp only at hlist hstate hfresh
  subst hlist hstate
  obtain ⟨h, -⟩ | ⟨-, rfl⟩ := hfresh
  · cases h
  · show (Automaton.append ⟨snatched, none, .separator, newlist⟩ >>= _) = _
    unfold Automaton.append
    cases cString snatched with
    | error e => rfl
    | ok value => rfl

end Last

/-- What is taken as the last field. -/
def lastTaken (buffer : List UInt8) (fields : List CsvField) : CsvField → Except Halt (List UInt8)
  | .unquoted text _ =>
    if text ≠ [] then .ok (cut text)
    else if fields.isEmpty then .ok []
    else cString (fields.foldl leave buffer)
  | .quoted _ body _ _ _ => .ok body

theorem finish_last {m : Automaton} (hrun : run (begun buffer) (ended fields) = .ok m) (hm : Collected buffer fields m)
    (last : CsvField) (hnul : 0 ∉ last.text) (hroom : last.text.length < buffer.length) :
    run m last.text >>= finish = lastTaken buffer fields last >>= fun value => .ok (m.newlist ++ [value]) := by
  cases last with
  | unquoted text plain =>
    rw [lastTaken]
    split_ifs with hne hempty
    · exact finish_unquoted hm.fresh hne plain hnul hroom
    · rw [not_not] at hne
      rw [List.isEmpty_iff] at hempty
      subst hne hempty
      obtain rfl := Except.ok.inj hrun
      exact finish_empty hm.fresh (.inl ⟨rfl, rfl⟩) (by omega)
    · rw [not_not] at hne
      rw [List.isEmpty_iff] at hempty
      subst hne
      have hstate : m.currentState = .separator := (run_state hrun).trans (stateAfter_ended hempty)
      rw [← hm.snatched]
      exact finish_separator hm.fresh hstate
  | quoted before body after hbefore hafter =>
    have hnobody : 0 ∉ body := fun h => hnul (by simp [quoted_text, mem_doubled h])
    exact finish_in_quotes hm.fresh body hbefore hafter hnobody hroom

theorem length_leave_all (buffer : List UInt8) (fields : List CsvField) (hroom : (ended fields).length < buffer.length) :
    (fields.foldl leave buffer).length = buffer.length := by
  induction fields using List.reverseRecOn with
  | nil => rfl
  | append_singleton fields field ih =>
    simp only [ended_snoc, List.length_append, List.length_singleton] at hroom
    have hlen := ih (by omega)
    rw [List.foldl_append]
    exact (length_leave (by omega)).trans hlen

/-- The line ends behind the separator of a field: its text is taken once more, if it is in quotes. -/
theorem empty_iff {field : CsvField} (hnul : 0 ∉ ended (fields ++ [field]))
    (hroom : (ended (fields ++ [field])).length < buffer.length)
    (h : cString (leave (fields.foldl leave buffer) field) = .ok value) :
    value = [] ↔ ∀ before body after hbefore hafter, field = .quoted before body after hbefore hafter → body = [] := by
  rw [ended_snoc, List.mem_append, not_or, List.mem_append, not_or] at hnul
  simp only [ended_snoc, List.length_append, List.length_singleton] at hroom
  have hlen := length_leave_all buffer fields (by omega)
  cases field with
  | unquoted text plain =>
    have hwritten : written (fields.foldl leave buffer) (text ++ [0]) ≠ [] := by simp [written]
    rw [leave, cString_cleared hwritten] at h
    obtain rfl := Except.ok.inj h
    refine iff_of_true rfl fun _ _ _ _ _ hfield => ?_
    cases hfield
  | quoted before body after hbefore hafter =>
    have hbody := length_doubled body
    have hnobody : 0 ∉ body := fun h => hnul.2.1 (by simp [quoted_text, mem_doubled h])
    simp only [quoted_text, List.length_append, List.length_cons] at hroom
    have htaken := taken_quoted_iff hnobody (by omega) (by omega) h
    constructor
    · rintro rfl before' body' after' hbefore' hafter' hfield
      cases hfield
      rw [leave, written, List.append_assoc] at h
      have hempty := cString_ok h
      rw [Lib.takeWhile_ne_append hnobody] at hempty
      exact (List.append_eq_nil_iff.mp hempty.symm).1
    · intro hfield
      have hnil := hfield _ _ _ _ _ rfl
      rw [← hnil, htaken]
      exact fun hne => absurd hnil hne

theorem lastTaken_iff (hnul : 0 ∉ ended fields) (hroom : (ended fields).length < buffer.length)
    (h : lastTaken buffer fields last = .ok value) :
    value = last.lastValue ↔
      (last.text = [] → ∀ earlier before body after hbefore hafter,
        fields = earlier ++ [.quoted before body after hbefore hafter] → body = []) ∧
      ∀ text plain, last = .unquoted text plain →
        text.length < 2147483648 ∨ ¬ crlf <:+ text ∧ ¬ crlf <:+ text.take (intLength text) := by
  cases last with
  | quoted before body after hbefore hafter =>
    refine iff_of_true (Except.ok.inj h).symm ⟨fun hnil => absurd hnil (quoted_ne_nil _ _ _ _ _), ?_⟩
    intro text plain hlast
    cases hlast
  | unquoted text plain =>
    rw [lastTaken] at h
    by_cases hne : text ≠ []
    · rw [if_pos hne, Except.ok.injEq] at h
      rw [← h]
      refine (cut_eq_iff text).trans ⟨fun hcut => ⟨fun hnil => absurd hnil hne, ?_⟩, fun hlast => hlast.2 text plain rfl⟩
      intro text' plain' hlast
      cases hlast
      exact hcut
    · rw [if_neg hne] at h
      rw [not_not] at hne
      subst hne
      rw [and_iff_left fun text' plain' hlast => by cases hlast; exact .inl (by decide)]
      show value = [] ↔ _
      induction fields using List.reverseRecOn with
      | nil =>
        obtain rfl := Except.ok.inj h
        refine iff_of_true rfl fun _ earlier before body after hbefore hafter hfields => ?_
        simp at hfields
      | append_singleton fields field =>
        rw [if_neg (by simp), List.foldl_append] at h
        exact (empty_iff hnul hroom h).trans
          ⟨fun hfield _ earlier before body after hbefore hafter hfields => hfield before body after hbefore hafter
            (by simpa using (List.append_inj' hfields rfl).2),
          fun hfields before body after hbefore hafter hfield =>
            hfields rfl fields before body after hbefore hafter (by rw [hfield])⟩

theorem launch_values {values : List (List UInt8)} (hnul : 0 ∉ line) (h : launchCsvAutomata heap line = .ok values)
    (hline : line = ended fields ++ last.text) : ∃ newlist value, values = newlist ++ [value] ∧
      lastTaken (scratch heap line) fields last = .ok value ∧ newlist.length = fields.length ∧
      ∀ k field, fields[k]? = some field → ∃ value,
        taken ((fields.take k).foldl leave (scratch heap line)) field = .ok value ∧ newlist[k]? = some value := by
  have hroom := length_scratch heap line
  have hlen := congrArg List.length hline
  rw [List.length_append] at hlen
  rw [launch_eq] at h
  nth_rewrite 2 [hline] at h
  rw [hline, List.mem_append, not_or] at hnul
  obtain ⟨m, hrun, hm⟩ | ⟨hrun, -⟩ := run_fields (scratch heap line) hnul.1 (by omega)
  · rw [run_append hrun, finish_last hrun hm last hnul.2 (by omega)] at h
    obtain ⟨value, hvalue, hlist⟩ := bind_ok h
    exact ⟨m.newlist, value, (Except.ok.inj hlist).symm, hvalue, hm.length, hm.values⟩
  · rw [run_append_error hrun] at h
    cases h

/-! ## Memory with a NUL at its end -/

theorem zero_mem_set (h : 0 ∈ buffer) (i : ℕ) : 0 ∈ buffer.set i 0 := by
  by_cases hi : i < buffer.length
  · exact List.mem_set hi 0
  · rw [List.set_eq_of_length_le (by omega)]
    exact h

theorem finish_in_bounds {m : Automaton} {n size : ℕ} (h : Within m n size) (hroom : n < size) (hnul : 0 ∈ m.snatched) :
    finish m ≠ .error .outOfBounds := by
  obtain ⟨m₁, hterminate, hnul₁⟩ : ∃ m₁, m.terminate = .ok m₁ ∧ 0 ∈ m₁.snatched := by
    unfold Automaton.terminate
    cases hsn : m.sn with
    | none => exact ⟨m, rfl, hnul⟩
    | some i =>
      obtain ⟨k, -, -, hput⟩ := put_within h hroom (by rw [hsn]; rfl) 0
      exact ⟨_, hput, zero_mem_set hnul k⟩
  obtain ⟨m₂, htrim, hnul₂⟩ : ∃ m₂, m₁.trim = .ok m₂ ∧ 0 ∈ m₂.snatched := by
    unfold Automaton.trim
    split
    · rw [cString, if_pos hnul₁, ok_bind]
      refine ⟨_, rfl, ?_⟩
      unfold trimTrailing
      simp only
      split
      · exact zero_mem_set hnul₁ _
      · exact hnul₁
    · exact ⟨m₁, rfl, hnul₁⟩
  unfold finish
  rw [hterminate, ok_bind, htrim, ok_bind, Automaton.append, cString, if_pos hnul₂, ok_bind, ok_bind]
  split
  · intro h
    cases h
  · intro h
    cases h

/-- Where the last byte of the buffer is a NUL, every text ends in the buffer. -/
theorem launch_in_bounds (hzero : line = [] ∨ heap line.length = 0) :
    launchCsvAutomata heap line ≠ .error .outOfBounds := by
  intro h
  have hroom := length_scratch heap line
  have hlast : (scratch heap line)[line.length]? = some 0 := by
    by_cases hnil : line = []
    · rw [hnil]
      rfl
    · have hpos := List.length_pos_iff.mpr hnil
      rw [getElem?_scratch heap hpos (Nat.le_refl _), hzero.resolve_left hnil]
  have hbegun := begun_within (scratch heap line)
  rw [launch_eq] at h
  obtain hrun | ⟨m, hrun, hfinish⟩ := bind_error h
  · obtain ⟨front, rest, m, hline, hfront, -, hnul⟩ := run_outOfBounds (by omega) hrun
    have hlen := congrArg List.length hline
    rw [List.length_append] at hlen
    have hfar := (run_ok_within hbegun (by omega) hfront).2 line.length (by omega)
    exact hnul (List.mem_of_getElem? (hfar.trans hlast))
  · obtain ⟨hwithin, hfar⟩ := run_ok_within hbegun (by omega) hrun
    rw [Nat.zero_add] at hwithin hfar
    have hnul : 0 ∈ m.snatched := List.mem_of_getElem? ((hfar _ (Nat.le_refl _)).trans hlast)
    exact finish_in_bounds hwithin (by omega) hnul hfinish

/-! ## Accepted lines -/

theorem accepted_of_not_failed (heap : ℕ → UInt8) (hzero : line = [] ∨ heap line.length = 0)
    (hfields : ¬ Malformed line ∨ Violation line) : ∃ values, launchCsvAutomata heap line = .ok values := by
  cases hlaunch : launchCsvAutomata heap line with
  | ok values => exact ⟨values, rfl⟩
  | error halt =>
    cases halt with
    | failed e =>
      obtain ⟨hmalformed, hviolation⟩ := launch_failed hlaunch
      exact absurd hfields (not_or.mpr ⟨not_not.mpr hmalformed, hviolation⟩)
    | outOfBounds => exact absurd hlaunch (launch_in_bounds hzero)

theorem ended_append (s t : List CsvField) : ended (s ++ t) = ended s ++ ended t := List.flatMap_append

theorem ended_cons (field : CsvField) (fields : List CsvField) :
    ended (field :: fields) = field.text ++ ','.toUInt8 :: ended fields := by simp [ended]

/-- A field in quotes in the middle of a line is taken as its text, if a NUL is behind that. -/
theorem quoted_value_iff {body : List UInt8} {earlier later : List CsvField} {hbefore : Blanks before}
    {hafter : Blanks after} (hnul : 0 ∉ line)
    (hline : line = ended (earlier ++ .quoted before body after hbefore hafter :: later) ++ last.text)
    (h : taken (earlier.foldl leave (scratch heap line)) (.quoted before body after hbefore hafter) = .ok value) :
    value = body ↔ (body ≠ [] → after.length = 1 →
      (lastAt body.length (earlier.flatMap CsvField.writes ++ [before])).or (some (heap body.length)) = some 0) := by
  have hbody := length_doubled body
  have hlen := congrArg List.length hline
  have hsize := length_scratch heap line
  have hnobody : 0 ∉ body := by
    intro hzero
    refine hnul ?_
    rw [hline, ended_append, ended_cons, quoted_text]
    simp [mem_doubled hzero]
  simp only [ended_append, ended_cons, quoted_text, List.length_append, List.length_cons] at hlen
  have hleave := length_leave_all (scratch heap line) earlier (by omega)
  rw [taken_quoted_iff hnobody (by omega) (by omega) h]
  refine imp_congr_right fun hne => imp_congr_right fun _ => ?_
  have hpos := List.length_pos_iff.mpr hne
  rw [getElem?_opened_leave _ _ hpos, getElem?_scratch _ hpos (by omega)]

/-- Every field of an accepted line is its own content, whatever is in the memory, exactly in the lines whose last
character is no violation and whose fields are separate. -/
theorem seqParseCsvString_local_iff (line : Field) :
    (∀ heap values, seqParseCsvString heap line.bytes = .list values → ReadAs line.bytes values) ↔
      ¬ Violation line.bytes ∧ ∀ fields last, line.bytes = ended fields ++ CsvField.text last → Separate fields last := by
  have hnul := line.nul_free
  constructor
  · intro h
    refine ⟨fun hviolation => ?_, fun fields last hline => ?_⟩
    · obtain ⟨values, hvalues⟩ := accepted_of_not_failed (fun _ => 0) (.inr rfl) (.inr hviolation)
      have hfields := (h _ values ((parse_list_iff _ line values).mpr hvalues)).grammar
      have hmalformed : Malformed (line.bytes ++ []) := .violated hviolation
      rw [List.append_nil] at hmalformed
      exact (wellformed_iff _).mpr hfields hmalformed
    · have hread (heap : ℕ → UInt8) (hzero : line.bytes = [] ∨ heap line.bytes.length = 0) :
          lastTaken (scratch heap line.bytes) fields last = .ok last.lastValue ∧ ∀ k field, fields[k]? = some field →
            taken ((fields.take k).foldl leave (scratch heap line.bytes)) field = .ok field.value := by
        obtain ⟨values, hvalues⟩ := accepted_of_not_failed heap hzero (.inl ((wellformed_iff _).mpr ⟨fields, last, hline⟩))
        have hread := (h _ values ((parse_list_iff _ line values).mpr hvalues)).values fields last hline
        obtain ⟨newlist, value, rfl, hlast, -, htaken⟩ := launch_values hnul hvalues hline
        obtain ⟨rfl, hvalue⟩ := List.append_inj' hread rfl
        refine ⟨by rw [hlast, List.singleton_inj.mp hvalue], fun k field hfield => ?_⟩
        obtain ⟨value, hvalue, hat⟩ := htaken k field hfield
        rw [List.getElem?_map, hfield, Option.map_some, Option.some.injEq] at hat
        rw [hvalue, hat]
      obtain ⟨hlast, -⟩ := hread (fun _ => 0) (.inr rfl)
      have hlen := congrArg List.length hline
      rw [List.length_append] at hlen
      have hscratch := length_scratch (fun _ => 0) line.bytes
      have hended : 0 ∉ ended fields := fun hzero => hnul (by rw [hline]; exact List.mem_append_left _ hzero)
      obtain ⟨hempty, htrimmed⟩ := (lastTaken_iff hended (by omega) hlast).mp rfl
      refine ⟨?_, hempty, htrimmed⟩
      rintro earlier before body after hbefore hafter later rfl hne hone
      -- the byte behind the text is not NUL in the memory, and the last one is
      have hshort : body.length < line.bytes.length := by
        have hbody := length_doubled body
        rw [hline]
        simp only [ended_append, ended_cons, quoted_text, List.length_append, List.length_cons]
        omega
      obtain ⟨-, htaken⟩ := hread (fun j => if j = body.length then 1 else 0)
        (.inr (if_neg (by omega)))
      have hvalue := htaken earlier.length (.quoted before body after hbefore hafter) (by simp)
      rw [List.take_left] at hvalue
      have hzero := (quoted_value_iff hnul hline hvalue).mp rfl hne hone
      rw [if_pos rfl, Option.or_eq_some_iff] at hzero
      obtain hzero | ⟨-, hone⟩ := hzero
      · exact hzero
      · exact absurd (Option.some.inj hone) (by decide)
  · rintro ⟨hviolation, hseparate⟩ heap values haccepted
    have hvalues := (parse_list_iff heap line values).mp haccepted
    refine ⟨(wellformed_iff _).mp fun hmalformed => ?_, fun fields last hline => ?_⟩
    · obtain ⟨m, hrun, hfinish⟩ := bind_ok hvalues
      rw [finish_malformed hrun hmalformed hviolation] at hfinish
      cases hfinish
    · have hfields := hseparate fields last hline
      have hlen := congrArg List.length hline
      rw [List.length_append] at hlen
      have hscratch := length_scratch heap line.bytes
      have hended : 0 ∉ ended fields := fun hzero => hnul (by rw [hline]; exact List.mem_append_left _ hzero)
      obtain ⟨newlist, value, rfl, hlast, hnewlist, htaken⟩ := launch_values hnul hvalues hline
      rw [(lastTaken_iff hended (by omega) hlast).mpr ⟨hfields.empty, hfields.trimmed⟩]
      congr 1
      refine List.ext_getElem? fun k => ?_
      rw [List.getElem?_map]
      by_cases hk : k < fields.length
      · obtain ⟨value, hvalue, hat⟩ := htaken k _ (List.getElem?_eq_getElem hk)
        rw [hat, List.getElem?_eq_getElem hk, Option.map_some]
        have hsplit : fields = fields.take k ++ fields[k] :: fields.drop (k + 1) := by simp
        generalize fields[k] = field at hvalue hsplit ⊢
        cases field with
        | unquoted text plain => rw [← Except.ok.inj hvalue]; rfl
        | quoted before body after hbefore hafter =>
          rw [hsplit] at hline
          refine congrArg some ((quoted_value_iff hnul hline hvalue).mpr fun hne hone => ?_)
          rw [hfields.spaced _ _ _ _ _ _ _ hsplit hne hone, Option.some_or]
      · rw [List.getElem?_eq_none (by omega), List.getElem?_eq_none (by omega), Option.map_none]

/-- The empty field behind `"x",` is read as `x`. -/
theorem text_taken_twice : seqParseCsvString (fun _ => 0) ['"'.toUInt8, 'x'.toUInt8, '"'.toUInt8, ','.toUInt8] =
      .list [['x'.toUInt8], ['x'.toUInt8]] ∧
    ¬ ReadAs ['"'.toUInt8, 'x'.toUInt8, '"'.toUInt8, ','.toUInt8] [['x'.toUInt8], ['x'.toUInt8]] := by
  refine ⟨by decide, fun h => ?_⟩
  have hvalues := h.values [.quoted [] ['x'.toUInt8] [] blanks_nil blanks_nil] (.unquoted [] blanks_nil.plain) rfl
  exact absurd hvalues (by decide)

end Libntech.Csv
