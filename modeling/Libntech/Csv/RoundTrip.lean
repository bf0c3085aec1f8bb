import Libntech.Csv.ParserMeaning
import Mathlib.Data.List.TakeWhile

/-! # Writing CSV and reading it back

The writer quotes the fields that need it, `GetCsvLineNext` counts the quotes to find the end of a line, and
`SeqParseCsvString` takes the line apart. The three agree but for two things. The buffer of the automaton is not
cleared behind a quoted field, and an empty field at the end of the text is taken from it. Lengths pass through an
`int` where a string is written and where the CRLF behind a field that is not quoted is trimmed.
-/
namespace Libntech.Csv
set_option autoImplicit false

/-! ## One record -/

/-- The fields of a terminated line, as they are read. -/
def lineFields : List Field → List (List UInt8)
  | [] => []
  | [f] => [lineEnd f.bytes]
  | f :: f' :: fs => kept f.bytes :: lineFields (f' :: fs)

/-- The fields of a text without the line end, as they are read, with `prev` in the buffer. -/
def bareFields (prev : List UInt8) : List Field → List (List UInt8)
  | [] => []
  | [f] => [if f.bytes = [] then prev else kept f.bytes]
  | f :: f' :: fs => kept f.bytes :: bareFields (leftover f.bytes) (f' :: fs)

theorem run_line (fields : List Field) (hne : fields ≠ []) {m : Automaton} {list : List (List UInt8)} {size : ℕ}
    (hfresh : Fresh m list size) (hroom : (recordText fields ++ crlf).length < size) :
    ∃ m', run m (recordText fields ++ crlf) = .ok m' ∧ finish m' = .ok (list ++ lineFields fields) := by
  fun_induction lineFields fields generalizing m list with
  | case1 => exact absurd rfl hne
  | case2 f => exact finish_line hfresh f hroom
  | case3 f f' fs ih =>
    rw [recordText, List.append_cons, List.append_assoc] at *
    rw [List.length_append, List.length_append, List.length_singleton] at hroom
    obtain ⟨m₁, hrun₁, hfresh₁, _, _⟩ := run_separated hfresh f (by omega)
    obtain ⟨m₂, hrun₂, hfinish⟩ := ih (List.cons_ne_nil _ _) hfresh₁ (by omega)
    refine ⟨m₂, ?_, ?_⟩
    · rw [run_append hrun₁, hrun₂]
    · rw [hfinish, List.append_assoc]
      rfl

theorem run_bare (prev : List UInt8) (fields : List Field) (hne : fields ≠ []) {m : Automaton}
    {list : List (List UInt8)} {size : ℕ} (hfresh : Fresh m list size) (hprev : Behind m prev)
    (hroom : (recordText fields).length < size) :
    ∃ m', run m (recordText fields) = .ok m' ∧ finish m' = .ok (list ++ bareFields prev fields) := by
  fun_induction bareFields prev fields generalizing m list with
  | case1 => exact absurd rfl hne
  | case2 prev f => exact finish_bare hfresh hprev f hroom
  | case3 prev f f' fs ih =>
    rw [recordText, List.append_cons] at *
    rw [List.length_append, List.length_append, List.length_singleton] at hroom
    obtain ⟨m₁, hrun₁, hfresh₁, hstate, hstring⟩ := run_separated hfresh f (by omega)
    obtain ⟨m₂, hrun₂, hfinish⟩ := ih (List.cons_ne_nil _ _) hfresh₁ (.inr ⟨hstate, hstring⟩) (by omega)
    refine ⟨m₂, ?_, ?_⟩
    · rw [run_append hrun₁, hrun₂]
    · rw [hfinish, List.append_assoc]
      rfl

/-- The automaton as the parser starts it. -/
def start (heap : ℕ → UInt8) (str : List UInt8) : Automaton :=
  { snatched := ((List.range (str.length + 1)).map heap).set 0 0, sn := some 0, currentState := .newLine, newlist := [] }

theorem start_fresh (heap : ℕ → UInt8) (str : List UInt8) : Fresh (start heap str) [] (str.length + 1) := by
  refine ⟨rfl, ?_, .inl ⟨rfl, rfl⟩⟩
  simp [start]

theorem seqParseCsvString_of_run {heap : ℕ → UInt8} {str : List UInt8} {m : Automaton} {fields : List (List UInt8)}
    (hnul : 0 ∉ str) (hrun : run (start heap str) str = .ok m) (hfinish : finish m = .ok fields) :
    seqParseCsvString heap str = .list fields := by
  have htake : str.takeWhile (fun c => decide (c ≠ 0)) = str := by
    rw [List.takeWhile_eq_self_iff]
    intro c hc
    exact decide_eq_true fun h => hnul (h ▸ hc)
  have hlaunch : launchCsvAutomata heap str = .ok fields := by
    show (run (start heap str) str >>= finish) = _
    rw [hrun, ok_bind, hfinish]
  unfold seqParseCsvString
  rw [htake, hlaunch]

theorem doubled_nul_free {s : List UInt8} (h : 0 ∉ s) : 0 ∉ doubled s := by
  induction s with
  | nil => exact List.not_mem_nil
  | cons c s ih =>
    rw [List.mem_cons, not_or] at h
    rw [doubled]
    split
    · simp only [List.mem_cons, not_or]
      exact ⟨by decide, h.1, ih h.2⟩
    · simp only [List.mem_cons, not_or]
      exact ⟨h.1, ih h.2⟩

theorem fieldText_nul_free (f : Field) : 0 ∉ fieldText f.bytes := by
  by_cases hspecial : f.bytes.any special = true
  · rw [fieldText_of_special hspecial]
    simp only [List.mem_cons, List.mem_append, List.not_mem_nil, or_false, not_or]
    exact ⟨by decide, doubled_nul_free f.nul_free, by decide⟩
  · rw [fieldText_of_plain hspecial]
    exact kept_nul_free f

theorem recordText_nul_free (fields : List Field) : 0 ∉ recordText fields := by
  fun_induction recordText fields with
  | case1 => exact List.not_mem_nil
  | case2 f => exact fieldText_nul_free f
  | case3 f f' fs ih =>
    rw [List.mem_append, List.mem_cons, not_or, not_or]
    exact ⟨fieldText_nul_free f, by decide, ih⟩

theorem parse_line (heap : ℕ → UInt8) (r : Record) :
    seqParseCsvString heap (recordText r.fields ++ crlf) = .list (lineFields r.fields) := by
  obtain ⟨m, hrun, hfinish⟩ := run_line r.fields r.nonempty (start_fresh heap _) (Nat.lt_succ_self _)
  refine seqParseCsvString_of_run ?_ hrun hfinish
  rw [List.mem_append, not_or]
  exact ⟨recordText_nul_free r.fields, crlf_nul_free⟩

theorem parse_bare (heap : ℕ → UInt8) (r : Record) :
    seqParseCsvString heap (recordText r.fields) = .list (bareFields [] r.fields) := by
  obtain ⟨m, hrun, hfinish⟩ := run_bare [] r.fields r.nonempty (start_fresh heap _) (.inl ⟨rfl, rfl⟩) (Nat.lt_succ_self _)
  exact seqParseCsvString_of_run (recordText_nul_free r.fields) hrun hfinish

/-! ## Without the line end -/

/-- A field that is not quoted is written as far as an `int` counts. -/
def Writable (f : Field) : Prop := ¬ f.bytes.any special = true → f.bytes.length ≤ intMax

theorem kept_eq_iff (f : Field) : kept f.bytes = f.bytes ↔ Writable f := by
  unfold Writable
  by_cases hspecial : f.bytes.any special = true
  · rw [kept_of_special hspecial]
    exact ⟨fun _ h => absurd hspecial h, fun _ => rfl⟩
  · rw [kept, if_neg hspecial]
    refine ⟨fun h _ => ?_, fun h => List.take_of_length_le (h hspecial)⟩
    have hlen := congrArg List.length h
    rw [List.length_take] at hlen
    omega

theorem leftover_eq_nil_iff (f : Field) : leftover f.bytes = [] ↔ ¬ f.bytes.any special = true := by
  unfold leftover
  split
  next hspecial => exact ⟨fun h => absurd h (ne_nil_of_special hspecial), fun h => absurd hspecial h⟩
  next hspecial => exact ⟨fun _ => hspecial, fun _ => rfl⟩

/-- The last field is empty and the one before it is quoted. -/
def EmptyBehindQuoted (fields : List Field) : Prop :=
  ∃ init f g, fields = init ++ [f, g] ∧ f.bytes.any special = true ∧ g.bytes = []

theorem emptyBehindQuoted_cons (f f' : Field) (fs : List Field) : EmptyBehindQuoted (f :: f' :: fs) ↔
    (f.bytes.any special = true ∧ fs = [] ∧ f'.bytes = []) ∨ EmptyBehindQuoted (f' :: fs) := by
  constructor
  · rintro ⟨init, x, y, heq, hx, hy⟩
    cases init with
    | nil =>
      cases heq
      exact .inl ⟨hx, rfl, hy⟩
    | cons z init =>
      rw [List.cons_append, List.cons.injEq] at heq
      exact .inr ⟨init, x, y, heq.2, hx, hy⟩
  · rintro (⟨hf, rfl, hf'⟩ | ⟨init, x, y, heq, hx, hy⟩)
    · exact ⟨[], f, f', rfl, hf, hf'⟩
    · exact ⟨f :: init, x, y, congrArg (f :: ·) heq, hx, hy⟩

theorem not_emptyBehindQuoted_singleton (f : Field) : ¬ EmptyBehindQuoted [f] := by
  rintro ⟨init, x, y, heq, _⟩
  have hlen := congrArg List.length heq
  rw [List.length_append, List.length_singleton] at hlen
  exact absurd hlen (by simp)

theorem bareFields_eq_iff (prev : List UInt8) (fields : List Field) :
    bareFields prev fields = fields.map Field.bytes ↔ (∀ f ∈ fields, Writable f) ∧
      (∀ f, fields = [f] → f.bytes = [] → prev = []) ∧ ¬ EmptyBehindQuoted fields := by
  fun_induction bareFields prev fields with
  | case1 prev =>
    refine iff_of_true rfl ⟨fun f hf => absurd hf List.not_mem_nil, fun f hf => absurd hf (by simp), ?_⟩
    rintro ⟨init, x, y, heq, _⟩
    exact absurd heq (by simp)
  | case2 prev f =>
    have hbehind := not_emptyBehindQuoted_singleton f
    simp only [List.map_cons, List.map_nil, List.mem_singleton, forall_eq, List.cons.injEq, and_true, hbehind,
      not_false_eq_true, ← kept_eq_iff]
    by_cases hnil : f.bytes = []
    · rw [if_pos hnil, hnil]
      exact ⟨fun h => ⟨rfl, fun g hg _ => h⟩, fun h => h.2 f rfl hnil⟩
    · rw [if_neg hnil]
      exact ⟨fun h => ⟨h, fun g hg hg' => absurd (hg ▸ hg') hnil⟩, fun h => h.1⟩
  | case3 prev f f' fs ih =>
    have hsingle : (∀ g, f' :: fs = [g] → g.bytes = [] → leftover f.bytes = []) ↔
        ¬ (f.bytes.any special = true ∧ fs = [] ∧ f'.bytes = []) := by
      constructor
      · rintro h ⟨hf, rfl, hf'⟩
        exact (leftover_eq_nil_iff f).mp (h f' rfl hf') hf
      · intro h g hg hnil
        rw [List.cons.injEq] at hg
        rw [leftover_eq_nil_iff]
        intro hf
        exact h ⟨hf, hg.2, hg.1 ▸ hnil⟩
    have hmore : ∀ g, f :: f' :: fs = [g] → g.bytes = [] → prev = [] := by
      intro g hg
      cases hg
    have hall : (∀ g ∈ f :: f' :: fs, Writable g) ↔ Writable f ∧ ∀ g ∈ f' :: fs, Writable g := List.forall_mem_cons
    rw [List.map_cons, List.cons.injEq, ih, kept_eq_iff, emptyBehindQuoted_cons, hall, and_assoc, hsingle, not_or]
    exact ⟨fun ⟨hf, hrest, hempty⟩ => ⟨hf, hrest, hmore, hempty⟩, fun ⟨hf, hrest, _, hempty⟩ => ⟨hf, hrest, hempty⟩⟩

/-- The record comes back from its text without the line end, written so or trimmed. -/
def ReturnsBare (r : Record) : Prop := ∀ heap : ℕ → UInt8,
  seqParseCsvString heap (csvLine false r) = .list (r.fields.map Field.bytes) ∧
    seqParseCsvString heap (trimCSVLineCRLF (csvLine true r)) = .list (r.fields.map Field.bytes)

theorem returnsBare_iff (r : Record) : ReturnsBare r ↔ (∀ f ∈ r.fields, Writable f) ∧ ¬ EmptyBehindQuoted r.fields := by
  have hparse : ∀ heap : ℕ → UInt8, seqParseCsvString heap (csvLine false r) = .list (bareFields [] r.fields) := by
    intro heap
    rw [csvLine_eq, if_neg Bool.false_ne_true, List.append_nil, parse_bare]
  have heq := bareFields_eq_iff [] r.fields
  unfold ReturnsBare
  simp only [trimCSVLineCRLF_csvLine, hparse, Parsed.list.injEq, and_self, forall_const, heq]
  exact ⟨fun ⟨hwrite, _, hempty⟩ => ⟨hwrite, hempty⟩, fun ⟨hwrite, hempty⟩ => ⟨hwrite, fun _ _ _ => trivial, hempty⟩⟩

/-- The fields `a,b` and the empty one: the first comes back twice. -/
theorem empty_field_lost : ∃ r : Record, r.fields.map Field.bytes = [[97, 44, 98], []] ∧ ¬ ReturnsBare r := by
  refine ⟨⟨[⟨[97, 44, 98], by decide⟩, ⟨[], by decide⟩], List.cons_ne_nil _ _⟩, rfl, ?_⟩
  intro h
  have hread := (h fun _ => 0).1
  revert hread
  decide

/-! ## Lines of a file -/

/-- `s` does not end the line: the reader goes on behind it with `prev'` and `inQuotes'`. -/
def Passes (prev : UInt8) (inQuotes : Bool) (s : List UInt8) (prev' : UInt8) (inQuotes' : Bool) : Prop :=
  ∀ rest, readLine prev inQuotes (s ++ rest) =
    (s ++ (readLine prev' inQuotes' rest).1, (readLine prev' inQuotes' rest).2)

theorem Passes.nil (prev : UInt8) (inQuotes : Bool) : Passes prev inQuotes [] prev inQuotes := by
  intro rest
  rfl

theorem Passes.trans {prev prev' prev'' : UInt8} {q q' q'' : Bool} {s t : List UInt8} (hs : Passes prev q s prev' q')
    (ht : Passes prev' q' t prev'' q'') : Passes prev q (s ++ t) prev'' q'' := by
  intro rest
  rw [List.append_assoc, hs, ht, List.append_assoc]

theorem passes_quote (prev : UInt8) (q : Bool) : Passes prev q ['"'.toUInt8] '"'.toUInt8 (!q) := by
  intro rest
  exact if_pos rfl

theorem passes_byte (prev c : UInt8) (q : Bool) (hc : c ≠ '"'.toUInt8) (hlf : q = true ∨ c ≠ '\n'.toUInt8) :
    Passes prev q [c] c q := by
  intro rest
  have hend : ¬ ((!q) = true ∧ c = '\n'.toUInt8 ∧ prev = '\r'.toUInt8) := by
    rintro ⟨hq, hc', _⟩
    obtain hq' | hc'' := hlf
    · rw [hq'] at hq
      cases hq
    · exact hc'' hc'
  rw [List.singleton_append, readLine, if_neg hc, if_neg hend]
  rfl

theorem passes_plain (s : List UInt8) (hs : ∀ c ∈ s, special c = false) (prev : UInt8) :
    ∃ prev', Passes prev false s prev' false := by
  induction s generalizing prev with
  | nil => exact ⟨prev, Passes.nil prev false⟩
  | cons c s ih =>
    have hc := hs c List.mem_cons_self
    simp only [special, Bool.or_eq_false_iff, beq_eq_false_iff_ne] at hc
    obtain ⟨prev', hrest⟩ := ih (fun d hd => hs d (List.mem_cons_of_mem c hd)) c
    exact ⟨prev', (passes_byte prev c false hc.1.1.1 (.inr hc.2)).trans hrest⟩

theorem passes_doubled (s : List UInt8) (prev : UInt8) : ∃ prev', Passes prev true (doubled s) prev' true := by
  induction s generalizing prev with
  | nil => exact ⟨prev, Passes.nil prev true⟩
  | cons c s ih =>
    rw [doubled]
    split
    next hquote =>
      subst hquote
      obtain ⟨prev', hrest⟩ := ih '"'.toUInt8
      exact ⟨prev', (passes_quote prev true).trans ((passes_quote '"'.toUInt8 false).trans hrest)⟩
    next hquote =>
      obtain ⟨prev', hrest⟩ := ih c
      exact ⟨prev', (passes_byte prev c true hquote (.inl rfl)).trans hrest⟩

theorem passes_fieldText (f : List UInt8) (prev : UInt8) : ∃ prev', Passes prev false (fieldText f) prev' false := by
  by_cases hspecial : f.any special = true
  · rw [fieldText_of_special hspecial]
    obtain ⟨prev', hbody⟩ := passes_doubled f '"'.toUInt8
    exact ⟨'"'.toUInt8, (passes_quote prev false).trans (hbody.trans (passes_quote prev' true))⟩
  · rw [fieldText_of_plain hspecial]
    exact passes_plain (kept f) (fun c hc => kept_plain hspecial hc) prev

theorem passes_recordText (fields : List Field) (prev : UInt8) :
    ∃ prev', Passes prev false (recordText fields) prev' false := by
  fun_induction recordText fields generalizing prev with
  | case1 => exact ⟨prev, Passes.nil prev false⟩
  | case2 f => exact passes_fieldText f.bytes prev
  | case3 f f' fs ih =>
    obtain ⟨prev₁, hfield⟩ := passes_fieldText f.bytes prev
    obtain ⟨prev₂, hrest⟩ := ih ','.toUInt8
    exact ⟨prev₂, hfield.trans ((passes_byte prev₁ ','.toUInt8 false (by decide) (.inr (by decide))).trans hrest)⟩

/-- A line of the file is one record, whatever its fields contain. -/
theorem getCsvLineNext_record (fields : List Field) (rest : List UInt8) :
    getCsvLineNext (recordText fields ++ crlf ++ rest) = (some (recordText fields ++ crlf), rest) := by
  obtain ⟨prev, hpasses⟩ := passes_recordText fields 0
  have hcr := passes_byte prev '\r'.toUInt8 false (by decide) (.inr (by decide))
  have hlf : readLine '\r'.toUInt8 false ('\n'.toUInt8 :: rest) = (['\n'.toUInt8], rest) := rfl
  have hline : readLine 0 false (recordText fields ++ crlf ++ rest) = (recordText fields ++ crlf, rest) := by
    have hboth := (hpasses.trans hcr) ('\n'.toUInt8 :: rest)
    rw [hlf] at hboth
    simpa [crlf] using hboth
  unfold getCsvLineNext
  rw [hline]
  refine if_neg ?_
  simp [crlf]

theorem csvLines_records (records : List Record) :
    csvLines (records.flatMap fun r => recordText r.fields ++ crlf) = records.map fun r => recordText r.fields ++ crlf := by
  induction records with
  | nil =>
    rw [csvLines]
    rfl
  | cons r rs ih =>
    rw [csvLines, List.flatMap_cons]
    split
    next hnext =>
      rw [getCsvLineNext_record] at hnext
      cases hnext
    next line rest hnext =>
      rw [getCsvLineNext_record] at hnext
      cases hnext
      rw [ih]
      rfl

/-! ## A file of records -/

/-- With its line end, the last field is as long as an `int` counts, or quoted. -/
def Trimmable (fields : List Field) : Prop :=
  ∀ f, fields.getLast? = some f → ¬ f.bytes.any special = true → f.bytes.length + 2 < 2147483648

theorem lineEnd_eq_iff (f : Field) : lineEnd f.bytes = f.bytes ↔ Writable f ∧ Trimmable [f] := by
  by_cases hspecial : f.bytes.any special = true
  · rw [lineEnd, if_pos hspecial]
    refine iff_of_true rfl ⟨fun h => absurd hspecial h, ?_⟩
    intro g hg hplain
    cases hg
    exact absurd hspecial hplain
  · have hlast : Trimmable [f] ↔ f.bytes.length + 2 < 2147483648 :=
      ⟨fun h => h f rfl hspecial, fun h g hg _ => Option.some.inj hg ▸ h⟩
    rw [lineEnd, if_neg hspecial, hlast, ← kept_eq_iff]
    constructor
    · intro h
      split at h
      next hint =>
        rw [h] at hint
        exact ⟨h, hint⟩
      next hint =>
        -- the field has no CR, so the CRLF cannot be its own
        have hcr : '\r'.toUInt8 ∈ f.bytes := by
          rw [← h, List.mem_append]
          exact .inr List.mem_cons_self
        exact absurd (List.any_eq_true.mpr ⟨_, hcr, rfl⟩) hspecial
    · rintro ⟨hkept, hint⟩
      rw [hkept, if_pos hint]

theorem trimmable_cons (f f' : Field) (fs : List Field) : Trimmable (f :: f' :: fs) ↔ Trimmable (f' :: fs) := by
  unfold Trimmable
  rw [List.getLast?_cons_cons]

theorem lineFields_eq_iff (fields : List Field) :
    lineFields fields = fields.map Field.bytes ↔ (∀ f ∈ fields, Writable f) ∧ Trimmable fields := by
  fun_induction lineFields fields with
  | case1 =>
    refine iff_of_true rfl ⟨fun f hf => absurd hf List.not_mem_nil, ?_⟩
    intro f hf
    cases hf
  | case2 f =>
    rw [List.map_singleton, List.singleton_inj, lineEnd_eq_iff, List.forall_mem_singleton]
  | case3 f f' fs ih =>
    rw [List.map_cons, List.cons.injEq, ih, kept_eq_iff, trimmable_cons, ← and_assoc, ← List.forall_mem_cons]

theorem csvRecords_csvFile (heap : ℕ → ℕ → UInt8) (records : List Record) :
    csvRecords heap (csvFile records) = records.map fun r => .list (lineFields r.fields) := by
  unfold csvRecords
  rw [csvFile_eq, csvLines_records]
  apply List.ext_getElem?
  intro k
  rw [List.getElem?_mapIdx, List.getElem?_map, List.getElem?_map, Option.map_map]
  cases records[k]? with
  | none => rfl
  | some r => exact congrArg some (parse_line (heap k) r)

/-- The records come back from the file. -/
def Returns (records : List Record) : Prop := ∀ heap : ℕ → ℕ → UInt8,
  csvRecords heap (csvFile records) = records.map fun r => .list (r.fields.map Field.bytes)

theorem returns_iff (records : List Record) :
    Returns records ↔ ∀ r ∈ records, (∀ f ∈ r.fields, Writable f) ∧ Trimmable r.fields := by
  unfold Returns
  simp only [csvRecords_csvFile, List.map_inj_left, Parsed.list.injEq, lineFields_eq_iff, forall_const]

/-- A field of `n` letters. -/
def letters (n : ℕ) : Field where
  bytes := List.replicate n 97
  nul_free := by
    rw [List.mem_replicate]
    exact fun h => absurd h.2 (by decide)

theorem letters_plain (n : ℕ) : ¬ (letters n).bytes.any special = true := by
  rw [List.any_eq_true]
  rintro ⟨c, hc, hspecial⟩
  obtain rfl := (List.mem_replicate.mp hc).2
  cases hspecial

/-- The line end stays with a field of `INT_MAX - 1` letters. -/
theorem long_field_changes : ¬ Returns [⟨[letters 2147483646], List.cons_ne_nil _ _⟩] := by
  intro h
  have hread : lineFields [letters 2147483646] = [(letters 2147483646).bytes] := by
    have hrecords := h fun _ _ => 0
    rw [csvRecords_csvFile] at hrecords
    exact Parsed.list.inj (List.cons.inj hrecords).1
  have hlength : (letters 2147483646).bytes.length = 2147483646 := List.length_replicate
  have htrim := ((lineFields_eq_iff _).mp hread).2 (letters 2147483646) rfl (letters_plain _)
  rw [hlength] at htrim
  omega

end Libntech.Csv
