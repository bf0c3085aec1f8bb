import Libntech.Json.EnvLine
import Mathlib.Data.List.DropRight

/-! # What the lines of env files stand for

`envDecode` is what the value of a line stands for. The copy in place follows it, except that a backslash at the end of
the value escapes the terminating NUL, and the scan goes on behind it. Blanks that were trimmed from the line are there
to stop it; without them it leaves the memory.
-/
namespace Libntech.Json
set_option autoImplicit false

open Libntech.Lib

/-! ## The decoded value -/

/-- A value up to the closing quote, if it is quoted. An unquoted value must not have a quote that is not escaped. -/
def decodeValue (quote : Option UInt8) : Bytes → Option Bytes
  | [] => some []
  | [c] =>
    if some c = quote then some []
    else if quote = none ∧ isQuote c then none
    else if c = '\\'.toUInt8 then some []
    else some [c]
  | c :: e :: text =>
    if some c = quote then some []
    else if quote = none ∧ isQuote c then none
    else if c = '\\'.toUInt8 then
      (decodeValue quote text).map ((if e = 'n'.toUInt8 then '\n'.toUInt8 else e) :: ·)
    else (decodeValue quote (e :: text)).map (c :: ·)

/-- The value ends in a backslash that escapes nothing. -/
def endsInBackslash (quote : Option UInt8) : Bytes → Bool
  | [] => false
  | [c] => c == '\\'.toUInt8
  | c :: e :: text =>
    if some c = quote ∨ (quote = none ∧ isQuote c) then false
    else if c = '\\'.toUInt8 then endsInBackslash quote text
    else endsInBackslash quote (e :: text)

/-- Applies to the opening quote and the text behind it, or to no quote and the whole text. -/
def afterQuote {α : Type} (f : Option UInt8 → Bytes → α) (text : Bytes) : α :=
  match text with
  | [] => f none []
  | c :: rest => if isQuote c then f (some c) rest else f none (c :: rest)

def envDecode : Bytes → Option Bytes := afterQuote decodeValue

def valueEndsInBackslash : Bytes → Bool := afterQuote endsInBackslash

def trim (text : Bytes) : Bytes := (text.dropWhile isSpace).rdropWhile isSpace

/-- The key of a line and the text of its value. -/
def envKeyText (line : Bytes) : Option (Bytes × Bytes) :=
  let core := trim line
  let key := core.takeWhile (· != '='.toUInt8)
  match core.dropWhile (· != '='.toUInt8) with
  | [] => none
  | _ :: value => if core.head? = some '#'.toUInt8 ∨ key = [] then none else some (trim key, trim value)

/-- The C string at a position. -/
def stringAt (mem : Bytes) (p : ℕ) : Bytes := (mem.drop p).takeWhile (· != 0)

/-! ## One character of a value -/

section Characters

variable {quote : Option UInt8} {c : UInt8}

attribute [local simp] decodeValue endsInBackslash

/-- A quote, or none. -/
def Quoting (quote : Option UInt8) : Prop := ∀ c ∈ quote, isQuote c = true

theorem Quoting.not_backslash (hq : Quoting quote) : some '\\'.toUInt8 ≠ quote := by
  rintro rfl
  exact absurd (hq _ rfl) (by decide)

theorem decode_close (text : Bytes) (h : some c = quote) : decodeValue quote (c :: text) = some [] := by
  cases text with
  | nil => rw [decodeValue, if_pos h]
  | cons e text => rw [decodeValue, if_pos h]

theorem decode_misplaced (text : Bytes) (h : quote = none ∧ isQuote c = true) :
    decodeValue quote (c :: text) = none := by
  have hne : some c ≠ quote := by rw [h.1]; exact Option.some_ne_none c
  cases text with
  | nil => rw [decodeValue, if_neg hne, if_pos h]
  | cons e text => rw [decodeValue, if_neg hne, if_pos h]

theorem decode_copied (text : Bytes) (h₁ : some c ≠ quote) (h₂ : ¬ (quote = none ∧ isQuote c = true))
    (h₃ : c ≠ '\\'.toUInt8) : decodeValue quote (c :: text) = (decodeValue quote text).map (c :: ·) := by
  cases text with
  | nil => simp [h₁, h₂, h₃]
  | cons e text => rw [decodeValue, if_neg h₁, if_neg h₂, if_neg h₃]

theorem decode_escaped (hq : Quoting quote) (e : UInt8) (text : Bytes) :
    decodeValue quote ('\\'.toUInt8 :: e :: text) =
      (decodeValue quote text).map ((if e = 'n'.toUInt8 then '\n'.toUInt8 else e) :: ·) := by
  have hquote : ¬ (quote = none ∧ isQuote '\\'.toUInt8 = true) := fun h => absurd h.2 (by decide)
  rw [decodeValue, if_neg hq.not_backslash, if_neg hquote, if_pos rfl]

theorem decode_last (hq : Quoting quote) : decodeValue quote ['\\'.toUInt8] = some [] := by
  have hquote : ¬ (quote = none ∧ isQuote '\\'.toUInt8 = true) := fun h => absurd h.2 (by decide)
  rw [decodeValue, if_neg hq.not_backslash, if_neg hquote, if_pos rfl]

theorem ends_stopped (hq : Quoting quote) (text : Bytes) (h : some c = quote ∨ (quote = none ∧ isQuote c = true)) :
    endsInBackslash quote (c :: text) = false := by
  have hne : c ≠ '\\'.toUInt8 := by
    rintro rfl
    rcases h with h | h
    · exact hq.not_backslash h
    · exact absurd h.2 (by decide)
  cases text with
  | nil => simpa using hne
  | cons e text => rw [endsInBackslash, if_pos h]

theorem ends_copied (text : Bytes) (h₁ : some c ≠ quote) (h₂ : ¬ (quote = none ∧ isQuote c = true))
    (h₃ : c ≠ '\\'.toUInt8) : endsInBackslash quote (c :: text) = endsInBackslash quote text := by
  cases text with
  | nil => simpa using h₃
  | cons e text => rw [endsInBackslash, if_neg (not_or.mpr ⟨h₁, h₂⟩), if_neg h₃]

theorem ends_escaped (hq : Quoting quote) (e : UInt8) (text : Bytes) :
    endsInBackslash quote ('\\'.toUInt8 :: e :: text) = endsInBackslash quote text := by
  have hquote : ¬ (quote = none ∧ isQuote '\\'.toUInt8 = true) := fun h => absurd h.2 (by decide)
  rw [endsInBackslash, if_neg (not_or.mpr ⟨hq.not_backslash, hquote⟩), if_pos rfl]

theorem blank_plain (hq : Quoting quote) (h : isSpace c = true) :
    c ≠ 0 ∧ some c ≠ quote ∧ ¬ (quote = none ∧ isQuote c = true) ∧ c ≠ '\\'.toUInt8 := by
  have hne : ∀ d, isSpace d = false → c ≠ d := by
    rintro d hd rfl
    rw [h] at hd
    cases hd
  have hnotquote : isQuote c = false := by
    simp [isQuote, hne '"'.toUInt8 (by decide), hne '\''.toUInt8 (by decide)]
  refine ⟨hne 0 (by decide), ?_, fun hno => ?_, hne _ (by decide)⟩
  · rintro rfl
    rw [hq c rfl] at hnotquote
    cases hnotquote
  · rw [hnotquote] at hno
    exact absurd hno.2 Bool.false_ne_true

theorem decode_blanks (hq : Quoting quote) {text : Bytes} (h : ∀ c ∈ text, isSpace c = true) :
    decodeValue quote text = some text ∧ endsInBackslash quote text = false := by
  induction text with
  | nil => exact ⟨rfl, rfl⟩
  | cons c text ih =>
    obtain ⟨_, h₁, h₂, h₃⟩ := blank_plain hq (h c List.mem_cons_self)
    obtain ⟨hdecode, hends⟩ := ih fun x hx => h x (List.mem_cons_of_mem c hx)
    rw [decode_copied text h₁ h₂ h₃, ends_copied text h₁ h₂ h₃, hdecode]
    exact ⟨rfl, hends⟩

end Characters

/-! ## The copy in place -/

variable {front mem x : Bytes} {quote : Option UInt8} {c : UInt8}

theorem store_piece {i : ℕ} (front : Bytes) (rest : Bytes) (b : UInt8) (hx : x ≠ []) (hmem : mem = front ++ x ++ rest)
    (hi : i = front.length) :
    store mem i b = .ok (front ++ [b] ++ x.tail ++ rest) := by
  obtain ⟨a, x, rfl⟩ := List.exists_cons_of_ne_nil hx
  rw [store_at front a (x ++ rest) b (by rw [hmem]; simp) hi]
  simp

/-- The run copies what the value stands for behind `front`, or finds a quote out of place. -/
def CopiesTo (run : Except Fault (Bytes × Bool)) (front : Bytes) (decoded : Option Bytes) : Prop :=
  match decoded with
  | some w => ∃ junk, run = .ok (front ++ w ++ 0 :: junk, true)
  | none => ∃ mem, run = .ok (mem, false)

theorem copiesTo_cons {run : Except Fault (Bytes × Bool)} {b : UInt8} {decoded : Option Bytes}
    (h : CopiesTo run (front ++ [b]) decoded) : CopiesTo run front (decoded.map (b :: ·)) := by
  cases decoded with
  | none => exact h
  | some w =>
    obtain ⟨junk, hrun⟩ := h
    exact ⟨junk, by rw [hrun]; simp⟩

theorem copiesTo_end {gap rest : Bytes} {dst : ℕ} (hmem : mem = front ++ gap ++ (c :: rest)) (hdst : dst = front.length) :
    CopiesTo (store mem dst 0 >>= fun mem => .ok (mem, true)) front (some []) := by
  have hstore := store_piece front rest 0 (List.append_ne_nil_of_right_ne_nil gap (List.cons_ne_nil c []))
    (hmem.trans (by simp)) hdst
  refine ⟨(gap ++ [c]).tail ++ rest, ?_⟩
  rw [hstore, ok_bind]
  simp

theorem closing_iff (hc : c ≠ 0) : (c = 0 ∨ c = quote.getD 0) ↔ some c = quote := by
  cases quote with
  | none => simpa using hc
  | some q => simp [hc]

theorem misplaced_iff (hq : Quoting quote) :
    (quote.getD 0 = 0 ∧ isQuote c = true) ↔ (quote = none ∧ isQuote c = true) := by
  cases quote with
  | none => simp
  | some q =>
    have hne : q ≠ 0 := by
      rintro rfl
      exact absurd (hq 0 rfl) (by decide)
    simp [hne]

/-- What the loop does with the rest `v` of a value, having copied `front`: either the value does not end in a
backslash, or blanks stop the scan behind it, or the scan leaves the memory. -/
theorem filteredCopyLoop_spec (hq : Quoting quote) (fuel : ℕ) :
    ∀ (v front gap tail : Bytes) {mem : Bytes} {src dst : ℕ}, mem = front ++ gap ++ (v ++ 0 :: tail) →
      src = front.length + gap.length → dst = front.length → 0 ∉ v → v.length + tail.length + 1 < fuel →
      ((endsInBackslash quote v = false ∨ ∃ blanks rest, tail = blanks ++ 0 :: rest ∧ ∀ c ∈ blanks, isSpace c = true) →
        CopiesTo (filteredCopyLoop (quote.getD 0) fuel mem src dst) front (decodeValue quote v)) ∧
      (endsInBackslash quote v = true → tail = [] →
        filteredCopyLoop (quote.getD 0) fuel mem src dst = .error .outOfBounds) := by
  induction fuel with
  | zero => exact fun _ _ _ _ _ _ _ _ _ _ _ hfuel => absurd hfuel (Nat.not_lt_zero _)
  | succ fuel ih =>
    intro v front gap tail mem src dst hmem hsrc hdst h0 hfuel
    have hnext : ∀ (b : UInt8) (x : Bytes), x ≠ [] → src + x.length = (front ++ [b]).length + (gap ++ x).tail.length := by
      intro b x hx
      have hpos := List.length_pos_of_ne_nil hx
      simp only [hsrc, List.length_append, List.length_tail, List.length_singleton]
      omega
    have hcopied : ∀ b : UInt8, dst + 1 = (front ++ [b]).length := by
      intro b
      rw [hdst, List.length_append, List.length_singleton]
    cases v with
    | nil =>
      have hload : load mem src = .ok 0 := load_at (front ++ gap) 0 tail hmem (by rw [hsrc, List.length_append])
      refine ⟨fun _ => ?_, fun h => by cases h⟩
      rw [filteredCopyLoop, hload, ok_bind, if_pos (.inl rfl)]
      exact copiesTo_end hmem hdst
    | cons c v =>
      rw [List.length_cons] at hfuel
      have hc : c ≠ 0 := fun heq => h0 (heq ▸ List.mem_cons_self)
      have h0v : 0 ∉ v := fun hmem => h0 (List.mem_cons_of_mem c hmem)
      have hload : load mem src = .ok c :=
        load_at (front ++ gap) c (v ++ 0 :: tail) hmem (by rw [hsrc, List.length_append])
      rw [filteredCopyLoop, hload, ok_bind]
      by_cases hclose : some c = quote
      · rw [if_pos ((closing_iff hc).mpr hclose), decode_close v hclose, ends_stopped hq v (.inl hclose)]
        exact ⟨fun _ => copiesTo_end hmem hdst, fun h => by cases h⟩
      rw [if_neg fun h => hclose ((closing_iff hc).mp h)]
      by_cases hquote : quote = none ∧ isQuote c = true
      · rw [if_pos ((misplaced_iff hq).mpr hquote), decode_misplaced v hquote, ends_stopped hq v (.inr hquote)]
        exact ⟨fun _ => ⟨mem, rfl⟩, fun h => by cases h⟩
      rw [if_neg fun h => hquote ((misplaced_iff hq).mp h)]
      by_cases hbs : c = '\\'.toUInt8
      · rw [if_pos hbs]
        subst hbs
        cases v with
        | nil =>
          -- the NUL is copied as the escaped character
          have hnul : load mem (src + 1) = .ok 0 :=
            load_at (front ++ gap ++ ['\\'.toUInt8]) 0 tail (hmem.trans (by simp))
              (by simp only [hsrc, List.length_append, List.length_cons, List.length_nil, Nat.add_assoc])
          have hstore := store_piece front tail 0 (x := gap ++ ['\\'.toUInt8, 0]) (by simp) (hmem.trans (by simp)) hdst
          rw [hnul, ok_bind, if_neg (by decide), hstore, ok_bind, decode_last hq]
          constructor
          · rintro (hends | ⟨blanks, rest, rfl, hblanks⟩)
            · exact absurd hends (by simp [endsInBackslash])
            · rw [List.length_append, List.length_cons] at hfuel
              obtain ⟨hdecode, hends⟩ := decode_blanks hq hblanks
              have hnul0 : 0 ∉ blanks := fun hmem => (blank_plain hq (hblanks 0 hmem)).1 rfl
              have hrun := (ih blanks (front ++ [0]) (gap ++ ['\\'.toUInt8, 0]).tail rest rfl
                (hnext 0 ['\\'.toUInt8, 0] (by simp)) (hcopied 0) hnul0 (by omega)).1 (.inl hends)
              rw [hdecode] at hrun
              obtain ⟨junk, hrun⟩ := hrun
              exact ⟨blanks ++ 0 :: junk, hrun.trans (by simp)⟩
          · rintro _ rfl
            obtain ⟨fuel, rfl⟩ : ∃ k, fuel = k + 1 := ⟨fuel - 1, by omega⟩
            rw [filteredCopyLoop, load_beyond, error_bind]
            rw [hsrc]
            simp only [List.length_append, List.length_tail, List.length_cons, List.length_nil]
            omega
        | cons e v =>
          rw [List.length_cons] at hfuel
          have hescaped : load mem (src + 1) = .ok e :=
            load_at (front ++ gap ++ ['\\'.toUInt8]) e (v ++ 0 :: tail) (hmem.trans (by simp))
              (by simp only [hsrc, List.length_append, List.length_cons, List.length_nil, Nat.add_assoc])
          have hstore := store_piece front (v ++ 0 :: tail) (if e = 'n'.toUInt8 then '\n'.toUInt8 else e)
            (x := gap ++ ['\\'.toUInt8, e]) (by simp) (hmem.trans (by simp)) hdst
          rw [hescaped, ok_bind, hstore, ok_bind, decode_escaped hq, ends_escaped hq]
          have hrest := ih v (front ++ [if e = 'n'.toUInt8 then '\n'.toUInt8 else e]) (gap ++ ['\\'.toUInt8, e]).tail tail
            rfl (hnext _ ['\\'.toUInt8, e] (by simp)) (hcopied _) (fun hmem => h0v (List.mem_cons_of_mem e hmem)) (by omega)
          exact ⟨fun h => copiesTo_cons (hrest.1 h), hrest.2⟩
      · have hstore := store_piece front (v ++ 0 :: tail) c (x := gap ++ [c]) (by simp) (hmem.trans (by simp)) hdst
        rw [if_neg hbs, hstore, ok_bind, decode_copied v hclose hquote hbs, ends_copied v hclose hquote hbs]
        have hrest := ih v (front ++ [c]) (gap ++ [c]).tail tail rfl (hnext c [c] (by simp)) (hcopied c) h0v (by omega)
        exact ⟨fun h => copiesTo_cons (hrest.1 h), hrest.2⟩

/-- The value at `front.length` is copied over itself. -/
def CopiedInPlace (mem front value : Bytes) : Prop :=
  match envDecode value with
  | some w => ∃ junk, filteredCopy mem front.length front.length = .ok (front ++ w ++ 0 :: junk, some front.length)
  | none => ∃ mem', filteredCopy mem front.length front.length = .ok (mem', none)

theorem copiedInPlace_of_run {value : Bytes} {run : Except Fault (Bytes × Bool)}
    (heq : filteredCopy mem front.length front.length = run >>= fun r => .ok (r.1, if r.2 then some front.length else none))
    (h : CopiesTo run front (envDecode value)) : CopiedInPlace mem front value := by
  unfold CopiedInPlace
  unfold CopiesTo at h
  cases hdecode : envDecode value with
  | none =>
    rw [hdecode] at h
    obtain ⟨mem', hrun⟩ := h
    exact ⟨mem', by rw [heq, hrun]; rfl⟩
  | some w =>
    rw [hdecode] at h
    obtain ⟨junk, hrun⟩ := h
    exact ⟨junk, by rw [heq, hrun]; rfl⟩

theorem filteredCopy_start (front value tail : Bytes) : ∃ quote gap rest, Quoting quote ∧ value = gap ++ rest ∧
    envDecode value = decodeValue quote rest ∧ valueEndsInBackslash value = endsInBackslash quote rest ∧
    filteredCopy (front ++ value ++ 0 :: tail) front.length front.length =
      filteredCopyLoop (quote.getD 0) ((front ++ value ++ 0 :: tail).length + 1) (front ++ value ++ 0 :: tail)
        (front.length + gap.length) front.length >>= fun r => .ok (r.1, if r.2 then some front.length else none) := by
  cases value with
  | nil =>
    have hload : load (front ++ [] ++ 0 :: tail) front.length = .ok 0 := load_at front 0 tail (by simp) rfl
    exact ⟨none, [], [], by simp [Quoting], rfl, rfl, rfl, by rw [filteredCopy, hload]; rfl⟩
  | cons c rest =>
    have hload : load (front ++ c :: rest ++ 0 :: tail) front.length = .ok c :=
      load_at front c (rest ++ 0 :: tail) (by simp) rfl
    by_cases hquote : isQuote c = true
    · refine ⟨some c, [c], rest, by simpa [Quoting] using hquote, rfl, ?_, ?_, ?_⟩
      · rw [envDecode, afterQuote, if_pos hquote]
      · rw [valueEndsInBackslash, afterQuote, if_pos hquote]
      · rw [filteredCopy, hload, ok_bind, if_pos hquote]
        rfl
    · refine ⟨none, [], c :: rest, by simp [Quoting], rfl, ?_, ?_, ?_⟩
      · rw [envDecode, afterQuote, if_neg hquote]
      · rw [valueEndsInBackslash, afterQuote, if_neg hquote]
      · rw [filteredCopy, hload, ok_bind, if_neg hquote]
        rfl

theorem filteredCopy_spec (front tail : Bytes) {value : Bytes} (h0 : 0 ∉ value) :
    ((valueEndsInBackslash value = false ∨ ∃ blanks rest, tail = blanks ++ 0 :: rest ∧ ∀ c ∈ blanks, isSpace c = true) →
      CopiedInPlace (front ++ value ++ 0 :: tail) front value) ∧
    (valueEndsInBackslash value = true → tail = [] →
      filteredCopy (front ++ value ++ 0 :: tail) front.length front.length = .error .outOfBounds) := by
  obtain ⟨quote, gap, rest, hq, hvalue, hdecode, hends, heq⟩ := filteredCopy_start front value tail
  have hcells : front ++ value ++ 0 :: tail = front ++ gap ++ (rest ++ 0 :: tail) := by
    rw [hvalue]
    simp
  have hrest0 : 0 ∉ rest := fun hmem => h0 (by
    rw [hvalue]
    exact List.mem_append_right gap hmem)
  obtain ⟨hcopies, hleaves⟩ := filteredCopyLoop_spec hq ((front ++ value ++ 0 :: tail).length + 1) rest front gap tail
    hcells rfl rfl hrest0 (by
      rw [hvalue]
      simp only [List.length_append, List.length_cons]
      omega)
  rw [hends]
  refine ⟨fun h => copiedInPlace_of_run heq ?_, fun h htail => ?_⟩
  · rw [hdecode]
    exact hcopies h
  · rw [heq, hleaves h htail]
    rfl

/-! ## Trimming -/

/-- The pieces of a text: blanks, the trimmed text, and blanks again unless nothing is left of the text. -/
theorem trim_split (x : Bytes) : ∃ lead trail, x = lead ++ trim x ++ trail ∧ (∀ c ∈ lead, isSpace c = true) ∧
    (∀ c ∈ trail, isSpace c = true) ∧ (∀ c ∈ (trim x).head?, isSpace c = false) ∧
    (∀ c ∈ (trim x).getLast?, isSpace c = false) ∧ (trim x = [] → trail = []) := by
  have hsplit : x.dropWhile isSpace = trim x ++ (x.dropWhile isSpace).rtakeWhile isSpace :=
    List.rdropWhile_append_rtakeWhile.symm
  have hfirst : ∀ c ∈ (x.dropWhile isSpace).head?, isSpace c = false := by
    intro c hc
    have hhead := List.head?_dropWhile_not isSpace x
    rw [Option.mem_def.mp hc] at hhead
    simpa using hhead
  refine ⟨x.takeWhile isSpace, (x.dropWhile isSpace).rtakeWhile isSpace, ?_, fun c hc => List.mem_takeWhile_imp hc,
    fun c hc => List.mem_rtakeWhile_imp hc, fun c hc => ?_, fun c hc => ?_, fun hempty => ?_⟩
  · rw [List.append_assoc, ← hsplit, List.takeWhile_append_dropWhile]
  · refine hfirst c ?_
    obtain ⟨t, ht⟩ := List.head?_eq_some_iff.mp hc
    rw [hsplit, ht]
    rfl
  · have hne : (x.dropWhile isSpace).rdropWhile isSpace ≠ [] := by
      intro hnil
      rw [trim, hnil] at hc
      cases hc
    have hlast := List.rdropWhile_last_not isSpace (x.dropWhile isSpace) hne
    rw [trim, List.getLast?_eq_some_getLast hne, Option.mem_some_iff] at hc
    rw [hc] at hlast
    simpa using hlast
  · rw [hempty, List.nil_append] at hsplit
    cases hy : x.dropWhile isSpace with
    | nil => rfl
    | cons c y =>
      have hc := hfirst c (by rw [hy]; rfl)
      have hspace : isSpace c = true := by
        refine List.mem_rtakeWhile_imp (l := x.dropWhile isSpace) ?_
        rw [← hsplit, hy]
        exact List.mem_cons_self
      rw [hc] at hspace
      cases hspace

theorem trim_nul_free (h0 : 0 ∉ x) : 0 ∉ trim x := by
  obtain ⟨lead, trail, hx, _⟩ := trim_split x
  intro hmem
  rw [hx] at h0
  exact h0 (List.mem_append_left trail (List.mem_append_right lead hmem))

theorem trimWhitespace_spec (front tail : Bytes) (h0 : 0 ∉ x) : ∃ lead trail, x = lead ++ trim x ++ trail ∧
    (∀ c ∈ lead, isSpace c = true) ∧ (∀ c ∈ trail, isSpace c = true) ∧ (trim x = [] → trail = []) ∧
    trimWhitespace (front ++ x ++ 0 :: tail) front.length =
      .ok (front ++ lead ++ trim x ++ 0 :: (trail ++ 0 :: tail).tail, (front ++ lead).length) := by
  obtain ⟨lead, trail, hx, hlead, htrail, hhead, hlast, hempty⟩ := trim_split x
  refine ⟨lead, trail, hx, hlead, htrail, hempty, ?_⟩
  obtain ⟨mem, hmem⟩ : ∃ mem, mem = front ++ x ++ 0 :: tail := ⟨_, rfl⟩
  have hcells : mem = front ++ lead ++ (trim x ++ trail ++ 0 :: tail) := by
    rw [hmem]
    conv_lhs => rw [hx]
    simp
  have hlen : lead.length + (trim x ++ trail).length + tail.length < mem.length := by
    rw [hcells]
    simp only [List.length_append, List.length_cons]
    omega
  rw [← hmem, trimWhitespace]
  cases hcore : trim x with
  | nil =>
    obtain rfl := hempty hcore
    rw [hcore] at hcells
    have hscan : scan isSpace mem (mem.length + 1) front.length = .ok (front.length + lead.length) :=
      scan_run (by decide) lead front hcells rfl hlead (by omega)
    have hload : load mem (front.length + lead.length) = .ok 0 :=
      load_at (front ++ lead) 0 tail hcells (by rw [List.length_append])
    rw [hscan, ok_bind, hload, ok_bind, if_pos rfl, hcells]
    simp
  | cons c core =>
    rw [hcore] at hcells hlen
    have hc0 : c ≠ 0 := by
      rintro rfl
      refine h0 ?_
      rw [hx, hcore]
      simp
    have hc : isSpace c = false := hhead c (by rw [hcore]; rfl)
    have hfirst : mem = front ++ lead ++ c :: (core ++ trail ++ 0 :: tail) := by
      rw [hcells]
      simp
    have hterminated : mem = front ++ lead ++ (c :: core ++ trail) ++ 0 :: tail := by
      rw [hcells]
      simp
    have hscan : scan isSpace mem (mem.length + 1) front.length = .ok (front.length + lead.length) :=
      scan_run hc lead front hfirst rfl hlead (by omega)
    have hload : load mem (front.length + lead.length) = .ok c :=
      load_at (front ++ lead) c (core ++ trail ++ 0 :: tail) hfirst (by rw [List.length_append])
    have hnul : ∀ d ∈ c :: core ++ trail, (d != 0) = true := by
      intro d hd
      rw [bne_iff_ne]
      rintro rfl
      refine h0 ?_
      rw [hx, hcore, List.append_assoc]
      exact List.mem_append_right lead hd
    have hterminator : scan (fun d => d != 0) mem (mem.length + 1) (front.length + lead.length) =
        .ok (front.length + lead.length + (c :: core ++ trail).length) :=
      scan_run (by decide) (c :: core ++ trail) (front ++ lead) hterminated (by rw [List.length_append]) hnul (by omega)
    obtain ⟨init, l, hinit⟩ := List.eq_nil_or_concat (c :: core) |>.resolve_left (List.cons_ne_nil c core)
    rw [List.concat_eq_append] at hinit
    have hl : isSpace l = false := hlast l (by rw [hcore, hinit]; simp)
    have hback : scanBack isSpace mem (front.length + lead.length + (c :: core ++ trail).length - 1) =
        .ok (front ++ lead ++ init).length := by
      refine scanBack_run hl trail (0 :: tail) (by rw [hcells, hinit]; simp) ?_ htrail
      rw [hinit]
      simp only [List.length_append, List.length_cons, List.length_nil]
      omega
    have hstore : store mem ((front ++ lead ++ init).length + 1) 0 =
        .ok (front ++ lead ++ (c :: core) ++ [0] ++ (trail ++ [0]).tail ++ tail) := by
      refine store_piece (front ++ lead ++ (c :: core)) tail 0 (by simp) (by rw [hcells]; simp) ?_
      rw [hinit]
      simp only [List.length_append, List.length_cons, List.length_nil]
      omega
    rw [hscan, ok_bind, hload, ok_bind, if_neg hc0, hterminator, ok_bind, hback, ok_bind, hstore, ok_bind, pure_ok,
      List.length_append]
    congr 2
    cases trail with
    | nil => simp
    | cons t trail => simp

/-! ## The whole line -/

/-- What was cut off a string is as long as before, with the NUL at its front. -/
theorem cut_tail (trail : Bytes) : ∃ z, z.length = trail.length ∧ ∀ rest, (trail ++ 0 :: rest).tail = z ++ rest := by
  cases trail with
  | nil => exact ⟨[], rfl, fun rest => rfl⟩
  | cons c trail => exact ⟨trail ++ [0], by simp, fun rest => by simp⟩

theorem stringAt_piece {w : Bytes} (rest : Bytes) (h0 : 0 ∉ w) :
    stringAt (front ++ w ++ 0 :: rest) front.length = w := by
  have hpass : ∀ c ∈ w, (c != 0) = true := by
    intro c hc
    rw [bne_iff_ne]
    rintro rfl
    exact h0 hc
  rw [stringAt, List.append_assoc, List.drop_left, List.takeWhile_append_of_pos hpass]
  simp

theorem decodeValue_nul_free (hq : Quoting quote) (n : ℕ) : ∀ {v w : Bytes}, v.length ≤ n →
    0 ∉ v → decodeValue quote v = some w → 0 ∉ w := by
  induction n with
  | zero =>
    intro v w hlen _ h
    obtain rfl := List.length_eq_zero_iff.mp (Nat.le_zero.mp hlen)
    rw [← Option.some.inj h]
    exact List.not_mem_nil
  | succ n ih =>
    intro v w hlen h0 h
    cases v with
    | nil =>
      rw [← Option.some.inj h]
      exact List.not_mem_nil
    | cons c v =>
      rw [List.length_cons] at hlen
      have h0v : 0 ∉ v := fun hmem => h0 (List.mem_cons_of_mem c hmem)
      have hcons : ∀ {b : UInt8} {v : Bytes}, v.length ≤ n → 0 ∉ v → b ≠ 0 →
          (decodeValue quote v).map (b :: ·) = some w → 0 ∉ w := by
        intro b v hlen h0 hb h
        obtain ⟨w', hw', rfl⟩ := Option.map_eq_some_iff.mp h
        exact fun hmem => (List.mem_cons.mp hmem).elim (fun heq => hb heq.symm) (ih hlen h0 hw')
      by_cases h₁ : some c = quote
      · rw [decode_close v h₁] at h
        rw [← Option.some.inj h]
        exact List.not_mem_nil
      by_cases h₂ : quote = none ∧ isQuote c = true
      · rw [decode_misplaced v h₂] at h
        cases h
      by_cases h₃ : c = '\\'.toUInt8
      · subst h₃
        cases v with
        | nil =>
          rw [decode_last hq] at h
          rw [← Option.some.inj h]
          exact List.not_mem_nil
        | cons e v =>
          rw [decode_escaped hq] at h
          refine hcons (by rw [List.length_cons] at hlen; omega) (fun hmem => h0v (List.mem_cons_of_mem e hmem)) ?_ h
          split
          · decide
          · exact fun heq => h0v (heq ▸ List.mem_cons_self)
      · rw [decode_copied v h₁ h₂ h₃] at h
        exact hcons (by omega) h0v (fun heq => h0 (heq ▸ List.mem_cons_self)) h

theorem envDecode_nul_free {v w : Bytes} (h0 : 0 ∉ v) (h : envDecode v = some w) : 0 ∉ w := by
  obtain ⟨quote, gap, rest, hq, hvalue, hdecode, _⟩ := filteredCopy_start [] v []
  rw [hdecode] at h
  exact decodeValue_nul_free hq _ (Nat.le_refl _) (fun hmem => h0 (by rw [hvalue]; exact List.mem_append_right gap hmem)) h

/-- What is behind the trimmed line in the memory: nothing, or the blanks that were cut off. -/
def Behind (s tail : Bytes) : Prop :=
  (tail = [] ∧ ∀ c ∈ s.getLast?, isSpace c = false) ∨
    (∃ c ∈ s.getLast?, isSpace c = true) ∧ ∃ blanks rest, tail = blanks ++ 0 :: rest ∧ ∀ c ∈ blanks, isSpace c = true

theorem behind_cut (lead : Bytes) {core trail : Bytes} (hcore : core ≠ []) (hlast : ∀ c ∈ core.getLast?, isSpace c = false)
    (htrail : ∀ c ∈ trail, isSpace c = true) : Behind (lead ++ core ++ trail) (trail ++ [0]).tail := by
  cases trail with
  | nil =>
    refine .inl ⟨rfl, ?_⟩
    rw [List.append_nil, List.getLast?_append_of_ne_nil lead hcore]
    exact hlast
  | cons t trail =>
    refine .inr ⟨?_, trail, [], by simp, fun c hc => htrail c (List.mem_cons_of_mem t hc)⟩
    rw [List.getLast?_append_of_ne_nil _ (List.cons_ne_nil t trail), List.getLast?_eq_some_getLast (List.cons_ne_nil t trail)]
    exact ⟨_, rfl, htrail _ (List.getLast_mem _)⟩

theorem parse_pair (lead tail : Bytes) {k v : Bytes} (hk : 0 ∉ k) (hv : 0 ∉ v) (hlast : ∀ c ∈ v.getLast?, isSpace c = false) :
    ∃ front z lead', front = lead' ++ trim k ++ 0 :: z ∧ ∀ mem, mem = lead ++ k ++ 0 :: (v ++ 0 :: tail) →
      (do
        let (mem, key) ← trimWhitespace mem lead.length
        let (mem, value) ← trimWhitespace mem (lead.length + k.length + 1)
        let (mem, value) ← filteredCopy mem value value
        return (mem, value.map (key, ·)) : Except Fault (Bytes × Option (ℕ × ℕ))) =
      (filteredCopy (front ++ trim v ++ 0 :: tail) front.length front.length >>= fun r =>
        .ok (r.1, r.2.map (lead'.length, ·))) := by
  obtain ⟨leadK, trailK, hsplitK, _, _, _, htrimK⟩ := trimWhitespace_spec lead (v ++ 0 :: tail) hk
  obtain ⟨z, hz, hcut⟩ := cut_tail trailK
  rw [hcut] at htrimK
  obtain ⟨leadV, trailV, hsplitV, _, htrailV, hemptyV, htrimV⟩ :=
    trimWhitespace_spec (lead ++ leadK ++ trim k ++ 0 :: z) tail hv
  obtain rfl : trailV = [] := by
    by_contra hne
    have hspace := htrailV _ (List.getLast_mem hne)
    have hlastV := hlast (trailV.getLast hne) (by
      rw [hsplitV, List.getLast?_append_of_ne_nil _ hne]
      exact List.getLast?_eq_some_getLast hne)
    rw [hspace] at hlastV
    cases hlastV
  refine ⟨lead ++ leadK ++ trim k ++ 0 :: z ++ leadV, z ++ leadV, lead ++ leadK, by simp, ?_⟩
  rintro mem rfl
  have hpos : lead.length + k.length + 1 = (lead ++ leadK ++ trim k ++ 0 :: z).length := by
    conv_lhs => rw [hsplitK]
    simp only [List.length_append, List.length_cons, hz]
    omega
  have hmem : lead ++ leadK ++ trim k ++ 0 :: (z ++ (v ++ 0 :: tail)) =
      lead ++ leadK ++ trim k ++ 0 :: z ++ v ++ 0 :: tail := by simp
  rw [htrimK, ok_bind]
  dsimp only
  rw [hpos, hmem, htrimV, ok_bind]
  rfl

/-- The line up to the copy of the value: none is reached, or it is the last thing that happens. -/
theorem parseEnvLine_spec {s : Bytes} (h0 : 0 ∉ s) :
    (envKeyText s = none ∧ ∃ mem, parseEnvLine (s ++ [0]) = .ok (mem, none)) ∨
      ∃ key text lead z tail front, envKeyText s = some (key, text) ∧ 0 ∉ key ∧ 0 ∉ text ∧
        front = lead ++ key ++ 0 :: z ∧ Behind s tail ∧
        parseEnvLine (s ++ [0]) = (filteredCopy (front ++ text ++ 0 :: tail) front.length front.length >>= fun r =>
          .ok (r.1, r.2.map (lead.length, ·))) := by
  obtain ⟨lead, trail, hsplit, _, htrail, _, htrim⟩ := trimWhitespace_spec [] [] h0
  have hcore0 := trim_nul_free h0
  obtain ⟨_, _, _, _, _, _, hlast, _⟩ := trim_split s
  have hbehind : trim s ≠ [] → Behind s (trail ++ [0]).tail := by
    intro hne
    have h := behind_cut lead hne hlast htrail
    rwa [← hsplit] at h
  change trimWhitespace (s ++ [0]) 0 = .ok (lead ++ trim s ++ 0 :: (trail ++ [0]).tail, lead.length) at htrim
  rw [envKeyText, parseEnvLine, htrim, ok_bind]
  generalize trim s = core at *
  generalize (trail ++ [0]).tail = tail at *
  dsimp only
  cases core with
  | nil =>
    have hload : load (lead ++ [] ++ 0 :: tail) lead.length = .ok 0 := load_at lead 0 tail (by simp) rfl
    rw [hload, ok_bind, if_pos (.inl rfl)]
    exact .inl ⟨rfl, _, rfl⟩
  | cons c rest =>
    have hload : load (lead ++ c :: rest ++ 0 :: tail) lead.length = .ok c := load_at lead c (rest ++ 0 :: tail) (by simp) rfl
    have hc0 : c ≠ 0 := fun heq => hcore0 (heq ▸ List.mem_cons_self)
    rw [hload, ok_bind]
    by_cases hcomment : c = '#'.toUInt8
    · rw [if_pos (.inr hcomment)]
      refine .inl ⟨?_, _, rfl⟩
      split
      · rfl
      · rw [if_pos (.inl (by rw [hcomment]; rfl))]
    rw [if_neg (not_or.mpr ⟨hc0, hcomment⟩)]
    -- the line up to the equal sign
    obtain ⟨k, hk⟩ : ∃ k, k = (c :: rest).takeWhile (· != '='.toUInt8) := ⟨_, rfl⟩
    obtain ⟨d, hd⟩ : ∃ d, d = (c :: rest).dropWhile (· != '='.toUInt8) := ⟨_, rfl⟩
    have hcore : c :: rest = k ++ d := by rw [hk, hd, List.takeWhile_append_dropWhile]
    have hk0 : 0 ∉ k := fun hmem => hcore0 (by rw [hcore]; exact List.mem_append_left d hmem)
    have hpass : ∀ x ∈ k, (x != 0 && x != '='.toUInt8) = true := by
      intro x hx
      have hne : x ≠ 0 := fun heq => hk0 (heq ▸ hx)
      rw [hk] at hx
      rw [Bool.and_eq_true, bne_iff_ne]
      exact ⟨hne, List.mem_takeWhile_imp (p := (· != '='.toUInt8)) hx⟩
    rw [← hk, ← hd]
    cases d with
    | nil =>
      rw [List.append_nil] at hcore
      have hscan : scan (fun x => x != 0 && x != '='.toUInt8) (lead ++ c :: rest ++ 0 :: tail)
          ((lead ++ c :: rest ++ 0 :: tail).length + 1) lead.length = .ok (lead.length + k.length) := by
        have hmem : lead ++ c :: rest ++ 0 :: tail = lead ++ k ++ 0 :: tail := by rw [hcore]
        refine scan_run (by decide) k lead hmem rfl hpass ?_
        rw [hcore]
        simp only [List.length_append, List.length_cons]
        omega
      have hnul : load (lead ++ c :: rest ++ 0 :: tail) (lead.length + k.length) = .ok 0 :=
        load_at (lead ++ k) 0 tail (by rw [hcore]) (by rw [List.length_append])
      rw [hscan, ok_bind, hnul, ok_bind, if_pos rfl]
      exact .inl ⟨rfl, _, rfl⟩
    | cons e v =>
      have he : e = '='.toUInt8 := by
        have hhead := List.head?_dropWhile_not (· != '='.toUInt8) (c :: rest)
        rw [← hd] at hhead
        simpa using hhead
      subst he
      have hv0 : 0 ∉ v := fun hmem => hcore0 (by
        rw [hcore]
        exact List.mem_append_right k (List.mem_cons_of_mem _ hmem))
      have hmem : lead ++ c :: rest ++ 0 :: tail = lead ++ k ++ '='.toUInt8 :: (v ++ 0 :: tail) := by
        rw [hcore]
        simp
      rw [hmem]
      have hscan : scan (fun x => x != 0 && x != '='.toUInt8) (lead ++ k ++ '='.toUInt8 :: (v ++ 0 :: tail))
          ((lead ++ k ++ '='.toUInt8 :: (v ++ 0 :: tail)).length + 1) lead.length = .ok (lead.length + k.length) := by
        refine scan_run (by decide) k lead rfl rfl hpass ?_
        simp only [List.length_append, List.length_cons]
        omega
      have hequal : load (lead ++ k ++ '='.toUInt8 :: (v ++ 0 :: tail)) (lead.length + k.length) = .ok '='.toUInt8 :=
        load_at (lead ++ k) _ _ rfl (by rw [List.length_append])
      have hstore := store_at (lead ++ k) '='.toUInt8 (v ++ 0 :: tail) 0 rfl
        (by rw [List.length_append] : lead.length + k.length = (lead ++ k).length)
      rw [hscan, ok_bind, hequal, ok_bind, if_neg (by decide), Nat.add_sub_cancel_left]
      cases k with
      | nil =>
        refine .inl ⟨?_, _, if_pos rfl⟩
        dsimp only
        rw [if_pos (.inr rfl)]
      | cons x k =>
        have hhead : (c :: rest).head? ≠ some '#'.toUInt8 := fun h => hcomment (Option.some.inj h)
        have hlastV : ∀ y ∈ v.getLast?, isSpace y = false := by
          intro y hy
          cases v with
          | nil => cases hy
          | cons b v =>
            refine hlast y ?_
            rw [hcore, List.getLast?_append_of_ne_nil _ (List.cons_ne_nil _ _), List.getLast?_cons_cons]
            exact hy
        obtain ⟨front, z, lead', hfront, hpair⟩ := parse_pair lead tail hk0 hv0 hlastV
        refine .inr ⟨trim (x :: k), trim v, lead', z, tail, front, ?_, trim_nul_free hk0, trim_nul_free hv0,
          hfront, hbehind (List.cons_ne_nil c rest), ?_⟩
        · dsimp only
          rw [if_neg (not_or.mpr ⟨hhead, List.cons_ne_nil x k⟩)]
        · rw [if_neg (by simp), hstore, ok_bind]
          exact hpair _ (by simp)

/-- `ParseEnvLine` stays within the line, and returns the key with what the value stands for, if it stands for
anything. -/
def EnvLineMeets (s : Bytes) : Prop :=
  ∃ mem out, parseEnvLine (s ++ [0]) = .ok (mem, out) ∧
    out.map (fun r => (stringAt mem r.1, stringAt mem r.2)) =
      (envKeyText s).bind fun r => (envDecode r.2).map (r.1, ·)

/-- `filtered_copy`, with the string as source and destination. -/
def FilteredCopyMeets (s : Bytes) : Prop :=
  ∃ mem out, filteredCopy (s ++ [0]) 0 0 = .ok (mem, out) ∧ out.map (stringAt mem) = envDecode s

/-- The last character of the line, blanks included, is a backslash at the end of the value that escapes nothing. -/
def LineEndsInBackslash (s : Bytes) : Prop :=
  (∀ c ∈ s.getLast?, isSpace c = false) ∧ ∃ key text, envKeyText s = some (key, text) ∧ valueEndsInBackslash text = true

theorem filteredCopyMeets_iff {s : Bytes} (h0 : 0 ∉ s) : FilteredCopyMeets s ↔ valueEndsInBackslash s = false := by
  obtain ⟨hcopies, hleaves⟩ := filteredCopy_spec [] [] h0
  constructor
  · rintro ⟨mem, out, heq, _⟩
    by_contra hends
    have hout : filteredCopy (s ++ [0]) 0 0 = .error .outOfBounds := hleaves (by simpa using hends) rfl
    rw [heq] at hout
    cases hout
  · intro hends
    have h := hcopies (.inl hends)
    unfold CopiedInPlace at h
    cases hdecode : envDecode s with
    | none =>
      rw [hdecode] at h
      obtain ⟨mem, heq⟩ := h
      exact ⟨mem, none, heq, hdecode.symm⟩
    | some w =>
      rw [hdecode] at h
      obtain ⟨junk, heq⟩ := h
      refine ⟨_, _, heq, ?_⟩
      rw [hdecode]
      exact congrArg some (stringAt_piece junk (envDecode_nul_free h0 hdecode))

/-- The line and the copy keep within their memory, and mean what they should, exactly if they do not end in a
backslash that escapes nothing. -/
theorem env_line_iff (s : CString) : (EnvLineMeets s.bytes ↔ ¬ LineEndsInBackslash s.bytes) ∧
    (FilteredCopyMeets s.bytes ↔ valueEndsInBackslash s.bytes = false) := by
  refine ⟨?_, filteredCopyMeets_iff s.nul_free⟩
  obtain ⟨hnone, mem, heq⟩ | ⟨key, text, lead, z, tail, front, hsome, hkey, htext, hfront, hbehind, heq⟩ :=
    parseEnvLine_spec s.nul_free
  · refine iff_of_true ⟨mem, none, heq, by rw [hnone]; rfl⟩ ?_
    rintro ⟨_, _, _, hsome, _⟩
    rw [hnone] at hsome
    cases hsome
  · obtain ⟨hcopies, hleaves⟩ := filteredCopy_spec front tail htext
    have hmeets : CopiedInPlace (front ++ text ++ 0 :: tail) front text → EnvLineMeets s.bytes := by
      intro h
      unfold CopiedInPlace at h
      unfold EnvLineMeets
      rw [heq, hsome, Option.bind_some]
      dsimp only
      cases hdecode : envDecode text with
      | none =>
        rw [hdecode] at h
        obtain ⟨mem, hcopy⟩ := h
        exact ⟨mem, none, by rw [hcopy]; rfl, rfl⟩
      | some w =>
        rw [hdecode] at h
        obtain ⟨junk, hcopy⟩ := h
        refine ⟨front ++ w ++ 0 :: junk, some (lead.length, front.length), by rw [hcopy]; rfl, ?_⟩
        have hkeyAt : stringAt (front ++ w ++ 0 :: junk) lead.length = key := by
          have hcells : front ++ w ++ 0 :: junk = lead ++ key ++ 0 :: (z ++ w ++ 0 :: junk) := by
            rw [hfront]
            simp
          rw [hcells]
          exact stringAt_piece _ hkey
        rw [Option.map_some, Option.map_some, hkeyAt, stringAt_piece junk (envDecode_nul_free htext hdecode)]
    rcases hbehind with ⟨htail, hlast⟩ | ⟨⟨c, hc, hspace⟩, hblanks⟩
    · cases hends : valueEndsInBackslash text with
      | false =>
        refine iff_of_true (hmeets (hcopies (.inl hends))) ?_
        rintro ⟨_, key', text', hsome', hends'⟩
        rw [hsome, Option.some.injEq, Prod.mk.injEq] at hsome'
        rw [← hsome'.2, hends] at hends'
        cases hends'
      | true =>
        refine iff_of_false ?_ fun h => h ⟨hlast, key, text, hsome, hends⟩
        rintro ⟨mem, out, hout, _⟩
        rw [heq, hleaves hends htail] at hout
        cases hout
    · refine iff_of_true (hmeets (hcopies (.inr hblanks))) ?_
      rintro ⟨hlast, _⟩
      rw [hlast c hc] at hspace
      cases hspace

/-- The line `K=\`: the character behind the terminating NUL is read. -/
theorem backslash_line_leaves : parseEnvLine (ascii "K=\\" ++ [0]) = .error .outOfBounds ∧
    ¬ EnvLineMeets (ascii "K=\\") := by
  have hleaves : parseEnvLine (ascii "K=\\" ++ [0]) = .error .outOfBounds := rfl
  refine ⟨hleaves, ?_⟩
  rintro ⟨mem, out, heq, _⟩
  rw [hleaves] at heq
  cases heq

end Libntech.Json
