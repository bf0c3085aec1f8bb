import Libntech.Printf.FormatMeaning

/-! # Every format is printed into every buffer

What a format prints, what is returned and how it ends does not depend on the buffer, which has the beginning of the text.
-/
namespace Libntech.Printf
set_option autoImplicit false

open Libntech.Json (Bytes ascii)

section

variable {δ : Type} (thousands_sep : Bytes) (fmtflt : FloatStyle → δ → ℤ → ℤ → Flags → Option Bytes)
  {size : ℕ} {c c' : Conf δ} {ch : UInt8} {format rest : Bytes}

/-! ## The end of the function -/

/-- The beginning of the text that fits, and its terminator. -/
def buffered (size : ℕ) (str text : Bytes) : Bytes :=
  if size = 0 then str else text.take (size - 1) ++ 0 :: str.drop (min text.length (size - 1) + 1)

def printed (size : ℕ) (str : Bytes) (c : Conf δ) (text : Bytes) : Printed :=
  ⟨if c.overflow ∨ intMax ≤ text.length then -1 else text.length, buffered size str text, c.counts⟩

variable {args : List (Arg δ)} {α : Type} {next : α → List (Arg δ)} {str text : Bytes}
  {r : ℕ → Except Halt (Conf δ × Bytes)}

theorem terminated (hpos : 0 < size) (hroom : size ≤ str.length) {last : ℕ} (hlast : last = min text.length (size - 1)) :
    (text.take (size - 1) ++ str.drop (min text.length (size - 1))).set last 0 = buffered size str text := by
  unfold buffered
  rw [if_neg (Nat.ne_of_gt hpos), hlast, List.set_append_right _ _ (by rw [List.length_take]; omega), List.length_take,
    Nat.min_comm (size - 1), Nat.sub_self, List.drop_eq_getElem_cons (by omega), List.set_cons_zero]

theorem rplVsnprintf_of_emits (h : Emits (fun size => loop thousands_sep fmtflt size (Conf.start args []) format) r)
    (size : ℕ) (str : Bytes) (hroom : size ≤ str.length) :
    rplVsnprintf thousands_sep fmtflt (some str) size format args = (r 0).map fun p => printed size str p.1 p.2 := by
  have hloop := h size ⟨str, 0⟩ hroom
  unfold rplVsnprintf
  simp only [reduceCtorEq, if_false, Option.getD_some]
  rw [show loop thousands_sep fmtflt size (Conf.start args []) format ⟨str, 0⟩ = _ from hloop]
  cases hr : r 0 with
  | error e => rfl
  | ok p =>
    obtain ⟨c, text⟩ := p
    have hlen : (Out.put size ⟨str, 0⟩ text).len = text.length := by rw [Out.put_len]; exact Nat.zero_add _
    have hlength : (text.take (size - 1) ++ str.drop (min text.length (size - 1))).length = str.length := by
      rw [List.length_append, List.length_take, List.length_drop]
      omega
    simp only [Except.map, bind, Except.bind, hlen, Out.put_str hroom, hlength]
    by_cases hpos : 0 < size
    · have hlast : (if text.length < size then text.length else size - 1) = min text.length (size - 1) := by
        split_ifs <;> omega
      have hin : ¬(0 < size ∧ str.length ≤ min text.length (size - 1)) := by omega
      simp only [hlast, if_neg hin, if_pos hpos, terminated hpos hroom rfl]
      rfl
    · have hzero : size = 0 := Nat.eq_zero_of_not_pos hpos
      subst hzero
      simp [printed, buffered]
      rfl

/-! ## Strings that are read to their end -/

def Terminated (args : List (Arg δ)) : Prop := ∀ value, .string (some value) ∈ args → (0 : UInt8) ∈ value

/-- A step that takes arguments from the list, and reads only inside of them. -/
def Reads (args : List (Arg δ)) {α : Type} (next : α → List (Arg δ)) (e : Except Halt α) : Prop :=
  (∀ a, e = .ok a → next a ⊆ args) ∧ (Terminated args → e ≠ .error .outOfBounds)

theorem Reads.ok {a : α} (h : next a ⊆ args) : Reads args next (.ok a) :=
  ⟨fun _ hb => Except.ok.inj hb ▸ h, fun _ hb => nomatch hb⟩

theorem Reads.halt {e : Halt} (h : e ≠ .outOfBounds) : Reads args next (.error e) :=
  ⟨fun _ hb => (nomatch hb), fun _ hb => h (Except.error.inj hb)⟩

theorem Reads.bind {β : Type} {next' : β → List (Arg δ)} {e : Except Halt α} {f : α → Except Halt β}
    (he : Reads args next e) (hf : ∀ a, e = .ok a → Reads (next a) next' (f a)) :
    Reads args next' (e >>= f) := by
  cases e with
  | error e => exact ⟨fun _ hb => (nomatch hb), fun hargs hb => he.2 hargs (congrArg Except.error (Except.error.inj hb))⟩
  | ok a =>
    have hsub : next a ⊆ args := he.1 a rfl
    have hnext := hf a rfl
    exact ⟨fun b hb => List.Subset.trans (hnext.1 b hb) hsub, fun hargs => hnext.2 fun value hmem => hargs value (hsub hmem)⟩

theorem vaInt_reads (args : List (Arg δ)) : Reads args Prod.snd (vaInt args) := by
  unfold vaInt
  split
  · exact .ok (List.subset_cons_self _ _)
  · exact .halt (by decide)

theorem vaDouble_reads (args : List (Arg δ)) : Reads args Prod.snd (vaDouble args) := by
  unfold vaDouble
  split
  · exact .ok (List.subset_cons_self _ _)
  · exact .halt (by decide)

theorem vaPointer_reads (args : List (Arg δ)) : Reads args Prod.snd (vaPointer args) := by
  unfold vaPointer
  split
  · exact .ok (List.subset_cons_self _ _)
  · exact .halt (by decide)

theorem vaCount_reads (args : List (Arg δ)) : Reads args id (vaCount args) := by
  unfold vaCount
  split
  · exact .ok (List.subset_cons_self _ _)
  · exact .halt (by decide)

theorem string_reads (c : Conf δ) (len : ℕ) :
    Reads c.args (fun p => p.1.args) (Conversion.string.text thousands_sep fmtflt c len) := by
  unfold Conversion.text
  match hargs : c.args with
  | .string value :: args =>
    simp only [vaString, bind, Except.bind, stringText]
    by_cases hover : intMax < (chars c.precision (value.getD (ascii "(null)" ++ [0]))).length
    · simp only [if_pos hover]
      exact .halt (by decide)
    simp only [if_neg hover]
    by_cases hread : Readable c.precision (value.getD (ascii "(null)" ++ [0]))
    · simp only [if_pos hread]
      exact .ok (List.subset_cons_self _ _)
    · simp only [if_neg hread]
      refine ⟨fun _ hb => (by cases hb), fun hterm _ => hread (.inl ?_)⟩
      cases value with
      | none => decide
      | some value => exact hterm value List.mem_cons_self
  | [] | .int _ :: _ | .pointer _ :: _ | .double _ :: _ | .count :: _ => exact .halt (by decide)

theorem intPrinted_reads (args : List (Arg δ)) (value : ℤ) (base : ℕ) (width precision : ℤ) (flags : Flags) :
    Reads args (fun _ => args) (intPrinted thousands_sep value base width precision flags) := by
  have habsolute : Reads args (fun _ => args) (absolute flags value) := by
    unfold absolute
    split_ifs
    · exact .ok (List.Subset.refl _)
    · exact .halt (by decide)
    · exact .ok (List.Subset.refl _)
  have hdifference (n : ℤ) : Reads args (fun _ => args) (intDifference n) := by
    unfold intDifference
    split_ifs
    · exact .ok (List.Subset.refl _)
    · exact .halt (by decide)
  have hseparators (digits : ℕ) : Reads args (fun _ => args)
      (if flags.quote then getnumsep thousands_sep digits else .ok 0 : Except Halt ℕ) := by
    cases flags.quote with
    | false => exact .ok (List.Subset.refl _)
    | true =>
      rw [if_pos rfl, getnumsep]
      generalize (digits - if digits % 3 = 0 then 1 else 0) / 3 = separators
      split
      · exact .halt (by decide)
      · exact .ok (List.Subset.refl _)
  unfold intPrinted
  refine habsolute.bind fun uvalue _ => (hseparators _).bind fun separators _ => ?_
  exact (hdifference _).bind fun _ _ => (hdifference _).bind fun _ _ => .ok (List.Subset.refl _)

theorem text_reads (conv : Conversion) (c : Conf δ) (len : ℕ) :
    Reads c.args (fun p => p.1.args) (conv.text thousands_sep fmtflt c len) := by
  cases conv with
  | signed =>
    refine (vaInt_reads c.args).bind fun p _ => ?_
    exact (intPrinted_reads thousands_sep p.2 _ _ _ _ _).bind fun _ _ => .ok (List.Subset.refl _)
  | unsigned base up =>
    refine (vaInt_reads c.args).bind fun p _ => ?_
    exact (intPrinted_reads thousands_sep p.2 _ _ _ _ _).bind fun _ _ => .ok (List.Subset.refl _)
  | double style up =>
    refine (vaDouble_reads c.args).bind fun p _ => ?_
    obtain ⟨fvalue, args⟩ := p
    simp only
    split
    · exact .ok (List.Subset.refl _)
    · exact .ok (List.Subset.refl _)
  | char => exact (vaInt_reads c.args).bind fun _ _ => .ok (List.Subset.refl _)
  | string => exact string_reads thousands_sep fmtflt c len
  | pointer =>
    refine (vaPointer_reads c.args).bind fun p _ => ?_
    obtain ⟨address, args⟩ := p
    have htext : Reads args (fun _ => args) (if address = 0 then .ok (justified c.flags.minus (c.width - 5) (ascii "(nil)"))
        else intPrinted thousands_sep address 16 c.width c.precision { c.flags with num := true, unsigned := true }) := by
      split_ifs
      · exact .ok (List.Subset.refl _)
      · exact intPrinted_reads thousands_sep args _ _ _ _ _
    exact htext.bind fun _ _ => .ok (List.Subset.refl _)
  | count => exact (vaCount_reads c.args).bind fun _ _ => .ok (List.Subset.refl _)
  | percent => exact .ok (List.Subset.refl _)
  | skip => exact .ok (List.Subset.refl _)

theorem joined_reads {β : Type} {n : α → List (Arg δ)} {m : β → List (Arg δ)} {r : ℕ → Except Halt (α × Bytes)}
    {q : α → ℕ → Except Halt (β × Bytes)} (hr : ∀ len, Reads args (fun p => n p.1) (r len))
    (hq : ∀ a len' text, r len' = .ok (a, text) → ∀ len, Reads (n a) (fun p => m p.1) (q a len)) (len : ℕ) :
    Reads args (fun p => m p.1) (joined r q len) :=
  (hr len).bind fun p hp => (hq p.1 len p.2 hp _).bind fun _ _ => .ok (List.Subset.refl _)

/-! ## Any format -/

theorem widthTurn_reads (c : Conf δ) (ch : UInt8) (format : Bytes) :
    Reads c.args (fun p => p.1.args) (widthTurn c ch format) := by
  unfold widthTurn
  split_ifs
  · exact .ok (List.Subset.refl _)
  · exact .ok (List.Subset.refl _)
  · refine (vaInt_reads c.args).bind fun p _ => ?_
    obtain ⟨arg, args⟩ := p
    simp only
    split_ifs
    · exact .halt (by decide)
    · exact .ok (List.Subset.refl _)
    · exact .ok (List.Subset.refl _)
  · exact .ok (List.Subset.refl _)

theorem precisionTurn_reads (c : Conf δ) (ch : UInt8) (format : Bytes) :
    Reads c.args (fun p => p.1.args) (precisionTurn c ch format) := by
  unfold precisionTurn
  extract_lets precision
  split_ifs
  · exact .ok (List.Subset.refl _)
  · exact .ok (List.Subset.refl _)
  · exact (vaInt_reads c.args).bind fun _ _ => .ok (List.Subset.refl _)
  · exact .ok (List.Subset.refl _)

theorem lift_reads {e : Except Halt α} (h : Reads args next e) :
    Reads args (fun p : α × Bytes => next p.1) (e.map fun a => (a, [])) := by
  cases e with
  | error e => exact ⟨fun _ hb => (nomatch hb), fun hargs hb => h.2 hargs (congrArg Except.error (Except.error.inj hb))⟩
  | ok a => exact .ok (h.1 a rfl)

theorem turn_emits (c : Conf δ) (ch : UInt8) (format : Bytes) :
    ∃ r, Emits (fun size => turn thousands_sep fmtflt size c ch format) r ∧
      ∀ len, Reads c.args (fun p => p.1.1.args) (r len) := by
  have hsub : c.args ⊆ c.args := List.Subset.refl _
  cases hstate : c.state with
  | default =>
    simp only [turn, hstate]
    by_cases hpercent : ch = '%'.toUInt8
    · simp only [if_pos hpercent]
      exact ⟨_, .pure _, fun _ => .ok hsub⟩
    · simp only [if_neg hpercent]
      exact ⟨_, (Emits.outchar ch).returns _, fun _ => .ok hsub⟩
  | flags =>
    simp only [turn, hstate]
    cases c.flags.set ch with
    | none => exact ⟨_, .pure _, fun _ => .ok hsub⟩
    | some flags => exact ⟨_, .pure _, fun _ => .ok hsub⟩
  | width =>
    simp only [turn, hstate]
    exact ⟨_, .lift _, fun _ => lift_reads (widthTurn_reads c ch format)⟩
  | dot =>
    simp only [turn, hstate]
    split_ifs
    · exact ⟨_, .pure _, fun _ => .ok hsub⟩
    · exact ⟨_, .pure _, fun _ => .ok hsub⟩
  | precision =>
    simp only [turn, hstate]
    exact ⟨_, .lift _, fun _ => lift_reads (precisionTurn_reads c ch format)⟩
  | mod =>
    simp only [turn, hstate]
    exact ⟨_, .pure _, fun _ => .ok hsub⟩
  | conv =>
    have hgo (c : Conf δ) : Emits (fun _ => (if c.overflow then return (c, []) else return (Conf.start c.args c.counts, format) :
        Printer (Conf δ × Bytes))) fun _ =>
        .ok ((if c.overflow then (c, []) else (Conf.start c.args c.counts, format)), []) := by
      cases c.overflow
      · exact .pure _
      · exact .pure _
    simp only [turn, hstate]
    refine ⟨_, (conversion_emits thousands_sep fmtflt c ch).bind hgo, joined_reads (m := fun (p : Conf δ × Bytes) => p.1.args)
      (text_reads thousands_sep fmtflt _ c) ?_⟩
    intro c' _ _ _ _
    refine .ok ?_
    cases c'.overflow <;> exact List.Subset.refl _

theorem State.rank_le (s : State) : s.rank ≤ 4 := by cases s <;> decide

theorem loop_emits (c : Conf δ) (format : Bytes) :
    ∃ r, Emits (fun size => loop thousands_sep fmtflt size c format) r ∧ ∀ len, Reads c.args (fun p => p.1.args) (r len) := by
  -- a turn takes off a character, or it goes down in rank, of which there are five
  induction hn : 5 * format.length + c.state.rank using Nat.strong_induction_on generalizing c format with
  | _ n ih =>
    cases format with
    | nil =>
      exact ⟨fun _ => .ok (c, []), fun _ out _ => congrFun (loop_nil thousands_sep fmtflt c) out,
        fun _ => .ok (List.Subset.refl _)⟩
    | cons ch format =>
      obtain ⟨r, hr, hreads⟩ := turn_emits thousands_sep fmtflt c ch format
      have hnext (p : Conf δ × Bytes) : ∃ q, ∀ len text, r len = .ok (p, text) →
          Emits (fun size => loop thousands_sep fmtflt size p.1 p.2) q ∧ ∀ len, Reads p.1.args (fun p => p.1.args) (q len) := by
        by_cases hsome : ∃ len text, r len = .ok (p, text)
        · obtain ⟨len, text, hok⟩ := hsome
          have hturn := hr 0 ⟨[], len⟩ (Nat.le_refl _)
          rw [hok] at hturn
          have hrank := p.1.state.rank_le
          have hdecreases := turn_decreases thousands_sep fmtflt hturn
          obtain ⟨q, hq⟩ := ih _ (by rw [← hn, List.length_cons]; omega) p.1 p.2 rfl
          exact ⟨q, fun _ _ _ => hq⟩
        · exact ⟨fun _ => .error .argument, fun len text hok => absurd ⟨len, text, hok⟩ hsome⟩
      choose q hq using hnext
      refine ⟨joined r q, ?_, joined_reads hreads fun p len text hok => (hq p len text hok).2⟩
      have h := hr.bind_of (g := fun p size => loop thousands_sep fmtflt size p.1 p.2) fun p len text hok => (hq p len text hok).1
      simp only [loop_cons]
      exact h

/-- What is printed, what is returned and whether the call has a meaning does not depend on the buffer, which then has the
beginning of the text. If the strings have their terminators, nothing is read or written outside of an array. -/
theorem rplVsnprintf_any_buffer (format : Bytes) (args : List (Arg δ)) :
    ∃ r : Except Halt (Conf δ × Bytes), (Terminated args → r ≠ .error .outOfBounds) ∧
      (∀ size str, size ≤ str.length → rplVsnprintf thousands_sep fmtflt (some str) size format args =
        r.map fun p => printed size str p.1 p.2) ∧
      ∀ size, rplVsnprintf thousands_sep fmtflt none size format args = r.map fun p => printed 0 [] p.1 p.2 := by
  obtain ⟨r, hr, hreads⟩ := loop_emits thousands_sep fmtflt (Conf.start args []) format
  refine ⟨r 0, (hreads 0).2, rplVsnprintf_of_emits thousands_sep fmtflt hr, fun size => ?_⟩
  exact rplVsnprintf_of_emits thousands_sep fmtflt hr 0 [] (Nat.le_refl _)

/-- A format that is written from pieces prints what they mean. -/
theorem rplVsnprintf_render (pieces : List Piece) (args : List (Arg δ)) {str : Bytes} (hroom : size ≤ str.length) :
    rplVsnprintf thousands_sep fmtflt (some str) size (render pieces) args =
      (meaning thousands_sep fmtflt args [] 0 pieces).map fun p => printed size str p.1 p.2 :=
  rplVsnprintf_of_emits thousands_sep fmtflt (render_emits thousands_sep fmtflt pieces args []) size str hroom

/-- `%03d` -/
def zeroPadded : Directive :=
  ⟨['0'.toUInt8], .number 3, none, .none, 'd'.toUInt8, by decide +kernel, by simp [intMax], by simp, by decide +kernel⟩

/-- `%s` -/
def plainString : Directive := ⟨[], .none, none, .none, 's'.toUInt8, by decide +kernel, by simp, by simp, by decide +kernel⟩

/-- `snprintf(str, 6, "%03d|%s", 7, NULL)` -/
theorem rplVsnprintf_render_null :
    rplVsnprintf (δ := Unit) [] (fun _ _ _ _ _ => none) (some (List.replicate 8 1)) 6
      (render [.directive zeroPadded, .chars (ascii "|") (by decide), .directive plainString]) [.int 7, .string none] =
      .ok ⟨10, ascii "007|(" ++ [0, 1, 1], []⟩ :=
  (rplVsnprintf_render [] (fun _ _ _ _ _ => none) _ [.int 7, .string none] (by decide)).trans (by decide)

/-! ## Callers -/

/-- Memory has the size that was asked for. -/
def Allocates (malloc : ℕ → Option Bytes) : Prop := ∀ n buf, malloc n = some buf → buf.length = n

/-- What is returned for a text. -/
def length (p : Conf δ × Bytes) : ℤ := if p.1.overflow ∨ intMax ≤ p.2.length then -1 else p.2.length

theorem length_cases (p : Conf δ × Bytes) : length p = -1 ∨ length p = p.2.length ∧ (p.2.length : ℤ) < intMax := by
  unfold length
  split_ifs with h
  · exact .inl rfl
  · exact .inr ⟨rfl, by omega⟩

theorem buffered_whole (hlength : str.length = text.length + 1) :
    buffered (text.length + 1) str text = text ++ [0] := by
  have hdrop : str.drop (text.length + 1) = [] := List.drop_eq_nil_of_le (Nat.le_of_eq hlength)
  unfold buffered
  rw [if_neg (Nat.succ_ne_zero _), Nat.add_sub_cancel, List.take_length, Nat.min_self, hdrop]

theorem take_buffered {size : ℕ} (hlt : text.length < size) :
    (buffered size str text).take text.length = text := by
  unfold buffered
  rw [if_neg (by omega), List.take_of_length_le (l := text) (by omega), List.take_left']
  rfl

/-- What `vasprintf` gives for a text. -/
def allocated (malloc : ℕ → Option Bytes) (p : Conf δ × Bytes) : ℤ × Option Bytes :=
  if length p < 0 ∨ malloc (p.2.length + 1) = none then (-1, none) else (p.2.length, some (p.2 ++ [0]))

theorem rplVasprintf_of_emits (h : Emits (fun size => loop thousands_sep fmtflt size (Conf.start args []) format) r)
    {malloc : ℕ → Option Bytes} (hmalloc : Allocates malloc) :
    rplVasprintf thousands_sep fmtflt malloc format args = (r 0).map (allocated malloc) := by
  have hmeasure : rplVsnprintf thousands_sep fmtflt none 0 format args = (r 0).map fun p => printed 0 [] p.1 p.2 :=
    rplVsnprintf_of_emits thousands_sep fmtflt h 0 [] (Nat.le_refl _)
  have hprint {n : ℕ} {buf : Bytes} (hbuf : malloc n = some buf) := rplVsnprintf_of_emits thousands_sep fmtflt h n buf
    (Nat.le_of_eq (hmalloc n buf hbuf).symm)
  unfold rplVasprintf
  cases hr : r 0 with
  | error e =>
    rw [hmeasure, hr]
    rfl
  | ok p =>
    have hvalue : (printed 0 [] p.1 p.2).value = length p := rfl
    rw [hmeasure, hr]
    simp only [Except.map, bind, Except.bind, hvalue]
    unfold allocated
    rcases length_cases p with hneg | ⟨hlen, -⟩
    · rw [if_pos (by omega), if_pos (.inl (by omega))]
      rfl
    · have hnat : (length p).toNat = p.2.length := by omega
      rw [if_neg (by omega), hnat]
      cases hbuf : malloc (p.2.length + 1) with
      | none => exact congrArg Except.ok (if_pos (.inr rfl)).symm
      | some buf =>
        simp only [hprint hbuf, hr, Except.map]
        rw [if_neg (by simp; omega)]
        change Except.ok (length p, some (buffered (p.2.length + 1) buf p.2)) = _
        rw [hlen, buffered_whole (hmalloc _ buf hbuf)]

/-- What `vfprintf` gives for a text, and what it writes. -/
def streamed (malloc : ℕ → Option Bytes) (fwrite : Bytes → ℕ) (p : Conf δ × Bytes) : ℤ × Bytes :=
  if length p < 0 ∨ 1024 ≤ p.2.length ∧ malloc (p.2.length + 1) = none then (-1, [])
  else if p.2 = [] then (0, [])
  else (fwrite p.2, p.2.take (fwrite p.2))

theorem unsigned_eq {n : ℕ} (hle : (n : ℤ) ≤ intMax) : unsigned n = n := by
  unfold unsigned intMax at *
  omega

theorem rplVfprintf_of_emits (h : Emits (fun size => loop thousands_sep fmtflt size (Conf.start args []) format) r)
    {malloc : ℕ → Option Bytes} (hmalloc : Allocates malloc) (fwrite : Bytes → ℕ) {staticbuf : Bytes}
    (hstatic : staticbuf.length = 1024) :
    rplVfprintf thousands_sep fmtflt malloc fwrite staticbuf format args = (r 0).map (streamed malloc fwrite) := by
  have hfirst := rplVsnprintf_of_emits thousands_sep fmtflt h 1024 staticbuf (Nat.le_of_eq hstatic.symm)
  have hprint {n : ℕ} {buf : Bytes} (hbuf : malloc n = some buf) := rplVsnprintf_of_emits thousands_sep fmtflt h n buf
    (Nat.le_of_eq (hmalloc n buf hbuf).symm)
  unfold rplVfprintf
  cases hr : r 0 with
  | error e =>
    rw [hfirst, hr]
    rfl
  | ok p =>
    have hvalue (size : ℕ) (str : Bytes) : (printed size str p.1 p.2).value = length p := rfl
    have hstr (size : ℕ) (str : Bytes) : (printed size str p.1 p.2).str = buffered size str p.2 := rfl
    rw [hfirst, hr]
    simp only [Except.map, bind, Except.bind, hvalue, hstr]
    unfold streamed
    rcases length_cases p with hneg | ⟨hlen, hlt⟩
    · -- the comparison takes -1 for the greatest number, and nothing is allocated
      have hbig : ¬unsigned (-1) < 1024 := by decide
      rw [hneg, if_neg hbig, if_pos (.inl (by decide))]
      cases hbuf : malloc (unsigned (-1 + 1)) with
      | none => rfl
      | some buf =>
        simp only [hprint hbuf, hr, Except.map, hvalue, hneg]
        rfl
    · rw [hlen, unsigned_eq (by omega)]
      have hwrite {size : ℕ} {str : Bytes} (hsize : p.2.length < size) :
          (if 0 < (p.2.length : ℤ) then
            Except.ok ((fwrite ((buffered size str p.2).take (p.2.length : ℤ).toNat) : ℤ),
              ((buffered size str p.2).take (p.2.length : ℤ).toNat).take
                (fwrite ((buffered size str p.2).take (p.2.length : ℤ).toNat)))
          else .ok ((p.2.length : ℤ), []) : Except Halt (ℤ × Bytes)) =
            .ok (if p.2 = [] then (0, []) else (fwrite p.2, p.2.take (fwrite p.2))) := by
        rw [Int.toNat_natCast, take_buffered hsize]
        cases p.2 with
        | nil => rfl
        | cons ch text => simp
      by_cases hfits : p.2.length < 1024
      · have hgiven : ¬((p.2.length : ℤ) < 0 ∨ 1024 ≤ p.2.length ∧ malloc (p.2.length + 1) = none) := by omega
        rw [if_pos hfits, if_neg hgiven]
        exact hwrite hfits
      · have hsize : unsigned ((p.2.length : ℤ) + 1) = p.2.length + 1 := unsigned_eq (n := p.2.length + 1) (by omega)
        rw [if_neg hfits, hsize]
        cases hbuf : malloc (p.2.length + 1) with
        | none => exact congrArg Except.ok (if_pos (.inr ⟨by omega, rfl⟩)).symm
        | some buf =>
          have hgiven : ¬((p.2.length : ℤ) < 0 ∨ 1024 ≤ p.2.length ∧ some buf = none) := by simp
          have hwhole : ¬p.2.length + 1 ≤ unsigned (p.2.length : ℤ) := by rw [unsigned_eq (by omega)]; omega
          simp only [hprint hbuf, hr, Except.map, hvalue, hstr, hlen, if_neg hwhole]
          rw [if_neg hgiven]
          exact hwrite (Nat.lt_succ_self _)

/-- The callers that allocate, or that write to a stream, have the whole text of `rplVsnprintf`, or nothing of it. -/
theorem callers_whole_text (format : Bytes) (args : List (Arg δ)) :
    ∃ r : Except Halt (Conf δ × Bytes),
      (∀ size str, size ≤ str.length → rplVsnprintf thousands_sep fmtflt (some str) size format args =
        r.map fun p => printed size str p.1 p.2) ∧
      ∀ malloc, Allocates malloc →
        rplVasprintf thousands_sep fmtflt malloc format args = r.map (allocated malloc) ∧
        ∀ fwrite staticbuf, staticbuf.length = 1024 →
          rplVfprintf thousands_sep fmtflt malloc fwrite staticbuf format args = r.map (streamed malloc fwrite) := by
  obtain ⟨r, hr, -⟩ := loop_emits thousands_sep fmtflt (Conf.start args []) format
  refine ⟨r 0, rplVsnprintf_of_emits thousands_sep fmtflt hr, fun malloc hmalloc => ⟨?_, ?_⟩⟩
  · exact rplVasprintf_of_emits thousands_sep fmtflt hr hmalloc
  · exact fun fwrite staticbuf hstatic => rplVfprintf_of_emits thousands_sep fmtflt hr hmalloc fwrite hstatic

end

end Libntech.Printf
