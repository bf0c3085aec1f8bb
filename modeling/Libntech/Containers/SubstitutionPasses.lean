import Libntech.Containers.BufferMeaning
import Libntech.Containers.SubstitutionSyntax
import Libntech.Json.Numerals

/-! # The passes over a substitution string

`ExpandCFESpecialReplacements` works in a buffer, and its passes are functions of the bytes: one puts the texts in, one
turns backslashes into dollar signs and one deletes references. A text that is put in ends at its first NUL.
-/
namespace Libntech.Containers.Template
set_option autoImplicit false

open Libntech.Json (Bytes CString ascii decimal)

/-! ## Putting the texts in -/

def replaceSpecials (texts : Special → Bytes) : Bytes → Bytes
  | [] => []
  | [c] => [c]
  | c :: d :: rest =>
    if c = dollarSign then
      match special d with
      | some kind => texts kind ++ replaceSpecials texts rest
      | none => c :: replaceSpecials texts (d :: rest)
    else c :: replaceSpecials texts (d :: rest)

/-- What a C string buffer takes of the texts. -/
def cutTexts (n : ℕ) {subject : Bytes} (m : Match subject) (kind : Special) : Bytes := untilNul (specialText n m kind)

theorem decimal_nul_free (n : ℕ) : 0 ∉ decimal n := by
  intro h
  have := Json.decimal_numerals n 0 h
  exact absurd this (by decide)

/-- A buffer in C string mode that holds a text. -/
structure Carries (b : Buffer) (text : Bytes) : Prop where
  inBounds : b.InBounds
  mode : b.mode = .cstring
  text : b.text = text

section Buffers

variable (fresh : Memory) (n : ℕ) {subject : Bytes} (m : Match subject) {b : Buffer} {text : Bytes}

theorem bufferAppend_carries (h : Carries b text) (bytes : Bytes) :
    ∃ b', bufferAppend fresh b bytes = some b' ∧ Carries b' (text ++ untilNul bytes) := by
  obtain ⟨b', happend, hleaves⟩ := bufferAppend_leaves fresh bytes h.inBounds
  refine ⟨b', happend, hleaves.inBounds, hleaves.mode.trans h.mode, ?_⟩
  rw [hleaves.text, h.text, appended, h.mode]

theorem bufferNew_carries {capacity : ℕ} (h : 1 ≤ capacity) :
    ∃ b, bufferNewWithCapacity fresh capacity = some b ∧ Carries b [] := by
  obtain ⟨b, hnew, hin, htext, -⟩ := bufferNew_inBounds fresh capacity h
  refine ⟨b, hnew, hin, ?_, htext⟩
  obtain ⟨data, -, hdata⟩ := Option.bind_eq_some_iff.mp hnew
  cases hdata
  rfl

theorem appendSpecial_carries (h : Carries b text) (kind : Special) :
    ∃ b', appendSpecial fresh n m b kind = some b' ∧ Carries b' (text ++ cutTexts n m kind) := by
  cases kind with
  | captureCount =>
    obtain ⟨b', happend, hleaves⟩ := bufferAppendF_leaves fresh (decimal n) h.inBounds
    refine ⟨b', happend, hleaves.inBounds, hleaves.mode.trans h.mode, ?_⟩
    rw [hleaves.text, h.text, cutTexts, specialText, untilNul_eq_self (decimal_nul_free n)]
  | before => exact bufferAppend_carries fresh h _
  | behind => exact bufferAppend_carries fresh h _
  | whole => exact bufferAppend_carries fresh h _

theorem specialLoop_carries (t : Bytes) (ht : 0 ∉ t) :
    ∀ (b : Buffer) (text pending : Bytes), Carries b text → 0 ∉ pending →
      ∃ b', specialLoop fresh n m b pending t = some b' ∧
        Carries b' (text ++ pending ++ replaceSpecials (cutTexts n m) t) := by
  induction t using replaceSpecials.induct with
  | case1 =>
    intro b text pending h hpending
    obtain ⟨b', happend, h'⟩ := bufferAppend_carries fresh h pending
    rw [untilNul_eq_self hpending] at h'
    exact ⟨b', happend, by simpa [replaceSpecials] using h'⟩
  | case2 c =>
    intro b text pending h hpending
    obtain ⟨b', happend, h'⟩ := bufferAppend_carries fresh h (pending ++ [c])
    rw [untilNul_eq_self (by simp_all), ← List.append_assoc] at h'
    exact ⟨b', happend, h'⟩
  | case3 d rest kind hspecial ih =>
    intro b text pending h hpending
    obtain ⟨b₁, happend, h₁⟩ := bufferAppend_carries fresh h pending
    obtain ⟨b₂, hspecial₂, h₂⟩ := appendSpecial_carries fresh n m h₁ kind
    rw [untilNul_eq_self hpending] at h₂
    obtain ⟨b', hloop, h'⟩ := ih (by simp_all) b₂ _ [] h₂ List.not_mem_nil
    refine ⟨b', ?_, ?_⟩
    · rw [specialLoop, if_pos rfl, hspecial]
      simp only [Option.bind_eq_bind, happend, Option.bind_some, hspecial₂, hloop]
    · rw [replaceSpecials, if_pos rfl, hspecial]
      simpa using h'
  | case4 d rest hspecial ih =>
    intro b text pending h hpending
    obtain ⟨b', hloop, h'⟩ := ih (by simp_all) b text (pending ++ [dollarSign]) h (by simp_all)
    refine ⟨b', ?_, ?_⟩
    · rw [specialLoop, if_pos rfl, hspecial]
      exact hloop
    · rw [replaceSpecials, if_pos rfl, hspecial]
      simpa using h'
  | case5 c d rest hc ih =>
    intro b text pending h hpending
    obtain ⟨b', hloop, h'⟩ := ih (by simp_all) b text (pending ++ [c]) h (by simp_all)
    refine ⟨b', ?_, ?_⟩
    · rw [specialLoop, if_neg hc]
      exact hloop
    · rw [replaceSpecials, if_neg hc]
      simpa using h'

end Buffers

/-! ## The scan -/

theorem scanStep_special {s : Scan} (h : s.hasSpecialSeq = true) (c₀ c₁ : UInt8) :
    (scanStep s c₀ c₁).hasSpecialSeq = true := by
  unfold scanStep
  split
  · rfl
  · split
    · exact h
    · split
      · exact h
      · exact h

theorem scanLoop_special {s : Scan} (h : s.hasSpecialSeq = true) (t : Bytes) : (scanLoop s t).hasSpecialSeq = true := by
  induction t generalizing s with
  | nil => exact h
  | cons c t ih => exact ih (scanStep_special h c _)

theorem scanStep_backslash {s : Scan} (h : s.hasBackslashBref = true) (c₀ c₁ : UInt8) :
    (scanStep s c₀ c₁).hasBackslashBref = true := by
  unfold scanStep
  split
  · exact h
  · split
    · rfl
    · split
      · exact h
      · exact h

theorem scanLoop_backslash {s : Scan} (h : s.hasBackslashBref = true) (t : Bytes) :
    (scanLoop s t).hasBackslashBref = true := by
  induction t generalizing s with
  | nil => exact h
  | cons c t ih => exact ih (scanStep_backslash h c _)

/-- Where the scan sees no special sequence there is none to replace. -/
theorem replaceSpecials_of_scan (texts : Special → Bytes) {t : Bytes} :
    ∀ {s : Scan}, (scanLoop s t).hasSpecialSeq = false → replaceSpecials texts t = t := by
  induction t using replaceSpecials.induct with
  | case1 => exact fun _ => rfl
  | case2 c => exact fun _ => rfl
  | case3 d rest kind hspecial ih =>
    intro s h
    have htrue : (scanLoop s (dollarSign :: d :: rest)).hasSpecialSeq = true := by
      rw [scanLoop]
      refine scanLoop_special ?_ _
      rw [scanStep, if_pos ⟨rfl, by rw [List.headD_cons, hspecial]; rfl⟩]
    rw [htrue] at h
    cases h
  | case4 d rest hspecial ih =>
    intro s h
    rw [scanLoop] at h
    rw [replaceSpecials, if_pos rfl, hspecial]
    exact congrArg _ (ih h)
  | case5 c d rest hc ih =>
    intro s h
    rw [scanLoop] at h
    rw [replaceSpecials, if_neg hc]
    exact congrArg _ (ih h)

/-! ## Deleting references -/

/-- The numbers behind dollar signs have a result of `atoi`. -/
def Countable : Bytes → Prop
  | [] => True
  | c :: rest => (c = dollarSign → digitsValue (rest.takeWhile isdigit) < 2 ^ 31) ∧ Countable rest

instance decidableCountable : (t : Bytes) → Decidable (Countable t)
  | [] => inferInstanceAs (Decidable True)
  | c :: rest =>
    have := decidableCountable rest
    inferInstanceAs (Decidable ((c = dollarSign → digitsValue (rest.takeWhile isdigit) < 2 ^ 31) ∧ Countable rest))

/-- A number above `n` is behind the dollar sign. -/
def Above (n : ℕ) (rest : Bytes) : Prop := n < digitsValue (rest.takeWhile isdigit)

instance (n : ℕ) (rest : Bytes) : Decidable (Above n rest) := inferInstanceAs (Decidable (n < _))

def deleted (n : ℕ) (skipping : Bool) : Bytes → Bytes
  | [] => []
  | c :: rest =>
    if skipping && isdigit c then deleted n true rest
    else if c = dollarSign ∧ Above n rest then deleted n true rest
    else c :: deleted n false rest

theorem digits_of_head {rest : Bytes} (h : isdigit (rest.headD 0) = false) : rest.takeWhile isdigit = [] := by
  cases rest with
  | nil => rfl
  | cons c rest =>
    rw [List.headD_cons] at h
    rw [List.takeWhile_cons, h]
    rfl

theorem digitsValue_nil : digitsValue [] = 0 := rfl

theorem dollarSign_not_digit : isdigit dollarSign = false := by decide

theorem deleteReferences_eq_some_iff (n : ℕ) (skipping : Bool) (t u : Bytes) :
    deleteReferences n skipping t = some u ↔ Countable t ∧ deleted n skipping t = u := by
  induction t generalizing skipping u with
  | nil => simp [deleteReferences, Countable, deleted]
  | cons c rest ih =>
    rw [deleteReferences, deleted, Countable]
    cases hskip : skipping && isdigit c with
    | true =>
      have hc : c ≠ dollarSign := by
        rintro rfl
        rw [dollarSign_not_digit, Bool.and_false] at hskip
        cases hskip
      simp [hc, ih]
    | false =>
      by_cases hc : c = dollarSign
      · cases hdigit : isdigit (rest.headD 0) with
        | true =>
          simp only [hc, atoi, Above]
          generalize digitsValue (rest.takeWhile isdigit) = value
          by_cases hlt : value < 2147483648
          · by_cases hn : n < value
            · simp [hlt, hn, ih]
            · simp [hlt, hn, ih, Option.bind_eq_some_iff, and_assoc]
          · simp [hlt]
        | false =>
          simp [hc, Above, digits_of_head hdigit, digitsValue_nil, ih, Option.bind_eq_some_iff, and_assoc]
      · simp [hc, ih, Option.bind_eq_some_iff, and_assoc]

/-! ## The string that is handed over -/

/-- The passes, as the scan chooses them. -/
def passes (n : ℕ) (texts : Special → Bytes) (substitute : Bytes) : Option Bytes :=
  let s := scan substitute
  let t := replaceSpecials texts substitute
  let t := if s.hasBackslashBref then translateBackslashes t else t
  if (n : ℤ) < s.highestBref then deleteReferences n false t else some t

theorem newSubstBuf_text (fresh : Memory) (n : ℕ) {subject : Bytes} (m : Match subject) (substitute : CString) {κ : Type}
    (continue' : Buffer → Option κ) : ∃ b, b.text = replaceSpecials (cutTexts n m) substitute.bytes ∧
      (if (scan substitute.bytes).hasSpecialSeq = true then
        (bufferNewWithCapacity fresh substitute.bytes.length).bind fun b =>
          (specialLoop fresh n m b [] substitute.bytes).bind continue'
      else
        (bufferNewWithCapacity fresh (substitute.bytes.length + 1)).bind fun b =>
          (bufferAppend fresh b substitute.bytes).bind continue') = continue' b := by
  cases hspecial : (scan substitute.bytes).hasSpecialSeq with
  | true =>
    have hlen : 1 ≤ substitute.bytes.length := by
      cases hbytes : substitute.bytes with
      | nil =>
        rw [hbytes] at hspecial
        cases hspecial
      | cons c t => simp
    obtain ⟨b, hnew, hb⟩ := bufferNew_carries fresh hlen
    obtain ⟨b', hloop, hb'⟩ := specialLoop_carries fresh n m _ substitute.nul_free b [] [] hb List.not_mem_nil
    refine ⟨b', hb'.text, ?_⟩
    rw [if_pos rfl, hnew, Option.bind_some, hloop, Option.bind_some]
  | false =>
    obtain ⟨b, hnew, hb⟩ := bufferNew_carries fresh (Nat.le_add_left 1 substitute.bytes.length)
    obtain ⟨b', happend, hb'⟩ := bufferAppend_carries fresh hb substitute.bytes
    have htext := hb'.text
    rw [untilNul_eq_self substitute.nul_free, List.nil_append] at htext
    refine ⟨b', ?_, ?_⟩
    · rw [replaceSpecials_of_scan _ hspecial, htext]
    · rw [if_neg Bool.false_ne_true, hnew, Option.bind_some, happend, Option.bind_some]

theorem handed_eq (fresh : Memory) (n : ℕ) {subject : Bytes} (m : Match subject) (substitute : CString) :
    handed fresh n m substitute = passes n (cutTexts n m) substitute.bytes := by
  obtain ⟨b, htext, hb⟩ := newSubstBuf_text fresh n m substitute fun b =>
    let t := if (scan substitute.bytes).hasBackslashBref then translateBackslashes b.text else b.text
    if (n : ℤ) < (scan substitute.bytes).highestBref then (deleteReferences n false t).bind fun u => some (some u)
    else some (some t)
  unfold handed passes
  by_cases hnothing : (!(scan substitute.bytes).hasSpecialSeq && !(scan substitute.bytes).hasBackslashBref &&
      decide ((scan substitute.bytes).highestBref ≤ n)) = true
  · have hexpand : expandCFESpecialReplacements fresh n m substitute = some none := if_pos hnothing
    simp only [Bool.and_eq_true, Bool.not_eq_true', decide_eq_true_eq] at hnothing
    obtain ⟨⟨hspecial, hback⟩, hhighest⟩ := hnothing
    simp [hexpand, replaceSpecials_of_scan _ hspecial, hback, not_lt.mpr hhighest]
  · rw [htext] at hb
    have hexpand : expandCFESpecialReplacements fresh n m substitute = _ := (if_neg hnothing).trans hb
    refine (congrArg (Option.map _) hexpand).trans ?_
    dsimp only
    split
    · generalize deleteReferences n false _ = o
      cases o with
      | none => rfl
      | some t => rfl
    · rfl

end Libntech.Containers.Template
