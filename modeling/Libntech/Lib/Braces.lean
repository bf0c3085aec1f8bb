import Mathlib.Computability.Language

/-! # Groups of alternatives in braces

A tree is a text with groups in it; a separator ends an alternative of the group it stands in, and is a character of the
text outside of groups. Every text whose braces are balanced is the print of a tree (`exists_print`). A tree that has a group
has one without groups inside, and stands for what the trees stand for in which an alternative is in its place (`innermost`).
-/
namespace Libntech.Lib
set_option autoImplicit false

variable {α : Type*}

structure Marks (α : Type*) where
  opening : α
  closing : α
  separator : α
  opening_ne : opening ≠ closing
  separator_ne_opening : separator ≠ opening
  separator_ne_closing : separator ≠ closing

/-- A character that is none of the marks. -/
def Marks.Plain (marks : Marks α) (c : α) : Prop := c ≠ marks.opening ∧ c ≠ marks.closing ∧ c ≠ marks.separator

inductive Braces (marks : Marks α) where
  | nil
  | char (c : α) (h : marks.Plain c) (rest : Braces marks)
  | comma (rest : Braces marks)
  | group (body rest : Braces marks)

namespace Braces

variable {marks : Marks α}

def print : Braces marks → List α
  | nil => []
  | char c _ rest => c :: rest.print
  | comma rest => marks.separator :: rest.print
  | group body rest => marks.opening :: (body.print ++ marks.closing :: rest.print)

mutual
/-- What the alternative at the beginning stands for. -/
def first : Braces marks → Language α
  | nil => 1
  | char c _ rest => {[c]} * rest.first
  | comma _ => 1
  | group body rest => (body.first + body.others) * rest.first

/-- What the alternatives behind it stand for. -/
def others : Braces marks → Language α
  | nil => 0
  | char _ _ rest => rest.others
  | comma rest => rest.first + rest.others
  | group _ rest => rest.others
end

/-- What a text outside of groups stands for. -/
def language : Braces marks → Language α
  | nil => 1
  | char c _ rest => {[c]} * rest.language
  | comma rest => {[marks.separator]} * rest.language
  | group body rest => (body.first + body.others) * rest.language

/-! ## The alternatives of a group -/

/-- The trees between the separators. -/
def alternatives : Braces marks → List (Braces marks)
  | nil => [nil]
  | char c h rest => rest.alternatives.modifyHead (char c h)
  | comma rest => nil :: rest.alternatives
  | group body rest => rest.alternatives.modifyHead (group body)

def CommaFree : Braces marks → Prop
  | nil => True
  | char _ _ rest => rest.CommaFree
  | comma _ => False
  | group _ rest => rest.CommaFree

/-- No group. -/
def Flat : Braces marks → Prop
  | nil => True
  | char _ _ rest => rest.Flat
  | comma rest => rest.Flat
  | group _ _ => False

def append : Braces marks → Braces marks → Braces marks
  | nil, behind => behind
  | char c h rest, behind => char c h (rest.append behind)
  | comma rest, behind => comma (rest.append behind)
  | group body rest, behind => group body (rest.append behind)

theorem exists_alternatives (t : Braces marks) : ∃ head tail, t.alternatives = head :: tail ∧ head.first = t.first ∧
    (∀ s, s ∈ t.others ↔ ∃ a ∈ tail, s ∈ a.first) ∧ ∀ a ∈ t.alternatives, a.CommaFree := by
  induction t with
  | nil => exact ⟨nil, [], rfl, rfl, by simp [others], by simp [alternatives, CommaFree]⟩
  | char c h rest ih =>
    obtain ⟨head, tail, heq, hfirst, hothers, hfree⟩ := ih
    rw [heq, List.forall_mem_cons] at hfree
    rw [alternatives, heq, List.modifyHead_cons, first]
    exact ⟨_, tail, rfl, by rw [first, hfirst], hothers, List.forall_mem_cons.mpr hfree⟩
  | comma rest ih =>
    obtain ⟨head, tail, heq, hfirst, hothers, hfree⟩ := ih
    rw [alternatives]
    refine ⟨nil, _, rfl, rfl, fun s => ?_, List.forall_mem_cons.mpr ⟨trivial, hfree⟩⟩
    rw [others, Language.mem_add, hothers, heq, List.exists_mem_cons_iff, hfirst]
  | group body rest _ ih =>
    obtain ⟨head, tail, heq, hfirst, hothers, hfree⟩ := ih
    rw [heq, List.forall_mem_cons] at hfree
    rw [alternatives, heq, List.modifyHead_cons, first]
    exact ⟨_, tail, rfl, by rw [first, hfirst], hothers, List.forall_mem_cons.mpr hfree⟩

theorem mem_group_iff (t : Braces marks) (s : List α) : s ∈ t.first + t.others ↔ ∃ a ∈ t.alternatives, s ∈ a.first := by
  obtain ⟨head, tail, heq, hfirst, hothers, -⟩ := t.exists_alternatives
  rw [Language.mem_add, hothers, heq, List.exists_mem_cons_iff, hfirst]

theorem alternatives_commaFree {t a : Braces marks} (h : a ∈ t.alternatives) : a.CommaFree := by
  obtain ⟨-, -, -, -, -, hfree⟩ := t.exists_alternatives
  exact hfree a h

theorem alternatives_ne_nil (t : Braces marks) : t.alternatives ≠ [] := by
  obtain ⟨head, tail, heq, -⟩ := t.exists_alternatives
  rw [heq]
  exact List.cons_ne_nil _ _

theorem print_append (a b : Braces marks) : (a.append b).print = a.print ++ b.print := by
  induction a with
  | nil => rfl
  | char c h rest ih => rw [append, print, ih, print, List.cons_append]
  | comma rest ih => rw [append, print, ih, print, List.cons_append]
  | group body rest _ ih => rw [append, print, ih, print, List.cons_append, List.append_assoc, List.cons_append]

theorem first_append {a : Braces marks} (h : a.CommaFree) (b : Braces marks) : (a.append b).first = a.first * b.first := by
  induction a with
  | nil => rw [append, first, one_mul]
  | char c hc rest ih => rw [append, first, ih h, first, mul_assoc]
  | comma rest => cases h
  | group body rest _ ih => rw [append, first, ih h, first, mul_assoc]

theorem others_append {a : Braces marks} (h : a.CommaFree) (b : Braces marks) : (a.append b).others = b.others := by
  induction a with
  | nil => rfl
  | char c hc rest ih => rw [append, others, ih h]
  | comma rest => cases h
  | group body rest _ ih => rw [append, others, ih h]

theorem language_append {a : Braces marks} (h : a.CommaFree) (b : Braces marks) :
    (a.append b).language = a.first * b.language := by
  induction a with
  | nil => rw [append, first, one_mul]
  | char c hc rest ih => rw [append, language, ih h, first, mul_assoc]
  | comma rest => cases h
  | group body rest _ ih => rw [append, language, ih h, first, mul_assoc]

/-! ## Without groups -/

theorem mem_singleton_iff (s w : List α) : s ∈ ({w} : Language α) ↔ s = w := Iff.rfl

theorem singleton_mul (c : α) (w : List α) : ({[c]} * {w} : Language α) = {c :: w} := by
  ext s
  simp [Language.mem_mul, mem_singleton_iff, eq_comm]

theorem language_flat {t : Braces marks} (h : t.Flat) : t.language = {t.print} := by
  induction t with
  | nil => rfl
  | char c hc rest ih =>
    rw [language, ih h, singleton_mul]
    rfl
  | comma rest ih =>
    rw [language, ih h, singleton_mul]
    rfl
  | group body rest => cases h

theorem print_flat {t : Braces marks} (h : t.Flat) : ∀ c ∈ t.print, c ≠ marks.opening ∧ c ≠ marks.closing := by
  induction t with
  | nil => simp [print]
  | char c hc rest ih => exact List.forall_mem_cons.mpr ⟨⟨hc.1, hc.2.1⟩, ih h⟩
  | comma rest ih => exact List.forall_mem_cons.mpr ⟨⟨marks.separator_ne_opening, marks.separator_ne_closing⟩, ih h⟩
  | group body rest => cases h

theorem splitOn_print [DecidableEq α] {t : Braces marks} (h : t.Flat) :
    t.print.splitOn marks.separator = t.alternatives.map print := by
  induction t with
  | nil => rfl
  | char c hc rest ih =>
    rw [print, List.splitOn_cons_eq_if_modifyHead, if_neg (by simpa using hc.2.2), ih h, alternatives]
    cases rest.alternatives with
    | nil => rfl
    | cons a tail => rfl
  | comma rest ih =>
    rw [print, List.splitOn_cons_eq_if_modifyHead, if_pos (by simp), ih h]
    rfl
  | group body rest => cases h

/-! ## The innermost group -/

/-- The tree stands for what the filled ones stand for together. -/
structure Filled (t : Braces marks) (as : List (Braces marks)) (fill : Braces marks → Braces marks) : Prop where
  first : ∀ s, s ∈ t.first ↔ ∃ a ∈ as, s ∈ (fill a).first
  others : ∀ s, s ∈ t.others ↔ ∃ a ∈ as, s ∈ (fill a).others
  language : ∀ s, s ∈ t.language ↔ ∃ a ∈ as, s ∈ (fill a).language

section Filled

variable {t : Braces marks} {as : List (Braces marks)} {fill : Braces marks → Braces marks} {l : Language α}
  {f g : Braces marks → Language α}

theorem mem_mul_filled (h : ∀ s, s ∈ l ↔ ∃ a ∈ as, s ∈ f a) (k : Language α) (s : List α) :
    s ∈ k * l ↔ ∃ a ∈ as, s ∈ k * f a := by
  simp only [Language.mem_mul, h]
  constructor
  · rintro ⟨u, hu, v, ⟨a, ha, hv⟩, rfl⟩
    exact ⟨a, ha, u, hu, v, hv, rfl⟩
  · rintro ⟨a, ha, u, hu, v, hv, rfl⟩
    exact ⟨u, hu, v, ⟨a, ha, hv⟩, rfl⟩

theorem mem_filled_mul (h : ∀ s, s ∈ l ↔ ∃ a ∈ as, s ∈ f a) (k : Language α) (s : List α) :
    s ∈ l * k ↔ ∃ a ∈ as, s ∈ f a * k := by
  simp only [Language.mem_mul, h]
  constructor
  · rintro ⟨u, ⟨a, ha, hu⟩, v, hv, rfl⟩
    exact ⟨a, ha, u, hu, v, hv, rfl⟩
  · rintro ⟨a, ha, u, hu, v, hv, rfl⟩
    exact ⟨u, ⟨a, ha, hu⟩, v, hv, rfl⟩

theorem mem_filled_add {k : Language α} (h : ∀ s, s ∈ l ↔ ∃ a ∈ as, s ∈ f a) (h' : ∀ s, s ∈ k ↔ ∃ a ∈ as, s ∈ g a) (s : List α) :
    s ∈ l + k ↔ ∃ a ∈ as, s ∈ f a + g a := by
  simp only [Language.mem_add, h, h', and_or_left, exists_or]

theorem mem_filled_const (hne : as ≠ []) (k : Language α) (s : List α) : s ∈ k ↔ ∃ a ∈ as, s ∈ k := by
  obtain ⟨a, ha⟩ := List.exists_mem_of_ne_nil _ hne
  exact ⟨fun hs => ⟨a, ha, hs⟩, fun ⟨_, _, hs⟩ => hs⟩

theorem Filled.char (h : Filled t as fill) (c : α) (hc : marks.Plain c) :
    Filled (char c hc t) as fun a => char c hc (fill a) where
  first := mem_mul_filled h.first _
  others := h.others
  language := mem_mul_filled h.language _

theorem Filled.comma (h : Filled t as fill) (hne : as ≠ []) : Filled (comma t) as fun a => comma (fill a) where
  first := mem_filled_const hne 1
  others := mem_filled_add h.first h.others
  language := mem_mul_filled h.language _

theorem Filled.group_body (h : Filled t as fill) (hne : as ≠ []) (rest : Braces marks) :
    Filled (group t rest) as fun a => group (fill a) rest where
  first := mem_filled_mul (mem_filled_add h.first h.others) _
  others := mem_filled_const hne _
  language := mem_filled_mul (mem_filled_add h.first h.others) _

theorem filled_alternatives (body rest : Braces marks) : Filled (group body rest) body.alternatives fun a => a.append rest where
  first s := by
    rw [Braces.first, mem_filled_mul body.mem_group_iff]
    refine exists_congr fun a => and_congr_right fun ha => ?_
    rw [first_append (alternatives_commaFree ha)]
  others s := by
    rw [Braces.others, mem_filled_const body.alternatives_ne_nil]
    refine exists_congr fun a => and_congr_right fun ha => ?_
    rw [others_append (alternatives_commaFree ha)]
  language s := by
    rw [Braces.language, mem_filled_mul body.mem_group_iff]
    refine exists_congr fun a => and_congr_right fun ha => ?_
    rw [language_append (alternatives_commaFree ha)]

end Filled

/-- A group without groups inside, and no closing mark in front of it; `fill` puts something in its place. -/
structure Innermost (t : Braces marks) (front behind : List α) (body : Braces marks) (fill : Braces marks → Braces marks) :
    Prop where
  front_open : marks.closing ∉ front
  flat : body.Flat
  print : t.print = front ++ marks.opening :: (body.print ++ marks.closing :: behind)
  print_fill : ∀ a, (fill a).print = front ++ (a.print ++ behind)
  filled : Filled t body.alternatives fill

theorem exists_innermost (t : Braces marks) : t.Flat ∨ ∃ front behind body fill, Innermost t front behind body fill := by
  induction t with
  | nil => exact .inl trivial
  | char c hc rest ih =>
    refine ih.imp id ?_
    rintro ⟨front, behind, body, fill, h⟩
    refine ⟨c :: front, behind, body, fun a => char c hc (fill a), ?_, h.flat, ?_, fun a => ?_, h.filled.char c hc⟩
    · exact fun hmem => (List.mem_cons.mp hmem).elim (fun heq => hc.2.1 heq.symm) h.front_open
    · rw [Braces.print, h.print, List.cons_append]
    · rw [Braces.print, h.print_fill, List.cons_append]
  | comma rest ih =>
    refine ih.imp id ?_
    rintro ⟨front, behind, body, fill, h⟩
    refine ⟨marks.separator :: front, behind, body, fun a => comma (fill a), ?_, h.flat, ?_, fun a => ?_,
      h.filled.comma body.alternatives_ne_nil⟩
    · exact fun hmem => (List.mem_cons.mp hmem).elim (fun heq => marks.separator_ne_closing heq.symm) h.front_open
    · rw [Braces.print, h.print, List.cons_append]
    · rw [Braces.print, h.print_fill, List.cons_append]
  | group body rest ih _ =>
    right
    rcases ih with hflat | ⟨front, behind, inner, fill, h⟩
    · refine ⟨[], rest.print, body, fun a => a.append rest, List.not_mem_nil, hflat, rfl, fun a => ?_,
        filled_alternatives body rest⟩
      exact print_append a rest
    · refine ⟨marks.opening :: front, behind ++ marks.closing :: rest.print, inner, fun a => group (fill a) rest, ?_, h.flat, ?_,
        fun a => ?_, h.filled.group_body inner.alternatives_ne_nil rest⟩
      · exact fun hmem => (List.mem_cons.mp hmem).elim (fun heq => marks.opening_ne heq.symm) h.front_open
      · rw [Braces.print, h.print]
        simp only [List.cons_append, List.append_assoc]
      · rw [Braces.print, h.print_fill]
        simp only [List.cons_append, List.append_assoc]

/-! ## Balanced texts -/

/-- Whether every closing mark closes an opening one, where so many are open at the beginning. -/
def balanced [DecidableEq α] (marks : Marks α) : ℕ → List α → Bool
  | depth, [] => depth == 0
  | depth, c :: text =>
    if c = marks.opening then balanced marks (depth + 1) text
    else if c = marks.closing then 0 < depth && balanced marks (depth - 1) text
    else balanced marks depth text

/-- The text up to each closing mark without a partner, and what is left. -/
def printAll : List (Braces marks) → List α
  | [] => []
  | [t] => t.print
  | t :: ts => t.print ++ marks.closing :: printAll ts

theorem exists_printAll [DecidableEq α] {depth : ℕ} {text : List α} (h : balanced marks depth text = true) :
    ∃ (t : Braces marks) (ts : List (Braces marks)), ts.length = depth ∧ printAll (t :: ts) = text := by
  induction text generalizing depth with
  | nil => exact ⟨nil, [], (beq_iff_eq.mp h).symm, rfl⟩
  | cons c text ih =>
    rw [balanced] at h
    split at h
    next hopen =>
      obtain ⟨t, ts, hlen, hprint⟩ := ih h
      obtain ⟨t', ts, rfl⟩ := List.exists_cons_of_length_eq_add_one hlen
      refine ⟨group t t', ts, Nat.succ.inj hlen, ?_⟩
      rw [hopen, ← hprint]
      cases ts with
      | nil => rfl
      | cons t'' ts => simp [printAll, print]
    next =>
      split at h
      next hclose =>
        obtain ⟨hpos, hrest⟩ := (Bool.and_eq_true_iff).mp h
        obtain ⟨t, ts, hlen, hprint⟩ := ih hrest
        refine ⟨nil, t :: ts, ?_, ?_⟩
        · have hpos := of_decide_eq_true hpos
          rw [List.length_cons]
          omega
        · rw [hclose, ← hprint]
          rfl
      next hopen hclose =>
        obtain ⟨t, ts, hlen, hprint⟩ := ih h
        by_cases hsep : c = marks.separator
        · refine ⟨comma t, ts, hlen, ?_⟩
          rw [hsep, ← hprint]
          cases ts with
          | nil => rfl
          | cons t' ts => rfl
        · refine ⟨char c ⟨hopen, hclose, hsep⟩ t, ts, hlen, ?_⟩
          rw [← hprint]
          cases ts with
          | nil => rfl
          | cons t' ts => rfl

theorem exists_print [DecidableEq α] {text : List α} (h : balanced marks 0 text = true) : ∃ t : Braces marks, t.print = text := by
  obtain ⟨t, ts, hlen, hprint⟩ := exists_printAll h
  rw [List.length_eq_zero_iff.mp hlen] at hprint
  exact ⟨t, hprint⟩

end Braces

end Libntech.Lib
