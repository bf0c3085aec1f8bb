import Libntech.Glob.Pattern
import Libntech.Lib.Braces

/-! # What braces stand for (`ExpandBraces`)

Each turn puts the alternatives of an innermost group in its place, and the pattern stands for what the new ones stand for
together. They are shorter, and the ones that are left have no pair of braces.
-/
namespace Libntech.Glob
set_option autoImplicit false

open Libntech.Json (Bytes ascii)
open Libntech.Lib (Marks Braces)

def braceMarks : Marks UInt8 where
  opening := '\x7b'.toUInt8
  closing := '\x7d'.toUInt8
  separator := ','.toUInt8
  opening_ne := by decide
  separator_ne_opening := by decide
  separator_ne_closing := by decide

/-! ## The pair that is found -/

theorem findBraces_closing {body : Bytes} (hbody : ∀ c ∈ body, c ≠ '\x7b'.toUInt8 ∧ c ≠ '\x7d'.toUInt8) (behind : Bytes)
    (i l : ℕ) : findBraces (body ++ '\x7d'.toUInt8 :: behind) i (some l) = some (l, i + body.length) := by
  induction body generalizing i with
  | nil =>
    rw [List.nil_append, findBraces, if_neg (by decide)]
    exact if_pos rfl
  | cons c body ih =>
    obtain ⟨hc, hbody⟩ := List.forall_mem_cons.mp hbody
    rw [List.cons_append, findBraces, if_neg hc.1]
    show (if c = '\x7d'.toUInt8 then _ else _) = _
    rw [if_neg hc.2, ih hbody, List.length_cons, Nat.add_assoc, Nat.add_comm 1]

theorem findBraces_innermost {front body : Bytes} (hfront : '\x7d'.toUInt8 ∉ front)
    (hbody : ∀ c ∈ body, c ≠ '\x7b'.toUInt8 ∧ c ≠ '\x7d'.toUInt8) (behind : Bytes) (i : ℕ) (left : Option ℕ) :
    findBraces (front ++ '\x7b'.toUInt8 :: (body ++ '\x7d'.toUInt8 :: behind)) i left =
      some (i + front.length, i + front.length + 1 + body.length) := by
  induction front generalizing i left with
  | nil =>
    unfold findBraces
    exact findBraces_closing hbody behind (i + 1) i
  | cons c front ih =>
    obtain ⟨hc, hfront⟩ := not_or.mp (mt List.mem_cons.mpr hfront)
    have hlen : i + 1 + front.length = i + (c :: front).length := by
      rw [List.length_cons]
      omega
    have hrest (left : Option ℕ) := ih hfront (i + 1) left
    rw [hlen] at hrest
    rw [List.cons_append]
    unfold findBraces
    split
    · exact hrest _
    · cases left with
      | none => exact hrest none
      | some l =>
        show (if c = '\x7d'.toUInt8 then _ else _) = _
        rw [if_neg (Ne.symm hc)]
        exact hrest _

/-- No closing brace stands behind an opening one. -/
def Unpaired (str : Bytes) : Prop := ∀ i j : ℕ, i < j → str[i]? = some '\x7b'.toUInt8 → str[j]? ≠ some '\x7d'.toUInt8

theorem findBraces_none {str : Bytes} {i : ℕ} {left : Option ℕ} (h : findBraces str i left = none) :
    Unpaired str ∧ (left ≠ none → '\x7d'.toUInt8 ∉ str) := by
  induction str generalizing i left with
  | nil => exact ⟨fun i j _ hi => (nomatch hi), fun _ => List.not_mem_nil⟩
  | cons c str ih =>
    -- a pair is one of the first character or one behind it
    have hstep (hrest : Unpaired str) (hfirst : c = '\x7b'.toUInt8 → '\x7d'.toUInt8 ∉ str) : Unpaired (c :: str) := by
      intro i j hlt hi hj
      obtain ⟨j, rfl⟩ := Nat.exists_eq_succ_of_ne_zero (Nat.ne_zero_of_lt hlt)
      rw [List.getElem?_cons_succ] at hj
      cases i with
      | zero => exact hfirst (Option.some.inj hi) (List.mem_of_getElem? hj)
      | succ i => exact hrest i j (Nat.lt_of_succ_lt_succ hlt) hi hj
    unfold findBraces at h
    split at h
    next hopen =>
      obtain ⟨hrest, hnone⟩ := ih h
      have hfree := hnone (Option.some_ne_none i)
      refine ⟨hstep hrest fun _ => hfree, fun _ hmem => ?_⟩
      rcases List.mem_cons.mp hmem with heq | hmem
      · rw [hopen] at heq
        exact absurd heq (by decide)
      · exact hfree hmem
    next hopen =>
      cases left with
      | none => exact ⟨hstep (ih h).1 fun heq => absurd heq hopen, fun hne => absurd rfl hne⟩
      | some l =>
        have hclosed : (if c = '\x7d'.toUInt8 then some (l, i) else findBraces str (i + 1) (some l)) = none := h
        split at hclosed
        next => cases hclosed
        next hclose =>
          obtain ⟨hrest, hnone⟩ := ih hclosed
          have hfree := hnone (Option.some_ne_none l)
          refine ⟨hstep hrest fun _ => hfree, fun _ hmem => ?_⟩
          rcases List.mem_cons.mp hmem with heq | hmem
          · exact hclose heq.symm
          · exact hfree hmem

/-! ## One turn and all of them -/

theorem expandBraces_of_some {pattern : Bytes} {l r : ℕ} (h : findBraces pattern 0 none = some (l, r)) :
    expandBraces pattern = ((between pattern l r).splitOn ','.toUInt8).flatMap fun middle =>
      expandBraces (pattern.take l ++ middle ++ pattern.drop (r + 1)) := by
  rw [expandBraces]
  split
  next hnone =>
    rw [h] at hnone
    cases hnone
  next l' r' hsome =>
    rw [h] at hsome
    injection hsome with hsome
    obtain ⟨rfl, rfl⟩ := Prod.mk.inj hsome
    simp

theorem expandBraces_unpaired {pattern str : Bytes} (h : str ∈ expandBraces pattern) : Unpaired str := by
  fun_induction expandBraces pattern with
  | case1 pattern hnone =>
    rw [List.mem_singleton.mp h]
    exact (findBraces_none hnone).1
  | case2 pattern l r hsome hlt ih =>
    obtain ⟨middle, -, hmem⟩ := List.mem_flatMap.mp h
    exact ih middle hmem

theorem mem_expandBraces_print (t : Braces braceMarks) (str : Bytes) : str ∈ expandBraces t.print ↔ str ∈ t.language := by
  generalize hn : t.print.length = n
  induction n using Nat.strongRecOn generalizing t with
  | ind n ih =>
    rcases t.exists_innermost with hflat | ⟨front, behind, body, fill, h⟩
    · rw [expandBraces_of_none (findBraces_plain (fun c hc => (Braces.print_flat hflat c hc).1) 0), Braces.language_flat hflat]
      exact List.mem_singleton
    · have hfound : findBraces t.print 0 none = some (front.length, front.length + 1 + body.print.length) := by
        have hbody := Braces.print_flat h.flat
        have hpair := findBraces_innermost h.front_open hbody behind 0 none
        rw [Nat.zero_add] at hpair
        rw [h.print]
        exact hpair
      have hfront : t.print.take front.length = front := by rw [h.print, List.take_left]
      have hbetween : between t.print front.length (front.length + 1 + body.print.length) = body.print := by
        rw [between, h.print, List.drop_length_add_append, List.drop_succ_cons, List.drop_zero, Nat.add_sub_cancel_left,
          List.take_left]
      have hbehind : t.print.drop (front.length + 1 + body.print.length + 1) = behind := by
        rw [h.print, Nat.add_assoc, Nat.add_assoc, List.drop_length_add_append, Nat.add_comm 1, List.drop_succ_cons,
          List.drop_length_add_append, List.drop_succ_cons, List.drop_zero]
      rw [expandBraces_of_some hfound, hfront, hbetween, hbehind, List.mem_flatMap, h.filled.language]
      have hsplit : body.print.splitOn ','.toUInt8 = body.alternatives.map Braces.print := Braces.splitOn_print h.flat
      have hshorter (a : Braces braceMarks) (ha : a ∈ body.alternatives) : (fill a).print.length < n := by
        have hpiece := length_of_mem_splitOn (hsplit ▸ List.mem_map_of_mem ha)
        rw [h.print_fill, ← hn, h.print]
        simp only [List.length_append, List.length_cons]
        omega
      constructor
      · rintro ⟨middle, hmiddle, hmem⟩
        rw [hsplit] at hmiddle
        obtain ⟨a, ha, rfl⟩ := List.mem_map.mp hmiddle
        rw [List.append_assoc, ← h.print_fill] at hmem
        exact ⟨a, ha, (ih _ (hshorter a ha) (fill a) rfl).mp hmem⟩
      · rintro ⟨a, ha, hmem⟩
        refine ⟨a.print, hsplit ▸ List.mem_map_of_mem ha, ?_⟩
        rw [List.append_assoc, ← h.print_fill]
        exact (ih _ (hshorter a ha) (fill a) rfl).mpr hmem

/-- Whether every closing brace closes an opening one. -/
def balancedBraces (pattern : Bytes) : Bool := Braces.balanced braceMarks 0 pattern

/-- A pattern with balanced braces is the print of a tree, and is expanded to what that stands for. No expansion of any
pattern has a pair of braces left. -/
theorem expandBraces_spec :
    (∀ pattern, balancedBraces pattern = true → ∃ t : Braces braceMarks, t.print = pattern) ∧
    (∀ (t : Braces braceMarks) (str : Bytes), str ∈ expandBraces t.print ↔ str ∈ t.language) ∧
    ∀ pattern, ∀ str ∈ expandBraces pattern, Unpaired str :=
  ⟨fun _ h => Braces.exists_print h, mem_expandBraces_print, fun _ _ h => expandBraces_unpaired h⟩

theorem expandBraces_spec_pair :
    (∃ t : Braces braceMarks, t.print = ascii "\x7ba,b\x7d") ∧ ascii "b" ∈ expandBraces (ascii "\x7ba,b\x7d") ∧
    Unpaired (ascii "b") := by
  have hmem : ascii "b" ∈ expandBraces (ascii "\x7ba,b\x7d") := by
    have hsplit : (between (ascii "\x7ba,b\x7d") 0 4).splitOn ','.toUInt8 = [ascii "a", ascii "b"] := by decide
    rw [expandBraces_of_some rfl, hsplit]
    refine List.mem_flatMap.mpr ⟨ascii "b", by simp, ?_⟩
    rw [expandBraces_of_none (by decide)]
    exact List.mem_singleton.mpr rfl
  exact ⟨expandBraces_spec.1 _ (by decide), hmem, expandBraces_spec.2.2 _ _ hmem⟩

end Libntech.Glob
