import Mathlib.Data.List.Nodup

/-! # Lists of named values

A list of pairs of a name and a value, of which the first one of a name counts. With different names, erasing, replacing
and appending do to the values what they do to a finite map.
-/
namespace Libntech.Lib
set_option autoImplicit false

variable {κ α : Type} [DecidableEq κ]

/-- The value of the first pair of the name. -/
def valueOf (l : List (κ × α)) (key : κ) : Option α := (l.find? fun c => c.1 = key).map Prod.snd

/-- Another value in the first pair of the name. -/
def replaceValue (key : κ) (value : α) : List (κ × α) → List (κ × α)
  | [] => []
  | c :: l => if c.1 = key then (key, value) :: l else c :: replaceValue key value l

variable {l : List (κ × α)} {key : κ}

/-! ## Looking up -/

theorem valueOf_cons (c : κ × α) (l : List (κ × α)) (key : κ) :
    valueOf (c :: l) key = if key = c.1 then some c.2 else valueOf l key := by
  rw [valueOf, List.find?_cons]
  by_cases hc : c.1 = key
  · rw [if_pos hc.symm, decide_eq_true hc]
    rfl
  · rw [if_neg (Ne.symm hc), decide_eq_false hc]
    rfl

theorem valueOf_eq_none : valueOf l key = none ↔ key ∉ l.map Prod.fst := by
  induction l with
  | nil => simp [valueOf]
  | cons c l ih =>
    rw [valueOf_cons, List.map_cons, List.mem_cons, not_or]
    by_cases hc : key = c.1
    · simp [hc]
    · rw [if_neg hc, ih]
      exact ⟨fun h => ⟨hc, h⟩, And.right⟩

theorem valueOf_append (l more : List (κ × α)) (key : κ) :
    valueOf (l ++ more) key = (valueOf l key).or (valueOf more key) := by
  rw [valueOf, List.find?_append]
  cases hfind : l.find? fun c => c.1 = key with
  | none => simp [valueOf, hfind]
  | some c => simp [valueOf, hfind]

/-! ## Erasing -/

theorem nodup_erase (h : (l.map Prod.fst).Nodup) (k : κ) : ((l.eraseP fun c => c.1 = k).map Prod.fst).Nodup :=
  (List.eraseP_sublist.map _).nodup h

theorem valueOf_erase (h : (l.map Prod.fst).Nodup) (k key : κ) :
    valueOf (l.eraseP fun c => c.1 = k) key = if key = k then none else valueOf l key := by
  induction l with
  | nil => simp [valueOf]
  | cons c l ih =>
    rw [List.map_cons, List.nodup_cons] at h
    by_cases hc : c.1 = k
    · rw [List.eraseP_cons_of_pos (by simpa using hc), valueOf_cons, hc]
      by_cases hkey : key = k
      · rw [if_pos hkey, valueOf_eq_none, hkey, ← hc]
        exact h.1
      · rw [if_neg hkey, if_neg hkey]
    · rw [List.eraseP_cons_of_neg (by simpa using hc), valueOf_cons, valueOf_cons, ih h.2]
      by_cases hkey : key = c.1
      · rw [if_pos hkey, if_pos hkey, if_neg (by rw [hkey]; exact hc)]
      · rw [if_neg hkey, if_neg hkey]

/-! ## Erasing and appending -/

theorem nodup_put (h : (l.map Prod.fst).Nodup) (k : κ) (x : α) :
    (((l.eraseP fun c => c.1 = k) ++ [(k, x)]).map Prod.fst).Nodup := by
  have hnone : k ∉ (l.eraseP fun c => c.1 = k).map Prod.fst := by
    rw [← valueOf_eq_none, valueOf_erase h, if_pos rfl]
  rw [List.map_append, List.nodup_append]
  refine ⟨nodup_erase h k, List.nodup_singleton _, ?_⟩
  rintro a ha b hb rfl
  have hb : a = k := List.mem_singleton.mp hb
  rw [hb] at ha
  exact hnone ha

theorem valueOf_put (h : (l.map Prod.fst).Nodup) (k : κ) (x : α) (key : κ) :
    valueOf ((l.eraseP fun c => c.1 = k) ++ [(k, x)]) key = if key = k then some x else valueOf l key := by
  rw [valueOf_append, valueOf_erase h, valueOf_cons]
  by_cases hkey : key = k
  · simp [hkey]
  · simp [hkey, valueOf]

/-! ## Replacing -/

theorem names_replace (key : κ) (value : α) (l : List (κ × α)) :
    (replaceValue key value l).map Prod.fst = l.map Prod.fst := by
  induction l with
  | nil => rfl
  | cons c l ih =>
    rw [replaceValue]
    split
    · rename_i hc
      rw [List.map_cons, List.map_cons, hc]
    · rw [List.map_cons, List.map_cons, ih]

theorem valueOf_replace {k : κ} (hk : k ∈ l.map Prod.fst) (x : α) (key : κ) :
    valueOf (replaceValue k x l) key = if key = k then some x else valueOf l key := by
  induction l with
  | nil => cases hk
  | cons c l ih =>
    rw [replaceValue]
    split
    · rename_i hc
      rw [valueOf_cons, valueOf_cons, hc]
      by_cases hkey : key = k
      · rw [if_pos hkey, if_pos hkey]
      · rw [if_neg hkey, if_neg hkey, if_neg hkey]
    · rename_i hc
      have hk' : k ∈ l.map Prod.fst := (List.mem_cons.mp hk).resolve_left (Ne.symm hc)
      rw [valueOf_cons, valueOf_cons, ih hk']
      by_cases hkey : key = c.1
      · rw [if_pos hkey, if_pos hkey, if_neg fun h => hc (hkey.symm.trans h)]
      · rw [if_neg hkey, if_neg hkey]

end Libntech.Lib
