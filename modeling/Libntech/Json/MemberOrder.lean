import Libntech.Json.Write

/-! # The order of members (`libutils/json.c`)

Writing an element sorts the members of its objects in place. An object keeps one child of each name, so nothing
but the order of members changes, and every child is still found under its name.
-/
namespace Libntech.Json
set_option autoImplicit false

open Libntech.Containers

/-- No object has two children of one name: `JsonObjectAppendElement` removes the old one. -/
inductive DistinctKeys : JsonElement → Prop where
  | primitive (type : JsonPrimitiveType) (value : Bytes) : DistinctKeys (.primitive type value)
  | array {children : List JsonElement} : (∀ e ∈ children, DistinctKeys e) → DistinctKeys (.array children)
  | object {children : List (Bytes × JsonElement)} : (children.map Prod.fst).Nodup →
      (∀ c ∈ children, DistinctKeys c.2) → DistinctKeys (.object children)

/-! ## Equality up to the order of members -/

inductive Same : JsonElement → JsonElement → Prop where
  | primitive (type : JsonPrimitiveType) (value : Bytes) : Same (.primitive type value) (.primitive type value)
  | array {as bs : List JsonElement} : as.length = bs.length →
      (∀ (i : ℕ) (a b : JsonElement), as[i]? = some a → bs[i]? = some b → Same a b) → Same (.array as) (.array bs)
  | object {as bs : List (Bytes × JsonElement)} : (as.map Prod.fst).Perm (bs.map Prod.fst) →
      (∀ (key : Bytes) (a b : JsonElement), jsonObjectGet as key = some a → jsonObjectGet bs key = some b → Same a b) →
      Same (.object as) (.object bs)

variable {as bs children : List (Bytes × JsonElement)} {a b e : JsonElement} {key : Bytes}

theorem get_mem (h : jsonObjectGet children key = some e) : (key, e) ∈ children := by
  obtain ⟨c, hfind, rfl⟩ := Option.map_eq_some_iff.mp h
  have hkey : c.1 = key := by simpa using List.find?_some hfind
  rw [← hkey]
  exact List.mem_of_find?_eq_some hfind

theorem mem_get (hnodup : (children.map Prod.fst).Nodup) (h : (key, e) ∈ children) :
    jsonObjectGet children key = some e := by
  induction children with
  | nil => cases h
  | cons x rest ih =>
    rw [List.map_cons, List.nodup_cons] at hnodup
    rw [jsonObjectGet, List.find?_cons]
    rcases List.mem_cons.mp h with rfl | h
    · simp
    · have hne : x.1 ≠ key := by
        rintro rfl
        exact hnodup.1 (List.mem_map.mpr ⟨_, h, rfl⟩)
      simp only [hne, decide_false]
      exact ih hnodup.2 h

theorem get_of_key_mem (h : key ∈ children.map Prod.fst) : ∃ e, jsonObjectGet children key = some e := by
  obtain ⟨c, hc, rfl⟩ := List.mem_map.mp h
  cases hfind : children.find? (fun x => x.1 = c.1) with
  | none => exact absurd (List.find?_eq_none.mp hfind c hc) (by simp)
  | some x => exact ⟨x.2, by rw [jsonObjectGet, hfind]; rfl⟩

theorem same_refl (h : DistinctKeys e) : Same e e := by
  induction h with
  | primitive type value => exact .primitive type value
  | array _ ih =>
    refine .array rfl fun i a b ha hb => ?_
    rw [ha, Option.some.injEq] at hb
    subst hb
    exact ih a (List.mem_of_getElem? ha)
  | object _ _ ih =>
    refine .object (List.Perm.refl _) fun key a b ha hb => ?_
    rw [ha, Option.some.injEq] at hb
    subst hb
    exact ih (key, a) (get_mem ha)

theorem get_same (h : Same (.object as) (.object bs)) (key : Bytes) :
    Option.Rel Same (jsonObjectGet as key) (jsonObjectGet bs key) := by
  cases h with
  | object hperm hall =>
    by_cases hkey : key ∈ as.map Prod.fst
    · obtain ⟨a, ha⟩ := get_of_key_mem hkey
      obtain ⟨b, hb⟩ := get_of_key_mem (hperm.mem_iff.mp hkey)
      rw [ha, hb]
      exact .some (hall key a b ha hb)
    · have hnone : ∀ cs : List (Bytes × JsonElement), key ∉ cs.map Prod.fst → jsonObjectGet cs key = none := by
        intro cs hcs
        cases hget : jsonObjectGet cs key with
        | none => rfl
        | some e => exact absurd (List.mem_map.mpr ⟨_, get_mem hget, rfl⟩) hcs
      rw [hnone as hkey, hnone bs fun hmem => hkey (hperm.mem_iff.mpr hmem)]
      exact .none

theorem getElem_same {as bs : List JsonElement} (h : Same (.array as) (.array bs)) (i : ℕ) :
    Option.Rel Same as[i]? bs[i]? := by
  cases h with
  | array hlen hall =>
    by_cases hi : i < as.length
    · have ha := List.getElem?_eq_getElem hi
      have hb := List.getElem?_eq_getElem (hlen ▸ hi)
      rw [ha, hb]
      exact .some (hall i _ _ ha hb)
    · rw [List.getElem?_eq_none (by omega), List.getElem?_eq_none (by omega)]
      exact .none

/-- Each element of the second array is the same as one of the first. -/
theorem same_element {as bs : List JsonElement} (h : Same (.array as) (.array bs)) (hb : b ∈ bs) :
    ∃ a ∈ as, Same a b := by
  cases h with
  | array hlen hall =>
    obtain ⟨i, hi⟩ := List.getElem?_of_mem hb
    have hlt := (List.getElem?_eq_some_iff.mp hi).1
    have ha := List.getElem?_eq_getElem (hlen ▸ hlt)
    exact ⟨_, List.mem_of_getElem? ha, hall i _ b ha hi⟩

theorem same_member (h : Same (.object as) (.object bs)) (hnodup : (bs.map Prod.fst).Nodup) {c : Bytes × JsonElement}
    (hc : c ∈ bs) : ∃ a, (c.1, a) ∈ as ∧ Same a c.2 := by
  cases h with
  | object hperm hall =>
    obtain ⟨a, ha⟩ := get_of_key_mem (hperm.mem_iff.mpr (List.mem_map_of_mem hc))
    exact ⟨a, get_mem ha, hall c.1 a c.2 ha (mem_get hnodup hc)⟩

theorem same_trans (h : Same a b) : ∀ {c : JsonElement}, Same b c → Same a c := by
  induction h with
  | primitive type value => exact fun hbc => hbc
  | @array as bs hlen hall ih =>
    intro c hbc
    cases hbc with
    | @array _ cs hlen' hall' =>
      refine .array (hlen.trans hlen') fun i x z hx hz => ?_
      have hi := (List.getElem?_eq_some_iff.mp hx).1
      have hy := List.getElem?_eq_getElem (hlen ▸ hi)
      exact ih i x _ hx hy (hall' i _ z hy hz)
  | @object as bs hperm hall ih =>
    intro c hbc
    cases hbc with
    | @object _ cs hperm' hall' =>
      refine .object (hperm.trans hperm') fun key x z hx hz => ?_
      obtain ⟨y, hy⟩ := get_of_key_mem (hperm.mem_iff.mp (List.mem_map.mpr ⟨_, get_mem hx, rfl⟩))
      exact ih key x y hx hy (hall' key y z hy hz)

theorem DistinctKeys.of_same (h : DistinctKeys a) : ∀ {b : JsonElement}, Same a b →
    DistinctKeys b := by
  induction h with
  | primitive type value =>
    intro b hs
    cases hs
    exact .primitive type value
  | array _ ih =>
    intro b hs
    cases hs with
    | array hlen hall =>
      refine .array fun y hy => ?_
      obtain ⟨x, hx, hsame⟩ := same_element (.array hlen hall) hy
      exact ih x hx hsame
  | @object as hnodup _ ih =>
    intro b hs
    cases hs with
    | @object _ bs hperm hall =>
      have hnodup' := hperm.nodup_iff.mp hnodup
      refine .object hnodup' fun c hc => ?_
      obtain ⟨x, hx, hsame⟩ := same_member (.object hperm hall) hnodup' hc
      exact ih (c.1, x) hx hsame

theorem same_symm (h : Same a b) : Same b a := by
  induction h with
  | primitive type value => exact .primitive type value
  | array hlen _ ih => exact .array hlen.symm fun i x y hx hy => ih i y x hy hx
  | object hperm _ ih => exact .object hperm.symm fun key x y hx hy => ih key y x hy hx

/-! ## The element as the writer leaves it -/

theorem strcmp_self (s : Bytes) : strcmp s s = 0 := by
  induction s with
  | nil => rfl
  | cons c s ih => simp [strcmp, ih]

theorem sortedElements_spec {R : JsonElement → JsonElement → Prop} {as : List JsonElement}
    (h : ∀ a ∈ as, ∃ b, jsonSorted a = some b ∧ R a b) :
    ∃ bs, sortedElements as = some bs ∧ as.length = bs.length ∧
      ∀ (i : ℕ) (a b : JsonElement), as[i]? = some a → bs[i]? = some b → R a b := by
  induction as with
  | nil => exact ⟨[], rfl, rfl, by simp⟩
  | cons a as ih =>
    obtain ⟨b, hb, hab⟩ := h a List.mem_cons_self
    obtain ⟨bs, hbs, hlen, hall⟩ := ih fun x hx => h x (List.mem_cons_of_mem _ hx)
    refine ⟨b :: bs, by simp [sortedElements, hb, hbs], by simp [hlen], fun i x y hx hy => ?_⟩
    cases i with
    | zero =>
      rw [List.getElem?_cons_zero, Option.some.injEq] at hx hy
      rw [← hx, ← hy]
      exact hab
    | succ i => exact hall i x y (by simpa using hx) (by simpa using hy)

theorem sortedMembers_spec {R : JsonElement → JsonElement → Prop} (h : ∀ a ∈ as, ∃ b, jsonSorted a.2 = some b ∧ R a.2 b) :
    ∃ bs, sortedMembers as = some bs ∧ bs.map Prod.fst = as.map Prod.fst ∧
      ∀ key b, (key, b) ∈ bs → ∃ a, (key, a) ∈ as ∧ R a b := by
  induction as with
  | nil => exact ⟨[], rfl, rfl, by simp⟩
  | cons x as ih =>
    obtain ⟨key, a⟩ := x
    obtain ⟨b, hb, hab⟩ := h (key, a) List.mem_cons_self
    obtain ⟨bs, hbs, hkeys, hall⟩ := ih fun x hx => h x (List.mem_cons_of_mem _ hx)
    refine ⟨(key, b) :: bs, by simp [sortedMembers, hb, hbs], by simp [hkeys], fun k y hy => ?_⟩
    rcases List.mem_cons.mp hy with heq | hy
    · obtain ⟨rfl, rfl⟩ := Prod.mk.inj heq
      exact ⟨a, List.mem_cons_self, hab⟩
    · obtain ⟨a', ha', hr⟩ := hall k y hy
      exact ⟨a', List.mem_cons_of_mem _ ha', hr⟩

theorem jsonSorted_object {cs : List (Bytes × JsonElement)} (hbs : sortedMembers as = some bs)
    (hcs : seqSort jsonElementPropertyCompare bs = some cs) : jsonSorted (.object as) = some (.object cs) := by
  rw [jsonSorted, hbs, Option.bind_eq_bind, Option.bind_some, hcs]
  rfl

theorem sorted_same (h : DistinctKeys e) : ∃ e', jsonSorted e = some e' ∧ DistinctKeys e' ∧ Same e e' := by
  induction h with
  | primitive type value => exact ⟨.primitive type value, rfl, .primitive type value, .primitive type value⟩
  | array _ ih =>
    obtain ⟨bs, hbs, hlen, hall⟩ := sortedElements_spec ih
    refine ⟨.array bs, by simp [jsonSorted, hbs], .array fun b hb => ?_,
      .array hlen fun i a b ha hb => (hall i a b ha hb).2⟩
    obtain ⟨i, hi⟩ := List.getElem?_of_mem hb
    have hlt := (List.getElem?_eq_some_iff.mp hi).1
    exact (hall i _ b (List.getElem?_eq_getElem (by omega)) hi).1
  | @object as hnodup _ ih =>
    obtain ⟨bs, hbs, hfst, hall⟩ := sortedMembers_spec (R := fun a b => DistinctKeys b ∧ Same a b) ih
    have hrefl : ∀ x, jsonElementPropertyCompare x x = 0 := fun x => strcmp_self x.1
    obtain ⟨cs, hcs, hperm⟩ := seqSort_perm hrefl bs
    have hfstperm : (as.map Prod.fst).Perm (cs.map Prod.fst) := by
      rw [← hfst]
      exact (hperm.map _).symm
    have hmem : ∀ key b, (key, b) ∈ cs → ∃ a, (key, a) ∈ as ∧ DistinctKeys b ∧ Same a b :=
      fun key b hb => hall key b (hperm.mem_iff.mp hb)
    refine ⟨.object cs, jsonSorted_object hbs hcs, .object (hfstperm.nodup_iff.mp hnodup) (fun c hc => ?_),
      .object hfstperm fun key a b ha hb => ?_⟩
    · obtain ⟨a, _, hdistinct, _⟩ := hmem c.1 c.2 hc
      exact hdistinct
    · obtain ⟨a', ha', _, hsame⟩ := hmem key b (get_mem hb)
      rw [mem_get hnodup ha', Option.some.injEq] at ha
      rw [← ha]
      exact hsame

/-! ## `JsonCompare` -/

theorem compareElements_same {as : List JsonElement} : ∀ {bs : List JsonElement}, as.length = bs.length →
    (∀ (i : ℕ) (a b : JsonElement), as[i]? = some a → bs[i]? = some b → jsonCompare a b = some 0) →
    compareElements as bs = some 0 := by
  induction as with
  | nil => exact fun _ _ => rfl
  | cons a as ih =>
    intro bs hlen h
    cases bs with
    | nil => cases hlen
    | cons b bs =>
      have hab := h 0 a b rfl rfl
      have hrest : compareElements as bs = some 0 := ih (by simpa using hlen) fun i x y hx hy =>
        h (i + 1) x y (by simpa using hx) (by simpa using hy)
      simp [compareElements, hab, hrest]

theorem compareMembers_same (h : ∀ c ∈ as, ∃ b, jsonObjectGet bs c.1 = some b ∧ jsonCompare c.2 b = some 0) :
    compareMembers as bs = some 0 := by
  induction as with
  | nil => rfl
  | cons x as ih =>
    obtain ⟨key, a⟩ := x
    obtain ⟨b, hget, hcmp⟩ := h (key, a) List.mem_cons_self
    have hrest := ih fun c hc => h c (List.mem_cons_of_mem _ hc)
    simp [compareMembers, hget, hcmp, hrest]

theorem lengthDifference_self (n : ℕ) : lengthDifference n n = 0 := by
  rw [lengthDifference, Int.sub_self, toInt_zero]

theorem compare_of_same (h : DistinctKeys a) : ∀ {b : JsonElement}, Same a b →
    jsonCompare a b = some 0 := by
  induction h with
  | primitive type value =>
    intro b hs
    cases hs
    simp [jsonCompare]
  | array _ ih =>
    intro b hs
    cases hs with
    | array hlen hall =>
      rw [jsonCompare, hlen, lengthDifference_self, if_neg (by simp)]
      exact compareElements_same hlen fun i x y hx hy =>
        ih x (List.mem_of_getElem? hx) (hall i x y hx hy)
  | object hnodup _ ih =>
    intro b hs
    cases hs with
    | object hperm hall =>
      have hlen := hperm.length_eq
      simp only [List.length_map] at hlen
      rw [jsonCompare, hlen, lengthDifference_self, if_neg (by simp)]
      refine compareMembers_same fun c hc => ?_
      obtain ⟨e, he⟩ := get_of_key_mem (hperm.mem_iff.mp (List.mem_map_of_mem hc))
      exact ⟨e, he, ih c hc (hall c.1 c.2 e (mem_get hnodup hc) he)⟩

end Libntech.Json
