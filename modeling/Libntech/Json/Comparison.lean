import Libntech.Json.MemberOrder

/-! # What `JsonCompare` decides

It walks the members of one object and looks them up in the other. Since no object has two members of one name, an
object of the same length that has all the names has no others, so the result does not depend on which side is walked.
-/
namespace Libntech.Json
set_option autoImplicit false

open Libntech.Containers

/-- Equal but for the types of primitives and the order of members. -/
inductive SameShape : JsonElement → JsonElement → Prop where
  | primitive (type type' : JsonPrimitiveType) (value : Bytes) :
      SameShape (.primitive type value) (.primitive type' value)
  | array {as bs : List JsonElement} : as.length = bs.length →
      (∀ (i : ℕ) (a b : JsonElement), as[i]? = some a → bs[i]? = some b → SameShape a b) →
      SameShape (.array as) (.array bs)
  | object {as bs : List (Bytes × JsonElement)} : (∀ key, key ∈ as.map Prod.fst ↔ key ∈ bs.map Prod.fst) →
      (∀ (key : Bytes) (a b : JsonElement), jsonObjectGet as key = some a → jsonObjectGet bs key = some b →
        SameShape a b) →
      SameShape (.object as) (.object bs)

/-- All arrays and objects of the element have less than 2^31 children, so that an `int` holds the difference of
two lengths. -/
inductive IntLengths : JsonElement → Prop where
  | primitive (type : JsonPrimitiveType) (value : Bytes) : IntLengths (.primitive type value)
  | array {children : List JsonElement} : children.length < 2 ^ 31 → (∀ e ∈ children, IntLengths e) →
      IntLengths (.array children)
  | object {children : List (Bytes × JsonElement)} : children.length < 2 ^ 31 →
      (∀ c ∈ children, IntLengths c.2) → IntLengths (.object children)

/-- Elements that no `int` and no duplicate name leads astray. -/
structure Comparable (e : JsonElement) : Prop where
  distinct : DistinctKeys e
  lengths : IntLengths e

/-! ## An equivalence -/

variable {a b : JsonElement} {as bs : List (Bytes × JsonElement)}

theorem sameShape_of_same (h : Same a b) : SameShape a b := by
  induction h with
  | primitive type value => exact .primitive type type value
  | array hlen _ ih => exact .array hlen ih
  | object hperm _ ih => exact .object (fun _ => hperm.mem_iff) ih

theorem sameShape_refl {e : JsonElement} (h : DistinctKeys e) : SameShape e e := sameShape_of_same (same_refl h)

theorem sameShape_symm (h : SameShape a b) : SameShape b a := by
  induction h with
  | primitive type type' value => exact .primitive type' type value
  | array hlen _ ih => exact .array hlen.symm fun i x y hx hy => ih i y x hy hx
  | object hkeys _ ih => exact .object (fun key => (hkeys key).symm) fun key x y hx hy => ih key y x hy hx

theorem sameShape_trans (h : SameShape a b) : ∀ {c : JsonElement}, SameShape b c →
    SameShape a c := by
  induction h with
  | primitive type type' value =>
    intro c hbc
    cases hbc with
    | primitive _ type'' _ => exact .primitive type type'' value
  | @array as bs hlen _ ih =>
    intro c hbc
    cases hbc with
    | array hlen' hall' =>
      refine .array (hlen.trans hlen') fun i x z hx hz => ?_
      have hi := (List.getElem?_eq_some_iff.mp hx).1
      have hy := List.getElem?_eq_getElem (hlen ▸ hi)
      exact ih i x _ hx hy (hall' i _ z hy hz)
  | @object as bs hkeys _ ih =>
    intro c hbc
    cases hbc with
    | object hkeys' hall' =>
      refine .object (fun key => (hkeys key).trans (hkeys' key)) fun key x z hx hz => ?_
      obtain ⟨y, hy⟩ := get_of_key_mem ((hkeys key).mp (List.mem_map.mpr ⟨_, get_mem hx, rfl⟩))
      exact ih key x y hx hy (hall' key y z hy hz)

/-! ## The comparison -/

theorem lengthDifference_eq_zero {n m : ℕ} (hn : n < 2 ^ 31) (hm : m < 2 ^ 31) :
    lengthDifference n m = 0 ↔ n = m := by
  rw [lengthDifference, toInt, Int.bmod_def]
  split
  · omega
  · omega

/-- An object with all the names of one as long, each of them once, has no others. -/
theorem keys_of_subset (hnodup : (as.map Prod.fst).Nodup) (hlen : as.length = bs.length)
    (hsub : ∀ key ∈ as.map Prod.fst, key ∈ bs.map Prod.fst) (key : Bytes) :
    key ∈ as.map Prod.fst ↔ key ∈ bs.map Prod.fst := by
  have hperm : (as.map Prod.fst).Perm (bs.map Prod.fst) := by
    refine (List.subperm_of_subset hnodup hsub).perm_of_length_le ?_
    rw [List.length_map, List.length_map]
    exact hlen.ge
  exact hperm.mem_iff

theorem length_of_keys (ha : (as.map Prod.fst).Nodup) (hb : (bs.map Prod.fst).Nodup)
    (hkeys : ∀ key, key ∈ as.map Prod.fst ↔ key ∈ bs.map Prod.fst) :
    as.length = bs.length := by
  have hperm := (List.perm_ext_iff_of_nodup ha hb).mpr hkeys
  have hlen := hperm.length_eq
  rwa [List.length_map, List.length_map] at hlen

section Children

variable {R : JsonElement → JsonElement → Prop}

/-- The loop over two arrays of one length, given what the comparison of two elements decides. -/
theorem compareElements_iff {as : List JsonElement} : ∀ {bs : List JsonElement},
    (∀ a ∈ as, ∀ b ∈ bs, ∃ ret, jsonCompare a b = some ret ∧ (ret = 0 ↔ R a b)) → as.length = bs.length →
    ∃ ret, compareElements as bs = some ret ∧
      (ret = 0 ↔ ∀ (i : ℕ) (a b : JsonElement), as[i]? = some a → bs[i]? = some b → R a b) := by
  induction as with
  | nil => exact fun _ _ => ⟨0, rfl, by simp⟩
  | cons a as ih =>
    intro bs h hlen
    cases bs with
    | nil => cases hlen
    | cons b bs =>
      obtain ⟨first, hfirst, hab⟩ := h a List.mem_cons_self b List.mem_cons_self
      obtain ⟨ret, hret, hrest⟩ := ih
        (fun x hx y hy => h x (List.mem_cons_of_mem a hx) y (List.mem_cons_of_mem b hy)) (by simpa using hlen)
      rw [compareElements, hfirst]
      by_cases hzero : first = 0
      · refine ⟨ret, by simp [hzero, hret], hrest.trans ⟨fun hall i x y hx hy => ?_, fun hall i x y hx hy => ?_⟩⟩
        · cases i with
          | zero =>
            rw [List.getElem?_cons_zero, Option.some.injEq] at hx hy
            rw [← hx, ← hy]
            exact hab.mp hzero
          | succ i => exact hall i x y (by simpa using hx) (by simpa using hy)
        · exact hall (i + 1) x y (by simpa using hx) (by simpa using hy)
      · exact ⟨first, by simp [hzero], fun h0 => absurd h0 hzero, fun hall => hab.mpr (hall 0 a b rfl rfl)⟩

theorem compareMembers_iff
    (h : ∀ c ∈ as, ∀ b, jsonObjectGet bs c.1 = some b → ∃ ret, jsonCompare c.2 b = some ret ∧ (ret = 0 ↔ R c.2 b)) :
    ∃ ret, compareMembers as bs = some ret ∧
      (ret = 0 ↔ ∀ c ∈ as, ∃ b, jsonObjectGet bs c.1 = some b ∧ R c.2 b) := by
  induction as with
  | nil => exact ⟨0, rfl, by simp⟩
  | cons c as ih =>
    obtain ⟨ret, hret, hrest⟩ := ih fun x hx => h x (List.mem_cons_of_mem c hx)
    obtain ⟨key, a⟩ := c
    rw [compareMembers]
    cases hget : jsonObjectGet bs key with
    | none =>
      refine ⟨1, rfl, fun h1 => absurd h1 (by decide), fun hall => ?_⟩
      obtain ⟨b, hb, _⟩ := hall (key, a) List.mem_cons_self
      rw [hget] at hb
      cases hb
    | some b =>
      obtain ⟨first, hfirst, hab⟩ := h (key, a) List.mem_cons_self b hget
      dsimp only at hfirst hab ⊢
      rw [hfirst]
      by_cases hzero : first = 0
      · refine ⟨ret, by simp [hzero, hret], hrest.trans ⟨fun hall c hc => ?_, fun hall c hc => ?_⟩⟩
        · rcases List.mem_cons.mp hc with rfl | hc
          · exact ⟨b, hget, hab.mp hzero⟩
          · exact hall c hc
        · exact hall c (List.mem_cons_of_mem _ hc)
      · refine ⟨first, by simp [hzero], fun h0 => absurd h0 hzero, fun hall => ?_⟩
        obtain ⟨b', hb', hr⟩ := hall (key, a) List.mem_cons_self
        rw [hget, Option.some.injEq] at hb'
        rw [← hb'] at hr
        exact hab.mpr hr

end Children

theorem compare_arrays {as bs : List JsonElement} (ha : as.length < 2 ^ 31) (hb : bs.length < 2 ^ 31)
    (h : ∀ a ∈ as, ∀ b ∈ bs, ∃ ret, jsonCompare a b = some ret ∧ (ret = 0 ↔ SameShape a b)) :
    ∃ ret, jsonCompare (.array as) (.array bs) = some ret ∧ (ret = 0 ↔ SameShape (.array as) (.array bs)) := by
  have hzero := lengthDifference_eq_zero ha hb
  rw [jsonCompare]
  by_cases heq : as.length = bs.length
  · obtain ⟨ret, hret, hiff⟩ := compareElements_iff h heq
    refine ⟨ret, by rw [if_neg (not_not.mpr (hzero.mpr heq)), hret], hiff.trans ⟨.array heq, fun hsame => ?_⟩⟩
    cases hsame with
    | array _ hall => exact hall
  · refine ⟨_, by rw [if_pos (fun h0 => heq (hzero.mp h0))], fun h0 => absurd (hzero.mp h0) heq, fun hsame => ?_⟩
    cases hsame with
    | array hlen _ => exact absurd hlen heq

theorem compare_objects (ha : as.length < 2 ^ 31) (hb : bs.length < 2 ^ 31) (hnodup : (as.map Prod.fst).Nodup)
    (hnodup' : (bs.map Prod.fst).Nodup)
    (h : ∀ c ∈ as, ∀ b, jsonObjectGet bs c.1 = some b → ∃ ret, jsonCompare c.2 b = some ret ∧ (ret = 0 ↔ SameShape c.2 b)) :
    ∃ ret, jsonCompare (.object as) (.object bs) = some ret ∧ (ret = 0 ↔ SameShape (.object as) (.object bs)) := by
  have hzero := lengthDifference_eq_zero ha hb
  rw [jsonCompare]
  by_cases heq : as.length = bs.length
  · obtain ⟨ret, hret, hiff⟩ := compareMembers_iff h
    refine ⟨ret, by rw [if_neg (not_not.mpr (hzero.mpr heq)), hret], hiff.trans ⟨fun hall => ?_, fun hsame => ?_⟩⟩
    · refine .object (keys_of_subset hnodup heq fun key hkey => ?_) fun key x y hx hy => ?_
      · obtain ⟨c, hc, rfl⟩ := List.mem_map.mp hkey
        obtain ⟨y, hy, _⟩ := hall c hc
        exact List.mem_map.mpr ⟨_, get_mem hy, rfl⟩
      · obtain ⟨y', hy', hxy⟩ := hall (key, x) (get_mem hx)
        rw [hy, Option.some.injEq] at hy'
        rwa [← hy'] at hxy
    · cases hsame with
      | object hkeys hall =>
        intro c hc
        obtain ⟨y, hy⟩ := get_of_key_mem ((hkeys c.1).mp (List.mem_map_of_mem hc))
        exact ⟨y, hy, hall c.1 c.2 y (mem_get hnodup hc) hy⟩
  · refine ⟨_, by rw [if_pos (fun h0 => heq (hzero.mp h0))], fun h0 => absurd (hzero.mp h0) heq, fun hsame => ?_⟩
    cases hsame with
    | object hkeys _ => exact absurd (length_of_keys hnodup hnodup' hkeys) heq

/-- The comparison ends with a result, which is zero exactly for elements of one shape. -/
theorem compare_decides (ha : DistinctKeys a) : IntLengths a → ∀ {b : JsonElement},
    DistinctKeys b → IntLengths b → ∃ ret, jsonCompare a b = some ret ∧ (ret = 0 ↔ SameShape a b) := by
  induction ha with
  | primitive type value =>
    intro _ b _ _
    cases b with
    | primitive type' value' =>
      refine ⟨if value = value' then 0 else 1, rfl, ?_⟩
      split
      · rename_i heq
        subst heq
        exact ⟨fun _ => .primitive type type' value, fun _ => rfl⟩
      · rename_i hne
        refine ⟨fun h => absurd h (by decide), fun h => ?_⟩
        cases h
        exact absurd rfl hne
    | array bs => exact ⟨1, rfl, fun h => absurd h (by decide), fun h => by cases h⟩
    | object bs => exact ⟨1, rfl, fun h => absurd h (by decide), fun h => by cases h⟩
  | @array as _ ih =>
    intro hint b hb hbint
    cases b with
    | primitive type value => exact ⟨-1, rfl, fun h => absurd h (by decide), fun h => by cases h⟩
    | object bs => exact ⟨1, rfl, fun h => absurd h (by decide), fun h => by cases h⟩
    | array bs =>
      cases hint with
      | array hlen hint =>
        cases hbint with
        | array hlen' hbint =>
          cases hb with
          | array hb =>
            exact compare_arrays hlen hlen' fun x hx y hy => ih x hx (hint x hx) (hb y hy) (hbint y hy)
  | @object as hnodup _ ih =>
    intro hint b hb hbint
    cases b with
    | primitive type value => exact ⟨-1, rfl, fun h => absurd h (by decide), fun h => by cases h⟩
    | array bs => exact ⟨-1, rfl, fun h => absurd h (by decide), fun h => by cases h⟩
    | object bs =>
      cases hint with
      | object hlen hint =>
        cases hbint with
        | object hlen' hbint =>
          cases hb with
          | object hnodup' hb =>
            exact compare_objects hlen hlen' hnodup hnodup' fun c hc y hy =>
              ih c hc (hint c hc) (hb (c.1, y) (get_mem hy)) (hbint (c.1, y) (get_mem hy))

theorem compare_eq_zero_iff (ha : Comparable a) (hb : Comparable b) :
    jsonCompare a b = some 0 ↔ SameShape a b := by
  obtain ⟨ret, hret, hiff⟩ := compare_decides ha.distinct ha.lengths hb.distinct hb.lengths
  rw [hret, Option.some.injEq, hiff]

/-- `JsonCompare` is zero exactly for elements of one shape, and an equivalence. -/
theorem compare_equivalence {a b c : JsonElement} (ha : Comparable a) (hb : Comparable b) (hc : Comparable c) :
    (∃ ret, jsonCompare a b = some ret) ∧ (jsonCompare a b = some 0 ↔ SameShape a b) ∧ jsonCompare a a = some 0 ∧
      (jsonCompare a b = some 0 → jsonCompare b a = some 0) ∧
      (jsonCompare a b = some 0 → jsonCompare b c = some 0 → jsonCompare a c = some 0) := by
  obtain ⟨ret, hret, -⟩ := compare_decides ha.distinct ha.lengths hb.distinct hb.lengths
  rw [compare_eq_zero_iff ha hb, compare_eq_zero_iff ha ha, compare_eq_zero_iff hb ha, compare_eq_zero_iff hb hc,
    compare_eq_zero_iff ha hc]
  exact ⟨⟨ret, hret⟩, Iff.rfl, sameShape_refl ha.distinct, sameShape_symm, fun h h' => sameShape_trans h h'⟩

/-- `{"a": 1, "b": null}` -/
def oneThenNull : JsonElement := .object [(ascii "a", .primitive .integer (ascii "1")), (ascii "b", jsonNullCreate)]

/-- `{"b": null, "a": "1"}` -/
def nullThenOne : JsonElement := .object [(ascii "b", jsonNullCreate), (ascii "a", .primitive .string (ascii "1"))]

theorem comparable_pair {k k' : Bytes} (h : k ≠ k') (type type' : JsonPrimitiveType) (value value' : Bytes) :
    Comparable (.object [(k, .primitive type value), (k', .primitive type' value')]) := by
  have hchildren : ∀ c ∈ [(k, JsonElement.primitive type value), (k', JsonElement.primitive type' value')],
      DistinctKeys c.2 ∧ IntLengths c.2 := by
    intro c hc
    rcases List.mem_cons.mp hc with rfl | hc
    · exact ⟨.primitive type value, .primitive type value⟩
    · rw [List.mem_singleton.mp hc]
      exact ⟨.primitive type' value', .primitive type' value'⟩
  exact ⟨.object (by simpa using h) fun c hc => (hchildren c hc).1,
    .object (by simp) fun c hc => (hchildren c hc).2⟩

theorem compare_equivalence_reordered :
    jsonCompare oneThenNull oneThenNull = some 0 ∧
      (jsonCompare oneThenNull nullThenOne = some 0 ↔ SameShape oneThenNull nullThenOne) ∧
      (jsonCompare oneThenNull nullThenOne = some 0 → jsonCompare nullThenOne oneThenNull = some 0) := by
  have ha : Comparable oneThenNull := comparable_pair (by decide) _ _ _ _
  have hb : Comparable nullThenOne := comparable_pair (by decide) _ _ _ _
  obtain ⟨_, hiff, hrefl, hsymm, _⟩ := compare_equivalence ha hb ha
  exact ⟨hrefl, hiff, hsymm⟩

end Libntech.Json
