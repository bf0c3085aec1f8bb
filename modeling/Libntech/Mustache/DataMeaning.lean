import Libntech.Json.MemberOrder
import Libntech.Mustache.Render

/-! # The data while a template is rendered

Rendering writes to the data by sorting members only. The paths stay what they are, and so does every lookup.
-/
namespace Libntech.Mustache
set_option autoImplicit false

open Libntech.Json

/-! ## Paths and lookups -/

theorem deref_same {d d' : JsonElement} (h : Same d d') (ref : Ref) :
    Option.Rel Same (deref d ref) (deref d' ref) := by
  induction ref generalizing d d' with
  | nil => exact .some h
  | cons step path ih =>
    cases step with
    | key name =>
      cases h with
      | primitive type value => exact .none
      | array hlen hall => exact .none
      | @object as bs hperm hall =>
        have hget := get_same (.object hperm hall) name
        rw [deref, deref]
        revert hget
        generalize jsonObjectGet as name = x, jsonObjectGet bs name = y
        intro hget
        cases hget with
        | none => exact .none
        | some hab => exact ih hab
    | index i =>
      cases h with
      | primitive type value => exact .none
      | object hperm hall => exact .none
      | @array as bs hlen hall =>
        have hget := getElem_same (.array hlen hall) i
        rw [deref, deref]
        revert hget
        generalize as[i]? = x, bs[i]? = y
        intro hget
        cases hget with
        | none => exact .none
        | some hab => exact ih hab

theorem member_same {d d' : JsonElement} (h : Same d d') (hash : Ref) (name : Bytes) :
    member d' hash name = member d hash name := by
  unfold member
  have hderef := deref_same h hash
  revert hderef
  generalize deref d hash = x, deref d' hash = y
  intro hderef
  cases hderef with
  | none => rfl
  | some hab =>
    cases hab with
    | primitive type value => rfl
    | array hlen hall => rfl
    | @object as bs hperm hall =>
      have hget := get_same (.object hperm hall) name
      revert hget
      generalize hx : jsonObjectGet as name = x, hy : jsonObjectGet bs name = y
      intro hget
      cases hget with
      | none => simp only [hx, hy]
      | some hab => simp only [hx, hy, Option.isSome_some]

/-- The same stack gives the same elements, whatever was sorted in between. -/
theorem lookupVariable_same {sc sc' : Scope} (hstack : sc'.hashStack = sc.hashStack) (h : Same sc.doc sc'.doc)
    (name : Bytes) : lookupVariable sc' name = lookupVariable sc name := by
  have hmember : member sc'.doc = member sc.doc := by
    funext hash key
    exact member_same h hash key
  unfold lookupVariable
  rw [hmember, hstack]

/-! ## Writing in place -/

theorem deref_distinct {doc : JsonElement} (h : DistinctKeys doc) {ref : Ref} {e : JsonElement}
    (hderef : deref doc ref = some e) : DistinctKeys e := by
  induction ref generalizing doc with
  | nil =>
    rw [deref, Option.some.injEq] at hderef
    rw [← hderef]
    exact h
  | cons step path ih =>
    cases step with
    | key name =>
      cases h with
      | primitive type value => cases hderef
      | array hall => cases hderef
      | object hnodup hall =>
        obtain ⟨child, hget, hchild⟩ := Option.bind_eq_some_iff.mp hderef
        exact ih (hall _ (get_mem hget)) hchild
    | index i =>
      cases h with
      | primitive type value => cases hderef
      | object hnodup hall => cases hderef
      | array hall =>
        obtain ⟨child, hget, hchild⟩ := Option.bind_eq_some_iff.mp hderef
        exact ih (hall _ (List.mem_of_getElem? hget)) hchild

theorem get_map_at {children : List (Bytes × JsonElement)} {name : Bytes} (f : JsonElement → JsonElement) (key : Bytes) :
    jsonObjectGet (children.map fun c => if c.1 = name then (c.1, f c.2) else c) key =
      (jsonObjectGet children key).map fun e => if key = name then f e else e := by
  induction children with
  | nil => rfl
  | cons c rest ih =>
    unfold jsonObjectGet at ih ⊢
    have hfst : (if c.1 = name then (c.1, f c.2) else c).1 = c.1 := by
      split <;> rfl
    rw [List.map_cons, List.find?_cons, List.find?_cons, hfst]
    by_cases hkey : c.1 = key
    · subst hkey
      rw [decide_eq_true rfl]
      by_cases hname : c.1 = name
      · simp [hname]
      · simp [hname]
    · rw [decide_eq_false hkey]
      exact ih

theorem replaceMember_same {children : List (Bytes × JsonElement)} (hnodup : (children.map Prod.fst).Nodup)
    (hall : ∀ c ∈ children, DistinctKeys c.2) {name : Bytes} {child : JsonElement} {f : JsonElement → JsonElement}
    (hget : jsonObjectGet children name = some child) (hsame : Same child (f child)) (hdistinct : DistinctKeys (f child)) :
    Same (.object children) (.object (children.map fun c => if c.1 = name then (c.1, f c.2) else c)) ∧
      DistinctKeys (.object (children.map fun c => if c.1 = name then (c.1, f c.2) else c)) := by
  have hkeys : (children.map fun c => if c.1 = name then (c.1, f c.2) else c).map Prod.fst =
      children.map Prod.fst := by
    rw [List.map_map]
    refine List.map_congr_left fun c _ => ?_
    rw [Function.comp_apply]
    split <;> rfl
  refine ⟨.object (by rw [hkeys]) fun key a b ha hb => ?_, .object (by rw [hkeys]; exact hnodup) fun c hc => ?_⟩
  · rw [get_map_at, ha, Option.map_some, Option.some.injEq] at hb
    by_cases hname : key = name
    · subst hname
      rw [if_pos rfl] at hb
      rw [ha, Option.some.injEq] at hget
      rw [← hb, hget]
      exact hsame
    · rw [if_neg hname] at hb
      rw [← hb]
      exact same_refl (hall _ (get_mem ha))
  · obtain ⟨c₀, hc₀, rfl⟩ := List.mem_map.mp hc
    by_cases hname : c₀.1 = name
    · have hchild₀ : c₀.2 = child := by
        have hget₀ := mem_get hnodup hc₀
        rw [hname, hget, Option.some.injEq] at hget₀
        exact hget₀.symm
      rw [if_pos hname, hchild₀]
      exact hdistinct
    · rw [if_neg hname]
      exact hall c₀ hc₀

theorem replaceItem_same {children : List JsonElement} (hall : ∀ e ∈ children, DistinctKeys e) {i : ℕ}
    {child : JsonElement} {f : JsonElement → JsonElement} (hget : children[i]? = some child)
    (hsame : Same child (f child)) (hdistinct : DistinctKeys (f child)) :
    Same (.array children) (.array (children.modify i f)) ∧ DistinctKeys (.array (children.modify i f)) := by
  have helem : ∀ (j : ℕ) (b : JsonElement), (children.modify i f)[j]? = some b →
      (∃ a, children[j]? = some a ∧ Same a b) ∧ DistinctKeys b := by
    intro j b hb
    rw [List.getElem?_modify] at hb
    obtain ⟨a, ha, hab⟩ := Option.map_eq_some_iff.mp hb
    by_cases hj : i = j
    · subst hj
      rw [hget, Option.some.injEq] at ha
      subst ha
      rw [if_pos rfl] at hab
      rw [← hab]
      exact ⟨⟨child, hget, hsame⟩, hdistinct⟩
    · rw [if_neg hj] at hab
      rw [← hab]
      exact ⟨⟨a, ha, same_refl (hall a (List.mem_of_getElem? ha))⟩, hall a (List.mem_of_getElem? ha)⟩
  refine ⟨.array (List.length_modify _ _ _).symm fun j a b ha hb => ?_, .array fun b hb => ?_⟩
  · obtain ⟨⟨a', ha', hab⟩, _⟩ := helem j b hb
    rw [ha, Option.some.injEq] at ha'
    rw [ha']
    exact hab
  · obtain ⟨j, hj⟩ := List.getElem?_of_mem hb
    exact (helem j b hj).2

theorem replaceAt_same {doc e e' : JsonElement} (h : DistinctKeys doc) (he' : DistinctKeys e') (hsame : Same e e') :
    ∀ {ref : Ref}, deref doc ref = some e → Same doc (replaceAt e' ref doc) ∧ DistinctKeys (replaceAt e' ref doc) := by
  intro ref hderef
  induction ref generalizing doc with
  | nil =>
    rw [deref, Option.some.injEq] at hderef
    rw [hderef]
    exact ⟨hsame, he'⟩
  | cons step path ih =>
    cases step with
    | key name =>
      cases h with
      | primitive type value => cases hderef
      | array hall => cases hderef
      | object hnodup hall =>
        obtain ⟨child, hget, hchild⟩ := Option.bind_eq_some_iff.mp hderef
        obtain ⟨hsame', hdistinct'⟩ := ih (hall _ (get_mem hget)) hchild
        rw [replaceAt]
        exact replaceMember_same hnodup hall hget hsame' hdistinct'
    | index i =>
      cases h with
      | primitive type value => cases hderef
      | object hnodup hall => cases hderef
      | array hall =>
        obtain ⟨child, hget, hchild⟩ := Option.bind_eq_some_iff.mp hderef
        obtain ⟨hsame', hdistinct'⟩ := ih (hall _ (List.mem_of_getElem? hget)) hchild
        rw [replaceAt]
        exact replaceItem_same hall hget hsame' hdistinct'

theorem ok_of_map {α β : Type} {x : Except Stop α} {f : α → β} {b : β} (h : x.map f = .ok b) :
    ∃ a, x = .ok a ∧ f a = b := by
  cases x with
  | error stop => cases h
  | ok a => exact ⟨a, rfl, Except.ok.inj h⟩

theorem renderVariableContainer_same {e : JsonElement} (h : DistinctKeys e) {compact : Bool} {r : Bytes × JsonElement}
    (hr : renderVariableContainer e compact = .ok r) : Same e r.2 ∧ DistinctKeys r.2 := by
  obtain ⟨e', hsorted, hdistinct, hsame⟩ := sorted_same h
  unfold renderVariableContainer at hr
  rw [hsorted] at hr
  split at hr
  · rename_i heq
    rw [Option.some.injEq] at heq
    subst heq
    rw [← Except.ok.inj hr]
    exact ⟨hsame, hdistinct⟩
  · cases hr
  · cases hr

/-- Rendering a variable changes nothing but the order of members. -/
theorem renderVariable_same {realText : Bytes → Option Bytes} {content : Bytes} {conversion : TagType} {sc : Scope}
    {jsonKey : Option Bytes} {r : Bytes × JsonElement} (h : DistinctKeys sc.doc)
    (hr : renderVariable realText content conversion sc jsonKey = .ok r) : Same sc.doc r.2 ∧ DistinctKeys r.2 := by
  have hkeep : ∀ text : Bytes, Except.ok (text, sc.doc) = (Except.ok r : Except Stop _) →
      Same sc.doc r.2 ∧ DistinctKeys r.2 := by
    intro text heq
    rw [← Except.ok.inj heq]
    exact ⟨same_refl h, h⟩
  unfold renderVariable at hr
  dsimp only at hr
  split at hr
  · cases hr
  · split at hr
    · exact hkeep _ hr
    · rename_i ref _
      split at hr
      · exact hkeep _ hr
      · exact hkeep _ hr
      · obtain ⟨text, _, htext⟩ := ok_of_map hr
        exact hkeep text (by rw [htext])
      · rename_i hderef _ _
        split at hr
        · obtain ⟨w, hwrite, hw⟩ := ok_of_map hr
          obtain ⟨hsame, hdistinct⟩ := renderVariableContainer_same (deref_distinct h hderef) hwrite
          rw [← hw]
          exact replaceAt_same h hdistinct hsame hderef
        · split at hr
          · exact hkeep _ hr
          · split at hr
            · cases hr
            · cases hr

end Libntech.Mustache
