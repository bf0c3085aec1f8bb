import Libntech.Json.MemberOrder
import Libntech.Lib.NamedValues

/-! # The deep merge of two objects

`mergedMembers` goes through the members of the second object as `JsonObjectMergeDeepInplace` does: a value stays in its
place where two objects or two arrays meet, and else the member is appended. `MergesTo` says what comes of it without
regard to the order of members.
-/
namespace Libntech.Json
set_option autoImplicit false

open Libntech.Lib

/-- The merge of two values of one name: of two objects name by name, of two arrays one behind the other, and else the
second value. -/
inductive MergesTo : JsonElement → JsonElement → JsonElement → Prop where
  | objects {as bs cs : List (Bytes × JsonElement)} : (cs.map Prod.fst).Nodup →
      (∀ key, key ∈ cs.map Prod.fst ↔ key ∈ as.map Prod.fst ∨ key ∈ bs.map Prod.fst) →
      (∀ key, key ∉ bs.map Prod.fst → jsonObjectGet cs key = jsonObjectGet as key) →
      (∀ key, key ∉ as.map Prod.fst → jsonObjectGet cs key = jsonObjectGet bs key) →
      (∀ key a b c, jsonObjectGet as key = some a → jsonObjectGet bs key = some b → jsonObjectGet cs key = some c →
        MergesTo a b c) → MergesTo (.object as) (.object bs) (.object cs)
  | arrays {as bs : List JsonElement} : MergesTo (.array as) (.array bs) (.array (as ++ bs))
  | other {a b : JsonElement} : ¬ (∃ as bs, a = .object as ∧ b = .object bs) → ¬ (∃ as bs, a = .array as ∧ b = .array bs) →
      MergesTo a b b

/-- Two objects or two arrays: the first one is changed, and stays where it is. -/
def mergesInPlace : Option JsonElement → JsonElement → Bool
  | some (.object _), .object _ => true
  | some (.array _), .array _ => true
  | _, _ => false

mutual

/-- What comes to stand under a name. -/
def mergedValue : JsonElement → Option JsonElement → JsonElement
  | .object extra, some (.object base) => .object (mergedMembers extra base)
  | .array extra, some (.array base) => .array (base ++ extra)
  | e, _ => e

/-- The members of the base object, from the given members of the other one on. -/
def mergedMembers : List (Bytes × JsonElement) → List (Bytes × JsonElement) → List (Bytes × JsonElement)
  | [], base => base
  | (key, e) :: rest, base =>
    mergedMembers rest
      (if mergesInPlace (jsonObjectGet base key) e then replaceValue key (mergedValue e (jsonObjectGet base key)) base
      else appendElement base key e)

end

/-! ## Members by name -/

theorem get_eq_valueOf (children : List (Bytes × JsonElement)) (key : Bytes) :
    jsonObjectGet children key = valueOf children key := rfl

theorem removeKey_eq_eraseP (key : Bytes) (children : List (Bytes × JsonElement)) :
    removeKey key children = children.eraseP fun child => child.1 = key := by
  induction children with
  | nil => rfl
  | cons c children ih =>
    rw [removeKey]
    split
    · rename_i hc
      rw [List.eraseP_cons_of_pos (by simpa using hc)]
    · rename_i hc
      rw [List.eraseP_cons_of_neg (by simpa using hc), ih]

/-- One member of the other object. -/
def mergeMember (key : Bytes) (e : JsonElement) (base : List (Bytes × JsonElement)) : List (Bytes × JsonElement) :=
  if mergesInPlace (jsonObjectGet base key) e then replaceValue key (mergedValue e (jsonObjectGet base key)) base
  else appendElement base key e

theorem mergedMembers_cons (key : Bytes) (e : JsonElement) (rest base : List (Bytes × JsonElement)) :
    mergedMembers ((key, e) :: rest) base = mergedMembers rest (mergeMember key e base) := by
  rw [mergedMembers, mergeMember]

theorem mergedValue_overwrites {e : JsonElement} {old : Option JsonElement} (h : mergesInPlace old e = false) :
    mergedValue e old = e := by
  unfold mergedValue
  split
  · cases h
  · cases h
  · rfl

theorem mergeMember_spec {base : List (Bytes × JsonElement)} (h : (base.map Prod.fst).Nodup) (key : Bytes)
    (e : JsonElement) : ((mergeMember key e base).map Prod.fst).Nodup ∧ ∀ k,
      valueOf (mergeMember key e base) k =
        if k = key then some (mergedValue e (valueOf base key)) else valueOf base k := by
  unfold mergeMember
  rw [get_eq_valueOf]
  cases hplace : mergesInPlace (valueOf base key) e with
  | true =>
    have hmem : key ∈ base.map Prod.fst := by
      by_contra hnot
      rw [valueOf_eq_none.mpr hnot] at hplace
      cases e <;> cases hplace
    rw [if_pos rfl]
    exact ⟨by rw [names_replace]; exact h, valueOf_replace hmem _⟩
  | false =>
    rw [if_neg Bool.false_ne_true, appendElement, removeKey_eq_eraseP, mergedValue_overwrites hplace]
    exact ⟨nodup_put h key e, valueOf_put h key e⟩

/-- Name by name: what the other object has is merged, and the rest stays. -/
theorem mergedMembers_spec {bs : List (Bytes × JsonElement)} : ∀ {as : List (Bytes × JsonElement)},
    (as.map Prod.fst).Nodup → (bs.map Prod.fst).Nodup → ((mergedMembers bs as).map Prod.fst).Nodup ∧ ∀ k,
      valueOf (mergedMembers bs as) k =
        match valueOf bs k with
        | none => valueOf as k
        | some b => some (mergedValue b (valueOf as k)) := by
  induction bs with
  | nil =>
    intro as ha _
    rw [mergedMembers]
    exact ⟨ha, fun _ => rfl⟩
  | cons c bs ih =>
    obtain ⟨key, e⟩ := c
    intro as ha hb
    rw [List.map_cons, List.nodup_cons] at hb
    obtain ⟨hnodup, hget⟩ := mergeMember_spec ha key e
    obtain ⟨hnodup', hget'⟩ := ih hnodup hb.2
    rw [mergedMembers_cons]
    refine ⟨hnodup', fun k => ?_⟩
    rw [hget', valueOf_cons, hget]
    by_cases hk : k = key
    · have hnone : valueOf bs key = none := valueOf_eq_none.mpr hb.1
      rw [if_pos hk, if_pos hk, hk, hnone]
    · rw [if_neg hk, if_neg hk]

theorem mem_names_iff {children : List (Bytes × JsonElement)} {key : Bytes} :
    key ∈ children.map Prod.fst ↔ ∃ e, valueOf children key = some e := by
  rw [← Option.ne_none_iff_exists', ne_eq, valueOf_eq_none, Classical.not_not]

theorem mergesTo_mergedValue {b : JsonElement} (hb : DistinctKeys b) :
    ∀ {a : JsonElement}, DistinctKeys a → MergesTo a b (mergedValue b (some a)) := by
  have hother : ∀ {a b : JsonElement}, mergesInPlace (some a) b = false → MergesTo a b (mergedValue b (some a)) := by
    intro a b hplace
    rw [mergedValue_overwrites hplace]
    refine .other ?_ ?_
    · rintro ⟨as, bs, rfl, rfl⟩
      cases hplace
    · rintro ⟨as, bs, rfl, rfl⟩
      cases hplace
  induction hb with
  | primitive type value =>
    intro a _
    refine hother ?_
    cases a <;> rfl
  | @array bs _ _ =>
    intro a _
    cases a with
    | primitive type value => exact hother rfl
    | object as => exact hother rfl
    | array as =>
      rw [mergedValue]
      exact .arrays
  | @object bs hbs _ ih =>
    intro a ha
    cases ha with
    | primitive type value => exact hother rfl
    | array _ => exact hother rfl
    | @object as has hall =>
      obtain ⟨hnodup, hget⟩ := mergedMembers_spec has hbs
      rw [mergedValue]
      refine .objects hnodup (fun key => ?_) (fun key hkey => ?_) (fun key hkey => ?_) fun key x y z hx hy hz => ?_
      · rw [mem_names_iff, mem_names_iff, mem_names_iff, hget]
        cases valueOf bs key with
        | none => simp
        | some b => simp
      · rw [get_eq_valueOf, hget, valueOf_eq_none.mpr hkey]
        rfl
      · rw [get_eq_valueOf, hget, valueOf_eq_none.mpr hkey]
        rw [get_eq_valueOf]
        cases valueOf bs key with
        | none => rfl
        | some b => exact congrArg some (mergedValue_overwrites (by cases b <;> rfl))
      · rw [get_eq_valueOf, hget] at hz
        rw [get_eq_valueOf] at hx
        have hmem := get_mem hy
        rw [get_eq_valueOf] at hy
        rw [hy, hx] at hz
        obtain rfl := Option.some.inj hz
        exact ih (key, y) hmem (hall (key, x) (get_mem hx))

end Libntech.Json
