import Libntech.Json.CopyMeaning
import Libntech.Json.Ownership
import Mathlib.Data.Set.Card

/-! # Objects and the calls that were made

`JsonObjectGet` finds what was put under a name last: in every state that calls lead to, the objects hold what follows
from the calls alone.
-/
namespace Libntech.Json
set_option autoImplicit false

/-- What was put under a name of an object most recently, unless it was taken out since. -/
def latest (calls : List Call) (object : ℕ) (key : Bytes) : Option ℕ :=
  (calls.reverse.find? fun call => call.object = object ∧ call.key = key).bind Call.element

/-- Every object holds what the calls put there. -/
structure Memory.Follows (m : Memory) (calls : List Call) : Prop where
  ordered : m.Ordered
  later : ∀ x, m.next ≤ x → ∀ key, latest calls x key = none
  objects : ∀ x children, m.nodes x = some (.object children) → ∀ key, lookupMember children key = latest calls x key

/-! ## Calls and lists of members -/

section Lists

variable {children : List (Bytes × ℕ)}

theorem latest_snoc (calls : List Call) (call : Call) (object : ℕ) (key : Bytes) :
    latest (calls ++ [call]) object key =
      if call.object = object ∧ call.key = key then call.element else latest calls object key := by
  rw [latest, List.reverse_append, List.reverse_singleton, List.singleton_append, List.find?_cons]
  by_cases hcall : call.object = object ∧ call.key = key
  · simp [hcall]
  · rw [if_neg hcall, decide_eq_false hcall]
    rfl

end Lists

/-! ## One change of memory -/

namespace Memory.Follows

variable {m : Memory} {calls : List Call}

theorem empty : Memory.empty.Follows [] := ⟨.empty, fun _ _ _ => rfl, fun _ _ h => by cases h⟩

theorem new (h : m.Follows calls) {node : Node} (hnode : ∀ children, node = .object children → children = []) :
    (m.new node).1.Follows calls := by
  refine ⟨h.ordered.new hnode, fun x hx => ?_, fun x children hx => ?_⟩
  · have hx : m.next + 1 ≤ x := hx
    exact h.later x (by omega)
  · change Function.update m.nodes m.next (some node) x = _ at hx
    by_cases hnew : x = m.next
    · subst hnew
      rw [Function.update_self, Option.some.injEq] at hx
      obtain rfl := hnode children hx
      exact fun key => (h.later _ (Nat.le_refl _) key).symm
    · rw [Function.update_of_ne hnew] at hx
      exact h.objects x children hx

variable {children : List (Bytes × ℕ)} {object : ℕ}

theorem setMembers (h : m.Follows calls) {children' : List (Bytes × ℕ)} {k : Bytes} {v : Option ℕ}
    (hobject : m.nodes object = some (.object children)) (hnodup : (children'.map Prod.fst).Nodup)
    (hlookup : ∀ key, lookupMember children' key = if key = k then v else lookupMember children key) :
    (m.setMembers object children').Follows (calls ++ [⟨object, k, v⟩]) := by
  have hlt := h.ordered.lt_next hobject
  refine ⟨h.ordered.setMembers hobject hnodup, fun x hx key => ?_, fun x cs hx key => ?_⟩
  · have hx : m.next ≤ x := hx
    rw [latest_snoc, if_neg fun hcall => absurd hcall.1 (Nat.ne_of_lt (Nat.lt_of_lt_of_le hlt hx))]
    exact h.later x hx key
  · change Function.update m.nodes object (some (.object children')) x = _ at hx
    rw [latest_snoc]
    by_cases hobj : object = x
    · subst hobj
      rw [Function.update_self, Option.some.injEq, Node.object.injEq] at hx
      rw [← hx, hlookup, h.objects object children hobject]
      by_cases hkey : key = k
      · rw [if_pos hkey, if_pos ⟨rfl, hkey.symm⟩]
      · rw [if_neg hkey, if_neg fun hcall => hkey hcall.2.symm]
    · rw [Function.update_of_ne (Ne.symm hobj)] at hx
      rw [if_neg fun hcall => hobj hcall.1]
      exact h.objects x cs hx key

theorem append (h : m.Follows calls) (hobject : m.nodes object = some (.object children)) (key : Bytes) (x : ℕ) :
    (jsonObjectAppendElement m object key x).Follows (calls ++ [⟨object, key, some x⟩]) := by
  have hnodup := h.ordered.names object children hobject
  rw [jsonObjectAppendElement, Memory.Ordered.members_eq hobject]
  exact h.setMembers hobject (Lib.nodup_put hnodup key x) (Lib.valueOf_put hnodup key x)

theorem erase (h : m.Follows calls) (hobject : m.nodes object = some (.object children)) (key : Bytes) :
    (m.setMembers object ((m.members object).eraseP fun child => child.1 = key)).Follows
      (calls ++ [⟨object, key, none⟩]) := by
  have hnodup := h.ordered.names object children hobject
  rw [Memory.Ordered.members_eq hobject]
  exact h.setMembers hobject (Lib.nodup_erase hnodup key) (Lib.valueOf_erase hnodup key)

/-- `JsonArrayExtend` changes no object. -/
theorem setArray (h : m.Follows calls) {x : ℕ} {ids ids' : List ℕ} (hx : m.nodes x = some (.array ids)) :
    Memory.Follows ⟨Function.update m.nodes x (some (.array ids')), m.next⟩ calls := by
  refine ⟨h.ordered.setArray hx, h.later, fun y children hy => ?_⟩
  change Function.update m.nodes x _ y = _ at hy
  by_cases hyx : y = x
  · rw [hyx, Function.update_self] at hy
    cases hy
  · rw [Function.update_of_ne hyx] at hy
    exact h.objects y children hy

end Memory.Follows

mutual

theorem alloc_follows (e : JsonElement) {m : Memory} {calls : List Call} (h : m.Follows calls) :
    (alloc e m).1.Follows (calls ++ allocCalls e m) := by
  match e with
  | .primitive type value =>
    rw [allocCalls, List.append_nil]
    exact h.new fun children hnode => by cases hnode
  | .array children =>
    rw [allocCalls]
    exact (allocElements_follows children h).new fun children hnode => by cases hnode
  | .object children =>
    rw [allocCalls]
    exact allocMembers_follows m.next children (h.new fun cs hcs => (Node.object.inj hcs).symm)
      (Function.update_self ..)

theorem allocElements_follows (es : List JsonElement) {m : Memory} {calls : List Call} (h : m.Follows calls) :
    (allocElements es m).1.Follows (calls ++ allocElementsCalls es m) := by
  match es with
  | [] =>
    rw [allocElementsCalls, List.append_nil]
    exact h
  | e :: rest =>
    rw [allocElementsCalls, ← List.append_assoc]
    exact allocElements_follows rest (alloc_follows e h)

theorem allocMembers_follows (object : ℕ) (ms : List (Bytes × JsonElement)) {m : Memory} {calls : List Call}
    (h : m.Follows calls) {children : List (Bytes × ℕ)} (hobject : m.nodes object = some (.object children)) :
    (allocMembers object ms m).Follows (calls ++ allocMembersCalls object ms m) := by
  match ms with
  | [] =>
    rw [allocMembersCalls, List.append_nil]
    exact h
  | (key, e) :: rest =>
    have hobject' := ((alloc_grows e h.ordered).kept object (h.ordered.lt_next hobject)).trans hobject
    have hrest := allocMembers_follows object rest ((alloc_follows e h).append hobject' key (alloc e m).2)
      (Function.update_self ..)
    rw [List.append_assoc, List.append_assoc] at hrest
    exact hrest

end

/-! ## Runs -/

variable {m : Memory}

theorem appendElement_distinct {children : List (Bytes × JsonElement)} {key : Bytes} {e : JsonElement}
    (h : DistinctKeys (.object children)) (he : DistinctKeys e) : DistinctKeys (.object (appendElement children key e)) := by
  cases h with
  | object hnodup hall =>
    refine .object (appendElement_nodup hnodup) fun c hc => ?_
    obtain hc | hc := List.mem_append.mp hc
    · exact hall c ((removeKey_sublist key children).subset hc)
    · obtain rfl := List.mem_singleton.mp hc
      exact he

theorem primitiveCopy_distinct {type : JsonPrimitiveType} {value : Bytes} {c : JsonElement}
    (h : jsonPrimitiveCopy type value = some c) : DistinctKeys c := by
  cases type with
  | string => exact Option.some.inj h ▸ .primitive _ _
  | bool => exact Option.some.inj h ▸ .primitive _ _
  | null => exact Option.some.inj h ▸ .primitive _ _
  | integer =>
    obtain ⟨n, -, hn⟩ := Option.bind_eq_some_iff.mp h
    exact Option.some.inj hn ▸ .primitive _ _
  | real =>
    obtain ⟨d, -, hd⟩ := Option.bind_eq_some_iff.mp h
    obtain rfl := Option.some.inj hd
    cases d with
    | finite negative mantissa exponent => exact .primitive _ _
    | infinite negative => exact .primitive _ _
    | nan => exact .primitive _ _

mutual

/-- A copy is made by appending, so its objects have one member of each name. -/
theorem jsonCopy_distinct (e : JsonElement) {c : JsonElement} (h : jsonCopy e = some c) : DistinctKeys c := by
  match e with
  | .primitive type value =>
    rw [jsonCopy] at h
    exact primitiveCopy_distinct h
  | .array children =>
    rw [jsonCopy] at h
    obtain ⟨copy, hcopy, h⟩ := Option.bind_eq_some_iff.mp h
    obtain rfl := Option.some.inj h
    exact .array (jsonArrayCopy_distinct children (fun x hx => absurd hx List.not_mem_nil) hcopy)
  | .object children =>
    rw [jsonCopy] at h
    obtain ⟨copy, hcopy, h⟩ := Option.bind_eq_some_iff.mp h
    obtain rfl := Option.some.inj h
    have hnothing : DistinctKeys (.object []) := .object .nil fun x hx => absurd hx List.not_mem_nil
    exact jsonObjectCopy_distinct children hnothing hcopy

theorem jsonArrayCopy_distinct (es : List JsonElement) {copy r : List JsonElement} (hcopy : ∀ e ∈ copy, DistinctKeys e)
    (h : jsonArrayCopy copy es = some r) : ∀ e ∈ r, DistinctKeys e := by
  match es with
  | [] =>
    rw [jsonArrayCopy] at h
    obtain rfl := Option.some.inj h
    exact hcopy
  | e :: rest =>
    rw [jsonArrayCopy] at h
    obtain ⟨c, hc, h⟩ := Option.bind_eq_some_iff.mp h
    refine jsonArrayCopy_distinct rest (fun x hx => ?_) h
    obtain hx | hx := List.mem_append.mp hx
    · exact hcopy x hx
    · obtain rfl := List.mem_singleton.mp hx
      exact jsonCopy_distinct e hc

theorem jsonObjectCopy_distinct (ms : List (Bytes × JsonElement)) {copy r : List (Bytes × JsonElement)}
    (hcopy : DistinctKeys (.object copy)) (h : jsonObjectCopy copy ms = some r) : DistinctKeys (.object r) := by
  match ms with
  | [] =>
    rw [jsonObjectCopy] at h
    obtain rfl := Option.some.inj h
    exact hcopy
  | (key, e) :: rest =>
    rw [jsonObjectCopy] at h
    obtain ⟨c, hc, h⟩ := Option.bind_eq_some_iff.mp h
    exact jsonObjectCopy_distinct rest (appendElement_distinct hcopy (jsonCopy_distinct e hc)) h

end

end Libntech.Json
