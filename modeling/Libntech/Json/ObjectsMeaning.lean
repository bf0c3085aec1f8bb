import Libntech.Json.Objects
import Libntech.Json.ParseMeaning
import Libntech.Lib.NamedValues

/-! # One member of each name

Every function that changes an object removes the child of a name before it appends another one. So the names in an
object are different: `Ordered` says this of all objects in memory, and each call keeps it.
-/
namespace Libntech.Json
set_option autoImplicit false

/-- The names in every object are different. -/
structure Memory.Ordered (m : Memory) : Prop where
  fresh : ∀ x, m.next ≤ x → m.nodes x = none
  names : ∀ x children, m.nodes x = some (.object children) → (children.map Prod.fst).Nodup

/-! ## One change of memory -/

variable {children : List (Bytes × ℕ)} {e : JsonElement} {g k : Frame} {node : Node}

theorem lookupMember_eq_none {key : Bytes} : lookupMember children key = none ↔ key ∉ children.map Prod.fst :=
  Lib.valueOf_eq_none

namespace Memory.Ordered

variable {m : Memory}

theorem empty : Memory.empty.Ordered := ⟨fun _ _ => rfl, fun _ _ h => by cases h⟩

theorem lt_next (h : m.Ordered) {x : ℕ} (hx : m.nodes x = some node) : x < m.next := by
  by_contra hle
  rw [h.fresh x (by omega)] at hx
  cases hx

theorem new (h : m.Ordered) (hnode : ∀ children, node = .object children → children = []) :
    (m.new node).1.Ordered := by
  refine ⟨fun x hx => ?_, fun x children hx => ?_⟩
  · have hx : m.next + 1 ≤ x := hx
    show Function.update m.nodes m.next (some node) x = none
    rw [Function.update_of_ne (by omega)]
    exact h.fresh x (by omega)
  · change Function.update m.nodes m.next (some node) x = _ at hx
    by_cases hnew : x = m.next
    · rw [hnew, Function.update_self, Option.some.injEq] at hx
      rw [hnode children hx]
      exact List.nodup_nil
    · rw [Function.update_of_ne hnew] at hx
      exact h.names x children hx

variable {object : ℕ}

theorem setMembers (h : m.Ordered) {children' : List (Bytes × ℕ)} (hobject : m.nodes object = some (.object children))
    (hnodup : (children'.map Prod.fst).Nodup) :
    (m.setMembers object children').Ordered := by
  have hlt := h.lt_next hobject
  refine ⟨fun x hx => ?_, fun x cs hx => ?_⟩
  · have hx : m.next ≤ x := hx
    show Function.update m.nodes object _ x = none
    rw [Function.update_of_ne (by omega)]
    exact h.fresh x hx
  · change Function.update m.nodes object (some (.object children')) x = _ at hx
    by_cases hobj : x = object
    · rw [hobj, Function.update_self, Option.some.injEq, Node.object.injEq] at hx
      rw [← hx]
      exact hnodup
    · rw [Function.update_of_ne hobj] at hx
      exact h.names x cs hx

theorem members_eq (hobject : m.nodes object = some (.object children)) : m.members object = children := by
  rw [Memory.members, hobject]

theorem append (h : m.Ordered) (hobject : m.nodes object = some (.object children)) (key : Bytes) (x : ℕ) :
    (jsonObjectAppendElement m object key x).Ordered := by
  rw [jsonObjectAppendElement, members_eq hobject]
  exact h.setMembers hobject (Lib.nodup_put (h.names object children hobject) key x)

theorem erase (h : m.Ordered) (hobject : m.nodes object = some (.object children)) (key : Bytes) :
    (m.setMembers object ((m.members object).eraseP fun child => child.1 = key)).Ordered := by
  rw [members_eq hobject]
  exact h.setMembers hobject (Lib.nodup_erase (h.names object children hobject) key)

/-- `JsonArrayExtend` changes no object. -/
theorem setArray (h : m.Ordered) {x : ℕ} {ids ids' : List ℕ} (hx : m.nodes x = some (.array ids)) :
    Memory.Ordered ⟨Function.update m.nodes x (some (.array ids')), m.next⟩ := by
  have hlt := h.lt_next hx
  refine ⟨fun y hy => ?_, fun y children hy => ?_⟩
  · have hy : m.next ≤ y := hy
    show Function.update m.nodes x _ y = none
    rw [Function.update_of_ne (by omega)]
    exact h.fresh y hy
  · change Function.update m.nodes x _ y = _ at hy
    by_cases hyx : y = x
    · rw [hyx, Function.update_self] at hy
      cases hy
    · rw [Function.update_of_ne hyx] at hy
      exact h.names y children hy

end Memory.Ordered

/-! ## Creating elements -/

/-- What is created leaves the rest of memory as it was. -/
structure Memory.Grows (m m' : Memory) : Prop where
  ordered : m'.Ordered
  next_le : m.next ≤ m'.next
  kept : ∀ x < m.next, m'.nodes x = m.nodes x

theorem new_grows {m : Memory} (h : m.Ordered) (hnode : ∀ children, node = .object children → children = []) :
    m.Grows (m.new node).1 := by
  refine ⟨h.new hnode, Nat.le_succ _, fun x hx => ?_⟩
  show Function.update m.nodes m.next (some node) x = _
  rw [Function.update_of_ne (by omega)]

theorem Memory.Grows.trans {m₁ m₂ m₃ : Memory} (h₁ : m₁.Grows m₂) (h₂ : m₂.Grows m₃) : m₁.Grows m₃ :=
  ⟨h₂.ordered, h₁.next_le.trans h₂.next_le, fun x hx =>
    (h₂.kept x (Nat.lt_of_lt_of_le hx h₁.next_le)).trans (h₁.kept x hx)⟩

mutual

theorem alloc_grows (e : JsonElement) {m : Memory} (h : m.Ordered) : m.Grows (alloc e m).1 := by
  match e with
  | .primitive type value => exact new_grows h nofun
  | .array children =>
    have hgrows := allocElements_grows children h
    exact hgrows.trans (new_grows hgrows.ordered nofun)
  | .object children =>
    have hnew : m.Grows (m.new (.object [])).1 := new_grows h fun cs hcs => (Node.object.inj hcs).symm
    have hobject : (m.new (.object [])).1.nodes m.next = some (.object []) := Function.update_self ..
    obtain ⟨hordered, hle, hkept⟩ := allocMembers_grows m.next children hnew.ordered hobject
    refine ⟨hordered, hnew.next_le.trans hle, fun x hx => ?_⟩
    exact (hkept x (Nat.lt_of_lt_of_le hx hnew.next_le) (by omega)).trans (hnew.kept x hx)

theorem allocElements_grows (es : List JsonElement) {m : Memory} (h : m.Ordered) : m.Grows (allocElements es m).1 := by
  match es with
  | [] => exact ⟨h, Nat.le_refl _, fun _ _ => rfl⟩
  | e :: rest =>
    have hgrows := alloc_grows e h
    exact hgrows.trans (allocElements_grows rest hgrows.ordered)

theorem allocMembers_grows (object : ℕ) (ms : List (Bytes × JsonElement)) {m : Memory} (h : m.Ordered)
    {children : List (Bytes × ℕ)} (hobject : m.nodes object = some (.object children)) :
    (allocMembers object ms m).Ordered ∧ m.next ≤ (allocMembers object ms m).next ∧
      ∀ x < m.next, x ≠ object → (allocMembers object ms m).nodes x = m.nodes x := by
  match ms with
  | [] => exact ⟨h, Nat.le_refl _, fun _ _ _ => rfl⟩
  | (key, e) :: rest =>
    have hgrows := alloc_grows e h
    have hobject' := (hgrows.kept object (h.lt_next hobject)).trans hobject
    have happended : (jsonObjectAppendElement (alloc e m).1 object key (alloc e m).2).nodes object =
        some (.object (((alloc e m).1.members object).eraseP (fun child => child.1 = key) ++ [(key, (alloc e m).2)])) :=
      Function.update_self ..
    obtain ⟨hordered, hle, hkept⟩ :=
      allocMembers_grows object rest (hgrows.ordered.append hobject' key (alloc e m).2) happended
    refine ⟨hordered, hgrows.next_le.trans hle, fun x hx hne => ?_⟩
    refine (hkept x (Nat.lt_of_lt_of_le hx hgrows.next_le) hne).trans ?_
    refine Eq.trans ?_ (hgrows.kept x hx)
    exact Function.update_of_ne hne ..

end

/-! ## Runs -/

/-- The frame in which members of one name have replaced each other. -/
def Frame.settled : Frame → Frame
  | array prev children => .array prev (settledElements children)
  | object prev o => .object prev ⟨o.name, settledMembers [] o.children⟩

end Libntech.Json
