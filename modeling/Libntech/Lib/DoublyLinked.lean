import Mathlib.Data.List.Basic
import Mathlib.Logic.Function.Basic

/-! # Doubly linked chains in a heap

A heap sends addresses to nodes; an address without a node has been freed or was never given out. `Linked h p l n`
says that the addresses and payloads of `l` are a chain of nodes in `h`, with links to each other and to `p` and `n`
at its two ends. The lemmas say what a new link at either end does, and from them what it means to put a node
between two parts of a chain and to take one out.
-/
namespace Libntech.Lib
set_option autoImplicit false

variable {β : Type}

structure Node (β : Type) where
  payload : β
  next : Option ℕ
  previous : Option ℕ

namespace Chain

/-- The first address of `l`, or `stop`. -/
def headOr (stop : Option ℕ) : List (ℕ × β) → Option ℕ
  | [] => stop
  | x :: _ => some x.1

/-- The last address of `l`, or `start`. -/
def lastOr (start : Option ℕ) : List (ℕ × β) → Option ℕ
  | [] => start
  | x :: l => lastOr (some x.1) l

def addresses (l : List (ℕ × β)) : List ℕ := l.map Prod.fst

theorem addresses_append (A B : List (ℕ × β)) : addresses (A ++ B) = addresses A ++ addresses B := List.map_append

theorem addresses_cons (x : ℕ × β) (l : List (ℕ × β)) : addresses (x :: l) = x.1 :: addresses l := rfl

def Linked (h : ℕ → Option (Node β)) : Option ℕ → List (ℕ × β) → Option ℕ → Prop
  | _, [], _ => True
  | previous, x :: l, next => h x.1 = some ⟨x.2, headOr next l, previous⟩ ∧ Linked h (some x.1) l next

variable {h h' : ℕ → Option (Node β)} {p n : Option ℕ} {l A B : List (ℕ × β)} {x : ℕ × β}

theorem headOr_nil (stop : Option ℕ) : headOr stop ([] : List (ℕ × β)) = stop := rfl

theorem headOr_cons (stop : Option ℕ) (x : ℕ × β) (l : List (ℕ × β)) : headOr stop (x :: l) = some x.1 := rfl

theorem headOr_append (stop : Option ℕ) (A B : List (ℕ × β)) : headOr stop (A ++ B) = headOr (headOr stop B) A := by
  cases A with
  | nil => rfl
  | cons x A => rfl

theorem lastOr_append (start : Option ℕ) (A B : List (ℕ × β)) : lastOr start (A ++ B) = lastOr (lastOr start A) B := by
  induction A generalizing start with
  | nil => rfl
  | cons x A ih => exact ih (some x.1)

/-- What stands behind a first part that is there does not matter for the head. -/
theorem headOr_append_congr (hA : A ≠ []) (B C : List (ℕ × β)) : headOr none (A ++ B) = headOr none (A ++ C) := by
  cases A with
  | nil => exact absurd rfl hA
  | cons x A => rfl

theorem lastOr_middle (start : Option ℕ) (A : List (ℕ × β)) (x : ℕ × β) (B : List (ℕ × β)) :
    lastOr start (A ++ x :: B) = lastOr (some x.1) B := by
  rw [lastOr_append]
  rfl

theorem headOr_eq_none_iff : headOr none l = none ↔ l = [] := by
  cases l with
  | nil => exact ⟨fun _ => rfl, fun _ => rfl⟩
  | cons x l =>
    refine iff_of_false ?_ (List.cons_ne_nil x l)
    intro h
    cases h

theorem lastOr_eq_none_iff : lastOr none l = none ↔ l = [] := by
  have hsome : ∀ (l : List (ℕ × β)) (a : ℕ), lastOr (some a) l ≠ none := by
    intro l
    induction l with
    | nil =>
      intro a h
      cases h
    | cons x l ih => exact fun a => ih x.1
  cases l with
  | nil => exact ⟨fun _ => rfl, fun _ => rfl⟩
  | cons x l => exact iff_of_false (hsome l x.1) (List.cons_ne_nil x l)

theorem lastOr_cases (p : Option ℕ) (l : List (ℕ × β)) : (l = [] ∧ lastOr p l = p) ∨
    ∃ A x, l = A ++ [x] ∧ lastOr p l = some x.1 := by
  rcases List.eq_nil_or_concat l with rfl | ⟨A, x, rfl⟩
  · exact .inl ⟨rfl, rfl⟩
  · refine .inr ⟨A, x, by rw [List.concat_eq_append], ?_⟩
    rw [List.concat_eq_append, lastOr_append]
    rfl

/-! ## Chains -/

theorem linked_append : Linked h p (A ++ B) n ↔ Linked h p A (headOr n B) ∧ Linked h (lastOr p A) B n := by
  induction A generalizing p with
  | nil => exact ⟨fun hB => ⟨trivial, hB⟩, fun hB => hB.2⟩
  | cons x A ih =>
    rw [List.cons_append, Linked, Linked, ih, headOr_append, and_assoc]
    rfl

theorem Linked.congr (hl : Linked h p l n) (hoff : ∀ a ∈ addresses l, h' a = h a) : Linked h' p l n := by
  induction l generalizing p with
  | nil => trivial
  | cons x l ih =>
    rw [addresses, List.map_cons, List.forall_mem_cons] at hoff
    exact ⟨hoff.1.trans hl.1, ih hl.2 hoff.2⟩

variable {a b : ℕ} {v : Option ℕ}

theorem Linked.update_off (hl : Linked h p l n) (ha : a ∉ addresses l) (v : Option (Node β)) :
    Linked (Function.update h a v) p l n := by
  refine hl.congr fun b hb => ?_
  rw [Function.update_of_ne]
  rintro rfl
  exact ha hb

theorem Linked.node (hl : Linked h p (A ++ x :: B) n) :
    h x.1 = some ⟨x.2, headOr n B, lastOr p A⟩ := (linked_append.mp hl).2.1

theorem Linked.live (hl : Linked h p l n) (ha : a ∈ addresses l) : ∃ node, h a = some node := by
  obtain ⟨x, hx, rfl⟩ := List.mem_map.mp ha
  obtain ⟨A, B, rfl⟩ := List.append_of_mem hx
  exact ⟨_, hl.node⟩

/-- In a chain the links back are the links forward, turned round. -/
theorem Linked.next_iff_previous (hl : Linked h none l none) (ha : a ∈ addresses l) (hb : b ∈ addresses l) :
    (∃ node, h a = some node ∧ node.next = some b) ↔ ∃ node, h b = some node ∧ node.previous = some a := by
  constructor
  · rintro ⟨node, hnode, hnext⟩
    obtain ⟨x, hx, rfl⟩ := List.mem_map.mp ha
    obtain ⟨A, B, rfl⟩ := List.append_of_mem hx
    rw [hl.node] at hnode
    cases hnode
    cases B with
    | nil => cases hnext
    | cons y B =>
      cases hnext
      rw [List.append_cons] at hl
      exact ⟨_, hl.node, lastOr_middle none A x []⟩
  · rintro ⟨node, hnode, hprevious⟩
    obtain ⟨y, hy, rfl⟩ := List.mem_map.mp hb
    obtain ⟨A, B, rfl⟩ := List.append_of_mem hy
    rw [hl.node] at hnode
    cases hnode
    obtain ⟨rfl, hnone⟩ | ⟨A, x, rfl, hlast⟩ := lastOr_cases none A
    · cases hprevious
    · cases hlast.symm.trans hprevious
      rw [← List.append_cons] at hl
      exact ⟨_, hl.node, rfl⟩

/-! ## New links -/

/-- `a->next = v` -/
def setNext (h : ℕ → Option (Node β)) (a : ℕ) (v : Option ℕ) : ℕ → Option (Node β) :=
  Function.update h a ((h a).map fun node => { node with next := v })

/-- `a->previous = v` -/
def setPrevious (h : ℕ → Option (Node β)) (a : ℕ) (v : Option ℕ) : ℕ → Option (Node β) :=
  Function.update h a ((h a).map fun node => { node with previous := v })

/-- `if (o) o->next = v` -/
def setNextOf (h : ℕ → Option (Node β)) (o v : Option ℕ) : ℕ → Option (Node β) :=
  match o with
  | none => h
  | some a => setNext h a v

/-- `if (o) o->previous = v` -/
def setPreviousOf (h : ℕ → Option (Node β)) (o v : Option ℕ) : ℕ → Option (Node β) :=
  match o with
  | none => h
  | some a => setPrevious h a v

theorem setNext_live {node : Node β} (hnode : h b = some node) : ∃ node', setNext h a v b = some node' := by
  unfold setNext
  by_cases hab : b = a
  · subst hab
    rw [Function.update_self, hnode]
    exact ⟨_, rfl⟩
  · rw [Function.update_of_ne hab]
    exact ⟨node, hnode⟩

theorem setPrevious_live {node : Node β} (hnode : h b = some node) :
    ∃ node', setPrevious h a v b = some node' := by
  unfold setPrevious
  by_cases hab : b = a
  · subst hab
    rw [Function.update_self, hnode]
    exact ⟨_, rfl⟩
  · rw [Function.update_of_ne hab]
    exact ⟨node, hnode⟩

theorem setNext_setPrevious (h : ℕ → Option (Node β)) (a b : ℕ) (v w : Option ℕ) :
    setNext (setPrevious h a v) b w = setPrevious (setNext h b w) a v := by
  unfold setNext setPrevious
  by_cases hab : b = a
  · subst hab
    rw [Function.update_self, Function.update_self, Function.update_idem, Function.update_idem, Option.map_map,
      Option.map_map]
    rfl
  · rw [Function.update_of_ne hab, Function.update_of_ne (Ne.symm hab), Function.update_comm hab]

theorem setNextOf_off {o : Option ℕ} (ha : o ≠ some a) : setNextOf h o v a = h a := by
  cases o with
  | none => rfl
  | some b =>
    rw [setNextOf, setNext, Function.update_of_ne]
    rintro rfl
    exact ha rfl

theorem setPreviousOf_off {o : Option ℕ} (ha : o ≠ some a) : setPreviousOf h o v a = h a := by
  cases o with
  | none => rfl
  | some b =>
    rw [setPreviousOf, setPrevious, Function.update_of_ne]
    rintro rfl
    exact ha rfl

theorem headOr_mem (ha : headOr none l = some a) : a ∈ addresses l := by
  cases l with
  | nil => cases ha
  | cons x l =>
    cases ha
    exact List.mem_cons_self

theorem lastOr_mem (ha : lastOr none l = some a) : a ∈ addresses l := by
  obtain ⟨rfl, _⟩ | ⟨A, x, rfl, hx⟩ := lastOr_cases none l
  · cases ha
  · rw [hx] at ha
    cases ha
    exact List.mem_map_of_mem (List.mem_append_right _ List.mem_cons_self)

theorem Linked.relink_next (hl : Linked h p l n) (hnd : (addresses l).Nodup) (v : Option ℕ) :
    Linked (setNextOf h (lastOr none l) v) p l v := by
  obtain ⟨rfl, _⟩ | ⟨A, x, rfl, hx⟩ := lastOr_cases none l
  · trivial
  · rw [hx, linked_append] at *
    rw [addresses, List.map_append, List.nodup_append] at hnd
    obtain ⟨hA, hlast, _⟩ := hl
    refine ⟨hA.update_off ?_ _, ?_, trivial⟩
    · exact fun hmem => hnd.2.2 _ hmem _ List.mem_cons_self rfl
    · rw [setNextOf, setNext, Function.update_self, hlast]
      rfl

theorem Linked.relink_previous (hl : Linked h p l n) (hnd : (addresses l).Nodup) (v : Option ℕ) :
    Linked (setPreviousOf h (headOr none l) v) v l n := by
  cases l with
  | nil => trivial
  | cons x l =>
    rw [addresses, List.map_cons, List.nodup_cons] at hnd
    refine ⟨?_, hl.2.update_off hnd.1 _⟩
    show setPrevious h x.1 v x.1 = _
    rw [setPrevious, Function.update_self, hl.1]
    rfl

/-! ## Nodes in and out -/

/-- A node between the two parts of a chain. -/
def linkIn (h : ℕ → Option (Node β)) (a : ℕ) (payload : β) (previous next : Option ℕ) : ℕ → Option (Node β) :=
  setPreviousOf (setNextOf (Function.update h a (some ⟨payload, next, previous⟩)) previous (some a)) next (some a)

/-- The neighbours of a node linked to each other. -/
def unlink (h : ℕ → Option (Node β)) (previous next : Option ℕ) : ℕ → Option (Node β) :=
  setNextOf (setPreviousOf h next previous) previous next

theorem nodup_parts (hnd : (addresses (A ++ B)).Nodup) : (addresses A).Nodup ∧ (addresses B).Nodup ∧
    ∀ a ∈ addresses A, a ∉ addresses B := by
  rw [addresses, List.map_append, List.nodup_append] at hnd
  exact ⟨hnd.1, hnd.2.1, fun a ha hb => hnd.2.2 a ha a hb rfl⟩

theorem linkIn_off {payload : β} (hab : b ≠ a) (hp : p ≠ some b) (hn : n ≠ some b) :
    linkIn h a payload p n b = h b := by
  rw [linkIn, setPreviousOf_off hn, setNextOf_off hp, Function.update_of_ne hab]

theorem unlink_off (hp : p ≠ some b) (hn : n ≠ some b) : unlink h p n b = h b := by
  rw [unlink, setNextOf_off hp, setPreviousOf_off hn]

theorem linked_linkIn (hl : Linked h none (A ++ B) none) (hnd : (addresses (A ++ B)).Nodup) (payload : β)
    (ha : a ∉ addresses (A ++ B)) :
    Linked (linkIn h a payload (lastOr none A) (headOr none B)) none (A ++ (a, payload) :: B) none := by
  obtain ⟨hndA, hndB, hAB⟩ := nodup_parts hnd
  obtain ⟨hA, hB⟩ := linked_append.mp hl
  rw [addresses, List.map_append, List.mem_append, not_or] at ha
  have hlast : ∀ b ∈ addresses B, lastOr none A ≠ some b := fun b hb h => hAB b (lastOr_mem h) hb
  have hhead : ∀ b ∈ addresses A, headOr none B ≠ some b := fun b hb h => hAB b hb (headOr_mem h)
  rw [linked_append]
  refine ⟨?_, ?_, ?_⟩
  · -- the first part gets a new successor
    have hA' := (hA.update_off ha.1 (some ⟨payload, headOr none B, lastOr none A⟩)).relink_next hndA (some a)
    exact hA'.congr fun b hb => setPreviousOf_off (hhead b hb)
  · rw [linkIn, setPreviousOf_off fun h => ha.2 (headOr_mem h), setNextOf_off fun h => ha.1 (lastOr_mem h),
      Function.update_self]
  · have hB' := (hB.update_off ha.2 (some ⟨payload, headOr none B, lastOr none A⟩)).congr fun b hb =>
      setNextOf_off (v := some a) (hlast b hb)
    exact hB'.relink_previous hndB (some a)

theorem linked_unlink (hl : Linked h none (A ++ x :: B) none) (hnd : (addresses (A ++ x :: B)).Nodup) :
    Linked (unlink h (lastOr none A) (headOr none B)) none (A ++ B) none := by
  obtain ⟨hndA, hndB, hAB⟩ := nodup_parts hnd
  obtain ⟨hA, _, hB⟩ := linked_append.mp hl
  rw [addresses, List.map_cons, List.nodup_cons] at hndB
  have hlast : ∀ b ∈ addresses B, lastOr none A ≠ some b := fun b hb h =>
    hAB b (lastOr_mem h) (List.mem_cons_of_mem _ hb)
  have hhead : ∀ b ∈ addresses A, headOr none B ≠ some b := fun b hb h =>
    hAB b hb (List.mem_cons_of_mem _ (headOr_mem h))
  rw [linked_append]
  refine ⟨?_, ?_⟩
  · have hA' := hA.congr fun b hb => setPreviousOf_off (v := lastOr none A) (hhead b hb)
    exact hA'.relink_next hndA (headOr none B)
  · have hB' := hB.relink_previous hndB.2 (lastOr none A)
    exact hB'.congr fun b hb => setNextOf_off (hlast b hb)

end Chain
end Libntech.Lib
