import Libntech.Containers.LinkedListHeap

/-! # The operations on chains

What each operation of `list.c` does to a memory in which the chains are as they should be. A list that shares its
chain is detached first, and the rest of the operation then works on a list with a chain of its own: so the node
that goes in or out is described for such a list only.
-/
namespace Libntech.Containers.LinkedList
open Lib Lib.Chain
set_option autoImplicit false

variable {α : Type} {fns : ListFns α} {junk : ℕ → Payload α} {m m' : Memory α} {l : ℕ} {list list' : SharedList}
  {chain : ℕ → List (ℕ × Payload α)} {A B : List (ℕ × Payload α)} {x : ℕ × Payload α} {payload : Payload α}

/-! ## A node goes in -/

structure Inserted (m m' : Memory α) (l : ℕ) (list list' : SharedList) (A B : List (ℕ × Payload α))
    (payload : Payload α) : Prop where
  nodes : m'.nodes = linkIn m.nodes m.fresh payload (lastOr none A) (headOr none B)
  lists : m'.lists = Function.update m.lists l (some list')
  refCount : list'.refCount = list.refCount
  iterator : list'.iterator = list.iterator
  state : list'.state = list.state
  shape : Shape list' (A ++ (m.fresh, payload) :: B)
  refCounts : m'.refCounts = m.refCounts
  iterators : m'.iterators = m.iterators
  mutableIterators : m'.mutableIterators = m.mutableIterators
  fresh : m'.fresh = m.fresh + 1

theorem Inserted.edits (h : WellFormed m chain) (hc : chain list.refCount = A ++ B)
    (hi : Inserted m m' l list list' A B payload) :
    Edits m m' l list list' (chain list.refCount) (A ++ (m.fresh, payload) :: B) := by
  have hfresh := h.fresh_not_mem list.refCount
  have hlinked := h.chains.linked list.refCount
  have hnodup := h.chains.nodup list.refCount
  rw [hc] at hfresh hlinked hnodup
  have hperm : (addresses (A ++ (m.fresh, payload) :: B)).Perm (m.fresh :: addresses (A ++ B)) := by
    unfold addresses
    rw [List.map_append, List.map_append, List.map_cons]
    exact List.perm_middle
  refine
    { lists := hi.lists, refCount := hi.refCount, iterator := hi.iterator, shape := hi.shape
      refCounts := hi.refCounts, iterators := hi.iterators, origins := fun i => by rw [origins, hi.mutableIterators]; rfl
      linked := ?_, nodup := ?_, fresh_le := by rw [hi.fresh]; exact Nat.le_succ _, off := fun a ha hnot => ?_
      from_old := fun a ha => ?_ }
  · rw [hi.nodes]
    exact linked_linkIn hlinked hnodup payload hfresh
  · exact hperm.nodup_iff.mpr (List.nodup_cons.mpr ⟨hfresh, hnodup⟩)
  · rw [hc, addresses_append, List.mem_append, not_or] at hnot
    rw [hi.nodes]
    exact linkIn_off (Nat.ne_of_lt ha) (fun h => hnot.1 (lastOr_mem h)) (fun h => hnot.2 (headOr_mem h))
  · rw [hperm.mem_iff, List.mem_cons] at ha
    rw [hc, hi.fresh]
    obtain rfl | ha := ha
    · exact .inr ⟨Nat.le_refl _, Nat.lt_succ_self _⟩
    · exact .inl ha

variable {a i : ℕ} {it iterator : ListMutableIterator} {o : Option ℕ} {b : Bool}

theorem newNode_live (h : WellFormed m chain) {r : ℕ} (ha : a ∈ addresses (chain r)) (payload : Payload α)
    (next previous : Option ℕ) : ∃ node, (m.newNode payload next previous).2.nodes a = some node := by
  obtain ⟨node, hnode⟩ := (h.chains.linked r).live ha
  refine ⟨node, (Function.update_of_ne ?_ _ _).trans hnode⟩
  exact Nat.ne_of_lt (h.chains.bounded r a ha)

/-- There is room for another node in the count of the list. -/
def HasRoom (list : SharedList) : Prop := list.nodeCount < 2147483647

theorem HasRoom.countUp (h : HasRoom list) : countUp list.nodeCount = some (list.nodeCount + 1) := if_pos h

theorem countUp_full (h : ¬ HasRoom list) : countUp list.nodeCount = none := if_neg h

theorem listPrepend_own (junk : ℕ → Payload α) (h : WellFormed m chain) (hl : m.lists l = some list) (hown : ¬ Shared m l)
    (hroom : HasRoom list) (payload : Payload α) : ∃ m' list', listPrepend junk m l payload = some m' ∧
      Inserted m m' l list list' [] (chain list.refCount) payload := by
  have hs := h.shape l list hl
  have hlive := h.chains.linked list.refCount
  unfold listPrepend
  simp only [listDetach_own h hl hown, hl, hs.list, hroom.countUp, Option.bind_eq_bind, Option.bind_some]
  cases hc : chain list.refCount with
  | nil =>
    rw [hc] at hs
    refine ⟨_, _, rfl, ⟨rfl, rfl, rfl, rfl, rfl, ⟨rfl, rfl, rfl, ?_⟩, rfl, rfl, rfl, rfl⟩⟩
    show list.nodeCount + 1 = _
    rw [hs.count]
    rfl
  | cons x c =>
    have hx : x.1 ∈ addresses (chain list.refCount) := by
      rw [hc]
      exact List.mem_cons_self
    rw [hc] at hs
    simp only [headOr, storePrevious_live (newNode_live h hx payload _ _), Option.bind_some]
    refine ⟨_, _, rfl, ⟨rfl, rfl, rfl, rfl, rfl, ⟨rfl, rfl, ?_, ?_⟩, rfl, rfl, rfl, rfl⟩⟩
    · show list.last = _
      rw [hs.last]
      rfl
    · show list.nodeCount + 1 = _
      rw [hs.count, List.nil_append, List.length_cons, List.length_cons, List.length_cons]
      omega

theorem listAppend_own (junk : ℕ → Payload α) (h : WellFormed m chain) (hl : m.lists l = some list) (hown : ¬ Shared m l)
    (hroom : HasRoom list) (payload : Payload α) : ∃ m' list', listAppend junk m l payload = some m' ∧
      Inserted m m' l list list' (chain list.refCount) [] payload := by
  have hs := h.shape l list hl
  unfold listAppend
  simp only [listDetach_own h hl hown, hl, hs.last, hroom.countUp, Option.bind_eq_bind, Option.bind_some]
  obtain ⟨hc, hlast⟩ | ⟨c, x, hc, hlast⟩ := lastOr_cases none (chain list.refCount)
  · rw [hc] at hs
    simp only [hc, lastOr]
    refine ⟨_, _, rfl, ⟨rfl, rfl, rfl, rfl, rfl, ⟨rfl, rfl, rfl, ?_⟩, rfl, rfl, rfl, rfl⟩⟩
    show list.nodeCount + 1 = _
    rw [hs.count]
    rfl
  · have hx : x.1 ∈ addresses (chain list.refCount) := lastOr_mem hlast
    have hhead : ∀ C, headOr none (chain list.refCount) = headOr none (chain list.refCount ++ C) := by
      intro C
      have hne : chain list.refCount ≠ [] := by simp [hc]
      rw [← headOr_append_congr hne [] C, List.append_nil]
    simp only [hlast, storeNext_live (newNode_live h hx payload _ _), Option.bind_some]
    refine ⟨_, _, rfl, ⟨by rw [hlast]; rfl, rfl, rfl, rfl, rfl, ⟨?_, ?_, ?_, ?_⟩, rfl, rfl, rfl, rfl⟩⟩
    · exact hs.list.trans (hhead [(m.fresh, payload)])
    · exact hs.first.trans (hhead [(m.fresh, payload)])
    · rw [lastOr_middle]
      rfl
    · show list.nodeCount + 1 = _
      rw [hs.count, List.length_append, List.length_singleton]
      omega

/-- Where a mutable iterator stands on the chain of its list. -/
structure Stands (m : Memory α) (chain : ℕ → List (ℕ × Payload α)) (i l : ℕ) (it : ListMutableIterator)
    (s : SharedList) (A : List (ℕ × Payload α)) (x : ℕ × Payload α) (B : List (ℕ × Payload α)) : Prop where
  live : m.mutableIterators i = some it
  valid : it.valid = true
  origin : it.origin = l
  list : m.lists l = some s
  split : chain s.refCount = A ++ x :: B
  current : it.current = some x.1

theorem Stands.node (h : WellFormed m chain) (hi : Stands m chain i l iterator list A x B) :
    m.nodes x.1 = some ⟨x.2, headOr none B, lastOr none A⟩ := by
  have hlinked := h.chains.linked list.refCount
  rw [hi.split] at hlinked
  exact hlinked.node

theorem Stands.mem_here (hi : Stands m chain i l iterator list A x B) :
    x.1 ∈ addresses (chain list.refCount) := by
  rw [hi.split]
  exact List.mem_map_of_mem (List.mem_append_right _ List.mem_cons_self)

theorem Stands.mem_previous (hi : Stands m chain i l iterator list A x B) (ha : lastOr none A = some a) :
    a ∈ addresses (chain list.refCount) := by
  rw [hi.split, addresses_append]
  exact List.mem_append_left _ (lastOr_mem ha)

theorem Stands.mem_next (hi : Stands m chain i l iterator list A x B) (ha : headOr none B = some a) :
    a ∈ addresses (chain list.refCount) := by
  rw [hi.split, addresses_append]
  exact List.mem_append_right _ (List.mem_cons_of_mem _ (headOr_mem ha))

theorem listMutableIteratorPrepend_own (junk : ℕ → Payload α) (h : WellFormed m chain)
    (hi : Stands m chain i l iterator list A x B) (hown : ¬ Shared m l) (hroom : HasRoom list) (payload : Payload α) :
    ∃ m' list', listMutableIteratorPrepend junk m i payload = some (m', true) ∧
      Inserted m m' l list list' A (x :: B) payload := by
  have hs := h.shape l list hi.list
  rw [hi.split] at hs
  unfold listMutableIteratorPrepend
  simp only [hi.live, hi.valid, hi.origin, listDetach_own h hi.list hown, hi.current, hi.node h, hi.list,
    hroom.countUp, Option.bind_eq_bind, Option.bind_some, if_true]
  obtain ⟨rfl, -⟩ | ⟨A, y, rfl, hlast⟩ := lastOr_cases none A
  · simp only [lastOr, storePrevious_live (newNode_live h hi.mem_here payload _ _), Option.bind_some]
    refine ⟨_, _, rfl, ⟨rfl, rfl, rfl, rfl, rfl, ⟨rfl, rfl, ?_, ?_⟩, rfl, rfl, rfl, rfl⟩⟩
    · show list.last = _
      rw [hs.last]
      rfl
    · show list.nodeCount + 1 = _
      rw [hs.count, List.nil_append, List.nil_append, List.length_cons, List.length_cons, List.length_cons]
      omega
  · have hprevious : ∃ node, (m.newNode payload (some x.1) (some y.1)).2.nodes y.1 = some node :=
      newNode_live h (hi.mem_previous hlast) payload _ _
    have hcurrent :
        ∃ node, setNext (m.newNode payload (some x.1) (some y.1)).2.nodes y.1 (some m.fresh) x.1 = some node := by
      obtain ⟨node, hnode⟩ := newNode_live h hi.mem_here payload (some x.1) (some y.1)
      exact setNext_live hnode
    simp only [hlast, storeNext_live hprevious, Option.bind_some]
    rw [storePrevious_live hcurrent, Option.bind_some]
    refine ⟨_, _, rfl, ⟨by rw [hlast]; rfl, rfl, rfl, rfl, rfl, ⟨?_, ?_, ?_, ?_⟩, rfl, rfl, rfl, rfl⟩⟩
    · exact hs.list.trans (headOr_append_congr (by simp) _ _)
    · exact hs.first.trans (headOr_append_congr (by simp) _ _)
    · rw [lastOr_middle]
      exact hs.last.trans (lastOr_middle none _ x B)
    · show list.nodeCount + 1 = _
      rw [hs.count]
      simp only [List.length_append, List.length_cons]
      omega

theorem listMutableIteratorAppend_own (junk : ℕ → Payload α) (h : WellFormed m chain)
    (hi : Stands m chain i l iterator list A x B) (hown : ¬ Shared m l) (hroom : HasRoom list) (payload : Payload α) :
    ∃ m' list', listMutableIteratorAppend junk m i payload = some (m', true) ∧
      Inserted m m' l list list' (A ++ [x]) B payload := by
  have hs := h.shape l list hi.list
  rw [hi.split] at hs
  have hlast : lastOr none (A ++ [x]) = some x.1 := lastOr_middle none A x []
  have hhead : ∀ C, headOr none (A ++ x :: B) = headOr none (A ++ [x] ++ C) := by
    intro C
    rw [List.append_cons]
    exact headOr_append_congr (by simp) _ _
  have hcount : ∀ p, list.nodeCount + 1 = (A ++ [x] ++ (m.fresh, p) :: B).length := by
    intro p
    rw [hs.count]
    simp only [List.length_append, List.length_cons, List.length_nil]
    omega
  unfold listMutableIteratorAppend
  simp only [hi.live, hi.valid, hi.origin, listDetach_own h hi.list hown, hi.current, hi.node h, hi.list,
    hroom.countUp, Option.bind_eq_bind, Option.bind_some, if_true]
  cases B with
  | nil =>
    simp only [headOr, storeNext_live (newNode_live h hi.mem_here payload _ _), Option.bind_some]
    refine ⟨_, _, rfl, ⟨by rw [hlast]; rfl, rfl, rfl, rfl, rfl, ⟨?_, ?_, ?_, hcount payload⟩, rfl, rfl, rfl, rfl⟩⟩
    · exact hs.list.trans (hhead _)
    · exact hs.first.trans (hhead _)
    · rw [lastOr_middle]
      rfl
  | cons y B =>
    have hnext : ∃ node, (m.newNode payload (some y.1) (some x.1)).2.nodes y.1 = some node :=
      newNode_live h (hi.mem_next rfl) payload _ _
    have hcurrent : ∃ node,
        setPrevious (m.newNode payload (some y.1) (some x.1)).2.nodes y.1 (some m.fresh) x.1 = some node := by
      obtain ⟨node, hnode⟩ := newNode_live h hi.mem_here payload (some y.1) (some x.1)
      exact setPrevious_live hnode
    simp only [headOr, storePrevious_live hnext, Option.bind_some]
    rw [storeNext_live hcurrent, Option.bind_some]
    refine ⟨_, _, rfl, ⟨?_, rfl, rfl, rfl, rfl, ⟨?_, ?_, ?_, hcount payload⟩, rfl, rfl, rfl, rfl⟩⟩
    · rw [hlast]
      exact setNext_setPrevious _ _ _ _ _
    · exact hs.list.trans (hhead _)
    · exact hs.first.trans (hhead _)
    · rw [lastOr_middle]
      exact hs.last.trans (lastOr_middle none A x _)

/-! ## A node goes out -/

structure Removed (m m' : Memory α) (l : ℕ) (list list' : SharedList) (A : List (ℕ × Payload α)) (x : ℕ × Payload α)
    (B : List (ℕ × Payload α)) : Prop where
  nodes : m'.nodes = Function.update (unlink m.nodes (lastOr none A) (headOr none B)) x.1 none
  lists : m'.lists = Function.update m.lists l (some list')
  refCount : list'.refCount = list.refCount
  iterator : list'.iterator = list.iterator
  state : list'.state = list.state + 1
  shape : Shape list' (A ++ B)
  refCounts : m'.refCounts = m.refCounts
  iterators : m'.iterators = m.iterators
  origins : ∀ i, LinkedList.origins m' i = LinkedList.origins m i
  others : ∀ i, list.iterator ≠ some i → m'.mutableIterators i = m.mutableIterators i
  -- the iterator of the list does not stay at the node
  moved : ∀ i it', list.iterator = some i → m'.mutableIterators i = some it' → it'.valid = true →
    (∃ it, m.mutableIterators i = some it ∧ it.valid = true ∧ it'.current = it.current ∧ it.current ≠ some x.1) ∨
      ∃ a ∈ addresses (A ++ B), it'.current = some a
  fresh : m'.fresh = m.fresh

theorem Removed.edits (h : WellFormed m chain) (hc : chain list.refCount = A ++ x :: B)
    (hr : Removed m m' l list list' A x B) : Edits m m' l list list' (chain list.refCount) (A ++ B) := by
  have hlinked := h.chains.linked list.refCount
  have hnodup := h.chains.nodup list.refCount
  rw [hc] at hlinked hnodup
  have hperm : (addresses (A ++ x :: B)).Perm (x.1 :: addresses (A ++ B)) := by
    unfold addresses
    rw [List.map_append, List.map_append, List.map_cons]
    exact List.perm_middle
  have hnd := hperm.nodup_iff.mp hnodup
  rw [List.nodup_cons] at hnd
  refine
    { lists := hr.lists, refCount := hr.refCount, iterator := hr.iterator, shape := hr.shape
      refCounts := hr.refCounts, iterators := hr.iterators, origins := hr.origins, linked := ?_, nodup := hnd.2
      fresh_le := Nat.le_of_eq hr.fresh.symm, off := fun a _ hnot => ?_
      from_old := fun a ha => .inl ?_ }
  · rw [hr.nodes]
    exact (linked_unlink hlinked hnodup).update_off hnd.1 none
  · rw [hc, hperm.mem_iff, List.mem_cons, not_or, addresses_append, List.mem_append, not_or] at hnot
    rw [hr.nodes, Function.update_of_ne hnot.1]
    exact unlink_off (fun h => hnot.2.1 (lastOr_mem h)) (fun h => hnot.2.2 (headOr_mem h))
  · rw [hc, hperm.mem_iff]
    exact List.mem_cons_of_mem _ ha

/-- The pointers of a list without the node between `A` and `B`. -/
def SharedList.without (list : SharedList) (A B : List (ℕ × Payload α)) : SharedList :=
  { list with list := headOr none (A ++ B), first := headOr none (A ++ B), last := lastOr none (A ++ B) }

theorem unlinkNode_eq (hl : m.lists l = some list) (hs : Shape list (A ++ x :: B))
    (hlive : ∀ a ∈ addresses (A ++ x :: B), ∃ node, m.nodes a = some node) :
    unlinkNode m l ⟨x.2, headOr none B, lastOr none A⟩ = some { m with
      nodes := unlink m.nodes (lastOr none A) (headOr none B)
      lists := Function.update m.lists l (some (list.without A B)) } := by
  obtain ⟨count, state, o, first, last, ref, iterator⟩ := list
  obtain ⟨rfl, rfl, rfl, -⟩ := hs
  rw [addresses, List.map_append, List.map_cons, List.forall_mem_append, List.forall_mem_cons] at hlive
  unfold unlinkNode SharedList.without
  simp only [hl, Option.bind_eq_bind, Option.bind_some]
  cases B with
  | nil =>
    obtain ⟨rfl, -⟩ | ⟨A, z, rfl, hlast⟩ := lastOr_cases none A
    · rfl
    · obtain ⟨node, hz⟩ := hlive.1 z.1 (List.mem_map_of_mem (List.mem_append_right _ List.mem_cons_self))
      have hhead := headOr_append_congr (A := A ++ [z]) (by simp) [x] []
      simp only [headOr_nil, hlast, hhead, List.append_nil]
      exact storeNext_live ⟨node, hz⟩
  | cons y B =>
    obtain ⟨nodeY, hy⟩ := hlive.2.2 y.1 List.mem_cons_self
    obtain ⟨rfl, -⟩ | ⟨A, z, rfl, hlast⟩ := lastOr_cases none A
    · exact storePrevious_live ⟨nodeY, hy⟩
    · obtain ⟨node, hz⟩ := hlive.1 z.1 (List.mem_map_of_mem (List.mem_append_right _ List.mem_cons_self))
      have hhead := headOr_append_congr (A := A ++ [z]) (by simp) (x :: y :: B) (y :: B)
      simp only [headOr_cons, hlast]
      rw [storePrevious_live ⟨nodeY, hy⟩, Option.bind_some, storeNext_live (setPrevious_live hz)]
      rw [lastOr_middle, lastOr, ← lastOr_middle none (A ++ [z])] at hl
      rw [← hhead, Function.update_eq_self_iff.mpr hl.symm]
      rfl

theorem listUpdateListState_eq {s : SharedList} (hl : m.lists l = some s) (hcount : 0 < s.nodeCount) :
    listUpdateListState m l = some (m.setList l { s with nodeCount := s.nodeCount - 1, state := s.state + 1 }) := by
  have hdown : countDown s.nodeCount = some (s.nodeCount - 1) := if_pos (by omega)
  rw [listUpdateListState, hl]
  simp only [hdown, Option.bind_eq_bind, Option.bind_some]
  rfl

theorem Shape.count_pos (hs : Shape list (A ++ x :: B)) : 0 < list.nodeCount := by
  rw [hs.count, List.length_append, List.length_cons]
  omega

/-- The list that is left when a node has gone. -/
def SharedList.shortened (list : SharedList) (A B : List (ℕ × Payload α)) : SharedList :=
  { list.without A B with nodeCount := list.nodeCount - 1, state := list.state + 1 }

theorem Shape.shortened (hs : Shape list (A ++ x :: B)) : Shape (list.shortened A B) (A ++ B) := by
  refine ⟨rfl, rfl, rfl, ?_⟩
  show list.nodeCount - 1 = _
  rw [hs.count]
  simp only [List.length_append, List.length_cons]
  omega

theorem target_mem (ha : (headOr none B).or (lastOr none A) = some a) : a ∈ addresses (A ++ B) := by
  rw [addresses_append]
  cases hB : headOr none B with
  | none =>
    rw [hB, Option.none_or] at ha
    exact List.mem_append_left _ (lastOr_mem ha)
  | some b =>
    rw [hB, Option.some_or] at ha
    exact List.mem_append_right _ (headOr_mem (hB.trans ha))

/-- The iterator once the node `x` between `A` and `B` has gone. -/
def ListMutableIterator.movedOff (it : ListMutableIterator) (A : List (ℕ × Payload α)) (x : ℕ × Payload α)
    (B : List (ℕ × Payload α)) : ListMutableIterator :=
  if it.current = some x.1 then
    match (headOr none B).or (lastOr none A) with
    | some target => { it with current := some target }
    | none => { it with valid := false }
  else it

theorem movedOff_origin (it : ListMutableIterator) : (it.movedOff A x B).origin = it.origin := by
  unfold ListMutableIterator.movedOff
  split
  · cases (headOr none B).or (lastOr none A) with
    | some target => rfl
    | none => rfl
  · rfl

theorem movedOff_stays (hi : m.mutableIterators i = some it) (hvalid : (it.movedOff A x B).valid = true) :
    (∃ it₁, m.mutableIterators i = some it₁ ∧ it₁.valid = true ∧ (it.movedOff A x B).current = it₁.current ∧
      it₁.current ≠ some x.1) ∨ ∃ a ∈ addresses (A ++ B), (it.movedOff A x B).current = some a := by
  unfold ListMutableIterator.movedOff at hvalid ⊢
  by_cases hcurrent : it.current = some x.1
  · rw [if_pos hcurrent] at hvalid ⊢
    cases htarget : (headOr none B).or (lastOr none A) with
    | some target => exact .inr ⟨target, target_mem htarget, rfl⟩
    | none =>
      rw [htarget] at hvalid
      cases hvalid
  · rw [if_neg hcurrent] at hvalid ⊢
    exact .inl ⟨it, hi, hvalid, rfl, hcurrent⟩

/-- The iterator of the list has moved off the node that has gone. -/
def MovesOff (m m' : Memory α) (list : SharedList) (A : List (ℕ × Payload α)) (x : ℕ × Payload α)
    (B : List (ℕ × Payload α)) : Prop :=
  ∀ i it, list.iterator = some i → m.mutableIterators i = some it → m'.mutableIterators i = some (it.movedOff A x B)

theorem Stands.live_all (h : WellFormed m chain) (hi : Stands m chain i l iterator list A x B) :
    ∀ a ∈ addresses (A ++ x :: B), ∃ node, m.nodes a = some node := by
  intro a ha
  rw [← hi.split] at ha
  exact (h.chains.linked list.refCount).live ha

theorem listMutableIteratorRemove_only (h : WellFormed m chain) (hi : Stands m chain i l iterator list [] x [])
    (hown : ¬ Shared m l) :
    listMutableIteratorRemove junk m i = some (m, false) := by
  unfold listMutableIteratorRemove
  simp only [hi.live, hi.valid, hi.origin, listDetach_own h hi.list hown, hi.current, hi.node h,
    Option.bind_eq_bind, Option.bind_some, if_true]
  rfl

theorem listMutableIteratorRemove_own (junk : ℕ → Payload α) (h : WellFormed m chain)
    (hi : Stands m chain i l iterator list A x B) (hown : ¬ Shared m l) (hmore : A ++ B ≠ []) :
    ∃ m' list', listMutableIteratorRemove junk m i = some (m', true) ∧ Removed m m' l list list' A x B ∧
      MovesOff m m' list A x B := by
  have hs := h.shape l list hi.list
  rw [hi.split] at hs
  have hcursor : list.iterator = some i := by
    rw [h.cursor l list i hi.list, origins, hi.live, Option.map_some, hi.origin]
  obtain ⟨target, htarget⟩ : ∃ target, (headOr none B).or (lastOr none A) = some target := by
    by_contra hnone
    rw [← Option.ne_none_iff_exists', not_not, Option.or_eq_none_iff, headOr_eq_none_iff, lastOr_eq_none_iff] at hnone
    exact hmore (by rw [hnone.1, hnone.2]; rfl)
  have hlive := hi.live_all h
  let m₁ : Memory α := { m with
    nodes := Function.update (unlink m.nodes (lastOr none A) (headOr none B)) x.1 none
    lists := Function.update m.lists l (some (list.without A B))
    mutableIterators := Function.update m.mutableIterators i (some ⟨true, some target, l⟩) }
  have hlist₁ : m₁.lists l = some (list.without A B) := Function.update_self ..
  have hself : m₁.mutableIterators i = some ⟨true, some target, l⟩ := Function.update_self ..
  refine ⟨m₁.setList l (list.shortened A B), list.shortened A B, ?_, ?_, fun j it hj hit => ?_⟩
  · unfold listMutableIteratorRemove
    simp only [hi.live, hi.valid, hi.origin, listDetach_own h hi.list hown, hi.current, hi.node h,
      Option.bind_eq_bind, Option.bind_some, if_true, htarget, unlinkNode_eq hi.list hs hlive]
    exact congrArg (Option.bind · fun m => some (m, true)) (listUpdateListState_eq hlist₁ hs.count_pos)
  · refine
      { nodes := rfl, lists := Function.update_idem .., refCount := rfl, iterator := rfl, state := rfl
        shape := hs.shortened, refCounts := rfl, iterators := rfl, origins := fun j => ?_, others := fun j hj => ?_
        moved := fun j it' hj hit' _ => .inr ⟨target, target_mem htarget, ?_⟩, fresh := rfl }
    · show (Function.update m.mutableIterators i _ j).map _ = _
      by_cases hji : j = i
      · subst hji
        rw [Function.update_self, origins, hi.live, Option.map_some, Option.map_some, hi.origin]
      · rw [Function.update_of_ne hji]
        rfl
    · refine Function.update_of_ne ?_ _ _
      rintro rfl
      exact hj hcursor
    · rw [hcursor] at hj
      cases hj
      cases hit'.symm.trans hself
      rfl
  · rw [hcursor] at hj
    cases hj
    cases hi.live.symm.trans hit
    refine hself.trans ?_
    rw [ListMutableIterator.movedOff, if_pos hi.current, htarget, ← hi.valid, ← hi.origin]

/-! ## ListRemove -/

/-- A payload that the first search finds. -/
def isFound (fns : ListFns α) (payload : ℕ × α) (p : Payload α) : Bool := (isMatch fns payload p).getD false

/-- The payloads without the one that the second search finds; it must not meet `NULL` before, if there is a
comparison function. -/
def dropMatch (fns : ListFns α) (payload : ℕ × α) : List (Payload α) → Option (List (Payload α))
  | [] => none
  | p :: ps => do
    let found ← isMatch fns payload p
    if found then some ps else (dropMatch fns payload ps).map (p :: ·)

theorem isMatch_some (fns : ListFns α) (payload q : ℕ × α) :
    isMatch fns payload (some q) = some (isFound fns payload (some q)) := by
  unfold isFound isMatch
  cases fns.compare with
  | none => rfl
  | some compare => rfl

theorem isFound_none (fns : ListFns α) (payload : ℕ × α) : isFound fns payload none = false := by
  unfold isFound isMatch
  cases fns.compare with
  | none => rfl
  | some compare => rfl

theorem listFindNode_eq (fns : ListFns α) (payload : ℕ × α) (c : List (ℕ × Payload α)) :
    ∀ (fuel : ℕ) (p : Option ℕ), c.length ≤ fuel → Linked m.nodes p c none →
      listFindNode fns m payload fuel (headOr none c) = some ((c.map Prod.snd).any (isFound fns payload)) := by
  induction c with
  | nil =>
    intro fuel p _ _
    rw [headOr, listFindNode]
    rfl
  | cons x c ih =>
    intro fuel p hfuel hlinked
    rw [List.length_cons] at hfuel
    obtain ⟨fuel, rfl⟩ : ∃ k, fuel = k + 1 := ⟨fuel - 1, by omega⟩
    have hrest := ih fuel (some x.1) (by omega) hlinked.2
    rw [headOr, listFindNode, hlinked.1, List.map_cons, List.any_cons]
    simp only [Option.bind_eq_bind, Option.bind_some, hrest]
    cases hx : x.2 with
    | none =>
      rw [isFound_none]
      rfl
    | some q =>
      rw [isMatch_some]
      cases isFound fns payload (some q) with
      | true => rfl
      | false => rfl

/-- The node `x` behind `A` is the first one that the second search finds. -/
def FirstMatch (fns : ListFns α) (payload : ℕ × α) (A : List (ℕ × Payload α)) (x : ℕ × Payload α) : Prop :=
  (∀ y ∈ A, isFound fns payload y.2 = false) ∧ isFound fns payload x.2 = true

theorem findAgain_spec (fns : ListFns α) (payload : ℕ × α) (c : List (ℕ × Payload α)) :
    ∀ (fuel : ℕ) (p : Option ℕ), c.length ≤ fuel → Linked m.nodes p c none →
      (findAgain fns m payload fuel (headOr none c) = none ∧ dropMatch fns payload (c.map Prod.snd) = none) ∨
        ∃ A x B, c = A ++ x :: B ∧ findAgain fns m payload fuel (headOr none c) = some x.1 ∧
          dropMatch fns payload (c.map Prod.snd) = some ((A ++ B).map Prod.snd) ∧ FirstMatch fns payload A x := by
  induction c with
  | nil =>
    intro fuel p _ _
    rw [headOr, findAgain]
    exact .inl ⟨rfl, rfl⟩
  | cons x c ih =>
    intro fuel p hfuel hlinked
    rw [List.length_cons] at hfuel
    obtain ⟨fuel, rfl⟩ : ∃ k, fuel = k + 1 := ⟨fuel - 1, by omega⟩
    rw [headOr, findAgain, hlinked.1, List.map_cons, dropMatch]
    simp only [Option.bind_eq_bind, Option.bind_some]
    cases hmatch : isMatch fns payload x.2 with
    | none => exact .inl ⟨rfl, rfl⟩
    | some found =>
      have hfound : isFound fns payload x.2 = found := by simp [isFound, hmatch]
      cases found with
      | true => exact .inr ⟨[], x, c, rfl, rfl, rfl, by simp, hfound⟩
      | false =>
        simp only [Option.bind_some, Bool.false_eq_true, if_false]
        obtain ⟨hnone, hdrop⟩ | ⟨A, y, B, rfl, hfind, hdrop, hbefore, hhere⟩ := ih fuel (some x.1) (by omega) hlinked.2
        · exact .inl ⟨hnone, by rw [hdrop]; rfl⟩
        · exact .inr ⟨x :: A, y, B, rfl, hfind, by rw [hdrop]; rfl, List.forall_mem_cons.mpr ⟨hfound, hbefore⟩, hhere⟩

/-- The iterator of the list, moved off the node `x`. -/
theorem moveIterator_spec (h : WellFormed m chain) (hl : m.lists l = some list) :
    ∃ its, moveIterator m list x.1 ⟨x.2, headOr none B, lastOr none A⟩ = some { m with mutableIterators := its } ∧
      (∀ i, (its i).map ListMutableIterator.origin = origins m i) ∧
      (∀ i, list.iterator ≠ some i → its i = m.mutableIterators i) ∧
      ∀ i it, list.iterator = some i → m.mutableIterators i = some it → its i = some (it.movedOff A x B) := by
  unfold moveIterator
  cases hcursor : list.iterator with
  | none => exact ⟨m.mutableIterators, rfl, fun _ => rfl, fun _ _ => rfl, fun _ _ h => by cases h⟩
  | some i =>
    have horigin := (h.cursor l list i hl).mp hcursor
    obtain ⟨it, hit, rfl⟩ := Option.map_eq_some_iff.mp horigin
    refine ⟨Function.update m.mutableIterators i (some (it.movedOff A x B)), ?_, fun j => ?_, fun j hj => ?_,
      fun j it' hj hit' => ?_⟩
    · have hself : m.setMutableIterator i it = m := by
        rw [Memory.setMutableIterator, Function.update_eq_self_iff.mpr hit.symm]
      simp only [hit, Option.bind_eq_bind, Option.bind_some]
      by_cases hcurrent : it.current = some x.1
      · rw [if_pos hcurrent, ListMutableIterator.movedOff, if_pos hcurrent]
        cases headOr none B with
        | some next => rfl
        | none =>
          cases lastOr none A with
          | some previous => rfl
          | none => rfl
      · rw [if_neg hcurrent, ListMutableIterator.movedOff, if_neg hcurrent]
        exact congrArg some hself.symm
    · by_cases hji : j = i
      · rw [hji, Function.update_self, horigin, Option.map_some, movedOff_origin]
      · rw [Function.update_of_ne hji]
        rfl
    · refine Function.update_of_ne ?_ _ _
      rintro rfl
      exact hj rfl
    · cases hj
      rw [hit] at hit'
      cases hit'
      exact Function.update_self ..

theorem removeAgain_own (fns : ListFns α) (h : WellFormed m chain) (hl : m.lists l = some list) (payload : ℕ × α) :
    (removeAgain fns m l payload = none ∧ dropMatch fns payload ((chain list.refCount).map Prod.snd) = none) ∨
      ∃ m' list' A x B, chain list.refCount = A ++ x :: B ∧ removeAgain fns m l payload = some m' ∧
        dropMatch fns payload ((chain list.refCount).map Prod.snd) = some ((A ++ B).map Prod.snd) ∧
        Removed m m' l list list' A x B ∧ MovesOff m m' list A x B ∧ FirstMatch fns payload A x := by
  have hs := h.shape l list hl
  have hlinked := h.chains.linked list.refCount
  have hfind := findAgain_spec (m := m) fns payload (chain list.refCount) m.fresh none (h.length_le _) hlinked
  rw [← hs.list] at hfind
  unfold removeAgain
  simp only [hl, Option.bind_eq_bind, Option.bind_some]
  obtain ⟨hnone, hdrop⟩ | ⟨A, x, B, hc, hsome, hdrop, hfirst⟩ := hfind
  · exact .inl ⟨by rw [hnone]; rfl, hdrop⟩
  · right
    have hlive : ∀ a ∈ addresses (A ++ x :: B), ∃ node, m.nodes a = some node := by
      intro a ha
      rw [← hc] at ha
      exact hlinked.live ha
    rw [hc] at hs hlinked
    obtain ⟨its, hmove, horigins, hothers, hmoved⟩ := moveIterator_spec (A := A) (x := x) (B := B) h hl
    let m₁ : Memory α := { m with
      nodes := Function.update (unlink m.nodes (lastOr none A) (headOr none B)) x.1 none
      lists := Function.update m.lists l (some (list.without A B))
      mutableIterators := its }
    have hlist₁ : m₁.lists l = some (list.without A B) := Function.update_self ..
    refine ⟨m₁.setList l (list.shortened A B), list.shortened A B, A, x, B, hc, ?_, hdrop, ?_, hmoved, hfirst⟩
    · have hunlink := unlinkNode_eq (m := { m with mutableIterators := its }) hl hs hlive
      simp only [hsome, hlinked.node, hmove, hunlink, Option.bind_some]
      exact listUpdateListState_eq hlist₁ hs.count_pos
    · refine
        { nodes := rfl, lists := Function.update_idem .., refCount := rfl, iterator := rfl, state := rfl
          shape := hs.shortened, refCounts := rfl, iterators := rfl, origins := horigins, others := hothers
          moved := fun i it' hi hit' hvalid => ?_, fresh := rfl }
      obtain ⟨it, hit, -⟩ := Option.map_eq_some_iff.mp ((h.cursor l list i hl).mp hi)
      cases hit'.symm.trans (hmoved i it hi hit)
      exact movedOff_stays hit hvalid

/-! ## ListNew, ListCopy, ListDestroy -/

/-- The memory with a new list, which is empty. -/
def withNew (m : Memory α) : Memory α :=
  { m with
    lists := Function.update m.lists m.fresh (some ⟨0, 0, none, none, none, m.fresh + 1, none⟩)
    refCounts := Function.update m.refCounts (m.fresh + 1) (some [m.fresh])
    fresh := m.fresh + 2 }

theorem listNew_eq (m : Memory α) : listNew m = some (withNew m, m.fresh) := by
  unfold listNew refCountNew refCountAttach withNew
  simp only [Memory.setList, Function.update_self, Function.update_idem, Option.bind_eq_bind, Option.bind_some,
    List.nil_append]
  rfl

/-- The memory with a list that shares the nodes of `list`. -/
def withCopy (m : Memory α) (list : SharedList) (us : List ℕ) : Memory α :=
  { m with
    lists := Function.update m.lists m.fresh (some { list with iterator := none })
    refCounts := Function.update m.refCounts list.refCount (some (us ++ [m.fresh]))
    fresh := m.fresh + 1 }

/-- A new list `s` that is under a count, and shows its chain. -/
theorem wellFormed_withList {m' : Memory α} {s : SharedList} (h : WellFormed m chain)
    (hlists : m'.lists = Function.update m.lists m.fresh (some s)) (hiterator : s.iterator = none)
    (hshape : Shape s (chain s.refCount)) (hcounts : Counts (refCountOf m') m'.refCounts)
    (hcountable : Countable m') (hdead : ∀ r, m'.refCounts r = none → m.refCounts r = none)
    (hrefs : ∀ r us, m'.refCounts r = some us → r < m'.fresh) (hnodes : m'.nodes = m.nodes) (hfresh : m.fresh < m'.fresh)
    (hits : m'.iterators = m.iterators) (hmuts : m'.mutableIterators = m.mutableIterators) : WellFormed m' chain := by
  refine
    { chains := ?_, dead := fun r hr => h.dead r (hdead r hr), counts := hcounts, countable := hcountable
      shape := fun l' list₁ hlist₁ => ?_, cursor := fun l' list₁ i hlist₁ => ?_
      lists_lt := fun l' list₁ hlist₁ => ?_, refCounts_lt := hrefs, light_lt := fun i o hi => ?_, mutable_lt := fun i o hi => ?_ }
  · rw [hnodes]
    exact ⟨h.chains.linked, h.chains.nodup, h.chains.apart, fun r a ha =>
      Nat.lt_trans (h.chains.bounded r a ha) hfresh⟩
  · obtain ⟨rfl, rfl⟩ | ⟨_, hlist₁⟩ := lists_cases hlists hlist₁
    · exact hshape
    · exact h.shape l' list₁ hlist₁
  · rw [origins, hmuts]
    obtain ⟨rfl, rfl⟩ | ⟨_, hlist₁⟩ := lists_cases hlists hlist₁
    · rw [hiterator]
      exact iff_of_false (fun hi => by cases hi) (h.origins_fresh i)
    · exact h.cursor l' list₁ i hlist₁
  · obtain ⟨rfl, rfl⟩ | ⟨_, hlist₁⟩ := lists_cases hlists hlist₁
    · exact hfresh
    · exact Nat.lt_trans (h.lists_lt l' list₁ hlist₁) hfresh
  · rw [lightOrigins, hits] at hi
    have := h.light_lt i o hi
    omega
  · rw [origins, hmuts] at hi
    have := h.mutable_lt i o hi
    omega

theorem WellFormed.refCountOf_fresh (h : WellFormed m chain) : refCountOf m m.fresh = none := by
  rw [refCountOf, h.lists_fresh (Nat.le_refl _)]
  rfl

theorem wellFormed_new (h : WellFormed m chain) : WellFormed (withNew m) chain := by
  have hnone : m.refCounts (m.fresh + 1) = none := h.refCounts_fresh (Nat.le_succ _)
  refine wellFormed_withList h rfl rfl ?_ ?_ (fun r us hus => ?_) (fun r hr => ?_) (fun r us hus => ?_) rfl
    (Nat.lt_add_of_pos_right Nat.two_pos) rfl rfl
  · rw [h.dead _ hnone]
    exact ⟨rfl, rfl, rfl, rfl⟩
  · rw [refCountOf_update rfl]
    exact h.counts.attachNew hnone h.refCountOf_fresh
  · by_cases heq : r = m.fresh + 1
    · have husers : (withNew m).refCounts (m.fresh + 1) = some [m.fresh] := Function.update_self ..
      rw [heq, husers] at hus
      cases hus
      exact Nat.one_lt_two_pow (by decide)
    · exact h.countable r us ((Function.update_of_ne heq _ _).symm.trans hus)
  · by_cases heq : r = m.fresh + 1
    · rw [heq]
      exact hnone
    · exact (Function.update_of_ne heq _ _).symm.trans hr
  · by_cases heq : r = m.fresh + 1
    · rw [heq]
      exact Nat.lt_succ_self _
    · exact Nat.lt_add_right 2 (h.refCounts_lt r us ((Function.update_of_ne heq _ _).symm.trans hus))

theorem wellFormed_copy {us : List ℕ} (h : WellFormed m chain) (hl : m.lists l = some list)
    (hus : m.refCounts list.refCount = some us) (hfew : us.length + 1 < 2 ^ 32) : WellFormed (withCopy m list us) chain := by
  have hs := h.shape l list hl
  have husers : (withCopy m list us).refCounts list.refCount = some (us ++ [m.fresh]) := Function.update_self ..
  refine wellFormed_withList h rfl rfl ⟨hs.list, hs.first, hs.last, hs.count⟩ ?_ (fun r us' hus' => ?_)
    (fun r hr => ?_) (fun r us' hus' => ?_) rfl (Nat.lt_succ_self _) rfl rfl
  · rw [refCountOf_update rfl]
    exact h.counts.attach hus h.refCountOf_fresh
  · by_cases heq : r = list.refCount
    · rw [heq, husers] at hus'
      cases hus'
      rw [List.length_append, List.length_singleton]
      exact hfew
    · exact h.countable r us' ((Function.update_of_ne heq _ _).symm.trans hus')
  · by_cases heq : r = list.refCount
    · rw [heq, husers] at hr
      cases hr
    · exact (Function.update_of_ne heq _ _).symm.trans hr
  · by_cases heq : r = list.refCount
    · rw [heq]
      exact Nat.lt_succ_of_lt (h.refCount_lt hl)
    · exact Nat.lt_succ_of_lt (h.refCounts_lt r us' ((Function.update_of_ne heq _ _).symm.trans hus'))

theorem freeNodes_spec (c : List (ℕ × Payload α)) :
    ∀ (fuel : ℕ) (m : Memory α) (p : Option ℕ), c.length ≤ fuel → Linked m.nodes p c none → (addresses c).Nodup →
      ∃ nodes, freeNodes fuel m (headOr none c) = some { m with nodes := nodes } ∧
        ∀ a, a ∉ addresses c → nodes a = m.nodes a := by
  induction c with
  | nil =>
    intro fuel m p _ _ _
    refine ⟨m.nodes, ?_, fun _ _ => rfl⟩
    rw [headOr, freeNodes]
  | cons x c ih =>
    intro fuel m p hfuel hlinked hnodup
    rw [List.length_cons] at hfuel
    obtain ⟨fuel, rfl⟩ : ∃ k, fuel = k + 1 := ⟨fuel - 1, by omega⟩
    rw [addresses, List.map_cons, List.nodup_cons] at hnodup
    obtain ⟨nodes, hfree, hoff⟩ := ih fuel (m.freeNode x.1) (some x.1) (by omega)
      (hlinked.2.update_off hnodup.1 none) hnodup.2
    refine ⟨nodes, ?_, fun a ha => ?_⟩
    · rw [headOr, freeNodes, hlinked.1]
      exact hfree
    · rw [addresses, List.map_cons, List.mem_cons, not_or] at ha
      exact (hoff a ha.2).trans (Function.update_of_ne ha.1 _ _)

/-- A list is gone; its chain is gone with it, if no other list shows it. -/
structure Destroyed (m m' : Memory α) (chain chain' : ℕ → List (ℕ × Payload α)) (l : ℕ) : Prop where
  wellFormed : WellFormed m' chain'
  lists : m'.lists = Function.update m.lists l none
  chains : ∀ l' list', l' ≠ l → m.lists l' = some list' → chain' list'.refCount = chain list'.refCount
  iterators : m'.iterators = m.iterators
  mutableIterators : m'.mutableIterators = m.mutableIterators

theorem wellFormed_destroy {nodes : ℕ → Option (Node (Payload α))} {refs : ℕ → Option (List ℕ)}
    {chain' : ℕ → List (ℕ × Payload α)} (h : WellFormed m chain) (hl : m.lists l = some list)
    (hchains : Chains nodes m.fresh chain')
    (hdead : ∀ r, refs r = none → chain' r = []) (hcounts : Counts (Function.update (refCountOf m) l none) refs)
    (hrefs : ∀ r, r ≠ list.refCount → refs r = m.refCounts r)
    (hfewer : ∀ us', refs list.refCount = some us' → us'.length < 2 ^ 32)
    (hsame : ∀ l' list', l' ≠ l → m.lists l' = some list' → chain' list'.refCount = chain list'.refCount) :
    WellFormed { m with nodes := nodes, refCounts := refs, lists := Function.update m.lists l none } chain' := by
  have hcases : ∀ l' list', Function.update m.lists l none l' = some list' → l' ≠ l ∧ m.lists l' = some list' := by
    intro l' list' hl'
    by_cases heq : l' = l
    · rw [heq, Function.update_self] at hl'
      cases hl'
    · rw [Function.update_of_ne heq] at hl'
      exact ⟨heq, hl'⟩
  refine
    { chains := hchains, dead := hdead, counts := ?_, countable := fun r us' hus' => ?_, shape := fun l' list' hl' => ?_
      cursor := fun l' list' i hl' => h.cursor l' list' i (hcases l' list' hl').2
      lists_lt := fun l' list' hl' => h.lists_lt l' list' (hcases l' list' hl').2, refCounts_lt := fun r us' hus' => ?_
      light_lt := h.light_lt, mutable_lt := h.mutable_lt }
  · rw [refCountOf_update (m := m) rfl]
    exact hcounts
  · by_cases heq : r = list.refCount
    · exact hfewer us' (heq ▸ hus')
    · exact h.countable r us' ((hrefs r heq).symm.trans hus')
  · obtain ⟨hne, hl'⟩ := hcases l' list' hl'
    rw [hsame l' list' hne hl']
    exact h.shape l' list' hl'
  · by_cases heq : r = list.refCount
    · rw [heq]
      exact h.refCount_lt hl
    · exact h.refCounts_lt r us' ((hrefs r heq).symm.trans hus')

theorem listDestroy_own (h : WellFormed m chain) (hl : m.lists l = some list) (hown : ¬ Shared m l) :
    ∃ m', listDestroy m l = some m' ∧ Destroyed m m' chain (Function.update chain list.refCount []) l := by
  obtain ⟨us, hus⟩ := h.exists_users hl
  have hshort : ¬ 1 < us.length := fun hlong => hown ⟨list, us, hl, hus, hlong⟩
  obtain ⟨nodes, hfree, hoff⟩ := freeNodes_spec (chain list.refCount) m.fresh m none (h.length_le _)
    (h.chains.linked _) (h.chains.nodup _)
  rw [← (h.shape l list hl).first] at hfree
  have hsame : ∀ l' list', l' ≠ l → m.lists l' = some list' →
      Function.update chain list.refCount [] list'.refCount = chain list'.refCount :=
    fun l' list' hne hl' => Function.update_of_ne (h.refCount_ne hl hown hne hl') _ _
  have hchains : Chains nodes m.fresh (Function.update chain list.refCount []) :=
    h.chains.replace trivial List.nodup_nil (Nat.le_refl _) (fun a _ ha => hoff a ha)
      fun a ha => absurd ha List.not_mem_nil
  have hdead : ∀ r, Function.update m.refCounts list.refCount none r = none →
      Function.update chain list.refCount [] r = [] := by
    intro r hr
    by_cases heq : r = list.refCount
    · rw [heq, Function.update_self]
    · rw [Function.update_of_ne heq] at hr ⊢
      exact h.dead r hr
  have hcounts := h.counts.drop hus (refCountOf_live hl) hshort
  have hnone : ∀ us', Function.update m.refCounts list.refCount none list.refCount = some us' → us'.length < 2 ^ 32 := by
    intro us' hus'
    rw [Function.update_self] at hus'
    cases hus'
  have hwf := wellFormed_destroy h hl hchains hdead hcounts (fun r hne => Function.update_of_ne hne _ _) hnone hsame
  rw [← userCount_eq (h.countable _ us hus)] at hshort
  refine ⟨_, ?_, hwf, rfl, hsame, rfl, rfl⟩
  unfold listDestroy destroyOnly refCountIsShared refCountDestroy
  simp only [hl, hus, Option.bind_eq_bind, Option.bind_some, Option.map_some, hshort, decide_false, cond_false, hfree,
    if_pos (Nat.not_lt.mp hshort)]
  rfl

theorem listDestroy_shared (h : WellFormed m chain) (hl : m.lists l = some list) (hshared : Shared m l) :
    ∃ m', listDestroy m l = some m' ∧ Destroyed m m' chain chain l := by
  obtain ⟨_, us, hl', hus, hlong⟩ := hshared
  rw [hl] at hl'
  cases hl'
  have hdead : ∀ r, Function.update m.refCounts list.refCount (some (us.erase l)) r = none → chain r = [] := by
    intro r hr
    by_cases heq : r = list.refCount
    · rw [heq, Function.update_self] at hr
      cases hr
    · rw [Function.update_of_ne heq] at hr
      exact h.dead r hr
  have hcounts := h.counts.detach hus (refCountOf_live hl)
  have hfewer : ∀ us', Function.update m.refCounts list.refCount (some (us.erase l)) list.refCount = some us' →
      us'.length < 2 ^ 32 := by
    intro us' hus'
    rw [Function.update_self] at hus'
    cases hus'
    exact Nat.lt_of_le_of_lt List.length_erase_le (h.countable _ us hus)
  have hwf := wellFormed_destroy h hl h.chains hdead hcounts (fun r hne => Function.update_of_ne hne _ _) hfewer
    fun _ _ _ _ => rfl
  rw [← userCount_eq (h.countable _ us hus)] at hlong
  refine ⟨_, ?_, hwf, rfl, fun _ _ _ _ => rfl, rfl, rfl⟩
  unfold listDestroy refCountIsShared refCountDetach
  simp only [hl, hus, Option.bind_eq_bind, Option.bind_some, Option.map_some, hlong, decide_true, cond_true,
    if_neg (Nat.not_le.mpr hlong), if_pos (h.counts.mem (refCountOf_live hl) hus)]
  rfl

/-! ## Iterators -/

/-- A list but for its iterator. -/
def SharedList.bare (list : SharedList) : SharedList := { list with iterator := none }

theorem bare_eq (h : list.bare = list'.bare) : list.state = list'.state ∧ list.refCount = list'.refCount := by
  have hstate := congrArg SharedList.state h
  have hcount := congrArg SharedList.refCount h
  exact ⟨hstate, hcount⟩

theorem exists_of_bare (hlists : ∀ l, (m'.lists l).map SharedList.bare = (m.lists l).map SharedList.bare)
    (hl : m'.lists l = some list') : ∃ list, m.lists l = some list ∧ list.bare = list'.bare := by
  have hbare := hlists l
  rw [hl, Option.map_some] at hbare
  exact Option.map_eq_some_iff.mp hbare.symm

theorem WellFormed.of_iterators (h : WellFormed m chain) (hnodes : m'.nodes = m.nodes)
    (hlists : ∀ l, (m'.lists l).map SharedList.bare = (m.lists l).map SharedList.bare)
    (hrefs : m'.refCounts = m.refCounts) (hle : m.fresh ≤ m'.fresh)
    (hcursor : ∀ l list i, m'.lists l = some list → (list.iterator = some i ↔ origins m' i = some l))
    (hlight : ∀ i o, lightOrigins m' i = some o → i < m'.fresh ∧ o < m'.fresh)
    (hmutable : ∀ i o, origins m' i = some o → i < m'.fresh ∧ o < m'.fresh) : WellFormed m' chain := by
  have hcount : refCountOf m' = refCountOf m := by
    funext l
    have hbare := congrArg (Option.map SharedList.refCount) (hlists l)
    rw [Option.map_map, Option.map_map] at hbare
    exact hbare
  refine
    { chains := ?_, dead := by rw [hrefs]; exact h.dead, counts := by rw [hrefs, hcount]; exact h.counts
      countable := fun r us hus => h.countable r us (hrefs ▸ hus), shape := fun l list' hl => ?_, cursor := hcursor
      lists_lt := fun l list' hl => ?_
      refCounts_lt := fun r us hus => Nat.lt_of_lt_of_le (h.refCounts_lt r us (hrefs ▸ hus)) hle
      light_lt := hlight, mutable_lt := hmutable }
  · rw [hnodes]
    exact ⟨h.chains.linked, h.chains.nodup, h.chains.apart, fun r a ha =>
      Nat.lt_of_lt_of_le (h.chains.bounded r a ha) hle⟩
  · obtain ⟨list, hl, hbare⟩ := exists_of_bare hlists hl
    have hs := h.shape l list hl
    have hbare' : Shape list.bare (chain list.bare.refCount) := ⟨hs.list, hs.first, hs.last, hs.count⟩
    rw [hbare] at hbare'
    exact ⟨hbare'.list, hbare'.first, hbare'.last, hbare'.count⟩
  · obtain ⟨list, hl, _⟩ := exists_of_bare hlists hl
    exact Nat.lt_of_lt_of_le (h.lists_lt l list hl) hle

/-- An iterator of a live list is put somewhere, a new one or one that was there. -/
theorem wellFormed_setIterator {fresh : ℕ} {it : ListIterator} (h : WellFormed m chain) (hi : i < fresh)
    (hle : m.fresh ≤ fresh) (horigin : it.origin < fresh) :
    WellFormed { m.setIterator i it with fresh := fresh } chain := by
  refine h.of_iterators rfl (fun _ => rfl) rfl hle h.cursor (fun j o hj => ?_) (fun j o hj => ?_)
  · change (Function.update m.iterators i (some it) j).map ListIterator.origin = some o at hj
    by_cases hji : j = i
    · subst hji
      rw [Function.update_self] at hj
      cases hj
      exact ⟨hi, horigin⟩
    · rw [Function.update_of_ne hji] at hj
      have := h.light_lt j o hj
      exact ⟨Nat.lt_of_lt_of_le this.1 hle, Nat.lt_of_lt_of_le this.2 hle⟩
  · have := h.mutable_lt j o hj
    exact ⟨Nat.lt_of_lt_of_le this.1 hle, Nat.lt_of_lt_of_le this.2 hle⟩

theorem wellFormed_iteratorDestroy (h : WellFormed m chain) (i : ℕ) : WellFormed (listIteratorDestroy m i) chain := by
  refine h.of_iterators rfl (fun _ => rfl) rfl (Nat.le_refl _) h.cursor (fun j o hj => ?_) h.mutable_lt
  change (Function.update m.iterators i none j).map ListIterator.origin = some o at hj
  by_cases hji : j = i
  · rw [hji, Function.update_self] at hj
    cases hj
  · rw [Function.update_of_ne hji] at hj
    exact h.light_lt j o hj

theorem wellFormed_setMutableIterator {it' : ListMutableIterator} (h : WellFormed m chain)
    (hi : m.mutableIterators i = some it) (horigin : it'.origin = it.origin) :
    WellFormed (m.setMutableIterator i it') chain := by
  have hsame : origins (m.setMutableIterator i it') = origins m := by
    funext j
    show (Function.update m.mutableIterators i (some it') j).map _ = (m.mutableIterators j).map _
    by_cases hji : j = i
    · rw [hji, Function.update_self, hi, Option.map_some, Option.map_some, horigin]
    · rw [Function.update_of_ne hji]
  refine h.of_iterators rfl (fun _ => rfl) rfl (Nat.le_refl _) (fun l list j hl => ?_) h.light_lt ?_
  · rw [hsame]
    exact h.cursor l list j hl
  · rw [hsame]
    exact h.mutable_lt

/-- The memory with a mutable iterator for a list. -/
def withMutable (m : Memory α) (l : ℕ) (list : SharedList) : Memory α :=
  { m with
    lists := Function.update m.lists l (some { list with iterator := some m.fresh })
    mutableIterators := Function.update m.mutableIterators m.fresh (some ⟨true, list.first, l⟩)
    fresh := m.fresh + 1 }

theorem listMutableIteratorGet_eq (hl : m.lists l = some list) : listMutableIteratorGet m l =
    some (if list.iterator.isSome || list.first.isNone then (m, none) else (withMutable m l list, some m.fresh)) := by
  unfold listMutableIteratorGet withMutable
  simp only [hl, Option.bind_eq_bind, Option.bind_some]
  cases list.iterator.isSome || list.first.isNone with
  | true => rfl
  | false => rfl

theorem map_bare_update (hl : m.lists l = some list) (k : ℕ) :
    (Function.update m.lists l (some { list with iterator := o }) k).map SharedList.bare =
      (m.lists k).map SharedList.bare := by
  by_cases hk : k = l
  · rw [hk, Function.update_self, hl]
    rfl
  · rw [Function.update_of_ne hk]

theorem origins_withMutable (j : ℕ) : origins (withMutable m l list) j =
    if j = m.fresh then some l else origins m j := by
  show (Function.update m.mutableIterators m.fresh _ j).map _ = _
  by_cases hj : j = m.fresh
  · rw [hj, Function.update_self, if_pos rfl]
    rfl
  · rw [Function.update_of_ne hj, if_neg hj]
    rfl

theorem wellFormed_withMutable (h : WellFormed m chain) (hl : m.lists l = some list) (hfree : list.iterator = none) :
    WellFormed (withMutable m l list) chain := by
  have hlt := h.lists_lt l list hl
  have hnone : ∀ j, origins m j ≠ some l := by
    intro j hj
    rw [← h.cursor l list j hl, hfree] at hj
    cases hj
  refine h.of_iterators rfl (map_bare_update hl) rfl (Nat.le_succ _) (fun k list₁ j hk => ?_) (fun j o hj => ?_)
    fun j o hj => ?_
  · rw [origins_withMutable]
    have hlists : (withMutable m l list).lists =
      Function.update m.lists l (some { list with iterator := some m.fresh }) := rfl
    obtain ⟨rfl, rfl⟩ | ⟨hne, hk⟩ := lists_cases hlists hk
    · show some m.fresh = some j ↔ _
      by_cases hj : j = m.fresh
      · rw [if_pos hj, hj]
        exact iff_of_true rfl rfl
      · rw [if_neg hj]
        exact iff_of_false (fun h => hj (Option.some.inj h).symm) (hnone j)
    · rw [h.cursor k list₁ j hk]
      by_cases hj : j = m.fresh
      · rw [if_pos hj]
        refine iff_of_false (fun ho => ?_) (fun ho => hne (Option.some.inj ho).symm)
        have := h.mutable_lt j k ho
        omega
      · rw [if_neg hj]
  · have := h.light_lt j o hj
    exact ⟨Nat.lt_succ_of_lt this.1, Nat.lt_succ_of_lt this.2⟩
  · rw [origins_withMutable] at hj
    show j < m.fresh + 1 ∧ o < m.fresh + 1
    by_cases hjf : j = m.fresh
    · rw [if_pos hjf] at hj
      cases hj
      omega
    · rw [if_neg hjf] at hj
      have := h.mutable_lt j o hj
      omega

/-- The memory without a mutable iterator. -/
def withoutMutable (m : Memory α) (i : ℕ) (it : ListMutableIterator) (list : SharedList) : Memory α :=
  { m with
    lists := Function.update m.lists it.origin (some { list with iterator := none })
    mutableIterators := Function.update m.mutableIterators i none }

theorem wellFormed_withoutMutable (h : WellFormed m chain) (hi : m.mutableIterators i = some it)
    (hl : m.lists it.origin = some list) :
    WellFormed (withoutMutable m i it list) chain := by
  have horigin : origins m i = some it.origin := by
    rw [origins, hi]
    rfl
  have hcursor := (h.cursor it.origin list i hl).mpr horigin
  have horigins : ∀ j, origins (withoutMutable m i it list) j = if j = i then none else origins m j := by
    intro j
    show (Function.update m.mutableIterators i none j).map _ = _
    by_cases hj : j = i
    · rw [hj, Function.update_self, if_pos rfl]
      rfl
    · rw [Function.update_of_ne hj, if_neg hj]
      rfl
  refine h.of_iterators rfl (map_bare_update hl) rfl (Nat.le_refl _) (fun k list₁ j hk => ?_) h.light_lt fun j o hj => ?_
  · rw [horigins]
    have hlists : (withoutMutable m i it list).lists =
      Function.update m.lists it.origin (some { list with iterator := none }) := rfl
    obtain ⟨rfl, rfl⟩ | ⟨hne, hk⟩ := lists_cases hlists hk
    · refine iff_of_false (fun hn => by cases hn) fun hj => ?_
      by_cases hji : j = i
      · rw [if_pos hji] at hj
        cases hj
      · rw [if_neg hji, ← h.cursor _ list j hl, hcursor] at hj
        exact hji (Option.some.inj hj).symm
    · rw [h.cursor k list₁ j hk]
      by_cases hji : j = i
      · rw [if_pos hji, hji, horigin]
        exact iff_of_false (fun ho => hne (Option.some.inj ho).symm) fun hn => by cases hn
      · rw [if_neg hji]
  · rw [horigins] at hj
    by_cases hji : j = i
    · rw [if_pos hji] at hj
      cases hj
    · rw [if_neg hji] at hj
      exact h.mutable_lt j o hj

/-! ## Calls that leave the chains alone -/

/-- The calls that neither change nor destroy a list. -/
def Call.isQuiet : Call α → Bool
  | .destroy _ => false
  | .prepend _ _ => false
  | .append _ _ => false
  | .remove _ _ => false
  | .mutableRemove _ => false
  | .mutablePrepend _ _ => false
  | .mutableAppend _ _ => false
  | _ => true

/-- The nodes of the list can have another user. -/
def Copyable (m : Memory α) (l : ℕ) : Prop :=
  ∀ list us, m.lists l = some list → m.refCounts list.refCount = some us → us.length + 1 < 2 ^ 32

/-- What they do to the memory. -/
inductive Quiet (m : Memory α) : Memory α → Prop where
  | same : Quiet m m
  | new : Quiet m (withNew m)
  | copy {l : ℕ} {list : SharedList} {us : List ℕ} : m.lists l = some list → m.refCounts list.refCount = some us →
      us.length + 1 < 2 ^ 32 → Quiet m (withCopy m list us)
  | get {l a : ℕ} {list : SharedList} : m.lists l = some list → list.first = some a →
      Quiet m { m.setIterator m.fresh ⟨list.list, l, list.state⟩ with fresh := m.fresh + 1 }
  | drop (i : ℕ) : Quiet m (listIteratorDestroy m i)
  | toEnd {i : ℕ} {it : ListIterator} {list : SharedList} (e : End) : m.iterators i = some it →
      m.lists it.origin = some list → it.state = list.state → Quiet m (m.setIterator i { it with current := list.atEnd e })
  | go {i a b : ℕ} {it : ListIterator} {list : SharedList} {node : Node (Payload α)} (w : Way) : m.iterators i = some it →
      m.lists it.origin = some list → it.state = list.state → it.current = some a → m.nodes a = some node →
      linkOf node w = some b → Quiet m (m.setIterator i { it with current := some b })
  | getMutable {l a : ℕ} {list : SharedList} : m.lists l = some list → list.iterator = none → list.first = some a →
      Quiet m (withMutable m l list)
  | release {i : ℕ} {it : ListMutableIterator} {list : SharedList} : m.mutableIterators i = some it →
      m.lists it.origin = some list → Quiet m (withoutMutable m i it list)
  | mutableToEnd {i : ℕ} {it : ListMutableIterator} {list : SharedList} (e : End) : m.mutableIterators i = some it →
      it.valid = true → m.lists it.origin = some list → Quiet m (m.setMutableIterator i { it with current := list.atEnd e })
  | mutableGo {i a b : ℕ} {it : ListMutableIterator} {node : Node (Payload α)} (w : Way) :
      m.mutableIterators i = some it → it.valid = true → it.current = some a → m.nodes a = some node →
      linkOf node w = some b → Quiet m (m.setMutableIterator i { it with current := some b })

theorem Quiet.wellFormed (hq : Quiet m m') (h : WellFormed m chain) : WellFormed m' chain := by
  cases hq with
  | same => exact h
  | new => exact wellFormed_new h
  | copy hl hus hfew => exact wellFormed_copy h hl hus hfew
  | get hl hfirst =>
    exact wellFormed_setIterator h (Nat.lt_succ_self _) (Nat.le_succ _) (Nat.lt_succ_of_lt (h.lists_lt _ _ hl))
  | drop i => exact wellFormed_iteratorDestroy h i
  | @toEnd i it list e hi hl hstate =>
    have hlight : lightOrigins m i = some it.origin := by rw [lightOrigins, hi]; rfl
    exact wellFormed_setIterator h (h.light_lt i _ hlight).1 (Nat.le_refl _) (h.light_lt i _ hlight).2
  | @go i a b it list node w hi hl hstate hcurrent hnode hlink =>
    have hlight : lightOrigins m i = some it.origin := by rw [lightOrigins, hi]; rfl
    exact wellFormed_setIterator h (h.light_lt i _ hlight).1 (Nat.le_refl _) (h.light_lt i _ hlight).2
  | getMutable hl hfree hfirst => exact wellFormed_withMutable h hl hfree
  | release hi hl => exact wellFormed_withoutMutable h hi hl
  | mutableToEnd e hi hvalid hl => exact wellFormed_setMutableIterator h hi rfl
  | mutableGo w hi hvalid hcurrent hnode hlink => exact wellFormed_setMutableIterator h hi rfl

theorem iteratorToEnd_quiet {e : End} (h : iteratorToEnd e m i = some (m', b)) : Quiet m m' := by
  unfold iteratorToEnd at h
  simp only [Option.bind_eq_bind, Option.bind_eq_some_iff] at h
  obtain ⟨it, hi, list, hl, h⟩ := h
  split at h
  · cases h
    exact .same
  · next hstate =>
    cases h
    exact .toEnd e hi hl (not_not.mp hstate)

theorem iteratorGo_quiet {w : Way} (h : iteratorGo w m i = some (m', b)) : Quiet m m' := by
  unfold iteratorGo at h
  simp only [Option.bind_eq_bind, Option.bind_eq_some_iff] at h
  obtain ⟨it, hi, list, hl, h⟩ := h
  split at h
  · cases h
    exact .same
  · next hstate =>
    cases hcurrent : it.current with
    | none =>
      rw [hcurrent] at h
      cases h
      exact .same
    | some a =>
      rw [hcurrent] at h
      obtain ⟨node, hnode, h⟩ := Option.bind_eq_some_iff.mp h
      cases hlink : linkOf node w with
      | none =>
        rw [hlink] at h
        cases h
        exact .same
      | some b =>
        rw [hlink] at h
        cases h
        exact .go w hi hl (not_not.mp hstate) hcurrent hnode hlink

theorem mutableToEnd_quiet {e : End} (h : mutableToEnd e m i = some (m', b)) : Quiet m m' := by
  unfold mutableToEnd at h
  simp only [Option.bind_eq_bind, Option.bind_eq_some_iff] at h
  obtain ⟨it, hi, h⟩ := h
  split at h
  · next hvalid =>
    obtain ⟨list, hl, h⟩ := Option.bind_eq_some_iff.mp h
    cases h
    exact .mutableToEnd e hi hvalid hl
  · cases h
    exact .same

theorem mutableGo_quiet {w : Way} (h : mutableGo w m i = some (m', b)) : Quiet m m' := by
  unfold mutableGo at h
  simp only [Option.bind_eq_bind, Option.bind_eq_some_iff] at h
  obtain ⟨it, hi, h⟩ := h
  split at h
  · next hvalid =>
    obtain ⟨a, hcurrent, h⟩ := Option.bind_eq_some_iff.mp h
    obtain ⟨node, hnode, h⟩ := Option.bind_eq_some_iff.mp h
    cases hlink : linkOf node w with
    | none =>
      rw [hlink] at h
      cases h
      exact .same
    | some b =>
      rw [hlink] at h
      cases h
      exact .mutableGo w hi hvalid hcurrent hnode hlink
  · cases h
    exact .same

theorem listCopy_quiet (hfew : Copyable m l) (h : listCopy fns m l = some (m', o)) : Quiet m m' := by
  unfold listCopy at h
  simp only [Option.bind_eq_bind, Option.bind_eq_some_iff] at h
  obtain ⟨list, hl, h⟩ := h
  split at h
  · obtain ⟨m₁, hattach, h⟩ := Option.bind_eq_some_iff.mp h
    obtain ⟨us, hus, hattach⟩ := Option.bind_eq_some_iff.mp hattach
    cases hattach
    cases h
    exact .copy hl hus (hfew list us hl hus)
  · cases h
    exact .same

theorem listIteratorGet_quiet (h : listIteratorGet m l = some (m', o)) : Quiet m m' := by
  unfold listIteratorGet at h
  simp only [Option.bind_eq_bind, Option.bind_eq_some_iff] at h
  obtain ⟨list, hl, h⟩ := h
  cases hfirst : list.first with
  | none =>
    rw [hfirst] at h
    cases h
    exact .same
  | some a =>
    rw [hfirst] at h
    cases h
    exact .get hl hfirst

theorem listMutableIteratorGet_quiet (h : listMutableIteratorGet m l = some (m', o)) : Quiet m m' := by
  cases hl : m.lists l with
  | none =>
    rw [listMutableIteratorGet, hl] at h
    cases h
  | some list =>
    rw [listMutableIteratorGet_eq hl] at h
    cases hiterator : list.iterator with
    | some i =>
      rw [hiterator] at h
      cases h
      exact .same
    | none =>
      cases hfirst : list.first with
      | none =>
        rw [hiterator, hfirst] at h
        cases h
        exact .same
      | some a =>
        rw [hiterator, hfirst] at h
        cases h
        exact .getMutable hl hiterator hfirst

theorem listMutableIteratorRelease_quiet (h : listMutableIteratorRelease m i = some m') : Quiet m m' := by
  unfold listMutableIteratorRelease at h
  simp only [Option.bind_eq_bind, Option.bind_eq_some_iff] at h
  obtain ⟨it, hi, list, hl, h⟩ := h
  cases h
  exact .release hi hl

theorem step_quiet {call : Call α} {reply : Reply α} (hcall : call.isQuiet = true)
    (hfew : ∀ l, call = .copy l → Copyable m l) (h : step fns junk m call = some (m', reply)) : Quiet m m' := by
  cases call <;> simp only [step, Option.map_eq_some_iff, Prod.mk.injEq] at h
  case new =>
    obtain ⟨r, hr, rfl, -⟩ := h
    rw [listNew_eq] at hr
    cases hr
    exact .new
  case copy l =>
    obtain ⟨r, hr, rfl, -⟩ := h
    exact listCopy_quiet (hfew l rfl) hr
  case iteratorGet l =>
    obtain ⟨r, hr, rfl, -⟩ := h
    exact listIteratorGet_quiet hr
  case iteratorDestroy i =>
    cases h
    exact .drop i
  case iteratorToEnd e i =>
    obtain ⟨r, hr, rfl, -⟩ := h
    exact iteratorToEnd_quiet hr
  case iteratorGo w i =>
    obtain ⟨r, hr, rfl, -⟩ := h
    exact iteratorGo_quiet hr
  case mutableGet l =>
    obtain ⟨r, hr, rfl, -⟩ := h
    exact listMutableIteratorGet_quiet hr
  case mutableRelease i =>
    obtain ⟨r, hr, rfl, -⟩ := h
    exact listMutableIteratorRelease_quiet hr
  case mutableToEnd e i =>
    obtain ⟨r, hr, rfl, -⟩ := h
    exact mutableToEnd_quiet hr
  case mutableGo w i =>
    obtain ⟨r, hr, rfl, -⟩ := h
    exact mutableGo_quiet hr
  case count l =>
    obtain ⟨_, _, rfl, -⟩ := h
    exact .same
  case iteratorData i =>
    obtain ⟨_, _, rfl, -⟩ := h
    exact .same
  case iteratorHas w i =>
    obtain ⟨_, _, rfl, -⟩ := h
    exact .same
  case mutableData i =>
    obtain ⟨_, _, rfl, -⟩ := h
    exact .same
  case mutableHas w i =>
    obtain ⟨_, _, rfl, -⟩ := h
    exact .same
  all_goals cases hcall

end Libntech.Containers.LinkedList
