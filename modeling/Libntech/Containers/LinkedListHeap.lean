import Libntech.Containers.LinkedList
import Libntech.Lib.RefCounting
import Mathlib.Order.Nat

/-! # The chains behind a family of lists

`WellFormed m chain`: every reference count `r` stands for one chain `chain r` in the heap of nodes, the lists that
it counts all show this chain, and the chains have no node in common. Each operation is followed by what it does to
the chain of its list: a list with a chain of its own edits it, one that shares a chain gets a copy first.
-/
namespace Libntech.Containers.LinkedList
open Lib Lib.Chain
set_option autoImplicit false

variable {α : Type} {fns : ListFns α} {junk : ℕ → Payload α} {m m' : Memory α} {l : ℕ} {list : SharedList}

/-- The pointers and the count of a list that shows the chain `c`. -/
structure Shape (s : SharedList) (c : List (ℕ × Payload α)) : Prop where
  list : s.list = headOr none c
  first : s.first = headOr none c
  last : s.last = lastOr none c
  count : s.nodeCount = c.length

/-- Chains in a heap, with no node in common. -/
structure Chains (nodes : ℕ → Option (Node (Payload α))) (fresh : ℕ) (chain : ℕ → List (ℕ × Payload α)) : Prop where
  linked : ∀ r, Linked nodes none (chain r) none
  nodup : ∀ r, (addresses (chain r)).Nodup
  apart : ∀ r r', r ≠ r' → ∀ a ∈ addresses (chain r), a ∉ addresses (chain r')
  bounded : ∀ r, ∀ a ∈ addresses (chain r), a < fresh

/-- Another chain for `r`, of old nodes and new ones. -/
theorem Chains.replace {nodes nodes' : ℕ → Option (Node (Payload α))} {fresh fresh' r : ℕ}
    {chain : ℕ → List (ℕ × Payload α)} {c : List (ℕ × Payload α)} (h : Chains nodes fresh chain)
    (hlinked : Linked nodes' none c none) (hnodup : (addresses c).Nodup) (hle : fresh ≤ fresh')
    (hoff : ∀ a < fresh, a ∉ addresses (chain r) → nodes' a = nodes a)
    (hfrom : ∀ a ∈ addresses c, a ∈ addresses (chain r) ∨ (fresh ≤ a ∧ a < fresh')) :
    Chains nodes' fresh' (Function.update chain r c) := by
  have hother : ∀ q a, q ≠ r → a ∈ addresses (chain q) → a ∉ addresses c := by
    intro q a hne ha ha'
    obtain hin | hnew := hfrom a ha'
    · exact h.apart q r hne a ha hin
    · have := h.bounded q a ha
      omega
  refine ⟨fun q => ?_, fun q => ?_, fun q q' hne a ha ha' => ?_, fun q a ha => ?_⟩
  · by_cases hq : q = r
    · rw [hq, Function.update_self]
      exact hlinked
    · rw [Function.update_of_ne hq]
      exact (h.linked q).congr fun a ha => hoff a (h.bounded q a ha) (h.apart q r hq a ha)
  · by_cases hq : q = r
    · rw [hq, Function.update_self]
      exact hnodup
    · rw [Function.update_of_ne hq]
      exact h.nodup q
  · by_cases hq : q = r
    · have hq' : q' ≠ r := fun heq => hne (hq.trans heq.symm)
      rw [hq, Function.update_self] at ha
      rw [Function.update_of_ne hq'] at ha'
      exact hother q' a hq' ha' ha
    · rw [Function.update_of_ne hq] at ha
      by_cases hq' : q' = r
      · rw [hq', Function.update_self] at ha'
        exact hother q a hq ha ha'
      · rw [Function.update_of_ne hq'] at ha'
        exact h.apart q q' hne a ha ha'
  · by_cases hq : q = r
    · rw [hq, Function.update_self] at ha
      obtain hin | hnew := hfrom a ha
      · exact Nat.lt_of_lt_of_le (h.bounded r a hin) hle
      · exact hnew.2
    · rw [Function.update_of_ne hq] at ha
      exact Nat.lt_of_lt_of_le (h.bounded q a ha) hle

/-- The counts that the lists are under. -/
def refCountOf (m : Memory α) (l : ℕ) : Option ℕ := (m.lists l).map SharedList.refCount

theorem refCountOf_update {o : Option SharedList} (h : m'.lists = Function.update m.lists l o) :
    refCountOf m' = Function.update (refCountOf m) l (o.map SharedList.refCount) := by
  funext k
  unfold refCountOf
  rw [h]
  by_cases hk : k = l
  · rw [hk, Function.update_self, Function.update_self]
  · rw [Function.update_of_ne hk, Function.update_of_ne hk]

/-- The users that a count has are fewer than it can count. -/
def Countable (m : Memory α) : Prop := ∀ r us, m.refCounts r = some us → us.length < 2 ^ 32

theorem userCount_eq {us : List ℕ} (h : us.length < 2 ^ 32) : userCount us = us.length := Nat.mod_eq_of_lt h

theorem refCountOf_live (hl : m.lists l = some list) : refCountOf m l = some list.refCount := by
  rw [refCountOf, hl]
  rfl

/-- The lists that the mutable iterators are of. -/
def origins (m : Memory α) (i : ℕ) : Option ℕ := (m.mutableIterators i).map ListMutableIterator.origin

/-- The lists that the other iterators are of. -/
def lightOrigins (m : Memory α) (i : ℕ) : Option ℕ := (m.iterators i).map ListIterator.origin

structure WellFormed (m : Memory α) (chain : ℕ → List (ℕ × Payload α)) : Prop where
  chains : Chains m.nodes m.fresh chain
  dead : ∀ r, m.refCounts r = none → chain r = []
  counts : Counts (refCountOf m) m.refCounts
  countable : Countable m
  shape : ∀ l list, m.lists l = some list → Shape list (chain list.refCount)
  cursor : ∀ l list i, m.lists l = some list → (list.iterator = some i ↔ origins m i = some l)
  lists_lt : ∀ l list, m.lists l = some list → l < m.fresh
  refCounts_lt : ∀ r us, m.refCounts r = some us → r < m.fresh
  light_lt : ∀ i l, lightOrigins m i = some l → i < m.fresh ∧ l < m.fresh
  mutable_lt : ∀ i l, origins m i = some l → i < m.fresh ∧ l < m.fresh

variable {chain : ℕ → List (ℕ × Payload α)}

theorem wellFormed_empty : WellFormed (Memory.empty : Memory α) fun _ => [] where
  chains := ⟨fun _ => trivial, fun _ => List.nodup_nil, fun _ _ _ _ ha => absurd ha List.not_mem_nil,
    fun _ _ ha => absurd ha List.not_mem_nil⟩
  dead _ _ := rfl
  counts := ⟨fun _ _ h => (by cases h), fun _ _ _ h => (by cases h), fun _ _ h => (by cases h)⟩
  countable _ _ h := by cases h
  shape _ _ h := by cases h
  cursor _ _ _ h := by cases h
  lists_lt _ _ h := by cases h
  refCounts_lt _ _ h := by cases h
  light_lt _ _ h := by cases h
  mutable_lt _ _ h := by cases h

variable {a : ℕ} {list' : SharedList}

namespace WellFormed

theorem exists_users (h : WellFormed m chain) (hl : m.lists l = some list) : ∃ us, m.refCounts list.refCount = some us :=
  h.counts.exists_users (refCountOf_live hl)

theorem refCount_lt (h : WellFormed m chain) (hl : m.lists l = some list) : list.refCount < m.fresh := by
  obtain ⟨us, hus⟩ := h.exists_users hl
  exact h.refCounts_lt _ us hus

theorem length_le (h : WellFormed m chain) (r : ℕ) : (chain r).length ≤ m.fresh := by
  have hsub : addresses (chain r) ⊆ List.range m.fresh := fun a ha => List.mem_range.mpr (h.chains.bounded r a ha)
  have hlen := ((h.chains.nodup r).subperm hsub).length_le
  rw [List.length_range, addresses, List.length_map] at hlen
  exact hlen

theorem lists_fresh (h : WellFormed m chain) (ha : m.fresh ≤ a) : m.lists a = none := by
  cases hl : m.lists a with
  | none => rfl
  | some list =>
    have := h.lists_lt a list hl
    omega

theorem refCounts_fresh (h : WellFormed m chain) (ha : m.fresh ≤ a) : m.refCounts a = none := by
  cases hr : m.refCounts a with
  | none => rfl
  | some us =>
    have := h.refCounts_lt a us hr
    omega

theorem origins_fresh (h : WellFormed m chain) (i : ℕ) : origins m i ≠ some m.fresh := by
  intro hi
  exact absurd (h.mutable_lt i _ hi).2 (Nat.lt_irrefl _)

theorem fresh_not_mem (h : WellFormed m chain) (r : ℕ) : m.fresh ∉ addresses (chain r) :=
  fun ha => Nat.lt_irrefl _ (h.chains.bounded r _ ha)

theorem shared_iff (h : WellFormed m chain) (hl : m.lists l = some list) :
    Shared m l ↔ ∃ l', l' ≠ l ∧ refCountOf m l' = some list.refCount := by
  obtain ⟨us, hus⟩ := h.exists_users hl
  rw [← h.counts.many_iff (refCountOf_live hl) hus]
  constructor
  · rintro ⟨list₁, us₁, hl₁, hus₁, hlong⟩
    rw [hl] at hl₁
    cases hl₁
    rw [hus] at hus₁
    cases hus₁
    exact hlong
  · exact fun hlong => ⟨list, us, hl, hus, hlong⟩

/-- The other lists have other chains, if a list does not share its chain. -/
theorem refCount_ne (h : WellFormed m chain) (hl : m.lists l = some list) (hown : ¬ Shared m l) {l' : ℕ}
    {list₁ : SharedList} (hne : l' ≠ l) (hl' : m.lists l' = some list₁) : list₁.refCount ≠ list.refCount := by
  intro heq
  exact hown ((h.shared_iff hl).mpr ⟨l', hne, by rw [refCountOf_live hl', heq]⟩)

end WellFormed

theorem lists_cases (h : m'.lists = Function.update m.lists l (some list')) {l' : ℕ} {list₁ : SharedList}
    (hl' : m'.lists l' = some list₁) :
    (l' = l ∧ list₁ = list') ∨ (l' ≠ l ∧ m.lists l' = some list₁) := by
  rw [h] at hl'
  by_cases heq : l' = l
  · rw [heq, Function.update_self] at hl'
    exact .inl ⟨heq, (Option.some.inj hl').symm⟩
  · rw [Function.update_of_ne heq] at hl'
    exact .inr ⟨heq, hl'⟩

/-! ## Editing a chain of one's own -/

/-- A chain that only `l` shows is replaced; new nodes are new in the heap. -/
structure Edits (m m' : Memory α) (l : ℕ) (list list' : SharedList) (c c' : List (ℕ × Payload α)) : Prop where
  lists : m'.lists = Function.update m.lists l (some list')
  refCount : list'.refCount = list.refCount
  iterator : list'.iterator = list.iterator
  shape : Shape list' c'
  refCounts : m'.refCounts = m.refCounts
  iterators : m'.iterators = m.iterators
  origins : ∀ i, origins m' i = origins m i
  linked : Linked m'.nodes none c' none
  nodup : (addresses c').Nodup
  fresh_le : m.fresh ≤ m'.fresh
  off : ∀ a < m.fresh, a ∉ addresses c → m'.nodes a = m.nodes a
  from_old : ∀ a ∈ addresses c', a ∈ addresses c ∨ (m.fresh ≤ a ∧ a < m'.fresh)

theorem Edits.wellFormed {c' : List (ℕ × Payload α)} (h : WellFormed m chain) (hl : m.lists l = some list)
    (hown : ¬ Shared m l) (he : Edits m m' l list list' (chain list.refCount) c') :
    WellFormed m' (Function.update chain list.refCount c') := by
  have hle := he.fresh_le
  have hrefs : refCountOf m' = refCountOf m := by
    rw [refCountOf_update he.lists, Option.map_some, he.refCount]
    exact Function.update_eq_self_iff.mpr (refCountOf_live hl).symm
  refine
    { chains := h.chains.replace he.linked he.nodup he.fresh_le he.off he.from_old
      dead := fun r hr => ?_, counts := by rw [hrefs, he.refCounts]; exact h.counts
      countable := fun r us hus => h.countable r us (he.refCounts ▸ hus)
      shape := fun l' list₁ hlist₁ => ?_, cursor := fun l' list₁ i hlist₁ => ?_
      lists_lt := fun l' list₁ hlist₁ => ?_
      refCounts_lt := fun r us hus => Nat.lt_of_lt_of_le (h.refCounts_lt r us (he.refCounts ▸ hus)) hle
      light_lt := fun i o hi => ?_, mutable_lt := fun i o hi => ?_ }
  · rw [he.refCounts] at hr
    have hne : r ≠ list.refCount := by
      rintro rfl
      obtain ⟨us, hus⟩ := h.exists_users hl
      rw [hus] at hr
      cases hr
    rw [Function.update_of_ne hne]
    exact h.dead r hr
  · obtain ⟨rfl, rfl⟩ | ⟨hne, hlist₁⟩ := lists_cases he.lists hlist₁
    · rw [he.refCount, Function.update_self]
      exact he.shape
    · rw [Function.update_of_ne (h.refCount_ne hl hown hne hlist₁)]
      exact h.shape l' list₁ hlist₁
  · rw [he.origins]
    obtain ⟨rfl, rfl⟩ | ⟨_, hlist₁⟩ := lists_cases he.lists hlist₁
    · rw [he.iterator]
      exact h.cursor _ list i hl
    · exact h.cursor l' list₁ i hlist₁
  · obtain ⟨rfl, rfl⟩ | ⟨_, hlist₁⟩ := lists_cases he.lists hlist₁
    · exact Nat.lt_of_lt_of_le (h.lists_lt _ list hl) hle
    · exact Nat.lt_of_lt_of_le (h.lists_lt l' list₁ hlist₁) hle
  · rw [lightOrigins, he.iterators] at hi
    have := h.light_lt i o hi
    omega
  · rw [he.origins] at hi
    have := h.mutable_lt i o hi
    omega

theorem storeNext_live {v : Option ℕ} (h : ∃ node, m.nodes a = some node) :
    m.storeNext a v = some { m with nodes := setNext m.nodes a v } := by
  obtain ⟨node, h⟩ := h
  rw [Memory.storeNext, h]
  rfl

theorem storePrevious_live {v : Option ℕ} (h : ∃ node, m.nodes a = some node) :
    m.storePrevious a v = some { m with nodes := setPrevious m.nodes a v } := by
  obtain ⟨node, h⟩ := h
  rw [Memory.storePrevious, h]
  rfl

/-! ## Copying a chain -/

/-- A node of the copy, for one of the chain that is copied. -/
def CopyOf (junk : ℕ → Payload α) (x y : ℕ × Payload α) : Prop := y.2 = copyPayload junk y.1 x.2

/-- `newList` and `q` of the copy. -/
def ends (d : List (ℕ × Payload α)) : Option (ℕ × ℕ) := (headOr none d).bind fun first => (lastOr none d).map (first, ·)

/-- The memory with a part `d` of a new chain, which nothing refers to yet. -/
structure Copying (m m₁ : Memory α) (d : List (ℕ × Payload α)) : Prop where
  lists : m₁.lists = m.lists
  refCounts : m₁.refCounts = m.refCounts
  iterators : m₁.iterators = m.iterators
  mutableIterators : m₁.mutableIterators = m.mutableIterators
  fresh_le : m.fresh ≤ m₁.fresh
  off : ∀ a < m.fresh, m₁.nodes a = m.nodes a
  linked : Linked m₁.nodes none d none
  nodup : (addresses d).Nodup
  new : ∀ a ∈ addresses d, m.fresh ≤ a ∧ a < m₁.fresh

theorem Copying.add {m₁ : Memory α} {d : List (ℕ × Payload α)} (hc : Copying m m₁ d) (payload : Payload α) :
    Copying m { (copyNode junk m₁ payload (lastOr none d)).2 with
      nodes := linkIn m₁.nodes m₁.fresh (copyPayload junk m₁.fresh payload) (lastOr none d) none }
      (d ++ [(m₁.fresh, copyPayload junk m₁.fresh payload)]) := by
  have hfresh : m₁.fresh ∉ addresses d := fun ha => Nat.lt_irrefl _ (hc.new _ ha).2
  have hle := hc.fresh_le
  refine
    { lists := hc.lists, refCounts := hc.refCounts, iterators := hc.iterators, mutableIterators := hc.mutableIterators
      fresh_le := Nat.le_trans hle (Nat.le_add_right _ _), off := fun a ha => ?_, linked := ?_, nodup := ?_
      new := fun a ha => ?_ }
  · have hne : a ≠ m₁.fresh := by omega
    have hlast : lastOr none d ≠ some a := by
      intro hlast
      have := hc.new a (lastOr_mem hlast)
      omega
    rw [← hc.off a ha]
    exact linkIn_off hne hlast (Option.some_ne_none a).symm
  · have hlinked := linked_linkIn (h := m₁.nodes) (A := d) (B := []) (a := m₁.fresh)
      (by rw [List.append_nil]; exact hc.linked) (by rw [List.append_nil]; exact hc.nodup)
      (copyPayload junk m₁.fresh payload) (by rw [List.append_nil]; exact hfresh)
    exact hlinked
  · rw [addresses_append, List.nodup_append]
    refine ⟨hc.nodup, List.nodup_cons.mpr ⟨List.not_mem_nil, List.nodup_nil⟩, fun a ha b hb hab => ?_⟩
    rw [addresses, List.map_singleton, List.mem_singleton] at hb
    rw [hab, hb] at ha
    exact hfresh ha
  · show _ ∧ a < m₁.fresh + 2
    rw [addresses_append, List.mem_append] at ha
    obtain ha | ha := ha
    · have := hc.new a ha
      omega
    · rw [addresses, List.map_singleton, List.mem_singleton] at ha
      omega

theorem ends_append (d : List (ℕ × Payload α)) (x : ℕ × Payload α) :
    ends (d ++ [x]) = some (((headOr none d).getD x.1), x.1) := by
  unfold ends
  rw [headOr_append, lastOr_append]
  cases d with
  | nil => rfl
  | cons y d => rfl

theorem detachLoop_spec (junk : ℕ → Payload α) (c : List (ℕ × Payload α)) :
    ∀ (fuel : ℕ) (m₁ : Memory α) (p : Option ℕ) (d : List (ℕ × Payload α)),
    c.length ≤ fuel → Linked m.nodes p c none → (∀ a ∈ addresses c, a < m.fresh) → Copying m m₁ d →
      ∃ m₂ d₂, detachLoop junk fuel m₁ (headOr none c) (ends d) = some (m₂, ends (d ++ d₂)) ∧ Copying m m₂ (d ++ d₂) ∧
        List.Forall₂ (CopyOf junk) c d₂ := by
  induction c with
  | nil =>
    intro fuel m₁ p d _ _ _ hc
    refine ⟨m₁, [], ?_, by rw [List.append_nil]; exact hc, .nil⟩
    rw [headOr, detachLoop, List.append_nil]
  | cons x c ih =>
    intro fuel m₁ p d hfuel hlinked hold hc
    rw [List.length_cons] at hfuel
    obtain ⟨fuel, rfl⟩ : ∃ k, fuel = k + 1 := ⟨fuel - 1, by omega⟩
    rw [addresses, List.map_cons, List.forall_mem_cons] at hold
    have hnode : m₁.nodes x.1 = some ⟨x.2, headOr none c, p⟩ := (hc.off x.1 hold.1).trans hlinked.1
    obtain ⟨m₂, d₂, hloop, hc₂, hcopies⟩ := ih fuel _ (some x.1) (d ++ [(m₁.fresh, copyPayload junk m₁.fresh x.2)])
      (by omega) hlinked.2 hold.2 (hc.add x.2)
    refine ⟨m₂, (m₁.fresh, copyPayload junk m₁.fresh x.2) :: d₂, ?_, ?_, .cons rfl hcopies⟩
    · rw [List.append_cons, ← hloop, headOr, ends_append]
      obtain ⟨rfl, _⟩ | ⟨d', y, rfl, hlast⟩ := lastOr_cases none d
      · rw [show ends ([] : List (ℕ × Payload α)) = none from rfl, detachLoop]
        simp only [hnode, Option.bind_eq_bind, Option.bind_some]
        rfl
      · have hy : y.1 ∈ addresses (d' ++ [y]) := List.mem_map_of_mem (List.mem_append_right _ List.mem_cons_self)
        have hne : y.1 ≠ m₁.fresh := Nat.ne_of_lt (hc.new _ hy).2
        have hlive : ∃ node, (copyNode junk m₁ x.2 (some y.1)).2.nodes y.1 = some node := by
          obtain ⟨node, hlive⟩ := hc.linked.live hy
          exact ⟨node, (Function.update_of_ne hne _ _).trans hlive⟩
        rw [ends_append, detachLoop]
        simp only [hnode, Option.bind_eq_bind, Option.bind_some, storeNext_live hlive, hlast]
        rw [headOr_append]
        cases d' with
        | nil => rfl
        | cons z d' => rfl
    · rw [List.append_cons]
      exact hc₂

/-! ## ListDetach -/

/-- A list that shared its chain has a copy of it now. -/
structure Detached (junk : ℕ → Payload α) (m m' : Memory α) (chain chain' : ℕ → List (ℕ × Payload α)) (l : ℕ)
    (list list' : SharedList) : Prop where
  wellFormed : WellFormed m' chain'
  lists : m'.lists = Function.update m.lists l (some list')
  own : ¬ Shared m' l
  count : list'.nodeCount = list.nodeCount
  state : list'.state = list.state
  iterator : list'.iterator = list.iterator
  copies : List.Forall₂ (CopyOf junk) (chain list.refCount) (chain' list'.refCount)
  chains : ∀ r us, m.refCounts r = some us → chain' r = chain r
  iterators : m'.iterators = m.iterators
  mutableIterators : m'.mutableIterators = m.mutableIterators
  fresh_le : m.fresh ≤ m'.fresh
  new : ∀ a ∈ addresses (chain' list'.refCount), m.fresh ≤ a

theorem listDetach_own (h : WellFormed m chain) (hl : m.lists l = some list) (hown : ¬ Shared m l) :
    listDetach junk m l = some m := by
  obtain ⟨us, hus⟩ := h.exists_users hl
  have hshort : ¬ 1 < userCount us := by
    rw [userCount_eq (h.countable _ us hus)]
    exact fun hlong => hown ⟨list, us, hl, hus, hlong⟩
  unfold listDetach refCountIsShared
  simp only [hl, hus, Option.bind_eq_bind, Option.bind_some, Option.map_some, decide_eq_true_eq, if_neg hshort]

theorem ends_eq (d : List (ℕ × Payload α)) :
    (ends d).map Prod.fst = headOr none d ∧ (ends d).map Prod.snd = lastOr none d := by
  cases d with
  | nil => exact ⟨rfl, rfl⟩
  | cons x d =>
    cases hlast : lastOr none (x :: d) with
    | none => exact absurd (lastOr_eq_none_iff.mp hlast) (List.cons_ne_nil x d)
    | some q =>
      rw [ends, hlast]
      exact ⟨rfl, rfl⟩

/-- The copy `d` becomes the chain of `l`, under a new count `ref`. -/
theorem wellFormed_attach (h : WellFormed m chain) (hl : m.lists l = some list) {us : List ℕ}
    (hus : m.refCounts list.refCount = some us) {d : List (ℕ × Payload α)} {m₂ m' : Memory α} (hc : Copying m m₂ d)
    (hshape : Shape list' d) (href : list'.refCount = m₂.fresh) (hiterator : list'.iterator = list.iterator)
    (hnodes : m'.nodes = m₂.nodes) (hlists : m'.lists = Function.update m.lists l (some list'))
    (hrefs : m'.refCounts = Function.update (Function.update m.refCounts list.refCount (some (us.erase l))) m₂.fresh (some [l]))
    (hits : m'.iterators = m.iterators) (hmuts : m'.mutableIterators = m.mutableIterators)
    (hfresh : m'.fresh = m₂.fresh + 1) : WellFormed m' (Function.update chain m₂.fresh d) := by
  have hle := hc.fresh_le
  have hlt := h.refCount_lt hl
  have hne : m₂.fresh ≠ list.refCount := by omega
  have hold : ∀ l' list₁, m.lists l' = some list₁ → list₁.refCount ≠ m₂.fresh := by
    intro l' list₁ hlist₁
    have := h.refCount_lt hlist₁
    omega
  refine
    { chains := ?_, dead := fun r hr => ?_, counts := ?_, countable := fun r us' hus' => ?_
      shape := fun l' list₁ hlist₁ => ?_, cursor := fun l' list₁ i hlist₁ => ?_
      lists_lt := fun l' list₁ hlist₁ => ?_, refCounts_lt := fun r us' hus' => ?_
      light_lt := fun i o hi => ?_, mutable_lt := fun i o hi => ?_ }
  · rw [hnodes, hfresh]
    refine h.chains.replace hc.linked hc.nodup (by omega) (fun a ha _ => hc.off a ha) fun a ha => .inr ?_
    have := hc.new a ha
    omega
  · rw [hrefs] at hr
    by_cases h₁ : r = m₂.fresh
    · rw [h₁, Function.update_self] at hr
      cases hr
    · rw [Function.update_of_ne h₁] at hr ⊢
      by_cases h₂ : r = list.refCount
      · rw [h₂, Function.update_self] at hr
        cases hr
      · rw [Function.update_of_ne h₂] at hr
        exact h.dead r hr
  · -- the list leaves its old count and is the first under the new one
    have hcounts := h.counts.detach hus (refCountOf_live hl)
    have hnone : Function.update m.refCounts list.refCount (some (us.erase l)) m₂.fresh = none := by
      rw [Function.update_of_ne hne]
      exact h.refCounts_fresh hle
    have hattached := hcounts.attachNew (k := l) hnone (Function.update_self ..)
    rw [Function.update_idem] at hattached
    rw [refCountOf_update hlists, hrefs, Option.map_some, href]
    exact hattached
  · rw [hrefs] at hus'
    by_cases h₁ : r = m₂.fresh
    · rw [h₁, Function.update_self] at hus'
      cases hus'
      exact Nat.one_lt_two_pow (by decide)
    · rw [Function.update_of_ne h₁] at hus'
      by_cases h₂ : r = list.refCount
      · rw [h₂, Function.update_self] at hus'
        cases hus'
        exact Nat.lt_of_le_of_lt List.length_erase_le (h.countable _ us hus)
      · rw [Function.update_of_ne h₂] at hus'
        exact h.countable r us' hus'
  · obtain ⟨rfl, rfl⟩ | ⟨_, hlist₁⟩ := lists_cases hlists hlist₁
    · rw [href, Function.update_self]
      exact hshape
    · rw [Function.update_of_ne (hold l' list₁ hlist₁)]
      exact h.shape l' list₁ hlist₁
  · rw [origins, hmuts]
    obtain ⟨rfl, rfl⟩ | ⟨_, hlist₁⟩ := lists_cases hlists hlist₁
    · rw [hiterator]
      exact h.cursor _ list i hl
    · exact h.cursor l' list₁ i hlist₁
  · obtain ⟨rfl, rfl⟩ | ⟨_, hlist₁⟩ := lists_cases hlists hlist₁
    · have := h.lists_lt _ list hl
      omega
    · have := h.lists_lt l' list₁ hlist₁
      omega
  · rw [hrefs] at hus'
    by_cases h₁ : r = m₂.fresh
    · omega
    · rw [Function.update_of_ne h₁] at hus'
      by_cases h₂ : r = list.refCount
      · omega
      · rw [Function.update_of_ne h₂] at hus'
        have := h.refCounts_lt r us' hus'
        omega
  · rw [lightOrigins, hits] at hi
    have := h.light_lt i o hi
    omega
  · rw [origins, hmuts] at hi
    have := h.mutable_lt i o hi
    omega

theorem listDetach_shared (junk : ℕ → Payload α) (h : WellFormed m chain) (hl : m.lists l = some list) (hshared : Shared m l) :
    ∃ m' chain' list', listDetach junk m l = some m' ∧ Detached junk m m' chain chain' l list list' := by
  obtain ⟨_, us, hl', hus, hlong⟩ := hshared
  rw [hl] at hl'
  cases hl'
  have hmem := h.counts.mem (refCountOf_live hl) hus
  have hmany : 1 < userCount us := by
    rw [userCount_eq (h.countable _ us hus)]
    exact hlong
  have hstart : Copying m m [] := ⟨rfl, rfl, rfl, rfl, Nat.le_refl _, fun _ _ => rfl, trivial, List.nodup_nil,
    fun _ ha => absurd ha List.not_mem_nil⟩
  obtain ⟨m₂, d, hloop, hc, hcopies⟩ := detachLoop_spec junk (chain list.refCount) m.fresh m none []
    (h.length_le _) (h.chains.linked _) (h.chains.bounded _) hstart
  rw [List.nil_append] at hloop hc
  rw [show ends ([] : List (ℕ × Payload α)) = none from rfl, ← (h.shape l list hl).list] at hloop
  have hcount : ((chain list.refCount).length : ℤ) = d.length := by rw [hcopies.length_eq]
  let list' : SharedList := { list with
    list := (ends d).map Prod.fst, first := (ends d).map Prod.fst, last := (ends d).map Prod.snd, refCount := m₂.fresh }
  have hshape : Shape list' d :=
    ⟨(ends_eq d).1, (ends_eq d).1, (ends_eq d).2, (h.shape l list hl).count.trans hcount⟩
  let m' : Memory α := { m₂ with
    lists := Function.update m₂.lists l (some list')
    refCounts := Function.update (Function.update (Function.update m.refCounts list.refCount (some (us.erase l))) m₂.fresh
      (some [])) m₂.fresh (some [l])
    fresh := m₂.fresh + 1 }
  have hwf : WellFormed m' (Function.update chain m₂.fresh d) := by
    refine wellFormed_attach h hl hus hc hshape rfl rfl rfl ?_ ?_ hc.iterators hc.mutableIterators rfl
    · rw [← hc.lists]
    · exact Function.update_idem ..
  have hlist' : m'.lists l = some list' := Function.update_self ..
  refine ⟨m', Function.update chain m₂.fresh d, list', ?_, ?_⟩
  · unfold listDetach refCountIsShared detachShared refCountDetach refCountNew refCountAttach
    simp only [hl, hus, Option.bind_eq_bind, Option.bind_some, Option.map_some, decide_eq_true_eq, if_pos hmany, hloop,
      hc.refCounts, if_neg (Nat.not_le.mpr hmany), if_pos hmem, Memory.setList, Function.update_self]
    rfl
  · refine
      { wellFormed := hwf, lists := by rw [← hc.lists], own := ?_, count := rfl, state := rfl, iterator := rfl, copies := ?_
        chains := fun r us' hus' => ?_, iterators := hc.iterators, mutableIterators := hc.mutableIterators
        fresh_le := Nat.le_trans hc.fresh_le (Nat.le_succ _), new := fun a ha => ?_ }
    · rintro ⟨list₁, us₁, hlist₁, hus₁, hlong₁⟩
      rw [hlist'] at hlist₁
      cases hlist₁
      have husers : m'.refCounts m₂.fresh = some [l] := Function.update_self ..
      rw [husers] at hus₁
      cases hus₁
      exact absurd hlong₁ (Nat.lt_irrefl 1)
    · rw [show list'.refCount = m₂.fresh from rfl, Function.update_self]
      exact hcopies
    · have := h.refCounts_lt r us' hus'
      have := hc.fresh_le
      rw [Function.update_of_ne (by omega)]
    · rw [show list'.refCount = m₂.fresh from rfl, Function.update_self] at ha
      exact (hc.new a ha).1

end Libntech.Containers.LinkedList
