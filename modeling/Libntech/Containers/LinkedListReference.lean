import Libntech.Containers.LinkedListMeaning

/-! # A list against a sequence with a cursor

A list that nobody copies is to be a sequence of payloads, with at most one mutable iterator, which stands at one of
them. `Reference` is this sequence and the place of the iterator, `Action.apply` what an operation does to it, and
`Matches` says that the nodes, the pointers, the count and the iterator of the list are those of the sequence. Every
operation keeps this, and returns what the reference says, as long as `node_count`, an `int`, can count the elements:
an insertion into a list of `INT_MAX` elements counts out of its range.
-/
namespace Libntech.Containers.LinkedList
open Lib Lib.Chain
set_option autoImplicit false

variable {α : Type} {fns : ListFns α} {junk : ℕ → Payload α} {m m' : Memory α} {l : ℕ} {list list' : SharedList}
  {chain : ℕ → List (ℕ × Payload α)} {A B c : List (ℕ × Payload α)} {x : ℕ × Payload α} {p : ℕ × α}

/-! ## The reference -/

/-- The place of the mutable iterator. -/
inductive Cursor where
  | absent
  | invalid
  | at' (k : ℕ)

/-- After an insertion at `j` the iterator is at the element where it was. -/
def Cursor.inserted (j : ℕ) : Cursor → Cursor
  | .at' k => if k < j then .at' k else .at' (k + 1)
  | cursor => cursor

/-- After the removal of the element `j` out of `n`: an iterator that was there goes to the next element, else to the
previous one, else it becomes invalid. -/
def Cursor.erased (j n : ℕ) : Cursor → Cursor
  | .at' k =>
    if k < j then .at' k
    else if j < k then .at' (k - 1)
    else if j + 1 < n then .at' j
    else if 0 < j then .at' (j - 1)
    else .invalid
  | cursor => cursor

structure Reference (α : Type) where
  items : List (ℕ × α)
  cursor : Cursor

namespace Reference

def insert (ref : Reference α) (j : ℕ) (p : ℕ × α) : Reference α :=
  { items := ref.items.take j ++ p :: ref.items.drop j, cursor := ref.cursor.inserted j }

def erase (ref : Reference α) (j : ℕ) : Reference α :=
  { items := ref.items.take j ++ ref.items.drop (j + 1), cursor := ref.cursor.erased j ref.items.length }

/-- What is done through an iterator that is there and valid; else the result is `-1`. -/
def through (ref : Reference α) (act : ℕ → Reference α × Bool) : Reference α × Bool :=
  match ref.cursor with
  | .at' k => act k
  | _ => (ref, false)

end Reference

/-- Whether an element is the payload that is to be removed. -/
def isPayload (fns : ListFns α) (p q : ℕ × α) : Bool :=
  match fns.compare with
  | some compare => compare q.2 p.2
  | none => decide (q.1 = p.1)

inductive Action (α : Type) where
  | prepend (p : ℕ × α)
  | append (p : ℕ × α)
  | remove (p : ℕ × α)
  | mutableGet
  | mutableRelease
  | mutableToEnd (e : End)
  | mutableGo (w : Way)
  | mutableRemove
  | mutablePrepend (p : ℕ × α)
  | mutableAppend (p : ℕ × α)

/-- The place at an end of `n` elements. -/
def End.place (n : ℕ) : End → ℕ
  | .first => 0
  | .last => n - 1

/-- The place next to `k` among `n` elements. -/
def Way.place (n k : ℕ) : Way → Option ℕ
  | .next => if k + 1 < n then some (k + 1) else none
  | .previous => if 0 < k then some (k - 1) else none

def Action.apply (fns : ListFns α) (ref : Reference α) : Action α → Reference α × Bool
  | .prepend p => (ref.insert 0 p, true)
  | .append p => (ref.insert ref.items.length p, true)
  | .remove p =>
    match ref.items.findIdx? (isPayload fns p) with
    | some j => (ref.erase j, true)
    | none => (ref, false)
  | .mutableGet =>
    match ref.cursor with
    | .absent => if ref.items.isEmpty then (ref, false) else ({ ref with cursor := .at' 0 }, true)
    | _ => (ref, false)
  | .mutableRelease => ({ ref with cursor := .absent }, true)
  | .mutableToEnd e => ref.through fun _ => ({ ref with cursor := .at' (e.place ref.items.length) }, true)
  | .mutableGo w => ref.through fun k =>
    match w.place ref.items.length k with
    | some j => ({ ref with cursor := .at' j }, true)
    | none => (ref, false)
  | .mutableRemove => ref.through fun k => if ref.items.length = 1 then (ref, false) else (ref.erase k, true)
  | .mutablePrepend p => ref.through fun k => (ref.insert k p, true)
  | .mutableAppend p => ref.through fun k => (ref.insert (k + 1) p, true)

/-- The sequence after some operations, and their results. -/
def applyAll (fns : ListFns α) (ref : Reference α) : List (Action α) → Reference α × List Bool
  | [] => (ref, [])
  | action :: actions =>
    let (ref, b) := action.apply fns ref
    let (ref, bs) := applyAll fns ref actions
    (ref, b :: bs)

/-- No operation makes a sequence that an `int` cannot count. -/
def Fits (fns : ListFns α) (ref : Reference α) : List (Action α) → Prop
  | [] => True
  | action :: actions =>
    (action.apply fns ref).1.items.length < 2 ^ 31 ∧ Fits fns (action.apply fns ref).1 actions

/-! ## The list -/

/-- An operation on the list `l`; those of the mutable iterator are called with the one that the list has, or `NULL`.
For `ListMutableIteratorGet` the result is whether there is an iterator. -/
def perform (fns : ListFns α) (junk : ℕ → Payload α) (l : ℕ) (m : Memory α) (action : Action α) :
    Option (Memory α × Bool) := do
  let list ← m.lists l
  let through := list.iterator.elim (some (m, false))
  match action with
  | .prepend p => (listPrepend junk m l (some p)).map (·, true)
  | .append p => (listAppend junk m l (some p)).map (·, true)
  | .remove p => listRemove fns junk m l (some p)
  | .mutableGet => (listMutableIteratorGet m l).map fun r => (r.1, r.2.isSome)
  | .mutableRelease => list.iterator.elim (some (m, true)) fun i => (listMutableIteratorRelease m i).map (·, true)
  | .mutableToEnd e => through (mutableToEnd e m)
  | .mutableGo w => through (mutableGo w m)
  | .mutableRemove => through (listMutableIteratorRemove junk m)
  | .mutablePrepend p => through (listMutableIteratorPrepend junk m · (some p))
  | .mutableAppend p => through (listMutableIteratorAppend junk m · (some p))

def performAll (fns : ListFns α) (junk : ℕ → Payload α) (l : ℕ) (m : Memory α) :
    List (Action α) → Option (Memory α × List Bool)
  | [] => some (m, [])
  | action :: actions => do
    let (m, b) ← perform fns junk l m action
    let (m, bs) ← performAll fns junk l m actions
    return (m, b :: bs)

/-- The iterator of a list with these nodes is at this place. -/
def CursorAt (m : Memory α) (list : SharedList) (nodes : List (ℕ × Payload α)) : Cursor → Prop
  | .absent => list.iterator = none
  | .invalid => ∃ i it, list.iterator = some i ∧ m.mutableIterators i = some it ∧ it.valid = false
  | .at' k => ∃ i it x, list.iterator = some i ∧ m.mutableIterators i = some it ∧ it.valid = true ∧
      nodes[k]? = some x ∧ it.current = some x.1

/-- The chain `c` of the list, node by node the elements of the sequence. -/
structure Represents (m : Memory α) (list : SharedList) (c : List (ℕ × Payload α)) (ref : Reference α) : Prop where
  linked : Linked m.nodes none c none
  nodup : (addresses c).Nodup
  inverse : ∀ a ∈ addresses c, ∀ b ∈ addresses c,
    (∃ node, m.nodes a = some node ∧ node.next = some b) ↔ ∃ node, m.nodes b = some node ∧ node.previous = some a
  items : c.map Prod.snd = ref.items.map some
  shape : Shape list c
  count : list.nodeCount = ref.items.length
  cursor : CursorAt m list c ref.cursor

def Matches (m : Memory α) (l : ℕ) (ref : Reference α) : Prop :=
  ∃ list c, m.lists l = some list ∧ Represents m list c ref

/-! ## What holds between two operations -/

structure Matching (m : Memory α) (chain : ℕ → List (ℕ × Payload α)) (l : ℕ) (list : SharedList)
    (ref : Reference α) : Prop where
  wellFormed : WellFormed m chain
  live : m.lists l = some list
  own : ¬ Shared m l
  items : (chain list.refCount).map Prod.snd = ref.items.map some
  cursor : CursorAt m list (chain list.refCount) ref.cursor

variable {ref : Reference α}

theorem Matching.length (hm : Matching m chain l list ref) : (chain list.refCount).length = ref.items.length := by
  have hlen := congrArg List.length hm.items
  rw [List.length_map, List.length_map] at hlen
  exact hlen

theorem Matching.hasRoom_iff (hm : Matching m chain l list ref) : HasRoom list ↔ ref.items.length + 1 < 2 ^ 31 := by
  have hcount := (hm.wellFormed.shape l list hm.live).count
  rw [hm.length] at hcount
  rw [HasRoom, hcount]
  omega

theorem Matching.matches (hm : Matching m chain l list ref) : Matches m l ref := by
  have hlinked := hm.wellFormed.chains.linked list.refCount
  have hshape := hm.wellFormed.shape l list hm.live
  refine ⟨list, chain list.refCount, hm.live, ?_⟩
  refine
    { linked := hlinked, nodup := hm.wellFormed.chains.nodup list.refCount, items := hm.items, shape := hshape
      inverse := fun a ha b hb => hlinked.next_iff_previous ha hb, count := ?_, cursor := hm.cursor }
  rw [hshape.count, hm.length]

theorem Edits.own {c c' : List (ℕ × Payload α)} (he : Edits m m' l list list' c c') (hl : m.lists l = some list)
    (hown : ¬ Shared m l) : ¬ Shared m' l := by
  rintro ⟨list₁, us, hlist₁, hus, hlong⟩
  rw [he.lists, Function.update_self] at hlist₁
  cases hlist₁
  rw [he.refCounts, he.refCount] at hus
  exact hown ⟨list, us, hl, hus, hlong⟩

/-- An edit of the chain is an edit of the sequence, if the iterator goes with it. -/
theorem Matching.edited {ref' : Reference α} (hm : Matching m chain l list ref)
    (he : Edits m m' l list list' (chain list.refCount) c) (hitems : c.map Prod.snd = ref'.items.map some)
    (hcursor : CursorAt m' list' c ref'.cursor) : ∃ chain', Matching m' chain' l list' ref' := by
  have hchanged := he.changed hm.wellFormed hm.live hm.own
  refine ⟨_, hchanged.wellFormed, hchanged.live, he.own hm.live hm.own, ?_, ?_⟩
  · rw [hchanged.shown]
    exact hitems
  · rw [hchanged.shown]
    exact hcursor

/-- The two parts of the chain are the two parts of the sequence. -/
theorem Matching.parts (hm : Matching m chain l list ref) (hc : chain list.refCount = A ++ B) :
    A.map Prod.snd = (ref.items.take A.length).map some ∧ B.map Prod.snd = (ref.items.drop A.length).map some := by
  have hitems := hm.items
  rw [hc] at hitems
  rw [List.map_take, List.map_drop, ← hitems]
  exact ⟨(take_items A B).symm, (drop_items A B).symm⟩

/-! ## Insertions -/

variable {i j k n : ℕ} {action : Action α} {cursor : Cursor} {it : ListMutableIterator} {actions : List (Action α)}

theorem Reference.length_insert : (ref.insert j p).items.length = ref.items.length + 1 := by
  rw [Reference.insert, List.length_append, List.length_cons, List.length_take, List.length_drop]
  omega

theorem Matching.room_of_fits (hm : Matching m chain l list ref) (hfits : (ref.insert j p).items.length < 2 ^ 31) :
    HasRoom list := by
  rw [Reference.length_insert] at hfits
  exact hm.hasRoom_iff.mpr hfits

theorem CursorAt.inserted {y : ℕ × Payload α} (h : CursorAt m list (A ++ B) cursor)
    (hiterator : list'.iterator = list.iterator) (hmutable : m'.mutableIterators = m.mutableIterators) :
    CursorAt m' list' (A ++ y :: B) (cursor.inserted A.length) := by
  cases cursor with
  | absent => exact hiterator.trans h
  | invalid =>
    obtain ⟨i, it, hi, hit, hvalid⟩ := h
    exact ⟨i, it, hiterator.trans hi, by rw [hmutable, hit], hvalid⟩
  | at' k =>
    obtain ⟨i, it, x, hi, hit, hvalid, hx, hcurrent⟩ := h
    rw [Cursor.inserted]
    split
    · next hk =>
      refine ⟨i, it, x, hiterator.trans hi, by rw [hmutable, hit], hvalid, ?_, hcurrent⟩
      rw [List.getElem?_append_left hk] at hx ⊢
      exact hx
    · next hk =>
      refine ⟨i, it, x, hiterator.trans hi, by rw [hmutable, hit], hvalid, ?_, hcurrent⟩
      rw [List.getElem?_append_right (by omega)] at hx ⊢
      rw [show k + 1 - A.length = k - A.length + 1 by omega, List.getElem?_cons_succ]
      exact hx

theorem Matching.inserted (hm : Matching m chain l list ref) (hc : chain list.refCount = A ++ B)
    (hins : Inserted m m' l list list' A B (some p)) :
    ∃ chain', Matching m' chain' l list' (ref.insert A.length p) := by
  obtain ⟨hA, hB⟩ := hm.parts hc
  have hcursor := hm.cursor
  rw [hc] at hcursor
  refine hm.edited (hins.edits hm.wellFormed hc) ?_ (hcursor.inserted hins.iterator hins.mutableIterators)
  rw [Reference.insert, List.map_append, List.map_append, List.map_cons, List.map_cons, hA, hB]

/-! ## Removals -/

theorem movedOff_off (h : it.current ≠ some x.1) : it.movedOff A x B = it := by
  rw [ListMutableIterator.movedOff, if_neg h]

theorem movedOff_at {a : ℕ} (h : it.current = some x.1) (ha : (headOr none B).or (lastOr none A) = some a) :
    it.movedOff A x B = { it with current := some a } := by
  rw [ListMutableIterator.movedOff, if_pos h, ha]

theorem movedOff_invalid (h : it.valid = false) : (it.movedOff A x B).valid = false := by
  unfold ListMutableIterator.movedOff
  split
  · cases (headOr none B).or (lastOr none A) with
    | some target => exact h
    | none => rfl
  · exact h

theorem place_unique {y : ℕ × Payload α} (hnodup : (addresses (A ++ x :: B)).Nodup) (hy : (A ++ x :: B)[k]? = some y)
    (hyx : y.1 = x.1) : k = A.length := by
  have hplace : (addresses (A ++ x :: B))[k]? = (addresses (A ++ x :: B))[A.length]? := by
    rw [addresses, List.getElem?_map, List.getElem?_map, hy, List.getElem?_append_right (Nat.le_refl _), Nat.sub_self]
    exact congrArg some hyx
  have hk : k < (A ++ x :: B).length := (List.getElem?_eq_some_iff.mp hy).1
  refine (List.getElem?_inj ?_ hnodup).mp hplace
  rw [addresses, List.length_map]
  exact hk

/-- The iterator of the list, moved off the element that goes, is where the rule says. -/
theorem CursorAt.erased (h : CursorAt m list (A ++ x :: B) cursor) (hnodup : (addresses (A ++ x :: B)).Nodup)
    (hiterator : list'.iterator = list.iterator) (hmoves : MovesOff m m' list A x B) :
    CursorAt m' list' (A ++ B) (cursor.erased A.length (A ++ x :: B).length) := by
  cases cursor with
  | absent => exact hiterator.trans h
  | invalid =>
    obtain ⟨i, it, hi, hit, hvalid⟩ := h
    exact ⟨i, _, hiterator.trans hi, hmoves i it hi hit, movedOff_invalid hvalid⟩
  | at' k =>
    obtain ⟨i, it, y, hi, hit, hvalid, hy, hcurrent⟩ := h
    have hi' : list'.iterator = some i := hiterator.trans hi
    have hit' := hmoves i it hi hit
    have hoff : k ≠ A.length → it.movedOff A x B = it := by
      intro hk
      refine movedOff_off fun hx => hk (place_unique hnodup hy ?_)
      exact Option.some.inj (hcurrent.symm.trans hx)
    rw [Cursor.erased, List.length_append, List.length_cons]
    rcases Nat.lt_trichotomy k A.length with hk | rfl | hk
    · rw [if_pos hk]
      rw [hoff (Nat.ne_of_lt hk)] at hit'
      rw [List.getElem?_append_left hk] at hy
      exact ⟨i, it, y, hi', hit', hvalid, by rw [List.getElem?_append_left hk, hy], hcurrent⟩
    · -- the iterator is at the element that goes
      rw [if_neg (Nat.lt_irrefl _), if_neg (Nat.lt_irrefl _)]
      rw [List.getElem?_append_right (Nat.le_refl _), Nat.sub_self, List.getElem?_cons_zero] at hy
      cases hy
      cases B with
      | cons z B =>
        rw [if_pos (by simp)]
        rw [movedOff_at hcurrent rfl] at hit'
        exact ⟨i, _, z, hi', hit', hvalid, by simp, rfl⟩
      | nil =>
        rw [if_neg (by simp)]
        obtain ⟨rfl, hlast⟩ | ⟨A, z, rfl, hlast⟩ := lastOr_cases none A
        · rw [if_neg (by simp)]
          refine ⟨i, _, hi', hit', ?_⟩
          rw [ListMutableIterator.movedOff, if_pos hcurrent]
          rfl
        · rw [if_pos (by simp)]
          rw [movedOff_at hcurrent (by rw [headOr_nil, hlast]; rfl)] at hit'
          exact ⟨i, _, z, hi', hit', hvalid, by simp, rfl⟩
    · rw [if_neg (by omega), if_pos hk]
      rw [hoff (Nat.ne_of_gt hk)] at hit'
      rw [List.getElem?_append_right (by omega), show k - A.length = k - 1 - A.length + 1 by omega,
        List.getElem?_cons_succ] at hy
      exact ⟨i, it, y, hi', hit', hvalid, by rw [List.getElem?_append_right (by omega), hy], hcurrent⟩

theorem Matching.erased (hm : Matching m chain l list ref) (hc : chain list.refCount = A ++ x :: B)
    (hr : Removed m m' l list list' A x B) (hmoves : MovesOff m m' list A x B) :
    ∃ chain', Matching m' chain' l list' (ref.erase A.length) := by
  have hcursor := hm.cursor
  have hnodup := hm.wellFormed.chains.nodup list.refCount
  have hlen := hm.length
  have hbehind := (hm.parts (A := A ++ [x]) (B := B) (by rw [hc, List.append_cons])).2
  rw [List.length_append, List.length_singleton] at hbehind
  rw [hc] at hcursor hnodup hlen
  refine hm.edited (hr.edits hm.wellFormed hc) ?_ ?_
  · rw [Reference.erase, List.map_append, List.map_append, (hm.parts hc).1, hbehind]
  · rw [Reference.erase, ← hlen]
    exact hcursor.erased hnodup hr.iterator hmoves

/-! ## Each operation -/

/-- The operation returns what the reference says, and the list is the sequence again. -/
def Follows (fns : ListFns α) (junk : ℕ → Payload α) (m : Memory α) (l : ℕ) (ref : Reference α) (action : Action α) :
    Prop :=
  ∃ m' chain' list', perform fns junk l m action = some (m', (action.apply fns ref).2) ∧
    Matching m' chain' l list' (action.apply fns ref).1

theorem follows_of_inserted (hm : Matching m chain l list ref) (happly : action.apply fns ref = (ref.insert j p, true))
    (hc : chain list.refCount = A ++ B) (hj : A.length = j) (hins : Inserted m m' l list list' A B (some p))
    (hperform : perform fns junk l m action = some (m', true)) :
    Follows fns junk m l ref action := by
  obtain ⟨chain', hm'⟩ := hm.inserted hc hins
  rw [hj] at hm'
  refine ⟨m', chain', list', ?_, ?_⟩
  · rw [happly, hperform]
  · rw [happly]
    exact hm'

theorem prepend_follows (hm : Matching m chain l list ref) (hfits : (ref.insert 0 p).items.length < 2 ^ 31) :
    Follows fns junk m l ref (.prepend p) := by
  obtain ⟨m', list', hstep, hins⟩ :=
    listPrepend_own junk hm.wellFormed hm.live hm.own (hm.room_of_fits hfits) (some p)
  refine follows_of_inserted hm rfl (List.nil_append _).symm rfl hins ?_
  simp [perform, hm.live, hstep]

theorem append_follows (hm : Matching m chain l list ref)
    (hfits : (ref.insert ref.items.length p).items.length < 2 ^ 31) : Follows fns junk m l ref (.append p) := by
  obtain ⟨m', list', hstep, hins⟩ :=
    listAppend_own junk hm.wellFormed hm.live hm.own (hm.room_of_fits hfits) (some p)
  refine follows_of_inserted hm rfl (List.append_nil _).symm hm.length hins ?_
  simp [perform, hm.live, hstep]

theorem isFound_some (fns : ListFns α) (p q : ℕ × α) : isFound fns p (some q) = isPayload fns p q := by
  unfold isFound isMatch isPayload
  cases fns.compare with
  | none => simp
  | some compare => rfl

theorem findIdx?_items (hm : Matching m chain l list ref) (p : ℕ × α) :
    ref.items.findIdx? (isPayload fns p) = ((chain list.refCount).map Prod.snd).findIdx? (isFound fns p) := by
  rw [hm.items, List.findIdx?_map]
  congr 1
  funext q
  exact (isFound_some fns p q).symm

theorem dropMatch_ne_none {items : List (ℕ × α)} (h : (items.map some).any (isFound fns p) = true) :
    dropMatch fns p (items.map some) ≠ none := by
  induction items with
  | nil => cases h
  | cons q items ih =>
    rw [List.map_cons, List.any_cons] at h
    rw [List.map_cons, dropMatch, isMatch_some]
    cases hq : isFound fns p (some q) with
    | true => simp
    | false =>
      rw [hq, Bool.false_or] at h
      simpa using ih h

theorem remove_follows (hm : Matching m chain l list ref) (p : ℕ × α) : Follows fns junk m l ref (.remove p) := by
  have hindex : ref.items.findIdx? (isPayload fns p) = _ := findIdx?_items hm p
  have hperform : perform fns junk l m (.remove p) = listRemove fns junk m l (some p) := by simp [perform, hm.live]
  cases hfound : ((chain list.refCount).map Prod.snd).any (isFound fns p) with
  | false =>
    have hnone : ref.items.findIdx? (isPayload fns p) = none := by
      rw [hindex, List.findIdx?_eq_none_iff]
      simpa only [List.any_eq_false, Bool.not_eq_true] using hfound
    refine ⟨m, chain, list, ?_, ?_⟩
    · rw [hperform, listRemove_missing hm.wellFormed hm.live hfound, Action.apply, hnone]
    · rw [Action.apply, hnone]
      exact hm
  | true =>
    have hremove : listRemove fns junk m l (some p) = _ := listRemove_found hm.wellFormed hm.live hfound
    rw [listDetach_own hm.wellFormed hm.live hm.own, Option.bind_some] at hremove
    obtain ⟨-, hdrop⟩ | ⟨m', list', A, x, B, hc, hsome, -, hr, hmoves, hbefore, hhere⟩ :=
      removeAgain_own fns hm.wellFormed hm.live p
    · rw [hm.items] at hdrop hfound
      exact absurd hdrop (dropMatch_ne_none hfound)
    · have hplace : ref.items.findIdx? (isPayload fns p) = some A.length := by
        have hnone : A.findIdx? (isFound fns p ∘ Prod.snd) = none := by
          rw [List.findIdx?_eq_none_iff]
          simpa using hbefore
        rw [hindex, hc, List.findIdx?_map, List.findIdx?_append, hnone, List.findIdx?_cons]
        simp [hhere]
      obtain ⟨chain', hm'⟩ := hm.erased hc hr hmoves
      refine ⟨m', chain', list', ?_, ?_⟩
      · rw [hperform, hremove, hsome, Action.apply, hplace]
        rfl
      · rw [Action.apply, hplace]
        exact hm'

/-! ## The mutable iterator -/

/-- The list itself stays as it is when only its iterator changes. -/
theorem Matching.of_cursor (hm : Matching m chain l list ref) (hwf : WellFormed m' chain) (hl : m'.lists l = some list')
    (hrefCount : list'.refCount = list.refCount) (hrefCounts : m'.refCounts = m.refCounts)
    (hcursor : CursorAt m' list' (chain list.refCount) cursor) :
    Matching m' chain l list' { ref with cursor := cursor } := by
  refine ⟨hwf, hl, ?_, by rw [hrefCount]; exact hm.items, by rw [hrefCount]; exact hcursor⟩
  rintro ⟨list₁, us, hlist₁, hus, hlong⟩
  rw [hl] at hlist₁
  cases hlist₁
  rw [hrefCounts, hrefCount] at hus
  exact hm.own ⟨list, us, hm.live, hus, hlong⟩

theorem Matching.first_isNone (hm : Matching m chain l list ref) : list.first.isNone = ref.items.isEmpty := by
  have hlen := hm.length
  rw [(hm.wellFormed.shape l list hm.live).first]
  cases hc : chain list.refCount with
  | nil =>
    rw [hc] at hlen
    cases hitems : ref.items with
    | nil => rfl
    | cons q items => rw [hitems] at hlen; cases hlen
  | cons x c =>
    rw [hc] at hlen
    cases hitems : ref.items with
    | nil => rw [hitems] at hlen; cases hlen
    | cons q items => rfl

theorem follows_of_refused (hm : Matching m chain l list ref) (happly : action.apply fns ref = (ref, false))
    (hperform : perform fns junk l m action = some (m, false)) :
    Follows fns junk m l ref action :=
  ⟨m, chain, list, by rw [hperform, happly], by rw [happly]; exact hm⟩

theorem mutableGet_follows (hm : Matching m chain l list ref) : Follows fns junk m l ref .mutableGet := by
  have hfirst := hm.first_isNone
  have hcursor := hm.cursor
  have hperform : perform fns junk l m .mutableGet = some
      (if list.iterator.isSome || list.first.isNone then (m, false) else (withMutable m l list, true)) := by
    simp only [perform, hm.live, Option.bind_eq_bind, Option.bind_some, listMutableIteratorGet_eq hm.live, Option.map_some]
    split
    · rfl
    · rfl
  cases hplace : ref.cursor with
  | invalid =>
    rw [hplace] at hcursor
    obtain ⟨i, it, hi, -⟩ := hcursor
    exact follows_of_refused hm (by simp [Action.apply, hplace]) (by simp [hperform, hi])
  | at' k =>
    rw [hplace] at hcursor
    obtain ⟨i, it, x, hi, -⟩ := hcursor
    exact follows_of_refused hm (by simp [Action.apply, hplace]) (by simp [hperform, hi])
  | absent =>
    rw [hplace] at hcursor
    have hfree : list.iterator = none := hcursor
    cases hempty : ref.items.isEmpty with
    | true =>
      rw [hempty] at hfirst
      exact follows_of_refused hm (by simp [Action.apply, hplace, hempty]) (by simp [hperform, hfirst])
    | false =>
      rw [hempty] at hfirst
      have happly : Action.apply fns ref .mutableGet = ({ ref with cursor := .at' 0 }, true) := by
        simp [Action.apply, hplace, hempty]
      have hlive : (withMutable m l list).lists l = some { list with iterator := some m.fresh } := Function.update_self ..
      refine ⟨withMutable m l list, chain, { list with iterator := some m.fresh }, ?_, ?_⟩
      · rw [hperform, happly, hfree, hfirst]
        rfl
      · rw [happly]
        refine hm.of_cursor (wellFormed_withMutable hm.wellFormed hm.live hfree) hlive rfl rfl ?_
        rw [(hm.wellFormed.shape l list hm.live).first] at hfirst
        cases hc : chain list.refCount with
        | nil =>
          rw [hc] at hfirst
          cases hfirst
        | cons x c =>
          refine ⟨m.fresh, ⟨true, list.first, l⟩, x, rfl, Function.update_self .., rfl, rfl, ?_⟩
          rw [(hm.wellFormed.shape l list hm.live).first, hc]
          rfl

theorem Matching.iterator (hm : Matching m chain l list ref) (hi : list.iterator = some i) :
    ∃ it, m.mutableIterators i = some it ∧ it.origin = l :=
  Option.map_eq_some_iff.mp ((hm.wellFormed.cursor l list i hm.live).mp hi)

theorem mutableRelease_follows (hm : Matching m chain l list ref) : Follows fns junk m l ref .mutableRelease := by
  cases hi : list.iterator with
  | none =>
    refine ⟨m, chain, list, ?_, hm.of_cursor hm.wellFormed hm.live rfl rfl hi⟩
    simp [perform, hm.live, hi, Action.apply]
  | some i =>
    obtain ⟨it, hit, horigin⟩ := hm.iterator hi
    have hl : m.lists it.origin = some list := by rw [horigin, hm.live]
    have hlive : (withoutMutable m i it list).lists l = some { list with iterator := none } := by
      rw [← horigin]
      exact Function.update_self ..
    refine ⟨withoutMutable m i it list, chain, { list with iterator := none }, ?_,
      hm.of_cursor (wellFormed_withoutMutable hm.wellFormed hit hl) hlive rfl rfl rfl⟩
    simp only [perform, hm.live, hi, Option.bind_eq_bind, Option.bind_some, Option.elim_some, listMutableIteratorRelease,
      hit, hl]
    rfl

theorem Matching.stands (hm : Matching m chain l list ref) (hk : ref.cursor = .at' k) :
    ∃ i it A x B, list.iterator = some i ∧ Stands m chain i l it list A x B ∧ A.length = k := by
  have hcursor := hm.cursor
  rw [hk] at hcursor
  obtain ⟨i, it, x, hi, hit, hval, hx, hcurrent⟩ := hcursor
  obtain ⟨it', hit', horigin⟩ := hm.iterator hi
  cases hit.symm.trans hit'
  obtain ⟨hlt, hget⟩ := List.getElem?_eq_some_iff.mp hx
  have hsplit : chain list.refCount = (chain list.refCount).take k ++ x :: (chain list.refCount).drop (k + 1) := by
    rw [← hget, ← List.drop_eq_getElem_cons hlt, List.take_append_drop]
  refine ⟨i, it, _, x, _, hi, ⟨hit, hval, horigin, hm.live, hsplit, hcurrent⟩, ?_⟩
  rw [List.length_take]
  omega

/-- An operation through the iterator: without an iterator, or with an invalid one, it is refused. -/
theorem through_follows {act : ℕ → Reference α × Bool} (op : ℕ → Option (Memory α × Bool))
    (hm : Matching m chain l list ref) (happly : action.apply fns ref = ref.through act)
    (hperform : perform fns junk l m action = list.iterator.elim (some (m, false)) op)
    (hinvalid : ∀ i it, m.mutableIterators i = some it → it.valid = false → op i = some (m, false))
    (hvalid : ∀ i it A x B, list.iterator = some i → Stands m chain i l it list A x B →
      ref.through act = act A.length →
      ∃ m' chain' list', op i = some (m', (act A.length).2) ∧ Matching m' chain' l list' (act A.length).1) :
    Follows fns junk m l ref action := by
  have hcursor := hm.cursor
  cases hplace : ref.cursor with
  | absent =>
    rw [hplace] at hcursor
    have hfree : list.iterator = none := hcursor
    rw [Reference.through, hplace] at happly
    exact follows_of_refused hm happly (by rw [hperform, hfree]; rfl)
  | invalid =>
    rw [hplace] at hcursor
    obtain ⟨i, it, hi, hit, hnot⟩ := hcursor
    rw [Reference.through, hplace] at happly
    exact follows_of_refused hm happly (by rw [hperform, hi]; exact hinvalid i it hit hnot)
  | at' k =>
    obtain ⟨i, it, A, x, B, hi, hstands, rfl⟩ := hm.stands hplace
    obtain ⟨m', chain', list', hop, hm'⟩ := hvalid i it A x B hi hstands (by rw [Reference.through, hplace])
    rw [Reference.through, hplace] at happly
    refine ⟨m', chain', list', ?_, ?_⟩
    · rw [hperform, hi, happly]
      exact hop
    · rw [happly]
      exact hm'

theorem atEnd_place (hs : Shape list (A ++ x :: B)) (e : End) :
    ∃ y, (A ++ x :: B)[e.place (A ++ x :: B).length]? = some y ∧ list.atEnd e = some y.1 := by
  cases e with
  | first =>
    rw [SharedList.atEnd, hs.first]
    cases A with
    | nil => exact ⟨x, rfl, rfl⟩
    | cons y A => exact ⟨y, rfl, rfl⟩
  | last =>
    rw [SharedList.atEnd, hs.last]
    obtain ⟨hnil, -⟩ | ⟨C, y, hc, hlast⟩ := lastOr_cases none (A ++ x :: B)
    · simp at hnil
    · rw [hlast, hc]
      exact ⟨y, by simp [End.place], rfl⟩

theorem mutableToEnd_follows (hm : Matching m chain l list ref) (e : End) :
    Follows fns junk m l ref (.mutableToEnd e) := by
  refine through_follows (mutableToEnd e m) hm rfl ?_ (fun i it hit hnot => ?_) fun i it A x B hi hstands _ => ?_
  · simp [perform, hm.live]
  · simp [mutableToEnd, hit, hnot]
  · have hshape := hm.wellFormed.shape l list hm.live
    have hlen := hm.length
    rw [hstands.split] at hshape hlen
    obtain ⟨y, hy, hend⟩ := atEnd_place hshape e
    rw [hlen] at hy
    have hl : m.lists it.origin = some list := by rw [hstands.origin, hm.live]
    refine ⟨m.setMutableIterator i { it with current := list.atEnd e }, chain, list, ?_,
      hm.of_cursor (wellFormed_setMutableIterator hm.wellFormed hstands.live rfl) hm.live rfl rfl ?_⟩
    · simp [mutableToEnd, hstands.live, hstands.valid, hl]
    · rw [hstands.split]
      exact ⟨i, _, y, hi, Function.update_self .., hstands.valid, hy, hend⟩

theorem linkOf_place (w : Way) : linkOf ⟨x.2, headOr none B, lastOr none A⟩ w =
    (w.place (A ++ x :: B).length A.length).bind fun j => (A ++ x :: B)[j]?.map Prod.fst := by
  cases w with
  | next =>
    cases B with
    | nil => simp [linkOf, Way.place, headOr]
    | cons y B => simp [linkOf, Way.place, headOr]
  | previous =>
    obtain ⟨rfl, -⟩ | ⟨A, y, rfl, hlast⟩ := lastOr_cases none A
    · simp [linkOf, Way.place, lastOr]
    · rw [linkOf, hlast]
      simp [Way.place]

theorem Way.place_lt {w : Way} (hk : k < n) (h : w.place n k = some j) : j < n := by
  cases w with
  | next =>
    rw [Way.place] at h
    split at h
    · cases h
      assumption
    · cases h
  | previous =>
    rw [Way.place] at h
    split at h
    · cases h
      omega
    · cases h

theorem mutableGo_follows (hm : Matching m chain l list ref) (w : Way) : Follows fns junk m l ref (.mutableGo w) := by
  refine through_follows (mutableGo w m) hm rfl ?_ (fun i it hit hnot => ?_) fun i it A x B hi hstands _ => ?_
  · simp [perform, hm.live]
  · simp [mutableGo, hit, hnot]
  · have hlen := hm.length
    rw [hstands.split] at hlen
    have hnode := hstands.node hm.wellFormed
    have hlink := linkOf_place (A := A) (x := x) (B := B) w
    rw [hlen] at hlink
    cases hplace : w.place ref.items.length A.length with
    | none =>
      rw [hplace, Option.bind_none] at hlink
      refine ⟨m, chain, list, ?_, hm⟩
      simp [mutableGo, hstands.live, hstands.valid, hstands.current, hnode, hlink]
    | some j =>
      have hj : j < (A ++ x :: B).length := by
        rw [hlen]
        refine Way.place_lt ?_ hplace
        rw [← hlen, List.length_append, List.length_cons]
        omega
      have hget := List.getElem?_eq_getElem hj
      rw [hplace, Option.bind_some, hget, Option.map_some] at hlink
      refine ⟨m.setMutableIterator i { it with current := some ((A ++ x :: B)[j]).1 }, chain, list, ?_,
        hm.of_cursor (wellFormed_setMutableIterator hm.wellFormed hstands.live rfl) hm.live rfl rfl ?_⟩
      · simp [mutableGo, hstands.live, hstands.valid, hstands.current, hnode, hlink]
      · rw [hstands.split]
        exact ⟨i, _, _, hi, Function.update_self .., hstands.valid, hget, rfl⟩

theorem mutableRemove_follows (hm : Matching m chain l list ref) : Follows fns junk m l ref .mutableRemove := by
  refine through_follows (listMutableIteratorRemove junk m) hm rfl ?_ (fun i it hit hnot => ?_)
    fun i it A x B hi hstands _ => ?_
  · simp [perform, hm.live]
  · simp [listMutableIteratorRemove, hit, hnot]
  · have hlen := hm.length
    rw [hstands.split, List.length_append, List.length_cons] at hlen
    by_cases hmore : A ++ B = []
    · obtain ⟨rfl, rfl⟩ := List.append_eq_nil_iff.mp hmore
      have hone : ref.items.length = 1 := hlen.symm
      rw [if_pos hone]
      exact ⟨m, chain, list, listMutableIteratorRemove_only hm.wellFormed hstands hm.own, hm⟩
    · have hpos := List.length_pos_of_ne_nil hmore
      rw [List.length_append] at hpos
      obtain ⟨m', list', hstep, hr, hmoves⟩ := listMutableIteratorRemove_own junk hm.wellFormed hstands hm.own hmore
      obtain ⟨chain', hm'⟩ := hm.erased hstands.split hr hmoves
      rw [if_neg (by omega)]
      exact ⟨m', chain', list', hstep, hm'⟩

theorem mutablePrepend_follows (hm : Matching m chain l list ref)
    (hfits : ((Action.mutablePrepend p).apply fns ref).1.items.length < 2 ^ 31) :
    Follows fns junk m l ref (.mutablePrepend p) := by
  refine through_follows (listMutableIteratorPrepend junk m · (some p)) hm rfl ?_ (fun i it hit hnot => ?_)
    fun i it A x B hi hstands hthrough => ?_
  · simp [perform, hm.live]
  · simp [listMutableIteratorPrepend, hit, hnot]
  · have hroom : HasRoom list := hm.room_of_fits (j := A.length) (p := p) (by rwa [Action.apply, hthrough] at hfits)
    obtain ⟨m', list', hstep, hins⟩ := listMutableIteratorPrepend_own junk hm.wellFormed hstands hm.own hroom (some p)
    obtain ⟨chain', hm'⟩ := hm.inserted hstands.split hins
    exact ⟨m', chain', list', hstep, hm'⟩

theorem mutableAppend_follows (hm : Matching m chain l list ref)
    (hfits : ((Action.mutableAppend p).apply fns ref).1.items.length < 2 ^ 31) :
    Follows fns junk m l ref (.mutableAppend p) := by
  refine through_follows (listMutableIteratorAppend junk m · (some p)) hm rfl ?_ (fun i it hit hnot => ?_)
    fun i it A x B hi hstands hthrough => ?_
  · simp [perform, hm.live]
  · simp [listMutableIteratorAppend, hit, hnot]
  · have hroom : HasRoom list := hm.room_of_fits (j := A.length + 1) (p := p) (by rwa [Action.apply, hthrough] at hfits)
    obtain ⟨m', list', hstep, hins⟩ := listMutableIteratorAppend_own junk hm.wellFormed hstands hm.own hroom (some p)
    obtain ⟨chain', hm'⟩ := hm.inserted (hstands.split.trans (List.append_cons A x B)) hins
    rw [List.length_append, List.length_singleton] at hm'
    exact ⟨m', chain', list', hstep, hm'⟩

theorem Matching.follows (hm : Matching m chain l list ref) (fns : ListFns α) (junk : ℕ → Payload α)
    (hfits : (action.apply fns ref).1.items.length < 2 ^ 31) : Follows fns junk m l ref action := by
  cases action with
  | prepend p => exact prepend_follows hm hfits
  | append p => exact append_follows hm hfits
  | remove p => exact remove_follows hm p
  | mutableGet => exact mutableGet_follows hm
  | mutableRelease => exact mutableRelease_follows hm
  | mutableToEnd e => exact mutableToEnd_follows hm e
  | mutableGo w => exact mutableGo_follows hm w
  | mutableRemove => exact mutableRemove_follows hm
  | mutablePrepend p => exact mutablePrepend_follows hm hfits
  | mutableAppend p => exact mutableAppend_follows hm hfits

/-! ## More elements than an `int` counts -/

theorem listPrepend_full (hwf : WellFormed m chain) (hl : m.lists l = some list) (hown : ¬ Shared m l)
    (hfull : ¬ HasRoom list) (payload : Payload α) : listPrepend junk m l payload = none := by
  unfold listPrepend
  simp only [listDetach_own hwf hl hown, hl, countUp_full hfull, Option.bind_eq_bind, Option.bind_some, Option.bind_none]

theorem listAppend_full (hwf : WellFormed m chain) (hl : m.lists l = some list) (hown : ¬ Shared m l)
    (hfull : ¬ HasRoom list) (payload : Payload α) : listAppend junk m l payload = none := by
  unfold listAppend
  simp only [listDetach_own hwf hl hown, hl, countUp_full hfull, Option.bind_eq_bind, Option.bind_some, Option.bind_none]

theorem listMutableIteratorPrepend_full (hwf : WellFormed m chain) (hi : Stands m chain i l it list A x B)
    (hown : ¬ Shared m l) (hfull : ¬ HasRoom list) (payload : Payload α) :
    listMutableIteratorPrepend junk m i payload = none := by
  unfold listMutableIteratorPrepend
  simp only [hi.live, hi.valid, hi.origin, listDetach_own hwf hi.list hown, hi.current, hi.node hwf, hi.list,
    countUp_full hfull, Option.bind_eq_bind, Option.bind_some, Option.bind_none, if_true]

theorem listMutableIteratorAppend_full (hwf : WellFormed m chain) (hi : Stands m chain i l it list A x B)
    (hown : ¬ Shared m l) (hfull : ¬ HasRoom list) (payload : Payload α) :
    listMutableIteratorAppend junk m i payload = none := by
  unfold listMutableIteratorAppend
  simp only [hi.live, hi.valid, hi.origin, listDetach_own hwf hi.list hown, hi.current, hi.node hwf, hi.list,
    countUp_full hfull, Option.bind_eq_bind, Option.bind_some, Option.bind_none, if_true]

theorem Reference.length_erase_le : (ref.erase j).items.length ≤ ref.items.length := by
  rw [Reference.erase, List.length_append, List.length_take, List.length_drop]
  omega

theorem Reference.length_through_le {act : ℕ → Reference α × Bool}
    (hact : ∀ k, (act k).1.items.length ≤ ref.items.length) : (ref.through act).1.items.length ≤ ref.items.length := by
  unfold Reference.through
  split
  · exact hact _
  · exact Nat.le_refl _

theorem length_apply_cases (fns : ListFns α) (ref : Reference α) (action : Action α) :
    (action.apply fns ref).1.items.length ≤ ref.items.length ∨ (∃ p, action = .prepend p) ∨ (∃ p, action = .append p) ∨
      ∃ k p, ref.cursor = .at' k ∧ (action = .mutablePrepend p ∨ action = .mutableAppend p) := by
  cases action with
  | prepend p => exact .inr (.inl ⟨p, rfl⟩)
  | append p => exact .inr (.inr (.inl ⟨p, rfl⟩))
  | remove p =>
    left
    rw [Action.apply]
    split
    · exact Reference.length_erase_le
    · exact Nat.le_refl _
  | mutableGet =>
    left
    rw [Action.apply]
    split
    · split
      · exact Nat.le_refl _
      · exact Nat.le_refl _
    · exact Nat.le_refl _
  | mutableRelease => exact .inl (Nat.le_refl _)
  | mutableToEnd e => exact .inl (Reference.length_through_le fun _ => Nat.le_refl _)
  | mutableGo w =>
    refine .inl (Reference.length_through_le fun k => ?_)
    split
    · exact Nat.le_refl _
    · exact Nat.le_refl _
  | mutableRemove =>
    refine .inl (Reference.length_through_le fun k => ?_)
    split
    · exact Nat.le_refl _
    · exact Reference.length_erase_le
  | mutablePrepend p =>
    cases hplace : ref.cursor with
    | at' k => exact .inr (.inr (.inr ⟨k, p, rfl, .inl rfl⟩))
    | absent => exact .inl (by rw [Action.apply, Reference.through, hplace])
    | invalid => exact .inl (by rw [Action.apply, Reference.through, hplace])
  | mutableAppend p =>
    cases hplace : ref.cursor with
    | at' k => exact .inr (.inr (.inr ⟨k, p, rfl, .inr rfl⟩))
    | absent => exact .inl (by rw [Action.apply, Reference.through, hplace])
    | invalid => exact .inl (by rw [Action.apply, Reference.through, hplace])

theorem Matching.full_of_not_fits (hm : Matching m chain l list ref) (hlong : ¬ (ref.insert j p).items.length < 2 ^ 31) :
    ¬ HasRoom list := by
  rw [Reference.length_insert] at hlong
  exact fun hroom => hlong (hm.hasRoom_iff.mp hroom)

/-- An operation that makes the sequence too long counts out of the range of `int`. -/
theorem Matching.overflows (hm : Matching m chain l list ref) (fns : ListFns α) (junk : ℕ → Payload α)
    (hshort : ref.items.length < 2 ^ 31) (hlong : ¬ (action.apply fns ref).1.items.length < 2 ^ 31) :
    perform fns junk l m action = none := by
  obtain hle | ⟨p, rfl⟩ | ⟨p, rfl⟩ | ⟨k, p, hplace, haction⟩ := length_apply_cases fns ref action
  · omega
  · simp [perform, hm.live, listPrepend_full hm.wellFormed hm.live hm.own (hm.full_of_not_fits hlong)]
  · simp [perform, hm.live, listAppend_full hm.wellFormed hm.live hm.own (hm.full_of_not_fits hlong)]
  · obtain ⟨i, it, A, x, B, hi, hstands, rfl⟩ := hm.stands hplace
    obtain rfl | rfl := haction
    · rw [Action.apply, Reference.through, hplace] at hlong
      simp [perform, hm.live, hi,
        listMutableIteratorPrepend_full hm.wellFormed hstands hm.own (hm.full_of_not_fits hlong)]
    · rw [Action.apply, Reference.through, hplace] at hlong
      simp [perform, hm.live, hi,
        listMutableIteratorAppend_full hm.wellFormed hstands hm.own (hm.full_of_not_fits hlong)]

/-! ## Runs -/

theorem Matching.run (hm : Matching m chain l list ref) (fns : ListFns α) (junk : ℕ → Payload α)
    (hfits : Fits fns ref actions) : ∃ m' chain' list',
      performAll fns junk l m actions = some (m', (applyAll fns ref actions).2) ∧
        Matching m' chain' l list' (applyAll fns ref actions).1 := by
  induction actions generalizing m chain list ref with
  | nil => exact ⟨m, chain, list, rfl, hm⟩
  | cons action actions ih =>
    obtain ⟨m₁, chain₁, list₁, hperform, hm₁⟩ := hm.follows fns junk hfits.1
    obtain ⟨m', chain', list', hrest, hm'⟩ := ih hm₁ hfits.2
    refine ⟨m', chain', list', ?_, hm'⟩
    simp only [performAll, hperform, Option.bind_eq_bind, Option.bind_some, hrest]
    rfl

theorem Matching.fits {r : Memory α × List Bool} (hm : Matching m chain l list ref) (hshort : ref.items.length < 2 ^ 31)
    (hrun : performAll fns junk l m actions = some r) : Fits fns ref actions := by
  induction actions generalizing m chain list ref r with
  | nil => exact trivial
  | cons action actions ih =>
    by_cases hfits : (action.apply fns ref).1.items.length < 2 ^ 31
    · obtain ⟨m₁, chain₁, list₁, hperform, hm₁⟩ := hm.follows fns junk hfits
      simp only [performAll, hperform, Option.bind_eq_bind, Option.bind_some] at hrun
      obtain ⟨⟨m', bs⟩, hrest, -⟩ := Option.bind_eq_some_iff.mp hrun
      exact ⟨hfits, ih hm₁ hfits hrest⟩
    · simp [performAll, hm.overflows fns junk hshort hfits] at hrun

theorem Matching.cursor_lt (hm : Matching m chain l list ref) (hk : ref.cursor = .at' k) :
    k < ref.items.length := by
  have hcursor := hm.cursor
  rw [hk] at hcursor
  obtain ⟨_, _, _, _, _, _, hx, _⟩ := hcursor
  rw [← hm.length]
  exact (List.getElem?_eq_some_iff.mp hx).1

theorem inserted_invalid (h : cursor.inserted j = .invalid) : cursor = .invalid := by
  cases cursor with
  | absent => cases h
  | invalid => rfl
  | at' k =>
    rw [Cursor.inserted] at h
    split at h
    · cases h
    · cases h

theorem erased_invalid (h : cursor.erased j n = .invalid) :
    cursor = .invalid ∨ (cursor = .at' j ∧ j = 0 ∧ n ≤ 1) := by
  cases cursor with
  | absent => cases h
  | invalid => exact .inl rfl
  | at' k =>
    rw [Cursor.erased] at h
    split at h
    · cases h
    · split at h
      · cases h
      · split at h
        · cases h
        · split at h
          · cases h
          · have hk : k = j := by omega
            exact .inr ⟨by rw [hk], by omega, by omega⟩

/-- Only `ListRemove` makes the iterator invalid, when it takes out the last element. -/
theorem Matching.invalid_cases (hm : Matching m chain l list ref) (h : (action.apply fns ref).1.cursor = .invalid) :
    ref.cursor = .invalid ∨ ∃ p, action = .remove p ∧ (action.apply fns ref).1.items = [] := by
  have hthrough : ∀ act, (ref.through act).1.cursor = .invalid →
      (∀ k, ref.cursor = .at' k → (act k).1.cursor = .invalid → ref.cursor = .invalid) → ref.cursor = .invalid := by
    intro act hact hvalid
    rw [Reference.through] at hact
    cases hplace : ref.cursor with
    | absent =>
      rw [hplace] at hact
      cases hplace.symm.trans hact
    | invalid => rfl
    | at' k =>
      rw [hplace] at hact
      exact hplace.symm.trans (hvalid k hplace hact)
  cases action with
  | prepend p => exact .inl (inserted_invalid h)
  | append p => exact .inl (inserted_invalid h)
  | remove p =>
    rw [Action.apply] at h ⊢
    cases hplace : ref.items.findIdx? (isPayload fns p) with
    | none =>
      rw [hplace] at h
      exact .inl h
    | some j =>
      rw [hplace] at h
      obtain hinvalid | ⟨-, rfl, hlen⟩ := erased_invalid h
      · exact .inl hinvalid
      · refine .inr ⟨p, rfl, ?_⟩
        show ref.items.take 0 ++ ref.items.drop 1 = []
        rw [List.take_zero, List.nil_append, List.drop_eq_nil_iff]
        exact hlen
  | mutableGet =>
    left
    cases hplace : ref.cursor with
    | absent =>
      simp only [Action.apply, hplace] at h
      split at h
      · cases hplace.symm.trans h
      · cases h
    | invalid => rfl
    | at' k =>
      simp only [Action.apply, hplace] at h
      cases h
  | mutableRelease => cases h
  | mutableToEnd e => exact .inl (hthrough _ h fun k _ hk => by cases hk)
  | mutableGo w =>
    refine .inl (hthrough _ h fun k hplace hk => ?_)
    split at hk
    · cases hk
    · exact hk
  | mutableRemove =>
    refine .inl (hthrough _ h fun k hplace hk => ?_)
    split at hk
    · exact hk
    · obtain hinvalid | ⟨-, rfl, hlen⟩ := erased_invalid hk
      · exact hinvalid
      · have := hm.cursor_lt hplace
        omega
  | mutablePrepend p => exact .inl (hthrough _ h fun k _ hk => inserted_invalid hk)
  | mutableAppend p => exact .inl (hthrough _ h fun k _ hk => inserted_invalid hk)

/-- An invalid iterator has been through a `ListRemove` of the last element. -/
theorem Matching.emptied (hm : Matching m chain l list ref) (fns : ListFns α) (junk : ℕ → Payload α)
    (hfits : Fits fns ref actions) (h : (applyAll fns ref actions).1.cursor = .invalid) :
    ref.cursor = .invalid ∨ ∃ before p after, actions = before ++ .remove p :: after ∧
      (applyAll fns ref (before ++ [.remove p])).1.items = [] := by
  induction actions generalizing m chain list ref with
  | nil => exact .inl h
  | cons action actions ih =>
    obtain ⟨m₁, chain₁, list₁, -, hm₁⟩ := hm.follows fns junk hfits.1
    obtain hinvalid | ⟨before, p, after, rfl, hempty⟩ := ih hm₁ hfits.2 h
    · obtain hinvalid | ⟨p, rfl, hempty⟩ := hm.invalid_cases hinvalid
      · exact .inl hinvalid
      · exact .inr ⟨[], p, actions, rfl, hempty⟩
    · exact .inr ⟨action :: before, p, after, rfl, hempty⟩

def Reference.empty : Reference α := { items := [], cursor := .absent }

theorem matching_new (h : WellFormed m chain) : ∃ list, Matching (withNew m) chain m.fresh list Reference.empty := by
  have hnone : m.refCounts (m.fresh + 1) = none := h.refCounts_fresh (Nat.le_succ _)
  have hlive : (withNew m).lists m.fresh = some ⟨0, 0, none, none, none, m.fresh + 1, none⟩ := Function.update_self ..
  refine ⟨_, wellFormed_new h, hlive, ?_, ?_, rfl⟩
  · rintro ⟨list, us, hl, hus, hlong⟩
    rw [hlive] at hl
    cases hl
    have husers : (withNew m).refCounts (m.fresh + 1) = some [m.fresh] := Function.update_self ..
    rw [husers] at hus
    cases hus
    exact absurd hlong (Nat.lt_irrefl 1)
  · rw [h.dead _ hnone]
    rfl

theorem matching_listNew {m₀ : Memory α} (h : Reaches fns junk (Careful fns) m) (hnew : listNew m = some (m₀, l)) :
    ∃ chain list, Matching m₀ chain l list Reference.empty := by
  obtain ⟨chain, hwf⟩ := h.wellFormed
  obtain ⟨list, hm⟩ := matching_new hwf
  rw [listNew_eq] at hnew
  cases hnew
  exact ⟨chain, list, hm⟩

/-- A list that is created and never copied is the sequence that the operations make, exactly when none of them makes
one that is too long for `node_count`. -/
theorem performAll_matches_iff (fns : ListFns α) (junk : ℕ → Payload α) (m m₀ : Memory α) (l : ℕ)
    (actions : List (Action α)) (h : Reaches fns junk (Careful fns) m) (hnew : listNew m = some (m₀, l)) :
    ((∃ m', performAll fns junk l m₀ actions = some (m', (applyAll fns Reference.empty actions).2) ∧
      Matches m' l (applyAll fns Reference.empty actions).1) ∧
    ((applyAll fns Reference.empty actions).1.cursor = .invalid → ∃ before p after,
      actions = before ++ .remove p :: after ∧ (applyAll fns Reference.empty (before ++ [.remove p])).1.items = [])) ↔
    Fits fns Reference.empty actions := by
  obtain ⟨chain, list, hm⟩ := matching_listNew h hnew
  constructor
  · rintro ⟨⟨m', hperform, -⟩, -⟩
    exact hm.fits (Nat.two_pow_pos 31) hperform
  · intro hfits
    obtain ⟨m', chain', list', hperform, hm'⟩ := hm.run fns junk hfits
    refine ⟨⟨m', hperform, hm'.matches⟩, fun hinvalid => ?_⟩
    obtain hstart | hemptied := hm.emptied fns junk hfits hinvalid
    · cases hstart
    · exact hemptied

/-- Two elements, and the iterator on the first, which is then removed. -/
theorem performAll_matches_numbers : ∃ m' : Memory ℕ, performAll numbers (fun _ => none) 0 (withNew Memory.empty)
    [.append (10, 1), .append (11, 2), .mutableGet, .remove (12, 1)] = some (m', [true, true, true, true]) ∧
      Matches m' 0 ⟨[(11, 2)], .at' 0⟩ :=
  ((performAll_matches_iff numbers (fun _ => none) Memory.empty _ 0
    [.append (10, 1), .append (11, 2), .mutableGet, .remove (12, 1)] .start (listNew_eq _)).mpr
      ⟨by decide, by decide, by decide, by decide, trivial⟩).1

/-- Only `2^31 - 1` elements can be appended to the empty list. -/
theorem not_fits_replicate (hn : 2 ^ 31 ≤ ref.items.length + n) (hshort : ref.items.length < 2 ^ 31) :
    ¬ Fits fns ref (List.replicate n (.append p)) := by
  induction n generalizing ref with
  | zero => omega
  | succ n ih =>
    rintro ⟨hlen, hrest⟩
    have hlength : (ref.insert ref.items.length p).items.length = ref.items.length + 1 := Reference.length_insert
    refine ih ?_ hlen hrest
    rw [Action.apply, hlength]
    omega

/-- `2^31` elements are appended, and the last one counts past `INT_MAX`. -/
theorem append_overflows : ¬ ∃ m' : Memory ℕ, performAll numbers (fun _ => none) 0 (withNew Memory.empty)
    (List.replicate (2 ^ 31) (.append (0, 0))) =
      some (m', (applyAll numbers Reference.empty (List.replicate (2 ^ 31) (.append (0, 0)))).2) := by
  rintro ⟨m', hrun⟩
  have hstart : Reaches numbers (fun _ => none) (Careful numbers) Memory.empty := .start
  obtain ⟨chain, list, hm⟩ := matching_listNew hstart (listNew_eq Memory.empty)
  refine not_fits_replicate ?_ ?_ (hm.fits ?_ hrun)
  · exact Nat.le_add_left _ _
  · exact Nat.two_pow_pos 31
  · exact Nat.two_pow_pos 31

end Libntech.Containers.LinkedList
