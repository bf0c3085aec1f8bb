import Libntech.Containers.LinkedListOps

/-! # Lists that were copied from each other

`ListCopy` is to be a copy: what is done to one list later is not seen through another, and has the effect on the list
itself that it has when the list shares nothing. `Edit.apply` is that effect, on the payloads alone. It is reached
in every run that keeps to `Careful`: nothing is done through the mutable iterator of a list that shares its nodes or
whose nodes the iterator has lost, a list that shares its nodes is only changed if it has no `NULL` to copy and, for a
removal, a comparison function, and neither the nodes of a list nor their users are more than can be counted.
-/
namespace Libntech.Containers.LinkedList
open Lib Lib.Chain
set_option autoImplicit false

variable {α : Type} {fns : ListFns α} {junk : ℕ → Payload α} {m m' m₁ : Memory α} {l : ℕ} {list list' list₁ : SharedList}
  {chain chain' chain₁ : ℕ → List (ℕ × Payload α)} {A B : List (ℕ × Payload α)} {x : ℕ × Payload α}

/-! ## What a list shows -/

theorem walk_eq (c : List (ℕ × Payload α)) :
    ∀ (fuel : ℕ) (p : Option ℕ), c.length ≤ fuel → Linked m.nodes p c none → walk m fuel (headOr none c) = some c := by
  induction c with
  | nil =>
    intro fuel p _ _
    rw [headOr, walk]
  | cons x c ih =>
    intro fuel p hfuel hlinked
    rw [List.length_cons] at hfuel
    obtain ⟨fuel, rfl⟩ : ∃ k, fuel = k + 1 := ⟨fuel - 1, by omega⟩
    have hrest := ih fuel (some x.1) (by omega) hlinked.2
    rw [headOr, walk, hlinked.1]
    simp only [Option.bind_eq_bind, Option.bind_some, hrest]
    rfl

theorem WellFormed.chainOf_eq (h : WellFormed m chain) (hl : m.lists l = some list) :
    chainOf m l = some (chain list.refCount) := by
  unfold chainOf
  simp only [hl, Option.bind_eq_bind, Option.bind_some, (h.shape l list hl).first]
  exact walk_eq _ m.fresh none (h.length_le _) (h.chains.linked _)

theorem WellFormed.elements_eq (h : WellFormed m chain) (hl : m.lists l = some list) :
    elements m l = some ((chain list.refCount).map Prod.snd) := by
  rw [elements, h.chainOf_eq hl]
  rfl

/-- `ListCount` -/
def listCount (m : Memory α) (l : ℕ) : Option ℤ := (m.lists l).map SharedList.nodeCount

/-- The list shows these values, and counts them. -/
def Shows (m : Memory α) (l : ℕ) (items : List (Payload α)) : Prop :=
  (elements m l).map values = some (values items) ∧ listCount m l = some (items.length : ℤ)

/-- The lists but `l` show what they showed. -/
def Undisturbed (m m' : Memory α) (l : ℕ) : Prop :=
  ∀ l' ≠ l, elements m' l' = elements m l' ∧ listCount m' l' = listCount m l'

theorem undisturbed_of_chains (h : WellFormed m chain) (h' : WellFormed m' chain')
    (hlists : ∀ l' ≠ l, m'.lists l' = m.lists l')
    (hchains : ∀ l' list', l' ≠ l → m.lists l' = some list' → chain' list'.refCount = chain list'.refCount) :
    Undisturbed m m' l := by
  intro l' hne
  have hsame := hlists l' hne
  refine ⟨?_, by rw [listCount, hsame]; rfl⟩
  cases hl : m.lists l' with
  | none =>
    rw [hl] at hsame
    unfold elements chainOf
    rw [hl, hsame]
    rfl
  | some list₁ =>
    rw [hl] at hsame
    rw [h.elements_eq hl, h'.elements_eq hsame, hchains l' list₁ hne hl]

/-! ## Changing a list -/

/-- The list `l` is now `list'` and has the chain `c`; the others have kept theirs. -/
structure Changed (m m' : Memory α) (chain chain' : ℕ → List (ℕ × Payload α)) (l : ℕ) (list' : SharedList)
    (c : List (ℕ × Payload α)) : Prop where
  wellFormed : WellFormed m' chain'
  lists : m'.lists = Function.update m.lists l (some list')
  shown : chain' list'.refCount = c
  chains : ∀ l' list', l' ≠ l → m.lists l' = some list' → chain' list'.refCount = chain list'.refCount

theorem Changed.refl (h : WellFormed m chain) (hl : m.lists l = some list) :
    Changed m m chain chain l list (chain list.refCount) :=
  ⟨h, (Function.update_eq_self_iff.mpr hl.symm).symm, rfl, fun _ _ _ _ => rfl⟩

variable {call : Call α} {i : ℕ} {c : List (ℕ × Payload α)} {iterator : ListMutableIterator} {payload : ℕ × α}
  {reply : Reply α}

theorem Changed.live (hc : Changed m m' chain chain' l list' c) : m'.lists l = some list' := by
  rw [hc.lists, Function.update_self]

theorem Changed.undisturbed (h : WellFormed m chain) (hc : Changed m m' chain chain' l list' c) : Undisturbed m m' l := by
  refine undisturbed_of_chains h hc.wellFormed (fun l' hne => ?_) hc.chains
  rw [hc.lists, Function.update_of_ne hne]

theorem values_length (items : List (Payload α)) : (values items).length = items.length := List.length_map _

theorem Changed.shows {items : List (Payload α)} (hc : Changed m m' chain chain' l list' c)
    (hvalues : values (c.map Prod.snd) = values items) : Shows m' l items := by
  have hcount := (hc.wellFormed.shape l list' hc.live).count
  rw [hc.shown] at hcount
  refine ⟨?_, ?_⟩
  · rw [hc.wellFormed.elements_eq hc.live, hc.shown, Option.map_some, hvalues]
  · have hlen := congrArg List.length hvalues
    rw [values_length, values_length, List.length_map] at hlen
    rw [listCount, hc.live, Option.map_some, hcount, hlen]

theorem Edits.changed (h : WellFormed m chain) (hl : m.lists l = some list) (hown : ¬ Shared m l)
    (he : Edits m m' l list list' (chain list.refCount) c) :
    Changed m m' chain (Function.update chain list.refCount c) l list' c := by
  refine ⟨he.wellFormed h hl hown, he.lists, ?_, fun l' list₁ hne hl' => ?_⟩
  · rw [he.refCount, Function.update_self]
  · exact Function.update_of_ne (h.refCount_ne hl hown hne hl') _ _

theorem Changed.trans {c' : List (ℕ × Payload α)} (h₁ : Changed m m₁ chain chain₁ l list₁ c)
    (h₂ : Changed m₁ m' chain₁ chain' l list' c') : Changed m m' chain chain' l list' c' := by
  refine ⟨h₂.wellFormed, ?_, h₂.shown, fun l' list₂ hne hl' => ?_⟩
  · rw [h₂.lists, h₁.lists, Function.update_idem]
  · have hl'₁ : m₁.lists l' = some list₂ := by rw [h₁.lists, Function.update_of_ne hne, hl']
    rw [h₂.chains l' list₂ hne hl'₁, h₁.chains l' list₂ hne hl']

theorem Detached.changed (h : WellFormed m chain) (hd : Detached junk m m₁ chain chain₁ l list list₁) :
    Changed m m₁ chain chain₁ l list₁ (chain₁ list₁.refCount) := by
  refine ⟨hd.wellFormed, hd.lists, rfl, fun l' list' _ hl' => ?_⟩
  obtain ⟨us, hus⟩ := h.exists_users hl'
  exact hd.chains _ us hus

/-! ## The effect of an operation -/

/-- What an operation does to payloads; `k` is where the mutable iterator stands. -/
inductive Edit (α : Type) where
  | prepend (payload : Payload α)
  | append (payload : Payload α)
  | remove (payload : Payload α)
  | insertAt (k : ℕ) (payload : Payload α)
  | removeAt (k : ℕ)
  | refused

/-- The payloads after the edit, and whether the result is `0`; `none` where the second search of `ListRemove` hands
`NULL` to the comparison function. -/
def Edit.apply (fns : ListFns α) : Edit α → List (Payload α) → Option (List (Payload α) × Bool)
  | .prepend payload, items => some (payload :: items, true)
  | .append payload, items => some (items ++ [payload], true)
  | .remove none, items => some (items, false)
  | .remove (some payload), items =>
    if items.any (isFound fns payload) then (dropMatch fns payload items).map (·, true) else some (items, false)
  | .insertAt k payload, items => some (items.take k ++ payload :: items.drop k, true)
  | .removeAt k, items =>
    -- the only element stays
    if items.length = 1 then some (items, false) else some (items.take k ++ items.drop (k + 1), true)
  | .refused, items => some (items, false)

/-- The list that a mutable iterator is of, and its place there. -/
def placeOf (m : Memory α) (i : ℕ) (edit : ℕ → Edit α) : Option (ℕ × Edit α) := do
  let iterator ← m.mutableIterators i
  if iterator.valid then do
    let current ← iterator.current
    let c ← chainOf m iterator.origin
    return (iterator.origin, edit ((addresses c).idxOf current))
  else return (iterator.origin, .refused)

/-- The list that a call changes, and how. -/
def editOf (m : Memory α) : Call α → Option (ℕ × Edit α)
  | .prepend l payload => some (l, .prepend payload)
  | .append l payload => some (l, .append payload)
  | .remove l payload => some (l, .remove payload)
  | .mutableRemove i => placeOf m i .removeAt
  | .mutablePrepend i payload => placeOf m i fun k => .insertAt k payload
  | .mutableAppend i payload => placeOf m i fun k => .insertAt (k + 1) payload
  | _ => none

/-- The node at `a` is on the chain of the list. -/
def OnChain (m : Memory α) (l a : ℕ) : Prop := ∃ c, chainOf m l = some c ∧ a ∈ addresses c

def NoNull (m : Memory α) (l : ℕ) : Prop := ∀ items, elements m l = some items → none ∉ items

/-- The payload is found in the list. -/
def Found (fns : ListFns α) (m : Memory α) (l : ℕ) (payload : ℕ × α) : Prop :=
  ∃ items, elements m l = some items ∧ items.any (isFound fns payload) = true

/-- A mutable iterator that has the chain of its list, and a list that has it for itself. -/
def Attached (m : Memory α) (i : ℕ) : Prop :=
  ∀ iterator, m.mutableIterators i = some iterator → iterator.valid = true →
    ¬ Shared m iterator.origin ∧ ∃ a, iterator.current = some a ∧ OnChain m iterator.origin a

/-- The count of the list has not reached the end of `int`. -/
def NotFull (m : Memory α) (l : ℕ) : Prop := ∀ list, m.lists l = some list → HasRoom list

/-- A valid mutable iterator has a list with room. -/
def RoomAt (m : Memory α) (i : ℕ) : Prop :=
  ∀ iterator, m.mutableIterators i = some iterator → iterator.valid = true → NotFull m iterator.origin

def Careful (fns : ListFns α) (m : Memory α) : Call α → Prop
  | .copy l => Copyable m l
  | .prepend l _ => NotFull m l ∧ (Shared m l → NoNull m l)
  | .append l _ => NotFull m l ∧ (Shared m l → NoNull m l)
  | .remove l (some payload) => Shared m l → Found fns m l payload → NoNull m l ∧ fns.compare ≠ none
  | .mutableRemove i => Attached m i
  | .mutablePrepend i _ => Attached m i ∧ RoomAt m i
  | .mutableAppend i _ => Attached m i ∧ RoomAt m i
  | _ => True

/-- The call has its effect on its list, and none on the others. -/
def Isolates (fns : ListFns α) (junk : ℕ → Payload α) (m : Memory α) (call : Call α) : Prop :=
  (∀ l edit list, editOf m call = some (l, edit) → m.lists l = some list → ∃ items, elements m l = some items ∧
    ((edit.apply fns items = none ∧ step fns junk m call = none) ∨
      ∃ items' b m', edit.apply fns items = some (items', b) ∧ step fns junk m call = some (m', .done b) ∧
        Shows m' l items' ∧ Undisturbed m m' l)) ∧
  ∀ l list, call = .destroy l → m.lists l = some list →
    ∃ m', step fns junk m call = some (m', .done true) ∧ m'.lists l = none ∧ Undisturbed m m' l

/-! ## Copies have the same values -/

theorem copy_values {d : List (ℕ × Payload α)} (h : List.Forall₂ (CopyOf junk) c d) (hnull : none ∉ c.map Prod.snd) :
    values (d.map Prod.snd) = values (c.map Prod.snd) := by
  induction h with
  | nil => rfl
  | @cons x y c d hxy _ ih =>
    rw [List.map_cons, List.mem_cons, not_or] at hnull
    have hvalues := ih hnull.2
    have hy : y.2 = copyPayload junk y.1 x.2 := hxy
    cases hx : x.2 with
    | none => exact absurd hx.symm hnull.1
    | some p =>
      rw [hx] at hy
      simp only [values, List.map_cons, hy, hx] at hvalues ⊢
      rw [hvalues]
      rfl

variable {edit : Edit α}

theorem isMatch_congr (hcompare : fns.compare ≠ none) {p q : Payload α} (h : p.map Prod.snd = q.map Prod.snd) :
    isMatch fns payload p = isMatch fns payload q := by
  unfold isMatch
  cases hf : fns.compare with
  | none => exact absurd hf hcompare
  | some compare =>
    have hmap := congrArg (Option.map fun v => compare v payload.2) h
    rw [Option.map_map, Option.map_map] at hmap
    exact hmap

theorem dropMatch_congr (hcompare : fns.compare ≠ none) {ps : List (Payload α)} :
    ∀ {qs : List (Payload α)}, values ps = values qs →
      (dropMatch fns payload ps).map values = (dropMatch fns payload qs).map values := by
  induction ps with
  | nil =>
    intro qs h
    cases qs with
    | nil => rfl
    | cons q qs => cases h
  | cons p ps ih =>
    intro qs h
    cases qs with
    | nil => cases h
    | cons q qs =>
      rw [values, values, List.map_cons, List.map_cons, List.cons.injEq] at h
      have hrest := ih h.2
      rw [dropMatch, dropMatch, isMatch_congr hcompare h.1]
      cases isMatch fns payload q with
      | none => rfl
      | some found =>
        cases found with
        | true => exact congrArg some h.2
        | false =>
          have hcons := congrArg (Option.map (q.map Prod.snd :: ·)) hrest
          rw [Option.map_map, Option.map_map] at hcons
          show ((dropMatch fns payload ps).map (p :: ·)).map values = ((dropMatch fns payload qs).map (q :: ·)).map values
          rw [Option.map_map, Option.map_map]
          refine Eq.trans ?_ hcons
          congr 1
          funext rs
          exact congrArg (· :: values rs) h.1

/-! ## Each operation has its effect -/

theorem listDetach_changed (junk : ℕ → Payload α) (h : WellFormed m chain) (hl : m.lists l = some list)
    (hnull : Shared m l → NoNull m l) :
    ∃ m₁ chain₁ list₁, listDetach junk m l = some m₁ ∧ listDetach junk m₁ l = some m₁ ∧ ¬ Shared m₁ l ∧
      Changed m m₁ chain chain₁ l list₁ (chain₁ list₁.refCount) ∧
      (¬ Shared m l → chain₁ list₁.refCount = chain list.refCount) ∧ (HasRoom list → HasRoom list₁) ∧
      values ((chain₁ list₁.refCount).map Prod.snd) = values ((chain list.refCount).map Prod.snd) := by
  by_cases hshared : Shared m l
  · obtain ⟨m₁, chain₁, list₁, hdetach, hd⟩ := listDetach_shared junk h hl hshared
    have hlist₁ : m₁.lists l = some list₁ := (hd.changed h).live
    have hroom : HasRoom list → HasRoom list₁ := fun hroom => by rw [HasRoom, hd.count]; exact hroom
    refine ⟨m₁, chain₁, list₁, hdetach, listDetach_own hd.wellFormed hlist₁ hd.own, hd.own, hd.changed h,
      fun hown => absurd hshared hown, hroom, ?_⟩
    exact copy_values hd.copies (hnull hshared _ (h.elements_eq hl))
  · have hdetach : listDetach junk m l = some m := listDetach_own h hl hshared
    exact ⟨m, chain, list, hdetach, hdetach, hshared, Changed.refl h hl, fun _ => rfl, id, rfl⟩

/-- The call has the effect of the edit on the chain of its list. -/
def HasEffect (fns : ListFns α) (junk : ℕ → Payload α) (m : Memory α) (chain : ℕ → List (ℕ × Payload α)) (l : ℕ)
    (list : SharedList) (edit : Edit α) (call : Call α) : Prop :=
  (edit.apply fns ((chain list.refCount).map Prod.snd) = none ∧ step fns junk m call = none) ∨
    ∃ items b m' chain' list' c, edit.apply fns ((chain list.refCount).map Prod.snd) = some (items, b) ∧
      step fns junk m call = some (m', .done b) ∧ Changed m m' chain chain' l list' c ∧
      values (c.map Prod.snd) = values items

theorem values_append (ps qs : List (Payload α)) : values (ps ++ qs) = values ps ++ values qs := List.map_append

theorem values_cons (p : Payload α) (ps : List (Payload α)) : values (p :: ps) = p.map Prod.snd :: values ps := rfl

theorem listPrepend_detached {payload : Payload α} (hdetach : listDetach junk m l = some m₁)
    (hagain : listDetach junk m₁ l = some m₁) : listPrepend junk m l payload = listPrepend junk m₁ l payload := by
  unfold listPrepend
  rw [hdetach, hagain]

theorem listAppend_detached {payload : Payload α} (hdetach : listDetach junk m l = some m₁)
    (hagain : listDetach junk m₁ l = some m₁) : listAppend junk m l payload = listAppend junk m₁ l payload := by
  unfold listAppend
  rw [hdetach, hagain]

theorem prepend_hasEffect (h : WellFormed m chain) (hl : m.lists l = some list) (payload : Payload α)
    (hcareful : Careful fns m (.prepend l payload)) :
    HasEffect fns junk m chain l list (.prepend payload) (.prepend l payload) := by
  obtain ⟨hroom, hnull⟩ := hcareful
  obtain ⟨m₁, chain₁, list₁, hdetach, hagain, hown, hchanged, -, hroom₁, hvalues⟩ := listDetach_changed junk h hl hnull
  obtain ⟨m', list', hstep, hins⟩ := listPrepend_own junk hchanged.wellFormed hchanged.live hown
    (hroom₁ (hroom list hl)) payload
  have hedits := hins.edits hchanged.wellFormed (List.nil_append _).symm
  have hchanged' := hchanged.trans (hedits.changed hchanged.wellFormed hchanged.live hown)
  refine .inr ⟨_, true, m', _, list', _, rfl, ?_, hchanged', ?_⟩
  · rw [step, listPrepend_detached hdetach hagain, hstep]
    rfl
  · rw [List.nil_append, List.map_cons, values_cons, hvalues]
    rfl

theorem append_hasEffect (h : WellFormed m chain) (hl : m.lists l = some list) (payload : Payload α)
    (hcareful : Careful fns m (.append l payload)) :
    HasEffect fns junk m chain l list (.append payload) (.append l payload) := by
  obtain ⟨hroom, hnull⟩ := hcareful
  obtain ⟨m₁, chain₁, list₁, hdetach, hagain, hown, hchanged, -, hroom₁, hvalues⟩ := listDetach_changed junk h hl hnull
  obtain ⟨m', list', hstep, hins⟩ := listAppend_own junk hchanged.wellFormed hchanged.live hown
    (hroom₁ (hroom list hl)) payload
  have hedits := hins.edits hchanged.wellFormed (List.append_nil _).symm
  have hchanged' := hchanged.trans (hedits.changed hchanged.wellFormed hchanged.live hown)
  refine .inr ⟨_, true, m', _, list', _, rfl, ?_, hchanged', ?_⟩
  · rw [step, listAppend_detached hdetach hagain, hstep]
    rfl
  · rw [List.map_append, values_append, values_append, hvalues]
    rfl

theorem refused_hasEffect (h : WellFormed m chain) (hl : m.lists l = some list)
    (hedit : edit.apply fns ((chain list.refCount).map Prod.snd) = some ((chain list.refCount).map Prod.snd, false))
    (hstep : step fns junk m call = some (m, .done false)) : HasEffect fns junk m chain l list edit call :=
  .inr ⟨_, false, m, chain, list, _, hedit, hstep, Changed.refl h hl, rfl⟩

/-- `ListRemove` once the payload has been found. -/
theorem listRemove_found (h : WellFormed m chain) (hl : m.lists l = some list)
    (hfound : ((chain list.refCount).map Prod.snd).any (isFound fns payload) = true) :
    listRemove fns junk m l (some payload) =
      (listDetach junk m l).bind fun m₁ => (removeAgain fns m₁ l payload).map (·, true) := by
  have hfind := listFindNode_eq fns payload (chain list.refCount) m.fresh none (h.length_le _) (h.chains.linked _)
  rw [← (h.shape l list hl).list, hfound] at hfind
  unfold listRemove
  simp only [hl, hfind, Option.bind_eq_bind, Option.bind_some, if_true]
  cases listDetach junk m l with
  | none => rfl
  | some m₁ => exact Option.map_eq_bind.symm

theorem listRemove_missing (h : WellFormed m chain) (hl : m.lists l = some list)
    (hfound : ((chain list.refCount).map Prod.snd).any (isFound fns payload) = false) :
    listRemove fns junk m l (some payload) = some (m, false) := by
  have hfind := listFindNode_eq fns payload (chain list.refCount) m.fresh none (h.length_le _) (h.chains.linked _)
  rw [← (h.shape l list hl).list, hfound] at hfind
  unfold listRemove
  simp only [hl, hfind, Option.bind_eq_bind, Option.bind_some, Bool.false_eq_true, if_false]
  rfl

theorem remove_hasEffect (h : WellFormed m chain) (hl : m.lists l = some list) (payload : ℕ × α)
    (hcareful : Careful fns m (.remove l (some payload))) :
    HasEffect fns junk m chain l list (.remove (some payload)) (.remove l (some payload)) := by
  cases hfound : ((chain list.refCount).map Prod.snd).any (isFound fns payload) with
  | false =>
    refine refused_hasEffect h hl ?_ ?_
    · rw [Edit.apply, hfound]
      rfl
    · rw [step, listRemove_missing h hl hfound]
      rfl
  | true =>
    have hsafe : Shared m l → NoNull m l ∧ fns.compare ≠ none := fun hshared =>
      hcareful hshared ⟨_, h.elements_eq hl, hfound⟩
    obtain ⟨m₁, chain₁, list₁, hdetach, -, hown, hchanged, hsame, -, hvalues⟩ :=
      listDetach_changed junk h hl fun hshared => (hsafe hshared).1
    -- the second search finds on the copy what the first one found
    have hdrop : (dropMatch fns payload ((chain₁ list₁.refCount).map Prod.snd)).map values =
        (dropMatch fns payload ((chain list.refCount).map Prod.snd)).map values := by
      by_cases hshared : Shared m l
      · exact dropMatch_congr (hsafe hshared).2 hvalues
      · rw [hsame hshared]
    have hstep : step fns junk m (.remove l (some payload)) =
        (removeAgain fns m₁ l payload).map fun m' => (m', .done true) := by
      rw [step, listRemove_found h hl hfound, hdetach, Option.bind_some, Option.map_map]
      rfl
    have happly : Edit.apply fns (.remove (some payload)) ((chain list.refCount).map Prod.snd) =
        (dropMatch fns payload ((chain list.refCount).map Prod.snd)).map (·, true) := by
      rw [Edit.apply, hfound]
      rfl
    obtain ⟨hnone, hdrop₁⟩ | ⟨m', list', A, x, B, hc, hsome, hdrop₁, hremoved, -⟩ :=
      removeAgain_own fns hchanged.wellFormed hchanged.live payload
    · rw [hdrop₁, Option.map_none] at hdrop
      refine .inl ⟨?_, by rw [hstep, hnone]; rfl⟩
      rw [happly, Option.map_eq_none_iff.mp hdrop.symm]
      rfl
    · rw [hdrop₁, Option.map_some] at hdrop
      obtain ⟨items, hitems, hvalues'⟩ := Option.map_eq_some_iff.mp hdrop.symm
      have hedits := hremoved.edits hchanged.wellFormed hc
      have hchanged' := hchanged.trans (hedits.changed hchanged.wellFormed hchanged.live hown)
      refine .inr ⟨items, true, m', _, list', _, ?_, ?_, hchanged', hvalues'.symm⟩
      · rw [happly, hitems]
        rfl
      · rw [hstep, hsome]
        rfl

/-! ## Through the mutable iterator -/

theorem onChain_iff (h : WellFormed m chain) (hl : m.lists l = some list) (a : ℕ) :
    OnChain m l a ↔ a ∈ addresses (chain list.refCount) := by
  unfold OnChain
  rw [h.chainOf_eq hl]
  constructor
  · rintro ⟨c, hc, ha⟩
    cases hc
    exact ha
  · exact fun ha => ⟨_, rfl, ha⟩

theorem exists_stands {a : ℕ} (h : WellFormed m chain) (hi : m.mutableIterators i = some iterator)
    (hvalid : iterator.valid = true) (ha : iterator.current = some a) (hon : OnChain m iterator.origin a) :
    ∃ list A x B, Stands m chain i iterator.origin iterator list A x B := by
  have hlist : ∃ list, m.lists iterator.origin = some list := by
    obtain ⟨c, hc, _⟩ := hon
    obtain ⟨list, hl, _⟩ := Option.bind_eq_some_iff.mp hc
    exact ⟨list, hl⟩
  obtain ⟨list, hl⟩ := hlist
  have hmem := (onChain_iff h hl a).mp hon
  obtain ⟨x, hx, rfl⟩ := List.mem_map.mp hmem
  obtain ⟨A, B, hc⟩ := List.append_of_mem hx
  exact ⟨list, A, x, B, hi, hvalid, rfl, hl, hc, ha⟩

theorem Stands.placeOf_eq (h : WellFormed m chain) (hi : Stands m chain i l iterator list A x B) (edit : ℕ → Edit α) :
    placeOf m i edit = some (l, edit A.length) := by
  have hnodup := h.chains.nodup list.refCount
  rw [hi.split] at hnodup
  have hnot : x.1 ∉ addresses A := fun hx => (nodup_parts hnodup).2.2 _ hx List.mem_cons_self
  unfold placeOf
  simp only [hi.live, hi.valid, hi.current, hi.origin, h.chainOf_eq hi.list, Option.bind_eq_bind, Option.bind_some, if_true]
  rw [hi.split, addresses_append, List.idxOf_append_of_notMem hnot]
  show some (l, edit ((addresses A).length + List.idxOf x.1 (x.1 :: addresses B))) = _
  rw [List.idxOf_cons_self, addresses, List.length_map]
  rfl

theorem take_items (A B : List (ℕ × Payload α)) : ((A ++ B).map Prod.snd).take A.length = A.map Prod.snd := by
  rw [List.map_append, List.take_left' (List.length_map _)]

theorem drop_items (A B : List (ℕ × Payload α)) : ((A ++ B).map Prod.snd).drop A.length = B.map Prod.snd := by
  rw [List.map_append, List.drop_left' (List.length_map _)]

theorem inserted_hasEffect {payload : Payload α} (h : WellFormed m chain) (hl : m.lists l = some list)
    (hown : ¬ Shared m l) (hc : chain list.refCount = A ++ B) (hins : Inserted m m' l list list' A B payload)
    (hstep : step fns junk m call = some (m', .done true)) :
    HasEffect fns junk m chain l list (.insertAt A.length payload) call := by
  have hedits := hins.edits h hc
  refine .inr ⟨_, true, m', _, list', _, rfl, hstep, hedits.changed h hl hown, ?_⟩
  rw [hc, take_items, drop_items, List.map_append]
  rfl

theorem mutablePrepend_hasEffect (h : WellFormed m chain) (hi : Stands m chain i l iterator list A x B)
    (hown : ¬ Shared m l) (hroom : HasRoom list) (payload : Payload α) :
    HasEffect fns junk m chain l list (.insertAt A.length payload) (.mutablePrepend i payload) := by
  obtain ⟨m', list', hstep, hins⟩ := listMutableIteratorPrepend_own junk h hi hown hroom payload
  refine inserted_hasEffect h hi.list hown hi.split hins ?_
  rw [step, hstep]
  rfl

theorem mutableAppend_hasEffect (h : WellFormed m chain) (hi : Stands m chain i l iterator list A x B)
    (hown : ¬ Shared m l) (hroom : HasRoom list) (payload : Payload α) :
    HasEffect fns junk m chain l list (.insertAt (A.length + 1) payload) (.mutableAppend i payload) := by
  obtain ⟨m', list', hstep, hins⟩ := listMutableIteratorAppend_own junk h hi hown hroom payload
  have heffect : HasEffect fns junk m chain l list (.insertAt (A ++ [x]).length payload) (.mutableAppend i payload) := by
    refine inserted_hasEffect h hi.list hown (hi.split.trans (List.append_cons A x B)) hins ?_
    rw [step, hstep]
    rfl
  rw [List.length_append, List.length_singleton] at heffect
  exact heffect

theorem mutableRemove_hasEffect (h : WellFormed m chain) (hi : Stands m chain i l iterator list A x B)
    (hown : ¬ Shared m l) :
    HasEffect fns junk m chain l list (.removeAt A.length) (.mutableRemove i) := by
  have hlen : ((A ++ x :: B).map Prod.snd).length = (A ++ B).length + 1 := by
    rw [List.length_map, List.length_append, List.length_append, List.length_cons]
    omega
  by_cases hmore : A ++ B = []
  · obtain ⟨rfl, rfl⟩ := List.append_eq_nil_iff.mp hmore
    refine refused_hasEffect h hi.list ?_ ?_
    · rw [Edit.apply, hi.split]
      exact if_pos hlen
    · rw [step, listMutableIteratorRemove_only h hi hown]
      rfl
  · obtain ⟨m', list', hstep, hremoved, -⟩ := listMutableIteratorRemove_own junk h hi hown hmore
    have hedits := hremoved.edits h hi.split
    have hnot : (A ++ B).length + 1 ≠ 1 := fun hzero => hmore (List.length_eq_zero_iff.mp (Nat.succ.inj hzero))
    refine .inr ⟨_, true, m', _, list', _, ?_, ?_, hedits.changed h hi.list hown, rfl⟩
    · have hsplit : (A ++ x :: B).map Prod.snd = ((A ++ [x]) ++ B).map Prod.snd := by rw [List.append_cons]
      have hlast : A.length + 1 = (A ++ [x]).length := by rw [List.length_append, List.length_singleton]
      rw [Edit.apply, hi.split, hlen, if_neg hnot, take_items, hsplit, hlast, drop_items, List.map_append]
    · rw [step, hstep]
      rfl

/-- An operation through a mutable iterator is refused, or the iterator stands on a chain that its list has for itself. -/
theorem Attached.cases {at' : ℕ → Edit α} (h : WellFormed m chain) (ha : Attached m i)
    (he : placeOf m i at' = some (l, edit)) (hl : m.lists l = some list) :
    (edit = .refused ∧ ∃ iterator, m.mutableIterators i = some iterator ∧ iterator.valid = false) ∨
      (¬ Shared m l ∧ ∃ iterator A x B, Stands m chain i l iterator list A x B ∧ edit = at' A.length) := by
  cases hi : m.mutableIterators i with
  | none =>
    rw [placeOf, hi] at he
    cases he
  | some iterator =>
    cases hvalid : iterator.valid with
    | false =>
      simp only [placeOf, hi, hvalid, Option.bind_eq_bind, Option.bind_some, Bool.false_eq_true, if_false] at he
      cases he
      exact .inl ⟨rfl, iterator, rfl, hvalid⟩
    | true =>
      obtain ⟨hown, a, hcurrent, hon⟩ := ha iterator hi hvalid
      obtain ⟨list₁, A, x, B, hstands⟩ := exists_stands h hi hvalid hcurrent hon
      rw [hstands.placeOf_eq h] at he
      cases he
      cases hl.symm.trans hstands.list
      exact .inr ⟨hown, iterator, A, x, B, hstands, rfl⟩

theorem hasEffect_of_careful (junk : ℕ → Payload α) (h : WellFormed m chain) (hcareful : Careful fns m call)
    (he : editOf m call = some (l, edit)) (hl : m.lists l = some list) :
    HasEffect fns junk m chain l list edit call := by
  cases call with
  | prepend l₁ payload =>
    cases he
    exact prepend_hasEffect h hl payload hcareful
  | append l₁ payload =>
    cases he
    exact append_hasEffect h hl payload hcareful
  | remove l₁ payload =>
    cases he
    cases payload with
    | none => exact refused_hasEffect h hl rfl rfl
    | some payload => exact remove_hasEffect h hl payload hcareful
  | mutableRemove i =>
    obtain ⟨rfl, iterator, hi, hvalid⟩ | ⟨hown, iterator, A, x, B, hstands, rfl⟩ := Attached.cases h hcareful he hl
    · refine refused_hasEffect h hl rfl ?_
      simp [step, listMutableIteratorRemove, hi, hvalid]
    · exact mutableRemove_hasEffect h hstands hown
  | mutablePrepend i payload =>
    rw [editOf] at he
    obtain ⟨rfl, iterator, hi, hvalid⟩ | ⟨hown, iterator, A, x, B, hstands, rfl⟩ := Attached.cases h hcareful.1 he hl
    · refine refused_hasEffect h hl rfl ?_
      simp [step, listMutableIteratorPrepend, hi, hvalid]
    · have hroom := hcareful.2 iterator hstands.live hstands.valid
      rw [hstands.origin] at hroom
      exact mutablePrepend_hasEffect h hstands hown (hroom list hl) payload
  | mutableAppend i payload =>
    rw [editOf] at he
    obtain ⟨rfl, iterator, hi, hvalid⟩ | ⟨hown, iterator, A, x, B, hstands, rfl⟩ := Attached.cases h hcareful.1 he hl
    · refine refused_hasEffect h hl rfl ?_
      simp [step, listMutableIteratorAppend, hi, hvalid]
    · have hroom := hcareful.2 iterator hstands.live hstands.valid
      rw [hstands.origin] at hroom
      exact mutableAppend_hasEffect h hstands hown (hroom list hl) payload
  | _ => cases he

theorem HasEffect.wellFormed (h : HasEffect fns junk m chain l list edit call)
    (hstep : step fns junk m call = some (m', reply)) :
    ∃ chain', WellFormed m' chain' := by
  obtain ⟨_, hnone⟩ | ⟨_, _, _, chain', _, _, _, hsome, hchanged, _⟩ := h
  · rw [hnone] at hstep
    cases hstep
  · rw [hsome] at hstep
    cases hstep
    exact ⟨chain', hchanged.wellFormed⟩

/-! ## Runs -/

theorem listDestroy_spec (h : WellFormed m chain) (hl : m.lists l = some list) :
    ∃ m' chain', listDestroy m l = some m' ∧ Destroyed m m' chain chain' l := by
  by_cases hshared : Shared m l
  · obtain ⟨m', hstep, hdestroyed⟩ := listDestroy_shared h hl hshared
    exact ⟨m', chain, hstep, hdestroyed⟩
  · obtain ⟨m', hstep, hdestroyed⟩ := listDestroy_own h hl hshared
    exact ⟨m', _, hstep, hdestroyed⟩

theorem listDetach_live (h : listDetach junk m l = some m') : ∃ list, m.lists l = some list := by
  obtain ⟨list, hl, _⟩ := Option.bind_eq_some_iff.mp h
  exact ⟨list, hl⟩

theorem edit_wellFormed (h : WellFormed m chain) (hcareful : Careful fns m call) (he : editOf m call = some (l, edit))
    (hl : ∃ list, m.lists l = some list) (hstep : step fns junk m call = some (m', reply)) :
    ∃ chain', WellFormed m' chain' := by
  obtain ⟨list, hl⟩ := hl
  exact (hasEffect_of_careful junk h hcareful he hl).wellFormed hstep

/-- A call through a mutable iterator that is not valid does nothing, and one through a valid iterator is an edit. -/
theorem mutable_wellFormed {at' : ℕ → Edit α} (h : WellFormed m chain) (ha : Attached m i)
    (hcareful : Careful fns m call) (he : editOf m call = placeOf m i at')
    (hiterator : ∃ it, m.mutableIterators i = some it ∧ (it.valid = false → m' = m))
    (hstep : step fns junk m call = some (m', reply)) : ∃ chain', WellFormed m' chain' := by
  obtain ⟨it, hi, hinvalid⟩ := hiterator
  cases hvalid : it.valid with
  | false => exact ⟨chain, hinvalid hvalid ▸ h⟩
  | true =>
    obtain ⟨_, a, hcurrent, hon⟩ := ha it hi hvalid
    obtain ⟨list, A, x, B, hstands⟩ := exists_stands h hi hvalid hcurrent hon
    exact edit_wellFormed h hcareful (he.trans (hstands.placeOf_eq h at')) ⟨list, hstands.list⟩ hstep

theorem step_wellFormed (h : WellFormed m chain) (hcareful : Careful fns m call)
    (hstep : step fns junk m call = some (m', reply)) : ∃ chain', WellFormed m' chain' := by
  cases hquiet : call.isQuiet with
  | true =>
    have hfew : ∀ l, call = .copy l → Copyable m l := by
      rintro l rfl
      exact hcareful
    exact ⟨chain, (step_quiet hquiet hfew hstep).wellFormed h⟩
  | false =>
    have hcall := hstep
    cases call <;> simp only [step, Option.map_eq_some_iff, Prod.mk.injEq] at hcall
    case destroy l =>
      obtain ⟨m₁, hdestroy, rfl, -⟩ := hcall
      obtain ⟨list, hl, _⟩ := Option.bind_eq_some_iff.mp hdestroy
      obtain ⟨m₂, chain', hdestroy', hdestroyed⟩ := listDestroy_spec h hl
      rw [hdestroy] at hdestroy'
      cases hdestroy'
      exact ⟨chain', hdestroyed.wellFormed⟩
    case prepend l payload =>
      obtain ⟨m₁, hprepend, rfl, -⟩ := hcall
      obtain ⟨m₂, hdetach, _⟩ := Option.bind_eq_some_iff.mp hprepend
      exact edit_wellFormed h hcareful rfl (listDetach_live hdetach) hstep
    case append l payload =>
      obtain ⟨m₁, happend, rfl, -⟩ := hcall
      obtain ⟨m₂, hdetach, _⟩ := Option.bind_eq_some_iff.mp happend
      exact edit_wellFormed h hcareful rfl (listDetach_live hdetach) hstep
    case remove l payload =>
      obtain ⟨r, hremove, rfl, -⟩ := hcall
      cases payload with
      | none =>
        cases hremove
        exact ⟨chain, h⟩
      | some payload =>
        obtain ⟨list, hl, _⟩ := Option.bind_eq_some_iff.mp hremove
        exact edit_wellFormed h hcareful rfl ⟨list, hl⟩ hstep
    case mutableRemove i =>
      obtain ⟨r, hremove, rfl, -⟩ := hcall
      obtain ⟨it, hi, hremove⟩ := Option.bind_eq_some_iff.mp hremove
      refine mutable_wellFormed h hcareful hcareful (by rw [editOf]) ⟨it, hi, fun hinvalid => ?_⟩ hstep
      rw [hinvalid] at hremove
      cases hremove
      rfl
    case mutablePrepend i payload =>
      obtain ⟨r, hprepend, rfl, -⟩ := hcall
      obtain ⟨it, hi, hprepend⟩ := Option.bind_eq_some_iff.mp hprepend
      refine mutable_wellFormed h hcareful.1 hcareful (by rw [editOf]) ⟨it, hi, fun hinvalid => ?_⟩ hstep
      rw [hinvalid] at hprepend
      cases hprepend
      rfl
    case mutableAppend i payload =>
      obtain ⟨r, happend, rfl, -⟩ := hcall
      obtain ⟨it, hi, happend⟩ := Option.bind_eq_some_iff.mp happend
      refine mutable_wellFormed h hcareful.1 hcareful (by rw [editOf]) ⟨it, hi, fun hinvalid => ?_⟩ hstep
      rw [hinvalid] at happend
      cases happend
      rfl
    all_goals cases hquiet

theorem Reaches.wellFormed (h : Reaches fns junk (Careful fns) m) : ∃ chain, WellFormed m chain := by
  induction h with
  | start => exact ⟨_, wellFormed_empty⟩
  | step call _ hcareful hstep ih =>
    obtain ⟨chain, hwf⟩ := ih
    exact step_wellFormed hwf hcareful hstep

theorem HasEffect.isolates (h : WellFormed m chain) (hl : m.lists l = some list)
    (he : HasEffect fns junk m chain l list edit call) : ∃ items, elements m l = some items ∧
      ((edit.apply fns items = none ∧ step fns junk m call = none) ∨
        ∃ items' b m', edit.apply fns items = some (items', b) ∧ step fns junk m call = some (m', .done b) ∧
          Shows m' l items' ∧ Undisturbed m m' l) := by
  refine ⟨_, h.elements_eq hl, ?_⟩
  obtain hfault | ⟨items, b, m', chain', list', c, happly, hstep, hchanged, hvalues⟩ := he
  · exact .inl hfault
  · exact .inr ⟨items, b, m', happly, hstep, hchanged.shows hvalues, hchanged.undisturbed h⟩

/-- In a careful run no list is disturbed by what is done to another, and each operation has its effect. -/
theorem isolates_of_reaches (fns : ListFns α) (junk : ℕ → Payload α) (m : Memory α) (call : Call α)
    (h : Reaches fns junk (Careful fns) m) (hcareful : Careful fns m call) : Isolates fns junk m call := by
  obtain ⟨chain, hwf⟩ := h.wellFormed
  refine ⟨fun l edit list he hl => (hasEffect_of_careful junk hwf hcareful he hl).isolates hwf hl, ?_⟩
  rintro l list rfl hl
  obtain ⟨m', chain', hstep, hdestroyed⟩ := listDestroy_spec hwf hl
  refine ⟨m', by rw [step, hstep]; rfl, ?_, ?_⟩
  · rw [hdestroyed.lists, Function.update_self]
  · refine undisturbed_of_chains hwf hdestroyed.wellFormed (fun l' hne => ?_) hdestroyed.chains
    rw [hdestroyed.lists, Function.update_of_ne hne]

/-- Numbers, with the comparison and the copy function that lists of them have. -/
def numbers : ListFns ℕ := { compare := some (fun a b => a == b), copy := true }

theorem noNull_of_elements (items : List (Payload α)) (h : elements m l = some items) (hnot : none ∉ items) :
    NoNull m l := by
  intro items' h'
  rw [h] at h'
  cases h'
  exact hnot

theorem notFull_of_count (hl : m.lists l = some list) (hroom : list.nodeCount < 2147483647) : NotFull m l := by
  intro list' h'
  rw [hl] at h'
  cases h'
  exact hroom

theorem copyable_of_users {us : List ℕ} (hl : m.lists l = some list) (hus : m.refCounts list.refCount = some us)
    (hfew : us.length + 1 < 2 ^ 32) : Copyable m l := by
  intro list' us' hl' hus'
  rw [hl] at hl'
  cases hl'
  rw [hus] at hus'
  cases hus'
  exact hfew

/-- A list is copied, and the copy is written to. -/
theorem isolates_of_reaches_numbers :
    ∃ m : Memory ℕ, Shared m 3 ∧ Isolates numbers (fun _ => none) m (.prepend 3 (some (20, 2))) := by
  refine ⟨_, ?_, isolates_of_reaches numbers (fun _ => none) _ (.prepend 3 (some (20, 2)))
    (.step (.copy 0) (.step (.append 0 (some (10, 1))) (.step .new .start trivial rfl) ?_ rfl) ?_ rfl) ?_⟩
  · exact ⟨_, _, rfl, rfl, by decide⟩
  · exact ⟨notFull_of_count rfl (by decide), fun _ => noNull_of_elements [] rfl List.not_mem_nil⟩
  · exact copyable_of_users rfl rfl (by decide)
  · exact ⟨notFull_of_count rfl (by decide), fun _ => noNull_of_elements [some (10, 1)] rfl (by decide)⟩

/-- A list of two, a mutable iterator of it, and a copy. -/
def iteratorThenCopy : List (Call ℕ) :=
  [.new, .append 0 (some (100, 1)), .append 0 (some (101, 2)), .mutableGet 0, .copy 0]

/-- What is appended through the iterator is seen through the copy, and not in the list. -/
theorem copy_disturbed : ∃ m, Reaches numbers (fun _ => none) (fun _ _ => True) m ∧
    ¬ Isolates numbers (fun _ => none) m (.mutableAppend 4 (some (102, 3))) := by
  obtain ⟨m, hm⟩ : ∃ m, run numbers (fun _ => none) Memory.empty iteratorThenCopy = some m :=
    Option.isSome_iff_exists.mp (by decide +kernel)
  refine ⟨m, Reaches.start.run hm, fun h => ?_⟩
  have hbefore : (run numbers (fun _ => none) Memory.empty iteratorThenCopy).bind (elements · 5) =
      some [some (100, 1), some (101, 2)] := by decide +kernel
  have hafter : ((run numbers (fun _ => none) Memory.empty iteratorThenCopy).bind fun m =>
      (step numbers (fun _ => none) m (.mutableAppend 4 (some (102, 3)))).bind fun r => elements r.1 5) =
        some [some (100, 1), some (102, 3), some (101, 2)] := by decide +kernel
  have hedit : ((run numbers (fun _ => none) Memory.empty iteratorThenCopy).bind fun m =>
      (editOf m (.mutableAppend 4 (some (102, 3)))).map Prod.fst) = some 0 := by decide +kernel
  have hlive : ((run numbers (fun _ => none) Memory.empty iteratorThenCopy).bind fun m =>
      (m.lists 0).map SharedList.nodeCount) = some 2 := by decide +kernel
  rw [hm, Option.bind_some] at hbefore hafter hedit hlive
  obtain ⟨⟨l, edit⟩, hedit, rfl⟩ := Option.map_eq_some_iff.mp hedit
  obtain ⟨list, hlive, _⟩ := Option.map_eq_some_iff.mp hlive
  obtain ⟨_, _, ⟨_, hnone⟩ | ⟨_, _, m', _, hstep, _, hsame⟩⟩ := h.1 _ edit list hedit hlive
  · rw [hnone] at hafter
    cases hafter
  · rw [hstep, Option.bind_some, (hsame 5 (by decide)).1, hbefore] at hafter
    exact absurd hafter (by decide)

end Libntech.Containers.LinkedList
