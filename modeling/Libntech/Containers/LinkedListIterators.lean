import Libntech.Containers.LinkedListMeaning

/-! # Iterators of lists

An iterator that its list accepts is to stand on a node of the list. The state that the list counts up when a node is
removed is what tells the others, and the mutable iterator is moved by hand; neither happens when a list that shares
its nodes gets its own. `Keeps` says which calls may be made for the iterators to stay valid, and in a run of these
no iterator follows a node that is not there.
-/
namespace Libntech.Containers.LinkedList
open Lib Lib.Chain
set_option autoImplicit false

variable {α : Type} {fns : ListFns α} {junk : ℕ → Payload α} {m m' m₁ : Memory α} {l : ℕ} {list list' list₁ : SharedList}
  {chain chain' chain₁ : ℕ → List (ℕ × Payload α)} {A B c : List (ℕ × Payload α)} {x : ℕ × Payload α}
  {payload : Payload α} {call : Call α} {reply : Reply α}

/-- Accepted iterators and valid mutable iterators stand on nodes of their lists. -/
def IteratorsValid (m : Memory α) : Prop :=
  (∀ i it list, m.iterators i = some it → m.lists it.origin = some list → it.state = list.state →
    ∃ a, it.current = some a ∧ OnChain m it.origin a) ∧
  ∀ i it, m.mutableIterators i = some it → it.valid = true → ∃ a, it.current = some a ∧ OnChain m it.origin a

/-! ## What may be called -/

/-- An iterator of the list has this state. -/
def HasState (m : Memory α) (l : ℕ) (state : UInt32) : Prop :=
  ∃ i it, m.iterators i = some it ∧ it.origin = l ∧ it.state = state

/-- The list has a valid mutable iterator. -/
def HasMutable (m : Memory α) (l : ℕ) : Prop :=
  ∃ i it, m.mutableIterators i = some it ∧ it.origin = l ∧ it.valid = true

/-- An old iterator is not accepted again with the next state. -/
def Fresh (m : Memory α) (l : ℕ) : Prop := ∀ list, m.lists l = some list → ¬ HasState m l (list.state + 1)

/-- No iterator of the list is about to lose the node that it stands on, if the list shares its nodes. -/
def Detachable (m : Memory α) (l : ℕ) : Prop :=
  Shared m l → ¬ HasMutable m l ∧ ∀ list, m.lists l = some list → ¬ HasState m l list.state

/-- A valid mutable iterator has a list that shares nothing. -/
def AtHome (m : Memory α) (i : ℕ) : Prop :=
  ∀ it, m.mutableIterators i = some it → it.valid = true → ¬ Shared m it.origin

def Keeps (fns : ListFns α) (m : Memory α) : Call α → Prop
  | .copy l => Copyable m l
  | .destroy l => ¬ HasMutable m l
  | .prepend l _ => Detachable m l ∧ NotFull m l
  | .append l _ => Detachable m l ∧ NotFull m l
  | .remove l (some payload) => Found fns m l payload → (Shared m l → ¬ HasMutable m l) ∧ Fresh m l
  | .mutableRemove i => AtHome m i ∧ ∀ it, m.mutableIterators i = some it → it.valid = true →
      listCount m it.origin ≠ some 1 → Fresh m it.origin
  | .mutablePrepend i _ => AtHome m i ∧ RoomAt m i
  | .mutableAppend i _ => AtHome m i ∧ RoomAt m i
  -- these two do not look at `valid`
  | .mutableHas _ i => ∀ it, m.mutableIterators i = some it → it.valid = true
  | _ => True

/-! ## Iterators on chains -/

/-- The iterators of `l` that are accepted with this state, and the mutable one, stand on the chain `c`. -/
def PlacedAt (m : Memory α) (l : ℕ) (state : UInt32) (c : List (ℕ × Payload α)) : Prop :=
  (∀ i it, m.iterators i = some it → it.origin = l → it.state = state → ∃ a ∈ addresses c, it.current = some a) ∧
  ∀ i it, m.mutableIterators i = some it → it.origin = l → it.valid = true → ∃ a ∈ addresses c, it.current = some a

structure Placed (m : Memory α) (chain : ℕ → List (ℕ × Payload α)) : Prop where
  placedAt : ∀ l list, m.lists l = some list → PlacedAt m l list.state (chain list.refCount)
  live : ∀ i it, m.mutableIterators i = some it → it.valid = true → ∃ list, m.lists it.origin = some list

theorem placed_empty : Placed (Memory.empty : Memory α) fun _ => [] where
  placedAt _ _ h := by cases h
  live _ _ h := by cases h

theorem Placed.iteratorsValid (h : WellFormed m chain) (hp : Placed m chain) : IteratorsValid m := by
  refine ⟨fun i it list hi hl hstate => ?_, fun i it hi hvalid => ?_⟩
  · obtain ⟨a, ha, hcurrent⟩ := (hp.placedAt _ list hl).1 i it hi rfl hstate
    exact ⟨a, hcurrent, (onChain_iff h hl a).mpr ha⟩
  · obtain ⟨list, hl⟩ := hp.live i it hi hvalid
    obtain ⟨a, ha, hcurrent⟩ := (hp.placedAt _ list hl).2 i it hi rfl hvalid
    exact ⟨a, hcurrent, (onChain_iff h hl a).mpr ha⟩

theorem PlacedAt.mono {state : UInt32} {c' : List (ℕ × Payload α)} (h : PlacedAt m l state c)
    (hsub : ∀ a ∈ addresses c, a ∈ addresses c') (hits : m'.iterators = m.iterators)
    (hmuts : m'.mutableIterators = m.mutableIterators) : PlacedAt m' l state c' := by
  refine ⟨fun i it hi horigin hstate => ?_, fun i it hi horigin hvalid => ?_⟩
  · rw [hits] at hi
    obtain ⟨a, ha, hcurrent⟩ := h.1 i it hi horigin hstate
    exact ⟨a, hsub a ha, hcurrent⟩
  · rw [hmuts] at hi
    obtain ⟨a, ha, hcurrent⟩ := h.2 i it hi horigin hvalid
    exact ⟨a, hsub a ha, hcurrent⟩

/-- Only `l` and its mutable iterator change. -/
theorem Placed.changed (hp : Placed m chain) (hc : Changed m m' chain chain' l list' c)
    (hits : m'.iterators = m.iterators)
    (hmuts : ∀ i it, m'.mutableIterators i = some it → it.origin ≠ l → m.mutableIterators i = some it)
    (hat : PlacedAt m' l list'.state c) : Placed m' chain' := by
  refine ⟨fun k list hk => ?_, fun i it hi hvalid => ?_⟩
  · obtain ⟨rfl, rfl⟩ | ⟨hne, hk⟩ := lists_cases hc.lists hk
    · rw [hc.shown]
      exact hat
    · have hold := hp.placedAt k list hk
      rw [hc.chains k list hne hk]
      refine ⟨fun i it hi horigin hstate => ?_, fun i it hi horigin hvalid => ?_⟩
      · rw [hits] at hi
        exact hold.1 i it hi horigin hstate
      · exact hold.2 i it (hmuts i it hi (horigin ▸ hne)) horigin hvalid
  · by_cases horigin : it.origin = l
    · rw [horigin]
      exact ⟨list', hc.live⟩
    · rw [hc.lists, Function.update_of_ne horigin]
      exact hp.live i it (hmuts i it hi horigin) hvalid

/-! ## Lists that change -/

/-- The list gets its own nodes, and has no iterator on the old ones. -/
theorem Placed.detached (hp : Placed m chain) (h : WellFormed m chain)
    (hd : Detached junk m m₁ chain chain₁ l list list₁) (hmutable : ¬ HasMutable m l)
    (hstate : ¬ HasState m l list.state) : Placed m₁ chain₁ := by
  refine hp.changed (hd.changed h) hd.iterators (fun i it hi _ => by rw [← hd.mutableIterators]; exact hi) ?_
  refine ⟨fun i it hi horigin heq => ?_, fun i it hi horigin hvalid => ?_⟩
  · rw [hd.iterators] at hi
    rw [hd.state] at heq
    exact absurd ⟨i, it, hi, horigin, heq⟩ hstate
  · rw [hd.mutableIterators] at hi
    exact absurd ⟨i, it, hi, horigin, hvalid⟩ hmutable

theorem Placed.inserted (hp : Placed m chain) (h : WellFormed m chain) (hl : m.lists l = some list)
    (hown : ¬ Shared m l) (hc : chain list.refCount = A ++ B) (hins : Inserted m m' l list list' A B payload) :
    ∃ chain', WellFormed m' chain' ∧ Placed m' chain' := by
  have hchanged := (hins.edits h hc).changed h hl hown
  refine ⟨_, hchanged.wellFormed, hp.changed hchanged hins.iterators
    (fun i it hi _ => by rw [← hins.mutableIterators]; exact hi) ?_⟩
  have hat := hp.placedAt l list hl
  rw [hins.state]
  refine hat.mono (fun a ha => ?_) hins.iterators hins.mutableIterators
  rw [hc, addresses_append, List.mem_append] at ha
  rw [addresses_append, List.mem_append]
  exact ha.imp id (List.mem_cons_of_mem _)

/-- The mutable iterator of the list is off the node that goes, and no other iterator is accepted. -/
theorem Removed.placedAt (h : WellFormed m chain) (hl : m.lists l = some list)
    (hr : Removed m m' l list list' A x B) (hstate : ¬ HasState m l (list.state + 1))
    (hat : ∀ i it, m.mutableIterators i = some it → it.origin = l → it.valid = true →
      ∃ a ∈ addresses (A ++ x :: B), it.current = some a) : PlacedAt m' l list'.state (A ++ B) := by
  refine ⟨fun i it hi horigin heq => ?_, fun i it' hi horigin hvalid => ?_⟩
  · rw [hr.iterators] at hi
    rw [hr.state] at heq
    exact absurd ⟨i, it, hi, horigin, heq⟩ hstate
  · have hcursor : list.iterator = some i := by
      rw [h.cursor l list i hl, ← hr.origins, LinkedList.origins, hi, Option.map_some, horigin]
    obtain ⟨it, hit, hvalid', hsame, hne⟩ | hmem := hr.moved i it' hcursor hi hvalid
    · have horigin' : it.origin = l := by
        have horigins := (h.cursor l list i hl).mp hcursor
        rw [LinkedList.origins, hit, Option.map_some] at horigins
        exact Option.some.inj horigins
      obtain ⟨a, ha, hcurrent⟩ := hat i it hit horigin' hvalid'
      refine ⟨a, ?_, hsame.trans hcurrent⟩
      rw [addresses_append, List.mem_append, addresses_cons, List.mem_cons] at ha
      rw [addresses_append, List.mem_append]
      obtain ha | rfl | ha := ha
      · exact .inl ha
      · exact absurd hcurrent hne
      · exact .inr ha
    · exact hmem

variable {i : ℕ} {b : Bool} {it : ListMutableIterator}

theorem Removed.others_eq (h : WellFormed m chain) (hl : m.lists l = some list) (hr : Removed m m' l list list' A x B)
    (hi : m'.mutableIterators i = some it) (hne : it.origin ≠ l) :
    m.mutableIterators i = some it := by
  rw [← hr.others i, hi]
  intro hcursor
  have horigins := (h.cursor l list i hl).mp hcursor
  rw [← hr.origins, LinkedList.origins, hi, Option.map_some] at horigins
  exact hne (Option.some.inj horigins)

theorem Placed.removed (hp : Placed m chain) (h : WellFormed m chain) (hl : m.lists l = some list)
    (hown : ¬ Shared m l) (hc : chain list.refCount = A ++ x :: B) (hr : Removed m m' l list list' A x B)
    (hstate : ¬ HasState m l (list.state + 1)) : ∃ chain', WellFormed m' chain' ∧ Placed m' chain' := by
  have hchanged := (hr.edits h hc).changed h hl hown
  refine ⟨_, hchanged.wellFormed, hp.changed hchanged hr.iterators (fun i it hi hne => hr.others_eq h hl hi hne) ?_⟩
  refine hr.placedAt h hl hstate fun i it hi horigin hvalid => ?_
  rw [← hc]
  exact (hp.placedAt l list hl).2 i it hi horigin hvalid

/-! ## Calls that leave the chains alone -/

theorem Placed.of_iterators (hp : Placed m chain)
    (hlists : ∀ l, (m'.lists l).map SharedList.bare = (m.lists l).map SharedList.bare)
    (hlight : ∀ i it, m'.iterators i = some it → m.iterators i = some it ∨
      ∀ list, m.lists it.origin = some list → it.state = list.state →
        ∃ a ∈ addresses (chain list.refCount), it.current = some a)
    (hmutable : ∀ i it, m'.mutableIterators i = some it → m.mutableIterators i = some it ∨
      ∃ list, m.lists it.origin = some list ∧ ∃ a ∈ addresses (chain list.refCount), it.current = some a) :
    Placed m' chain := by
  refine ⟨fun l list' hl => ⟨fun i it hi horigin hstate => ?_, fun i it hi horigin hvalid => ?_⟩,
    fun i it hi hvalid => ?_⟩
  · obtain ⟨list, hl, hbare⟩ := exists_of_bare hlists hl
    obtain ⟨hsame, hcount⟩ := bare_eq hbare
    rw [← hsame] at hstate
    rw [← hcount]
    obtain hold | hnew := hlight i it hi
    · exact (hp.placedAt l list hl).1 i it hold horigin hstate
    · exact hnew list (horigin ▸ hl) hstate
  · obtain ⟨list, hl, hbare⟩ := exists_of_bare hlists hl
    rw [← (bare_eq hbare).2]
    obtain hold | ⟨list₁, hl₁, hnew⟩ := hmutable i it hi
    · exact (hp.placedAt l list hl).2 i it hold horigin hvalid
    · rw [horigin, hl] at hl₁
      cases hl₁
      exact hnew
  · have hold : ∃ list, m.lists it.origin = some list := by
      obtain hold | ⟨list, hl, _⟩ := hmutable i it hi
      · exact hp.live i it hold hvalid
      · exact ⟨list, hl⟩
    obtain ⟨list, hl⟩ := hold
    have hbare := hlists it.origin
    rw [hl, Option.map_some] at hbare
    obtain ⟨list', hl', _⟩ := Option.map_eq_some_iff.mp hbare
    exact ⟨list', hl'⟩

theorem link_mem {nodes : ℕ → Option (Node (Payload α))} {a b : ℕ} {node : Node (Payload α)} {w : Way}
    (hlinked : Linked nodes none c none) (ha : a ∈ addresses c) (hnode : nodes a = some node)
    (hlink : linkOf node w = some b) : b ∈ addresses c := by
  obtain ⟨x, hx, rfl⟩ := List.mem_map.mp ha
  obtain ⟨A, B, rfl⟩ := List.append_of_mem hx
  rw [hlinked.node] at hnode
  cases hnode
  rw [addresses_append, List.mem_append]
  cases w with
  | next => exact .inr (List.mem_cons_of_mem _ (headOr_mem hlink))
  | previous => exact .inl (lastOr_mem hlink)

theorem atEnd_mem {a : ℕ} (hs : Shape list c) (ha : a ∈ addresses c) (e : End) :
    ∃ b ∈ addresses c, list.atEnd e = some b := by
  have hne : c ≠ [] := by
    rintro rfl
    cases ha
  cases e with
  | first =>
    obtain ⟨b, hb⟩ := Option.ne_none_iff_exists'.mp (mt headOr_eq_none_iff.mp hne)
    exact ⟨b, headOr_mem hb, hs.first.trans hb⟩
  | last =>
    obtain ⟨b, hb⟩ := Option.ne_none_iff_exists'.mp (mt lastOr_eq_none_iff.mp hne)
    exact ⟨b, lastOr_mem hb, hs.last.trans hb⟩

theorem mem_of_update {κ : Type} {f : ℕ → Option κ} {j : ℕ} {v : Option κ} {w : κ}
    (h : Function.update f i v j = some w) : (j = i ∧ v = some w) ∨ f j = some w := by
  by_cases hj : j = i
  · rw [hj, Function.update_self] at h
    exact .inl ⟨hj, h⟩
  · rw [Function.update_of_ne hj] at h
    exact .inr h

theorem Placed.withList {s : SharedList} (hp : Placed m chain) (h : WellFormed m chain)
    (hlists : m'.lists = Function.update m.lists m.fresh (some s)) (hits : m'.iterators = m.iterators)
    (hmuts : m'.mutableIterators = m.mutableIterators) : Placed m' chain := by
  have hlight : ∀ i it, m.iterators i = some it → it.origin ≠ m.fresh := by
    intro i it hi horigin
    have hlt := (h.light_lt i it.origin (by rw [lightOrigins, hi]; rfl)).2
    omega
  have hmutable : ∀ i it, m.mutableIterators i = some it → it.origin ≠ m.fresh := by
    intro i it hi horigin
    have hlt := (h.mutable_lt i it.origin (by rw [origins, hi]; rfl)).2
    omega
  refine ⟨fun l list hl => ?_, fun i it hi hvalid => ?_⟩
  · obtain ⟨rfl, rfl⟩ | ⟨hne, hl⟩ := lists_cases hlists hl
    · refine ⟨fun i it hi horigin _ => ?_, fun i it hi horigin _ => ?_⟩
      · exact absurd horigin (hlight i it (hits ▸ hi))
      · exact absurd horigin (hmutable i it (hmuts ▸ hi))
    · exact (hp.placedAt l list hl).mono (fun _ ha => ha) hits hmuts
  · rw [hmuts] at hi
    obtain ⟨list, hl⟩ := hp.live i it hi hvalid
    exact ⟨list, by rw [hlists, Function.update_of_ne (hmutable i it hi), hl]⟩

theorem Quiet.placed (hq : Quiet m m') (h : WellFormed m chain) (hp : Placed m chain) : Placed m' chain := by
  cases hq with
  | same => exact hp
  | new => exact hp.withList h rfl rfl rfl
  | copy hl hus hfew => exact hp.withList h rfl rfl rfl
  | @get l a list hl hfirst =>
    have hs := h.shape l list hl
    refine hp.of_iterators (fun _ => rfl) (fun i it hi => ?_) fun i it hi => .inl hi
    obtain ⟨_, hnew⟩ | hold := mem_of_update hi
    · cases hnew
      refine .inr fun list₁ hl₁ _ => ?_
      cases hl.symm.trans hl₁
      rw [hs.first] at hfirst
      exact ⟨a, headOr_mem hfirst, hs.list.trans hfirst⟩
    · exact .inl hold
  | drop i =>
    refine hp.of_iterators (fun _ => rfl) (fun j it hj => ?_) fun j it hj => .inl hj
    obtain ⟨_, hnew⟩ | hold := mem_of_update hj
    · cases hnew
    · exact .inl hold
  | @toEnd i it list e hi hl hstate =>
    obtain ⟨a, ha, _⟩ := (hp.placedAt _ list hl).1 i it hi rfl hstate
    refine hp.of_iterators (fun _ => rfl) (fun j it' hj => ?_) fun j it' hj => .inl hj
    obtain ⟨_, hnew⟩ | hold := mem_of_update hj
    · cases hnew
      refine .inr fun list₁ hl₁ _ => ?_
      cases hl.symm.trans hl₁
      exact atEnd_mem (h.shape _ list hl) ha e
    · exact .inl hold
  | @go i a b it list node w hi hl hstate hcurrent hnode hlink =>
    obtain ⟨a', ha, hcurrent'⟩ := (hp.placedAt _ list hl).1 i it hi rfl hstate
    cases hcurrent.symm.trans hcurrent'
    refine hp.of_iterators (fun _ => rfl) (fun j it' hj => ?_) fun j it' hj => .inl hj
    obtain ⟨_, hnew⟩ | hold := mem_of_update hj
    · cases hnew
      refine .inr fun list₁ hl₁ _ => ?_
      cases hl.symm.trans hl₁
      exact ⟨b, link_mem (h.chains.linked _) ha hnode hlink, rfl⟩
    · exact .inl hold
  | @getMutable l a list hl hfree hfirst =>
    have hs := h.shape l list hl
    refine hp.of_iterators (map_bare_update hl) (fun i it hi => .inl hi) fun i it hi => ?_
    obtain ⟨_, hnew⟩ | hold := mem_of_update hi
    · cases hnew
      refine .inr ⟨list, hl, a, ?_, hfirst⟩
      rw [hs.first] at hfirst
      exact headOr_mem hfirst
    · exact .inl hold
  | @release i it list hi hl =>
    refine hp.of_iterators (map_bare_update hl) (fun j it' hj => .inl hj) fun j it' hj => ?_
    obtain ⟨_, hnew⟩ | hold := mem_of_update hj
    · cases hnew
    · exact .inl hold
  | @mutableToEnd i it list e hi hvalid hl =>
    obtain ⟨a, ha, _⟩ := (hp.placedAt _ list hl).2 i it hi rfl hvalid
    refine hp.of_iterators (fun _ => rfl) (fun j it' hj => .inl hj) fun j it' hj => ?_
    obtain ⟨_, hnew⟩ | hold := mem_of_update hj
    · cases hnew
      exact .inr ⟨list, hl, atEnd_mem (h.shape _ list hl) ha e⟩
    · exact .inl hold
  | @mutableGo i a b it node w hi hvalid hcurrent hnode hlink =>
    obtain ⟨list, hl⟩ := hp.live i it hi hvalid
    obtain ⟨a', ha, hcurrent'⟩ := (hp.placedAt _ list hl).2 i it hi rfl hvalid
    cases hcurrent.symm.trans hcurrent'
    refine hp.of_iterators (fun _ => rfl) (fun j it' hj => .inl hj) fun j it' hj => ?_
    obtain ⟨_, hnew⟩ | hold := mem_of_update hj
    · cases hnew
      exact .inr ⟨list, hl, b, link_mem (h.chains.linked _) ha hnode hlink, rfl⟩
    · exact .inl hold

/-! ## Runs -/

theorem Placed.ready (junk : ℕ → Payload α) (hp : Placed m chain) (h : WellFormed m chain) (hl : m.lists l = some list)
    (hdetachable : Detachable m l) : ∃ m₁ chain₁ list₁, listDetach junk m l = some m₁ ∧
      listDetach junk m₁ l = some m₁ ∧ ¬ Shared m₁ l ∧ m₁.lists l = some list₁ ∧ (HasRoom list → HasRoom list₁) ∧
      WellFormed m₁ chain₁ ∧ Placed m₁ chain₁ := by
  by_cases hshared : Shared m l
  · obtain ⟨m₁, chain₁, list₁, hdetach, hd⟩ := listDetach_shared junk h hl hshared
    obtain ⟨hmutable, hstate⟩ := hdetachable hshared
    have hl₁ := (hd.changed h).live
    have hroom : HasRoom list → HasRoom list₁ := fun hroom => by rw [HasRoom, hd.count]; exact hroom
    exact ⟨m₁, chain₁, list₁, hdetach, listDetach_own hd.wellFormed hl₁ hd.own, hd.own, hl₁, hroom, hd.wellFormed,
      hp.detached h hd hmutable (hstate list hl)⟩
  · have hdetach : listDetach junk m l = some m := listDetach_own h hl hshared
    exact ⟨m, chain, list, hdetach, hdetach, hshared, hl, id, h, hp⟩

theorem prepend_placed (hp : Placed m chain) (h : WellFormed m chain) (hkeeps : Keeps fns m (.prepend l payload))
    (hstep : listPrepend junk m l payload = some m') : ∃ chain', WellFormed m' chain' ∧ Placed m' chain' := by
  obtain ⟨m₂, hdetach, _⟩ := Option.bind_eq_some_iff.mp hstep
  obtain ⟨list, hl⟩ := listDetach_live hdetach
  obtain ⟨m₁, chain₁, list₁, hdetach, hagain, hown, hl₁, hroom, h₁, hp₁⟩ := hp.ready junk h hl hkeeps.1
  obtain ⟨m₃, list', hprepend, hins⟩ := listPrepend_own junk h₁ hl₁ hown (hroom (hkeeps.2 list hl)) payload
  rw [listPrepend_detached hdetach hagain, hprepend] at hstep
  cases hstep
  exact hp₁.inserted h₁ hl₁ hown (List.nil_append _).symm hins

theorem append_placed (hp : Placed m chain) (h : WellFormed m chain) (hkeeps : Keeps fns m (.append l payload))
    (hstep : listAppend junk m l payload = some m') : ∃ chain', WellFormed m' chain' ∧ Placed m' chain' := by
  obtain ⟨m₂, hdetach, _⟩ := Option.bind_eq_some_iff.mp hstep
  obtain ⟨list, hl⟩ := listDetach_live hdetach
  obtain ⟨m₁, chain₁, list₁, hdetach, hagain, hown, hl₁, hroom, h₁, hp₁⟩ := hp.ready junk h hl hkeeps.1
  obtain ⟨m₃, list', happend, hins⟩ := listAppend_own junk h₁ hl₁ hown (hroom (hkeeps.2 list hl)) payload
  rw [listAppend_detached hdetach hagain, happend] at hstep
  cases hstep
  exact hp₁.inserted h₁ hl₁ hown (List.append_nil _).symm hins

theorem Placed.detached_removed (hp : Placed m chain) (h : WellFormed m chain)
    (hd : Detached junk m m₁ chain chain₁ l list list₁) (hc : chain₁ list₁.refCount = A ++ x :: B)
    (hr : Removed m₁ m' l list₁ list' A x B) (hmutable : ¬ HasMutable m l) (hstate : ¬ HasState m l (list.state + 1)) :
    ∃ chain', WellFormed m' chain' ∧ Placed m' chain' := by
  have h₁ := hd.wellFormed
  have hl₁ := (hd.changed h).live
  have hchanged := (hd.changed h).trans ((hr.edits h₁ hc).changed h₁ hl₁ hd.own)
  refine ⟨_, hchanged.wellFormed, hp.changed hchanged (hr.iterators.trans hd.iterators) (fun i it hi hne => ?_) ?_⟩
  · rw [← hd.mutableIterators]
    exact hr.others_eq h₁ hl₁ hi hne
  · refine hr.placedAt h₁ hl₁ ?_ fun i it hi horigin hvalid => ?_
    · rintro ⟨i, it, hi, horigin, heq⟩
      rw [hd.iterators] at hi
      rw [hd.state] at heq
      exact hstate ⟨i, it, hi, horigin, heq⟩
    · rw [hd.mutableIterators] at hi
      exact absurd ⟨i, it, hi, horigin, hvalid⟩ hmutable

theorem remove_placed {p : ℕ × α} (hp : Placed m chain) (h : WellFormed m chain)
    (hkeeps : Keeps fns m (.remove l (some p))) (hstep : listRemove fns junk m l (some p) = some (m', b)) :
    ∃ chain', WellFormed m' chain' ∧ Placed m' chain' := by
  obtain ⟨list, hl, _⟩ := Option.bind_eq_some_iff.mp hstep
  cases hfound : ((chain list.refCount).map Prod.snd).any (isFound fns p) with
  | false =>
    rw [listRemove_missing h hl hfound] at hstep
    cases hstep
    exact ⟨chain, h, hp⟩
  | true =>
    obtain ⟨hmutable, hfresh⟩ := hkeeps ⟨_, h.elements_eq hl, hfound⟩
    rw [listRemove_found h hl hfound] at hstep
    obtain ⟨m₁, hdetach, hremove⟩ := Option.bind_eq_some_iff.mp hstep
    obtain ⟨m₂, hagain, heq⟩ := Option.map_eq_some_iff.mp hremove
    cases heq
    by_cases hshared : Shared m l
    · obtain ⟨m₃, chain₁, list₁, hdetach', hd⟩ := listDetach_shared junk h hl hshared
      cases hdetach.symm.trans hdetach'
      obtain ⟨hnone, _⟩ | ⟨m₃, list', A, x, B, hc, hsome, _, hr, -⟩ :=
        removeAgain_own fns hd.wellFormed (hd.changed h).live p
      · rw [hnone] at hagain
        cases hagain
      · cases hagain.symm.trans hsome
        exact hp.detached_removed h hd hc hr (hmutable hshared) (hfresh list hl)
    · rw [listDetach_own h hl hshared] at hdetach
      cases hdetach
      obtain ⟨hnone, _⟩ | ⟨m₃, list', A, x, B, hc, hsome, _, hr, -⟩ := removeAgain_own fns h hl p
      · rw [hnone] at hagain
        cases hagain
      · cases hagain.symm.trans hsome
        exact hp.removed h hl hshared hc hr (hfresh list hl)

theorem Placed.stands (hp : Placed m chain) (h : WellFormed m chain) (hi : m.mutableIterators i = some it)
    (hvalid : it.valid = true) :
    ∃ list A x B, Stands m chain i it.origin it list A x B := by
  obtain ⟨a, hcurrent, hon⟩ := (hp.iteratorsValid h).2 i it hi hvalid
  exact exists_stands h hi hvalid hcurrent hon

theorem mutableRemove_placed (hp : Placed m chain) (h : WellFormed m chain) (hkeeps : Keeps fns m (.mutableRemove i))
    (hstep : listMutableIteratorRemove junk m i = some (m', b)) :
    ∃ chain', WellFormed m' chain' ∧ Placed m' chain' := by
  obtain ⟨it, hi, hremove⟩ := Option.bind_eq_some_iff.mp hstep
  cases hvalid : it.valid with
  | false =>
    rw [hvalid] at hremove
    cases hremove
    exact ⟨chain, h, hp⟩
  | true =>
    obtain ⟨list, A, x, B, hstands⟩ := hp.stands h hi hvalid
    have hown := hkeeps.1 it hi hvalid
    by_cases hmore : A ++ B = []
    · obtain ⟨rfl, rfl⟩ := List.append_eq_nil_iff.mp hmore
      rw [listMutableIteratorRemove_only h hstands hown] at hstep
      cases hstep
      exact ⟨chain, h, hp⟩
    · obtain ⟨m₁, list', hsome, hr, -⟩ := listMutableIteratorRemove_own junk h hstands hown hmore
      cases hstep.symm.trans hsome
      have hcount : listCount m it.origin ≠ some 1 := by
        intro hone
        have hlen := (h.shape _ list hstands.list).count
        rw [listCount, hstands.list, Option.map_some, Option.some.injEq] at hone
        rw [hone, hstands.split, List.length_append, List.length_cons] at hlen
        rw [List.append_eq_nil_iff, ← List.length_eq_zero_iff, ← List.length_eq_zero_iff] at hmore
        omega
      exact hp.removed h hstands.list hown hstands.split hr (hkeeps.2 it hi hvalid hcount list hstands.list)

theorem mutablePrepend_placed (hp : Placed m chain) (h : WellFormed m chain)
    (hkeeps : Keeps fns m (.mutablePrepend i payload))
    (hstep : listMutableIteratorPrepend junk m i payload = some (m', b)) :
    ∃ chain', WellFormed m' chain' ∧ Placed m' chain' := by
  obtain ⟨it, hi, hprepend⟩ := Option.bind_eq_some_iff.mp hstep
  cases hvalid : it.valid with
  | false =>
    rw [hvalid] at hprepend
    cases hprepend
    exact ⟨chain, h, hp⟩
  | true =>
    obtain ⟨list, A, x, B, hstands⟩ := hp.stands h hi hvalid
    have hown := hkeeps.1 it hi hvalid
    have hroom := hkeeps.2 it hi hvalid list hstands.list
    obtain ⟨m₁, list', hsome, hins⟩ := listMutableIteratorPrepend_own junk h hstands hown hroom payload
    cases hstep.symm.trans hsome
    exact hp.inserted h hstands.list hown hstands.split hins

theorem mutableAppend_placed (hp : Placed m chain) (h : WellFormed m chain)
    (hkeeps : Keeps fns m (.mutableAppend i payload))
    (hstep : listMutableIteratorAppend junk m i payload = some (m', b)) :
    ∃ chain', WellFormed m' chain' ∧ Placed m' chain' := by
  obtain ⟨it, hi, happend⟩ := Option.bind_eq_some_iff.mp hstep
  cases hvalid : it.valid with
  | false =>
    rw [hvalid] at happend
    cases happend
    exact ⟨chain, h, hp⟩
  | true =>
    obtain ⟨list, A, x, B, hstands⟩ := hp.stands h hi hvalid
    have hown := hkeeps.1 it hi hvalid
    have hroom := hkeeps.2 it hi hvalid list hstands.list
    obtain ⟨m₁, list', hsome, hins⟩ := listMutableIteratorAppend_own junk h hstands hown hroom payload
    cases hstep.symm.trans hsome
    exact hp.inserted h hstands.list hown (hstands.split.trans (List.append_cons A x B)) hins

theorem destroy_placed (hp : Placed m chain) (h : WellFormed m chain) (hkeeps : ¬ HasMutable m l)
    (hstep : listDestroy m l = some m') : ∃ chain', WellFormed m' chain' ∧ Placed m' chain' := by
  obtain ⟨list, hl, _⟩ := Option.bind_eq_some_iff.mp hstep
  obtain ⟨m₁, chain', hsome, hd⟩ := listDestroy_spec h hl
  cases hstep.symm.trans hsome
  refine ⟨chain', hd.wellFormed, fun k list' hk => ?_, fun i it hi hvalid => ?_⟩
  · rw [hd.lists] at hk
    by_cases hkl : k = l
    · rw [hkl, Function.update_self] at hk
      cases hk
    · rw [Function.update_of_ne hkl] at hk
      rw [hd.chains k list' hkl hk]
      exact (hp.placedAt k list' hk).mono (fun _ ha => ha) hd.iterators hd.mutableIterators
  · rw [hd.mutableIterators] at hi
    have hne : it.origin ≠ l := fun horigin => hkeeps ⟨i, it, hi, horigin, hvalid⟩
    obtain ⟨list', hl'⟩ := hp.live i it hi hvalid
    exact ⟨list', by rw [hd.lists, Function.update_of_ne hne, hl']⟩

theorem step_placed (hp : Placed m chain) (h : WellFormed m chain) (hkeeps : Keeps fns m call)
    (hstep : step fns junk m call = some (m', reply)) : ∃ chain', WellFormed m' chain' ∧ Placed m' chain' := by
  cases hquiet : call.isQuiet with
  | true =>
    have hfew : ∀ l, call = .copy l → Copyable m l := by
      rintro l rfl
      exact hkeeps
    have hq := step_quiet hquiet hfew hstep
    exact ⟨chain, hq.wellFormed h, hq.placed h hp⟩
  | false =>
    cases call <;> simp only [step, Option.map_eq_some_iff, Prod.mk.injEq] at hstep
    case destroy l =>
      obtain ⟨m₁, hdestroy, rfl, -⟩ := hstep
      exact destroy_placed hp h hkeeps hdestroy
    case prepend l payload =>
      obtain ⟨m₁, hprepend, rfl, -⟩ := hstep
      exact prepend_placed hp h hkeeps hprepend
    case append l payload =>
      obtain ⟨m₁, happend, rfl, -⟩ := hstep
      exact append_placed hp h hkeeps happend
    case remove l payload =>
      obtain ⟨r, hremove, rfl, -⟩ := hstep
      cases payload with
      | none =>
        cases hremove
        exact ⟨chain, h, hp⟩
      | some p => exact remove_placed hp h hkeeps hremove
    case mutableRemove i =>
      obtain ⟨r, hremove, rfl, -⟩ := hstep
      exact mutableRemove_placed hp h hkeeps hremove
    case mutablePrepend i payload =>
      obtain ⟨r, hprepend, rfl, -⟩ := hstep
      exact mutablePrepend_placed hp h hkeeps hprepend
    case mutableAppend i payload =>
      obtain ⟨r, happend, rfl, -⟩ := hstep
      exact mutableAppend_placed hp h hkeeps happend
    all_goals cases hquiet

theorem Reaches.placed (h : Reaches fns junk (Keeps fns) m) : ∃ chain, WellFormed m chain ∧ Placed m chain := by
  induction h with
  | start => exact ⟨_, wellFormed_empty, placed_empty⟩
  | step call _ hkeeps hstep ih =>
    obtain ⟨chain, hwf, hp⟩ := ih
    exact step_placed hp hwf hkeeps hstep

/-! ## No iterator follows a node that is not there -/

theorem Placed.node {it : ListIterator} (hp : Placed m chain) (h : WellFormed m chain) (hi : m.iterators i = some it)
    (hl : m.lists it.origin = some list) (hstate : it.state = list.state) :
    ∃ a node, it.current = some a ∧ m.nodes a = some node := by
  obtain ⟨a, ha, hcurrent⟩ := (hp.placedAt _ list hl).1 i it hi rfl hstate
  obtain ⟨node, hnode⟩ := (h.chains.linked _).live ha
  exact ⟨a, node, hcurrent, hnode⟩

end Libntech.Containers.LinkedList
