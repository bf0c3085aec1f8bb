import Libntech.Containers.RBTreeCopyMeaning
import Libntech.Lib.Iterator

/-! # RBTreeIterator and RBTreeEqual (`libutils/rb-tree.c`)

An iterator walks the nodes below the root sentinel in the order of their keys. Two trees are compared by walking both at
once: they are equal just if they hold the same map, however they were built.
-/
namespace Libntech.Containers
open Lib Lib.RedBlack
open Containers.RBTree
set_option autoImplicit false

variable {K V : Type} {fns : RBTreeFns K V} {t : RBTree K V} {T : Shape K V}

/-! ## Iterators -/

/-- `RBTreeIteratorNext`: the iterator after the call, and the pair if it returns true. -/
def rbTreeIteratorNext (t : RBTree K V) (curr : ℕ) : Option (ℕ × Option (Option K × Option V)) :=
  match peek t curr with
  | none => some (curr, none)
  | some pair => (next t curr).map fun curr => (curr, some pair)

theorem iteratorNext_done {curr : ℕ} (h : peek t curr = none) : Yields (rbTreeIteratorNext t) curr [] := by
  refine Yields.stuck ?_
  rw [rbTreeIteratorNext, h]

/-- The iterator from the entries `B` on. -/
theorem iteratorNext_yields (h : Holds fns t T) (B : List (Entry K V)) : ∀ A : List (Entry K V), T.inorder = A ++ B →
    Yields (rbTreeIteratorNext t) (headId t.nil B) (pairs B) := by
  induction B with
  | nil => exact fun _ _ => iteratorNext_done (peek_nil t)
  | cons e B ih =>
    intro A hin
    have he : e ∈ T.inorder := by
      rw [hin]
      exact List.mem_append_right _ List.mem_cons_self
    have hstep : rbTreeIteratorNext t e.id = some (headId t.nil B, some (e.key, e.value)) := by
      rw [rbTreeIteratorNext, peek_entry h he]
      dsimp only
      rw [next_spec h.rep hin, Option.map_some]
    exact Yields.cons hstep (ih (A ++ [e]) (by rw [hin, List.append_cons]))

/-- A new iterator on an empty tree stands on the root sentinel, but `Peek_` looks at the size first. -/
theorem rbTreeIteratorNew_yields (h : Holds fns t T) : ∃ curr, rbTreeIteratorNew t = some curr ∧
    Yields (rbTreeIteratorNext t) curr (pairs T.inorder) := by
  refine ⟨_, rbTreeIteratorNew_spec h.rep, ?_⟩
  cases hin : T.inorder with
  | nil =>
    have hsize : t.size = 0 := by
      rw [h.size, hin]
      rfl
    exact iteratorNext_done (by rw [peek, if_pos hsize])
  | cons e B => exact iteratorNext_yields h (e :: B) [] hin

theorem below_of_mem {e : Entry K V} (s : Shape K V) : ∀ {c : Ctx (Entry K V)}, Rep t (plug c s) → e ∈ s.inorder →
    Below t (ptr t.nil s) e.id := by
  induction s with
  | leaf => exact fun _ he => absurd he List.not_mem_nil
  | node red l a r ihl ihr =>
    intro c hr he
    have hleft : t.child .left a.id = ptr t.nil l := hr.left_node
    have hright : t.child .right a.id = ptr t.nil r := hr.right_node
    rw [Tree.inorder_node, List.mem_append, List.mem_cons] at he
    rw [ptr]
    rcases he with he | rfl | he
    · exact .child .left hr.node_ne_nil (hleft ▸ ihl (c := ⟨.left, red, a, r⟩ :: c) hr he)
    · exact .self hr.node_ne_nil
    · exact .child .right hr.node_ne_nil (hright ▸ ihr (c := ⟨.right, red, a, l⟩ :: c) hr he)

theorem mem_ids_iff_below (hr : Rep t T) (i : ℕ) : i ∈ ids T ↔ Below t (t.left t.root) i := by
  rw [hr.top]
  constructor
  · intro hi
    obtain ⟨e, he, rfl⟩ := List.mem_map.mp hi
    exact below_of_mem T (c := []) hr he
  · intro hi
    obtain ⟨c, red, l, e, r, hplug, rfl, he⟩ := hi.place (c := []) hr rfl
    exact List.mem_map_of_mem he

theorem map_pair (hr : Rep t T) : (ids T).map t.pair = pairs T.inorder := by
  rw [ids, List.map_map]
  exact List.map_congr_left fun e he => pair_spec hr he

/-- On every reachable tree a new iterator gives the pairs of all nodes, each node once and with ascending keys, and then
returns false for ever. -/
theorem rbTreeIterator_yields (law : fns.Lawful) (h : RBTreeReachable fns t) : ∃ (curr : ℕ) (nodes : List ℕ),
    rbTreeIteratorNew t = some curr ∧ nodes.Nodup ∧ (∀ i, i ∈ nodes ↔ Below t (t.left t.root) i) ∧
      (nodes.Pairwise fun i j => fns.keyCompare (t.heap i).key (t.heap j).key < 0) ∧
      Yields (rbTreeIteratorNext t) curr (nodes.map t.pair) := by
  obtain ⟨T, hholds⟩ := h.holds law
  obtain ⟨curr, hnew, hyields⟩ := rbTreeIteratorNew_yields hholds
  have hnodup := (List.nodup_cons.mp (List.nodup_cons.mp hholds.rep.nodup).2).2
  refine ⟨curr, ids T, hnew, hnodup, mem_ids_iff_below hholds.rep, ?_, ?_⟩
  · rw [ids, List.pairwise_map]
    refine hholds.ascending.imp_of_mem fun {a b} ha hb hlt => ?_
    have hkey : ∀ e ∈ T.inorder, (t.heap e.id).key = e.key := fun e he => congrArg Prod.fst (pair_spec hholds.rep he)
    rw [hkey a ha, hkey b hb]
    exact hlt
  · rw [map_pair hholds.rep]
    exact hyields

theorem rbTreeIterator_yields_numbers : ∃ (curr : ℕ) (nodes : List ℕ),
    rbTreeIteratorNew (numberTree [3, 1, 2]) = some curr ∧ nodes.Nodup ∧
      (∀ i, i ∈ nodes ↔ Below (numberTree [3, 1, 2]) ((numberTree [3, 1, 2]).left (numberTree [3, 1, 2]).root) i) ∧
      (nodes.Pairwise fun i j => numberFns.keyCompare ((numberTree [3, 1, 2]).heap i).key
        ((numberTree [3, 1, 2]).heap j).key < 0) ∧
      Yields (rbTreeIteratorNext (numberTree [3, 1, 2])) curr (nodes.map (numberTree [3, 1, 2]).pair) :=
  rbTreeIterator_yields numberFns_lawful (numberTree_reachable _)

/-! ## RBTreeEqual -/

variable {valueCompare : Option V → Option V → ℤ} {as bs : List (Entry K V)}

theorem exists_same {R : Entry K V → Entry K V → Prop} (h : List.Forall₂ R as bs) :
    (∀ x ∈ as, ∃ y ∈ bs, R x y) ∧ ∀ y ∈ bs, ∃ x ∈ as, R x y := by
  induction h with
  | nil => exact ⟨fun _ hx => absurd hx List.not_mem_nil, fun _ hy => absurd hy List.not_mem_nil⟩
  | @cons x y as bs hxy _ ih =>
    refine ⟨fun x' hx' => ?_, fun y' hy' => ?_⟩
    · rcases List.mem_cons.mp hx' with rfl | hx'
      · exact ⟨y, List.mem_cons_self, hxy⟩
      · obtain ⟨y', hy', hR⟩ := ih.1 x' hx'
        exact ⟨y', List.mem_cons_of_mem _ hy', hR⟩
    · rcases List.mem_cons.mp hy' with rfl | hy'
      · exact ⟨x, List.mem_cons_self, hxy⟩
      · obtain ⟨x', hx', hR⟩ := ih.2 y' hy'
        exact ⟨x', List.mem_cons_of_mem _ hx', hR⟩

/-- The first entries of two ascending lists are the same, as neither can be the same as a later one. -/
theorem heads_same (law : fns.Lawful) {x y : Entry K V} (ha : Ascending fns (x :: as)) (hb : Ascending fns (y :: bs))
    (hleft : ∃ y' ∈ y :: bs, SameEntry fns valueCompare x y') (hright : ∃ x' ∈ x :: as, SameEntry fns valueCompare x' y) :
    SameEntry fns valueCompare x y := by
  obtain ⟨y', hy', hsame⟩ := hleft
  obtain ⟨x', hx', hsame'⟩ := hright
  rcases List.mem_cons.mp hy' with rfl | hy'
  · exact hsame
  rcases List.mem_cons.mp hx' with rfl | hx'
  · exact hsame'
  -- otherwise `x < x' = y < y' = x`
  have hxx' : fns.keyCompare x.key x'.key < 0 := (List.pairwise_cons.mp ha).1 x' hx'
  have hyy' : fns.keyCompare y.key y'.key < 0 := (List.pairwise_cons.mp hb).1 y' hy'
  have hxy : fns.keyCompare x.key y.key < 0 := law.lt_of_lt_of_le hxx' hsame'.1.le
  have hxy' : fns.keyCompare x.key y'.key < 0 := law.lt_of_lt_of_le hxy hyy'.le
  exact absurd hsame.1 hxy'.ne

theorem forall₂_of_ascending (law : fns.Lawful) (as : List (Entry K V)) :
    ∀ bs : List (Entry K V), Ascending fns as → Ascending fns bs →
      (∀ x ∈ as, ∃ y ∈ bs, SameEntry fns valueCompare x y) → (∀ y ∈ bs, ∃ x ∈ as, SameEntry fns valueCompare x y) →
      List.Forall₂ (SameEntry fns valueCompare) as bs := by
  induction as with
  | nil =>
    intro bs _ _ _ hright
    cases bs with
    | nil => exact .nil
    | cons y bs =>
      obtain ⟨x, hx, _⟩ := hright y List.mem_cons_self
      exact absurd hx List.not_mem_nil
  | cons x as ih =>
    intro bs ha hb hleft hright
    cases bs with
    | nil =>
      obtain ⟨y, hy, _⟩ := hleft x List.mem_cons_self
      exact absurd hy List.not_mem_nil
    | cons y bs =>
      have hxy := heads_same law ha hb (hleft x List.mem_cons_self) (hright y List.mem_cons_self)
      obtain ⟨hxas, has⟩ := List.pairwise_cons.mp ha
      obtain ⟨hybs, hbs⟩ := List.pairwise_cons.mp hb
      refine .cons hxy (ih bs has hbs (fun x' hx' => ?_) fun y' hy' => ?_)
      · obtain ⟨y', hy', hsame⟩ := hleft x' (List.mem_cons_of_mem _ hx')
        rcases List.mem_cons.mp hy' with rfl | hy'
        · have hx'x := law.equal_trans hsame.1 (law.equal_symm hxy.1)
          exact absurd (law.equal_symm hx'x) (hxas x' hx').ne
        · exact ⟨y', hy', hsame⟩
      · obtain ⟨x', hx', hsame⟩ := hright y' (List.mem_cons_of_mem _ hy')
        rcases List.mem_cons.mp hx' with rfl | hx'
        · exact absurd (law.equal_trans (law.equal_symm hxy.1) hsame.1) (hybs y' hy').ne
        · exact ⟨x', hx', hsame⟩

section Map
open Classical

/-- Maps over the same classes of keys, whose values the comparator finds equal. -/
def SameMap {s : Setoid (Option K)} (valueCompare : Option V → Option V → ℤ) (m₁ m₂ : KeyMap s (Option V)) : Prop :=
  ∀ c, Option.Rel (fun v w => valueCompare v w = 0) (m₁.lookup c) (m₂.lookup c)

theorem sameMap_iff_eq {s : Setoid (Option K)} (h : ∀ v w, valueCompare v w = 0 ↔ v = w) (m₁ m₂ : KeyMap s (Option V)) :
    SameMap valueCompare m₁ m₂ ↔ m₁ = m₂ := by
  constructor
  · intro hsame
    refine Finmap.ext_lookup fun c => ?_
    have hc := hsame c
    revert hc
    cases m₁.lookup c with
    | none =>
      cases m₂.lookup c with
      | none => exact fun _ => rfl
      | some w => exact fun hc => absurd hc Option.not_rel_none_some
    | some v =>
      cases m₂.lookup c with
      | none => exact fun hc => absurd hc Option.not_rel_some_none
      | some w =>
        intro hc
        cases hc with
        | some hvw => rw [(h v w).mp hvw]
  · rintro rfl c
    rcases m₁.lookup c with _ | v
    · exact .none
    · exact .some ((h v v).mpr rfl)

theorem lookup_entry (law : fns.Lawful) {l : List (Entry K V)} {m : KeyMap law.setoid (Option V)}
    (h : Tracks law.setoid (pairs l) m) {e : Entry K V} (he : e ∈ l) : m.lookup (Quotient.mk _ e.key) = some e.value :=
  h.lookup_of_mem (e := (e.key, e.value)) (List.mem_map.mpr ⟨e, he, rfl⟩) (law.equal_refl e.key)

theorem entry_of_lookup (law : fns.Lawful) {l : List (Entry K V)} {m : KeyMap law.setoid (Option V)}
    (h : Tracks law.setoid (pairs l) m) {k : Option K} {v : Option V} (hv : m.lookup (Quotient.mk _ k) = some v) :
    ∃ e ∈ l, fns.keyCompare e.key k = 0 ∧ e.value = v := by
  obtain ⟨p, hp, hkey, hvalue⟩ := (h.lookup_iff k v).mp hv
  obtain ⟨e, he, rfl⟩ := List.mem_map.mp hp
  exact ⟨e, he, hkey, hvalue⟩

/-- Two ascending lists of entries are the same in order just if they stand for the same map. -/
theorem forall₂_iff_sameMap (law : fns.Lawful) {m₁ m₂ : KeyMap law.setoid (Option V)} (ha : Ascending fns as)
    (hb : Ascending fns bs) (h₁ : Tracks law.setoid (pairs as) m₁) (h₂ : Tracks law.setoid (pairs bs) m₂) :
    List.Forall₂ (SameEntry fns valueCompare) as bs ↔ SameMap valueCompare m₁ m₂ := by
  constructor
  · intro hall c
    obtain ⟨hleft, hright⟩ := exists_same hall
    obtain ⟨k, rfl⟩ := Quotient.exists_rep c
    by_cases hk : ∃ x ∈ as, fns.keyCompare x.key k = 0
    · obtain ⟨x, hx, hxk⟩ := hk
      obtain ⟨y, hy, hkey, hvalue⟩ := hleft x hx
      have hxy : Quotient.mk law.setoid x.key = Quotient.mk law.setoid y.key := Tracks.class_eq.mpr hkey
      have hx' := lookup_entry law h₁ hx
      rw [Tracks.class_eq.mpr hxk] at hxy hx'
      rw [hx', hxy, lookup_entry law h₂ hy]
      exact .some hvalue
    · have hno₁ : ∀ e ∈ as, fns.keyCompare e.key k ≠ 0 := fun e he heq => hk ⟨e, he, heq⟩
      have hno₂ : ∀ e ∈ bs, fns.keyCompare e.key k ≠ 0 := by
        intro y hy heq
        obtain ⟨x, hx, hkey, _⟩ := hright y hy
        exact hno₁ x hx (law.equal_trans hkey heq)
      rw [h₁.lookup_absent (no_pair law hno₁), h₂.lookup_absent (no_pair law hno₂)]
      exact .none
  · intro hsame
    refine forall₂_of_ascending law as bs ha hb (fun x hx => ?_) fun y hy => ?_
    · have hc := hsame (Quotient.mk _ x.key)
      rw [lookup_entry law h₁ hx] at hc
      cases hlookup : m₂.lookup (Quotient.mk _ x.key) with
      | none =>
        rw [hlookup] at hc
        exact absurd hc Option.not_rel_some_none
      | some w =>
        rw [hlookup, Option.rel_some_some] at hc
        obtain ⟨y, hy, hkey, rfl⟩ := entry_of_lookup law h₂ hlookup
        exact ⟨y, hy, law.equal_symm hkey, hc⟩
    · have hc := hsame (Quotient.mk _ y.key)
      rw [lookup_entry law h₂ hy] at hc
      cases hlookup : m₁.lookup (Quotient.mk _ y.key) with
      | none =>
        rw [hlookup] at hc
        exact absurd hc Option.not_rel_none_some
      | some v =>
        rw [hlookup, Option.rel_some_some] at hc
        obtain ⟨x, hx, hkey, rfl⟩ := entry_of_lookup law h₁ hlookup
        exact ⟨x, hx, hkey, hc⟩

/-- What any two sequences of calls have built is equal for `RBTreeEqual` just if the two finite maps are the same. -/
theorem rbTreeEqual_iff_sameMap (law : fns.Lawful) (valueCompare : Option V → Option V → ℤ)
    (calls₁ calls₂ : List (RBTreeCall K V)) : ∃ a b m₁ m₂ replies₁ replies₂ r,
      run (rbTreeStep fns) rbTreeNew calls₁ = some (a, replies₁) ∧
      run (rbTreeStep fns) rbTreeNew calls₂ = some (b, replies₂) ∧
      run (treeMapStep law.setoid fns.valueCopy) ∅ calls₁ = some (m₁, replies₁) ∧
      run (treeMapStep law.setoid fns.valueCopy) ∅ calls₂ = some (m₂, replies₂) ∧
      rbTreeEqual fns valueCompare a b = some r ∧ (r = true ↔ SameMap valueCompare m₁ m₂) ∧
      ((∀ v w, valueCompare v w = 0 ↔ v = w) → (r = true ↔ m₁ = m₂)) := by
  have htracks := run_matches_total (rbTreeStep_matches law) (fun m call => by cases call <;> exact ⟨_, _, rfl⟩)
  have hnew : TreeTracks law (rbTreeNew : RBTree K V) ∅ := ⟨.leaf, rbTreeNew_holds, Tracks.nil⟩
  obtain ⟨a, m₁, replies₁, ha, hm₁, A, hA, htrA⟩ := htracks calls₁ rbTreeNew ∅ hnew
  obtain ⟨b, m₂, replies₂, hb, hm₂, B, hB, htrB⟩ := htracks calls₂ rbTreeNew ∅ hnew
  obtain ⟨r, hresult, hr⟩ := rbTreeEqual_spec valueCompare hA hB
  have hsame : r = true ↔ SameMap valueCompare m₁ m₂ :=
    hr.trans (forall₂_iff_sameMap law hA.ascending hB.ascending htrA htrB)
  exact ⟨a, b, m₁, m₂, replies₁, replies₂, r, ha, hb, hm₁, hm₂, hresult, hsame,
    fun hvalue => hsame.trans (sameMap_iff_eq hvalue m₁ m₂)⟩

theorem rbTreeEqual_iff_sameMap_numbers : ∃ a b m₁ m₂ replies₁ replies₂ r,
    run (rbTreeStep numberFns) rbTreeNew numberCalls = some (a, replies₁) ∧
    run (rbTreeStep numberFns) rbTreeNew numberCalls.reverse = some (b, replies₂) ∧
    run (treeMapStep numberFns_lawful.setoid numberFns.valueCopy) ∅ numberCalls = some (m₁, replies₁) ∧
    run (treeMapStep numberFns_lawful.setoid numberFns.valueCopy) ∅ numberCalls.reverse = some (m₂, replies₂) ∧
    rbTreeEqual numberFns numberValues a b = some r ∧ (r = true ↔ SameMap numberValues m₁ m₂) ∧
    ((∀ v w, numberValues v w = 0 ↔ v = w) → (r = true ↔ m₁ = m₂)) :=
  rbTreeEqual_iff_sameMap numberFns_lawful numberValues numberCalls numberCalls.reverse

end Map

end Libntech.Containers
