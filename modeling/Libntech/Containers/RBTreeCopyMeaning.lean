import Libntech.Containers.RBTreeCopy
import Mathlib.Data.List.Sort

/-! # What RBTreeCopy copies

`Next_` walks the in-order entries, so the array of `RBTreeCopy` holds the accepted ones in ascending order. The
second loop then puts both halves, but behind an odd count it starts from the middle again: the last entry is left
out. An empty tree has no first node, and the walk begins on the root sentinel.
-/
namespace Libntech.Containers
open Lib Lib.RedBlack
open Containers.RBTree
set_option autoImplicit false

variable {K V : Type} {fns : RBTreeFns K V} {t : RBTree K V} {T : Shape K V}

/-! ## Walking -/

/-- The first node of `l`, or `stop`. -/
def headId (stop : ℕ) : List (Entry K V) → ℕ
  | [] => stop
  | e :: _ => e.id

theorem climb_spec (c : Ctx (Entry K V)) : ∀ (s : Shape K V) (fuel : ℕ), Rep t (plug c s) → s ≠ .leaf →
    c.length < fuel → climb t fuel (ptr t.nil s) (parentId t.root c) = some (headId t.root (after c)) := by
  induction c with
  | nil =>
    intro s fuel hr hs hfuel
    obtain ⟨fuel, rfl⟩ : ∃ k, fuel = k + 1 := ⟨fuel - 1, by omega⟩
    have hne : ptr t.nil s ≠ t.right t.root := by
      rw [hr.root_right]
      exact fun h => hs (Rep.ptr_nil_iff (c := []) hr |>.mp h)
    rw [parentId, climb, if_neg hne]
    rfl
  | cons f c ih =>
    intro s fuel hr hs hfuel
    obtain ⟨fuel, rfl⟩ : ∃ k, fuel = k + 1 := ⟨fuel - 1, by omega⟩
    have hframe := hr.frame
    have hdiff := hr.ptr_ne_sibling (.inl hs)
    obtain ⟨dir, red, a, sib⟩ := f
    rw [parentId, climb, RBTree.right, hframe]
    cases dir with
    | left =>
      have hne : ptr t.nil s ≠ ptr t.nil sib := hdiff
      rw [if_neg (by exact hne)]
      rfl
    | right =>
      -- the place is the right child, so its parent is behind as well
      have hfill : Frame.fill ⟨.right, red, a, sib⟩ s ≠ .leaf := by
        intro h
        cases h
      have hclimb := ih (Frame.fill ⟨.right, red, a, sib⟩ s) fuel hr hfill (by rw [List.length_cons] at hfuel; omega)
      have hparent : t.parent a.id = parentId t.root c := by
        rw [RBTree.parent, hframe, Entry.parent_node]
      rw [if_pos (by rfl), hparent]
      exact hclimb

theorem subtree_length {c : Ctx (Entry K V)} {s : Shape K V} (hr : Rep t (plug c s)) : s.inorder.length ≤ t.fresh := by
  have hlen := hr.length_lt
  rw [inorder_plug, entries, List.length_append, List.length_append] at hlen
  omega

variable {copy : RBTree K V} {L : List (Entry K V)} {e : Entry K V} {filter : RBTreePredicate K V} {i : ℕ}
  {I : ℕ → Prop} {nodes : List ℕ}

/-- `Next_` goes to the next entry, and from the last one to `nil`. -/
theorem next_spec (hr : Rep t T) {A B : List (Entry K V)} (hin : T.inorder = A ++ e :: B) :
    next t e.id = some (headId t.nil B) := by
  obtain ⟨c, red, l, r, rfl, hA, hB⟩ := exists_place T hin
  have hnode := Rep.node .left (a := l) (b := r) (e := e) hr
  have hright : t.right e.id = ptr t.nil r := Rep.right_node hr
  have hrr : Rep t (plug (⟨.right, red, e, l⟩ :: c) r) := hr
  unfold next
  rw [hright]
  by_cases hleaf : r = .leaf
  · subst hleaf
    have hclimb := climb_spec c (.node red l e .leaf) t.fresh hr (by simp) hr.depth_lt
    have hparent : t.parent e.id = parentId t.root c := by
      rw [RBTree.parent, hnode, Entry.parent_node]
    rw [ptr] at hclimb
    rw [Tree.inorder_leaf, List.nil_append] at hB
    rw [ptr_leaf, if_neg (by simp), hparent, hclimb, ← hB]
    cases hafter : after c with
    | nil => exact congrArg some (if_neg (by simp [headId]))
    | cons e' rest =>
      have hmem : e'.id ∈ ctxIds c := by
        rw [ctxIds, List.mem_map]
        exact ⟨e', List.mem_append_right _ (hafter ▸ List.mem_cons_self), rfl⟩
      exact congrArg some (if_pos (hr.ne_root (.inr hmem)))
  · rw [if_pos (fun h => hleaf (hrr.ptr_nil_iff.mp h))]
    obtain ⟨_, _, y, _, R, _, hleftmost, hr', _, _⟩ := leftmost_spec r _ t.fresh hrr hleaf (subtree_length hrr)
    rw [hleftmost, ← hB, hr']
    rfl

/-- A new iterator stands on the first entry, and on the root sentinel of an empty tree. -/
theorem rbTreeIteratorNew_spec (hr : Rep t T) : rbTreeIteratorNew t = some (headId t.root T.inorder) := by
  have hlen := hr.length_lt
  obtain ⟨fuel, hfuel⟩ : ∃ k, t.fresh = k + 1 := ⟨t.fresh - 1, by omega⟩
  unfold rbTreeIteratorNew
  rw [hfuel, leftmost, hr.top]
  by_cases hleaf : T = .leaf
  · subst hleaf
    rw [ptr_leaf, if_neg (by simp)]
    rfl
  · obtain ⟨_, _, y, _, R, _, hleftmost, hin, _, _⟩ := leftmost_spec T [] fuel hr hleaf (by omega)
    rw [if_pos (fun h => hleaf (Rep.ptr_nil_iff (c := []) hr |>.mp h)), hleftmost, hin]
    rfl

theorem pair_spec (hr : Rep t T) (he : e ∈ T.inorder) : t.pair e.id = (e.key, e.value) := by
  obtain ⟨A, B, hin⟩ := List.append_of_mem he
  obtain ⟨c, red, l, r, rfl, _, _⟩ := exists_place T hin
  rw [RBTree.pair, Rep.node .left (a := l) (b := r) (e := e) hr]
  rfl

theorem entry_ne_nil (hr : Rep t T) (he : e ∈ T.inorder) : e.id ≠ t.nil :=
  Rep.ne_nil (c := []) hr (.inl (List.mem_map_of_mem he))

theorem peek_nil (t : RBTree K V) : peek t t.nil = none := by
  unfold peek
  split
  · rfl
  · rw [if_pos rfl]

theorem peek_entry (h : Holds fns t T) (he : e ∈ T.inorder) : peek t e.id = some (e.key, e.value) := by
  have hsize : t.size ≠ 0 := by
    rw [h.size]
    exact Nat.ne_of_gt (List.length_pos_of_mem he)
  rw [peek, if_neg hsize, if_neg (entry_ne_nil h.rep he), pair_spec h.rep he]

/-- The iterator from the entries `B` on. -/
theorem iterate_spec (h : Holds fns t T) (B : List (Entry K V)) : ∀ (A : List (Entry K V)) (fuel : ℕ),
    T.inorder = A ++ B → B.length < fuel → iterate t fuel (headId t.nil B) = some (pairs B) := by
  induction B with
  | nil =>
    intro A fuel _ hfuel
    obtain ⟨fuel, rfl⟩ : ∃ k, fuel = k + 1 := ⟨fuel - 1, by omega⟩
    rw [headId, iterate, peek_nil]
    rfl
  | cons e B ih =>
    intro A fuel hin hfuel
    obtain ⟨fuel, rfl⟩ : ∃ k, fuel = k + 1 := ⟨fuel - 1, by omega⟩
    have he : e ∈ T.inorder := by
      rw [hin]
      exact List.mem_append_right _ List.mem_cons_self
    have hrest := ih (A ++ [e]) fuel (by rw [hin, List.append_cons]) (by rw [List.length_cons] at hfuel; omega)
    rw [headId, iterate, peek_entry h he]
    simp only [next_spec h.rep hin, Option.bind_eq_bind, Option.bind_some, hrest]
    rfl

theorem rbTreeItems_spec (h : Holds fns t T) : rbTreeItems t = some (pairs T.inorder) := by
  have hlen := h.rep.length_lt
  unfold rbTreeItems
  rw [rbTreeIteratorNew_spec h.rep]
  cases hin : T.inorder with
  | nil =>
    -- the iterator stands on the root sentinel, but `Peek_` looks at the size first
    obtain ⟨fuel, hfuel⟩ : ∃ k, t.fresh = k + 1 := ⟨t.fresh - 1, by omega⟩
    have hsize : t.size = 0 := by
      rw [h.size, hin]
      rfl
    show iterate t t.fresh t.root = some []
    rw [hfuel, iterate, peek, if_pos hsize]
  | cons e B => exact iterate_spec h (e :: B) [] t.fresh hin (by rw [← hin]; omega)

/-! ## Collecting the nodes -/

/-- The entries that the filter accepts. -/
def acceptedEntries (filter : RBTreePredicate K V) (l : List (Entry K V)) : List (Entry K V) :=
  l.filter fun e => accepts filter (e.key, e.value)

/-- The pairs that the filter is called with. -/
def filterCalls (filter : RBTreePredicate K V) (l : List (Entry K V)) : List (Option K × Option V) :=
  if filter.isNone then [] else pairs l

theorem collectNodes_spec (h : Holds fns t T) (filter : RBTreePredicate K V) (B : List (Entry K V)) :
    ∀ (A : List (Entry K V)) (fuel : ℕ) (nodes : List ℕ) (calls : List (Option K × Option V)), T.inorder = A ++ B →
      B.length < fuel → nodes.length + B.length ≤ t.size →
      collectNodes t filter fuel (headId t.nil B) nodes calls =
        some (nodes ++ (acceptedEntries filter B).map Entry.id, calls ++ filterCalls filter B) := by
  induction B with
  | nil =>
    intro A fuel nodes calls _ hfuel _
    obtain ⟨fuel, rfl⟩ : ∃ k, fuel = k + 1 := ⟨fuel - 1, by omega⟩
    rw [headId, collectNodes, if_pos rfl]
    simp [acceptedEntries, filterCalls, pairs]
  | cons e B ih =>
    intro A fuel nodes calls hin hfuel hroom
    obtain ⟨fuel, rfl⟩ : ∃ k, fuel = k + 1 := ⟨fuel - 1, by omega⟩
    rw [List.length_cons] at hfuel hroom
    have he : e ∈ T.inorder := by
      rw [hin]
      exact List.mem_append_right _ List.mem_cons_self
    have hrest : T.inorder = (A ++ [e]) ++ B := by rw [hin, List.append_cons]
    have hcalls : (if filter.isNone then calls else calls ++ [(e.key, e.value)]) ++ filterCalls filter B =
        calls ++ filterCalls filter (e :: B) := by
      unfold filterCalls
      split
      · rfl
      · simp [pairs]
    rw [headId, collectNodes, if_neg (entry_ne_nil h.rep he), pair_spec h.rep he]
    by_cases haccept : accepts filter (e.key, e.value) = true
    · have hlt : nodes.length < t.size := by omega
      have hloop := ih (A ++ [e]) fuel (nodes ++ [e.id])
        (if filter.isNone then calls else calls ++ [(e.key, e.value)]) hrest (by omega)
        (by rw [List.length_append, List.length_singleton]; omega)
      have hnode : collectNode t filter e.id nodes = some (nodes ++ [e.id]) := by
        rw [collectNode, pair_spec h.rep he, if_pos haccept, if_pos hlt]
      simp only [hnode, next_spec h.rep hin, Option.bind_eq_bind, Option.bind_some, hloop, hcalls]
      simp [acceptedEntries, haccept]
    · have hloop := ih (A ++ [e]) fuel nodes (if filter.isNone then calls else calls ++ [(e.key, e.value)]) hrest
        (by omega) (by omega)
      have hnode : collectNode t filter e.id nodes = some nodes := by
        rw [collectNode, pair_spec h.rep he, if_neg haccept]
      simp only [hnode, next_spec h.rep hin, Option.bind_eq_bind, Option.bind_some, hloop, hcalls]
      simp [acceptedEntries, haccept]

/-! ## Putting them -/

def RBTreeFns.stored (fns : RBTreeFns K V) (e : Entry K V) : Option K × Option V := fns.copied (e.key, e.value)

/-- The copy holds the entries of `L` at the indices `I`. -/
def Gathers (fns : RBTreeFns K V) (copy : RBTree K V) (L : List (Entry K V)) (I : ℕ → Prop) : Prop :=
  ∃ T', Holds fns copy T' ∧ ∀ p, p ∈ pairs T'.inorder ↔ ∃ i e, I i ∧ L[i]? = some e ∧ p = fns.stored e

theorem ascending_index (law : fns.Lawful) (hasc : Ascending fns L) {j : ℕ} {a b : Entry K V} (ha : L[i]? = some a)
    (hb : L[j]? = some b) (hk : fns.keyCompare a.key b.key = 0) : i = j := by
  rw [List.getElem?_eq_some_iff] at ha hb
  obtain ⟨hi, rfl⟩ := ha
  obtain ⟨hj, rfl⟩ := hb
  unfold Ascending at hasc
  rw [List.pairwise_iff_getElem] at hasc
  rcases Nat.lt_trichotomy i j with hlt | heq | hgt
  · have := hasc i j hi hj hlt
    omega
  · exact heq
  · have h₁ := hasc j i hj hi hgt
    have h₂ := law.equal_symm hk
    omega

/-- A put of an entry with its own index: a second put of the same entry changes no pair. -/
theorem gathers_put (law : fns.Lawful) (hasc : Ascending fns L) (hsource : ∀ e ∈ L, t.pair e.id = (e.key, e.value))
    (h : Gathers fns copy L I) (hi : i < L.length) :
    ∃ copy', putNode fns t (L.map Entry.id) copy i = some copy' ∧ Gathers fns copy' L fun j => I j ∨ j = i := by
  obtain ⟨T', hholds, hpairs⟩ := h
  have hat : L[i]? = some L[i] := List.getElem?_eq_getElem hi
  obtain ⟨hkey, hvalue⟩ := Prod.ext_iff.mp (hsource L[i] (List.getElem_mem hi))
  obtain ⟨copy', T'', b, hput, hholds', hout⟩ := rbTreePut_spec law hholds L[i].key L[i].value
  refine ⟨copy', ?_, T'', hholds', ?_⟩
  · unfold putNode
    simp only [RBTree.pair] at hkey hvalue
    simp only [List.getElem?_map, hat, Option.map_some, Option.bind_eq_bind, Option.bind_some, hkey, hvalue, hput]
    rfl
  · intro p
    cases hout with
    | @replaced A B e' hl hk hl' =>
      -- the entry found is the one put before
      have hmem : (e'.key, e'.value) ∈ pairs T'.inorder := by
        rw [pairs, List.mem_map]
        exact ⟨e', by rw [hl]; exact List.mem_append_right _ List.mem_cons_self, rfl⟩
      obtain ⟨j, e, hj, hje, hstored⟩ := (hpairs _).mp hmem
      obtain ⟨hekey, hevalue⟩ := Prod.ext_iff.mp hstored
      simp only [RBTreeFns.stored, RBTreeFns.copied] at hekey hevalue
      rw [hekey] at hk
      obtain rfl := ascending_index law hasc hat hje (law.equal_trans hk (law.copy_equal e.key))
      obtain rfl := Option.some.inj (hat.symm.trans hje)
      have hsame : pairs T''.inorder = pairs T'.inorder := by
        rw [hl, hl']
        simp [pairs, hekey, hevalue]
      rw [hsame, hpairs]
      constructor
      · rintro ⟨j, e, hj, hje, rfl⟩
        exact ⟨j, e, .inl hj, hje, rfl⟩
      · rintro ⟨j, e, hj' | rfl, hje, rfl⟩
        · exact ⟨j, e, hj', hje, rfl⟩
        · exact ⟨j, e, hj, hje, rfl⟩
    | @added A B k hl hne hl' =>
      have hmem : p ∈ pairs T''.inorder ↔ p ∈ pairs T'.inorder ∨ p = fns.stored L[i] := by
        rw [hl, hl']
        simp only [pairs, List.map_append, List.map_cons, List.mem_append, List.mem_cons, RBTreeFns.stored,
          RBTreeFns.copied]
        tauto
      rw [hmem, hpairs]
      constructor
      · rintro (⟨j, e, hj, hje, rfl⟩ | rfl)
        · exact ⟨j, e, .inl hj, hje, rfl⟩
        · exact ⟨i, L[i], .inr rfl, hat, rfl⟩
      · rintro ⟨j, e, hj | rfl, hje, rfl⟩
        · exact .inl ⟨j, e, hj, hje, rfl⟩
        · obtain rfl := Option.some.inj (hat.symm.trans hje)
          exact .inr rfl

theorem Gathers.congr {J : ℕ → Prop} (h : Gathers fns copy L I) (hiff : ∀ i < L.length, I i ↔ J i) :
    Gathers fns copy L J := by
  obtain ⟨T', hholds, hpairs⟩ := h
  refine ⟨T', hholds, fun p => (hpairs p).trans ?_⟩
  constructor
  · rintro ⟨i, e, hi, he, hp⟩
    exact ⟨i, e, (hiff i (List.getElem?_eq_some_iff.mp he).1).mp hi, he, hp⟩
  · rintro ⟨i, e, hi, he, hp⟩
    exact ⟨i, e, (hiff i (List.getElem?_eq_some_iff.mp he).1).mpr hi, he, hp⟩

/-- The second loop, after `n` turns. -/
theorem gathers_both (law : fns.Lawful) (hasc : Ascending fns L) (hsource : ∀ e ∈ L, t.pair e.id = (e.key, e.value))
    (h : Gathers fns copy L I) (half : ℕ) (hhalf : 2 * half ≤ L.length) (n : ℕ) (hn : n ≤ half) :
    ∃ copy', (List.range n).foldlM (putBoth fns t (L.map Entry.id) half) copy = some copy' ∧
      Gathers fns copy' L fun i => I i ∨ (half ≤ i + n ∧ i < half + n) := by
  induction n with
  | zero => exact ⟨copy, rfl, h.congr fun i _ => (or_iff_left (by omega)).symm⟩
  | succ n ih =>
    obtain ⟨copy₁, hloop, h₁⟩ := ih (by omega)
    obtain ⟨copy₂, hput₂, h₂⟩ := gathers_put law hasc hsource h₁ (i := half + n) (by omega)
    obtain ⟨copy₃, hput₃, h₃⟩ := gathers_put law hasc hsource h₂ (i := half - n - 1) (by omega)
    refine ⟨copy₃, ?_, h₃.congr fun i _ => ?_⟩
    · rw [List.range_succ, List.foldlM_append, hloop]
      simp only [Option.bind_eq_bind, Option.bind_some, List.foldlM_cons, List.foldlM_nil, putBoth, hput₂, hput₃]
      rfl
    · simp only [or_assoc]
      exact or_congr_right (by omega)

/-! ## The copy -/

/-- How many of `n` accepted entries get into the copy. -/
def copiedCount (n : ℕ) : ℕ := if n % 2 = 0 ∨ n = 1 then n else n - 1

theorem Gathers.pairs_eq (law : fns.Lawful) (hasc : Ascending fns L) {m : ℕ} (h : Gathers fns copy L fun i => i < m) :
    ∃ T', Holds fns copy T' ∧ pairs T'.inorder = (L.take m).map fns.stored := by
  obtain ⟨T', hholds, hpairs⟩ := h
  refine ⟨T', hholds, ?_⟩
  have hirrefl : Std.Irrefl fun p q : Option K × Option V => fns.keyCompare p.1 q.1 < 0 :=
    ⟨fun p => by rw [law.equal_refl]; omega⟩
  have hantisymm : Std.Antisymm fun p q : Option K × Option V => fns.keyCompare p.1 q.1 < 0 :=
    ⟨fun p q hpq hqp => by rw [law.compare_swap] at hpq; omega⟩
  have hleft : (pairs T'.inorder).Pairwise fun p q => fns.keyCompare p.1 q.1 < 0 :=
    List.pairwise_map.mpr hholds.ascending
  have hright : ((L.take m).map fns.stored).Pairwise fun p q => fns.keyCompare p.1 q.1 < 0 := by
    refine List.pairwise_map.mpr ((hasc.sublist (List.take_sublist m L)).imp ?_)
    intro a b hab
    have ha := law.lt_of_le_of_lt (law.copy_equal a.key).le hab
    exact law.lt_of_lt_of_le ha (law.equal_symm (law.copy_equal b.key)).le
  refine hleft.eq_of_mem_iff hright fun p => (hpairs p).trans ?_
  rw [List.mem_map]
  constructor
  · rintro ⟨i, e, hi, he, rfl⟩
    exact ⟨e, List.mem_of_getElem? ((List.getElem?_take_of_lt hi).trans he), rfl⟩
  · rintro ⟨e, he, rfl⟩
    obtain ⟨i, hi⟩ := List.mem_iff_getElem?.mp he
    have hlt := (List.getElem?_eq_some_iff.mp hi).1
    rw [List.length_take] at hlt
    rw [List.getElem?_take_of_lt (by omega)] at hi
    exact ⟨i, e, by omega, hi, rfl⟩

theorem gathers_new (fns : RBTreeFns K V) (L : List (Entry K V)) : Gathers fns rbTreeNew L fun _ => False := by
  refine ⟨.leaf, rbTreeNew_holds, fun p => ?_⟩
  constructor
  · intro hp
    exact absurd hp List.not_mem_nil
  · rintro ⟨i, e, hi, _⟩
    exact hi.elim

/-- The first entries get into the copy, all of them or all but the last. -/
theorem putAll_spec (law : fns.Lawful) (hasc : Ascending fns L) (hsource : ∀ e ∈ L, t.pair e.id = (e.key, e.value)) :
    ∃ copy T', putAll fns t (L.map Entry.id) = some copy ∧
      Holds fns copy T' ∧ pairs T'.inorder = (L.take (copiedCount L.length)).map fns.stored := by
  have hnew := gathers_new fns L
  unfold putAll putMiddle
  rw [List.length_map]
  obtain ⟨half, hlen | hlen⟩ : ∃ half, L.length = 2 * half ∨ L.length = 2 * half + 1 := ⟨L.length / 2, by omega⟩
  · obtain ⟨copy, hloop, hcopy⟩ := gathers_both law hasc hsource hnew half (by omega) half (Nat.le_refl _)
    obtain ⟨T', hholds, hpairs⟩ := Gathers.pairs_eq law hasc (m := L.length) (hcopy.congr fun i _ => by
      rw [false_or]
      omega)
    refine ⟨copy, T', ?_, hholds, ?_⟩
    · simp only [hlen, Nat.mul_mod_right, ne_eq, not_true_eq_false, if_false, Option.bind_eq_bind, Option.bind_some,
        Nat.mul_div_cancel_left half Nat.two_pos]
      exact hloop
    · rw [hpairs, copiedCount, if_pos (.inl (by omega))]
  · obtain ⟨copy₁, hput, hmiddle⟩ := gathers_put law hasc hsource hnew (i := half) (by omega)
    obtain ⟨copy, hloop, hcopy⟩ := gathers_both law hasc hsource hmiddle half (by omega) half (Nat.le_refl _)
    -- the loop puts the middle entry again and never reaches the last one
    obtain ⟨T', hholds, hpairs⟩ := Gathers.pairs_eq law hasc (m := copiedCount L.length) (hcopy.congr fun i _ => by
      unfold copiedCount
      rw [false_or]
      split
      · omega
      · omega)
    refine ⟨copy, T', ?_, hholds, hpairs⟩
    have hodd : L.length % 2 ≠ 0 := by omega
    have hmid : L.length / 2 = half := by omega
    have hcount : L.length - 1 = 2 * half := by omega
    simp only [if_pos hodd, hmid, hcount, hput, Option.map_some, Option.bind_eq_bind, Option.bind_some,
      Nat.mul_mod_right, ne_eq, not_true_eq_false, if_false, Nat.mul_div_cancel_left half Nat.two_pos]
    exact hloop

theorem rbTreeCopy_spec (law : fns.Lawful) (h : Holds fns t T) (hne : T.inorder ≠ []) (filter : RBTreePredicate K V) :
    ∃ copy T', rbTreeCopy fns t filter = some (copy, filterCalls filter T.inorder) ∧ Holds fns copy T' ∧
      pairs T'.inorder = ((acceptedEntries filter T.inorder).take
        (copiedCount (acceptedEntries filter T.inorder).length)).map fns.stored := by
  have hlen := h.rep.length_lt
  have hfirst : headId t.root T.inorder = headId t.nil T.inorder := by
    cases hin : T.inorder with
    | nil => exact absurd hin hne
    | cons e B => rfl
  have hcollect := collectNodes_spec h filter T.inorder [] t.fresh [] [] rfl (by omega)
    (by rw [h.size, List.length_nil, Nat.zero_add])
  obtain ⟨copy, T', hput, hholds, hpairs⟩ := putAll_spec law (t := t) (L := acceptedEntries filter T.inorder)
    (h.ascending.sublist List.filter_sublist) fun e he => pair_spec h.rep (List.mem_filter.mp he).1
  refine ⟨copy, T', ?_, hholds, hpairs⟩
  unfold rbTreeCopy
  simp only [rbTreeIteratorNew_spec h.rep, hfirst, hcollect, List.nil_append, Option.bind_eq_bind, Option.bind_some, hput,
    hholds.verified, if_true]
  rfl

theorem putNode_holds (law : fns.Lawful) {copy' : RBTree K V} (h : ∃ T', Holds fns copy T')
    (heq : putNode fns t nodes copy i = some copy') : ∃ T', Holds fns copy' T' := by
  obtain ⟨T', hholds⟩ := h
  unfold putNode at heq
  rw [Option.bind_eq_bind, Option.bind_eq_some_iff] at heq
  obtain ⟨node, _, heq⟩ := heq
  obtain ⟨copy₁, T₁, b, hput, hholds₁, _⟩ := rbTreePut_spec law hholds (t.heap node).key (t.heap node).value
  rw [hput] at heq
  cases heq
  exact ⟨T₁, hholds₁⟩

theorem putBoth_holds (law : fns.Lawful) {half : ℕ} (l : List ℕ) : ∀ {copy copy' : RBTree K V},
    (∃ T', Holds fns copy T') → l.foldlM (putBoth fns t nodes half) copy = some copy' → ∃ T', Holds fns copy' T' := by
  induction l with
  | nil =>
    intro copy copy' h heq
    cases heq
    exact h
  | cons i l ih =>
    intro copy copy' h heq
    rw [List.foldlM_cons, Option.bind_eq_bind, Option.bind_eq_some_iff] at heq
    obtain ⟨copy₂, hboth, heq⟩ := heq
    unfold putBoth at hboth
    rw [Option.bind_eq_bind, Option.bind_eq_some_iff] at hboth
    obtain ⟨copy₁, h₁, h₂⟩ := hboth
    exact ih (putNode_holds law (putNode_holds law h h₁) h₂) heq

theorem putAll_holds (law : fns.Lawful) (heq : putAll fns t nodes = some copy) : ∃ T', Holds fns copy T' := by
  have hnew : ∃ T', Holds fns (rbTreeNew : RBTree K V) T' := ⟨.leaf, rbTreeNew_holds⟩
  unfold putAll putMiddle at heq
  rw [Option.bind_eq_bind, Option.bind_eq_some_iff] at heq
  obtain ⟨⟨copy₁, count⟩, hmiddle, heq⟩ := heq
  have h₁ : ∃ T', Holds fns copy₁ T' := by
    split at hmiddle
    · obtain ⟨copy₂, hput, hsome⟩ := Option.map_eq_some_iff.mp hmiddle
      cases hsome
      exact putNode_holds law hnew hput
    · cases hmiddle
      exact hnew
  simp only at heq
  split at heq
  · cases heq
  · exact putBoth_holds law _ h₁ heq

theorem rbTreeCopy_holds (law : fns.Lawful) {calls : List (Option K × Option V)}
    (heq : rbTreeCopy fns t filter = some (copy, calls)) :
    ∃ T', Holds fns copy T' := by
  unfold rbTreeCopy at heq
  simp only [Option.bind_eq_bind, Option.bind_eq_some_iff] at heq
  obtain ⟨curr, _, ⟨nodes, calls'⟩, _, copy', hput, heq⟩ := heq
  split at heq
  · cases heq
    exact putAll_holds law hput
  · cases heq

theorem RBTreeReachable.holds (law : fns.Lawful) (h : RBTreeReachable fns t) : ∃ T, Holds fns t T := by
  induction h with
  | new => exact ⟨.leaf, rbTreeNew_holds⟩
  | call call _ heq ih =>
    obtain ⟨T, hholds⟩ := ih
    obtain ⟨t', T', reply, hstep, hholds'⟩ := rbTreeStep_holds law hholds call
    rw [hstep] at heq
    cases heq
    exact ⟨T', hholds'⟩
  | copy filter _ heq _ => exact rbTreeCopy_holds law heq

/-! ## The empty tree -/

theorem collectNodes_calls (fuel : ℕ) : ∀ {curr : ℕ} {nodes nodes' : List ℕ}
    {calls calls' : List (Option K × Option V)}, collectNodes t filter fuel curr nodes calls = some (nodes', calls') →
      ∀ c ∈ calls, c ∈ calls' := by
  induction fuel with
  | zero =>
    intro curr nodes nodes' calls calls' h
    cases h
  | succ fuel ih =>
    intro curr nodes nodes' calls calls' h c hc
    rw [collectNodes] at h
    split at h
    · cases h
      exact hc
    · simp only [Option.bind_eq_bind, Option.bind_eq_some_iff] at h
      obtain ⟨nodes₁, _, curr₁, _, h⟩ := h
      refine ih h c ?_
      split
      · exact hc
      · exact List.mem_append_left _ hc

/-- The first node that is looked at is the root sentinel: it does not fit into the array, and a filter is
called with its key and value, which are `NULL`. -/
theorem rbTreeCopy_empty (h : Holds fns t T) (hnil : T.inorder = []) {calls : List (Option K × Option V)}
    (heq : rbTreeCopy fns t filter = some (copy, calls)) : (none, none) ∈ calls := by
  have hsize : t.size = 0 := by
    rw [h.size, hnil]
    rfl
  have hroot : t.pair t.root = (none, none) := Prod.ext h.rep.root_key h.rep.root_value
  unfold rbTreeCopy at heq
  simp only [rbTreeIteratorNew_spec h.rep, hnil, headId, Option.bind_eq_bind, Option.bind_some,
    Option.bind_eq_some_iff] at heq
  obtain ⟨⟨nodes, calls'⟩, hcollect, copy', _, hcopy⟩ := heq
  split at hcopy
  · cases hcopy
    obtain ⟨fuel, hfuel⟩ : ∃ k, t.fresh = k + 1 := ⟨t.fresh - 1, by have := h.rep.length_lt; omega⟩
    rw [hfuel, collectNodes, if_neg h.rep.root_ne_nil, hroot] at hcollect
    simp only [Option.bind_eq_bind, Option.bind_eq_some_iff] at hcollect
    obtain ⟨nodes₁, hnodes, curr, _, hcollect⟩ := hcollect
    cases filter with
    | none =>
      have haccept : accepts none (t.pair t.root) = true := rfl
      rw [collectNode, if_pos haccept, if_neg (by rw [hsize]; exact Nat.not_lt_zero _)] at hnodes
      cases hnodes
    | some f => exact collectNodes_calls fuel hcollect _ List.mem_cons_self
  · cases hcopy

/-! ## RBTreeEqual -/

/-- Entries that `RBTreeEqual` does not tell apart. -/
def SameEntry (fns : RBTreeFns K V) (valueCompare : Option V → Option V → ℤ) (x y : Entry K V) : Prop :=
  fns.keyCompare x.key y.key = 0 ∧ valueCompare x.value y.value = 0

theorem equalLoop_spec {valueCompare : Option V → Option V → ℤ} {a b : RBTree K V} {A B : Shape K V} (ha : Holds fns a A)
    (hb : Holds fns b B) (as : List (Entry K V)) : ∀ (as' bs' bs : List (Entry K V)) (fuel : ℕ),
      A.inorder = as' ++ as → B.inorder = bs' ++ bs → as.length = bs.length → as.length < fuel →
      ∃ r, equalLoop fns valueCompare a b fuel (headId a.nil as) (headId b.nil bs) = some r ∧
        (r = true ↔ List.Forall₂ (SameEntry fns valueCompare) as bs) := by
  induction as with
  | nil =>
    intro as' bs' bs fuel _ _ hlen hfuel
    obtain ⟨fuel, rfl⟩ : ∃ k, fuel = k + 1 := ⟨fuel - 1, by omega⟩
    obtain rfl := List.length_eq_zero_iff.mp hlen.symm
    refine ⟨true, ?_, fun _ => .nil, fun _ => rfl⟩
    rw [headId, equalLoop, peek_nil]
  | cons x as ih =>
    intro as' bs' bs fuel hA hB hlen hfuel
    obtain ⟨fuel, rfl⟩ : ∃ k, fuel = k + 1 := ⟨fuel - 1, by omega⟩
    cases bs with
    | nil => exact absurd hlen (Nat.succ_ne_zero _)
    | cons y bs =>
      rw [List.length_cons, List.length_cons, Nat.add_right_cancel_iff] at hlen
      rw [List.length_cons] at hfuel
      have hx : x ∈ A.inorder := by
        rw [hA]
        exact List.mem_append_right _ List.mem_cons_self
      have hy : y ∈ B.inorder := by
        rw [hB]
        exact List.mem_append_right _ List.mem_cons_self
      rw [headId, headId, equalLoop, peek_entry ha hx]
      simp only [next_spec ha.rep hA, Option.bind_eq_bind, Option.bind_some, peek_entry hb hy, next_spec hb.rep hB]
      by_cases hdiffer : fns.keyCompare x.key y.key ≠ 0 ∨ valueCompare x.value y.value ≠ 0
      · refine ⟨false, if_pos hdiffer, fun h => absurd h Bool.false_ne_true, fun h => ?_⟩
        obtain ⟨⟨hkey, hvalue⟩, _⟩ := List.forall₂_cons.mp h
        rcases hdiffer with hne | hne
        · exact absurd hkey hne
        · exact absurd hvalue hne
      · have hsame : SameEntry fns valueCompare x y := by
          rw [not_or, not_not, not_not] at hdiffer
          exact hdiffer
        obtain ⟨r, hloop, hr⟩ := ih (as' ++ [x]) (bs' ++ [y]) bs fuel (by rw [hA, List.append_cons])
          (by rw [hB, List.append_cons]) hlen (by omega)
        refine ⟨r, ?_, ?_⟩
        · rw [if_neg hdiffer, hloop]
        · rw [List.forall₂_cons, hr, and_iff_right hsame]

theorem rbTreeEqual_spec (valueCompare : Option V → Option V → ℤ) {a b : RBTree K V} {A B : Shape K V} (ha : Holds fns a A)
    (hb : Holds fns b B) : ∃ r, rbTreeEqual fns valueCompare a b = some r ∧
      (r = true ↔ List.Forall₂ (SameEntry fns valueCompare) A.inorder B.inorder) := by
  have hfresh := ha.rep.length_lt
  unfold rbTreeEqual
  by_cases hsize : rbTreeSize a = rbTreeSize b
  · have hlen : A.inorder.length = B.inorder.length := by
      rw [← ha.size, ← hb.size]
      exact hsize
    simp only [if_neg (not_not.mpr hsize), rbTreeIteratorNew_spec ha.rep, rbTreeIteratorNew_spec hb.rep,
      Option.bind_eq_bind, Option.bind_some]
    cases hA : A.inorder with
    | nil =>
      -- the loop ends at once, on the root sentinel
      obtain ⟨fuel, hfuel⟩ : ∃ k, a.fresh = k + 1 := ⟨a.fresh - 1, by omega⟩
      have hzero : a.size = 0 := by
        rw [ha.size, hA]
        rfl
      have hnil : B.inorder = [] := List.length_eq_zero_iff.mp (by rw [← hlen, hA]; rfl)
      rw [hnil]
      refine ⟨true, ?_, fun _ => .nil, fun _ => rfl⟩
      rw [hfuel, equalLoop, peek, if_pos hzero]
    | cons x as =>
      cases hB : B.inorder with
      | nil =>
        rw [hA, hB] at hlen
        exact absurd hlen (Nat.succ_ne_zero _)
      | cons y bs =>
        rw [hA, hB] at hlen
        exact equalLoop_spec ha hb (x :: as) [] [] (y :: bs) a.fresh hA hB hlen (by rw [← hA]; omega)
  · refine ⟨false, by rw [if_pos hsize]; rfl, fun h => absurd h Bool.false_ne_true, fun h => ?_⟩
    refine absurd ?_ hsize
    rw [rbTreeSize, rbTreeSize, ha.size, hb.size]
    exact h.length_eq

/-! ## Exactly the accepted pairs -/

/-- The copy holds exactly the accepted pairs, the filter is called with pairs of the tree only, and without a
filter the copy is equal to the tree. -/
def CopiesExactly (fns : RBTreeFns K V) (valueCompare : Option V → Option V → ℤ) (t : RBTree K V)
    (filter : RBTreePredicate K V) : Prop :=
  ∃ copy calls items, rbTreeCopy fns t filter = some (copy, calls) ∧ rbTreeItems t = some items ∧
    (∀ c ∈ calls, c ∈ items) ∧
    rbTreeItems copy = some ((items.filter (accepts filter)).map fns.copied) ∧
    (filter = none → rbTreeEqual fns valueCompare copy t = some true)

theorem pairs_accepted (filter : RBTreePredicate K V) (l : List (Entry K V)) :
    (pairs l).filter (accepts filter) = pairs (acceptedEntries filter l) := by
  rw [pairs, List.filter_map]
  rfl

theorem copiedCount_le (n : ℕ) : copiedCount n ≤ n := by
  unfold copiedCount
  split
  · omega
  · omega

theorem copiedCount_eq_iff (n : ℕ) : copiedCount n = n ↔ n % 2 = 0 ∨ n = 1 := by
  unfold copiedCount
  split
  · omega
  · omega

theorem copied_take (fns : RBTreeFns K V) {l : List (Entry K V)}
    (h : copiedCount (acceptedEntries filter l).length = (acceptedEntries filter l).length) :
    ((acceptedEntries filter l).take (copiedCount (acceptedEntries filter l).length)).map fns.stored =
      ((pairs l).filter (accepts filter)).map fns.copied := by
  rw [h, List.take_length, pairs_accepted, pairs, List.map_map]
  rfl

theorem copy_equal (law : fns.Lawful) {valueCompare : Option V → Option V → ℤ}
    (hvalue : ∀ v, valueCompare (fns.valueCopy v) v = 0) {T' : Shape K V} (h : Holds fns t T) (h' : Holds fns copy T')
    (hpairs : pairs T'.inorder = ((pairs T.inorder).filter (accepts none)).map fns.copied) :
    rbTreeEqual fns valueCompare copy t = some true := by
  have hall : (pairs T.inorder).filter (accepts none) = pairs T.inorder := List.filter_eq_self.mpr fun _ _ => rfl
  rw [hall] at hpairs
  have hequal : List.Forall₂ (SameEntry fns valueCompare) T'.inorder T.inorder := by
    have heq : List.Forall₂ (· = ·) (pairs T'.inorder) ((pairs T.inorder).map fns.copied) := by
      rw [List.forall₂_eq_eq_eq]
      exact hpairs
    rw [pairs, pairs, List.map_map, List.forall₂_map_left_iff, List.forall₂_map_right_iff] at heq
    refine heq.imp fun x y hxy => ?_
    obtain ⟨hkey, hval⟩ := Prod.ext_iff.mp hxy
    simp only [Function.comp_apply, RBTreeFns.copied] at hkey hval
    rw [SameEntry, hkey, hval]
    exact ⟨law.copy_equal y.key, hvalue y.value⟩
  obtain ⟨r, hresult, hr⟩ := rbTreeEqual_spec valueCompare h' h
  rw [hresult, hr.mpr hequal]

/-- A reachable tree is copied exactly if it is not empty and the count of accepted pairs is even or one. -/
theorem rbTreeCopy_exact_iff (law : fns.Lawful) {valueCompare : Option V → Option V → ℤ}
    (hvalue : ∀ v, valueCompare (fns.valueCopy v) v = 0) (h : RBTreeReachable fns t) (filter : RBTreePredicate K V) :
    ∃ items, rbTreeItems t = some items ∧ (CopiesExactly fns valueCompare t filter ↔ items ≠ [] ∧
      ((items.filter (accepts filter)).length % 2 = 0 ∨ (items.filter (accepts filter)).length = 1)) := by
  obtain ⟨T, hholds⟩ := h.holds law
  have hitems := rbTreeItems_spec hholds
  have hcount : ((pairs T.inorder).filter (accepts filter)).length = (acceptedEntries filter T.inorder).length := by
    rw [pairs_accepted, pairs, List.length_map]
  refine ⟨pairs T.inorder, hitems, ?_⟩
  rw [hcount, ← copiedCount_eq_iff]
  constructor
  · rintro ⟨copy, calls, items, hcopy, hitems', hcalls, hresult, _⟩
    rw [hitems] at hitems'
    cases hitems'
    have hne : T.inorder ≠ [] := by
      intro hnil
      have hcall := hcalls _ (rbTreeCopy_empty hholds hnil hcopy)
      rw [hnil] at hcall
      exact absurd hcall List.not_mem_nil
    refine ⟨fun hnil => hne (List.map_eq_nil_iff.mp hnil), ?_⟩
    obtain ⟨copy', T', hcopy', hholds', hpairs⟩ := rbTreeCopy_spec law hholds hne filter
    rw [hcopy] at hcopy'
    cases hcopy'
    rw [rbTreeItems_spec hholds', hpairs] at hresult
    have hlen := congrArg List.length (Option.some.inj hresult)
    have hle := copiedCount_le (acceptedEntries filter T.inorder).length
    rw [List.length_map, List.length_map, hcount, List.length_take] at hlen
    omega
  · rintro ⟨hne, heven⟩
    have hne' : T.inorder ≠ [] := by
      intro hnil
      rw [hnil] at hne
      exact hne rfl
    obtain ⟨copy, T', hcopy, hholds', hpairs⟩ := rbTreeCopy_spec law hholds hne' filter
    have hall := copied_take fns heven
    refine ⟨copy, _, pairs T.inorder, hcopy, hitems, ?_, ?_, ?_⟩
    · intro c hc
      unfold filterCalls at hc
      split at hc
      · exact absurd hc List.not_mem_nil
      · exact hc
    · rw [rbTreeItems_spec hholds', hpairs, hall]
    · rintro rfl
      rw [hall] at hpairs
      exact copy_equal law hvalue hholds hholds' hpairs

/-- Equality of values as an `int`. -/
def numberValues (a b : Option ℕ) : ℤ := if a = b then 0 else 1

def numberTree : List ℕ → RBTree ℕ ℕ
  | [] => rbTreeNew
  | n :: ns =>
    match rbTreePut numberFns (numberTree ns) (some n) (some n) with
    | some (t, _) => t
    | none => numberTree ns

theorem numberTree_reachable (ns : List ℕ) : RBTreeReachable numberFns (numberTree ns) := by
  induction ns with
  | nil => exact .new
  | cons n ns ih =>
    rw [numberTree]
    split
    next t b hput =>
      have hstep : rbTreeStep numberFns (numberTree ns) (.put (some n) (some n)) = some (t, .flag b) := by
        rw [rbTreeStep, hput]
        rfl
      exact .call _ ih hstep
    next => exact ih

theorem rbTreeCopy_exact_iff_numbers : ∃ items, rbTreeItems (numberTree [3, 1, 2, 4]) = some items ∧
    (CopiesExactly numberFns numberValues (numberTree [3, 1, 2, 4]) none ↔ items ≠ [] ∧
      ((items.filter (accepts none)).length % 2 = 0 ∨ (items.filter (accepts none)).length = 1)) :=
  rbTreeCopy_exact_iff numberFns_lawful (fun _ => if_pos rfl) (numberTree_reachable _) none

/-- Of three pairs the copy keeps two. -/
theorem three_pairs_not_copied : RBTreeReachable numberFns (numberTree [1, 2, 3]) ∧
    ¬ CopiesExactly numberFns numberValues (numberTree [1, 2, 3]) none := by
  refine ⟨numberTree_reachable _, ?_⟩
  rintro ⟨copy, calls, items, hcopy, hitems, _, hresult, _⟩
  have htwo : ((rbTreeCopy numberFns (numberTree [1, 2, 3]) none).bind fun r => rbTreeItems r.1) =
      some [(some 1, some 1), (some 2, some 2)] := by decide +kernel
  have hthree : rbTreeItems (numberTree [1, 2, 3]) = some [(some 1, some 1), (some 2, some 2), (some 3, some 3)] := by
    decide +kernel
  rw [hthree] at hitems
  cases hitems
  rw [hcopy, Option.bind_some, hresult] at htwo
  exact absurd htwo (by decide)

end Libntech.Containers
