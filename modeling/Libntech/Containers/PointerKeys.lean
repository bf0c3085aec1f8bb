import Libntech.Containers.RBTreeMeaning
import Mathlib.Data.Fintype.EquivFin
import Mathlib.Data.Setoid.Basic
import Mathlib.Order.CompletePartialOrder

/-! # Trees keyed by pointers (`libutils/rb-tree.c`)

A tree made with `KeyCompare == NULL` compares its keys by `PointerCompare_`, which narrows a 64-bit difference to
an `int`. Only the lower halves of the addresses count, and they are ordered round a circle: the order is one by
identity just if the keys differ in their lower halves and these lie within half the circle.
-/
namespace Libntech.Containers
open Lib Lib.RedBlack
open Containers.RBTree
set_option autoImplicit false

variable {K V : Type}

/-! ## The comparator -/

/-- A pointer other than `NULL`. -/
abbrev Pointer := {a : BitVec 64 // a ≠ 0}

def address (p : Option Pointer) : BitVec 64 := p.elim 0 Subtype.val

/-- `PointerCompare_` -/
def pointerCompare (a b : Option Pointer) : ℤ := ((address a - address b).setWidth 32).toInt

/-- The functions of a tree that `RBTreeNew` makes with `KeyCompare == NULL`; `none` is `NULL`. -/
def pointerTreeFns (keyCopy : Option (Option Pointer → Option Pointer)) (valueCopy : Option (Option V → Option V)) :
    RBTreeFns Pointer V where
  keyCopy := keyCopy.getD id
  keyCompare := pointerCompare
  valueCopy := valueCopy.getD id

/-- The half of the address that the comparator looks at. -/
def low (p : Option Pointer) : BitVec 32 := (address p).setWidth 32

/-- How far a key is behind `base` on the circle. -/
def offset (base : BitVec 32) (p : Option Pointer) : ℕ := (low p - base).toNat

theorem address_injective : Function.Injective address := by
  intro a b h
  cases a with
  | none =>
    cases b with
    | none => rfl
    | some b => exact absurd h.symm b.2
  | some a =>
    cases b with
    | none => exact absurd h a.2
    | some b => exact congrArg some (Subtype.ext h)

theorem pointerCompare_low (a b : Option Pointer) : pointerCompare a b = (low a - low b).toInt := by
  have hnarrow : (address a - address b).setWidth 32 = low a - low b := by
    unfold low
    bv_omega
  rw [pointerCompare, hnarrow]

variable {a b : Option Pointer}

theorem pointerCompare_eq_zero : pointerCompare a b = 0 ↔ low a = low b := by
  rw [pointerCompare_low]
  constructor
  · intro h
    have hzero : low a - low b = 0 := BitVec.eq_of_toInt_eq (by rw [h]; rfl)
    exact BitVec.sub_eq_iff_eq_add.mp hzero |>.trans (BitVec.zero_add _)
  · intro h
    rw [h, BitVec.sub_self]
    rfl

/-- Within half the circle the comparator is the difference of the offsets. -/
theorem pointerCompare_near {base : BitVec 32} (ha : offset base a < 2 ^ 31) (hb : offset base b < 2 ^ 31) :
    pointerCompare a b = offset base a - offset base b := by
  rw [pointerCompare_low]
  unfold offset at *
  have hdiff : low a - low b = (low a - base) - (low b - base) := by
    bv_omega
  rw [hdiff]
  generalize low a - base = x at *
  generalize low b - base = y at *
  rw [BitVec.toInt_sub, BitVec.toInt_eq_toNat_of_lt (by omega), BitVec.toInt_eq_toNat_of_lt (by omega)]
  exact Int.bmod_eq_of_le (by omega) (by omega)

theorem offset_lt_iff (a m : Option Pointer) : offset (low m) a < 2 ^ 31 ↔ 0 ≤ pointerCompare a m := by
  rw [pointerCompare_low, offset]
  generalize low a - low m = x
  rw [BitVec.toInt_eq_toNat_cond]
  split
  · omega
  · omega

/-! ## Trees whose functions agree on the keys used -/

/-- Functions that agree on the keys `S` of the calls and on the keys `N` that the tree may hold. -/
structure AgreeOn (fns fns' : RBTreeFns K V) (S N : Set (Option K)) : Prop where
  used : S ⊆ N
  compare : ∀ a ∈ N, ∀ b ∈ N, fns.keyCompare a b = fns'.keyCompare a b
  copy : ∀ k ∈ S, fns.keyCopy k = fns'.keyCopy k
  stored : ∀ k ∈ S, fns'.keyCopy k ∈ N
  value : fns.valueCopy = fns'.valueCopy

def RBTreeCall.key? : RBTreeCall K V → Option (Option K)
  | .put key _ => some key
  | .get key => some key
  | .remove key => some key
  | .clear => none
  | .size => none

/-- The call's key is one of `S`. -/
def RBTreeCall.Within (S : Set (Option K)) (call : RBTreeCall K V) : Prop := ∀ k ∈ call.key?, k ∈ S

section Agree

variable {fns fns' : RBTreeFns K V} {S N : Set (Option K)} {t : RBTree K V} {T : Shape K V} {key : Option K}

theorem putSearch_agree (s : Shape K V) (h : ∀ e ∈ s.inorder, fns.keyCompare key e.key = fns'.keyCompare key e.key) :
    ∀ (c : Ctx (Entry K V)) (fuel y : ℕ), Rep t (plug c s) →
      putSearch fns t key fuel y (ptr t.nil s) = putSearch fns' t key fuel y (ptr t.nil s) := by
  induction s with
  | leaf =>
    intro c fuel y hr
    cases fuel with
    | zero => rfl
    | succ fuel => rw [ptr_leaf, putSearch, putSearch, if_pos rfl, if_pos rfl]
  | node red l e r ihl ihr =>
    intro c fuel y hr
    cases fuel with
    | zero => rfl
    | succ fuel =>
      rw [Tree.inorder_node] at h
      have hl := ihl (fun x hx => h x (List.mem_append_left _ hx)) (⟨.left, red, e, r⟩ :: c) fuel e.id hr
      have hr' := ihr (fun x hx => h x (List.mem_append_right _ (List.mem_cons_of_mem _ hx)))
        (⟨.right, red, e, l⟩ :: c) fuel e.id hr
      rw [ptr, putSearch, putSearch, hr.key_node, hr.left_node, hr.right_node,
        h e (List.mem_append_right _ List.mem_cons_self)]
      dsimp only
      split
      · rfl
      · split
        · rfl
        · split
          · exact hl
          · exact hr'

theorem getLoop_agree (s : Shape K V) (h : ∀ e ∈ s.inorder, fns.keyCompare key e.key = fns'.keyCompare key e.key) :
    ∀ (c : Ctx (Entry K V)) (fuel : ℕ), Rep t (plug c s) →
      getLoop fns t key fuel (ptr t.nil s) = getLoop fns' t key fuel (ptr t.nil s) := by
  induction s with
  | leaf =>
    intro c fuel hr
    cases fuel with
    | zero => rfl
    | succ fuel => rw [ptr_leaf, getLoop, getLoop, if_pos rfl, if_pos rfl]
  | node red l e r ihl ihr =>
    intro c fuel hr
    cases fuel with
    | zero => rfl
    | succ fuel =>
      rw [Tree.inorder_node] at h
      have hl := ihl (fun x hx => h x (List.mem_append_left _ hx)) (⟨.left, red, e, r⟩ :: c) fuel hr
      have hr' := ihr (fun x hx => h x (List.mem_append_right _ (List.mem_cons_of_mem _ hx)))
        (⟨.right, red, e, l⟩ :: c) fuel hr
      rw [ptr, getLoop, getLoop, hr.key_node, hr.left_node, hr.right_node, hl, hr',
        h e (List.mem_append_right _ List.mem_cons_self)]

theorem getNode_agree (ha : AgreeOn fns fns' S N) (hr : Rep t T) (hN : ∀ e ∈ T.inorder, e.key ∈ N) (hkey : key ∈ S) :
    getNode fns t key = getNode fns' t key := by
  have hcmp : ∀ e ∈ T.inorder, fns.keyCompare key e.key = fns'.keyCompare key e.key := fun e he =>
    ha.compare key (ha.used hkey) e.key (hN e he)
  simp only [getNode, hr.nilBlack, Option.bind_eq_bind, Option.bind_some]
  rw [hr.top]
  exact getLoop_agree T hcmp [] t.fresh hr

theorem nodeNew_agree (ha : AgreeOn fns fns' S N) (hkey : key ∈ S) (y : ℕ) (red : Bool) (value : Option V) :
    nodeNew fns t y red key value = nodeNew fns' t y red key value := by
  rw [nodeNew, nodeNew, ha.copy key hkey, ha.value]

theorem putSide_agree (ha : AgreeOn fns fns' S N) {c : Ctx (Entry K V)} (hr : Rep t (plug c .leaf))
    (hN : ∀ e ∈ (plug c (.leaf : Shape K V)).inorder, e.key ∈ N) (hkey : key ∈ S) (value : Option V) :
    putSide fns (nodeNew fns' t (parentId t.root c) true key value).2 (parentId t.root c) t.fresh =
      putSide fns' (nodeNew fns' t (parentId t.root c) true key value).2 (parentId t.root c) t.fresh := by
  unfold putSide
  cases c with
  | nil => rw [if_pos (.inl rfl), if_pos (.inl rfl)]
  | cons f c =>
    have hmem : parentId t.root (f :: c) ∈ t.root :: t.nil :: ids (plug (f :: c) (.leaf : Shape K V)) := by
      refine List.mem_cons_of_mem _ (List.mem_cons_of_mem _ ?_)
      exact (ids_plug_perm (f :: c) .leaf).mem_iff.mpr (List.mem_append_right _ (parentId_mem f c))
    have hnew : parentId t.root (f :: c) ≠ t.fresh := (hr.fresh _ hmem).ne
    have hz : ((nodeNew fns' t (parentId t.root (f :: c)) true key value).2.heap t.fresh).key = fns'.keyCopy key := by
      simp [nodeNew]
    have hy : ((nodeNew fns' t (parentId t.root (f :: c)) true key value).2.heap (parentId t.root (f :: c))).key =
        f.a.key := by
      have hold : (t.heap (parentId t.root (f :: c))).key = f.a.key := by rw [parentId, hr.frame, Entry.key_node]
      rw [← hold]
      simp [nodeNew, hnew]
    have hin : f.a ∈ (plug (f :: c) (.leaf : Shape K V)).inorder := by
      have hfill : f.a ∈ (f.fill (.leaf : Shape K V)).inorder := by
        obtain ⟨dir, red, a, sib⟩ := f
        cases dir with
        | left => exact List.mem_append_right _ List.mem_cons_self
        | right => exact List.mem_append_right _ List.mem_cons_self
      rw [plug, inorder_plug, entries]
      exact List.mem_append_left _ (List.mem_append_right _ hfill)
    rw [hz, hy, ha.compare _ (ha.stored key hkey) _ (hN f.a hin)]

theorem rbTreePut_agree (ha : AgreeOn fns fns' S N) (law : fns'.Lawful) (h : Holds fns' t T)
    (hN : ∀ e ∈ T.inorder, e.key ∈ N) (hkey : key ∈ S) (value : Option V) :
    rbTreePut fns t key value = rbTreePut fns' t key value := by
  have hcmp : ∀ e ∈ T.inorder, fns.keyCompare key e.key = fns'.keyCompare key e.key := fun e he =>
    ha.compare key (ha.used hkey) e.key (hN e he)
  have hsearch : putSearch fns t key t.fresh t.root (t.left t.root) =
      putSearch fns' t key t.fresh t.root (t.left t.root) := by
    rw [h.rep.top]
    exact putSearch_agree T hcmp [] t.fresh t.root h.rep
  unfold rbTreePut
  rw [hsearch, ha.copy key hkey, ha.value]
  cases h.search law key with
  | @absent c hT _ hs _ =>
    subst hT
    have hside := putSide_agree ha h.rep hN hkey value
    simp only [hs, Option.bind_eq_bind, Option.bind_some, ne_eq, not_true_eq_false, if_false,
      nodeNew_agree ha hkey]
    rw [show (nodeNew fns' t (parentId t.root c) true key value).1 = t.fresh from rfl, hside]
  | @present c red l r e hT _ hs _ =>
    subst hT
    have hne : e.id ≠ t.nil := h.rep.node_ne_nil
    simp only [hs, Option.bind_eq_bind, Option.bind_some, ne_eq, hne, not_false_eq_true, if_true]

theorem PutOutcome.keys {value : Option V} {l l' : List (Entry K V)} {b : Bool} (ho : PutOutcome fns key value l l' b) :
    ∀ e ∈ l', e.key = fns.keyCopy key ∨ e ∈ l := by
  intro e he
  cases ho with
  | replaced hl _ hl' =>
    subst hl hl'
    rcases List.mem_append.mp he with he | he
    · exact .inr (List.mem_append_left _ he)
    · rcases List.mem_cons.mp he with rfl | he
      · exact .inl rfl
      · exact .inr (List.mem_append_right _ (List.mem_cons_of_mem _ he))
  | added hl _ hl' =>
    subst hl hl'
    rcases List.mem_append.mp he with he | he
    · exact .inr (List.mem_append_left _ he)
    · rcases List.mem_cons.mp he with rfl | he
      · exact .inl rfl
      · exact .inr (List.mem_append_right _ he)

theorem RemoveOutcome.subset {l l' : List (Entry K V)} {b : Bool} (ho : RemoveOutcome fns key l l' b) : l' ⊆ l := by
  cases ho with
  | absent _ hl' => exact fun e he => hl' ▸ he
  | removed hl _ hl' =>
    subst hl hl'
    intro e he
    rcases List.mem_append.mp he with he | he
    · exact List.mem_append_left _ he
    · exact List.mem_append_right _ (List.mem_cons_of_mem _ he)

/-- Both machines are at one tree, which holds keys of `N` only. -/
def SameTree (fns' : RBTreeFns K V) (N : Set (Option K)) (t t' : RBTree K V) : Prop :=
  t = t' ∧ ∃ T, Holds fns' t' T ∧ ∀ e ∈ T.inorder, e.key ∈ N

theorem rbTreeStep_agree (ha : AgreeOn fns fns' S N) (law : fns'.Lawful) {t' : RBTree K V} (call : RBTreeCall K V)
    (hcall : call.Within S) (h : SameTree fns' N t t') :
    Matches (SameTree fns' N) (rbTreeStep fns t call) (rbTreeStep fns' t' call) := by
  obtain ⟨rfl, T, hholds, hN⟩ := h
  cases call with
  | put key value =>
    have hkey : key ∈ S := hcall key rfl
    obtain ⟨t₁, T₁, b, heq, h₁, ho⟩ := rbTreePut_spec law hholds key value
    simp only [rbTreeStep, rbTreePut_agree ha law hholds hN hkey value, heq, Option.map_some]
    refine ⟨⟨rfl, T₁, h₁, fun e he => ?_⟩, rfl⟩
    rcases ho.keys e he with hcopy | hold
    · rw [hcopy]
      exact ha.stored key hkey
    · exact hN e hold
  | get key =>
    obtain ⟨v, hv⟩ : ∃ v, rbTreeGet fns' t key = some v := by
      rcases rbTreeGet_spec law hholds key with ⟨e, _, _, hget⟩ | ⟨_, hget⟩
      · exact ⟨_, hget⟩
      · exact ⟨_, hget⟩
    have hget : rbTreeGet fns t key = rbTreeGet fns' t key := by
      rw [rbTreeGet, rbTreeGet, getNode_agree ha hholds.rep hN (hcall key rfl)]
    simp only [rbTreeStep, hget, hv, Option.map_some]
    exact ⟨⟨rfl, T, hholds, hN⟩, rfl⟩
  | remove key =>
    obtain ⟨t₁, T₁, b, heq, h₁, ho⟩ := rbTreeRemove_spec law hholds key
    have hremove : rbTreeRemove fns t key = rbTreeRemove fns' t key := by
      rw [rbTreeRemove, rbTreeRemove]
      simp only [hholds.rep.nilBlack, Option.bind_eq_bind, Option.bind_some,
        getNode_agree ha hholds.rep hN (hcall key rfl)]
    simp only [rbTreeStep, hremove, heq, Option.map_some]
    exact ⟨⟨rfl, T₁, h₁, fun e he => hN e (ho.subset he)⟩, rfl⟩
  | clear => exact ⟨⟨rfl, .leaf, rbTreeClear_holds hholds.rep, by simp⟩, rfl⟩
  | size => exact ⟨⟨rfl, T, hholds, hN⟩, rfl⟩

end Agree

/-! ## Keys by identity -/

/-- On these keys `PointerCompare_` is a total order that returns 0 only for identical pointers. -/
structure OrdersByIdentity (S : Set (Option Pointer)) : Prop where
  swap : ∀ a ∈ S, ∀ b ∈ S, pointerCompare a b < 0 ↔ 0 < pointerCompare b a
  trans : ∀ a ∈ S, ∀ b ∈ S, ∀ c ∈ S, pointerCompare a b ≤ 0 → pointerCompare b c ≤ 0 → pointerCompare a c ≤ 0
  identical : ∀ a ∈ S, ∀ b ∈ S, pointerCompare a b = 0 → a = b

/-- The keys differ in their lower halves, which lie within half the circle, and copies keep them. -/
structure CloseKeys (keyCopy : Option Pointer → Option Pointer) (S : Set (Option Pointer)) : Prop where
  distinct : ∀ a ∈ S, ∀ b ∈ S, low a = low b → a = b
  half : ∃ base, ∀ a ∈ S, offset base a < 2 ^ 31
  copies : ∀ a ∈ S, low (keyCopy a) = low a

section Map
open Classical

/-- Every sequence of calls with such keys gets the replies of a map keyed by the keys themselves. -/
def KeyedByIdentity (fns : RBTreeFns Pointer V) (S : Set (Option Pointer)) : Prop :=
  ∀ calls : List (RBTreeCall Pointer V), (∀ call ∈ calls, call.Within S) →
    ∃ t m replies, run (rbTreeStep fns) rbTreeNew calls = some (t, replies) ∧
      run (treeMapStep ⊥ fns.valueCopy) ∅ calls = some (m, replies)

theorem treeMapStep_shares {s s' : Setoid (Option K)} {S : Set (Option K)} (hS : ∀ a ∈ S, ∀ b ∈ S, s.r a b ↔ s'.r a b)
    (valueCopy : Option V → Option V) {m : KeyMap s (Option V)} {m' : KeyMap s' (Option V)} (call : RBTreeCall K V)
    (hcall : call.Within S) (h : SharesEntries S m m') :
    Matches (SharesEntries S) (treeMapStep s valueCopy m call) (treeMapStep s' valueCopy m' call) := by
  cases call with
  | put key value =>
    have hkey : key ∈ S := hcall key rfl
    refine ⟨h.insert hS hkey _, ?_⟩
    rw [decide_eq_decide.mpr (h.mem_iff hS hkey)]
  | get key =>
    refine ⟨h, ?_⟩
    rw [h.lookup_eq hS (hcall key rfl)]
  | remove key =>
    have hkey : key ∈ S := hcall key rfl
    refine ⟨h.erase hS hkey, ?_⟩
    rw [decide_eq_decide.mpr (h.mem_iff hS hkey)]
  | clear => exact ⟨.empty, rfl⟩
  | size =>
    refine ⟨h, ?_⟩
    rw [h.card_eq]

/-- The functions with a comparator that orders all keys, by their offsets; the same ones on close keys. -/
noncomputable def offsetFns (base : BitVec 32) (S : Set (Option Pointer)) (keyCopy : Option Pointer → Option Pointer)
    (valueCopy : Option V → Option V) : RBTreeFns Pointer V where
  keyCopy k := if k ∈ S then keyCopy k else k
  keyCompare a b := (offset base a : ℤ) - offset base b
  valueCopy := valueCopy

variable {S : Set (Option Pointer)} {base : BitVec 32}

theorem offset_eq_iff : offset base a = offset base b ↔ low a = low b := by
  rw [offset, offset, BitVec.toNat_inj]
  constructor
  · intro h
    have hsum := congrArg (· + base) h
    rw [BitVec.sub_add_cancel, BitVec.sub_add_cancel] at hsum
    exact hsum
  · exact fun h => h ▸ rfl

theorem offsetFns_lawful (base : BitVec 32) {keyCopy : Option Pointer → Option Pointer}
    (hcopy : ∀ a ∈ S, low (keyCopy a) = low a) (valueCopy : Option V → Option V) :
    (offsetFns base S keyCopy valueCopy).Lawful where
  compare_swap a b := by
    dsimp only [offsetFns]
    omega
  compare_trans a b c h h' := by
    dsimp only [offsetFns] at h h' ⊢
    omega
  copy_equal k := by
    dsimp only [offsetFns]
    split
    next hk => rw [offset_eq_iff.mpr (hcopy k hk), sub_self]
    next => rw [sub_self]

variable {keyCopy : Option (Option Pointer → Option Pointer)}

theorem CloseKeys.agreeOn (h : CloseKeys (keyCopy.getD id) S) (valueCopy : Option (Option V → Option V))
    (hbase : ∀ a ∈ S, offset base a < 2 ^ 31) :
    AgreeOn (pointerTreeFns keyCopy valueCopy) (offsetFns base S (keyCopy.getD id) (valueCopy.getD id)) S
      {x | ∃ k ∈ S, low k = low x} where
  used k hk := ⟨k, hk, rfl⟩
  compare := by
    rintro a ⟨k, hk, ha⟩ b ⟨k', hk', hb⟩
    have hoffset : offset base a < 2 ^ 31 := offset_eq_iff.mpr ha ▸ hbase k hk
    have hoffset' : offset base b < 2 ^ 31 := offset_eq_iff.mpr hb ▸ hbase k' hk'
    exact pointerCompare_near hoffset hoffset'
  copy k hk := (if_pos hk).symm
  stored k hk := by
    have hcopy : (offsetFns base S (keyCopy.getD id) (valueCopy.getD id)).keyCopy k = keyCopy.getD id k := if_pos hk
    rw [hcopy]
    exact ⟨k, hk, (h.copies k hk).symm⟩
  value := rfl

theorem CloseKeys.keyed (h : CloseKeys (keyCopy.getD id) S) (valueCopy : Option (Option V → Option V)) :
    KeyedByIdentity (pointerTreeFns keyCopy valueCopy : RBTreeFns Pointer V) S := by
  intro calls hcalls
  obtain ⟨base, hbase⟩ := h.half
  have law := offsetFns_lawful base h.copies (valueCopy.getD id)
  obtain ⟨t, m', replies, hrun', hmap'⟩ := rbTree_refines_finite_map law calls
  -- the tree is the one of the offsets
  have hagree := h.agreeOn valueCopy hbase
  have hstep : ∀ (t t' : RBTree Pointer V) (call : RBTreeCall Pointer V), call.Within S →
      SameTree (offsetFns base S (keyCopy.getD id) (valueCopy.getD id)) {x | ∃ k ∈ S, low k = low x} t t' →
      Matches (SameTree (offsetFns base S (keyCopy.getD id) (valueCopy.getD id)) {x | ∃ k ∈ S, low k = low x})
        (rbTreeStep (pointerTreeFns keyCopy valueCopy) t call)
        (rbTreeStep (offsetFns base S (keyCopy.getD id) (valueCopy.getD id)) t' call) :=
    fun t t' call hcall hsame => rbTreeStep_agree hagree law call hcall hsame
  have htree := run_matches_on hstep calls rbTreeNew rbTreeNew hcalls ⟨rfl, .leaf, rbTreeNew_holds, by simp⟩
  -- and on these keys equal offsets are equal keys
  have hsame : ∀ a ∈ S, ∀ b ∈ S, law.setoid.r a b ↔ (⊥ : Setoid (Option Pointer)).r a b := by
    intro a ha b hb
    change (offset base a : ℤ) - offset base b = 0 ↔ a = b
    rw [sub_eq_zero, Int.natCast_inj, offset_eq_iff]
    exact ⟨h.distinct a ha b hb, fun heq => heq ▸ rfl⟩
  have hmap := run_matches_on (fun m m' call hcall (hm : SharesEntries S m m') =>
    treeMapStep_shares hsame (valueCopy.getD id) call hcall hm) calls ∅ ∅ hcalls .empty
  rw [hrun'] at htree
  rw [show (offsetFns base S (keyCopy.getD id) (valueCopy.getD id)).valueCopy = valueCopy.getD id from rfl] at hmap'
  rw [hmap'] at hmap
  obtain ⟨m, hm, _⟩ := hmap.some_left
  cases hrun : run (rbTreeStep (pointerTreeFns keyCopy valueCopy)) rbTreeNew calls with
  | none =>
    rw [hrun] at htree
    exact htree.elim
  | some r =>
    rw [hrun] at htree
    obtain ⟨_, hreplies⟩ := htree
    exact ⟨r.1, m, replies, by rw [← hreplies], hm⟩

theorem CloseKeys.ordered {keyCopy : Option Pointer → Option Pointer} (h : CloseKeys keyCopy S) :
    OrdersByIdentity S := by
  obtain ⟨base, hbase⟩ := h.half
  have hnear : ∀ a ∈ S, ∀ b ∈ S, pointerCompare a b = offset base a - offset base b := fun a ha b hb =>
    pointerCompare_near (hbase a ha) (hbase b hb)
  refine ⟨fun a ha b hb => ?_, fun a ha b hb c hc hab hbc => ?_, fun a ha b hb hab => ?_⟩
  · rw [hnear a ha b hb, hnear b hb a ha]
    omega
  · rw [hnear a ha b hb] at hab
    rw [hnear b hb c hc] at hbc
    rw [hnear a ha c hc]
    omega
  · exact h.distinct a ha b hb (pointerCompare_eq_zero.mp hab)

def Precedes (S : Set (Option Pointer)) (a b : S) : Prop := pointerCompare a.1 b.1 < 0

theorem OrdersByIdentity.irrefl (h : OrdersByIdentity S) (a : S) : ¬ Precedes S a a := by
  intro haa
  have hswap := (h.swap a.1 a.2 a.1 a.2).mp haa
  exact hswap.not_gt haa

theorem OrdersByIdentity.precedes_trans (h : OrdersByIdentity S) {a b c : S} (hab : Precedes S a b)
    (hbc : Precedes S b c) : Precedes S a c := by
  have hac := h.trans a.1 a.2 b.1 b.2 c.1 c.2 (le_of_lt hab) (le_of_lt hbc)
  rcases hac.lt_or_eq with hlt | heq
  · exact hlt
  · have hca : a = c := Subtype.ext (h.identical a.1 a.2 c.1 c.2 heq)
    have hba := (h.swap a.1 a.2 b.1 b.2).mp hab
    subst hca
    exact absurd hbc hba.not_gt

theorem OrdersByIdentity.half (h : OrdersByIdentity S) : ∃ base, ∀ a ∈ S, offset base a < 2 ^ 31 := by
  rcases S.eq_empty_or_nonempty with rfl | ⟨a₀, ha₀⟩
  · exact ⟨0, fun a ha => ha.elim⟩
  have hfinite : Finite S := by
    refine Finite.of_injective (β := Fin (2 ^ 64)) (fun a : S => (address a.1).toFin) fun a b hab => ?_
    exact Subtype.ext (address_injective (BitVec.toFin_inj.mp hab))
  have htrans : IsTrans S (Precedes S) := ⟨fun _ _ _ => h.precedes_trans⟩
  have hirrefl : Std.Irrefl (Precedes S) := ⟨h.irrefl⟩
  have hwf := Finite.wellFounded_of_trans_of_irrefl (Precedes S)
  obtain ⟨m, _, hmin⟩ := hwf.has_min Set.univ ⟨⟨a₀, ha₀⟩, trivial⟩
  refine ⟨low m.1, fun a ha => (offset_lt_iff a m.1).mpr ?_⟩
  exact not_lt.mp (hmin ⟨a, ha⟩ trivial)

theorem put_new (fns : RBTreeFns K V) (key : Option K) (value : Option V) :
    ∃ t : RBTree K V, rbTreePut fns rbTreeNew key value = some (t, false) ∧ t.fresh = 3 ∧ t.nil = 0 ∧ t.left t.root = 2 ∧
      t.left 2 = 0 ∧ t.right 2 = 0 ∧ (t.heap 2).key = fns.keyCopy key :=
  ⟨_, rfl, rfl, rfl, rfl, rfl, rfl, rfl⟩

/-- The second put of a key finds its copy only if the comparator does. -/
theorem put_twice (fns : RBTreeFns K V) (key : Option K) (value : Option V)
    (hne : fns.keyCompare key (fns.keyCopy key) ≠ 0) {t : RBTree K V} {replies : List (RBTreeReply V)}
    (hrun : run (rbTreeStep fns) rbTreeNew [.put key value, .put key value] = some (t, replies)) :
    replies = [.flag false, .flag false] := by
  obtain ⟨t₁, r₁, rs₁, h₁, hrest, rfl⟩ := run_cons_some hrun
  obtain ⟨t₂, r₂, rs₂, h₂, hnil, rfl⟩ := run_cons_some hrest
  cases hnil
  obtain ⟨t', hput, hfresh, hzero, htop, hleft, hright, hkey⟩ := put_new fns key value
  rw [rbTreeStep, hput] at h₁
  cases h₁
  have hsearch : putSearch fns t' key t'.fresh t'.root (t'.left t'.root) = some (2, t'.nil) := by
    rw [hfresh, htop, putSearch, hzero, if_neg (by decide), hkey, if_neg hne, hleft, hright, ite_self, putSearch, hzero,
      if_pos rfl]
  have hreply : ∀ r, rbTreePut fns t' key value = some r → r.2 = false := by
    intro r hr
    simp only [rbTreePut, hsearch, Option.bind_eq_bind, Option.bind_some, ne_eq, not_true_eq_false, if_false,
      Option.bind_eq_some_iff] at hr
    obtain ⟨_, _, hr⟩ := hr
    cases hr
    rfl
  obtain ⟨r, hr, hpair⟩ := Option.map_eq_some_iff.mp h₂
  cases hpair
  rw [hreply r hr]

theorem KeyedByIdentity.copies {valueCopy : Option (Option V → Option V)} (ha : a ∈ S)
    (h : KeyedByIdentity (pointerTreeFns keyCopy valueCopy : RBTreeFns Pointer V) S) : low (keyCopy.getD id a) = low a := by
  by_contra hne
  have hwithin : ∀ call ∈ [RBTreeCall.put a (none : Option V), .put a none], call.Within S := by
    intro call hcall k hk
    obtain rfl : call = .put a none := by simpa using hcall
    obtain rfl : a = k := Option.some.inj hk
    exact ha
  obtain ⟨t, m, replies, hrun, hmap⟩ := h [.put a none, .put a none] hwithin
  have hreplies := put_twice (pointerTreeFns keyCopy valueCopy : RBTreeFns Pointer V) a none
    (fun hzero => hne (pointerCompare_eq_zero.mp hzero).symm) hrun
  -- but the map has the key by then
  obtain ⟨m₁, r₁, rs₁, h₁, hrest, rfl⟩ := run_cons_some hmap
  obtain ⟨m₂, r₂, rs₂, h₂, hnil, rfl⟩ := run_cons_some hrest
  cases hnil
  cases h₁
  cases h₂
  have hmem : Quotient.mk (⊥ : Setoid (Option Pointer)) a ∈
      (∅ : KeyMap ⊥ (Option V)).insert (Quotient.mk _ a) (valueCopy.getD id none) :=
    Finmap.mem_insert.mpr (.inl rfl)
  obtain ⟨_, htail⟩ := List.cons.inj hreplies
  obtain ⟨hflag, _⟩ := List.cons.inj htail
  exact of_decide_eq_false (RBTreeReply.flag.inj hflag) hmem

/-- With the default comparator a tree is a map keyed by the identity of pointers just on close keys. -/
theorem pointerTree_iff (keyCopy : Option (Option Pointer → Option Pointer)) (valueCopy : Option (Option V → Option V))
    (S : Set (Option Pointer)) : OrdersByIdentity S ∧
      KeyedByIdentity (pointerTreeFns keyCopy valueCopy : RBTreeFns Pointer V) S ↔ CloseKeys (keyCopy.getD id) S := by
  constructor
  · rintro ⟨hordered, hkeyed⟩
    refine ⟨fun a ha b hb hlow => ?_, hordered.half, fun a ha => hkeyed.copies ha⟩
    exact hordered.identical a ha b hb (pointerCompare_eq_zero.mpr hlow)
  · exact fun h => ⟨h.ordered, h.keyed valueCopy⟩

/-- Two addresses with the same lower half. -/
def here : Option Pointer := some ⟨0x10000, by decide⟩
def there : Option Pointer := some ⟨0x100010000, by decide⟩

/-- What was put under one pointer is found under the other. -/
theorem far_pointers_confused : here ≠ there ∧ pointerCompare here there = 0 ∧
    ¬ ∃ t m replies, run (rbTreeStep (pointerTreeFns none none : RBTreeFns Pointer ℕ)) rbTreeNew
        [.put here (some 1), .get there] = some (t, replies) ∧
      run (treeMapStep ⊥ (pointerTreeFns none none : RBTreeFns Pointer ℕ).valueCopy) ∅
        [.put here (some 1), .get there] = some (m, replies) := by
  refine ⟨by decide, by decide, ?_⟩
  rintro ⟨t, m, replies, hrun, hmap⟩
  have hreplies : (run (rbTreeStep (pointerTreeFns none none : RBTreeFns Pointer ℕ)) rbTreeNew
      [.put here (some 1), .get there]).map Prod.snd = some [.flag false, .value (some 1)] := by rfl
  rw [hrun, Option.map_some, Option.some.injEq] at hreplies
  obtain ⟨m₁, r₁, rs₁, h₁, hrest, heq⟩ := run_cons_some hmap
  obtain ⟨m₂, r₂, rs₂, h₂, hnil, rfl⟩ := run_cons_some hrest
  cases hnil
  cases h₁
  cases h₂
  obtain ⟨_, htail⟩ := List.cons.inj (hreplies.symm.trans heq)
  obtain ⟨hvalue, _⟩ := List.cons.inj htail
  have hne : Quotient.mk (⊥ : Setoid (Option Pointer)) there ≠ Quotient.mk (⊥ : Setoid (Option Pointer)) here := by
    intro hclass
    have hequal : there = here := Quotient.exact hclass
    exact absurd hequal (by decide)
  have hfound := RBTreeReply.value.inj hvalue
  rw [Finmap.lookup_insert_of_ne _ hne, Finmap.lookup_empty] at hfound
  cases hfound

end Map

end Libntech.Containers
