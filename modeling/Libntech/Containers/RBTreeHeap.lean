import Libntech.Containers.RBTree
import Mathlib.Data.List.Nodup
import Mathlib.Data.List.Perm.Basic

/-! # The tree held by a heap of nodes

`Rep t T`: below the root sentinel of `t` hangs the tree `T`, every node with its address, key, value,
colour, children and parent pointer, all addresses different. The nil sentinel's parent pointer is the
only link left free.

Everything the source does to the tree is local to a place `plug c s`: it rewrites nodes of `s` and one
child pointer above them. `Rep.replace` says what such a write must satisfy, and the rest of the module
is what the single operations do there: reading, recolouring, rotating, unlinking.
-/
namespace Libntech.Containers
open Lib.RedBlack
set_option autoImplicit false

variable {K V : Type}

/-! ## Fields after writes -/

variable {i : ℕ} {t' : RBTree K V} {red : Bool}

namespace RBNode

variable (d : Dir) (c p : ℕ) (b : Bool) (n : RBNode K V)

@[simp] theorem child_setChild : (n.setChild d c).child d = c := by cases d <;> rfl
@[simp] theorem child_opp_setChild : (n.setChild d c).child d.opp = n.child d.opp := by cases d <;> rfl
@[simp] theorem child_setChild_opp : (n.setChild d.opp c).child d = n.child d := by cases d <;> rfl
@[simp] theorem parent_setChild : (n.setChild d c).parent = n.parent := by cases d <;> rfl
@[simp] theorem red_setChild : (n.setChild d c).red = n.red := by cases d <;> rfl
@[simp] theorem key_setChild : (n.setChild d c).key = n.key := by cases d <;> rfl
@[simp] theorem value_setChild : (n.setChild d c).value = n.value := by cases d <;> rfl

@[simp] theorem child_setParent : (n.setParent p).child d = n.child d := by cases d <;> rfl
@[simp] theorem left_setParent : (n.setParent p).left = n.left := rfl
@[simp] theorem right_setParent : (n.setParent p).right = n.right := rfl
@[simp] theorem parent_setParent : (n.setParent p).parent = p := rfl
@[simp] theorem red_setParent : (n.setParent p).red = n.red := rfl
@[simp] theorem key_setParent : (n.setParent p).key = n.key := rfl
@[simp] theorem value_setParent : (n.setParent p).value = n.value := rfl

@[simp] theorem child_setRed : (n.setRed b).child d = n.child d := by cases d <;> rfl
@[simp] theorem left_setRed : (n.setRed b).left = n.left := rfl
@[simp] theorem right_setRed : (n.setRed b).right = n.right := rfl
@[simp] theorem parent_setRed : (n.setRed b).parent = n.parent := rfl
@[simp] theorem red_setRed : (n.setRed b).red = b := rfl
@[simp] theorem key_setRed : (n.setRed b).key = n.key := rfl
@[simp] theorem value_setRed : (n.setRed b).value = n.value := rfl

@[simp] theorem left_setChild_left : (n.setChild .left c).left = c := rfl
@[simp] theorem right_setChild_left : (n.setChild .left c).right = n.right := rfl
@[simp] theorem left_setChild_right : (n.setChild .right c).left = n.left := rfl
@[simp] theorem right_setChild_right : (n.setChild .right c).right = c := rfl

theorem setChild_setParent : (n.setParent p).setChild d c = (n.setChild d c).setParent p := by
  cases d <;> rfl

theorem setChild_eq_self (h : n.child d = c) : n.setChild d c = n := by
  subst h
  cases d <;> rfl

end RBNode

namespace RBTree

variable (t : RBTree K V) (i j : ℕ) (f : RBNode K V → RBNode K V)

@[simp] theorem heap_modify : (t.modify i f).heap j = if j = i then f (t.heap i) else t.heap j := by
  simp only [RBTree.modify, Function.update_apply]

@[simp] theorem nil_modify : (t.modify i f).nil = t.nil := rfl
@[simp] theorem root_modify : (t.modify i f).root = t.root := rfl
@[simp] theorem fresh_modify : (t.modify i f).fresh = t.fresh := rfl
@[simp] theorem size_modify : (t.modify i f).size = t.size := rfl

@[simp] theorem parent_setRed (b : Bool) : (t.setRed i b).parent j = t.parent j := by
  rw [RBTree.parent, RBTree.setRed, heap_modify]
  split
  · next h => rw [h]; rfl
  · rfl

@[simp] theorem child_setRed (b : Bool) (d : Dir) : (t.setRed i b).child d j = t.child d j := by
  rw [RBTree.child, RBTree.setRed, heap_modify]
  split
  · next h => rw [h, RBNode.child_setRed]; rfl
  · rfl

theorem setRed_self {b : Bool} (h : t.red i = b) : t.setRed i b = t := by
  subst h
  have hheap : (t.setRed i (t.red i)).heap = t.heap := by
    funext j
    rw [RBTree.setRed, heap_modify]
    split
    · next hj => rw [hj]; rfl
    · rfl
  rw [RBTree.setRed, RBTree.modify] at hheap ⊢
  dsimp only at hheap
  rw [hheap]

/-- Same sentinels, same allocations: what every write keeps. -/
structure SameFrame (t t' : RBTree K V) : Prop where
  root : t'.root = t.root
  nil : t'.nil = t.nil
  fresh : t'.fresh = t.fresh
  size : t'.size = t.size

theorem SameFrame.refl (t : RBTree K V) : SameFrame t t := ⟨rfl, rfl, rfl, rfl⟩

theorem SameFrame.trans {t t'' : RBTree K V} (h : SameFrame t t') (h' : SameFrame t' t'') : SameFrame t t'' :=
  ⟨h'.root.trans h.root, h'.nil.trans h.nil, h'.fresh.trans h.fresh, h'.size.trans h.size⟩

theorem sameFrame_modify : SameFrame t (t.modify i f) := ⟨rfl, rfl, rfl, rfl⟩

end RBTree
open Containers.RBTree

/-! ## Trees in a heap -/

structure Entry (K V : Type) where
  id : ℕ
  key : Option K
  value : Option V

abbrev Shape (K V : Type) := Lib.RedBlack.Tree (Entry K V)

/-- The record of the node with entry `e`, the child on side `d` first. -/
def Entry.node (e : Entry K V) (d : Dir) (red : Bool) (parent a b : ℕ) : RBNode K V :=
  match d with
  | .left => ⟨e.key, e.value, red, parent, a, b⟩
  | .right => ⟨e.key, e.value, red, parent, b, a⟩

namespace Entry

variable (e : Entry K V) (d : Dir) (red red' : Bool) (p p' a b c : ℕ)

@[simp] theorem child_node : (e.node d red p a b).child d = a := by cases d <;> rfl
@[simp] theorem child_opp_node : (e.node d red p a b).child d.opp = b := by cases d <;> rfl
@[simp] theorem parent_node : (e.node d red p a b).parent = p := by cases d <;> rfl
@[simp] theorem red_node : (e.node d red p a b).red = red := by cases d <;> rfl
@[simp] theorem key_node : (e.node d red p a b).key = e.key := by cases d <;> rfl
@[simp] theorem value_node : (e.node d red p a b).value = e.value := by cases d <;> rfl

@[simp] theorem setChild_node : (e.node d red p a b).setChild d c = e.node d red p c b := by
  cases d <;> rfl

@[simp] theorem setChild_opp_node : (e.node d red p a b).setChild d.opp c = e.node d red p a c := by
  cases d <;> rfl

@[simp] theorem setParent_node : (e.node d red p a b).setParent p' = e.node d red p' a b := by
  cases d <;> rfl

@[simp] theorem setRed_node : (e.node d red p a b).setRed red' = e.node d red' p a b := by
  cases d <;> rfl

end Entry

def ptr (nil : ℕ) : Shape K V → ℕ
  | .leaf => nil
  | .node _ _ e _ => e.id

@[simp] theorem ptr_leaf (nil : ℕ) : ptr nil (.leaf : Shape K V) = nil := rfl

@[simp] theorem ptr_mk (nil : ℕ) (d : Dir) (red : Bool) (s : Shape K V) (e : Entry K V) (u : Shape K V) :
    ptr nil (.mk d red s e u) = e.id := by
  cases d <;> rfl

@[simp] theorem ptr_fill (nil : ℕ) (f : Frame (Entry K V)) (s : Shape K V) : ptr nil (f.fill s) = f.a.id :=
  ptr_mk nil f.dir f.red s f.a f.sib

/-- The nodes of `s` are in the heap, its top one below `par`. -/
def Sub (h : ℕ → RBNode K V) (nil : ℕ) : ℕ → Shape K V → Prop
  | _, .leaf => True
  | par, .node red l e r =>
    h e.id = ⟨e.key, e.value, red, par, ptr nil l, ptr nil r⟩ ∧ Sub h nil e.id l ∧ Sub h nil e.id r

def ids (s : Shape K V) : List ℕ := s.inorder.map Entry.id

variable {c : Ctx (Entry K V)} {f : Frame (Entry K V)} {s : Shape K V} {e : Entry K V}

section Sub

variable {h h' : ℕ → RBNode K V} {nil par : ℕ} {s s' : Shape K V}

theorem sub_mk (d : Dir) {u : Shape K V} :
    Sub h nil par (.mk d red s e u) ↔
      h e.id = e.node d red par (ptr nil s) (ptr nil u) ∧ Sub h nil e.id s ∧ Sub h nil e.id u := by
  cases d
  · exact Iff.rfl
  · simp only [Tree.mk, Sub, Entry.node]
    rw [and_comm (a := Sub h nil e.id u)]

theorem mem_ids_mk (d : Dir) {u : Shape K V} :
    i ∈ ids (.mk d red s e u) ↔ i = e.id ∨ i ∈ ids s ∨ i ∈ ids u := by
  cases d
  · simp only [ids, Tree.mk, Tree.inorder_node, List.map_append, List.map_cons, List.mem_append,
      List.mem_cons]
    tauto
  · simp only [ids, Tree.mk, Tree.inorder_node, List.map_append, List.map_cons, List.mem_append,
      List.mem_cons]
    tauto

@[simp] theorem ids_leaf : ids (.leaf : Shape K V) = [] := rfl

theorem ids_mk_perm (d : Dir) (red : Bool) (s : Shape K V) (e : Entry K V) (u : Shape K V) :
    (ids (.mk d red s e u)).Perm (e.id :: (ids s ++ ids u)) := by
  cases d
  · simp only [ids, Tree.mk, Tree.inorder_node, List.map_append, List.map_cons]
    exact List.perm_middle
  · simp only [ids, Tree.mk, Tree.inorder_node, List.map_append, List.map_cons]
    exact List.perm_middle.trans (List.Perm.cons _ List.perm_append_comm)

theorem Sub.congr (hs : Sub h nil par s) (hoff : ∀ i ∈ ids s, h' i = h i) : Sub h' nil par s := by
  induction s generalizing par with
  | leaf => trivial
  | node red l e r ihl ihr =>
    obtain ⟨hn, hl, hr⟩ := hs
    refine ⟨?_, ihl hl fun i hi => hoff i ?_, ihr hr fun i hi => hoff i ?_⟩
    · rw [hoff e.id ((mem_ids_mk .left).mpr (.inl rfl)), hn]
    · exact (mem_ids_mk .left).mpr (.inr (.inl hi))
    · exact (mem_ids_mk .left).mpr (.inr (.inr hi))

theorem Sub.reparent {par' : ℕ} (hs : Sub h nil par s) (hnd : (ids s).Nodup)
    (hoff : ∀ i ∈ ids s, i ≠ ptr nil s → h' i = h i)
    (htop : s ≠ .leaf → h' (ptr nil s) = (h (ptr nil s)).setParent par') : Sub h' nil par' s := by
  cases s with
  | leaf => trivial
  | node red l e r =>
    obtain ⟨hfresh, _⟩ := List.nodup_cons.mp ((ids_mk_perm .left red l e r).nodup_iff.mp hnd)
    obtain ⟨hn, hl, hr⟩ := hs
    have hoff' : ∀ i, i ∈ ids l ∨ i ∈ ids r → h' i = h i := by
      intro i hi
      refine hoff i ((mem_ids_mk .left).mpr (.inr hi)) ?_
      rintro rfl
      exact hfresh (List.mem_append.mpr hi)
    refine ⟨?_, hl.congr fun i hi => hoff' i (.inl hi), hr.congr fun i hi => hoff' i (.inr hi)⟩
    have h' := htop (by simp)
    rw [ptr, hn] at h'
    exact h'

theorem mem_ptr_of_ne_leaf (hs : s ≠ .leaf) : ptr nil s ∈ ids s := by
  obtain ⟨red, l, e, r, rfl⟩ := Tree.exists_mk .left hs
  rw [ptr_mk]
  exact (mem_ids_mk .left).mpr (.inl rfl)

theorem ptr_eq_nil_iff (hn : nil ∉ ids s) : ptr nil s = nil ↔ s = .leaf := by
  constructor
  · intro hp
    by_contra hs
    exact hn (hp ▸ mem_ptr_of_ne_leaf hs)
  · rintro rfl
    rfl

end Sub

/-! ## The place of a subtree -/

section Place

variable {h h' : ℕ → RBNode K V} {nil root : ℕ} {s s' : Shape K V} {c : Ctx (Entry K V)}

def parentId (root : ℕ) : Ctx (Entry K V) → ℕ
  | [] => root
  | f :: _ => f.a.id

/-- The side on which the parent holds the place; the top node is the root's left child. -/
def side : Ctx (Entry K V) → Dir
  | [] => .left
  | f :: _ => f.dir

def ctxIds (c : Ctx (Entry K V)) : List ℕ := (before c ++ after c).map Entry.id

theorem ids_plug_perm (c : Ctx (Entry K V)) (s : Shape K V) : (ids (plug c s)).Perm (ids s ++ ctxIds c) := by
  have hp : (before c ++ s.inorder ++ after c).Perm (s.inorder ++ (before c ++ after c)) := by
    rw [← List.append_assoc]
    exact List.Perm.append_right _ List.perm_append_comm
  rw [ids, inorder_plug, entries, ids, ctxIds, ← List.map_append]
  exact hp.map _

theorem mem_ctxIds_cons : i ∈ ctxIds (f :: c) ↔ i = f.a.id ∨ i ∈ ids f.sib ∨ i ∈ ctxIds c := by
  obtain ⟨dir, red, a, sib⟩ := f
  cases dir
  · simp only [ctxIds, ids, before, after, List.map_append, List.map_cons, List.mem_append, List.mem_cons]
    tauto
  · simp only [ctxIds, ids, before, after, List.map_append, List.map_cons, List.mem_append,
      List.mem_cons, List.map_nil, List.not_mem_nil]
    tauto

theorem parentId_mem {r : ℕ} (f : Frame (Entry K V)) (c : Ctx (Entry K V)) : parentId r (f :: c) ∈ ctxIds (f :: c) :=
  mem_ctxIds_cons.mpr (.inl rfl)

theorem ptr_plug_cons (f : Frame (Entry K V)) (c : Ctx (Entry K V)) (s s' : Shape K V) :
    ptr nil (plug (f :: c) s) = ptr nil (plug (f :: c) s') := by
  induction c generalizing f s s' with
  | nil => simp
  | cons g c ih => exact ih g (f.fill s) (f.fill s')

theorem Sub.focus (hs : Sub h nil root (plug c s)) : Sub h nil (parentId root c) s := by
  induction c generalizing s with
  | nil => exact hs
  | cons f c ih => exact ((sub_mk f.dir).mp (ih hs)).2.1

theorem Sub.frame (hs : Sub h nil root (plug (f :: c) s)) :
    h f.a.id = f.a.node f.dir f.red (parentId root c) (ptr nil s) (ptr nil f.sib) ∧
      Sub h nil f.a.id f.sib := by
  obtain ⟨hn, _, hsib⟩ := (sub_mk f.dir).mp (Sub.focus (c := c) hs)
  exact ⟨hn, hsib⟩

theorem ctxIds_cons_perm (f : Frame (Entry K V)) (c : Ctx (Entry K V)) :
    (ctxIds (f :: c)).Perm (f.a.id :: (ids f.sib ++ ctxIds c)) := by
  have h₁ := ids_plug_perm (f :: c) (.leaf : Shape K V)
  have h₂ := (ids_plug_perm c (f.fill .leaf)).trans ((ids_mk_perm f.dir f.red .leaf f.a f.sib).append_right _)
  rw [ids_leaf, List.nil_append] at h₁
  exact h₁.symm.trans h₂

theorem Sub.replace (hs : Sub h nil root (plug c s)) (hnd : (ctxIds c).Nodup)
    (hoff : ∀ i ∈ ctxIds c, i ≠ parentId root c → h' i = h i)
    (hpar : c ≠ [] → h' (parentId root c) = (h (parentId root c)).setChild (side c) (ptr nil s'))
    (hs' : Sub h' nil (parentId root c) s') : Sub h' nil root (plug c s') := by
  induction c generalizing s s' with
  | nil => exact hs'
  | cons f c ih =>
    obtain ⟨hf, hsib⟩ := hs.frame
    obtain ⟨hfresh, hnd'⟩ := List.nodup_cons.mp ((ctxIds_cons_perm f c).nodup_iff.mp hnd)
    have hoff' : ∀ i, i ∈ ids f.sib ∨ i ∈ ctxIds c → h' i = h i := by
      intro i hi
      refine hoff i (mem_ctxIds_cons.mpr (.inr hi)) ?_
      rintro rfl
      exact hfresh (List.mem_append.mpr hi)
    refine ih (s := f.fill s) hs (List.nodup_append.mp hnd').2.1 (fun i hi _ => hoff' i (.inr hi)) ?_ ?_
    · -- the frame above already points at `f`
      intro hc
      obtain ⟨g, c, rfl⟩ := List.exists_cons_of_ne_nil hc
      obtain ⟨hg, _⟩ := Sub.frame (c := c) (f := g) (s := f.fill s) hs
      rw [hoff' _ (.inr (parentId_mem g c)), RBNode.setChild_eq_self]
      rw [parentId, hg, ptr_fill, side, Entry.child_node, ptr_fill]
    · refine (sub_mk f.dir).mpr ⟨?_, hs', hsib.congr fun i hi => hoff' i (.inl hi)⟩
      have hpf := hpar (by simp)
      rw [parentId, hf, side, Entry.setChild_node] at hpf
      exact hpf

end Place

/-! ## Representation -/

/-- The tree `T` hangs below the root sentinel of `t`. -/
structure Rep (t : RBTree K V) (T : Shape K V) : Prop where
  sub : Sub t.heap t.nil t.root T
  top : t.left t.root = ptr t.nil T
  root_right : t.right t.root = t.nil
  root_black : t.red t.root = false
  root_key : (t.heap t.root).key = none
  root_value : (t.heap t.root).value = none
  nil_black : t.red t.nil = false
  nil_key : (t.heap t.nil).key = none
  nil_value : (t.heap t.nil).value = none
  nodup : (t.root :: t.nil :: ids T).Nodup
  fresh : ∀ i ∈ t.root :: t.nil :: ids T, i < t.fresh

/-- A write at the place `c`: the nodes there become `s'`, the parent's link follows, nothing else of the
tree moves and the nil sentinel keeps all but its parent pointer. -/
structure WritesAt (t t' : RBTree K V) (c : Ctx (Entry K V)) (s' : Shape K V) : Prop where
  root : t'.root = t.root
  nil : t'.nil = t.nil
  off : ∀ i ∈ t.root :: ctxIds c, i ≠ parentId t.root c → t'.heap i = t.heap i
  link : t'.heap (parentId t.root c) = (t.heap (parentId t.root c)).setChild (side c) (ptr t.nil s')
  sub : Sub t'.heap t.nil (parentId t.root c) s'
  nil_keep : ∃ p, t'.heap t.nil = (t.heap t.nil).setParent p

theorem Rep.nodup_place {t : RBTree K V} (hr : Rep t (plug c s)) :
    (t.root :: t.nil :: (ids s ++ ctxIds c)).Nodup :=
  (((ids_plug_perm c s).cons _).cons _).nodup_iff.mp hr.nodup

theorem Rep.replace {t : RBTree K V} {s' : Shape K V} (hr : Rep t (plug c s)) (hw : WritesAt t t' c s')
    (hnd : (t.root :: t.nil :: (ids s' ++ ctxIds c)).Nodup)
    (hfresh : ∀ i ∈ t.root :: t.nil :: (ids s' ++ ctxIds c), i < t'.fresh) : Rep t' (plug c s') := by
  have hperm : (t'.root :: t'.nil :: ids (plug c s')).Perm (t.root :: t.nil :: (ids s' ++ ctxIds c)) := by
    rw [hw.root, hw.nil]
    exact ((ids_plug_perm c s').cons _).cons _
  have hsub : Sub t'.heap t.nil t.root (plug c s') := by
    refine hr.sub.replace ?_ (fun i hi => hw.off i (List.mem_cons_of_mem _ hi)) (fun _ => hw.link) hw.sub
    have hplace := hr.nodup_place
    rw [List.nodup_cons, List.nodup_cons, List.nodup_append] at hplace
    exact hplace.2.2.2.1
  -- the root sentinel's record changes only when the place is the top
  have hroot : t'.heap t.root = (t.heap t.root).setChild .left (ptr t.nil (plug c s')) := by
    cases c with
    | nil => exact hw.link
    | cons f c =>
      have hne : t.root ≠ parentId t.root (f :: c) := by
        intro heq
        have hplace := (List.nodup_cons.mp hr.nodup_place).1
        rw [heq] at hplace
        exact hplace (List.mem_cons_of_mem _ (List.mem_append_right _ (parentId_mem f c)))
      rw [hw.off _ List.mem_cons_self hne, RBNode.setChild_eq_self]
      rw [ptr_plug_cons f c s' s]
      exact hr.top
  obtain ⟨q, hnil⟩ := hw.nil_keep
  refine
    { sub := by rw [hw.root, hw.nil]; exact hsub
      top := ?_, root_right := ?_, root_black := ?_, root_key := ?_, root_value := ?_
      nil_black := by rw [RBTree.red, hw.nil, hnil]; exact hr.nil_black
      nil_key := by rw [hw.nil, hnil]; exact hr.nil_key
      nil_value := by rw [hw.nil, hnil]; exact hr.nil_value
      nodup := hperm.nodup_iff.mpr hnd
      fresh := fun i hi => hfresh i (hperm.mem_iff.mp hi) }
  · rw [RBTree.left, hw.root, hroot, hw.nil]
    rfl
  · rw [RBTree.right, hw.root, hroot, hw.nil]
    exact hr.root_right
  · rw [RBTree.red, hw.root, hroot, RBNode.red_setChild]
    exact hr.root_black
  · rw [hw.root, hroot, RBNode.key_setChild]
    exact hr.root_key
  · rw [hw.root, hroot, RBNode.value_setChild]
    exact hr.root_value

/-! ## Reading at a place -/

namespace Rep

variable {t : RBTree K V} {c : Ctx (Entry K V)} {s : Shape K V}

theorem ne_nil (hr : Rep t (plug c s)) (hi : i ∈ ids s ∨ i ∈ ctxIds c) : i ≠ t.nil := by
  rintro rfl
  have hplace := hr.nodup_place
  rw [List.nodup_cons, List.nodup_cons] at hplace
  exact hplace.2.1 (List.mem_append.mpr hi)

theorem ne_root (hr : Rep t (plug c s)) (hi : i ∈ ids s ∨ i ∈ ctxIds c) : i ≠ t.root := by
  rintro rfl
  have hplace := hr.nodup_place
  rw [List.nodup_cons] at hplace
  exact hplace.1 (List.mem_cons_of_mem _ (List.mem_append.mpr hi))

theorem root_ne_nil {T : Shape K V} (hr : Rep t T) : t.root ≠ t.nil := by
  intro heq
  have hnd := hr.nodup
  rw [heq] at hnd
  exact (List.nodup_cons.mp hnd).1 List.mem_cons_self

theorem disjoint (hr : Rep t (plug c s)) (hi : i ∈ ids s) : i ∉ ctxIds c := by
  have hplace := hr.nodup_place
  rw [List.nodup_cons, List.nodup_cons] at hplace
  intro hi'
  exact (List.nodup_append.mp hplace.2.2).2.2 i hi i hi' rfl

theorem ids_nodup (hr : Rep t (plug c s)) : (ids s).Nodup := by
  have hplace := hr.nodup_place
  rw [List.nodup_cons, List.nodup_cons] at hplace
  exact (List.nodup_append.mp hplace.2.2).1

theorem ne_parent (hr : Rep t (plug c s)) (hi : i ∈ ids s) : i ≠ parentId t.root c := by
  cases c with
  | nil => exact hr.ne_root (.inl hi)
  | cons f c =>
    intro heq
    rw [heq] at hi
    exact hr.disjoint hi (parentId_mem f c)

theorem parent_ne_nil (hr : Rep t (plug c s)) : parentId t.root c ≠ t.nil := by
  cases c with
  | nil => exact hr.root_ne_nil
  | cons f c => exact hr.ne_nil (.inr (parentId_mem f c))

theorem ptr_nil_iff (hr : Rep t (plug c s)) : ptr t.nil s = t.nil ↔ s = .leaf :=
  ptr_eq_nil_iff fun hi => hr.ne_nil (.inl hi) rfl

theorem focus (hr : Rep t (plug c s)) : Sub t.heap t.nil (parentId t.root c) s := hr.sub.focus

theorem node (d : Dir) {a b : Shape K V} (hr : Rep t (plug c (.mk d red a e b))) :
    t.heap e.id = e.node d red (parentId t.root c) (ptr t.nil a) (ptr t.nil b) :=
  ((sub_mk d).mp hr.focus).1

section Place

variable {red : Bool} {l r : Shape K V} {e : Entry K V}

theorem left_node (hr : Rep t (plug c (.node red l e r))) : t.left e.id = ptr t.nil l := by
  rw [RBTree.left, node .left (a := l) (b := r) (e := e) hr]
  rfl

theorem right_node (hr : Rep t (plug c (.node red l e r))) : t.right e.id = ptr t.nil r := by
  rw [RBTree.right, node .left (a := l) (b := r) (e := e) hr]
  rfl

theorem key_node (hr : Rep t (plug c (.node red l e r))) : (t.heap e.id).key = e.key := by
  rw [node .left (a := l) (b := r) (e := e) hr, Entry.key_node]

theorem node_ne_nil (hr : Rep t (plug c (.node red l e r))) : e.id ≠ t.nil :=
  hr.ne_nil (.inl ((mem_ids_mk .left (s := l)).mpr (.inl rfl)))

end Place

theorem frame (hr : Rep t (plug (f :: c) s)) :
    t.heap f.a.id = f.a.node f.dir f.red (parentId t.root c) (ptr t.nil s) (ptr t.nil f.sib) :=
  hr.sub.frame.1

theorem red_ptr (hr : Rep t (plug c s)) : t.red (ptr t.nil s) = s.isRed := by
  by_cases hs : s = .leaf
  · subst hs
    exact hr.nil_black
  · obtain ⟨red, a, e, b, rfl⟩ := Tree.exists_mk .left hs
    rw [ptr_mk, RBTree.red, hr.node .left, Entry.red_node, Tree.isRed_mk]

theorem parent_ptr (hr : Rep t (plug c s)) (hs : s ≠ .leaf) :
    t.parent (ptr t.nil s) = parentId t.root c := by
  obtain ⟨red, a, e, b, rfl⟩ := Tree.exists_mk .left hs
  rw [ptr_mk, RBTree.parent, hr.node .left, Entry.parent_node]

theorem red_parent (hr : Rep t (plug c s)) : t.red (parentId t.root c) = headRed c := by
  cases c with
  | nil => exact hr.root_black
  | cons f c => rw [parentId, RBTree.red, hr.frame, Entry.red_node, headRed]

theorem child_side (hr : Rep t (plug c s)) : t.child (side c) (parentId t.root c) = ptr t.nil s := by
  cases c with
  | nil => exact hr.top
  | cons f c => rw [side, parentId, RBTree.child, hr.frame, Entry.child_node]

theorem ptr_ne_sibling (hr : Rep t (plug (f :: c) s)) (hne : s ≠ .leaf ∨ f.sib ≠ .leaf) :
    ptr t.nil s ≠ ptr t.nil f.sib := by
  intro heq
  have hsib : s ≠ .leaf := by
    rcases hne with hs | hs
    · exact hs
    · rintro rfl
      have hin : ptr t.nil f.sib ∈ ids f.sib := mem_ptr_of_ne_leaf hs
      exact hr.ne_nil (.inr (mem_ctxIds_cons.mpr (.inr (.inl hin)))) heq.symm
  have hin : ptr t.nil s ∈ ids s := mem_ptr_of_ne_leaf hsib
  have hsl : f.sib ≠ .leaf := by
    intro hl
    rw [hl] at heq
    exact hsib (hr.ptr_nil_iff.mp heq)
  refine hr.disjoint hin (mem_ctxIds_cons.mpr (.inr (.inl ?_)))
  rw [heq]
  exact mem_ptr_of_ne_leaf hsl

/-- The source's test for the side of a node, which needs the two children to differ. -/
theorem sideOf_eq (hr : Rep t (plug c s)) (hp : t.parent (ptr t.nil s) = parentId t.root c)
    (hne : s ≠ .leaf ∨ ∀ f ∈ c.head?, f.sib ≠ .leaf) : t.sideOf (ptr t.nil s) = side c := by
  rw [RBTree.sideOf, hp]
  cases c with
  | nil => simp [parentId, hr.top, side]
  | cons f c =>
    have hf := hr.frame
    have hdiff := hr.ptr_ne_sibling (hne.imp_right fun h => h f rfl)
    obtain ⟨dir, red, a, sib⟩ := f
    rw [parentId, RBTree.left, hf, side]
    cases dir with
    | left => simp [Entry.node]
    | right =>
      change (bif ptr t.nil s == ptr t.nil sib then Dir.left else .right) = .right
      rw [beq_eq_false_iff_ne.mpr hdiff, cond_false]

end Rep

/-! ## Rearrangements -/

/-- `t'` holds the entries of `T` in the same order as `T'`, and nothing outside was written. -/
structure Rearranged (t : RBTree K V) (T : Shape K V) (t' : RBTree K V) (T' : Shape K V) : Prop where
  rep : Rep t' T'
  order : T'.inorder = T.inorder
  frame : SameFrame t t'
  off : ∀ i, i ∉ t.root :: ids T → t'.heap i = t.heap i

namespace Rearranged

variable {t t' t'' : RBTree K V} {T T' T'' : Shape K V}

theorem refl (hr : Rep t T) : Rearranged t T t T := ⟨hr, rfl, SameFrame.refl t, fun _ _ => rfl⟩

theorem ids_eq (h : Rearranged t T t' T') : ids T' = ids T := by rw [ids, ids, h.order]

theorem trans (h : Rearranged t T t' T') (h' : Rearranged t' T' t'' T'') : Rearranged t T t'' T'' := by
  refine ⟨h'.rep, h'.order.trans h.order, h.frame.trans h'.frame, fun i hi => ?_⟩
  rw [h'.off i (by rw [h.frame.root, h.ids_eq]; exact hi), h.off i hi]

theorem heap_nil (h : Rearranged t T t' T') (hr : Rep t T) : t'.heap t.nil = t.heap t.nil := by
  refine h.off t.nil fun hi => ?_
  rcases List.mem_cons.mp hi with heq | hi
  · exact hr.root_ne_nil heq.symm
  · exact hr.ne_nil (c := []) (.inl hi) rfl

end Rearranged

theorem Rep.rearrange {t : RBTree K V} {s' : Shape K V} (hr : Rep t (plug c s)) (hframe : SameFrame t t')
    (horder : s'.inorder = s.inorder) (hoff : ∀ i, i ∉ ids s → i ≠ parentId t.root c → t'.heap i = t.heap i)
    (hlink : t'.heap (parentId t.root c) = (t.heap (parentId t.root c)).setChild (side c) (ptr t.nil s'))
    (hsub : Sub t'.heap t.nil (parentId t.root c) s') : Rearranged t (plug c s) t' (plug c s') := by
  have hids : ids s' = ids s := by rw [ids, ids, horder]
  have hnil : t'.heap t.nil = t.heap t.nil :=
    hoff t.nil (fun hi => hr.ne_nil (.inl hi) rfl) hr.parent_ne_nil.symm
  refine ⟨Rep.replace hr ⟨hframe.root, hframe.nil, ?_, hlink, hsub, _, hnil⟩ ?_ ?_, ?_, hframe, ?_⟩
  · intro i hi hne
    refine hoff i (fun his => ?_) hne
    rcases List.mem_cons.mp hi with rfl | hi
    · exact hr.ne_root (.inl his) rfl
    · exact hr.disjoint his hi
  · rw [hids]
    exact hr.nodup_place
  · rw [hids, hframe.fresh]
    intro i hi
    exact hr.fresh i ((((ids_plug_perm c s).cons _).cons _).mem_iff.mpr hi)
  · rw [inorder_plug, inorder_plug]
    exact entries_congr c horder
  · intro i hi
    rw [List.mem_cons, (ids_plug_perm c s).mem_iff, List.mem_append] at hi
    refine hoff i (fun his => hi (.inr (.inl his))) ?_
    rintro rfl
    cases c with
    | nil => exact hi (.inl rfl)
    | cons f c => exact hi (.inr (.inr (parentId_mem f c)))

theorem Rep.setRed {t : RBTree K V} (hr : Rep t (plug c s)) (hs : s ≠ .leaf) (b : Bool) :
    Rearranged t (plug c s) (t.setRed (ptr t.nil s) b) (plug c (s.paint b)) := by
  obtain ⟨red, l, e, r, rfl⟩ := Tree.exists_mk .left hs
  have hmem : e.id ∈ ids (.mk .left red l e r) := (mem_ids_mk .left).mpr (.inl rfl)
  obtain ⟨hfresh, _⟩ := List.nodup_cons.mp ((ids_mk_perm .left red l e r).nodup_iff.mp hr.ids_nodup)
  obtain ⟨hn, hl, hu⟩ := (sub_mk .left).mp hr.focus
  rw [ptr_mk]
  refine hr.rearrange (sameFrame_modify t _ _) (Tree.inorder_paint b _) ?_ ?_ ?_
  · intro i hi _
    rw [RBTree.setRed, heap_modify, if_neg]
    rintro rfl
    exact hi hmem
  · rw [RBTree.setRed, heap_modify, if_neg (hr.ne_parent hmem).symm, RBNode.setChild_eq_self]
    rw [Tree.paint_mk, ptr_mk]
    exact hr.child_side.trans (ptr_mk _ _ _ _ _ _)
  · rw [Tree.paint_mk]
    refine (sub_mk .left).mpr ⟨?_, hl.congr fun i hi => ?_, hu.congr fun i hi => ?_⟩
    · rw [RBTree.setRed, heap_modify, if_pos rfl, hn, Entry.setRed_node]
    · rw [RBTree.setRed, heap_modify, if_neg]
      rintro rfl
      exact hfresh (List.mem_append_left _ hi)
    · rw [RBTree.setRed, heap_modify, if_neg]
      rintro rfl
      exact hfresh (List.mem_append_right _ hi)

/-! ## Rotation -/

theorem rotateLinks_heap (d sd : Dir) (t : RBTree K V) {x y b p : ℕ} (hy : t.child d.opp x = y)
    (hb : t.child d y = b) (hp : t.parent x = p) (hxy : x ≠ y) (hxb : x ≠ b) (hyb : y ≠ b) (hpx : p ≠ x)
    (hpy : p ≠ y) (hpb : p ≠ b) (hside : t.sideOf x = sd) (i : ℕ) :
    (rotateLinks d t x).heap i =
      if i = x then ((t.heap x).setChild d.opp b).setParent y
      else if i = y then ((t.heap y).setChild d x).setParent p
      else if i = p then (t.heap p).setChild sd y
      else if i = b ∧ b ≠ t.nil then (t.heap b).setParent x
      else t.heap i := by
  simp only [RBTree.sideOf, RBTree.child, RBTree.parent, RBTree.left] at hy hb hp hside
  rw [hp] at hside
  by_cases hbn : b = t.nil
  · simp only [rotateLinks, relinkParent, RBTree.setChild, RBTree.setParent, RBTree.child, RBTree.parent,
      RBTree.left, RBTree.sideOf]
    simp only [heap_modify, nil_modify, hy, hb, hp, hbn, hxy.symm, if_false, if_true, ne_eq,
      not_true_eq_false, RBNode.parent_setChild, hpx, hpy, hxy]
    rw [hside]
    by_cases hix : i = x
    · simp [hix, hpx.symm]
    · by_cases hiy : i = y
      · simp [hiy, hpy.symm, RBNode.setChild_setParent, hxy.symm]
      · simp [hix, hiy]
  · simp only [rotateLinks, relinkParent, RBTree.setChild, RBTree.setParent, RBTree.child, RBTree.parent,
      RBTree.left, RBTree.sideOf]
    simp only [heap_modify, nil_modify, hy, hb, hp, hxy.symm, if_false, if_true, ne_eq, hbn,
      not_false_eq_true, RBNode.parent_setChild, hpx, hpy, hxy, hpb, hyb, hxb, and_true]
    rw [hside]
    by_cases hix : i = x
    · simp [hix, hpx.symm]
    · by_cases hiy : i = y
      · simp [hiy, hpy.symm, RBNode.setChild_setParent, hxy.symm]
      · by_cases hib : i = b
        · simp [hib, hpb.symm, hxb.symm, hyb.symm]
        · simp [hix, hiy, hib]

theorem sameFrame_rotateLinks (d : Dir) (t : RBTree K V) (x : ℕ) : SameFrame t (rotateLinks d t x) := by
  unfold rotateLinks
  simp only []
  split
  · exact ⟨rfl, rfl, rfl, rfl⟩
  · exact ⟨rfl, rfl, rfl, rfl⟩

theorem Rep.nilBlack {t : RBTree K V} {T : Shape K V} (hr : Rep t T) : t.nilBlack = some t := by
  rw [RBTree.nilBlack, hr.nil_black]
  rfl

/-- Rotating towards `d` at the node `x`. -/
theorem Rep.rotate (d : Dir) {t : RBTree K V} {u v : Bool} {A B C : Shape K V} {x y : Entry K V}
    (hr : Rep t (plug c (.mk d u A x (.mk d v B y C)))) :
    ∃ t', rotate d t x.id = some t' ∧
      Rearranged t (plug c (.mk d u A x (.mk d v B y C))) t' (plug c (.mk d v (.mk d u A x B) y C)) := by
  obtain ⟨hx, hA, hsub⟩ := (sub_mk d).mp hr.focus
  obtain ⟨hy, hB, hC⟩ := (sub_mk d).mp hsub
  rw [ptr_mk] at hx
  have hnd := hr.ids_nodup
  have hperm := (ids_mk_perm d u A x (.mk d v B y C)).trans
    (((ids_mk_perm d v B y C).append_left _).cons x.id)
  have hnd' := hperm.nodup_iff.mp hnd
  have hmem : ∀ i, i ∈ ids (.mk d u A x (.mk d v B y C)) ↔
      i = x.id ∨ i ∈ ids A ∨ i = y.id ∨ i ∈ ids B ∨ i ∈ ids C := by
    intro i
    rw [mem_ids_mk, mem_ids_mk]
  have hxp := hr.ne_parent ((hmem x.id).mpr (.inl rfl))
  have hyp := hr.ne_parent ((hmem y.id).mpr (.inr (.inr (.inl rfl))))
  have hxn := hr.ne_nil (.inl ((hmem x.id).mpr (.inl rfl)))
  have hyn := hr.ne_nil (.inl ((hmem y.id).mpr (.inr (.inr (.inl rfl)))))
  have hb : ∀ i, i ∉ ids B → i ≠ t.nil → i ≠ ptr t.nil B := by
    rintro i hi hin rfl
    by_cases hleaf : B = .leaf
    · subst hleaf
      exact hin rfl
    · exact hi (mem_ptr_of_ne_leaf hleaf)
  have hpB : parentId t.root c ∉ ids B := fun hin =>
    hr.ne_parent ((hmem _).mpr (.inr (.inr (.inr (.inl hin))))) rfl
  have hside : t.sideOf x.id = side c := by
    have hpx : t.parent x.id = parentId t.root c := by rw [RBTree.parent, hx, Entry.parent_node]
    have hs := hr.sideOf_eq (by rw [ptr_mk]; exact hpx) (.inl (by cases d <;> simp [Tree.mk]))
    rwa [ptr_mk] at hs
  simp only [List.nodup_cons, List.nodup_append, List.mem_append, List.mem_cons, not_or] at hnd'
  obtain ⟨⟨hxA, hxy, hxB, hxC⟩, hA', ⟨⟨hyB, hyC⟩, hB', hC', hBC⟩, hAr⟩ := hnd'
  have hheap := rotateLinks_heap d (side c) t (x := x.id) (y := y.id) (b := ptr t.nil B)
    (p := parentId t.root c) (by rw [RBTree.child, hx, Entry.child_opp_node])
    (by rw [RBTree.child, hy, Entry.child_node]) (by rw [RBTree.parent, hx, Entry.parent_node])
    hxy (hb _ hxB hxn) (hb _ hyB hyn) hxp.symm hyp.symm (hb _ hpB hr.parent_ne_nil) hside
  have hres : Rearranged t (plug c (.mk d u A x (.mk d v B y C))) (rotateLinks d t x.id)
      (plug c (.mk d v (.mk d u A x B) y C)) := by
    refine hr.rearrange (sameFrame_rotateLinks d t x.id) (Tree.inorder_rotate d u v u v A x B y C) ?_ ?_ ?_
    · intro i hi hip
      rw [hmem] at hi
      simp only [not_or] at hi
      obtain ⟨h₁, h₂, h₃, h₄, h₅⟩ := hi
      rw [hheap, if_neg h₁, if_neg h₃, if_neg hip, if_neg]
      rintro ⟨rfl, hin⟩
      exact hb _ h₄ hin rfl
    · rw [hheap, if_neg hxp.symm, if_neg hyp.symm, if_pos rfl, ptr_mk]
    · have hkeep : ∀ i, i ≠ x.id → i ≠ y.id → i ≠ parentId t.root c → i ≠ ptr t.nil B →
          (rotateLinks d t x.id).heap i = t.heap i := by
        intro i h₁ h₂ h₃ h₄
        rw [hheap, if_neg h₁, if_neg h₂, if_neg h₃, if_neg fun h => h₄ h.1]
      refine (sub_mk d).mpr ⟨?_, (sub_mk d).mpr ⟨?_, ?_, ?_⟩, ?_⟩
      · rw [hheap, if_neg (Ne.symm hxy), if_pos rfl, hy, Entry.setChild_node, Entry.setParent_node, ptr_mk]
      · rw [hheap, if_pos rfl, hx, Entry.setChild_opp_node, Entry.setParent_node]
      · refine hA.congr fun i hi => hkeep i ?_ ?_ ?_ ?_
        · rintro rfl
          exact hxA hi
        · rintro rfl
          exact hAr _ hi _ (.inl rfl) rfl
        · exact hr.ne_parent ((hmem i).mpr (.inr (.inl hi)))
        · exact hb i (fun hin => hAr i hi i (.inr (.inl hin)) rfl)
            (hr.ne_nil (.inl ((hmem i).mpr (.inr (.inl hi)))))
      · refine hB.reparent hB' (fun i hi hne => hkeep i ?_ ?_ ?_ hne) fun hleaf => ?_
        · rintro rfl
          exact hxB hi
        · rintro rfl
          exact hyB hi
        · exact hr.ne_parent ((hmem i).mpr (.inr (.inr (.inr (.inl hi)))))
        · have hin : ptr t.nil B ∈ ids B := mem_ptr_of_ne_leaf hleaf
          have hbn := hr.ne_nil (.inl ((hmem _).mpr (.inr (.inr (.inr (.inl hin))))))
          rw [hheap, if_neg (ne_of_mem_of_not_mem hin hxB), if_neg (ne_of_mem_of_not_mem hin hyB),
            if_neg (ne_of_mem_of_not_mem hin hpB), if_pos ⟨rfl, hbn⟩]
      · refine hC.congr fun i hi => hkeep i ?_ ?_ ?_ ?_
        · rintro rfl
          exact hxC hi
        · rintro rfl
          exact hyC hi
        · exact hr.ne_parent ((hmem i).mpr (.inr (.inr (.inr (.inr hi)))))
        · exact hb i (fun hin => hBC i hin i hi rfl)
            (hr.ne_nil (.inl ((hmem i).mpr (.inr (.inr (.inr (.inr hi)))))))
  refine ⟨rotateLinks d t x.id, ?_, hres⟩
  rw [Containers.rotate, hr.nilBlack]
  exact hres.rep.nilBlack

/-- Rotating away from `d` at the node `y`. -/
theorem Rep.rotate_opp (d : Dir) {t : RBTree K V} {cx cy : Bool} {A B C : Shape K V} {x y : Entry K V}
    (hr : Rep t (plug c (.mk d cy (.mk d cx A x B) y C))) :
    ∃ t', Containers.rotate d.opp t y.id = some t' ∧
      Rearranged t (plug c (.mk d cy (.mk d cx A x B) y C)) t' (plug c (.mk d cx A x (.mk d cy B y C))) := by
  have h := Rep.rotate d.opp (t := t) (c := c) (u := cy) (v := cx) (A := C) (B := B) (C := A) (x := y) (y := x)
  rw [Tree.mk_opp, Tree.mk_opp, Tree.mk_opp, Tree.mk_opp] at h
  exact h hr

end Libntech.Containers
