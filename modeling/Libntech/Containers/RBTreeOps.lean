import Libntech.Containers.RBTreeFix
import Mathlib.Data.List.Perm.Subperm
import Mathlib.Order.Nat

/-! # The operations of RBTree on the tree they hold

`Holds fns t T`: the heap of `t` holds the balanced search tree `T` with a black top. Each operation is
followed from the place its search ends at: a new leaf, an overwritten entry, an entry taken out. An outcome
says what happens to the in-order entries; colours and links are the business of the fix-up lemmas.
-/
namespace Libntech.Containers
open Lib Lib.RedBlack
open Containers.RBTree
set_option autoImplicit false

variable {K V : Type}

/-! ## The comparator -/

/-- A total order up to equality of keys, which copies respect. -/
structure RBTreeFns.Lawful (fns : RBTreeFns K V) : Prop where
  compare_swap : ∀ a b, fns.keyCompare a b < 0 ↔ 0 < fns.keyCompare b a
  compare_trans : ∀ a b c, fns.keyCompare a b ≤ 0 → fns.keyCompare b c ≤ 0 → fns.keyCompare a c ≤ 0
  copy_equal : ∀ k, fns.keyCompare (fns.keyCopy k) k = 0

namespace RBTreeFns.Lawful

variable {fns : RBTreeFns K V} (law : fns.Lawful)
include law

variable {a b : Option K}

theorem le_of_not_lt (h : ¬ fns.keyCompare a b < 0) : fns.keyCompare b a ≤ 0 := by
  rw [law.compare_swap] at h
  omega

theorem equal_symm (h : fns.keyCompare a b = 0) : fns.keyCompare b a = 0 := by
  have h₁ := law.compare_swap a b
  have h₂ := law.compare_swap b a
  omega

theorem equal_refl (a : Option K) : fns.keyCompare a a = 0 := by
  have h := law.compare_swap a a
  omega

theorem lt_of_lt_of_le {c : Option K} (h : fns.keyCompare a b < 0) (h' : fns.keyCompare b c ≤ 0) :
    fns.keyCompare a c < 0 := by
  by_contra hac
  have hba := law.compare_trans b c a h' (law.le_of_not_lt hac)
  rw [law.compare_swap] at h
  omega

theorem lt_of_le_of_lt {c : Option K} (h : fns.keyCompare a b ≤ 0) (h' : fns.keyCompare b c < 0) :
    fns.keyCompare a c < 0 := by
  by_contra hac
  have hcb := law.compare_trans c a b (law.le_of_not_lt hac) h
  rw [law.compare_swap] at h'
  omega

theorem equal_trans {c : Option K} (h : fns.keyCompare a b = 0) (h' : fns.keyCompare b c = 0) :
    fns.keyCompare a c = 0 := by
  have h₁ := law.compare_trans a b c h.le h'.le
  have h₂ := law.compare_trans c b a (law.equal_symm h').le (law.equal_symm h).le
  have h₃ := law.compare_swap a c
  omega

end RBTreeFns.Lawful

/-- Equality of keys as the comparator decides it. -/
def RBTreeFns.Lawful.setoid {fns : RBTreeFns K V} (law : fns.Lawful) : Setoid (Option K) :=
  ⟨fun a b => fns.keyCompare a b = 0, law.equal_refl, law.equal_symm, law.equal_trans⟩

/-! ## The invariant -/

/-- Keys in strictly ascending order. -/
def Ascending (fns : RBTreeFns K V) (l : List (Entry K V)) : Prop :=
  l.Pairwise fun a b => fns.keyCompare a.key b.key < 0

structure Holds (fns : RBTreeFns K V) (t : RBTree K V) (T : Shape K V) : Prop where
  rep : Rep t T
  balanced : ∃ n, Balanced T n
  top_black : T.isRed = false
  ascending : Ascending fns T.inorder
  size : t.size = T.inorder.length

theorem Rep.length_lt {t : RBTree K V} {T : Shape K V} (hr : Rep t T) : T.inorder.length + 2 ≤ t.fresh := by
  have hsub : (t.root :: t.nil :: ids T) ⊆ List.range t.fresh := fun i hi =>
    List.mem_range.mpr (hr.fresh i hi)
  have hlen := (hr.nodup.subperm hsub).length_le
  rw [List.length_range, List.length_cons, List.length_cons, ids, List.length_map] at hlen
  exact hlen

theorem length_le_ctxIds (c : Ctx (Entry K V)) : c.length ≤ (ctxIds c).length := by
  induction c with
  | nil => exact Nat.zero_le _
  | cons f c ih =>
    rw [(ctxIds_cons_perm f c).length_eq, List.length_cons, List.length_cons, List.length_append]
    omega

variable {c : Ctx (Entry K V)} {e : Entry K V} {red : Bool} {l r : Shape K V} {key : Option K} {n : ℕ}

theorem Rep.depth_lt {t : RBTree K V} {s : Shape K V} (hr : Rep t (plug c s)) : c.length < t.fresh := by
  have hlen := hr.length_lt
  have hids := (ids_plug_perm c s).length_eq
  rw [ids, List.length_map, List.length_append] at hids
  have hc := length_le_ctxIds c
  omega

/-! ## Searching -/

section Search

variable {fns : RBTreeFns K V} {t : RBTree K V} {T : Shape K V}

/-- A place whose surroundings say on which side of it `key` belongs. -/
structure Between (fns : RBTreeFns K V) (key : Option K) (c : Ctx (Entry K V)) : Prop where
  before : ∀ e ∈ before c, fns.keyCompare e.key key < 0
  after : ∀ e ∈ after c, fns.keyCompare key e.key < 0

theorem Between.not_equal (law : fns.Lawful) (h : Between fns key c) :
    ∀ e ∈ RedBlack.before c ++ RedBlack.after c, fns.keyCompare e.key key ≠ 0 := by
  intro e he heq
  rcases List.mem_append.mp he with he | he
  · exact absurd (h.before e he) (by omega)
  · have := (law.compare_swap _ _).mp (h.after e he)
    omega

/-- Where the two search loops end. -/
inductive Found (fns : RBTreeFns K V) (t : RBTree K V) (key : Option K) (T : Shape K V) (fuel y x : ℕ) :
    Prop where
  | absent {c : Ctx (Entry K V)} : T = plug c .leaf → Between fns key c →
      putSearch fns t key fuel y x = some (parentId t.root c, t.nil) →
      getLoop fns t key fuel x = some t.nil → Found fns t key T fuel y x
  | present {c : Ctx (Entry K V)} {red : Bool} {l r : Shape K V} {e : Entry K V} :
      T = plug c (.node red l e r) → fns.keyCompare key e.key = 0 →
      putSearch fns t key fuel y x = some (e.id, e.id) →
      getLoop fns t key fuel x = some e.id → Found fns t key T fuel y x

theorem search_spec (law : fns.Lawful) (key : Option K) (hr : Rep t T) (hasc : Ascending fns T.inorder)
    (s : Shape K V) : ∀ (c : Ctx (Entry K V)) (fuel : ℕ), plug c s = T → Between fns key c →
      s.inorder.length < fuel → Found fns t key T fuel (parentId t.root c) (ptr t.nil s) := by
  induction s with
  | leaf =>
    intro c fuel hplug hbet hfuel
    obtain ⟨fuel, rfl⟩ := Nat.exists_eq_add_of_lt hfuel
    refine .absent hplug.symm hbet ?_ ?_
    · simp [putSearch]
    · simp [getLoop]
  | node red l e r ihl ihr =>
    intro c fuel hplug hbet hfuel
    subst hplug
    rw [Tree.inorder_node, List.length_append, List.length_cons] at hfuel
    obtain ⟨fuel, rfl⟩ : ∃ k, fuel = k + 1 := ⟨fuel - 1, by omega⟩
    have hne := hr.node_ne_nil
    rw [inorder_plug, entries, Tree.inorder_node] at hasc
    obtain ⟨hasc, _, _⟩ := List.pairwise_append.mp hasc
    obtain ⟨_, hasc, _⟩ := List.pairwise_append.mp hasc
    obtain ⟨_, her, hle⟩ := List.pairwise_append.mp hasc
    have hput : ∀ y, putSearch fns t key (fuel + 1) y e.id =
        if fns.keyCompare key e.key = 0 then some (e.id, e.id)
        else putSearch fns t key fuel e.id (if fns.keyCompare key e.key < 0 then ptr t.nil l else ptr t.nil r) := by
      intro y
      rw [putSearch, if_neg hne, hr.key_node, hr.left_node, hr.right_node]
    have hget : getLoop fns t key (fuel + 1) e.id =
        if fns.keyCompare key e.key = 0 then some e.id
        else if fns.keyCompare key e.key < 0 then getLoop fns t key fuel (ptr t.nil l)
        else getLoop fns t key fuel (ptr t.nil r) := by
      rw [getLoop, if_neg hne, hr.key_node, hr.left_node, hr.right_node]
    by_cases heq : fns.keyCompare key e.key = 0
    · refine .present rfl heq ?_ ?_
      · rw [ptr, hput, if_pos heq]
      · rw [ptr, hget, if_pos heq]
    · by_cases hlt : fns.keyCompare key e.key < 0
      · have hb : Between fns key (⟨.left, red, e, r⟩ :: c) := by
          refine ⟨hbet.before, fun x hx => ?_⟩
          rcases List.mem_append.mp (show x ∈ (e :: r.inorder) ++ after c from hx) with hx | hx
          · rcases List.mem_cons.mp hx with rfl | hx
            · exact hlt
            · exact law.lt_of_lt_of_le hlt ((List.pairwise_cons.mp her).1 x hx).le
          · exact hbet.after x hx
        have hf := ihl (⟨.left, red, e, r⟩ :: c) fuel rfl hb (by omega)
        rw [ptr]
        cases hf with
        | absent hT hbet' hp hg =>
          refine .absent hT hbet' ?_ ?_
          · rw [hput, if_neg heq, if_pos hlt]; exact hp
          · rw [hget, if_neg heq, if_pos hlt]; exact hg
        | present hT hk hp hg =>
          refine .present hT hk ?_ ?_
          · rw [hput, if_neg heq, if_pos hlt]; exact hp
          · rw [hget, if_neg heq, if_pos hlt]; exact hg
      · have hgt : fns.keyCompare e.key key < 0 := by
          rw [law.compare_swap]
          omega
        have hb : Between fns key (⟨.right, red, e, l⟩ :: c) := by
          refine ⟨fun x hx => ?_, hbet.after⟩
          rcases List.mem_append.mp (show x ∈ before c ++ (l.inorder ++ [e]) from hx) with hx | hx
          · exact hbet.before x hx
          · rcases List.mem_append.mp hx with hx | hx
            · exact law.lt_of_lt_of_le (hle x hx e List.mem_cons_self) hgt.le
            · rw [List.mem_singleton.mp hx]
              exact hgt
        have hf := ihr (⟨.right, red, e, l⟩ :: c) fuel rfl hb (by omega)
        rw [ptr]
        cases hf with
        | absent hT hbet' hp hg =>
          refine .absent hT hbet' ?_ ?_
          · rw [hput, if_neg heq, if_neg hlt]; exact hp
          · rw [hget, if_neg heq, if_neg hlt]; exact hg
        | present hT hk hp hg =>
          refine .present hT hk ?_ ?_
          · rw [hput, if_neg heq, if_neg hlt]; exact hp
          · rw [hget, if_neg heq, if_neg hlt]; exact hg

/-- The searches of `RBTreePut` and `Get_` from the top. -/
theorem Holds.search (law : fns.Lawful) (h : Holds fns t T) (key : Option K) :
    Found fns t key T t.fresh t.root (t.left t.root) := by
  have hlen := h.rep.length_lt
  rw [h.rep.top]
  exact search_spec law key h.rep h.ascending T [] t.fresh rfl ⟨by simp [before], by simp [after]⟩ (by omega)

end Search

/-! ## Insertion -/

section Put

variable {fns : RBTreeFns K V} {t : RBTree K V} {T : Shape K V}

theorem Balanced.payload (e' : Entry K V) (h : Balanced (.node red l e r) n) : Balanced (.node red l e' r) n := by
  cases h with
  | red hl hr hlr hrr => exact .red hl hr hlr hrr
  | black hl hr => exact .black hl hr

/-- A balanced tree stays so when another payload takes a node's place. -/
theorem plug_payload (e' : Entry K V) (h : Balanced (plug c (.node red l e r)) n)
    (hb : (plug c (.node red l e r)).isRed = false) :
    ∃ m, Balanced (plug c (.node red l e' r)) m ∧ (plug c (.node red l e' r)).isRed = false := by
  obtain ⟨k, hopen, hbal, hcol⟩ := Open.of_plug h hb
  exact hopen.plug_balanced (Balanced.payload e' hbal) hcol

theorem ids_node (red : Bool) (l r : Shape K V) (e e' : Entry K V) (h : e'.id = e.id) :
    ids (.node red l e' r) = ids (.node red l e r) := by
  simp [ids, h]

theorem Rep.overwrite (hr : Rep t (plug c (.node red l e r))) (key : Option K) (value : Option V) :
    Rep (t.modify e.id fun n => { n with key := key, value := value })
      (plug c (.node red l ⟨e.id, key, value⟩ r)) := by
  have hmem : e.id ∈ ids (.node red l e r) := (mem_ids_mk .left).mpr (.inl rfl)
  have hids := ids_node red l r e ⟨e.id, key, value⟩ rfl
  obtain ⟨hfresh, _⟩ := List.nodup_cons.mp ((ids_mk_perm .left red l e r).nodup_iff.mp hr.ids_nodup)
  obtain ⟨hn, hl, hu⟩ := hr.focus
  have hkeep : ∀ i, i ≠ e.id →
      (t.modify e.id fun n => { n with key := key, value := value }).heap i = t.heap i := by
    intro i hi
    rw [heap_modify, if_neg hi]
  have hnil := hkeep t.nil (hr.ne_nil (.inl hmem)).symm
  refine hr.replace ⟨rfl, rfl, ?_, ?_, ?_, _, hnil⟩ ?_ ?_
  · intro i hi _
    refine hkeep i ?_
    rintro rfl
    rcases List.mem_cons.mp hi with heq | hi
    · exact hr.ne_root (.inl hmem) heq
    · exact hr.disjoint hmem hi
  · rw [hkeep _ (hr.ne_parent hmem).symm, RBNode.setChild_eq_self]
    exact hr.child_side
  · refine ⟨?_, hl.congr fun i hi => hkeep i ?_, hu.congr fun i hi => hkeep i ?_⟩
    · dsimp only
      rw [heap_modify, if_pos rfl, hn]
    · rintro rfl
      exact hfresh (List.mem_append_left _ hi)
    · rintro rfl
      exact hfresh (List.mem_append_right _ hi)
  · rw [hids]
    exact hr.nodup_place
  · rw [hids]
    exact fun i hi => hr.fresh i ((((ids_plug_perm c _).cons _).cons _).mem_iff.mpr hi)

theorem Rep.hang (fns : RBTreeFns K V) (hr : Rep t (plug c .leaf)) (key : Option K) (value : Option V) :
    Rep ((nodeNew fns t (parentId t.root c) true key value).2.setChild (parentId t.root c) (side c) t.fresh)
      (plug c (.node true .leaf ⟨t.fresh, fns.keyCopy key, fns.valueCopy value⟩ .leaf)) := by
  have hnew : ∀ i ∈ t.root :: t.nil :: ctxIds c, i ≠ t.fresh := by
    intro i hi
    refine (hr.fresh i ?_).ne
    exact (((ids_plug_perm c .leaf).cons _).cons _).mem_iff.mpr hi
  have hpar : parentId t.root c ≠ t.fresh := by
    cases c with
    | nil => exact hnew t.root List.mem_cons_self
    | cons f c =>
      exact hnew _ (List.mem_cons_of_mem _ (List.mem_cons_of_mem _ (parentId_mem f c)))
  have hheap : ∀ i, ((nodeNew fns t (parentId t.root c) true key value).2.setChild (parentId t.root c) (side c)
      t.fresh).heap i =
        if i = parentId t.root c then (t.heap (parentId t.root c)).setChild (side c) t.fresh
        else if i = t.fresh then ⟨fns.keyCopy key, fns.valueCopy value, true, parentId t.root c, t.nil, t.nil⟩
        else t.heap i := by
    intro i
    simp only [nodeNew, RBTree.setChild, heap_modify, if_neg hpar]
  have hnil := hheap t.nil
  rw [if_neg hr.parent_ne_nil.symm, if_neg (hnew t.nil (List.mem_cons_of_mem _ List.mem_cons_self))] at hnil
  have hplace := hr.nodup_place
  rw [ids_leaf, List.nil_append] at hplace
  refine hr.replace ⟨rfl, rfl, ?_, ?_, ⟨?_, trivial, trivial⟩, _, hnil⟩ ?_ ?_
  · intro i hi hne
    rw [hheap, if_neg hne, if_neg (hnew i ?_)]
    rcases List.mem_cons.mp hi with rfl | hi
    · exact List.mem_cons_self
    · exact List.mem_cons_of_mem _ (List.mem_cons_of_mem _ hi)
  · rw [hheap, if_pos rfl, ptr]
  · dsimp only
    rw [hheap, if_neg hpar.symm, if_pos rfl]
    rfl
  · have hperm : (t.root :: t.nil :: (ids (.node true .leaf
        ⟨t.fresh, fns.keyCopy key, fns.valueCopy value⟩ .leaf) ++ ctxIds c)).Perm
          (t.fresh :: t.root :: t.nil :: ctxIds c) := by
      change (t.root :: t.nil :: t.fresh :: ctxIds c).Perm _
      exact (((List.Perm.swap _ _ _).cons _).trans (List.Perm.swap _ _ _))
    rw [hperm.nodup_iff, List.nodup_cons]
    exact ⟨fun hi => hnew _ hi rfl, hplace⟩
  · intro i hi
    change i ∈ t.root :: t.nil :: t.fresh :: ctxIds c at hi
    change i < t.fresh + 1
    have hold : ∀ i ∈ t.root :: t.nil :: ctxIds c, i < t.fresh := fun i hi =>
      hr.fresh i ((((ids_plug_perm c .leaf).cons _).cons _).mem_iff.mpr hi)
    simp only [List.mem_cons] at hi hold
    rcases hi with hi | hi | hi | hi
    · exact Nat.lt_succ_of_lt (hold i (.inl hi))
    · exact Nat.lt_succ_of_lt (hold i (.inr (.inl hi)))
    · omega
    · exact Nat.lt_succ_of_lt (hold i (.inr (.inr hi)))

variable {A B : List (Entry K V)}

theorem ascending_insert (h : Ascending fns (A ++ B)) (hA : ∀ a ∈ A, fns.keyCompare a.key e.key < 0)
    (hB : ∀ b ∈ B, fns.keyCompare e.key b.key < 0) :
    Ascending fns (A ++ e :: B) := by
  obtain ⟨h₁, h₂, h₃⟩ := List.pairwise_append.mp h
  refine List.pairwise_append.mpr ⟨h₁, List.pairwise_cons.mpr ⟨hB, h₂⟩, fun a ha b hb => ?_⟩
  rcases List.mem_cons.mp hb with rfl | hb
  · exact hA a ha
  · exact h₃ a ha b hb

theorem ascending_remove (h : Ascending fns (A ++ e :: B)) : Ascending fns (A ++ B) :=
  List.Pairwise.sublist ((List.sublist_cons_self e B).append_left A) h

theorem ascending_around (h : Ascending fns (A ++ e :: B)) :
    (∀ a ∈ A, fns.keyCompare a.key e.key < 0) ∧ ∀ b ∈ B, fns.keyCompare e.key b.key < 0 := by
  obtain ⟨_, h₂, h₃⟩ := List.pairwise_append.mp h
  exact ⟨fun a ha => h₃ a ha e List.mem_cons_self, (List.pairwise_cons.mp h₂).1⟩

/-- What a put does to the entries, and what it returns. -/
inductive PutOutcome (fns : RBTreeFns K V) (key : Option K) (value : Option V) (l l' : List (Entry K V)) :
    Bool → Prop where
  | replaced {A B : List (Entry K V)} {e : Entry K V} : l = A ++ e :: B → fns.keyCompare key e.key = 0 →
      l' = A ++ ⟨e.id, fns.keyCopy key, fns.valueCopy value⟩ :: B → PutOutcome fns key value l l' true
  | added {A B : List (Entry K V)} {i : ℕ} : l = A ++ B → (∀ e ∈ A ++ B, fns.keyCompare e.key key ≠ 0) →
      l' = A ++ ⟨i, fns.keyCopy key, fns.valueCopy value⟩ :: B → PutOutcome fns key value l l' false

theorem rbTreePut_replace (law : fns.Lawful) (value : Option V) (h : Holds fns t (plug c (.node red l e r)))
    (hk : fns.keyCompare key e.key = 0) (hs : putSearch fns t key t.fresh t.root (t.left t.root) = some (e.id, e.id)) :
    ∃ t' T', rbTreePut fns t key value = some (t', true) ∧ Holds fns t' T' ∧
      PutOutcome fns key value (plug c (.node red l e r)).inorder T'.inorder true := by
  have hr := h.rep.overwrite (fns.keyCopy key) (fns.valueCopy value)
  have hne : e.id ≠ t.nil := h.rep.node_ne_nil
  have hin : ∀ e' : Entry K V, (plug c (.node red l e' r)).inorder =
      (before c ++ l.inorder) ++ e' :: (r.inorder ++ after c) := by
    intro e'
    rw [inorder_plug, entries, Tree.inorder_node]
    simp
  have hasc := h.ascending
  rw [hin] at hasc
  obtain ⟨hA, hB⟩ := ascending_around hasc
  have hcopy : fns.keyCompare (fns.keyCopy key) e.key = 0 := law.equal_trans (law.copy_equal key) hk
  obtain ⟨n, hbal⟩ := h.balanced
  obtain ⟨m, hbal', hblack'⟩ :=
    plug_payload ⟨e.id, fns.keyCopy key, fns.valueCopy value⟩ hbal h.top_black
  refine ⟨_, _, ?_, ⟨hr, ⟨m, hbal'⟩, hblack', ?_, ?_⟩, .replaced (hin e) hk (hin _)⟩
  · simp only [rbTreePut, hs, Option.bind_eq_bind, Option.bind_some, ne_eq, hne, not_false_eq_true, if_true,
      Option.pure_def]
  · rw [hin]
    refine ascending_insert (ascending_remove hasc) (fun a ha => ?_) fun b hb => ?_
    · exact law.lt_of_lt_of_le (hA a ha) (law.equal_symm hcopy).le
    · exact law.lt_of_le_of_lt hcopy.le (hB b hb)
  · rw [hin, size_modify, h.size, hin]
    simp

theorem rbTreePut_add (law : fns.Lawful) (value : Option V) (h : Holds fns t (plug c .leaf)) (hbet : Between fns key c)
    (hs : putSearch fns t key t.fresh t.root (t.left t.root) = some (parentId t.root c, t.nil)) :
    ∃ t' T', rbTreePut fns t key value = some (t', false) ∧ Holds fns t' T' ∧
      PutOutcome fns key value (plug c .leaf).inorder T'.inorder false := by
  have hcmp : ∀ k, (fns.keyCompare (fns.keyCopy key) k < 0 ↔ fns.keyCompare key k < 0) := by
    intro k
    constructor
    · exact fun hlt => law.lt_of_le_of_lt (law.equal_symm (law.copy_equal key)).le hlt
    · exact fun hlt => law.lt_of_le_of_lt (law.copy_equal key).le hlt
  have hnew : parentId t.root c ≠ t.fresh := by
    refine (h.rep.fresh _ ?_).ne
    cases c with
    | nil => exact List.mem_cons_self
    | cons f c =>
      refine List.mem_cons_of_mem _ (List.mem_cons_of_mem _ ?_)
      exact (ids_plug_perm (f :: c) .leaf).mem_iff.mpr (List.mem_append_right _ (parentId_mem f c))
  -- the comparison with the parent repeats the last one of the search
  have hside : putSide fns (nodeNew fns t (parentId t.root c) true key value).2 (parentId t.root c) t.fresh =
      side c := by
    have hz : ((nodeNew fns t (parentId t.root c) true key value).2.heap t.fresh).key = fns.keyCopy key := by
      simp [nodeNew]
    have hy : ((nodeNew fns t (parentId t.root c) true key value).2.heap (parentId t.root c)).key =
        (t.heap (parentId t.root c)).key := by
      simp [nodeNew, hnew]
    rw [putSide, hz, hy]
    cases c with
    | nil => exact if_pos (.inl rfl)
    | cons f c =>
      have hne : parentId t.root (f :: c) ≠ t.root := h.rep.ne_root (.inr (parentId_mem f c))
      have hkey : (t.heap (parentId t.root (f :: c))).key = f.a.key := by
        rw [parentId, h.rep.frame, Entry.key_node]
      rw [hkey]
      obtain ⟨dir, red, a, sib⟩ := f
      cases dir with
      | left => exact if_pos (.inr ((hcmp _).mpr (hbet.after a List.mem_cons_self)))
      | right =>
        refine if_neg ?_
        have hlt := (law.compare_swap a.key key).mp
          (hbet.before a (List.mem_append_right _ (List.mem_append_right _ List.mem_cons_self)))
        rintro (hl | hl)
        · exact hne hl
        · have := (hcmp _).mp hl
          dsimp only at this
          omega
  obtain ⟨n, hbal⟩ := h.balanced
  obtain ⟨k, hopen, hleaf, _⟩ := Open.of_plug hbal h.top_black
  have hk : k = 0 := by
    cases hleaf
    rfl
  subst hk
  have hr := h.rep.hang fns key value
  have hred : RedAt c (.node true .leaf ⟨t.fresh, fns.keyCopy key, fns.valueCopy value⟩ .leaf) 0 :=
    ⟨rfl, .red .leaf .leaf rfl rfl, hopen⟩
  obtain ⟨t', T', m, heq, hre, hbal', hblack'⟩ := putFix_spec hr hred hr.depth_lt
  have hasc := h.ascending
  have hin := hre.order
  rw [inorder_plug, entries] at hasc hin
  rw [Tree.inorder_leaf, List.append_nil] at hasc
  simp only [Tree.inorder_node, Tree.inorder_leaf, List.nil_append, List.append_assoc, List.cons_append] at hin
  refine ⟨{ t' with size := t'.size + 1 }, T', ?_, ⟨?_, ⟨m, hbal'⟩, hblack', ?_, ?_⟩,
    .added (i := t.fresh) ?_ ?_ hin⟩
  · simp only [rbTreePut, hs, Option.bind_eq_bind, Option.bind_some, ne_eq, not_true_eq_false, if_false,
      Option.pure_def]
    rw [ptr] at heq
    dsimp only at heq
    rw [show (nodeNew fns t (parentId t.root c) true key value).1 = t.fresh from rfl, hside, heq]
    rfl
  · exact ⟨hre.rep.sub, hre.rep.top, hre.rep.root_right, hre.rep.root_black, hre.rep.root_key, hre.rep.root_value,
      hre.rep.nil_black, hre.rep.nil_key, hre.rep.nil_value, hre.rep.nodup, hre.rep.fresh⟩
  · rw [hin]
    refine ascending_insert hasc (fun a ha => ?_) fun b hb => (hcmp _).mpr (hbet.after b hb)
    exact law.lt_of_lt_of_le (hbet.before a ha) (law.equal_symm (law.copy_equal key)).le
  · have hsz : t'.size = t.size := hre.frame.size
    rw [hin]
    change t'.size + 1 = _
    rw [hsz, h.size, inorder_plug, entries]
    simp
    omega
  · rw [inorder_plug, entries, Tree.inorder_leaf, List.append_nil]
  · exact hbet.not_equal law

theorem rbTreePut_spec (law : fns.Lawful) (h : Holds fns t T) (key : Option K) (value : Option V) :
    ∃ t' T' b, rbTreePut fns t key value = some (t', b) ∧ Holds fns t' T' ∧
      PutOutcome fns key value T.inorder T'.inorder b := by
  cases h.search law key with
  | absent hT hbet hs _ =>
    subst hT
    obtain ⟨t', T', heq, h', hout⟩ := rbTreePut_add law value h hbet hs
    exact ⟨t', T', false, heq, h', hout⟩
  | present hT hk hs _ =>
    subst hT
    obtain ⟨t', T', heq, h', hout⟩ := rbTreePut_replace law value h hk hs
    exact ⟨t', T', true, heq, h', hout⟩

end Put

/-! ## Removal -/

section Remove

variable {fns : RBTreeFns K V} {t : RBTree K V} {T : Shape K V}

variable {X : Shape K V} {d : Dir} {y : Entry K V}

theorem spliceOut_eq (hr : Rep t (plug c (.mk d red .leaf y X))) :
    spliceOut t y.id (ptr t.nil X) =
      (t.setParent (ptr t.nil X) (parentId t.root c)).setChild (parentId t.root c) (side c) (ptr t.nil X) := by
  have hyX : y.id ≠ ptr t.nil X := by
    have hnd := (ids_mk_perm d red .leaf y X).nodup_iff.mp hr.ids_nodup
    rw [ids_leaf, List.nil_append, List.nodup_cons] at hnd
    by_cases hX : X = .leaf
    · subst hX
      exact hr.ne_nil (.inl ((mem_ids_mk d).mpr (.inl rfl)))
    · exact fun heq => hnd.1 (heq ▸ mem_ptr_of_ne_leaf hX)
  have hpX : parentId t.root c ≠ ptr t.nil X := by
    by_cases hX : X = .leaf
    · subst hX
      exact hr.parent_ne_nil
    · exact (hr.ne_parent ((mem_ids_mk d).mpr (.inr (.inr (mem_ptr_of_ne_leaf hX))))).symm
  have hpy : t.parent y.id = parentId t.root c := by rw [RBTree.parent, hr.node d, Entry.parent_node]
  have hside : t.sideOf y.id = side c := by
    have h := hr.sideOf_eq (by rw [ptr_mk]; exact hpy) (.inl (ne_leaf_mk _ _ _ _ _))
    rwa [ptr_mk] at h
  have hheap : ∀ i, i ≠ ptr t.nil X → (t.setParent (ptr t.nil X) (parentId t.root c)).heap i = t.heap i := by
    intro i hi
    rw [RBTree.setParent, heap_modify, if_neg hi]
  have hx : (t.setParent (ptr t.nil X) (parentId t.root c)).parent (ptr t.nil X) = parentId t.root c := by
    rw [RBTree.parent, RBTree.setParent, heap_modify, if_pos rfl]
    rfl
  rw [spliceOut, hpy, hx]
  cases c with
  | nil => exact if_pos rfl
  | cons f c =>
    have hroot : t.root ≠ parentId t.root (f :: c) := (hr.ne_root (.inr (parentId_mem f c))).symm
    have hparent : (t.setParent (ptr t.nil X) (parentId t.root (f :: c))).parent y.id = parentId t.root (f :: c) := by
      rw [RBTree.parent, hheap _ hyX]
      exact hpy
    refine (if_neg hroot).trans ?_
    rw [relinkParent, hparent]
    congr 1
    rw [← hside, RBTree.sideOf, RBTree.sideOf, hparent, hpy, RBTree.left, hheap _ hpX]
    rfl

theorem Rep.splice (hr : Rep t (plug c (.mk d red .leaf y X))) :
    Rep (spliceOut t y.id (ptr t.nil X)) (plug c X) ∧
      (spliceOut t y.id (ptr t.nil X)).parent (ptr t.nil X) = parentId t.root c ∧
      SameFrame t (spliceOut t y.id (ptr t.nil X)) ∧
      (spliceOut t y.id (ptr t.nil X)).heap y.id = t.heap y.id := by
  obtain ⟨hn, _, hX⟩ := (sub_mk d).mp hr.focus
  have hnd := (ids_mk_perm d red .leaf y X).nodup_iff.mp hr.ids_nodup
  rw [ids_leaf, List.nil_append, List.nodup_cons] at hnd
  have hmem : ∀ i ∈ ids X, i ∈ ids (.mk d red .leaf y X) := fun i hi => (mem_ids_mk d).mpr (.inr (.inr hi))
  -- the child is a node of `X` or the nil sentinel
  have hsep : ∀ i, i ∉ ids X → i ≠ t.nil → i ≠ ptr t.nil X := by
    rintro i hi hin rfl
    by_cases hleaf : X = .leaf
    · subst hleaf
      exact hin rfl
    · exact hi (mem_ptr_of_ne_leaf hleaf)
  have hpX : parentId t.root c ≠ ptr t.nil X :=
    hsep _ (fun hi => hr.ne_parent (hmem _ hi) rfl) hr.parent_ne_nil
  have hyX : y.id ≠ ptr t.nil X := hsep _ hnd.1 (hr.ne_nil (.inl ((mem_ids_mk d).mpr (.inl rfl))))
  have hheap : ∀ i, (spliceOut t y.id (ptr t.nil X)).heap i =
      if i = parentId t.root c then (t.heap i).setChild (side c) (ptr t.nil X)
      else if i = ptr t.nil X then (t.heap i).setParent (parentId t.root c) else t.heap i := by
    intro i
    rw [spliceOut_eq hr, RBTree.setChild, heap_modify, RBTree.setParent, heap_modify, heap_modify]
    by_cases hip : i = parentId t.root c
    · rw [if_pos hip, if_pos hip, if_neg hpX, hip]
    · rw [if_neg hip, if_neg hip]
      by_cases hix : i = ptr t.nil X
      · rw [if_pos hix, if_pos hix, hix]
      · rw [if_neg hix, if_neg hix]
  have hframe : SameFrame t (spliceOut t y.id (ptr t.nil X)) := by
    rw [spliceOut_eq hr]
    exact ⟨rfl, rfl, rfl, rfl⟩
  have hnil : ∃ q, (spliceOut t y.id (ptr t.nil X)).heap t.nil = (t.heap t.nil).setParent q := by
    rw [hheap, if_neg hr.parent_ne_nil.symm]
    split
    · exact ⟨_, rfl⟩
    · exact ⟨(t.heap t.nil).parent, rfl⟩
  refine ⟨hr.replace ⟨hframe.root, hframe.nil, ?_, ?_, ?_, hnil⟩ ?_ ?_, ?_, hframe, ?_⟩
  · intro i hi hip
    rw [hheap, if_neg hip, if_neg]
    rintro rfl
    rcases List.mem_cons.mp hi with heq | hi
    · by_cases hleaf : X = .leaf
      · subst hleaf
        exact hr.root_ne_nil heq.symm
      · exact hr.ne_root (.inl (hmem _ (mem_ptr_of_ne_leaf hleaf))) heq
    · by_cases hleaf : X = .leaf
      · subst hleaf
        exact hr.ne_nil (.inr hi) rfl
      · exact hr.disjoint (hmem _ (mem_ptr_of_ne_leaf hleaf)) hi
  · rw [hheap, if_pos rfl]
  · refine hX.reparent hnd.2 (fun i hi hne => ?_) fun _ => ?_
    · rw [hheap, if_neg (hr.ne_parent (hmem i hi)), if_neg hne]
    · rw [hheap, if_neg hpX.symm, if_pos rfl]
  · refine hr.nodup_place.sublist (((List.Sublist.append_right ?_ _).cons_cons _).cons_cons _)
    cases d with
    | left => exact List.sublist_cons_self _ _
    | right =>
      rw [ids, ids, Tree.mk, Tree.inorder_node, List.map_append]
      exact List.sublist_append_left _ _
  · intro i hi
    rw [hframe.fresh]
    refine hr.fresh i ((((ids_plug_perm c _).cons _).cons _).mem_iff.mpr ?_)
    simp only [List.mem_cons, List.mem_append] at hi ⊢
    exact hi.imp_right (Or.imp_right (Or.imp_left (hmem i)))
  · rw [RBTree.parent, hheap, if_neg hpX.symm, if_pos rfl, RBNode.parent_setParent]
  · rw [hheap, if_neg (hr.ne_parent ((mem_ids_mk d).mpr (.inl rfl))), if_neg hyX]

theorem leftmost_spec (s : Shape K V) : ∀ (c : Ctx (Entry K V)) (fuel : ℕ), Rep t (plug c s) → s ≠ .leaf →
    s.inorder.length ≤ fuel → ∃ c' red y X R, plug c' (.mk .left red .leaf y X) = plug c s ∧
      leftmost t fuel (ptr t.nil s) = some y.id ∧ s.inorder = y :: R ∧ before c' = before c ∧
      X.inorder ++ after c' = R ++ after c := by
  induction s with
  | leaf => exact fun _ _ _ h _ => absurd rfl h
  | node red l e r ihl _ =>
    intro c fuel hr _ hfuel
    have hleft := hr.left_node
    rw [Tree.inorder_node, List.length_append, List.length_cons] at hfuel
    obtain ⟨fuel, rfl⟩ : ∃ k, fuel = k + 1 := ⟨fuel - 1, by omega⟩
    have hl := Rep.ptr_nil_iff (c := ⟨.left, red, e, r⟩ :: c) (s := l) hr
    by_cases hleaf : l = .leaf
    · subst hleaf
      refine ⟨c, red, e, r, r.inorder, rfl, ?_, rfl, rfl, rfl⟩
      rw [ptr, leftmost, hleft, if_neg (by simp)]
    · obtain ⟨c', red', y, X, R, hplug, hlm, hin, hbef, haft⟩ :=
        ihl (⟨.left, red, e, r⟩ :: c) fuel hr hleaf (by omega)
      refine ⟨c', red', y, X, R ++ e :: r.inorder, hplug, ?_, ?_, hbef, ?_⟩
      · rw [ptr, leftmost, hleft, if_pos fun h => hleaf (hl.mp h)]
        exact hlm
      · rw [Tree.inorder_node, hin]
        rfl
      · rw [haft]
        simp [after]

theorem takePlace_heap {z y p a b : ℕ} {sd : Dir} (hp : t.parent z = p) (ha : t.left z = a) (hb : t.right z = b)
    (hside : t.sideOf z = sd) (hzy : z ≠ y) (hza : z ≠ a) (hzb : z ≠ b) (hpa : p ≠ a) (hpb : p ≠ b) (hpy : p ≠ y)
    (hya : y ≠ a) (hyb : y ≠ b) (i : ℕ) :
    (takePlace t z y).heap i =
      if i = p then (t.heap p).setChild sd y
      else if i = a ∨ i = b then (t.heap i).setParent y
      else if i = y then ⟨(t.heap y).key, (t.heap y).value, t.red z, p, a, b⟩
      else t.heap i := by
  simp only [RBTree.sideOf, RBTree.parent, RBTree.left, RBTree.right] at hp ha hb hside
  rw [hp] at hside
  simp only [takePlace, relinkParent, RBTree.setChild, RBTree.setParent, RBTree.setRed, RBTree.parent,
    RBTree.left, RBTree.right, RBTree.red, RBTree.sideOf]
  simp only [heap_modify, hzy, if_false, ha, hb, hp, hza, hzb, hpa, hpb, hpy, hside]
  by_cases hip : i = p
  · simp [hip]
  · by_cases hiy : i = y
    · subst hiy
      simp [hip, hya, hyb, RBNode.setRed, RBNode.setParent, RBNode.setChild]
    · by_cases hib : i = b
      · subst hib
        by_cases hab : i = a
        · subst hab
          simp [hip, hiy, RBNode.setParent]
        · simp [hip, hiy, hab]
      · by_cases hia : i = a
        · subst hia
          simp [hip, hiy, hib]
        · simp [hip, hiy, hib, hia]

theorem Rep.take_place {y : ℕ} (hr : Rep t (plug c (.node red l e r)))
    (hy : y ∉ t.root :: t.nil :: ids (plug c (.node red l e r))) (hfresh : y < t.fresh) :
    Rep (takePlace t e.id y) (plug c (.node red l ⟨y, (t.heap y).key, (t.heap y).value⟩ r)) := by
  have hmem : ∀ i, i ∈ ids (.node red l e r) ↔ i = e.id ∨ i ∈ ids l ∨ i ∈ ids r := fun i => mem_ids_mk .left
  have hnd := (ids_mk_perm .left red l e r).nodup_iff.mp hr.ids_nodup
  simp only [List.nodup_cons, List.nodup_append, List.mem_append, not_or] at hnd
  obtain ⟨⟨hel, her⟩, hndl, hndr, hlr⟩ := hnd
  have hy' : y ≠ t.root ∧ y ≠ t.nil ∧ y ∉ ids (.node red l e r) ∧ y ∉ ctxIds c := by
    simpa [(ids_plug_perm c _).mem_iff] using hy
  obtain ⟨hyroot, hynil, hys, hyc⟩ := hy'
  rw [hmem] at hys
  simp only [not_or] at hys
  obtain ⟨hye, hyl, hyr⟩ := hys
  -- a child is a node of its subtree or the nil sentinel
  have hsep : ∀ {s : Shape K V} {i : ℕ}, i ∉ ids s → i ≠ t.nil → i ≠ ptr t.nil s := by
    rintro s i hi hin rfl
    by_cases hleaf : s = .leaf
    · subst hleaf
      exact hin rfl
    · exact hi (mem_ptr_of_ne_leaf hleaf)
  have hen := hr.ne_nil (.inl ((hmem e.id).mpr (.inl rfl)))
  have hpl : parentId t.root c ≠ ptr t.nil l :=
    hsep (fun hi => hr.ne_parent ((hmem _).mpr (.inr (.inl hi))) rfl) hr.parent_ne_nil
  have hpr : parentId t.root c ≠ ptr t.nil r :=
    hsep (fun hi => hr.ne_parent ((hmem _).mpr (.inr (.inr hi))) rfl) hr.parent_ne_nil
  have hpy : parentId t.root c ≠ y := by
    rintro rfl
    cases c with
    | nil => exact hyroot rfl
    | cons f c => exact hyc (parentId_mem f c)
  obtain ⟨hn, hl, hu⟩ := hr.focus
  have hp : t.parent e.id = parentId t.root c := by rw [RBTree.parent, hn]
  have hside : t.sideOf e.id = side c := hr.sideOf_eq hp (.inl (by simp))
  have hheap := takePlace_heap (t := t) (z := e.id) (y := y) hp (show t.left e.id = ptr t.nil l by rw [RBTree.left, hn])
    (show t.right e.id = ptr t.nil r by rw [RBTree.right, hn]) hside (Ne.symm hye) (hsep hel hen) (hsep her hen)
    hpl hpr hpy (hsep hyl hynil) (hsep hyr hynil)
  have hnil : ∃ q, (takePlace t e.id y).heap t.nil = (t.heap t.nil).setParent q := by
    rw [hheap, if_neg hr.parent_ne_nil.symm, if_neg (Ne.symm hynil)]
    split
    · exact ⟨y, rfl⟩
    · exact ⟨(t.heap t.nil).parent, rfl⟩
  have hkeep : ∀ i, i ≠ parentId t.root c → i ≠ ptr t.nil l → i ≠ ptr t.nil r → i ≠ y →
      (takePlace t e.id y).heap i = t.heap i := by
    intro i h₁ h₂ h₃ h₄
    rw [hheap, if_neg h₁, if_neg (not_or.mpr ⟨h₂, h₃⟩), if_neg h₄]
  have hperm : ∀ e' : Entry K V, (t.root :: t.nil :: (ids (.node red l e' r) ++ ctxIds c)).Perm
      (e'.id :: t.root :: t.nil :: ((ids l ++ ids r) ++ ctxIds c)) := by
    intro e'
    have h := (((ids_mk_perm .left red l e' r).append_right (ctxIds c)).cons t.nil).cons t.root
    exact h.trans (((List.Perm.swap _ _ _).cons _).trans (List.Perm.swap _ _ _))
  refine hr.replace ⟨rfl, rfl, ?_, ?_, ⟨?_, ?_, ?_⟩, hnil⟩ ?_ ?_
  · intro i hi hip
    have hin : i ≠ t.nil ∧ i ∉ ids l ∧ i ∉ ids r ∧ i ≠ y := by
      rcases List.mem_cons.mp hi with rfl | hi
      · exact ⟨hr.root_ne_nil, fun h => hr.ne_root (.inl ((hmem _).mpr (.inr (.inl h)))) rfl,
          fun h => hr.ne_root (.inl ((hmem _).mpr (.inr (.inr h)))) rfl, Ne.symm hyroot⟩
      · refine ⟨hr.ne_nil (.inr hi), fun h => hr.disjoint ((hmem _).mpr (.inr (.inl h))) hi,
          fun h => hr.disjoint ((hmem _).mpr (.inr (.inr h))) hi, ?_⟩
        rintro rfl
        exact hyc hi
    exact hkeep i hip (hsep hin.2.1 hin.1) (hsep hin.2.2.1 hin.1) hin.2.2.2
  · rw [hheap, if_pos rfl, ptr]
  · dsimp only
    rw [hheap, if_neg hpy.symm, if_neg (not_or.mpr ⟨hsep hyl hynil, hsep hyr hynil⟩), if_pos rfl, RBTree.red, hn]
  · refine hl.reparent hndl (fun i hi hne => ?_) fun hleaf => ?_
    · have hin := hr.ne_nil (.inl ((hmem i).mpr (.inr (.inl hi))))
      refine hkeep i (hr.ne_parent ((hmem i).mpr (.inr (.inl hi)))) hne
        (hsep (fun h => hlr i hi i h rfl) hin) ?_
      rintro rfl
      exact hyl hi
    · rw [hheap, if_neg hpl.symm, if_pos (.inl rfl)]
  · refine hu.reparent hndr (fun i hi hne => ?_) fun hleaf => ?_
    · have hin := hr.ne_nil (.inl ((hmem i).mpr (.inr (.inr hi))))
      refine hkeep i (hr.ne_parent ((hmem i).mpr (.inr (.inr hi))))
        (hsep (fun h => hlr i h i hi rfl) hin) hne ?_
      rintro rfl
      exact hyr hi
    · rw [hheap, if_neg hpr.symm, if_pos (.inr rfl)]
  · rw [(hperm _).nodup_iff, List.nodup_cons]
    refine ⟨?_, (List.nodup_cons.mp ((hperm e).nodup_iff.mp hr.nodup_place)).2⟩
    simp [hyroot, hynil, hyl, hyr, hyc]
  · intro i hi
    rcases List.mem_cons.mp ((hperm _).mem_iff.mp hi) with rfl | hi
    · exact hfresh
    · refine hr.fresh i ((((ids_plug_perm c _).cons _).cons _).mem_iff.mpr ?_)
      exact (hperm e).mem_iff.mpr (List.mem_cons_of_mem _ hi)

theorem Rep.resize (hr : Rep t T) (n : ℕ) : Rep { t with size := n } T :=
  ⟨hr.sub, hr.top, hr.root_right, hr.root_black, hr.root_key, hr.root_value, hr.nil_black, hr.nil_key,
    hr.nil_value, hr.nodup, hr.fresh⟩

/-- Unlinking a node and, if it was black, fixing the place it leaves. -/
theorem splice_fix (hr : Rep t (plug c (.mk d red .leaf y X))) (hbal : Balanced (plug c (.mk d red .leaf y X)) n)
    (htop : (plug c (.mk d red .leaf y X)).isRed = false) :
    ∃ t' T' m, fixIfBlack (spliceOut t y.id (ptr t.nil X)) y.id (ptr t.nil X) = some t' ∧
      Rearranged (spliceOut t y.id (ptr t.nil X)) (plug c X) t' T' ∧ Balanced T' m ∧ T'.isRed = false := by
  obtain ⟨hr', hparent, hframe, hy⟩ := hr.splice
  obtain ⟨k, hopen, hk, _⟩ := Open.of_plug hbal htop
  have hred : (spliceOut t y.id (ptr t.nil X)).red y.id = red := by
    rw [RBTree.red, hy, hr.node d, Entry.red_node]
  rw [fixIfBlack, hred]
  cases red with
  | true =>
    obtain ⟨_, hX, _, hXb⟩ := (balanced_red_iff d).mp hk
    obtain ⟨m, hbal', htop'⟩ := hopen.plug_balanced hX fun h => absurd (h.symm.trans hXb) (by simp)
    exact ⟨_, _, m, rfl, .refl hr', hbal', htop'⟩
  | false =>
    obtain ⟨m, rfl, _, hX⟩ := balanced_black_pos d hk
    have hst : ShortAt c X m := ⟨fun _ => hX, fun h => hX.paint_red h, hopen⟩
    have hfix := removeFix_spec hr' hst (by rw [hframe.nil, hframe.root]; exact hparent) hr'.depth_lt
    rw [hframe.nil] at hfix
    exact hfix

/-- What a removal does to the entries, and what it returns. -/
inductive RemoveOutcome (fns : RBTreeFns K V) (key : Option K) (l l' : List (Entry K V)) : Bool → Prop where
  | absent : (∀ e ∈ l, fns.keyCompare e.key key ≠ 0) → l' = l → RemoveOutcome fns key l l' false
  | removed {A B : List (Entry K V)} {e : Entry K V} : l = A ++ e :: B → fns.keyCompare key e.key = 0 →
      l' = A ++ B → RemoveOutcome fns key l l' true

theorem remove_single (h : Holds fns t (plug c (.mk d red .leaf e X))) (hget : getNode fns t key = some e.id) :
    ∃ t' T', rbTreeRemove fns t key = some (t', true) ∧ Rep t' T' ∧ (∃ m, Balanced T' m) ∧ T'.isRed = false ∧
      T'.inorder = before c ++ X.inorder ++ after c ∧ t'.size = t.size - 1 := by
  have hr := h.rep
  obtain ⟨n, hbal⟩ := h.balanced
  obtain ⟨t₁, T', m, heq, hre, hbal', htop'⟩ := splice_fix hr hbal h.top_black
  have hn := hr.node d
  have hne : e.id ≠ t.nil := hr.ne_nil (.inl ((mem_ids_mk d).mpr (.inl rfl)))
  have hempty : t.left e.id = t.nil ∨ t.right e.id = t.nil := by
    rw [RBTree.left, RBTree.right, hn]
    cases d with
    | left => exact .inl rfl
    | right => exact .inr rfl
  have hchild : (if t.left e.id = t.nil then t.right e.id else t.left e.id) = ptr t.nil X := by
    have hX := Rep.ptr_nil_iff (c := ⟨d.opp, red, e, .leaf⟩ :: c) (s := X) (by rw [plug_far]; exact hr)
    rw [RBTree.left, RBTree.right, hn]
    cases d with
    | left => exact if_pos rfl
    | right =>
      by_cases hl : X = .leaf
      · subst hl
        exact if_pos rfl
      · exact if_neg fun hx => hl (hX.mp hx)
  obtain ⟨_, _, hframe, _⟩ := hr.splice
  refine ⟨{ t₁ with size := t₁.size - 1 }, T', ?_, hre.rep.resize _, ⟨m, hbal'⟩, htop', ?_, ?_⟩
  · simp only [rbTreeRemove, hr.nilBlack, Option.bind_eq_bind, Option.bind_some, hget, hne, if_false, if_pos hempty,
      hchild, ne_eq, not_true_eq_false, heq, hre.rep.nilBlack, Option.pure_def]
  · rw [hre.order, inorder_plug, entries]
  · change t₁.size - 1 = t.size - 1
    rw [hre.frame.size, hframe.size]

/-- A node with two subtrees is replaced by the first node of its right one. -/
theorem remove_double (h : Holds fns t (plug c (.node red l e r))) (hl : l ≠ .leaf) (hr' : r ≠ .leaf)
    (hget : getNode fns t key = some e.id) :
    ∃ t' T', rbTreeRemove fns t key = some (t', true) ∧ Rep t' T' ∧ (∃ m, Balanced T' m) ∧ T'.isRed = false ∧
      T'.inorder = before c ++ l.inorder ++ (r.inorder ++ after c) ∧ t'.size = t.size - 1 := by
  have hr := h.rep
  have hn := Rep.node .left (a := l) (b := r) (e := e) hr
  have hrr : Rep t (plug (⟨.right, red, e, l⟩ :: c) r) := hr
  have hlen : r.inorder.length ≤ t.fresh := by
    have h₁ := hr.length_lt
    rw [inorder_plug, entries, Tree.inorder_node] at h₁
    simp only [List.length_append, List.length_cons] at h₁
    omega
  obtain ⟨c', yred, y, X, R, hplug, hnext, hrin, hbef, haft⟩ := leftmost_spec r _ t.fresh hrr hr' hlen
  have hry : Rep t (plug c' (.mk .left yred .leaf y X)) := by rw [hplug]; exact hrr
  obtain ⟨n, hbal⟩ := h.balanced
  have hbaly : Balanced (plug c' (.mk .left yred .leaf y X)) n := by rw [hplug]; exact hbal
  have htopy : (plug c' (.mk .left yred .leaf y X)).isRed = false := by rw [hplug]; exact h.top_black
  obtain ⟨hr₁, _, hframe₁, hy₁⟩ := hry.splice
  obtain ⟨t₂, T₂, m, heq, hre, hbal₂, htop₂⟩ := splice_fix hry hbaly htopy
  -- the fix-up kept the order, so the removed node still sits between its neighbours
  have hin₂ : T₂.inorder = (before c ++ l.inorder) ++ e :: (R ++ after c) := by
    rw [hre.order, inorder_plug, entries, List.append_assoc, haft, hbef]
    simp [before, after]
  obtain ⟨c₃, red₃, l₃, r₃, rfl, hA, hB⟩ := exists_place T₂ hin₂
  have hyout : y.id ∉ t.root :: t.nil :: ids (plug c' X) := by
    have hperm := ((((ids_mk_perm .left yred .leaf y X).append_right (ctxIds c')).cons t.nil).cons t.root)
    have hnd := hperm.nodup_iff.mp hry.nodup_place
    simp only [ids_leaf, List.nil_append, List.cons_append, List.nodup_cons, List.mem_cons, not_or] at hnd
    simp only [List.mem_cons, (ids_plug_perm c' X).mem_iff, not_or]
    exact ⟨Ne.symm hnd.1.2.1, Ne.symm hnd.2.1.1, hnd.2.2.1⟩
  have hyn : t₂.heap y.id = t.heap y.id := by
    rw [hre.off y.id, hy₁]
    rw [hframe₁.root]
    intro hi
    rcases List.mem_cons.mp hi with hi | hi
    · exact hyout (hi ▸ List.mem_cons_self)
    · exact hyout (List.mem_cons_of_mem _ (List.mem_cons_of_mem _ hi))
  have hfresh : y.id < t₂.fresh := by
    rw [hre.frame.fresh, hframe₁.fresh]
    refine hry.fresh y.id (List.mem_cons_of_mem _ (List.mem_cons_of_mem _ ?_))
    exact (ids_plug_perm c' _).mem_iff.mpr (List.mem_append_left _ ((mem_ids_mk .left).mpr (.inl rfl)))
  have hr₃ := hre.rep.take_place (y := y.id)
    (by rw [hre.ids_eq, hre.frame.root, hre.frame.nil, hframe₁.root, hframe₁.nil]; exact hyout) hfresh
  have hyentry : (⟨y.id, (t₂.heap y.id).key, (t₂.heap y.id).value⟩ : Entry K V) = y := by
    rw [hyn, hry.node .left]
    rfl
  rw [hyentry] at hr₃
  obtain ⟨m₃, hbal₃, htop₃⟩ := plug_payload y hbal₂ htop₂
  have hne : e.id ≠ t.nil := hr.node_ne_nil
  have hyne : y.id ≠ t.nil := fun hi => hyout (hi ▸ List.mem_cons_of_mem _ List.mem_cons_self)
  have hlnil := Rep.ptr_nil_iff (c := ⟨.left, red, e, r⟩ :: c) (s := l) hr
  have hrnil := hrr.ptr_nil_iff
  have hleft : t.left e.id = ptr t.nil l := by rw [RBTree.left, hn]; rfl
  have hright : t.right e.id = ptr t.nil r := by rw [RBTree.right, hn]; rfl
  have hboth : ¬ (t.left e.id = t.nil ∨ t.right e.id = t.nil) := by
    rw [hleft, hright, hlnil, hrnil]
    exact not_or.mpr ⟨hl, hr'⟩
  have hyleft : t.left y.id = t.nil := by rw [RBTree.left, hry.node .left]; rfl
  have hyright : t.right y.id = ptr t.nil X := by rw [RBTree.right, hry.node .left]; rfl
  have hzy : e.id ≠ y.id := by
    intro heq'
    refine hyout (List.mem_cons_of_mem _ (List.mem_cons_of_mem _ ?_))
    rw [← hre.ids_eq, ← heq']
    exact (ids_plug_perm c₃ _).mem_iff.mpr (List.mem_append_left _ ((mem_ids_mk .left).mpr (.inl rfl)))
  have hnextz : next t e.id = some y.id := by
    rw [next, if_pos, hright]
    · exact hnext
    · rw [hright, ne_eq, hrnil]
      exact hr'
  refine ⟨{ takePlace t₂ e.id y.id with size := (takePlace t₂ e.id y.id).size - 1 },
    plug c₃ (.node red₃ l₃ y r₃), ?_, hr₃.resize _, ⟨m₃, hbal₃⟩, htop₃, ?_, ?_⟩
  · simp only [rbTreeRemove, hr.nilBlack, Option.bind_eq_bind, Option.bind_some, hget, hne, if_false, if_neg hboth,
      hnextz, hyleft, if_true, hyright, ne_eq, hzy, not_false_eq_true, hframe₁.nil, hyne, hr₁.nilBlack, heq,
      hr₃.nilBlack, Option.pure_def]
  · rw [inorder_plug, entries, Tree.inorder_node, hrin, ← hA]
    simp [hB]
  · change t₂.size - 1 = t.size - 1
    rw [hre.frame.size, hframe₁.size]

theorem rbTreeRemove_spec (law : fns.Lawful) (h : Holds fns t T) (key : Option K) :
    ∃ t' T' b, rbTreeRemove fns t key = some (t', b) ∧ Holds fns t' T' ∧
      RemoveOutcome fns key T.inorder T'.inorder b := by
  have hnil := h.rep.nilBlack
  cases h.search law key with
  | @absent c hT hbet _ hg =>
    have hget : getNode fns t key = some t.nil := by
      simp only [getNode, hnil, Option.bind_eq_bind, Option.bind_some, hg]
    refine ⟨t, T, false, ?_, h, .absent ?_ rfl⟩
    · simp only [rbTreeRemove, hnil, Option.bind_eq_bind, Option.bind_some, hget, if_true, Option.pure_def]
    · rw [hT, inorder_plug, entries, Tree.inorder_leaf, List.append_nil]
      exact hbet.not_equal law
  | @present c red l r e hT hk _ hg =>
    have hget : getNode fns t key = some e.id := by
      simp only [getNode, hnil, Option.bind_eq_bind, Option.bind_some, hg]
    subst hT
    have hin : (plug c (.node red l e r)).inorder = (before c ++ l.inorder) ++ e :: (r.inorder ++ after c) := by
      rw [inorder_plug, entries, Tree.inorder_node]
      simp
    obtain ⟨t', T', heq, hr', hbal', htop', hin', hsize'⟩ : ∃ t' T', rbTreeRemove fns t key = some (t', true) ∧
        Rep t' T' ∧ (∃ m, Balanced T' m) ∧ T'.isRed = false ∧
        T'.inorder = (before c ++ l.inorder) ++ (r.inorder ++ after c) ∧ t'.size = t.size - 1 := by
      by_cases hl : l = .leaf
      · subst hl
        obtain ⟨t', T', heq, hrest⟩ := remove_single (d := .left) h hget
        refine ⟨t', T', heq, ?_⟩
        simpa using hrest
      · by_cases hr : r = .leaf
        · subst hr
          obtain ⟨t', T', heq, hrest⟩ := remove_single (d := .right) h hget
          refine ⟨t', T', heq, ?_⟩
          simpa using hrest
        · exact remove_double h hl hr hget
    refine ⟨t', T', true, heq, ⟨hr', hbal', htop', ?_, ?_⟩, .removed hin hk hin'⟩
    · rw [hin']
      exact ascending_remove (hin ▸ h.ascending)
    · rw [hsize', h.size, hin', hin]
      simp only [List.length_append, List.length_cons]
      omega

end Remove

/-! ## Lookup and clearing -/

section Rest

variable {fns : RBTreeFns K V} {t : RBTree K V} {T : Shape K V}

theorem rbTreeGet_spec (law : fns.Lawful) (h : Holds fns t T) (key : Option K) :
    (∃ e ∈ T.inorder, fns.keyCompare e.key key = 0 ∧ rbTreeGet fns t key = some e.value) ∨
      ((∀ e ∈ T.inorder, fns.keyCompare e.key key ≠ 0) ∧ rbTreeGet fns t key = some none) := by
  have hnil := h.rep.nilBlack
  cases h.search law key with
  | @absent c hT hbet _ hg =>
    refine .inr ⟨?_, ?_⟩
    · rw [hT, inorder_plug, entries, Tree.inorder_leaf, List.append_nil]
      exact hbet.not_equal law
    · simp [rbTreeGet, getNode, hnil, hg]
  | @present c red l r e hT hk _ hg =>
    subst hT
    have hn := Rep.node .left (a := l) (b := r) (e := e) h.rep
    have hne := h.rep.node_ne_nil
    refine .inl ⟨e, ?_, law.equal_symm hk, ?_⟩
    · rw [inorder_plug, entries, Tree.inorder_node]
      simp
    · simp only [rbTreeGet, getNode, hnil, Option.bind_eq_bind, Option.bind_some, hg, ne_eq, hne,
        not_false_eq_true, if_true, Option.pure_def, hn, Entry.value_node]

theorem reset_holds (hne : t.root ≠ t.nil) (hroot : t.root < t.fresh) (hnil : t.nil < t.fresh) :
    Holds fns (reset t) .leaf := by
  have hr : (reset t).heap t.root = sentinel t.nil := by
    rw [reset]
    simp
  have hn : (reset t).heap t.nil = sentinel t.nil := by
    rw [reset]
    simp [Ne.symm hne]
  refine ⟨⟨trivial, ?_, ?_, ?_, ?_, ?_, ?_, ?_, ?_, ?_, ?_⟩, ⟨0, .leaf⟩, rfl, List.Pairwise.nil, rfl⟩
  · exact congrArg RBNode.left hr
  · exact congrArg RBNode.right hr
  · exact congrArg RBNode.red hr
  · exact congrArg RBNode.key hr
  · exact congrArg RBNode.value hr
  · exact congrArg RBNode.red hn
  · exact congrArg RBNode.key hn
  · exact congrArg RBNode.value hn
  · change [t.root, t.nil].Nodup
    simp [hne]
  · intro i hi
    change i ∈ [t.root, t.nil] at hi
    change i < t.fresh
    simp only [List.mem_cons, List.not_mem_nil, or_false] at hi
    rcases hi with rfl | rfl
    · exact hroot
    · exact hnil

theorem rbTreeNew_holds : Holds fns rbTreeNew .leaf :=
  reset_holds (show (1 : ℕ) ≠ 0 by decide) (show (1 : ℕ) < 2 by decide) (show (0 : ℕ) < 2 by decide)

theorem rbTreeClear_holds (hr : Rep t T) : Holds fns (rbTreeClear t) .leaf := by
  have hnil : t.nil < t.fresh := hr.fresh t.nil (List.mem_cons_of_mem _ List.mem_cons_self)
  exact reset_holds hnil.ne' (Nat.lt_succ_self _) (Nat.lt_succ_of_lt hnil)

end Rest

end Libntech.Containers
