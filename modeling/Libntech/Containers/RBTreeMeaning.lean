import Libntech.Containers.RBTreeOps
import Libntech.Lib.FiniteMap
import Libntech.Lib.Simulation

/-! # An RBTree is a finite map, and stays a red-black tree

The reference is a finite map over classes of keys the comparator finds equal; values go in as copies.
Below it, `RedBlackHeap` says in terms of pointers what the tree must look like in every state a run can
reach, and that `VerifyTree_` agrees.
-/
namespace Libntech.Containers
open Lib Lib.RedBlack
open Containers.RBTree
set_option autoImplicit false

variable {K V : Type}

/-! ## Calls -/

inductive RBTreeCall (K V : Type) where
  | put (key : Option K) (value : Option V)
  | get (key : Option K)
  | remove (key : Option K)
  | clear
  | size

inductive RBTreeReply (V : Type) where
  | flag (b : Bool)
  | value (v : Option V)
  | done
  | count (n : ℕ)

def rbTreeStep (fns : RBTreeFns K V) (t : RBTree K V) : RBTreeCall K V → Option (RBTree K V × RBTreeReply V)
  | .put key value => (rbTreePut fns t key value).map fun r => (r.1, .flag r.2)
  | .get key => (rbTreeGet fns t key).map fun v => (t, .value v)
  | .remove key => (rbTreeRemove fns t key).map fun r => (r.1, .flag r.2)
  | .clear => some (rbTreeClear t, .done)
  | .size => some (t, .count (rbTreeSize t))

section Map
open Classical

/-- The reference map; an absent key reads as `NULL`, like a stored `NULL`. -/
noncomputable def treeMapStep (s : Setoid (Option K)) (valueCopy : Option V → Option V)
    (m : KeyMap s (Option V)) : RBTreeCall K V → Option (KeyMap s (Option V) × RBTreeReply V)
  | .put key value =>
    some (m.insert (Quotient.mk s key) (valueCopy value), .flag (decide (Quotient.mk s key ∈ m)))
  | .get key => some (m, .value (m.lookup (Quotient.mk s key)).join)
  | .remove key => some (m.erase (Quotient.mk s key), .flag (decide (Quotient.mk s key ∈ m)))
  | .clear => some (∅, .done)
  | .size => some (m, .count m.keys.card)

def pairs (l : List (Entry K V)) : List (Option K × Option V) := l.map fun e => (e.key, e.value)

variable {fns : RBTreeFns K V} (law : fns.Lawful)

/-- The tree in the heap has exactly the map's entries. -/
def TreeTracks (t : RBTree K V) (m : KeyMap law.setoid (Option V)) : Prop :=
  ∃ T, Holds fns t T ∧ Tracks law.setoid (pairs T.inorder) m

variable {l : List (Entry K V)} {key : Option K} {m : KeyMap law.setoid (Option V)}

theorem no_pair (h : ∀ e ∈ l, fns.keyCompare e.key key ≠ 0) : ∀ p ∈ pairs l, ¬ law.setoid.r p.1 key := by
  intro p hp
  obtain ⟨e, he, rfl⟩ := List.mem_map.mp hp
  exact h e he

theorem put_tracks {value : Option V} {l' : List (Entry K V)} {b : Bool} (h : Tracks law.setoid (pairs l) m)
    (ho : PutOutcome fns key value l l' b) :
    Tracks law.setoid (pairs l') (m.insert (Quotient.mk _ key) (fns.valueCopy value)) ∧
      b = decide (Quotient.mk law.setoid key ∈ m) := by
  have hclass : Quotient.mk law.setoid (fns.keyCopy key) = Quotient.mk law.setoid key :=
    Tracks.class_eq.mpr (law.copy_equal key)
  cases ho with
  | @replaced A B e hl hk hl' =>
    subst hl hl'
    rw [pairs, List.map_append, List.map_cons] at h
    refine ⟨?_, ?_⟩
    · rw [pairs, List.map_append, List.map_cons, ← hclass]
      exact h.overwrite (law.equal_symm (law.equal_trans (law.copy_equal key) hk))
    · rw [eq_comm, decide_eq_true_iff, h.mem_iff]
      exact ⟨(e.key, e.value), by simp, law.equal_symm hk⟩
  | @added A B i hl hno hl' =>
    subst hl hl'
    have hno' := no_pair law hno
    refine ⟨?_, ?_⟩
    · rw [pairs, List.map_append, List.map_cons, ← hclass]
      rw [pairs, List.map_append] at h
      refine h.add fun p hp hr => ?_
      exact hno' p (by rw [pairs, List.map_append]; exact hp) (law.equal_trans hr (law.copy_equal key))
    · rw [eq_comm, decide_eq_false_iff_not, h.mem_iff]
      rintro ⟨p, hp, hr⟩
      exact hno' p hp hr

theorem remove_tracks {l' : List (Entry K V)} {b : Bool} (h : Tracks law.setoid (pairs l) m)
    (ho : RemoveOutcome fns key l l' b) :
    Tracks law.setoid (pairs l') (m.erase (Quotient.mk _ key)) ∧
      b = decide (Quotient.mk law.setoid key ∈ m) := by
  cases ho with
  | absent hno hl' =>
    subst hl'
    have hno' := no_pair law hno
    refine ⟨by rw [h.erase_absent hno']; exact h, ?_⟩
    rw [eq_comm, decide_eq_false_iff_not, h.mem_iff]
    rintro ⟨p, hp, hr⟩
    exact hno' p hp hr
  | @removed A B e hl hk hl' =>
    subst hl hl'
    rw [pairs, List.map_append, List.map_cons] at h
    refine ⟨?_, ?_⟩
    · rw [pairs, List.map_append]
      exact h.drop (law.equal_symm hk)
    · rw [eq_comm, decide_eq_true_iff, h.mem_iff]
      exact ⟨(e.key, e.value), by simp, law.equal_symm hk⟩

theorem get_eq_lookup {t : RBTree K V} {T : Shape K V} (h : Holds fns t T) (htr : Tracks law.setoid (pairs T.inorder) m)
    (key : Option K) :
    rbTreeGet fns t key = some (m.lookup (Quotient.mk _ key)).join := by
  rcases rbTreeGet_spec law h key with ⟨e, he, hk, hget⟩ | ⟨hno, hget⟩
  · have hmem : (e.key, e.value) ∈ pairs T.inorder := List.mem_map.mpr ⟨e, he, rfl⟩
    rw [hget, htr.lookup_of_mem hmem hk]
    rfl
  · rw [hget, htr.lookup_absent (no_pair law hno)]
    rfl

theorem rbTreeStep_matches (t : RBTree K V) (m : KeyMap law.setoid (Option V)) (call : RBTreeCall K V)
    (h : TreeTracks law t m) :
    Matches (TreeTracks law) (rbTreeStep fns t call) (treeMapStep law.setoid fns.valueCopy m call) := by
  obtain ⟨T, h, htr⟩ := h
  cases call with
  | put key value =>
    obtain ⟨t', T', b, heq, h', ho⟩ := rbTreePut_spec law h key value
    obtain ⟨htr', rfl⟩ := put_tracks law htr ho
    simp only [rbTreeStep, heq, Option.map_some, treeMapStep]
    exact ⟨⟨T', h', htr'⟩, rfl⟩
  | get key =>
    simp only [rbTreeStep, get_eq_lookup law h htr, Option.map_some, treeMapStep]
    exact ⟨⟨T, h, htr⟩, rfl⟩
  | remove key =>
    obtain ⟨t', T', b, heq, h', ho⟩ := rbTreeRemove_spec law h key
    obtain ⟨htr', rfl⟩ := remove_tracks law htr ho
    simp only [rbTreeStep, heq, Option.map_some, treeMapStep]
    exact ⟨⟨T', h', htr'⟩, rfl⟩
  | clear => exact ⟨⟨.leaf, rbTreeClear_holds h.rep, Tracks.nil⟩, rfl⟩
  | size =>
    refine ⟨⟨T, h, htr⟩, ?_⟩
    rw [rbTreeSize, h.size, htr.card_eq, pairs, List.length_map]

/-- Every sequence of calls on a new tree runs through, and gets the replies of one finite map. -/
theorem rbTree_refines_finite_map (calls : List (RBTreeCall K V)) :
    ∃ t m replies, run (rbTreeStep fns) rbTreeNew calls = some (t, replies) ∧
      run (treeMapStep law.setoid fns.valueCopy) ∅ calls = some (m, replies) := by
  obtain ⟨t, m, replies, ht, hm, _⟩ := run_matches_total (rbTreeStep_matches law)
    (fun m call => by cases call <;> exact ⟨_, _, rfl⟩) calls rbTreeNew ∅ ⟨.leaf, rbTreeNew_holds, Tracks.nil⟩
  exact ⟨t, m, replies, ht, hm⟩

end Map

/-- Numbers by size, with `NULL` below them all. -/
def numberFns : RBTreeFns ℕ ℕ where
  keyCopy := id
  keyCompare a b := (a.elim 0 (· + 1) : ℤ) - (b.elim 0 (· + 1) : ℤ)
  valueCopy := id

theorem numberFns_lawful : numberFns.Lawful where
  compare_swap a b := by
    dsimp only [numberFns]
    omega
  compare_trans a b c h h' := by
    dsimp only [numberFns] at h h' ⊢
    omega
  copy_equal k := by
    dsimp only [numberFns, id]
    omega

/-- Enough insertions and removals to rotate on both sides. -/
def numberCalls : List (RBTreeCall ℕ ℕ) :=
  (List.range 12).map (fun n => .put (some (5 * n % 12)) (some n)) ++
    (List.range 6).map (fun n => .remove (some (7 * n % 12))) ++ [.get (some 3), .put none none, .clear, .size]

theorem rbTree_refines_finite_map_numbers :
    ∃ t m replies, run (rbTreeStep numberFns) rbTreeNew numberCalls = some (t, replies) ∧
      run (treeMapStep numberFns_lawful.setoid numberFns.valueCopy) ∅ numberCalls = some (m, replies) :=
  rbTree_refines_finite_map numberFns_lawful numberCalls

/-! ## The shape of the heap -/

/-- `j` is a node of the subtree at `i`. -/
inductive Below (t : RBTree K V) : ℕ → ℕ → Prop where
  | self {i : ℕ} : i ≠ t.nil → Below t i i
  | child {i j : ℕ} (d : Dir) : i ≠ t.nil → Below t (t.child d i) j → Below t i j

/-- A path from `i` down to nil that crosses `n` black nodes. -/
inductive BlackPath (t : RBTree K V) : ℕ → ℕ → Prop where
  | nil : BlackPath t t.nil 0
  | step {i n : ℕ} (d : Dir) : i ≠ t.nil → BlackPath t (t.child d i) n →
      BlackPath t i (if t.red i then n else n + 1)

structure RedBlackHeap (fns : RBTreeFns K V) (t : RBTree K V) : Prop where
  root_black : t.red t.root = false
  nil_black : t.red t.nil = false
  top_black : t.red (t.left t.root) = false
  red_children : ∀ i d, Below t (t.left t.root) i → t.red i = true → t.red (t.child d i) = false
  black_count : ∃ n, BlackPath t (t.left t.root) n ∧ ∀ m, BlackPath t (t.left t.root) m → m = n
  left_smaller : ∀ i j, Below t (t.left t.root) i → Below t (t.left i) j →
    fns.keyCompare (t.heap j).key (t.heap i).key < 0
  right_greater : ∀ i j, Below t (t.left t.root) i → Below t (t.right i) j →
    fns.keyCompare (t.heap i).key (t.heap j).key < 0
  top_parent : t.left t.root ≠ t.nil → t.parent (t.left t.root) = t.root
  child_parent : ∀ i d, Below t (t.left t.root) i → t.child d i ≠ t.nil → t.parent (t.child d i) = i
  verified : verifyTree t = true

section Shape

variable {fns : RBTreeFns K V} {t : RBTree K V} {T : Shape K V}

theorem Rep.child_place {c : Ctx (Entry K V)} {red : Bool} {l r : Shape K V} {e : Entry K V}
    (hr : Rep t (plug c (.node red l e r))) (d : Dir) :
    ∃ f s, plug (f :: c) s = plug c (.node red l e r) ∧ t.child d e.id = ptr t.nil s ∧ f.a = e ∧
      (s = l ∨ s = r) := by
  cases d with
  | left => exact ⟨⟨.left, red, e, r⟩, l, rfl, hr.left_node, rfl, .inl rfl⟩
  | right => exact ⟨⟨.right, red, e, l⟩, r, rfl, hr.right_node, rfl, .inr rfl⟩

theorem Below.place {i j : ℕ} (h : Below t i j) : ∀ {c : Ctx (Entry K V)} {s : Shape K V}, Rep t (plug c s) →
    i = ptr t.nil s → ∃ c' red l e r, plug c' (.node red l e r) = plug c s ∧ j = e.id ∧ e ∈ s.inorder := by
  induction h with
  | self hne =>
    intro c s hr hi
    cases s with
    | leaf => exact absurd hi hne
    | node red l e r => exact ⟨c, red, l, e, r, rfl, hi, by simp⟩
  | child d hne _ ih =>
    intro c s hr hi
    cases s with
    | leaf => exact absurd hi hne
    | node red l e r =>
      rw [hi] at ih
      obtain ⟨f, s, hplug, hc, _, hs⟩ := hr.child_place d
      obtain ⟨c', red', l', e', r', hp, hj, he⟩ := ih (c := f :: c) (s := s) (by rw [hplug]; exact hr) hc
      refine ⟨c', red', l', e', r', hp.trans hplug, hj, ?_⟩
      rcases hs with rfl | rfl
      · exact List.mem_append_left _ he
      · exact List.mem_append_right _ (List.mem_cons_of_mem _ he)

theorem blackPath_unique {i m : ℕ} (h : BlackPath t i m) : ∀ {c : Ctx (Entry K V)} {s : Shape K V} {n : ℕ},
    Rep t (plug c s) → Balanced s n → i = ptr t.nil s → m = n := by
  induction h with
  | nil =>
    intro c s n hr hbal hi
    rw [hr.ptr_nil_iff.mp hi.symm] at hbal
    cases hbal
    rfl
  | step d hne _ ih =>
    intro c s n hr hbal hi
    cases s with
    | leaf => exact absurd hi hne
    | node red l e r =>
      have hred := hr.red_ptr
      obtain ⟨f, s, hplug, hc, _, hs⟩ := hr.child_place d
      rw [hi] at ih ⊢
      rw [hred]
      cases hbal with
      | red hl hr' _ _ =>
        refine ih (c := f :: c) (s := s) (by rw [hplug]; exact hr) ?_ hc
        rcases hs with rfl | rfl
        · exact hl
        · exact hr'
      | black hl hr' =>
        refine congrArg (· + 1) (ih (c := f :: c) (s := s) (by rw [hplug]; exact hr) ?_ hc)
        rcases hs with rfl | rfl
        · exact hl
        · exact hr'

theorem blackPath_exists (s : Shape K V) : ∀ {c : Ctx (Entry K V)} {n : ℕ}, Rep t (plug c s) → Balanced s n →
    BlackPath t (ptr t.nil s) n := by
  induction s with
  | leaf =>
    intro c n _ hbal
    cases hbal
    exact .nil
  | node red l e r ihl _ =>
    intro c n hr hbal
    have hred := hr.red_ptr
    have hleft : t.child .left e.id = ptr t.nil l := hr.left_node
    have hstep : ∀ {k : ℕ}, Balanced l k → BlackPath t e.id (if red then k else k + 1) := by
      intro k hl
      have hp := BlackPath.step .left hr.node_ne_nil (hleft ▸ ihl (c := ⟨.left, red, e, r⟩ :: c) hr hl)
      rw [show t.red e.id = red from hred] at hp
      exact hp
    cases hbal with
    | red hl _ _ _ => exact hstep hl
    | black hl _ => exact hstep hl

/-- `VerifyNode_` counts the black nodes of every path and finds the same number. -/
theorem verifyNode_spec (s : Shape K V) : ∀ {c : Ctx (Entry K V)} {n k : ℕ} {b path : ℤ},
    Rep t (plug c s) → Balanced s n → s.inorder.length < k → 0 ≤ b →
    (path = -1 ∨ path = b + n + 1) → verifyNode t k (ptr t.nil s) b path = some (b + n + 1) := by
  induction s with
  | leaf =>
    intro c n fuel count path hr hbal hfuel hcount hpath
    obtain ⟨fuel, rfl⟩ : ∃ k, fuel = k + 1 := ⟨fuel - 1, by omega⟩
    cases hbal
    have hred : t.red t.nil = false := hr.nil_black
    simp only [verifyNode, ptr_leaf, hred, Bool.false_and, Bool.false_eq_true, if_false, if_true]
    rcases hpath with rfl | rfl
    · simp
    · rw [if_neg (by omega), if_pos (by simp)]
  | node red l e r ihl ihr =>
    intro c n fuel count path hr hbal hfuel hcount hpath
    rw [Tree.inorder_node, List.length_append, List.length_cons] at hfuel
    obtain ⟨fuel, rfl⟩ : ∃ k, fuel = k + 1 := ⟨fuel - 1, by omega⟩
    have hne := hr.node_ne_nil
    have hred : t.red e.id = red := hr.red_ptr
    have hleft := hr.left_node
    have hright := hr.right_node
    have hrl : Rep t (plug (⟨.left, red, e, r⟩ :: c) l) := hr
    have hrr : Rep t (plug (⟨.right, red, e, l⟩ :: c) r) := hr
    rw [ptr]
    cases hbal with
    | red hl hr' hlb hrb =>
      have h₁ := ihl (k := fuel) hrl hl (by omega) hcount hpath
      have h₂ := ihr (k := fuel) hrr hr' (by omega) hcount (.inr rfl)
      simp only [verifyNode, hred, hleft, hright, hrl.red_ptr, hrr.red_ptr, hlb, hrb, Bool.or_self,
        Bool.and_false, Bool.false_eq_true, if_false, if_true, hne, h₁, h₂, Option.bind_eq_bind, Option.bind_some]
    | @black _ _ _ n hl hr' =>
      have hpath' : path = -1 ∨ path = count + 1 + n + 1 := by
        rcases hpath with h | h
        · exact .inl h
        · exact .inr (by push_cast at h; omega)
      have h₁ := ihl (k := fuel) hrl hl (by omega) (b := count + 1) (by omega) hpath'
      have h₂ := ihr (k := fuel) hrr hr' (by omega) (b := count + 1) (by omega) (.inr rfl)
      simp only [verifyNode, hred, hleft, hright, Bool.false_and, Bool.false_eq_true, if_false, hne, h₁, h₂,
        Option.bind_eq_bind, Option.bind_some]
      rw [Option.some.injEq]
      push_cast
      omega

theorem Holds.verified (h : Holds fns t T) : verifyTree t = true := by
  obtain ⟨n, hbal⟩ := h.balanced
  have hlen := h.rep.length_lt
  have hv := verifyNode_spec T (c := []) (k := t.fresh) h.rep hbal (by omega) (le_refl 0) (.inl rfl)
  rw [verifyTree, h.rep.root_black, h.rep.root_key, h.rep.root_value, h.rep.nil_black, h.rep.nil_key,
    h.rep.nil_value, h.rep.top, hv]
  rfl

theorem Holds.redBlackHeap (h : Holds fns t T) : RedBlackHeap fns t := by
  have hr : Rep t (plug [] T) := h.rep
  have htop := h.rep.top
  obtain ⟨n, hbal⟩ := h.balanced
  -- what a node below the top is
  have hplace : ∀ i, Below t (t.left t.root) i → ∃ c red l e r, Rep t (plug c (.node red l e r)) ∧
      plug c (.node red l e r) = T ∧ i = e.id := by
    intro i hi
    rw [htop] at hi
    obtain ⟨c, red, l, e, r, hplug, hie, _⟩ := hi.place hr rfl
    exact ⟨c, red, l, e, r, by rw [hplug]; exact hr, hplug, hie⟩
  have hasc : ∀ {c : Ctx (Entry K V)} {red : Bool} {l r : Shape K V} {e : Entry K V},
      plug c (.node red l e r) = T → (∀ x ∈ l.inorder, fns.keyCompare x.key e.key < 0) ∧
        ∀ x ∈ r.inorder, fns.keyCompare e.key x.key < 0 := by
    intro c red l r e hplug
    have hin := h.ascending
    rw [← hplug, inorder_plug, entries, Tree.inorder_node] at hin
    exact ascending_around (List.pairwise_append.mp (List.pairwise_append.mp hin).1).2.1
  refine ⟨h.rep.root_black, h.rep.nil_black, ?_, ?_, ?_, ?_, ?_, ?_, ?_, h.verified⟩
  · rw [htop]
    exact hr.red_ptr.trans h.top_black
  · intro i d hi hred
    obtain ⟨c, red, l, e, r, hr', hplug, rfl⟩ := hplace i hi
    have hred' : red = true := hr'.red_ptr.symm.trans hred
    subst hred'
    obtain ⟨k, _, hk, _⟩ := Open.of_plug (by rw [hplug]; exact hbal) (by rw [hplug]; exact h.top_black)
    obtain ⟨f, s, hp, hc, _, hs⟩ := hr'.child_place d
    have hrs : Rep t (plug (f :: c) s) := by rw [hp]; exact hr'
    rw [hc, hrs.red_ptr]
    cases hk with
    | red _ _ hlb hrb =>
      rcases hs with rfl | rfl
      · exact hlb
      · exact hrb
  · rw [htop]
    exact ⟨n, blackPath_exists T hr hbal, fun m hm => blackPath_unique hm hr hbal rfl⟩
  · intro i j hi hj
    obtain ⟨c, red, l, e, r, hr', hplug, rfl⟩ := hplace i hi
    rw [hr'.left_node] at hj
    obtain ⟨c', red', l', e', r', hp, rfl, he⟩ := hj.place (c := ⟨.left, red, e, r⟩ :: c) hr' rfl
    have hr'' : Rep t (plug c' (.node red' l' e' r')) := by rw [hp]; exact hr'
    rw [hr'.key_node, hr''.key_node]
    exact (hasc hplug).1 e' he
  · intro i j hi hj
    obtain ⟨c, red, l, e, r, hr', hplug, rfl⟩ := hplace i hi
    rw [hr'.right_node] at hj
    obtain ⟨c', red', l', e', r', hp, rfl, he⟩ := hj.place (c := ⟨.right, red, e, l⟩ :: c) hr' rfl
    have hr'' : Rep t (plug c' (.node red' l' e' r')) := by rw [hp]; exact hr'
    rw [hr'.key_node, hr''.key_node]
    exact (hasc hplug).2 e' he
  · intro hne
    rw [htop] at hne ⊢
    exact hr.parent_ptr fun hl => hne (hr.ptr_nil_iff.mpr hl)
  · intro i d hi hne
    obtain ⟨c, red, l, e, r, hr', hplug, rfl⟩ := hplace i hi
    obtain ⟨f, s, hp, hc, hfa, _⟩ := hr'.child_place d
    have hrs : Rep t (plug (f :: c) s) := by rw [hp]; exact hr'
    rw [hc] at hne ⊢
    rw [hrs.parent_ptr fun hl => hne (hrs.ptr_nil_iff.mpr hl), parentId, hfa]

theorem rbTreeStep_holds (law : fns.Lawful) (h : Holds fns t T) (call : RBTreeCall K V) :
    ∃ t' T' r, rbTreeStep fns t call = some (t', r) ∧ Holds fns t' T' := by
  cases call with
  | put key value =>
    obtain ⟨t', T', b, heq, h', _⟩ := rbTreePut_spec law h key value
    exact ⟨t', T', .flag b, by simp [rbTreeStep, heq], h'⟩
  | get key =>
    rcases rbTreeGet_spec law h key with ⟨e, _, _, hget⟩ | ⟨_, hget⟩
    · exact ⟨t, T, .value e.value, by simp [rbTreeStep, hget], h⟩
    · exact ⟨t, T, .value none, by simp [rbTreeStep, hget], h⟩
  | remove key =>
    obtain ⟨t', T', b, heq, h', _⟩ := rbTreeRemove_spec law h key
    exact ⟨t', T', .flag b, by simp [rbTreeStep, heq], h'⟩
  | clear => exact ⟨_, _, .done, rfl, rbTreeClear_holds h.rep⟩
  | size => exact ⟨t, T, _, rfl, h⟩

theorem run_holds (law : fns.Lawful) (calls : List (RBTreeCall K V)) : ∀ {t : RBTree K V} {T : Shape K V},
    Holds fns t T → ∃ t' T' replies, run (rbTreeStep fns) t calls = some (t', replies) ∧ Holds fns t' T' := by
  induction calls with
  | nil => exact fun {t T} h => ⟨t, T, [], rfl, h⟩
  | cons call calls ih =>
    intro t T h
    obtain ⟨t₁, T₁, r, heq, h₁⟩ := rbTreeStep_holds law h call
    obtain ⟨t', T', replies, hrun, h'⟩ := ih h₁
    exact ⟨t', T', r :: replies, by simp only [run, heq, hrun], h'⟩

/-- No call fails an assertion or loops, and every tree reached is a red-black search tree in the heap. -/
theorem rbTree_stays_red_black (law : fns.Lawful) (calls : List (RBTreeCall K V)) :
    ∃ t replies, run (rbTreeStep fns) rbTreeNew calls = some (t, replies) ∧ RedBlackHeap fns t := by
  obtain ⟨t, T, replies, hrun, h⟩ := run_holds law calls rbTreeNew_holds
  exact ⟨t, replies, hrun, h.redBlackHeap⟩

end Shape

theorem rbTree_stays_red_black_numbers :
    ∃ t replies, run (rbTreeStep numberFns) rbTreeNew numberCalls = some (t, replies) ∧ RedBlackHeap numberFns t :=
  rbTree_stays_red_black numberFns_lawful numberCalls

end Libntech.Containers
