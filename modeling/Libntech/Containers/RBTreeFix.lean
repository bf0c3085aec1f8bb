import Libntech.Containers.RBTreeHeap

/-! # The fix-up loops of RBTree

`PutFix_` starts with a red node `s` that fits its place `c` in every respect except that the parent may
be red too; `RemoveFix_` with a subtree `s` that is one black node short for its place. One step lemma per
loop body says which of the two happens: the trouble moves up, or it is gone. The entries keep their order
throughout.
-/
namespace Libntech.Containers
open Lib.RedBlack
open Containers.RBTree
set_option autoImplicit false

variable {K V : Type}

theorem plug_swap (f : Frame (Entry K V)) (c : Ctx (Entry K V)) (s : Shape K V) :
    plug (⟨f.dir.opp, f.red, f.a, s⟩ :: c) f.sib = plug (f :: c) s := by
  rw [plug_cons, plug_cons, Frame.fill, Frame.fill, Tree.mk_opp]

theorem ne_leaf_mk (d : Dir) (red : Bool) (s : Shape K V) (e : Entry K V) (u : Shape K V) :
    (Tree.mk d red s e u : Shape K V) ≠ .leaf := by
  cases d <;> simp [Tree.mk]

variable {b s : Shape K V} {t : RBTree K V} {c : Ctx (Entry K V)} {f : Frame (Entry K V)} {d : Dir} {n : ℕ}
  {p w : Entry K V} {pr : Bool}

section Reads

variable {t : RBTree K V} {c : Ctx (Entry K V)}

theorem Rep.parent_node {red : Bool} {a : Shape K V} {e : Entry K V} (hr : Rep t (plug c (.mk d red a e b))) :
    t.parent e.id = parentId t.root c := by
  rw [RBTree.parent, hr.node d, Entry.parent_node]

theorem Rep.parent_frame (hr : Rep t (plug (f :: c) s)) : t.parent f.a.id = parentId t.root c := by
  rw [RBTree.parent, hr.frame, Entry.parent_node]

theorem Rep.child_frame (hr : Rep t (plug (f :: c) s)) : t.child f.dir f.a.id = ptr t.nil s := by
  rw [RBTree.child, hr.frame, Entry.child_node]

theorem Rep.sibling_frame (hr : Rep t (plug (f :: c) s)) : t.child f.dir.opp f.a.id = ptr t.nil f.sib := by
  rw [RBTree.child, hr.frame, Entry.child_opp_node]

theorem Rep.red_sibling (hr : Rep t (plug (f :: c) s)) : t.red (ptr t.nil f.sib) = f.sib.isRed := by
  rw [← plug_swap] at hr
  exact hr.red_ptr

end Reads

/-! ## Insertion -/

/-- Case 3: the parent is on the outside; recolour and rotate the grandparent. -/
theorem putFix_outer {u : Shape K V} {g : Entry K V} (hr : Rep t (plug (⟨d, true, p, b⟩ :: ⟨d, false, g, u⟩ :: c) s)) :
    ∃ t', rotate d.opp ((t.setRed p.id false).setRed g.id true) g.id = some t' ∧
      Rearranged t (plug (⟨d, true, p, b⟩ :: ⟨d, false, g, u⟩ :: c) s) t'
        (plug (⟨d, false, p, .mk d true b g u⟩ :: c) s) := by
  have h₁ := hr.setRed (c := ⟨d, false, g, u⟩ :: c) (s := .mk d true s p b) (ne_leaf_mk _ _ _ _ _) false
  rw [ptr_mk, Tree.paint_mk] at h₁
  have h₂ := h₁.rep.setRed (c := c) (s := .mk d false (.mk d false s p b) g u) (ne_leaf_mk _ _ _ _ _) true
  rw [ptr_mk, Tree.paint_mk] at h₂
  obtain ⟨t', heq, h₃⟩ := h₂.rep.rotate_opp d
  exact ⟨t', heq, (h₁.trans h₂).trans h₃⟩

/-- Cases 2 and 3, from a parent `f` and a grandparent `g`. -/
theorem putFixRotate_spec {g : Frame (Entry K V)} {z : Entry K V} {a : Shape K V} (hf : f.red = true)
    (hg : g.red = false) (hr : Rep t (plug (f :: g :: c) (.mk g.dir true a z b))) :
    ∃ t' s p r, putFixRotate g.dir t z.id = some (t', ptr t.nil s) ∧
      Rearranged t (plug (f :: g :: c) (.mk g.dir true a z b)) t'
        (plug (⟨g.dir, false, p, .mk g.dir true r g.a g.sib⟩ :: c) s) ∧
      s ≠ .leaf ∧
      (s = .mk g.dir true a z b ∧ r = f.sib ∨ s = .mk g.dir true f.sib f.a a ∧ r = b) := by
  obtain ⟨d, gred, gg, u⟩ := g
  obtain ⟨fd, fred, fa, sib⟩ := f
  dsimp only at hf hg hr ⊢
  subst hf hg
  rcases Dir.eq_or_opp fd d with rfl | rfl
  · -- case 3
    have hp := hr.parent_node
    have hpp := hr.parent_frame
    have hz : z.id ≠ t.child fd.opp fa.id := by
      have hdiff := hr.ptr_ne_sibling (.inl (ne_leaf_mk _ _ _ _ _))
      rw [ptr_mk] at hdiff
      rw [hr.sibling_frame]
      exact hdiff
    obtain ⟨t', heq, h⟩ := putFix_outer hr
    refine ⟨t', .mk fd true a z b, fa, sib, ?_, h, ne_leaf_mk _ _ _ _ _, .inl ⟨rfl, rfl⟩⟩
    dsimp only [parentId] at hp hpp
    simp only [putFixRotate, hp, hpp, if_neg hz, Option.bind_eq_bind, Option.bind_some, parent_setRed, heq,
      Option.pure_def, ptr_mk]
  · -- case 2: rotating the parent turns it into the outer grandchild
    have hp := hr.parent_node
    have hz : z.id = t.child d.opp fa.id := by
      rw [hr.child_frame, ptr_mk]
    have hr₁ : Rep t (plug (⟨d, false, gg, u⟩ :: c) (.mk d true sib fa (.mk d true a z b))) := by
      rw [← Tree.mk_opp d true _ fa sib]
      exact hr
    obtain ⟨t₁, heq₁, h₁⟩ := hr₁.rotate d
    obtain ⟨t', heq, h⟩ := putFix_outer (s := .mk d true sib fa a) h₁.rep
    refine ⟨t', .mk d true sib fa a, z, b, ?_, ?_, ne_leaf_mk _ _ _ _ _, .inr ⟨rfl, rfl⟩⟩
    · dsimp only [parentId] at hp
      have hq : t₁.parent fa.id = z.id := h₁.rep.parent_node (c := ⟨d, true, z, b⟩ :: ⟨d, false, gg, u⟩ :: c)
      have hqq : t₁.parent z.id = gg.id := h₁.rep.parent_node
      simp only [putFixRotate, hp, if_pos hz, heq₁, Option.map_some, Option.bind_eq_bind, Option.bind_some, hq,
        hqq, parent_setRed, heq, Option.pure_def, ptr_mk]
    · rw [← Tree.mk_opp d true _ fa sib] at h₁
      exact h₁.trans h

/-- Case 1: the uncle is red; recolour and move up two levels. -/
theorem putFix_recolour {g : Frame (Entry K V)} (hu : g.sib ≠ .leaf) (hr : Rep t (plug (f :: g :: c) s)) :
    Rearranged t (plug (f :: g :: c) s)
      (((t.setRed f.a.id false).setRed (ptr t.nil g.sib) false).setRed g.a.id true)
      (plug c (.mk g.dir true (.mk f.dir false s f.a f.sib) g.a (g.sib.paint false))) := by
  have h₁ := hr.setRed (c := g :: c) (s := .mk f.dir f.red s f.a f.sib) (ne_leaf_mk _ _ _ _ _) false
  rw [ptr_mk, Tree.paint_mk] at h₁
  have hr₁ := h₁.rep
  rw [← plug_swap] at hr₁
  have h₂ := hr₁.setRed hu false
  have hs₂ := plug_swap ⟨g.dir, g.red, g.a, g.sib.paint false⟩ c (.mk f.dir false s f.a f.sib)
  dsimp only at hs₂
  rw [plug_swap, hs₂, h₁.frame.nil] at h₂
  have h₃ := h₂.rep.setRed (c := c) (s := .mk g.dir g.red (.mk f.dir false s f.a f.sib) g.a (g.sib.paint false))
    (ne_leaf_mk _ _ _ _ _) true
  rw [ptr_mk, Tree.paint_mk] at h₃
  exact (h₁.trans h₂).trans h₃

/-- A red node whose parent may be red: the state of `PutFix_`. -/
structure RedAt (c : Ctx (Entry K V)) (s : Shape K V) (n : ℕ) : Prop where
  red : s.isRed = true
  balanced : Balanced s n
  around : Open c n

/-- The loop body leaves the same kind of trouble fewer levels from the top. -/
theorem putFixStep_spec (hr : Rep t (plug c s)) (hst : RedAt c s n) (hred : headRed c = true) :
    ∃ t' c' s' n', putFixStep (t.sideOf (t.parent (ptr t.nil s))) t (ptr t.nil s) = some (t', ptr t.nil s') ∧
      Rearranged t (plug c s) t' (plug c' s') ∧ RedAt c' s' n' ∧ c'.length < c.length := by
  obtain ⟨f, c₁, rfl⟩ : ∃ f c₁, c = f :: c₁ := by
    cases c with
    | nil => exact absurd hred Bool.false_ne_true
    | cons f c₁ => exact ⟨f, c₁, rfl⟩
  obtain ⟨hfb, hcase⟩ := hst.around.cons_cases
  obtain ⟨hf, hfs, hg, hne, hopen⟩ : f.red = true ∧ f.sib.isRed = false ∧ headRed c₁ = false ∧ c₁ ≠ [] ∧
      Open c₁ n := by
    rcases hcase with h | h
    · exact h
    · exact absurd (hred.symm.trans h.1) (by simp)
  obtain ⟨g, c₂, rfl⟩ := List.exists_cons_of_ne_nil hne
  change g.red = false at hg
  obtain ⟨hgb, hcase⟩ := hopen.cons_cases
  have hopen₂ : Open c₂ (n + 1) := by
    rcases hcase with h | h
    · exact absurd (hg.symm.trans h.1) (by simp)
    · exact h.2
  have hs : s ≠ .leaf := by
    rintro rfl
    exact absurd hst.red (by simp)
  have hp : t.parent (ptr t.nil s) = f.a.id := hr.parent_ptr hs
  have hpp : t.parent f.a.id = g.a.id := hr.parent_frame
  have hside : t.sideOf f.a.id = g.dir := by
    have h := Rep.sideOf_eq (c := g :: c₂) (s := f.fill s) hr (by rw [ptr_fill]; exact hpp)
      (.inl (ne_leaf_mk _ _ _ _ _))
    rwa [ptr_fill] at h
  have huncle : t.child g.dir.opp g.a.id = ptr t.nil g.sib :=
    Rep.sibling_frame (c := c₂) (f := g) (s := f.fill s) hr
  have hured : t.red (ptr t.nil g.sib) = g.sib.isRed := Rep.red_sibling (c := c₂) (f := g) (s := f.fill s) hr
  rw [hp, hside]
  cases hu : g.sib.isRed with
  | true =>
    have hul : g.sib ≠ .leaf := by
      intro h
      rw [h] at hu
      exact absurd hu (by simp)
    refine ⟨_, c₂, .mk g.dir true (.mk f.dir false s f.a f.sib) g.a (g.sib.paint false), n + 1, ?_,
      putFix_recolour hul hr, ⟨Tree.isRed_mk _ _ _ _ _, ?_, hopen₂⟩, by simp only [List.length_cons]; omega⟩
    · simp only [putFixStep, hp, hpp, huncle, hured, hu, if_true, parent_setRed, ptr_mk]
    · refine (balanced_red_iff g.dir).mpr ⟨(balanced_black_iff f.dir).mpr ⟨hst.balanced, hfb⟩,
        hgb.paint_red hu, Tree.isRed_mk _ _ _ _ _, ?_⟩
      obtain ⟨a, e, b, hm, _⟩ := balanced_red_node .left hgb hu
      rw [hm, Tree.paint_mk, Tree.isRed_mk]
  | false =>
    obtain ⟨a, z, b, rfl, hab, hbb, har, hbr⟩ := balanced_red_node g.dir hst.balanced hst.red
    obtain ⟨t', s', p, r, heq, h, hs', hcase⟩ := putFixRotate_spec hf hg hr
    have hstep : putFixStep g.dir t (ptr t.nil (.mk g.dir true a z b)) = some (t', ptr t.nil s') := by
      rw [ptr_mk] at hp ⊢
      simp only [putFixStep, hp, hpp, huncle, hured, hu, Bool.false_eq_true, if_false, heq]
    refine ⟨t', _, s', n, hstep, h, ?_, by simp⟩
    -- both shapes put a red node over two black ones, next to a red node over two black ones
    rcases hcase with ⟨rfl, rfl⟩ | ⟨rfl, rfl⟩
    · exact ⟨hst.red, hst.balanced,
        .black rfl ((balanced_red_iff g.dir).mpr ⟨hfb, hgb, hfs, hu⟩) hopen₂⟩
    · exact ⟨Tree.isRed_mk _ _ _ _ _, (balanced_red_iff g.dir).mpr ⟨hfb, hab, hfs, har⟩,
        .black rfl ((balanced_red_iff g.dir).mpr ⟨hbb, hgb, hbr, hu⟩) hopen₂⟩

theorem putFixLoop_spec (fuel : ℕ) : ∀ {t : RBTree K V} {c : Ctx (Entry K V)} {s : Shape K V} {n : ℕ},
    Rep t (plug c s) → RedAt c s n → c.length < fuel →
    ∃ t' c' s' n', putFixLoop fuel t (ptr t.nil s) = some t' ∧ Rearranged t (plug c s) t' (plug c' s') ∧
      RedAt c' s' n' ∧ headRed c' = false := by
  induction fuel with
  | zero => exact fun _ _ h => absurd h (Nat.not_lt_zero _)
  | succ fuel ih =>
    intro t c s n hr hst hlen
    have hs : s ≠ .leaf := by
      rintro rfl
      exact absurd hst.red (by simp)
    have hloop : t.red (t.parent (ptr t.nil s)) = headRed c := by rw [hr.parent_ptr hs, hr.red_parent]
    cases hred : headRed c with
    | false =>
      refine ⟨t, c, s, n, ?_, .refl hr, hst, hred⟩
      rw [putFixLoop, hloop, hred]
      rfl
    | true =>
      obtain ⟨t₁, c₁, s₁, n₁, heq, h₁, hst₁, hlt⟩ := putFixStep_spec hr hst hred
      obtain ⟨t', c', s', n', heq', h', hst', hred'⟩ := ih h₁.rep hst₁ (by omega)
      refine ⟨t', c', s', n', ?_, h₁.trans h', hst', hred'⟩
      rw [h₁.frame.nil] at heq'
      simp only [putFixLoop, hloop, hred, if_true, heq, Option.bind_eq_bind, Option.bind_some, heq']

/-- A tree with a red node added below it becomes a balanced tree with a black top. -/
theorem putFix_spec (hr : Rep t (plug c s)) (hst : RedAt c s n) (hlen : c.length < t.fresh) :
    ∃ t' T' m, putFix t (ptr t.nil s) = some t' ∧ Rearranged t (plug c s) t' T' ∧ Balanced T' m ∧
      T'.isRed = false := by
  obtain ⟨t₁, c', s', n', heq, h₁, hst', hred'⟩ := putFixLoop_spec t.fresh hr hst hlen
  have hne : plug c' s' ≠ .leaf := by
    cases c' with
    | nil =>
      rintro hl
      have hred := hst'.red
      rw [show s' = .leaf from hl] at hred
      exact absurd hred (by simp)
    | cons f c' =>
      intro hl
      have hin := (ids_plug_perm (f :: c') s').mem_iff.mpr (List.mem_append_right _ (parentId_mem (r := 0) f c'))
      rw [hl] at hin
      exact absurd hin (by simp)
  have h₂ := h₁.rep.setRed (c := []) hne false
  refine ⟨t₁.setRed (ptr t₁.nil (plug c' s')) false, (plug c' s').paint false, ?_⟩
  have hrun : putFix t (ptr t.nil s) = some (t₁.setRed (ptr t₁.nil (plug c' s')) false) := by
    simp only [putFix, heq, Option.bind_eq_bind, Option.bind_some, h₁.rep.top]
    rw [h₂.rep.nilBlack, Option.bind_some, h₂.rep.root_black]
    rfl
  cases c' with
  | nil => exact ⟨n' + 1, hrun, h₁.trans h₂, hst'.balanced.paint_red hst'.red, by
      obtain ⟨a, e, b, hm, _⟩ := balanced_red_node .left hst'.balanced hst'.red
      rw [plug_nil, hm, Tree.paint_mk, Tree.isRed_mk]⟩
  | cons f c' =>
    obtain ⟨m, hbal, hblack⟩ := hst'.around.plug_balanced hst'.balanced fun _ => ⟨hred', by simp⟩
    refine ⟨m, hrun, h₁.trans h₂, ?_, ?_⟩
    · rw [paint_black_eq hblack]
      exact hbal
    · rw [paint_black_eq hblack]
      exact hblack

/-! ## Removal -/

/-- A node seen from its child on the side away from `d`. -/
theorem plug_far (d : Dir) (red : Bool) (e : Entry K V) (s u : Shape K V) (c : Ctx (Entry K V)) :
    plug (⟨d.opp, red, e, s⟩ :: c) u = plug c (.mk d red s e u) := by
  rw [plug_cons, Frame.fill, Tree.mk_opp]

section Paint

variable {t : RBTree K V} {c : Ctx (Entry K V)} {d : Dir} {r r₁ r₂ : Bool} {a b a₁ b₁ a₂ b₂ : Shape K V}
  {e e₁ e₂ : Entry K V}

theorem Rep.paint_node (hr : Rep t (plug c (.mk d r a e b))) (r' : Bool) :
    Rearranged t (plug c (.mk d r a e b)) (t.setRed e.id r') (plug c (.mk d r' a e b)) := by
  have h := hr.setRed (ne_leaf_mk _ _ _ _ _) r'
  rwa [ptr_mk, Tree.paint_mk] at h

theorem Rep.paint_far (hr : Rep t (plug c (.mk d r a e (.mk d r₁ a₁ e₁ b₁)))) (r' : Bool) :
    Rearranged t (plug c (.mk d r a e (.mk d r₁ a₁ e₁ b₁))) (t.setRed e₁.id r')
      (plug c (.mk d r a e (.mk d r' a₁ e₁ b₁))) := by
  rw [← plug_far d r] at hr
  have h := hr.paint_node r'
  rwa [plug_far, plug_far] at h

theorem Rep.paint_far_near (hr : Rep t (plug c (.mk d r a e (.mk d r₁ (.mk d r₂ a₂ e₂ b₂) e₁ b₁)))) (r' : Bool) :
    Rearranged t (plug c (.mk d r a e (.mk d r₁ (.mk d r₂ a₂ e₂ b₂) e₁ b₁))) (t.setRed e₂.id r')
      (plug c (.mk d r a e (.mk d r₁ (.mk d r' a₂ e₂ b₂) e₁ b₁))) := by
  rw [← plug_far d r] at hr
  have h := Rep.paint_node (c := ⟨d, r₁, e₁, b₁⟩ :: ⟨d.opp, r, e, a⟩ :: c) hr r'
  rw [plug_cons, plug_cons _ _ (.mk d r' _ _ _), plug_far, plug_far] at h
  exact h

theorem Rep.paint_far_far (hr : Rep t (plug c (.mk d r a e (.mk d r₁ a₁ e₁ (.mk d r₂ a₂ e₂ b₂))))) (r' : Bool) :
    Rearranged t (plug c (.mk d r a e (.mk d r₁ a₁ e₁ (.mk d r₂ a₂ e₂ b₂)))) (t.setRed e₂.id r')
      (plug c (.mk d r a e (.mk d r₁ a₁ e₁ (.mk d r' a₂ e₂ b₂)))) := by
  rw [← plug_far d r, ← plug_far d r₁] at hr
  have h := hr.paint_node r'
  rwa [plug_far, plug_far, plug_far, plug_far] at h

end Paint

/-- The parent pointer of the place's node survives; nil's does because nothing writes to it. -/
theorem Rearranged.parent_place {t' : RBTree K V} {T : Shape K V} {b : Ctx (Entry K V)} {q : ℕ}
    (h : Rearranged t T t' (plug b s)) (hr : Rep t T) (hp : t.parent (ptr t.nil s) = q) (hq : parentId t.root b = q) :
    t'.parent (ptr t.nil s) = q := by
  by_cases hs : s = .leaf
  · subst hs
    rw [ptr_leaf, RBTree.parent] at hp ⊢
    rw [h.heap_nil hr, hp]
  · have hp' := h.rep.parent_ptr hs
    rw [h.frame.nil, h.frame.root, hq] at hp'
    exact hp'

/-- Case 4: the far nephew is red. -/
theorem removeFix_far {A X Y : Shape K V} {v : Entry K V}
    (hr : Rep t (plug c (.mk d pr s p (.mk d false A w (.mk d true X v Y))))) :
    ∃ t', rotate d (((t.setRed w.id pr).setRed p.id false).setRed v.id false) p.id = some t' ∧
      Rearranged t (plug c (.mk d pr s p (.mk d false A w (.mk d true X v Y)))) t'
        (plug c (.mk d pr (.mk d false s p A) w (.mk d false X v Y))) := by
  have h₁ := hr.paint_far pr
  have h₂ := h₁.rep.paint_node false
  have h₃ := h₂.rep.paint_far_far false
  obtain ⟨t', heq, h₄⟩ := h₃.rep.rotate d
  exact ⟨t', heq, ((h₁.trans h₂).trans h₃).trans h₄⟩

/-- Case 3: only the near nephew is red; a rotation at the sibling gives case 4. -/
theorem removeFix_near {B X Y : Shape K V} {v : Entry K V}
    (hr : Rep t (plug c (.mk d pr s p (.mk d false (.mk d true X v Y) w B)))) :
    ∃ t', rotate d.opp ((t.setRed v.id false).setRed w.id true) w.id = some t' ∧
      Rearranged t (plug c (.mk d pr s p (.mk d false (.mk d true X v Y) w B))) t'
        (plug c (.mk d pr s p (.mk d false X v (.mk d true Y w B)))) := by
  have h₁ := hr.paint_far_near false
  have h₂ := h₁.rep.paint_far true
  have hr₂ := h₂.rep
  rw [← plug_far d pr] at hr₂
  obtain ⟨t', heq, h₃⟩ := hr₂.rotate_opp d
  rw [plug_far, plug_far] at h₃
  exact ⟨t', heq, (h₁.trans h₂).trans h₃⟩

theorem both_black (d : Dir) (t : RBTree K V) (i : ℕ) :
    (!t.red (t.left i) && !t.red (t.right i)) = (!t.red (t.child d i) && !t.red (t.child d.opp i)) := by
  cases d
  · rfl
  · exact Bool.and_comm _ _

/-- The body of `RemoveFix_` below a parent `p` with a black sibling `w`: the shortage moves to `p`, or
the place is repaired. -/
theorem removeFixSibling_spec {A B : Shape K V} (root : ℕ) (hr : Rep t (plug c (.mk d pr s p (.mk d false A w B))))
    (hs : Balanced s n) (hA : Balanced A n) (hB : Balanced B n) (hx : t.parent (ptr t.nil s) = p.id) :
    ∃ t' s' x', removeFixSibling d t root (ptr t.nil s) w.id = some (t', x') ∧
      Rearranged t (plug c (.mk d pr s p (.mk d false A w B))) t' (plug c s') ∧
      ((x' = p.id ∧ s' = .mk d pr s p (.mk d true A w B) ∧ A.isRed = false ∧ B.isRed = false) ∨
        (x' = root ∧ t'.red p.id = false ∧ ∃ L v R, s' = .mk d pr L v R ∧ Balanced L (n + 1) ∧
          Balanced R (n + 1) ∧ L.isRed = false ∧ R.isRed = false)) := by
  have hrw := hr
  rw [← plug_far d pr] at hrw
  have hw := hrw.node d
  have hAred : t.red (t.child d w.id) = A.isRed := by
    rw [RBTree.child, hw, Entry.child_node]
    exact Rep.red_ptr (c := ⟨d, false, w, B⟩ :: ⟨d.opp, pr, p, s⟩ :: c) hrw
  have hBred : t.red (t.child d.opp w.id) = B.isRed := by
    rw [RBTree.child, hw, Entry.child_opp_node]
    exact Rep.red_sibling (c := ⟨d.opp, pr, p, s⟩ :: c) (f := ⟨d, false, w, B⟩) (s := A) hrw
  have hpred : t.red p.id = pr := by rw [RBTree.red, hr.node d, Entry.red_node]
  -- what case 4 leaves, from any tree with a red far nephew
  have hfar : ∀ {t₁ : RBTree K V} {A₁ X Y : Shape K V} {w₁ v : Entry K V},
      Rearranged t (plug c (.mk d pr s p (.mk d false A w B))) t₁
        (plug c (.mk d pr s p (.mk d false A₁ w₁ (.mk d true X v Y)))) →
      Balanced A₁ n → Balanced (.mk d true X v Y) n →
      ∃ t' s', ((rotate d (((t₁.setRed w₁.id pr).setRed p.id false).setRed v.id false) p.id).map
          fun t => (t, root)) = some (t', root) ∧
        Rearranged t (plug c (.mk d pr s p (.mk d false A w B))) t' (plug c s') ∧ t'.red p.id = false ∧
        ∃ L v R, s' = .mk d pr L v R ∧ Balanced L (n + 1) ∧ Balanced R (n + 1) ∧ L.isRed = false ∧
          R.isRed = false := by
    intro t₁ A₁ X Y w₁ v h₁ hA₁ hv
    obtain ⟨t', heq, h⟩ := removeFix_far h₁.rep
    refine ⟨t', _, by rw [heq]; rfl, h₁.trans h, ?_, _, _, _, rfl, (balanced_black_iff d).mpr ⟨hs, hA₁⟩, ?_,
      Tree.isRed_mk _ _ _ _ _, Tree.isRed_mk _ _ _ _ _⟩
    · have hp := Rep.node d (c := ⟨d, pr, w₁, .mk d false X v Y⟩ :: c) h.rep
      rw [RBTree.red, hp, Entry.red_node]
    · have hv' := hv.paint_red (Tree.isRed_mk _ _ _ _ _)
      rwa [Tree.paint_mk] at hv'
  cases hBr : B.isRed with
  | false =>
    cases hAr : A.isRed with
    | false =>
      refine ⟨t.setRed w.id true, _, p.id, ?_, hr.paint_far true, .inl ⟨rfl, rfl, rfl, rfl⟩⟩
      simp only [removeFixSibling, both_black d, hAred, hBred, hAr, hBr, Bool.not_false, Bool.and_self, if_true,
        parent_setRed, hx]
    | true =>
      obtain ⟨X, v, Y, rfl, hX, hY, hXr, hYr⟩ := balanced_red_node d hA hAr
      obtain ⟨t₁, heq₁, h₁⟩ := removeFix_near hr
      obtain ⟨t', s', heq, h, hp, hL⟩ := hfar h₁ hX ((balanced_red_iff d).mpr ⟨hY, hB, hYr, hBr⟩)
      refine ⟨t', s', root, ?_, h, .inr ⟨rfl, hp, hL⟩⟩
      have hx₁ : t₁.parent (ptr t.nil s) = p.id :=
        h₁.parent_place (b := ⟨d, pr, p, _⟩ :: c) hr hx rfl
      have hv : t.child d w.id = v.id := by rw [RBTree.child, hw, Entry.child_node, ptr_mk]
      have hp₁ := h₁.rep.node d
      have hw₁ : t₁.child d.opp p.id = v.id := by rw [RBTree.child, hp₁, Entry.child_opp_node, ptr_mk]
      have hpr : t₁.red p.id = pr := by rw [RBTree.red, hp₁, Entry.red_node]
      have hf₁ : t₁.child d.opp v.id = w.id := by
        have hr₁ := h₁.rep
        rw [← plug_far d pr] at hr₁
        rw [RBTree.child, hr₁.node d, Entry.child_opp_node, ptr_mk]
      rw [hv] at hAred
      simp only [removeFixSibling, both_black d, hAred, hBred, hAr, hBr, Bool.not_false, Bool.not_true,
        Bool.false_and, Bool.false_eq_true, if_false, if_true, hv, heq₁, Option.bind_eq_bind, Option.bind_some,
        hx₁, hw₁, hpr, parent_setRed, child_setRed, hf₁]
      rw [← heq, Option.map_eq_bind]
      rfl
  | true =>
    obtain ⟨X, v, Y, rfl, hX, hY, hXr, hYr⟩ := balanced_red_node d hB hBr
    obtain ⟨t', s', heq, h, hp, hL⟩ := hfar (.refl hr) hA hB
    refine ⟨t', s', root, ?_, h, .inr ⟨rfl, hp, hL⟩⟩
    have hv : t.child d.opp w.id = v.id := by rw [RBTree.child, hw, Entry.child_opp_node, ptr_mk]
    rw [hv] at hBred
    simp only [removeFixSibling, both_black d, hAred, hBred, hBr, Bool.not_true, Bool.and_false,
      Bool.false_eq_true, if_false, Option.bind_eq_bind, Option.bind_some, hx, hpred, parent_setRed, child_setRed,
      hv]
    rw [← heq, Option.map_eq_bind]
    rfl

/-- A subtree one black node short for its place, or one whose top only has to turn black: the state of
`RemoveFix_`. -/
structure ShortAt (c : Ctx (Entry K V)) (s : Shape K V) (n : ℕ) : Prop where
  black : s.isRed = false → Balanced s n
  red : s.isRed = true → Balanced (s.paint false) (n + 1)
  around : Open c (n + 1)

theorem ptr_plug_congr (nil : ℕ) (c : Ctx (Entry K V)) {s' : Shape K V} (h : ptr nil s = ptr nil s') :
    ptr nil (plug c s) = ptr nil (plug c s') := by
  cases c with
  | nil => exact h
  | cons f c => exact ptr_plug_cons f c s s'

/-- The top node remembered before the rotations is black after the last one, wherever it went. -/
theorem Rep.stale_root_black {s₀ : Shape K V} {nil : ℕ} (hr : Rep t (plug c s)) (hblack : (plug c s).isRed = false)
    (hp : t.red f.a.id = false) (hnil : t.nil = nil) : t.red (ptr nil (plug (f :: c) s₀)) = false := by
  subst hnil
  cases c with
  | nil =>
    rw [plug_cons, plug_nil, ptr_fill]
    exact hp
  | cons g c =>
    rw [plug_cons, ptr_plug_cons g c _ s]
    exact (Rep.red_ptr (c := []) hr).trans hblack

/-- How the loop body of `RemoveFix_` can end: one level up, at a red node, or repaired. -/
inductive Repair (root nil : ℕ) (len : ℕ) (t' : RBTree K V) (x' : ℕ) : Shape K V → Prop where
  | up {c' : Ctx (Entry K V)} {s' : Shape K V} {k : ℕ} : x' = ptr nil s' → s' ≠ .leaf → ShortAt c' s' k →
      (s'.isRed = true ∨ c'.length < len ∧ root = ptr nil (plug c' s')) → Repair root nil len t' x' (plug c' s')
  | done {T' : Shape K V} {m : ℕ} : x' = root → t'.red root = false → Balanced T' m → T'.isRed = false →
      Repair root nil len t' x' T'

/-- The body below a black sibling, for a parent `p` in the place `c`. -/
theorem removeFixSibling_repair {W : Shape K V} {l o : ℕ} (hr : Rep t (plug c (.mk d pr s p W))) (hs : Balanced s n)
    (hW : Balanced W (n + 1)) (hWb : W.isRed = false) (hpr : pr = true → Open c (n + 1) ∧ headRed c = false ∧ c ≠ [])
    (hpb : pr = false → Open c (n + 2) ∧ c.length < l ∧ o = ptr t.nil (plug c (.mk d pr s p W)))
    (hx : t.parent (ptr t.nil s) = p.id)
    (hstale : ∀ (t' : RBTree K V) (s' : Shape K V), Rep t' (plug c s') → (plug c s').isRed = false →
      t'.red p.id = false → t'.nil = t.nil → t'.red o = false) :
    ∃ t' x' T', removeFixSibling d t o (ptr t.nil s) (ptr t.nil W) = some (t', x') ∧
      Rearranged t (plug c (.mk d pr s p W)) t' T' ∧ Repair o t.nil l t' x' T' := by
  obtain ⟨A, w, B, rfl, hA, hB⟩ := balanced_black_node d hW hWb
  obtain ⟨t', s', x', heq, h, hcase⟩ := removeFixSibling_spec o hr hs hA hB hx
  refine ⟨t', x', _, by rw [ptr_mk]; exact heq, h, ?_⟩
  rcases hcase with ⟨rfl, rfl, hAr, hBr⟩ | ⟨rfl, hp, L, v, R, rfl, hL, hR, hLr, hRr⟩
  · have hw : Balanced (.mk d true A w B) n := (balanced_red_iff d).mpr ⟨hA, hB, hAr, hBr⟩
    have hblack : Balanced (.mk d false s p (.mk d true A w B)) (n + 1) := (balanced_black_iff d).mpr ⟨hs, hw⟩
    cases pr with
    | true =>
      refine .up (k := n) (ptr_mk _ _ _ _ _ _).symm (ne_leaf_mk _ _ _ _ _) ⟨?_, ?_, (hpr rfl).1⟩
        (.inl (Tree.isRed_mk _ _ _ _ _))
      · intro hb
        rw [Tree.isRed_mk] at hb
        exact absurd hb (by simp)
      · intro _
        rw [Tree.paint_mk]
        exact hblack
    | false =>
      obtain ⟨hopen, hlen, hroot⟩ := hpb rfl
      refine .up (k := n + 1) (ptr_mk _ _ _ _ _ _).symm (ne_leaf_mk _ _ _ _ _)
        ⟨fun _ => hblack, fun hb => ?_, hopen⟩ (.inr ⟨hlen, ?_⟩)
      · rw [Tree.isRed_mk] at hb
        exact absurd hb (by simp)
      · rw [hroot]
        exact ptr_plug_congr _ c (by rw [ptr_mk, ptr_mk])
  · obtain ⟨m, hbal, hblack⟩ : ∃ m, Balanced (plug c (.mk d pr L v R)) m ∧
        (plug c (.mk d pr L v R)).isRed = false := by
      cases pr with
      | true =>
        obtain ⟨hopen, hh, hne⟩ := hpr rfl
        exact hopen.plug_balanced ((balanced_red_iff d).mpr ⟨hL, hR, hLr, hRr⟩) fun _ => ⟨hh, hne⟩
      | false =>
        obtain ⟨hopen, _, _⟩ := hpb rfl
        refine hopen.plug_balanced ((balanced_black_iff d).mpr ⟨hL, hR⟩) fun hb => ?_
        rw [Tree.isRed_mk] at hb
        exact absurd hb (by simp)
    exact .done rfl (hstale t' _ h.rep hblack hp h.frame.nil) hbal hblack

theorem removeFixStep_spec {root : ℕ} (hr : Rep t (plug c s)) (hst : ShortAt c s n) (hsb : s.isRed = false)
    (hne : c ≠ []) (hx : t.parent (ptr t.nil s) = parentId t.root c) (hroot : root = ptr t.nil (plug c s)) :
    ∃ t' x' T', removeFixStep (t.sideOf (ptr t.nil s)) t root (ptr t.nil s) = some (t', x') ∧
      Rearranged t (plug c s) t' T' ∧ Repair root t.nil c.length t' x' T' := by
  obtain ⟨f, c, rfl⟩ := List.exists_cons_of_ne_nil hne
  obtain ⟨hW, hcase⟩ := hst.around.cons_cases
  have hWl : f.sib ≠ .leaf := by
    intro hl
    rw [hl] at hW
    cases hW
  have hside : t.sideOf (ptr t.nil s) = f.dir := hr.sideOf_eq hx (.inr fun g hg => by
    rw [List.head?_cons, Option.mem_some_iff] at hg
    exact hg ▸ hWl)
  have hsib := hr.sibling_frame
  have hsibRed := hr.red_sibling
  have hs := hst.black hsb
  obtain ⟨d, pr, p, W⟩ := f
  dsimp only [parentId] at hx hside hsib hsibRed hW hcase ⊢
  rw [hside]
  cases hWr : W.isRed with
  | false =>
    have hred : pr = true → Open c (n + 1) ∧ headRed c = false ∧ c ≠ [] := by
      rintro rfl
      rcases hcase with ⟨_, _, hh, hne, hopen⟩ | ⟨hp, _⟩
      · exact ⟨hopen, hh, hne⟩
      · exact absurd hp (by simp)
    have hblk : pr = false → Open c (n + 2) ∧ c.length < (⟨d, pr, p, W⟩ :: c : Ctx (Entry K V)).length ∧
        root = ptr t.nil (plug c (.mk d pr s p W)) := by
      rintro rfl
      rcases hcase with ⟨hp, _⟩ | ⟨_, hopen⟩
      · exact absurd hp (by simp)
      · exact ⟨hopen, by simp, hroot⟩
    obtain ⟨t', x', T', heq, h, hrep⟩ := removeFixSibling_repair (c := c) (o := root) hr hs hW hWr hred hblk hx
      fun t' s' hr' hblack hp hnil => by
        rw [hroot]
        exact hr'.stale_root_black hblack hp hnil
    refine ⟨t', x', T', ?_, h, hrep⟩
    simp only [removeFixStep, hx, hsib, hsibRed, hWr, Bool.false_eq_true, if_false]
    exact heq
  | true =>
    -- the parent turns red below the old sibling, and its new sibling is black
    obtain ⟨hpr, hopen⟩ : pr = false ∧ Open c (n + 2) := by
      rcases hcase with ⟨_, hb, _⟩ | h
      · exact absurd (hWr.symm.trans hb) (by simp)
      · exact h
    subst hpr
    obtain ⟨W₁, w, W₂, rfl, hW₁, hW₂, hb₁, hb₂⟩ := balanced_red_node d hW hWr
    have h₁ := Rep.paint_far (c := c) (r := false) hr false
    have h₂ := h₁.rep.paint_node true
    obtain ⟨t₃, heq₃, h₃⟩ := h₂.rep.rotate d
    have h₃' := (h₁.trans h₂).trans h₃
    have hx₃ : t₃.parent (ptr t.nil s) = p.id :=
      h₃'.parent_place (b := ⟨d, true, p, W₁⟩ :: ⟨d, false, w, W₂⟩ :: c) hr hx rfl
    rw [← h₃'.frame.nil] at hx₃
    obtain ⟨t', x', T', heq, h, hrep⟩ := removeFixSibling_repair (c := ⟨d, false, w, W₂⟩ :: c) (o := root)
      (l := (⟨d, false, p, .mk d true W₁ w W₂⟩ :: c : Ctx (Entry K V)).length) h₃'.rep hs hW₁ hb₁
      (fun _ => ⟨.black rfl hW₂ hopen, rfl, by simp⟩) (fun hf => absurd hf (by simp)) hx₃
      fun t' s' hr' hblack hp hnil => by
        rw [h₃'.frame.nil] at hnil
        rw [hroot]
        exact Rep.stale_root_black (c := c) (s := .mk d false s' w W₂) hr' hblack hp hnil
    refine ⟨t', x', T', ?_, h₃'.trans h, by rw [← h₃'.frame.nil]; exact hrep⟩
    rw [ptr_mk] at hsib hsibRed
    rw [h₃'.frame.nil] at heq hx₃
    have hw₃ : t₃.child d.opp p.id = ptr t.nil W₁ := by
      have hp₃ := Rep.node d (c := ⟨d, false, w, W₂⟩ :: c) h₃'.rep
      rw [RBTree.child, hp₃, Entry.child_opp_node, h₃'.frame.nil]
    simp only [removeFixStep, hx, hsib, hsibRed, hWr, if_true, parent_setRed, heq₃, Option.bind_eq_bind,
      Option.bind_some, hx₃, hw₃, heq]

theorem ptr_plug_mem (nil : ℕ) (f : Frame (Entry K V)) (c : Ctx (Entry K V)) (s : Shape K V) :
    ptr nil (plug (f :: c) s) ∈ ctxIds (f :: c) := by
  induction c generalizing f s with
  | nil =>
    rw [plug_cons, plug_nil, ptr_fill]
    exact parentId_mem (r := 0) f []
  | cons g c ih => exact mem_ctxIds_cons.mpr (.inr (.inr (ih g (f.fill s))))

theorem Rep.eq_nil_of_ptr_eq (hr : Rep t (plug c s)) (h : ptr t.nil s = ptr t.nil (plug c s)) : c = [] := by
  cases c with
  | nil => rfl
  | cons f c =>
    have hin := ptr_plug_mem t.nil f c s
    rw [← h] at hin
    by_cases hs : s = .leaf
    · subst hs
      exact absurd rfl (hr.ne_nil (.inr hin))
    · exact absurd hin (hr.disjoint (mem_ptr_of_ne_leaf hs))

/-- The loop of `RemoveFix_` together with the final `x->red = false`. -/
theorem removeFixLoop_spec (fuel root : ℕ) : ∀ {t : RBTree K V} {c : Ctx (Entry K V)} {s : Shape K V} {n : ℕ},
    Rep t (plug c s) → ShortAt c s n → t.parent (ptr t.nil s) = parentId t.root c → 0 < fuel →
    (s.isRed = false → c.length < fuel ∧ root = ptr t.nil (plug c s)) →
    ∃ t' x' T' m, removeFixLoop root fuel t (ptr t.nil s) = some (t', x') ∧
      Rearranged t (plug c s) (t'.setRed x' false) T' ∧ Balanced T' m ∧ T'.isRed = false := by
  induction fuel with
  | zero => exact fun _ _ _ h _ => absurd h (Nat.lt_irrefl 0)
  | succ fuel ih =>
    intro t c s n hr hst hx _ hblk
    cases hsr : s.isRed with
    | true =>
      have hs : s ≠ .leaf := by
        rintro rfl
        exact absurd hsr (by simp)
      have hpaint : (s.paint false).isRed = false := by
        obtain ⟨red, a, e, b, rfl⟩ := Tree.exists_mk .left hs
        rw [Tree.paint_mk, Tree.isRed_mk]
      obtain ⟨m, hbal, htop⟩ := hst.around.plug_balanced (hst.red hsr) fun h =>
        absurd (h.symm.trans hpaint) (by simp)
      refine ⟨t, ptr t.nil s, _, m, ?_, hr.setRed hs false, hbal, htop⟩
      rw [removeFixLoop, if_neg]
      rw [hr.red_ptr, hsr]
      simp
    | false =>
      obtain ⟨hlen, hroot⟩ := hblk hsr
      by_cases hxr : ptr t.nil s = root
      · have hc := hr.eq_nil_of_ptr_eq (hxr.trans hroot)
        subst hc
        refine ⟨t, ptr t.nil s, s, n, ?_, ?_, hst.black hsr, hsr⟩
        · rw [removeFixLoop, if_neg]
          exact fun h => h.1 hxr
        · rw [setRed_self _ _ (hr.red_ptr.trans hsr)]
          exact .refl hr
      · have hne : c ≠ [] := by
          rintro rfl
          exact hxr hroot.symm
        obtain ⟨t₁, x₁, T₁, heq, h₁, hrep⟩ := removeFixStep_spec hr hst hsr hne hx hroot
        have hstep : removeFixLoop root (fuel + 1) t (ptr t.nil s) = removeFixLoop root fuel t₁ x₁ := by
          rw [removeFixLoop, if_pos ⟨hxr, hr.red_ptr.trans hsr⟩, heq]
          rfl
        have hpos : 0 < fuel := by
          have := List.length_pos_iff.mpr hne
          omega
        rw [hstep]
        cases hrep with
        | @up c' s' n' hx' hs' hst' hcase =>
          have hp : t₁.parent (ptr t₁.nil s') = parentId t₁.root c' := h₁.rep.parent_ptr hs'
          obtain ⟨t', x', T', m, heq', h', hbal, hblack⟩ := ih h₁.rep hst' hp hpos fun hb => by
            rcases hcase with hred | ⟨hlt, hroot'⟩
            · exact absurd (hred.symm.trans hb) (by simp)
            · exact ⟨by omega, by rw [h₁.frame.nil]; exact hroot'⟩
          rw [h₁.frame.nil] at heq'
          exact ⟨t', x', T', m, by rw [hx']; exact heq', h₁.trans h', hbal, hblack⟩
        | @done _ m hx' hblack' hbal hblack =>
          subst hx'
          refine ⟨t₁, x₁, T₁, m, ?_, ?_, hbal, hblack⟩
          · obtain ⟨k, rfl⟩ := Nat.exists_eq_succ_of_ne_zero (Nat.pos_iff_ne_zero.mp hpos)
            rw [removeFixLoop, if_neg]
            exact fun h => h.1 rfl
          · rw [setRed_self _ _ hblack']
            exact h₁

/-- A place one black node short becomes a balanced tree with a black top. -/
theorem removeFix_spec (hr : Rep t (plug c s)) (hst : ShortAt c s n) (hx : t.parent (ptr t.nil s) = parentId t.root c)
    (hlen : c.length < t.fresh) :
    ∃ t' T' m, removeFix t (ptr t.nil s) = some t' ∧ Rearranged t (plug c s) t' T' ∧ Balanced T' m ∧
      T'.isRed = false := by
  obtain ⟨t', x', T', m, heq, h, hbal, hblack⟩ := removeFixLoop_spec t.fresh (t.left t.root) hr hst hx
    (Nat.zero_lt_of_lt hlen) fun _ => ⟨hlen, hr.top⟩
  refine ⟨_, T', m, ?_, h, hbal, hblack⟩
  simp only [removeFix, hr.nilBlack, Option.bind_eq_bind, Option.bind_some, heq, h.rep.nilBlack]

end Libntech.Containers
