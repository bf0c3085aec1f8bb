import Mathlib.Data.List.Basic
import Mathlib.Tactic.Tauto

/-! # Red-black trees with a hole

Binary trees with coloured nodes and a payload, seen from a focus: a subtree `s` and the frames `c` that
surround it, innermost first. `plug c s` is the whole tree. The two mirror images of every statement are
one: `Tree.mk d` builds a node whose child on side `d` comes first.

`Balanced s n`: no red node has a red child and every path crosses `n` black nodes.
`Open c n`: the frames become a balanced tree with a black top when the hole is filled by a balanced tree
of black height `n` whose colour they can take. Insertion fills a hole with a red tree, deletion leaves a
hole one black node short; the lemmas at the end are the repair cases of both, each as a fact about the
small tree before and after.
-/
namespace Libntech.Lib.RedBlack
set_option autoImplicit false

variable {α : Type*}

inductive Dir where
  | left
  | right
  deriving DecidableEq

def Dir.opp : Dir → Dir
  | .left => .right
  | .right => .left

@[simp] theorem Dir.opp_opp (d : Dir) : d.opp.opp = d := by cases d <;> rfl

theorem Dir.eq_or_opp (d e : Dir) : d = e ∨ d = e.opp := by
  cases d <;> cases e <;> simp [Dir.opp]

inductive Tree (α : Type*) where
  | leaf
  | node (red : Bool) (l : Tree α) (a : α) (r : Tree α)

variable {n : ℕ} {s t u : Tree α} {a : α}

namespace Tree

/-- The node with child `s` on side `d` and child `u` on the other. -/
def mk (d : Dir) (red : Bool) (s : Tree α) (a : α) (u : Tree α) : Tree α :=
  match d with
  | .left => .node red s a u
  | .right => .node red u a s

theorem mk_opp (d : Dir) (red : Bool) (s : Tree α) (a : α) (u : Tree α) :
    mk d.opp red s a u = mk d red u a s := by
  cases d <;> rfl

theorem exists_mk (d : Dir) (h : t ≠ leaf) : ∃ red s a u, t = mk d red s a u := by
  cases t with
  | leaf => exact absurd rfl h
  | node red l a r =>
    cases d
    · exact ⟨red, l, a, r, rfl⟩
    · exact ⟨red, r, a, l, rfl⟩

def isRed : Tree α → Bool
  | leaf => false
  | node red _ _ _ => red

@[simp] theorem isRed_leaf : (leaf : Tree α).isRed = false := rfl

@[simp] theorem isRed_mk (d : Dir) (red : Bool) (s : Tree α) (a : α) (u : Tree α) :
    (mk d red s a u).isRed = red := by
  cases d <;> rfl

def paint (red : Bool) : Tree α → Tree α
  | leaf => leaf
  | node _ l a r => node red l a r

@[simp] theorem paint_mk (d : Dir) (red red' : Bool) (s : Tree α) (a : α) (u : Tree α) :
    (mk d red s a u).paint red' = mk d red' s a u := by
  cases d <;> rfl

def inorder : Tree α → List α
  | leaf => []
  | node _ l a r => l.inorder ++ a :: r.inorder

@[simp] theorem inorder_leaf : (leaf : Tree α).inorder = [] := rfl

@[simp] theorem inorder_node (red : Bool) (l : Tree α) (a : α) (r : Tree α) :
    (node red l a r).inorder = l.inorder ++ a :: r.inorder := rfl

theorem inorder_paint (red : Bool) (t : Tree α) : (t.paint red).inorder = t.inorder := by
  cases t <;> rfl

/-- Rotating towards `d` keeps the in-order sequence. -/
theorem inorder_rotate (d : Dir) (cx cy cx' cy' : Bool) (s : Tree α) (x : α) (b : Tree α) (y : α)
    (u : Tree α) :
    (mk d cy' (mk d cx' s x b) y u).inorder = (mk d cx s x (mk d cy b y u)).inorder := by
  cases d <;> simp [mk]

end Tree
open RedBlack.Tree

/-! ## Balance -/

inductive Balanced : Tree α → ℕ → Prop where
  | leaf : Balanced .leaf 0
  | red {l r : Tree α} {a : α} {n : ℕ} : Balanced l n → Balanced r n → l.isRed = false →
      r.isRed = false → Balanced (.node true l a r) n
  | black {l r : Tree α} {a : α} {n : ℕ} : Balanced l n → Balanced r n →
      Balanced (.node false l a r) (n + 1)

theorem balanced_red_iff (d : Dir) :
    Balanced (mk d true s a u) n ↔
      Balanced s n ∧ Balanced u n ∧ s.isRed = false ∧ u.isRed = false := by
  cases d
  · constructor
    · intro h
      cases h with
      | red hs hu hsr hur => exact ⟨hs, hu, hsr, hur⟩
    · rintro ⟨hs, hu, hsr, hur⟩
      exact .red hs hu hsr hur
  · constructor
    · intro h
      cases h with
      | red hu hs hur hsr => exact ⟨hs, hu, hsr, hur⟩
    · rintro ⟨hs, hu, hsr, hur⟩
      exact .red hu hs hur hsr

theorem balanced_black_iff (d : Dir) : Balanced (mk d false s a u) (n + 1) ↔ Balanced s n ∧ Balanced u n := by
  cases d
  · constructor
    · intro h
      cases h with
      | black hs hu => exact ⟨hs, hu⟩
    · rintro ⟨hs, hu⟩
      exact .black hs hu
  · constructor
    · intro h
      cases h with
      | black hu hs => exact ⟨hs, hu⟩
    · rintro ⟨hs, hu⟩
      exact .black hu hs

theorem balanced_black_pos (d : Dir) (h : Balanced (mk d false s a u) n) :
    ∃ m, n = m + 1 ∧ Balanced s m ∧ Balanced u m := by
  obtain ⟨m, rfl⟩ : ∃ m, n = m + 1 := by
    cases d <;> cases h <;> exact ⟨_, rfl⟩
  exact ⟨m, rfl, (balanced_black_iff d).mp h⟩

/-- A black subtree of positive black height has a node, and says what its children are. -/
theorem balanced_black_node (d : Dir) (h : Balanced t (n + 1)) (hb : t.isRed = false) :
    ∃ s a u, t = mk d false s a u ∧ Balanced s n ∧ Balanced u n := by
  have hne : t ≠ .leaf := by
    rintro rfl
    cases h
  obtain ⟨red, s, a, u, rfl⟩ := exists_mk d hne
  rw [isRed_mk] at hb
  subst hb
  exact ⟨s, a, u, rfl, (balanced_black_iff d).mp h⟩

theorem balanced_red_node (d : Dir) (h : Balanced t n) (hr : t.isRed = true) :
    ∃ s a u, t = mk d true s a u ∧ Balanced s n ∧ Balanced u n ∧ s.isRed = false ∧ u.isRed = false := by
  have hne : t ≠ .leaf := by
    rintro rfl
    exact absurd hr (by simp)
  obtain ⟨red, s, a, u, rfl⟩ := exists_mk d hne
  rw [isRed_mk] at hr
  subst hr
  exact ⟨s, a, u, rfl, (balanced_red_iff d).mp h⟩

theorem Balanced.paint_red (h : Balanced t n) (hr : t.isRed = true) : Balanced (t.paint false) (n + 1) := by
  obtain ⟨s, a, u, rfl, hs, hu, _, _⟩ := balanced_red_node .left h hr
  rw [paint_mk]
  exact (balanced_black_iff .left).mpr ⟨hs, hu⟩

theorem paint_black_eq (h : t.isRed = false) : t.paint false = t := by
  cases t with
  | leaf => rfl
  | node red l a r => cases red with
    | false => rfl
    | true => exact absurd h (by simp [isRed])

/-! ## Frames -/

/-- One level above the hole: the hole is the child on side `dir` of a node with payload `a`. -/
structure Frame (α : Type*) where
  dir : Dir
  red : Bool
  a : α
  sib : Tree α

abbrev Ctx (α : Type*) := List (Frame α)

def Frame.fill (f : Frame α) (t : Tree α) : Tree α := Tree.mk f.dir f.red t f.a f.sib

def plug : Ctx α → Tree α → Tree α
  | [], t => t
  | f :: c, t => plug c (f.fill t)

@[simp] theorem plug_nil (t : Tree α) : plug [] t = t := rfl
@[simp] theorem plug_cons (f : Frame α) (c : Ctx α) (t : Tree α) : plug (f :: c) t = plug c (f.fill t) := rfl

theorem plug_append (c c' : Ctx α) (t : Tree α) : plug (c ++ c') t = plug c' (plug c t) := by
  induction c generalizing t with
  | nil => rfl
  | cons f c ih => exact ih (f.fill t)

/-- The payloads left of the hole, in order. -/
def before : Ctx α → List α
  | [] => []
  | f :: c =>
    match f.dir with
    | .left => before c
    | .right => before c ++ (f.sib.inorder ++ [f.a])

/-- The payloads right of the hole, in order. -/
def after : Ctx α → List α
  | [] => []
  | f :: c =>
    match f.dir with
    | .left => f.a :: f.sib.inorder ++ after c
    | .right => after c

def entries (c : Ctx α) (t : Tree α) : List α := before c ++ t.inorder ++ after c

theorem entries_cons (f : Frame α) (c : Ctx α) (t : Tree α) :
    entries (f :: c) t = entries c (f.fill t) := by
  obtain ⟨dir, red, a, sib⟩ := f
  cases dir <;> simp [entries, before, after, Frame.fill, mk]

theorem entries_congr (c : Ctx α) {t' : Tree α} (h : t.inorder = t'.inorder) :
    entries c t = entries c t' := by
  rw [entries, entries, h]

theorem inorder_plug (c : Ctx α) (t : Tree α) : (plug c t).inorder = entries c t := by
  induction c generalizing t with
  | nil => simp [entries, before, after]
  | cons f c ih => rw [plug_cons, ih, entries_cons]

theorem before_append (c c' : Ctx α) : before (c ++ c') = before c' ++ before c := by
  induction c with
  | nil => exact (List.append_nil _).symm
  | cons f c ih =>
    obtain ⟨dir, red, a, sib⟩ := f
    cases dir with
    | left => exact ih
    | right => simp only [List.cons_append, before, ih, List.append_assoc]

theorem after_append (c c' : Ctx α) : after (c ++ c') = after c ++ after c' := by
  induction c with
  | nil => rfl
  | cons f c ih =>
    obtain ⟨dir, red, a, sib⟩ := f
    cases dir with
    | left => simp only [List.cons_append, after, ih, List.append_assoc]
    | right => exact ih

theorem exists_place (t : Tree α) : ∀ {A B : List α} {a : α}, t.inorder = A ++ a :: B →
    ∃ c red l r, t = plug c (.node red l a r) ∧ before c ++ l.inorder = A ∧ r.inorder ++ after c = B := by
  induction t with
  | leaf =>
    intro A B a h
    exact absurd h (by simp)
  | node red l x r ihl ihr =>
    intro A B a h
    rw [inorder_node, List.append_eq_append_iff] at h
    rcases h with ⟨D, rfl, hD⟩ | ⟨D, hA, hD⟩
    · cases D with
      | nil =>
        rw [List.nil_append, List.cons.injEq] at hD
        obtain ⟨rfl, rfl⟩ := hD
        exact ⟨[], red, l, r, rfl, by simp [before], by simp [after]⟩
      | cons y D =>
        rw [List.cons_append, List.cons.injEq] at hD
        obtain ⟨rfl, hD⟩ := hD
        obtain ⟨c, red', l', r', rfl, hA, hB⟩ := ihr hD
        refine ⟨c ++ [⟨.right, red, x, l⟩], red', l', r', ?_, ?_, ?_⟩
        · rw [plug_append]
          rfl
        · simp [before_append, before, ← hA]
        · simp [after_append, after, ← hB]
    · cases D with
      | nil =>
        rw [List.nil_append, List.cons.injEq] at hD
        obtain ⟨rfl, rfl⟩ := hD
        rw [List.append_nil] at hA
        exact ⟨[], red, l, r, rfl, by simp [before, hA], by simp [after]⟩
      | cons y D =>
        rw [List.cons_append, List.cons.injEq] at hD
        obtain ⟨rfl, rfl⟩ := hD
        obtain ⟨c, red', l', r', rfl, hA, hB⟩ := ihl hA
        refine ⟨c ++ [⟨.left, red, x, r⟩], red', l', r', ?_, ?_, ?_⟩
        · rw [plug_append]
          rfl
        · simp [before_append, before, ← hA]
        · simp [after_append, after, ← hB]

def headRed : Ctx α → Bool
  | [] => false
  | f :: _ => f.red

/-- The surroundings of a hole of black height `n`. -/
inductive Open : Ctx α → ℕ → Prop where
  | top (n : ℕ) : Open [] n
  | red {f g : Frame α} {c : Ctx α} {n : ℕ} : f.red = true → g.red = false → Balanced f.sib n →
      f.sib.isRed = false → Open (g :: c) n → Open (f :: g :: c) n
  | black {f : Frame α} {c : Ctx α} {n : ℕ} : f.red = false → Balanced f.sib n → Open c (n + 1) →
      Open (f :: c) n

variable {c : Ctx α}

theorem Open.cons_cases {f : Frame α} (h : Open (f :: c) n) :
    Balanced f.sib n ∧
      ((f.red = true ∧ f.sib.isRed = false ∧ headRed c = false ∧ c ≠ [] ∧ Open c n) ∨
        (f.red = false ∧ Open c (n + 1))) := by
  cases h with
  | red hf hg hs hsr hc => exact ⟨hs, .inl ⟨hf, hsr, hg, by simp, hc⟩⟩
  | black hf hs hc => exact ⟨hs, .inr ⟨hf, hc⟩⟩

theorem Open.cons_red {f : Frame α} (hr : f.red = true) (hs : Balanced f.sib n) (hsr : f.sib.isRed = false)
    (hh : headRed c = false) (hne : c ≠ []) (hc : Open c n) :
    Open (f :: c) n := by
  cases c with
  | nil => exact absurd rfl hne
  | cons g c => exact .red hr hh hs hsr hc

/-- A filled hole: the whole tree is balanced and its top is black. -/
theorem Open.plug_balanced (h : Open c n) (ht : Balanced t n) (hcol : t.isRed = true → headRed c = false ∧ c ≠ []) :
    ∃ m, Balanced (plug c t) m ∧ (plug c t).isRed = false := by
  induction h generalizing t with
  | top n =>
    refine ⟨n, ht, ?_⟩
    rw [plug_nil]
    by_contra hr
    rw [Bool.not_eq_false] at hr
    exact (hcol hr).2 rfl
  | @red f g c n hf hg hs hsr hc ih =>
    have htb : t.isRed = false := by
      by_contra hr
      rw [Bool.not_eq_false] at hr
      exact Bool.false_ne_true ((hcol hr).1.symm.trans hf)
    refine ih (t := f.fill t) ?_ (fun _ => ⟨hg, by simp⟩)
    rw [Frame.fill, hf]
    exact (balanced_red_iff f.dir).mpr ⟨ht, hs, htb, hsr⟩
  | @black f c n hf hs hc ih =>
    refine ih (t := f.fill t) ?_ (fun hr => ?_)
    · rw [Frame.fill, hf]
      exact (balanced_black_iff f.dir).mpr ⟨ht, hs⟩
    · rw [Frame.fill, isRed_mk, hf] at hr
      exact absurd hr Bool.false_ne_true

theorem Open.of_plug {m : ℕ} (h : Balanced (plug c t) m) (hb : (plug c t).isRed = false) :
    ∃ n, Open c n ∧ Balanced t n ∧ (t.isRed = true → headRed c = false ∧ c ≠ []) := by
  induction c generalizing t with
  | nil => exact ⟨m, .top m, h, fun hr => absurd (hr.symm.trans hb) Bool.false_ne_true.symm⟩
  | cons f c ih =>
    obtain ⟨n, hc, hbal, hcol⟩ := ih (t := f.fill t) h hb
    rw [Frame.fill, isRed_mk] at hcol
    rw [Frame.fill] at hbal
    cases hf : f.red with
    | true =>
      rw [hf] at hbal
      obtain ⟨ht, hs, htb, hsb⟩ := (balanced_red_iff f.dir).mp hbal
      obtain ⟨hh, hne⟩ := hcol hf
      exact ⟨n, .cons_red hf hs hsb hh hne hc, ht, fun hr => absurd (hr.symm.trans htb) Bool.false_ne_true.symm⟩
    | false =>
      rw [hf] at hbal
      obtain ⟨n, rfl, ht, hs⟩ := balanced_black_pos f.dir hbal
      exact ⟨n, .black hf hs hc, ht, fun _ => ⟨hf, by simp⟩⟩

end Libntech.Lib.RedBlack
