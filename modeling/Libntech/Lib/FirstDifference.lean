import Mathlib.Order.Lattice

/-! # Lists ordered by their first difference

One list is below another when it has the smaller element at the first place where they differ. Lists of which one begins
with the other are not ordered, whatever their lengths: so it is an order, but being unordered is not an equivalence.
-/
namespace Libntech.Lib
set_option autoImplicit false

inductive Below {α : Type} [LT α] : List α → List α → Prop where
  | head {x y : α} (as bs : List α) : x < y → Below (x :: as) (y :: bs)
  | tail (x : α) {as bs : List α} : Below as bs → Below (x :: as) (x :: bs)

/-- One list begins with the other. -/
def Comparable {α : Type} (a b : List α) : Prop := a <+: b ∨ b <+: a

namespace Below

variable {α : Type} [LinearOrder α] {a b c : List α}

theorem irrefl (a : List α) : ¬ Below a a := by
  intro h
  induction a with
  | nil => cases h
  | cons x as ih =>
    cases h with
    | head _ _ hlt => exact lt_irrefl x hlt
    | tail _ h => exact ih h

/-- The lists differ first where one of the pairs does first, and there the middle list is between them. -/
theorem trans (hab : Below a b) (hbc : Below b c) : Below a c := by
  induction hab generalizing c with
  | head as bs hlt =>
    cases hbc with
    | head _ cs hlt' => exact head _ _ (lt_trans hlt hlt')
    | tail _ h => exact head _ _ hlt
  | tail x _ ih =>
    cases hbc with
    | head _ cs hlt' => exact head _ _ hlt'
    | tail _ h => exact tail x (ih h)

theorem asymm (hab : Below a b) : ¬ Below b a := fun hba => irrefl a (hab.trans hba)

theorem not_comparable (h : Below a b) : ¬ Comparable a b := by
  induction h with
  | head as bs hlt =>
    rintro (hp | hp)
    · exact ne_of_lt hlt (List.cons_prefix_cons.mp hp).1
    · exact ne_of_gt hlt (List.cons_prefix_cons.mp hp).1
  | tail x _ ih =>
    rintro (hp | hp)
    · exact ih (.inl (List.cons_prefix_cons.mp hp).2)
    · exact ih (.inr (List.cons_prefix_cons.mp hp).2)

end Below

section Comparable

variable {α : Type} {a b : List α}

theorem Comparable.symm (h : Comparable a b) : Comparable b a := Or.symm h

theorem comparable_comm : Comparable a b ↔ Comparable b a := ⟨Comparable.symm, Comparable.symm⟩

@[simp] theorem comparable_nil_left (b : List α) : Comparable [] b := .inl List.nil_prefix

@[simp] theorem comparable_nil_right (a : List α) : Comparable a [] := .inr List.nil_prefix

@[simp] theorem comparable_cons {x y : α} {as bs : List α} :
    Comparable (x :: as) (y :: bs) ↔ x = y ∧ Comparable as bs := by
  simp only [Comparable, List.cons_prefix_cons, eq_comm (a := y)]
  rw [and_or_left]

variable [LinearOrder α]

@[simp] theorem not_below_nil_left (b : List α) : ¬ Below [] b := by
  intro h
  cases h

@[simp] theorem not_below_nil_right (a : List α) : ¬ Below a [] := by
  intro h
  cases h

@[simp] theorem below_cons {x y : α} {as bs : List α} : Below (x :: as) (y :: bs) ↔ x < y ∨ x = y ∧ Below as bs := by
  constructor
  · intro h
    cases h with
    | head _ _ hlt => exact .inl hlt
    | tail _ h => exact .inr ⟨rfl, h⟩
  · rintro (hlt | ⟨rfl, h⟩)
    · exact .head _ _ hlt
    · exact .tail x h

end Comparable

end Libntech.Lib
