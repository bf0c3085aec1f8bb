import Mathlib.Data.List.TakeWhile

/-! # Lists that end in a terminator

What is read of a list is what stands in front of the first terminator in it.
-/
namespace Libntech.Lib
set_option autoImplicit false

variable {α : Type} [DecidableEq α] {terminator : α} {text : List α}

theorem takeWhile_ne_append (h : terminator ∉ text) (rest : List α) :
    (text ++ rest).takeWhile (· ≠ terminator) = text ++ rest.takeWhile (· ≠ terminator) :=
  List.takeWhile_append_of_pos fun _ hc => decide_eq_true fun heq => h (heq ▸ hc)

theorem takeWhile_ne_terminated (h : terminator ∉ text) (rest : List α) :
    (text ++ terminator :: rest).takeWhile (· ≠ terminator) = text := by
  rw [takeWhile_ne_append h, List.takeWhile_cons_of_neg (by simp), List.append_nil]

theorem takeWhile_ne_self (h : terminator ∉ text) : text.takeWhile (· ≠ terminator) = text := by
  rw [List.takeWhile_eq_self_iff]
  exact fun c hc => decide_eq_true fun heq => h (heq ▸ hc)

theorem notMem_takeWhile_ne (terminator : α) (text : List α) : terminator ∉ text.takeWhile (· ≠ terminator) := by
  intro h
  have hne := List.mem_takeWhile_imp h
  simp at hne

end Libntech.Lib
