import Mathlib.Data.List.Basic

/-! # Files with a position

A file is a list of cells, and it is written at a position that may be behind its end; the gap is filled with blanks
then. A file stands behind a text if that text is what one would read up to the position, had the gap been filled
already.
-/
namespace Libntech.Lib
set_option autoImplicit false

structure PositionedFile (α : Type*) where
  cells : List α
  pos : ℕ

namespace PositionedFile

variable {α : Type*} (blank : α)

/-- Nothing is filled by a write of nothing. -/
def write (f : PositionedFile α) (data : List α) : PositionedFile α where
  cells :=
    if data = [] then f.cells
    else (f.cells.rightpad f.pos blank).take f.pos ++ data ++ f.cells.drop (f.pos + data.length)
  pos := f.pos + data.length

def advance (f : PositionedFile α) (n : ℕ) : PositionedFile α := { f with pos := f.pos + n }

def resize (f : PositionedFile α) (n : ℕ) : PositionedFile α := { f with cells := (f.cells.rightpad n blank).take n }

theorem write_inside {f : PositionedFile α} {data : List α} (hne : data ≠ []) (h : f.pos + data.length ≤ f.cells.length) :
    (f.write blank data).cells = f.cells.take f.pos ++ data ++ f.cells.drop (f.pos + data.length) := by
  have hfull : f.pos - f.cells.length = 0 := Nat.sub_eq_zero_of_le (Nat.le_trans (Nat.le_add_right _ _) h)
  rw [write, if_neg hne, List.rightpad, hfull, List.replicate_zero, List.append_nil]

/-! ## Standing behind a text -/

structure StandsBehind (f : PositionedFile α) (text : List α) : Prop where
  pos : f.pos = text.length
  cells : f.cells.rightpad f.pos blank = text

variable {blank} {f : PositionedFile α} {text data : List α}

theorem standsBehind_nil : StandsBehind blank ⟨[], 0⟩ [] := ⟨rfl, rfl⟩

theorem StandsBehind.short (h : StandsBehind blank f text) : f.cells.length ≤ f.pos := by
  have hlength := congrArg List.length h.cells
  rw [List.rightpad, List.length_append, List.length_replicate, ← h.pos] at hlength
  omega

theorem StandsBehind.advance (h : StandsBehind blank f text) (n : ℕ) :
    StandsBehind blank (f.advance n) (text ++ List.replicate n blank) := by
  have hshort := h.short
  have hcells := h.cells
  unfold PositionedFile.advance
  refine ⟨by rw [List.length_append, List.length_replicate, h.pos], ?_⟩
  rw [List.rightpad] at hcells ⊢
  rw [← hcells, List.append_assoc, List.replicate_append_replicate]
  congr 2
  dsimp only
  omega

theorem StandsBehind.write_cells (h : StandsBehind blank f text) (hne : data ≠ []) :
    (f.write blank data).cells = text ++ data := by
  have hshort := h.short
  unfold PositionedFile.write
  rw [if_neg hne, h.cells, h.pos, List.take_length, List.drop_eq_nil_of_le (by rw [← h.pos]; omega), List.append_nil]

theorem StandsBehind.write (h : StandsBehind blank f text) (data : List α) :
    StandsBehind blank (f.write blank data) (text ++ data) := by
  refine ⟨by rw [PositionedFile.write, h.pos, List.length_append], ?_⟩
  by_cases hne : data = []
  · subst hne
    rw [List.append_nil]
    exact h.cells
  · rw [h.write_cells hne, PositionedFile.write, h.pos, ← List.length_append, List.rightpad, Nat.sub_self]
    exact List.append_nil _

theorem resize_cells {rest : List α} (h : f.cells = text ++ rest) : (f.resize blank text.length).cells = text := by
  rw [PositionedFile.resize, h, List.rightpad, List.append_assoc, List.take_left]

end PositionedFile

end Libntech.Lib
