import Mathlib.Data.List.Basic
import Mathlib.Data.List.GetD
import Mathlib.Data.List.Rotate
import Mathlib.Data.Nat.ModEq

/-! # Cell arrays and circular arrays

A cell array is a list of optional items; an empty or never written cell is `none`. `realloc` and
`memmove` are the two block operations a growing circular array needs.

`RingHolds cells cap head xs`: the array has `cap` cells and reading `xs.length` cells from `head`,
wrapping at `cap`, gives exactly the list `xs`. The lemmas say what one write or one index move at
either end does to that list, and that doubling a full ring keeps it.
-/
namespace Libntech.Lib
set_option autoImplicit false

variable {α : Type*}

/-! ## Cell arrays -/

/-- Grow or shrink to `n` cells; new cells hold nothing. -/
def realloc (cells : List (Option α)) (n : ℕ) : List (Option α) :=
  cells.take n ++ List.replicate (n - cells.length) none

/-- Copy `n` cells from `src` to `dst`, as if through a buffer. -/
def memmove (cells : List (Option α)) (dst src n : ℕ) : List (Option α) :=
  cells.take dst ++ (cells.drop src).take n ++ cells.drop (dst + n)

@[simp] theorem realloc_length (cells : List (Option α)) (n : ℕ) :
    (realloc cells n).length = n := by
  simp only [realloc, List.length_append, List.length_take, List.length_replicate]
  omega

theorem realloc_get (cells : List (Option α)) (n i : ℕ) (hi : i < cells.length) (hn : i < n) :
    (realloc cells n).getD i none = cells.getD i none := by
  have htake : i < (cells.take n).length := by
    rw [List.length_take]
    omega
  rw [realloc, List.getD_append _ _ _ _ htake]
  simp only [List.getD_eq_getElem?_getD, List.getElem?_take, hn, if_true]

theorem memmove_length (cells : List (Option α)) (dst src n : ℕ) (hd : dst + n ≤ cells.length)
    (hs : src + n ≤ cells.length) : (memmove cells dst src n).length = cells.length := by
  simp only [memmove, List.length_append, List.length_take, List.length_drop]
  omega

theorem memmove_get_below (cells : List (Option α)) (dst src n i : ℕ) (hd : dst ≤ cells.length)
    (hi : i < dst) : (memmove cells dst src n).getD i none = cells.getD i none := by
  have hlen : (cells.take dst).length = dst := by simp only [List.length_take]; omega
  rw [memmove, List.append_assoc, List.getD_append _ _ _ _ (by rw [hlen]; exact hi)]
  simp only [List.getD_eq_getElem?_getD, List.getElem?_take, hi, if_true]

theorem memmove_get_moved (cells : List (Option α)) (dst src n i : ℕ) (hd : dst ≤ cells.length)
    (hs : src + n ≤ cells.length) (hi : i < n) :
    (memmove cells dst src n).getD (dst + i) none = cells.getD (src + i) none := by
  have hlen : (cells.take dst).length = dst := by simp only [List.length_take]; omega
  have hmid : ((cells.drop src).take n).length = n := by
    simp only [List.length_take, List.length_drop]; omega
  rw [memmove, List.append_assoc, List.getD_append_right _ _ _ _ (by rw [hlen]; omega), hlen,
    Nat.add_sub_cancel_left, List.getD_append _ _ _ _ (by rw [hmid]; exact hi)]
  simp only [List.getD_eq_getElem?_getD, List.getElem?_take, hi, if_true, List.getElem?_drop]

theorem getD_set (cells : List (Option α)) (i j : ℕ) (x : Option α) (hi : i < cells.length) :
    (cells.set i x).getD j none = if i = j then x else cells.getD j none := by
  simp only [List.getD_eq_getElem?_getD, List.getElem?_set]
  by_cases h : i = j
  · subst h; simp [hi]
  · simp [h]

/-! ## Index arithmetic -/

theorem ring_index_inj {cap head i j : ℕ} (hi : i < cap) (hj : j < cap)
    (h : (head + i) % cap = (head + j) % cap) : i = j := by
  have hmod : i ≡ j [MOD cap] := Nat.ModEq.add_left_cancel' head h
  rw [Nat.ModEq, Nat.mod_eq_of_lt hi, Nat.mod_eq_of_lt hj] at hmod
  exact hmod

theorem ring_index_advance (cap head i : ℕ) : ((head + 1) % cap + i) % cap = (head + (i + 1)) % cap := by
  rw [Nat.mod_add_mod]
  congr 1
  omega

/-- Stepping back one cell, as C writes it without a negative index. -/
def prevIndex (cap i : ℕ) : ℕ := if i = 0 then cap - 1 else i - 1

theorem prevIndex_lt {cap i : ℕ} (hi : i < cap) : prevIndex cap i < cap := by
  unfold prevIndex
  split <;> omega

theorem prevIndex_succ {cap i : ℕ} (hi : i < cap) : (prevIndex cap i + 1) % cap = i := by
  unfold prevIndex
  split
  case isTrue h =>
    subst h
    rw [Nat.sub_add_cancel (by omega), Nat.mod_self]
  case isFalse h =>
    rw [Nat.sub_add_cancel (by omega), Nat.mod_eq_of_lt hi]

/-- Stepping back from the end of a non-empty ring lands on its last cell. -/
theorem prevIndex_end {cap head n : ℕ} (hc : 0 < cap) :
    prevIndex cap ((head + (n + 1)) % cap) = (head + n) % cap := by
  have hlt := Nat.mod_lt (head + n) hc
  have hstep : (head + (n + 1)) % cap = ((head + n) % cap + 1) % cap := by
    rw [Nat.mod_add_mod]
    congr 1
  rw [hstep]
  unfold prevIndex
  by_cases hlast : (head + n) % cap + 1 = cap
  · rw [hlast, Nat.mod_self]
    simp only [if_true]
    omega
  · rw [Nat.mod_eq_of_lt (by omega)]
    simp

/-! ## What a ring holds -/

/-- The `cap` cells read from `head` on, wrapping, start with the items `xs`. -/
structure RingHolds (cells : List (Option α)) (cap head : ℕ) (xs : List α) : Prop where
  length_eq : cells.length = cap
  head_lt : head < cap
  size_le : xs.length ≤ cap
  item : ∀ i < xs.length, cells.getD ((head + i) % cap) none = xs[i]?

namespace RingHolds

variable {cells : List (Option α)} {cap head : ℕ} {x : α} {xs : List α}

theorem empty (hl : cells.length = cap) (hh : head < cap) : RingHolds cells cap head ([] : List α) :=
  ⟨hl, hh, Nat.zero_le _, by simp⟩

theorem cap_pos (h : RingHolds cells cap head xs) : 0 < cap := Nat.zero_lt_of_lt h.head_lt

theorem index_lt (h : RingHolds cells cap head xs) (i : ℕ) : (head + i) % cap < cells.length := by
  rw [h.length_eq]
  exact Nat.mod_lt _ h.cap_pos

theorem read_all (h : RingHolds cells cap head xs) :
    (List.range xs.length).map (fun i => cells.getD ((head + i) % cap) none) = xs.map some := by
  apply List.ext_getElem
  · simp
  · intro i hi _
    simp only [List.length_map, List.length_range] at hi
    simp only [List.getElem_map, List.getElem_range, h.item i hi, List.getElem?_eq_getElem hi]

theorem front (h : RingHolds cells cap head (x :: xs)) : cells.getD head none = some x := by
  have h0 := h.item 0 (by simp)
  rwa [Nat.add_zero, Nat.mod_eq_of_lt h.head_lt] at h0

theorem back (h : RingHolds cells cap head (xs ++ [x])) :
    cells.getD ((head + xs.length) % cap) none = some x := by
  have hl := h.item xs.length (by simp)
  rw [List.getElem?_concat_length] at hl
  exact hl

/-- Overwriting a cell outside the held range, whatever is written. -/
theorem set_outside (h : RingHolds cells cap head xs) {j : ℕ} (hj : xs.length ≤ j) (hjc : j < cap)
    (v : Option α) : RingHolds (cells.set ((head + j) % cap) v) cap head xs := by
  refine ⟨by rw [List.length_set, h.length_eq], h.head_lt, h.size_le, ?_⟩
  intro i hi
  rw [getD_set _ _ _ _ (h.index_lt j), if_neg, h.item i hi]
  intro hij
  have := ring_index_inj hjc (by omega) hij
  omega

theorem advance (h : RingHolds cells cap head (x :: xs)) :
    RingHolds cells cap ((head + 1) % cap) xs := by
  have hs := h.size_le
  rw [List.length_cons] at hs
  refine ⟨h.length_eq, Nat.mod_lt _ h.cap_pos, by omega, ?_⟩
  intro i hi
  rw [ring_index_advance, h.item (i + 1) (by simp; omega), List.getElem?_cons_succ]

theorem pop_front (h : RingHolds cells cap head (x :: xs)) :
    RingHolds (cells.set head none) cap ((head + 1) % cap) xs := by
  have hs := h.size_le
  rw [List.length_cons] at hs
  have hadv := h.advance.set_outside (j := cap - 1) (by omega) (by have := h.cap_pos; omega) none
  have hidx : ((head + 1) % cap + (cap - 1)) % cap = head := by
    rw [ring_index_advance, Nat.sub_add_cancel h.cap_pos, Nat.add_mod_right,
      Nat.mod_eq_of_lt h.head_lt]
  rwa [hidx] at hadv

theorem take_prefix (h : RingHolds cells cap head (xs ++ [x])) : RingHolds cells cap head xs := by
  have hs := h.size_le
  rw [List.length_append, List.length_singleton] at hs
  refine ⟨h.length_eq, h.head_lt, by omega, ?_⟩
  intro i hi
  rw [h.item i (by simp; omega), List.getElem?_append_left hi]

theorem pop_back (h : RingHolds cells cap head (xs ++ [x])) :
    RingHolds (cells.set ((head + xs.length) % cap) none) cap head xs := by
  have hs := h.size_le
  rw [List.length_append, List.length_singleton] at hs
  exact h.take_prefix.set_outside (Nat.le_refl _) (by omega) none

theorem push_back (h : RingHolds cells cap head xs) (hroom : xs.length < cap) (x : α) :
    RingHolds (cells.set ((head + xs.length) % cap) (some x)) cap head (xs ++ [x]) := by
  refine ⟨by rw [List.length_set, h.length_eq], h.head_lt, by simp; omega, ?_⟩
  intro i hi
  rw [List.length_append, List.length_singleton] at hi
  rw [getD_set _ _ _ _ (h.index_lt _)]
  by_cases hlast : i = xs.length
  · subst hlast
    rw [if_pos rfl, List.getElem?_concat_length]
  · rw [if_neg (fun hij => hlast (ring_index_inj hroom (by omega) hij).symm),
      h.item i (by omega), List.getElem?_append_left (by omega)]

theorem push_front (h : RingHolds cells cap head xs) (hroom : xs.length < cap) (x : α) :
    RingHolds (cells.set (prevIndex cap head) (some x)) cap (prevIndex cap head) (x :: xs) := by
  have hprev := prevIndex_lt h.head_lt
  refine ⟨by rw [List.length_set, h.length_eq], hprev, by simp; omega, ?_⟩
  intro i hi
  rw [List.length_cons] at hi
  rw [getD_set _ _ _ _ (by rw [h.length_eq]; exact hprev)]
  cases i with
  | zero => rw [Nat.add_zero, Nat.mod_eq_of_lt hprev, if_pos rfl, List.getElem?_cons_zero]
  | succ i =>
    have hidx : (prevIndex cap head + (i + 1)) % cap = (head + i) % cap := by
      rw [← ring_index_advance, prevIndex_succ h.head_lt]
    rw [if_neg, hidx, h.item i (by omega), List.getElem?_cons_succ]
    intro hij
    have h0 : (prevIndex cap head + 0) % cap = (prevIndex cap head + (i + 1)) % cap := by
      rw [← hij, Nat.add_zero, Nat.mod_eq_of_lt hprev]
    have := ring_index_inj h.cap_pos (by omega) h0
    omega

theorem rotate_eq (h : RingHolds cells cap head xs) (hfull : xs.length = cap) : cells.rotate head = xs.map some := by
  apply List.ext_getElem
  · rw [List.length_rotate, List.length_map, h.length_eq, hfull]
  · intro i hi _
    rw [List.length_rotate, h.length_eq] at hi
    have hitem := h.item i (by omega)
    have hlt : (i + head) % cells.length < cells.length := by
      rw [Nat.add_comm, h.length_eq, ← h.length_eq]
      exact h.length_eq ▸ h.index_lt i
    rw [List.getElem_rotate, List.getElem_map]
    rw [Nat.add_comm, ← h.length_eq, List.getD_eq_getElem _ _ hlt, List.getElem?_eq_getElem (by omega)] at hitem
    exact hitem

theorem take_eq (h : RingHolds cells cap 0 xs) : cells.take xs.length = xs.map some := by
  have hs := h.size_le
  apply List.ext_getElem
  · rw [List.length_take, List.length_map, h.length_eq]
    omega
  · intro i hi hi'
    rw [List.length_map] at hi'
    have hitem := h.item i hi'
    rw [Nat.zero_add, Nat.mod_eq_of_lt (by omega), List.getD_eq_getElem _ _ (by rw [h.length_eq]; omega),
      List.getElem?_eq_getElem hi'] at hitem
    rw [List.getElem_take, List.getElem_map]
    exact hitem

/-- Doubling a full ring: the cells from `head` up stay, the wrapped ones move up by `cap`. -/
theorem grow (h : RingHolds cells cap head xs) {cells' : List (Option α)}
    (hlen : cells'.length = cap * 2)
    (hkeep : ∀ j, head ≤ j → j < cap → cells'.getD j none = cells.getD j none)
    (hmove : ∀ j, j + cap < head + xs.length → cells'.getD (cap + j) none = cells.getD j none) :
    RingHolds cells' (cap * 2) head xs := by
  have hs := h.size_le
  have hh := h.head_lt
  refine ⟨hlen, by omega, by omega, ?_⟩
  intro i hi
  have hi' := h.item i hi
  rw [Nat.mod_eq_of_lt (by omega : head + i < cap * 2), ← hi']
  by_cases hw : head + i < cap
  · rw [Nat.mod_eq_of_lt hw, hkeep (head + i) (by omega) hw]
  · have hsub : (head + i) % cap = head + i - cap := by
      rw [Nat.mod_eq_sub_mod (by omega), Nat.mod_eq_of_lt (by omega)]
    rw [hsub, ← hmove (head + i - cap) (by omega)]
    congr 1
    omega

end RingHolds

end Libntech.Lib
