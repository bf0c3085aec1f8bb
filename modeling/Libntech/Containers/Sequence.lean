import Mathlib.Data.List.Perm.Basic
import Mathlib.Tactic.Ring

/-! # Sorting a `Seq` (`libutils/sequence.c`)

`SeqSort` is a quicksort in place. The model keeps the pointers `l` and `r` as indices into the whole sequence:
a read or a write outside of it is `none`, and so is a loop that has not ended after a turn for every item.
A comparator that calls every item equal to itself is enough to stay inside and to lose no item.
-/
namespace Libntech.Containers
set_option autoImplicit false

variable {α : Type}

/-- A number converted to an `int`. -/
@[irreducible] def toInt (n : ℤ) : ℤ := n.bmod (2 ^ 32)

theorem toInt_le (n : ℕ) : toInt n ≤ n := by
  rw [toInt, Int.bmod_def]
  split
  · omega
  · omega

theorem toInt_zero : toInt 0 = 0 := by
  rw [toInt]
  rfl

def itemAt (a : List α) (i : ℤ) : Option α := if 0 ≤ i then a[i.toNat]? else none

/-- `Swap` -/
def swapItems (a : List α) (l r : ℤ) : Option (List α) := do
  let x ← itemAt a l
  let y ← itemAt a r
  return (a.set l.toNat y).set r.toNat x

section Sorting

variable (Compare : α → α → ℤ)

/-- `while (Compare(*l, pivot) < 0) ++l;` -/
def scanUp (a : List α) (pivot : α) : ℕ → ℤ → Option ℤ
  | 0, _ => none
  | fuel + 1, l => do
    let x ← itemAt a l
    if Compare x pivot < 0 then scanUp a pivot fuel (l + 1) else some l

/-- `while (Compare(*r, pivot) > 0) --r;` -/
def scanDown (a : List α) (pivot : α) : ℕ → ℤ → Option ℤ
  | 0, _ => none
  | fuel + 1, r => do
    let x ← itemAt a r
    if 0 < Compare x pivot then scanDown a pivot fuel (r - 1) else some r

def partitionLoop (pivot : α) : ℕ → List α → ℤ → ℤ → Option (List α × ℤ × ℤ)
  | 0, _, _, _ => none
  | fuel + 1, a, l, r =>
    if l ≤ r then do
      let l ← scanUp Compare a pivot (a.length + 1) l
      let r ← scanDown Compare a pivot (a.length + 1) r
      if l ≤ r then do
        let a ← swapItems a l r
        partitionLoop pivot fuel a (l + 1) (r - 1)
      else partitionLoop pivot fuel a l r
    else some (a, l, r)

/-- `QuickSortRecursive` on the `n` items from index `data` on. -/
def quickSortRecursive : ℕ → List α → ℤ → ℤ → Option (List α)
  | 0, _, _, _ => none
  | fuel + 1, a, data, n =>
    if n < 2 then some a
    else do
      let pivot ← itemAt a (data + n / 2)
      let (a, l, r) ← partitionLoop Compare pivot (a.length + 1) a data (data + n - 1)
      let a ← quickSortRecursive fuel a data (r - data + 1)
      quickSortRecursive fuel a l (data + n - l)

/-- `SeqSort`. The length is passed on as an `int`. -/
def seqSort (a : List α) : Option (List α) :=
  quickSortRecursive Compare (a.length + 1) a 0 (toInt a.length)

end Sorting

/-! ## Items in range -/

theorem itemAt_of_lt (a : List α) {i : ℤ} (h0 : 0 ≤ i) (hi : i < a.length) : ∃ x, itemAt a i = some x := by
  have hlt : i.toNat < a.length := by omega
  exact ⟨a[i.toNat], by rw [itemAt, if_pos h0, List.getElem?_eq_getElem hlt]⟩

variable {a : List α} {l r : ℤ} {y : α}

theorem lt_of_itemAt {i : ℤ} {x : α} (h : itemAt a i = some x) : 0 ≤ i ∧ i < a.length := by
  unfold itemAt at h
  split at h
  · obtain ⟨hlt, _⟩ := List.getElem?_eq_some_iff.mp h
    omega
  · cases h

/-- A swap of two items in range: both are in their new place, and no item is lost. -/
theorem swapItems_spec {x : α} (hl : itemAt a l = some x) (hr : itemAt a r = some y) :
    ∃ b, swapItems a l r = some b ∧ b.Perm a ∧ b.length = a.length ∧ itemAt b l = some y ∧ itemAt b r = some x := by
  obtain ⟨hl0, hl1⟩ := lt_of_itemAt hl
  obtain ⟨hr0, hr1⟩ := lt_of_itemAt hr
  have hln : l.toNat < a.length := by omega
  have hrn : r.toNat < a.length := by omega
  have hx : a[l.toNat] = x := by
    rw [itemAt, if_pos hl0, List.getElem?_eq_getElem hln] at hl
    exact Option.some.inj hl
  have hy : a[r.toNat] = y := by
    rw [itemAt, if_pos hr0, List.getElem?_eq_getElem hrn] at hr
    exact Option.some.inj hr
  refine ⟨(a.set l.toNat y).set r.toNat x, by rw [swapItems, hl, hr]; rfl, ?_, by simp, ?_, ?_⟩
  · subst hx hy
    exact List.set_set_perm hln hrn
  · rw [itemAt, if_pos hl0]
    by_cases heq : l = r
    · subst heq
      rw [List.getElem?_set_self (by simpa using hln), ← hx, ← hy]
    · have hne : r.toNat ≠ l.toNat := by omega
      rw [List.getElem?_set_ne hne, List.getElem?_set_self hln]
  · rw [itemAt, if_pos hr0, List.getElem?_set_self (by simpa using hrn)]

/-! ## Scanning for the next item out of place -/

section Partition

variable {Compare : α → α → ℤ} {pivot : α}

variable {j : ℤ}

theorem scanUp_spec (hj : itemAt a j = some y) (hy : ¬ Compare y pivot < 0) (fuel : ℕ) :
    ∀ {l : ℤ}, 0 ≤ l → l ≤ j → j - l < fuel →
    ∃ l' x, scanUp Compare a pivot fuel l = some l' ∧ l ≤ l' ∧ l' ≤ j ∧ itemAt a l' = some x ∧
      ¬ Compare x pivot < 0 := by
  induction fuel with
  | zero => exact fun _ _ hfuel => absurd hfuel (by omega)
  | succ fuel ih =>
    intro l h0 hlj hfuel
    obtain ⟨x, hx⟩ := itemAt_of_lt a h0 (by have := (lt_of_itemAt hj).2; omega)
    by_cases hlt : Compare x pivot < 0
    · have hne : l ≠ j := by
        rintro rfl
        rw [hx, Option.some.injEq] at hj
        rw [hj] at hlt
        exact hy hlt
      obtain ⟨l', x', heq, hle, hle', hx', hge⟩ := ih (l := l + 1) (by omega) (by omega) (by omega)
      refine ⟨l', x', ?_, by omega, hle', hx', hge⟩
      simp only [scanUp, hx, Option.bind_eq_bind, Option.bind_some, hlt, if_true, heq]
    · refine ⟨l, x, ?_, Int.le_refl _, hlj, hx, hlt⟩
      simp only [scanUp, hx, Option.bind_eq_bind, Option.bind_some, hlt, if_false]

theorem scanDown_spec (hj : itemAt a j = some y) (hy : ¬ 0 < Compare y pivot) (fuel : ℕ) :
    ∀ {r : ℤ}, r < a.length → j ≤ r → r - j < fuel →
    ∃ r' x, scanDown Compare a pivot fuel r = some r' ∧ j ≤ r' ∧ r' ≤ r ∧ itemAt a r' = some x ∧
      ¬ 0 < Compare x pivot := by
  induction fuel with
  | zero => exact fun _ _ hfuel => absurd hfuel (by omega)
  | succ fuel ih =>
    intro r hlen hjr hfuel
    obtain ⟨x, hx⟩ := itemAt_of_lt a (by have := (lt_of_itemAt hj).1; omega) hlen
    by_cases hlt : 0 < Compare x pivot
    · have hne : r ≠ j := by
        rintro rfl
        rw [hx, Option.some.injEq] at hj
        rw [hj] at hlt
        exact hy hlt
      obtain ⟨r', x', heq, hle, hle', hx', hge⟩ := ih (r := r - 1) (by omega) (by omega) (by omega)
      refine ⟨r', x', ?_, hle, by omega, hx', hge⟩
      simp only [scanDown, hx, Option.bind_eq_bind, Option.bind_some, hlt, if_true, heq]
    · refine ⟨r, x, ?_, hjr, Int.le_refl _, hx, hlt⟩
      simp only [scanDown, hx, Option.bind_eq_bind, Option.bind_some, hlt, if_false]

/-- An item that stops the scan up, and one that stops the scan down. -/
def StopsUp (Compare : α → α → ℤ) (pivot : α) (a : List α) (j : ℤ) : Prop :=
  ∃ y, itemAt a j = some y ∧ ¬ Compare y pivot < 0

def StopsDown (Compare : α → α → ℤ) (pivot : α) (a : List α) (j : ℤ) : Prop :=
  ∃ y, itemAt a j = some y ∧ ¬ 0 < Compare y pivot

theorem partitionLoop_done (fuel : ℕ) (h : r < l) :
    partitionLoop Compare pivot (fuel + 1) a l r = some (a, l, r) := by
  rw [partitionLoop, if_neg (by omega)]

/-- One turn: the scans stop, and the two items they stop at change places unless the scans have crossed. -/
theorem partitionLoop_turn {k : ℤ} (hl : 0 ≤ l) (hr : r < a.length) (hlr : l ≤ r) (hj : StopsUp Compare pivot a j)
    (hlj : l ≤ j) (hk : StopsDown Compare pivot a k) (hkr : k ≤ r) (fuel : ℕ) :
    ∃ l' r', l ≤ l' ∧ l' ≤ j ∧ k ≤ r' ∧ r' ≤ r ∧
      ((r' < l' ∧ partitionLoop Compare pivot (fuel + 1) a l r = partitionLoop Compare pivot fuel a l' r') ∨
        l' ≤ r' ∧ ∃ b, b.Perm a ∧ b.length = a.length ∧ StopsUp Compare pivot b r' ∧ StopsDown Compare pivot b l' ∧
          partitionLoop Compare pivot (fuel + 1) a l r = partitionLoop Compare pivot fuel b (l' + 1) (r' - 1)) := by
  obtain ⟨y, hj, hy⟩ := hj
  obtain ⟨z, hk, hz⟩ := hk
  have hjlen := lt_of_itemAt hj
  have hklen := lt_of_itemAt hk
  obtain ⟨l', x, hup, hll, hlj', hx, hxp⟩ := scanUp_spec hj hy (a.length + 1) hl hlj (by omega)
  obtain ⟨r', x', hdown, hkr', hrr, hx', hxp'⟩ := scanDown_spec hk hz (a.length + 1) hr hkr (by omega)
  refine ⟨l', r', hll, hlj', hkr', hrr, ?_⟩
  by_cases hcross : l' ≤ r'
  · obtain ⟨b, hb, hperm, hblen, hbl, hbr⟩ := swapItems_spec hx hx'
    refine .inr ⟨hcross, b, hperm, hblen, ⟨x, hbr, hxp⟩, ⟨x', hbl, hxp'⟩, ?_⟩
    rw [partitionLoop, if_pos hlr, hup, hdown]
    simp only [Option.bind_eq_bind, Option.bind_some, hcross, if_true, hb]
  · refine .inl ⟨by omega, ?_⟩
    rw [partitionLoop, if_pos hlr, hup, hdown]
    simp only [Option.bind_eq_bind, Option.bind_some, hcross, if_false]

/-- The loop from a state in which both scans still have an item to stop at. -/
theorem partitionLoop_spec (fuel : ℕ) : ∀ {a : List α} {l r : ℤ}, 0 ≤ l → r < a.length →
    (l ≤ r → ∃ j k, StopsUp Compare pivot a j ∧ l ≤ j ∧ StopsDown Compare pivot a k ∧ k ≤ r) →
    r - l + 2 ≤ fuel → 0 < fuel →
    ∃ b l' r', partitionLoop Compare pivot fuel a l r = some (b, l', r') ∧ b.Perm a ∧ l ≤ l' ∧ r' ≤ r := by
  induction fuel with
  | zero => exact fun _ _ _ _ hpos => absurd hpos (by omega)
  | succ fuel ih =>
    intro a l r hl hr hs hfuel _
    by_cases hlr : l ≤ r
    · obtain ⟨j, k, hj, hlj, hk, hkr⟩ := hs hlr
      obtain ⟨l', r', hll, _, _, hrr, ⟨hcross, heq⟩ | ⟨hle, b, hperm, hblen, hup, hdown, heq⟩⟩ :=
        partitionLoop_turn hl hr hlr hj hlj hk hkr fuel
      · obtain ⟨fuel, rfl⟩ : ∃ k, fuel = k + 1 := ⟨fuel - 1, by omega⟩
        exact ⟨a, l', r', heq.trans (partitionLoop_done fuel hcross), .refl _, hll, hrr⟩
      · obtain ⟨c, l'', r'', heq', hperm', hll', hrr'⟩ := ih (a := b) (l := l' + 1) (r := r' - 1) (by omega)
          (by omega) (fun _ => ⟨r', l', hup, by omega, hdown, by omega⟩) (by omega) (by omega)
        exact ⟨c, l'', r'', heq.trans heq', hperm'.trans hperm, by omega, by omega⟩
    · exact ⟨a, l, r, partitionLoop_done fuel (by omega), .refl _, Int.le_refl _, Int.le_refl _⟩

end Partition

/-! ## The whole sort -/

section Recursion

variable {Compare : α → α → ℤ} (hrefl : ∀ x, Compare x x = 0)
include hrefl

/-- The pivot stops both scans of the first turn, so both parts are smaller than the whole. -/
theorem partition_spec {data n : ℤ} {pivot : α} (h0 : 0 ≤ data) (hn : 2 ≤ n) (hlen : data + n ≤ a.length)
    (hp : itemAt a (data + n / 2) = some pivot) :
    ∃ b l r, partitionLoop Compare pivot (a.length + 1) a data (data + n - 1) = some (b, l, r) ∧ b.Perm a ∧
      data < l ∧ r < data + n - 1 := by
  have hup : StopsUp Compare pivot a (data + n / 2) := ⟨pivot, hp, by simp [hrefl]⟩
  have hdown : StopsDown Compare pivot a (data + n / 2) := ⟨pivot, hp, by simp [hrefl]⟩
  obtain ⟨l', r', hll, hlm, hmr, hrr, ⟨hcross, _⟩ | ⟨hle, b, hperm, hblen, hup', hdown', heq⟩⟩ :=
    partitionLoop_turn (r := data + n - 1) h0 (by omega) (by omega) hup (by omega) hdown (by omega) a.length
  · omega
  · obtain ⟨c, l'', r'', heq', hperm', hll', hrr'⟩ := partitionLoop_spec a.length
      (a := b) (l := l' + 1) (r := r' - 1) (by omega) (by omega)
      (fun _ => ⟨r', l', hup', by omega, hdown', by omega⟩) (by omega) (by omega)
    exact ⟨c, l'', r'', heq.trans heq', hperm'.trans hperm, by omega, by omega⟩

theorem quickSortRecursive_spec (fuel : ℕ) : ∀ {a : List α} {d n : ℤ}, 0 ≤ d → d + n ≤ a.length →
    n < fuel → 0 < fuel → ∃ b, quickSortRecursive Compare fuel a d n = some b ∧ b.Perm a := by
  induction fuel with
  | zero => exact fun _ _ _ hpos => absurd hpos (by omega)
  | succ fuel ih =>
    intro a data n h0 hlen hfuel _
    by_cases hn : n < 2
    · exact ⟨a, by rw [quickSortRecursive, if_pos hn], .refl _⟩
    · obtain ⟨pivot, hp⟩ := itemAt_of_lt a (i := data + n / 2) (by omega) (by omega)
      obtain ⟨b, l, r, hpart, hperm, hl, hr⟩ := partition_spec hrefl h0 (by omega) hlen hp
      have hblen := hperm.length_eq
      obtain ⟨c, hc, hcperm⟩ := ih (a := b) (d := data) (n := r - data + 1) h0 (by omega) (by omega) (by omega)
      have hclen := hcperm.length_eq
      obtain ⟨d, hd, hdperm⟩ := ih (a := c) (d := l) (n := data + n - l) (by omega) (by omega) (by omega) (by omega)
      refine ⟨d, ?_, hdperm.trans (hcperm.trans hperm)⟩
      rw [quickSortRecursive, if_neg hn, hp]
      simp only [Option.bind_eq_bind, Option.bind_some, hpart, hc, hd]

/-- Sorting stays inside the sequence, ends, and keeps the items. -/
theorem seqSort_perm (a : List α) : ∃ b, seqSort Compare a = some b ∧ b.Perm a := by
  have hle := toInt_le a.length
  exact quickSortRecursive_spec hrefl _ (Int.le_refl 0) (by omega) (by omega) (by omega)

end Recursion

end Libntech.Containers
