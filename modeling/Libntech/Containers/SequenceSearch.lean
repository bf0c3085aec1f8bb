import Libntech.Containers.SequenceMeaning

/-! # Searching a `Seq` (`libutils/sequence.c`)

`SeqIndexOf` looks at one item after the other, `SeqBinaryIndexOf` halves a segment `[low, high)`. An item is a pointer,
with `none` for `NULL`; `none` around a result stands for a read outside the sequence or a loop without an end.
-/
namespace Libntech.Containers
set_option autoImplicit false

variable {α β : Type}

/-! ## Linear and binary search -/

/-- `SeqIndexOf` -/
def seqIndexOf (a : List β) (key : β) (Compare : β → β → ℤ) : ℤ :=
  match a.findIdx? fun x => Compare key x == 0 with
  | some i => i
  | none => -1

/-- `SeqLookup`: the first item that is found, or `NULL`. -/
def seqLookup (a : List (Option α)) (key : Option α) (Compare : Option α → Option α → ℤ) : Option α :=
  (a.find? fun x => Compare key x == 0).join

def binaryLoop (a : List β) (key : β) (Compare : β → β → ℤ) : ℕ → ℕ → ℕ → Option ℤ
  | 0, _, _ => none
  | fuel + 1, low, high =>
    if low < high then do
      let middle := low + (high - low) >>> 1
      let item ← a[middle]?
      let result := Compare key item
      if result = 0 then some middle
      else if 0 < result then binaryLoop a key Compare fuel (middle + 1) high
      else binaryLoop a key Compare fuel low middle
    else some (-1)

def seqBinaryIndexOf (a : List β) (key : β) (Compare : β → β → ℤ) : Option ℤ :=
  if a.length = 0 then some (-1) else binaryLoop a key Compare (a.length + 1) 0 a.length

def seqBinaryLookup (a : List (Option α)) (key : Option α) (Compare : Option α → Option α → ℤ) : Option (Option α) := do
  let index ← seqBinaryIndexOf a key Compare
  if index = -1 then return none else itemAt a index

/-! ## They agree on sorted sequences -/

/-- Along the order of the items the key is first greater, then equal, then less. -/
def ConsistentKey (Compare : β → β → ℤ) (key : β) (a : List β) : Prop :=
  ∀ x ∈ a, ∀ y ∈ a, Compare x y ≤ 0 → (Compare key x < 0 → Compare key y < 0) ∧ (0 < Compare key y → 0 < Compare key x)

theorem Orders.consistentKey {Compare : β → β → ℤ} (h : Orders Compare) (key : β) (a : List β) :
    ConsistentKey Compare key a := by
  intro x _ y _ hxy
  have hkx := h.flip key x
  have hyk := h.flip y key
  have hxk := h.flip x key
  have hky := h.flip key y
  refine ⟨fun hlt => ?_, fun hlt => ?_⟩
  · have hle := h.trans key x y hlt.le hxy
    by_contra hnot
    have hxkey := h.trans x y key hxy (by omega)
    omega
  · by_contra hnot
    have hkey := h.trans key x y (by omega) hxy
    omega

variable {a : List β} {key : β} {Compare : β → β → ℤ}

/-- What the search has found out: the key is greater than all items before `low` and less than all from `high` on. -/
structure Narrowed (Compare : β → β → ℤ) (key : β) (a : List β) (low high : ℕ) : Prop where
  le : low ≤ high
  high_le : high ≤ a.length
  before : ∀ i x, i < low → a[i]? = some x → 0 < Compare key x
  behind : ∀ i x, high ≤ i → a[i]? = some x → Compare key x < 0

theorem sorted_getElem (hsorted : a.Pairwise fun x y => Compare x y ≤ 0) {i j : ℕ} {x y : β} (hij : i < j)
    (hx : a[i]? = some x) (hy : a[j]? = some y) : Compare x y ≤ 0 := by
  obtain ⟨hi, rfl⟩ := List.getElem?_eq_some_iff.mp hx
  obtain ⟨hj, rfl⟩ := List.getElem?_eq_some_iff.mp hy
  exact List.pairwise_iff_getElem.mp hsorted i j hi hj hij

theorem Narrowed.raise {low high middle : ℕ} {item : β} (h : Narrowed Compare key a low high)
    (hsorted : a.Pairwise fun x y => Compare x y ≤ 0) (hkey : ConsistentKey Compare key a) (hlt : middle < high)
    (hitem : a[middle]? = some item) (hresult : 0 < Compare key item) : Narrowed Compare key a (middle + 1) high := by
  refine ⟨hlt, h.high_le, fun i x hi hx => ?_, h.behind⟩
  rcases Nat.lt_succ_iff_lt_or_eq.mp hi with hi | rfl
  · have hle := sorted_getElem hsorted hi hx hitem
    exact (hkey x (List.mem_of_getElem? hx) item (List.mem_of_getElem? hitem) hle).2 hresult
  · rw [hitem, Option.some.injEq] at hx
    rwa [← hx]

theorem Narrowed.lower {low high middle : ℕ} {item : β} (h : Narrowed Compare key a low high)
    (hsorted : a.Pairwise fun x y => Compare x y ≤ 0) (hkey : ConsistentKey Compare key a) (hle : low ≤ middle)
    (hlt : middle < high) (hitem : a[middle]? = some item) (hresult : Compare key item < 0) :
    Narrowed Compare key a low middle := by
  have hhigh := h.high_le
  refine ⟨hle, by omega, h.before, fun i x hi hx => ?_⟩
  rcases Nat.lt_or_eq_of_le hi with hi | rfl
  · have hle := sorted_getElem hsorted hi hitem hx
    exact (hkey item (List.mem_of_getElem? hitem) x (List.mem_of_getElem? hx) hle).1 hresult
  · rw [hitem, Option.some.injEq] at hx
    rwa [← hx]

/-- The loop ends inside the sequence, at an equal item or when there is none. -/
theorem binaryLoop_spec (hsorted : a.Pairwise fun x y => Compare x y ≤ 0) (hkey : ConsistentKey Compare key a)
    (fuel : ℕ) : ∀ {low high : ℕ}, Narrowed Compare key a low high → high - low < fuel →
      (∃ i x, binaryLoop a key Compare fuel low high = some (Int.ofNat i) ∧ a[i]? = some x ∧ Compare key x = 0) ∨
        (binaryLoop a key Compare fuel low high = some (-1) ∧ ∀ x ∈ a, Compare key x ≠ 0) := by
  induction fuel with
  | zero => exact fun _ hfuel => absurd hfuel (Nat.not_lt_zero _)
  | succ fuel ih =>
    intro low high h hfuel
    have hhigh := h.high_le
    rw [binaryLoop, Nat.shiftRight_one]
    by_cases hlt : low < high
    · have hmiddle : low + (high - low) / 2 < a.length := by omega
      have hitem := List.getElem?_eq_getElem hmiddle
      generalize a[low + (high - low) / 2] = item at hitem
      simp only [if_pos hlt, hitem, Option.bind_eq_bind, Option.bind_some]
      by_cases hzero : Compare key item = 0
      · exact .inl ⟨_, item, by rw [if_pos hzero]; rfl, hitem, hzero⟩
      rw [if_neg hzero]
      by_cases hpos : 0 < Compare key item
      · rw [if_pos hpos]
        exact ih (h.raise hsorted hkey (by omega) hitem hpos) (by omega)
      · rw [if_neg hpos]
        exact ih (h.lower hsorted hkey (by omega) (by omega) hitem (by omega)) (by omega)
    · rw [if_neg hlt]
      refine .inr ⟨rfl, fun x hx hzero => ?_⟩
      obtain ⟨i, hi⟩ := List.getElem?_of_mem hx
      by_cases hlow : i < low
      · have := h.before i x hlow hi
        omega
      · have := h.behind i x (by omega) hi
        omega

theorem seqBinaryIndexOf_spec (hsorted : a.Pairwise fun x y => Compare x y ≤ 0) (hkey : ConsistentKey Compare key a) :
    (∃ i x, seqBinaryIndexOf a key Compare = some (Int.ofNat i) ∧ a[i]? = some x ∧ Compare key x = 0) ∨
      (seqBinaryIndexOf a key Compare = some (-1) ∧ ∀ x ∈ a, Compare key x ≠ 0) := by
  unfold seqBinaryIndexOf
  by_cases hempty : a.length = 0
  · rw [if_pos hempty, List.length_eq_zero_iff.mp hempty]
    exact .inr ⟨rfl, fun x hx => absurd hx List.not_mem_nil⟩
  · rw [if_neg hempty]
    have hall : Narrowed Compare key a 0 a.length := by
      refine ⟨Nat.zero_le _, le_refl _, fun i x hi => absurd hi (Nat.not_lt_zero _), fun i x hi hx => ?_⟩
      rw [List.getElem?_eq_none hi] at hx
      cases hx
    exact binaryLoop_spec hsorted hkey (a.length + 1) hall (by omega)

theorem seqIndexOf_eq_neg_one_iff : seqIndexOf a key Compare = -1 ↔ ∀ x ∈ a, Compare key x ≠ 0 := by
  unfold seqIndexOf
  cases h : a.findIdx? fun x => Compare key x == 0 with
  | none =>
    rw [List.findIdx?_eq_none_iff] at h
    exact ⟨fun _ x hx hzero => by simpa [hzero] using h x hx, fun _ => rfl⟩
  | some i =>
    refine ⟨fun hneg => absurd hneg (by dsimp only; omega), fun hall => ?_⟩
    obtain ⟨hi, hfound, _⟩ := List.findIdx?_eq_some_iff_getElem.mp h
    exact absurd (beq_iff_eq.mp hfound) (hall _ (List.getElem_mem hi))

/-- On a sorted sequence the binary search finds an equal item just if the linear one does, and both look inside. -/
theorem seqBinaryIndexOf_agrees {a : List (Option α)} {key : Option α} {Compare : Option α → Option α → ℤ}
    (hsorted : a.Pairwise fun x y => Compare x y ≤ 0) (hkey : ConsistentKey Compare key a) :
    ∃ index item, seqBinaryIndexOf a key Compare = some index ∧ seqBinaryLookup a key Compare = some item ∧
      (index = -1 ↔ seqIndexOf a key Compare = -1) ∧ (index = -1 → item = none) ∧
      (index ≠ -1 → itemAt a index = some item ∧ Compare key item = 0) := by
  rcases seqBinaryIndexOf_spec hsorted hkey with ⟨i, x, hindex, hx, hzero⟩ | ⟨hindex, hnone⟩
  · have hne : Int.ofNat i ≠ -1 := by
      rw [Int.ofNat_eq_natCast]
      omega
    have hitem : itemAt a (Int.ofNat i) = some x := hx
    refine ⟨Int.ofNat i, x, hindex, ?_, ?_, fun h => absurd h hne, fun _ => ⟨hitem, hzero⟩⟩
    · rw [seqBinaryLookup, hindex, Option.bind_eq_bind, Option.bind_some, if_neg hne, hitem]
    · rw [seqIndexOf_eq_neg_one_iff]
      exact ⟨fun h => absurd h hne, fun h => absurd hzero (h x (List.mem_of_getElem? hx))⟩
  · refine ⟨-1, none, hindex, ?_, ?_, fun _ => rfl, fun h => absurd rfl h⟩
    · rw [seqBinaryLookup, hindex, Option.bind_eq_bind, Option.bind_some, if_pos rfl]
      rfl
    · rw [seqIndexOf_eq_neg_one_iff]
      exact ⟨fun _ => hnone, fun _ => rfl⟩

/-- Numbers by size, `NULL` before all of them. -/
def compareNumbers (x y : Option ℕ) : ℤ := (x.elim 0 (· + 1) : ℤ) - (y.elim 0 (· + 1) : ℤ)

theorem compareNumbers_orders : Orders compareNumbers where
  refl x := by
    dsimp only [compareNumbers]
    omega
  flip x y := by
    dsimp only [compareNumbers]
    omega
  trans x y z h h' := by
    dsimp only [compareNumbers] at h h' ⊢
    omega

theorem seqBinaryIndexOf_agrees_numbers : ∃ index item,
    seqBinaryIndexOf [none, some 2, some 2, some 5] (some 2) compareNumbers = some index ∧
    seqBinaryLookup [none, some 2, some 2, some 5] (some 2) compareNumbers = some item ∧
    (index = -1 ↔ seqIndexOf [none, some 2, some 2, some 5] (some 2) compareNumbers = -1) ∧ (index = -1 → item = none) ∧
    (index ≠ -1 → itemAt [none, some 2, some 2, some 5] index = some item ∧ compareNumbers (some 2) item = 0) :=
  seqBinaryIndexOf_agrees (by decide) (compareNumbers_orders.consistentKey (some 2) _)

end Libntech.Containers
