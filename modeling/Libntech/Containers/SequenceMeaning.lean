import Libntech.Containers.Sequence

/-! # A sorted `Seq`

A call of `QuickSortRecursive` moves items inside its own segment only. With a comparator that orders the items, the
partition puts no item greater than the pivot before `l` and none smaller behind `r`, and the two halves are sorted on
their own. `SeqSort` passes the length on as an `int`, so what lies behind that many items stays as it is.
-/
namespace Libntech.Containers
set_option autoImplicit false

variable {α : Type} {Compare : α → α → ℤ} {pivot : α}

/-! ## Segments -/

/-- `b` is `a` with the items of the segment from `lo` up to `hi` moved around in it. -/
structure Moved (a b : List α) (lo hi : ℤ) : Prop where
  length_eq : b.length = a.length
  outside : ∀ i, i < lo ∨ hi ≤ i → itemAt b i = itemAt a i
  inside : ∀ i, lo ≤ i → i < hi → ∃ j, lo ≤ j ∧ j < hi ∧ itemAt b i = itemAt a j

theorem Moved.refl (a : List α) (lo hi : ℤ) : Moved a a lo hi :=
  ⟨rfl, fun _ _ => rfl, fun i hlo hhi => ⟨i, hlo, hhi, rfl⟩⟩

variable {a b : List α} {hi hi' lo lo' : ℤ} {P : α → Prop}

theorem Moved.trans {c : List α} (h₁ : Moved a b lo hi) (h₂ : Moved b c lo hi) : Moved a c lo hi where
  length_eq := h₂.length_eq.trans h₁.length_eq
  outside := fun i hi => (h₂.outside i hi).trans (h₁.outside i hi)
  inside := by
    intro i hlo hhi
    obtain ⟨j, hjlo, hjhi, hj⟩ := h₂.inside i hlo hhi
    obtain ⟨k, hklo, hkhi, hk⟩ := h₁.inside j hjlo hjhi
    exact ⟨k, hklo, hkhi, hj.trans hk⟩

theorem Moved.widen (h : Moved a b lo hi) (hlo : lo' ≤ lo) (hhi : hi ≤ hi') :
    Moved a b lo' hi' where
  length_eq := h.length_eq
  outside := fun i hi => h.outside i (by omega)
  inside := by
    intro i hilo hihi
    by_cases hin : lo ≤ i ∧ i < hi
    · obtain ⟨j, hjlo, hjhi, hj⟩ := h.inside i hin.1 hin.2
      exact ⟨j, by omega, by omega, hj⟩
    · exact ⟨i, hilo, hihi, h.outside i (by omega)⟩

/-- What holds of all items of a segment still holds after they were moved around. -/
def AllIn (P : α → Prop) (a : List α) (lo hi : ℤ) : Prop := ∀ i x, lo ≤ i → i < hi → itemAt a i = some x → P x

theorem AllIn.moved (h : AllIn P a lo hi) (hmoved : Moved a b lo hi) : AllIn P b lo hi := by
  intro i x hlo hhi hx
  obtain ⟨j, hjlo, hjhi, hj⟩ := hmoved.inside i hlo hhi
  rw [hj] at hx
  exact h j x hjlo hjhi hx

theorem AllIn.outside (h : AllIn P a lo hi) (hmoved : Moved a b lo' hi')
    (hdisjoint : ∀ i, lo ≤ i → i < hi → i < lo' ∨ hi' ≤ i) : AllIn P b lo hi := by
  intro i x hlo hhi hx
  rw [hmoved.outside i (hdisjoint i hlo hhi)] at hx
  exact h i x hlo hhi hx

theorem swapItems_moved {l r : ℤ} (h : swapItems a l r = some b) (hl : lo ≤ l) (hlr : l ≤ r) (hr : r < hi) :
    Moved a b lo hi := by
  unfold swapItems at h
  cases hx : itemAt a l with
  | none => simp [hx] at h
  | some x =>
    cases hy : itemAt a r with
    | none => simp [hx, hy] at h
    | some y =>
      have hl0 := (lt_of_itemAt hx).1
      have hr0 := (lt_of_itemAt hy).1
      obtain ⟨b', hb', _, hlen, hbl, hbr⟩ := swapItems_spec hx hy
      unfold swapItems at hb'
      rw [hb', Option.some.injEq] at h
      subst h
      have hb : (a.set l.toNat y).set r.toNat x = b' := by simpa [hx, hy] using hb'
      have hsame : ∀ i, i ≠ l → i ≠ r → itemAt b' i = itemAt a i := by
        intro i hil hir
        rw [← hb]
        unfold itemAt
        split
        · rw [List.getElem?_set_ne (by omega), List.getElem?_set_ne (by omega)]
        · rfl
      refine ⟨hlen, fun i hi => hsame i (by omega) (by omega), fun i hlo hhi => ?_⟩
      by_cases hil : i = l
      · exact ⟨r, by omega, hr, by rw [hil, hbl, hy]⟩
      · by_cases hir : i = r
        · exact ⟨l, hl, by omega, by rw [hir, hbr, hx]⟩
        · exact ⟨i, hlo, hhi, hsame i hil hir⟩

/-! ## The partition -/

theorem scanUp_passes (fuel : ℕ) : ∀ {l l' : ℤ}, scanUp Compare a pivot fuel l = some l' →
    l ≤ l' ∧ AllIn (fun x => Compare x pivot < 0) a l l' ∧ ∃ x, itemAt a l' = some x ∧ ¬ Compare x pivot < 0 := by
  induction fuel with
  | zero =>
    intro l l' h
    cases h
  | succ fuel ih =>
    intro l l' h
    rw [scanUp] at h
    cases hx : itemAt a l with
    | none => simp [hx] at h
    | some x =>
      rw [hx, Option.bind_eq_bind, Option.bind_some] at h
      split at h
      · rename_i hlt
        obtain ⟨hle, hall, hstop⟩ := ih h
        refine ⟨by omega, fun i y hlo hhi hy => ?_, hstop⟩
        by_cases hi : i = l
        · rw [hi, hx, Option.some.injEq] at hy
          rw [← hy]
          exact hlt
        · exact hall i y (by omega) hhi hy
      · rename_i hge
        rw [Option.some.injEq] at h
        subst h
        exact ⟨Int.le_refl _, fun i y hlo hhi _ => absurd hhi (by omega), x, hx, hge⟩

theorem scanDown_passes (fuel : ℕ) : ∀ {r r' : ℤ}, scanDown Compare a pivot fuel r = some r' →
    r' ≤ r ∧ AllIn (fun x => 0 < Compare x pivot) a (r' + 1) (r + 1) ∧
      ∃ x, itemAt a r' = some x ∧ ¬ 0 < Compare x pivot := by
  induction fuel with
  | zero =>
    intro r r' h
    cases h
  | succ fuel ih =>
    intro r r' h
    rw [scanDown] at h
    cases hx : itemAt a r with
    | none => simp [hx] at h
    | some x =>
      rw [hx, Option.bind_eq_bind, Option.bind_some] at h
      split at h
      · rename_i hlt
        obtain ⟨hle, hall, hstop⟩ := ih h
        refine ⟨by omega, fun i y hlo hhi hy => ?_, hstop⟩
        by_cases hi : i = r
        · rw [hi, hx, Option.some.injEq] at hy
          rw [← hy]
          exact hlt
        · exact hall i y hlo (by omega) hy
      · rename_i hge
        rw [Option.some.injEq] at h
        subst h
        exact ⟨Int.le_refl _, fun i y hlo hhi _ => absurd hhi (by omega), x, hx, hge⟩

/-- The items before `l` are not greater than the pivot, the items behind `r` are not smaller. -/
structure Parted (Compare : α → α → ℤ) (pivot : α) (a : List α) (lo hi l r : ℤ) : Prop where
  low : AllIn (fun x => Compare x pivot ≤ 0) a lo l
  high : AllIn (fun x => 0 ≤ Compare x pivot) a (r + 1) hi

theorem AllIn.glue {mid : ℤ} (h₁ : AllIn P a lo mid) (h₂ : AllIn P a mid hi) : AllIn P a lo hi := by
  intro i x hlo hhi hx
  by_cases hmid : i < mid
  · exact h₁ i x hlo hmid hx
  · exact h₂ i x (by omega) hhi hx

theorem AllIn.mono {Q : α → Prop} (h : AllIn P a lo hi) (himp : ∀ x, P x → Q x) : AllIn Q a lo hi :=
  fun i x hlo hhi hx => himp x (h i x hlo hhi hx)

theorem AllIn.single {i : ℤ} {x : α} (hx : itemAt a i = some x) (h : P x) : AllIn P a i (i + 1) := by
  intro j y hlo hhi hy
  have hj : j = i := by omega
  rw [hj, hx, Option.some.injEq] at hy
  rw [← hy]
  exact h

theorem partitionLoop_parted (fuel : ℕ) : ∀ {a b : List α} {l r l' r' : ℤ},
    partitionLoop Compare pivot fuel a l r = some (b, l', r') → lo ≤ l → r < hi →
    Parted Compare pivot a lo hi l r → Moved a b lo hi ∧ Parted Compare pivot b lo hi l' r' ∧ r' < l' ∧ l ≤ l' ∧ r' ≤ r := by
  induction fuel with
  | zero =>
    intro a b l r l' r' h
    cases h
  | succ fuel ih =>
    intro a b l r l' r' h hl hr hparted
    rw [partitionLoop] at h
    split at h
    · cases hup : scanUp Compare a pivot (a.length + 1) l with
      | none => simp [hup] at h
      | some l₁ =>
        cases hdown : scanDown Compare a pivot (a.length + 1) r with
        | none => simp [hup, hdown] at h
        | some r₁ =>
          simp only [hup, hdown, Option.bind_eq_bind, Option.bind_some] at h
          obtain ⟨hle, hlow, x, hx, hxp⟩ := scanUp_passes _ hup
          obtain ⟨hre, hhigh, y, hy, hyp⟩ := scanDown_passes _ hdown
          have hparted₁ : Parted Compare pivot a lo hi l₁ r₁ :=
            ⟨hparted.low.glue (hlow.mono fun _ h => Int.le_of_lt h),
              (hhigh.mono fun _ h => Int.le_of_lt h).glue hparted.high⟩
          split at h
          · rename_i hcross
            cases hswap : swapItems a l₁ r₁ with
            | none => simp [hswap] at h
            | some c =>
              rw [hswap, Option.bind_some] at h
              obtain ⟨c', hc', _, _, hcl, hcr⟩ := swapItems_spec hx hy
              rw [hswap, Option.some.injEq] at hc'
              subst hc'
              -- nothing but the two swapped items has moved
              have hmoved : Moved a c l₁ (r₁ + 1) := swapItems_moved hswap (by omega) hcross (by omega)
              have hparted₂ : Parted Compare pivot c lo hi (l₁ + 1) (r₁ - 1) := by
                refine ⟨(hparted₁.low.outside hmoved fun i _ _ => by omega).glue (.single hcl (by omega)), ?_⟩
                rw [Int.sub_add_cancel]
                exact (AllIn.single hcr (by omega)).glue (hparted₁.high.outside hmoved fun i _ _ => by omega)
              obtain ⟨hmoved', hparted', hcrossed, hl', hr'⟩ := ih h (by omega) (by omega) hparted₂
              exact ⟨(hmoved.widen (by omega) (by omega)).trans hmoved', hparted', hcrossed, by omega, by omega⟩
          · obtain ⟨hmoved', hparted', hcrossed, hl', hr'⟩ := ih h (by omega) (by omega) hparted₁
            exact ⟨hmoved', hparted', hcrossed, by omega, by omega⟩
    · obtain ⟨rfl, heq⟩ := Prod.mk.inj (Option.some.inj h)
      obtain ⟨rfl, rfl⟩ := Prod.mk.inj heq
      exact ⟨Moved.refl _ _ _, hparted, by omega, Int.le_refl _, Int.le_refl _⟩

/-! ## The recursion -/

/-- A comparator that orders the items. -/
structure Orders (Compare : α → α → ℤ) : Prop where
  refl : ∀ x, Compare x x = 0
  flip : ∀ x y, Compare x y ≤ 0 ↔ 0 ≤ Compare y x
  trans : ∀ x y z, Compare x y ≤ 0 → Compare y z ≤ 0 → Compare x z ≤ 0

/-- The items of a segment stand in order. -/
def SortedIn (Compare : α → α → ℤ) (a : List α) (lo hi : ℤ) : Prop :=
  ∀ i j x y, lo ≤ i → i ≤ j → j < hi → itemAt a i = some x → itemAt a j = some y → Compare x y ≤ 0

theorem SortedIn.outside (h : SortedIn Compare a lo hi) (hmoved : Moved a b lo' hi')
    (hdisjoint : ∀ i, lo ≤ i → i < hi → i < lo' ∨ hi' ≤ i) : SortedIn Compare b lo hi := by
  intro i j x y hlo hij hhi hx hy
  rw [hmoved.outside i (hdisjoint i hlo (by omega))] at hx
  rw [hmoved.outside j (hdisjoint j (by omega) hhi)] at hy
  exact h i j x y hlo hij hhi hx hy

/-- A call moves items in its segment only, whatever the comparator says. -/
theorem quickSortRecursive_moved (hrefl : ∀ x, Compare x x = 0) (fuel : ℕ) : ∀ {a b : List α} {d n : ℤ}, 0 ≤ d →
    d + n ≤ a.length → quickSortRecursive Compare fuel a d n = some b →
    Moved a b d (d + n) ∧ (Orders Compare → SortedIn Compare b d (d + n)) := by
  induction fuel with
  | zero =>
    intro a b d n _ _ h
    cases h
  | succ fuel ih =>
    intro a b d n h0 hlen h
    rw [quickSortRecursive] at h
    split at h
    · rename_i hn
      rw [Option.some.injEq] at h
      subst h
      refine ⟨Moved.refl _ _ _, fun horders i j x y hlo hij hhi hx hy => ?_⟩
      have hj : j = i := by omega
      rw [hj, hx, Option.some.injEq] at hy
      rw [hy, horders.refl]
    · rename_i hn
      obtain ⟨pivot, hp⟩ := itemAt_of_lt a (i := d + n / 2) (by omega) (by omega)
      obtain ⟨a₁, l, r, hpart, hperm, hl, hr⟩ := partition_spec hrefl h0 (by omega) hlen hp
      simp only [hp, hpart, Option.bind_eq_bind, Option.bind_some] at h
      cases hleft : quickSortRecursive Compare fuel a₁ d (r - d + 1) with
      | none => simp [hleft] at h
      | some a₂ =>
        rw [hleft, Option.bind_some] at h
        have hempty : Parted Compare pivot a d (d + n) d (d + n - 1) :=
          ⟨fun i x hlo hhi _ => absurd hhi (by omega), fun i x hlo hhi _ => absurd hhi (by omega)⟩
        obtain ⟨hmoved₁, hparted, hcross, _, _⟩ := partitionLoop_parted _ hpart (Int.le_refl d) (by omega) hempty
        have hlen₁ := hmoved₁.length_eq
        obtain ⟨hmoved₂, hsorted₂⟩ := ih h0 (by omega) hleft
        have hlen₂ := hmoved₂.length_eq
        obtain ⟨hmoved₃, hsorted₃⟩ := ih (by omega) (by omega) h
        have hend : l + (d + n - l) = d + n := by omega
        have hmid : d + (r - d + 1) = r + 1 := by omega
        rw [hend] at hmoved₃ hsorted₃
        rw [hmid] at hmoved₂ hsorted₂
        refine ⟨(hmoved₁.trans (hmoved₂.widen (by omega) (by omega))).trans (hmoved₃.widen (by omega) (by omega)),
          fun horders i j x y hlo hij hhi hx hy => ?_⟩
        by_cases hjr : j < r + 1
        · exact (hsorted₂ horders).outside hmoved₃ (fun i _ _ => by omega) i j x y hlo hij hjr hx hy
        · by_cases hil : l ≤ i
          · exact hsorted₃ horders i j x y hil hij hhi hx hy
          · -- the first item lies before `l` and the second behind `r`: the pivot is between them
            have hlow : AllIn (fun x => Compare x pivot ≤ 0) b d l := by
              have hleft : AllIn (fun x => Compare x pivot ≤ 0) a₁ d (r + 1) :=
                fun i x hlo hhi hx => hparted.low i x hlo (by omega) hx
              intro i x hlo hhi hx
              rw [hmoved₃.outside i (by omega)] at hx
              by_cases hir : i < r + 1
              · exact hleft.moved hmoved₂ i x hlo hir hx
              · rw [hmoved₂.outside i (by omega)] at hx
                exact hparted.low i x hlo hhi hx
            have hhigh : AllIn (fun x => 0 ≤ Compare x pivot) b (r + 1) (d + n) := by
              have hright : AllIn (fun x => 0 ≤ Compare x pivot) a₂ (r + 1) (d + n) :=
                hparted.high.outside hmoved₂ fun i _ _ => by omega
              intro i x hlo hhi hx
              by_cases hil : i < l
              · rw [hmoved₃.outside i (by omega)] at hx
                exact hright i x hlo hhi hx
              · have hpart : AllIn (fun x => 0 ≤ Compare x pivot) a₂ l (d + n) :=
                  fun i x hlo hhi hx => hright i x (by omega) hhi hx
                exact hpart.moved hmoved₃ i x (by omega) hhi hx
            have hxp := hlow i x hlo (by omega) hx
            have hyp := hhigh j y (by omega) hhi hy
            exact horders.trans x pivot y hxp ((horders.flip pivot y).mpr hyp)

/-! ## `SeqSort` -/

/-- The items behind the first `toInt` ones keep their places. -/
theorem seqSort_behind (hrefl : ∀ x, Compare x x = 0) (h : seqSort Compare a = some b) {i : ℤ} (hi : toInt a.length ≤ i) :
    itemAt b i = itemAt a i := by
  have hle := toInt_le a.length
  obtain ⟨hmoved, _⟩ := quickSortRecursive_moved hrefl _ (Int.le_refl 0) (by omega) h
  exact hmoved.outside i (.inr (by omega))

theorem toInt_of_lt {n : ℕ} (h : n < 2147483648) : toInt n = n := by
  rw [toInt, Int.bmod_def]
  split
  · omega
  · omega

theorem toInt_add_two_le {n : ℕ} (h : 2147483648 ≤ n) : toInt n + 2 ≤ n := by
  rw [toInt, Int.bmod_def]
  split
  · omega
  · omega

/-- A sequence whose length is an `int` is sorted. -/
theorem seqSort_sorted (horders : Orders Compare) (hlen : a.length < 2147483648) (h : seqSort Compare a = some b) :
    b.Pairwise fun x y => Compare x y ≤ 0 := by
  have hint := toInt_of_lt hlen
  unfold seqSort at h
  rw [hint] at h
  obtain ⟨hmoved, hsorted⟩ := quickSortRecursive_moved horders.refl _ (Int.le_refl 0) (by omega) h
  have hlen' := hmoved.length_eq
  rw [List.pairwise_iff_getElem]
  intro i j hi hj hij
  have hitem : ∀ k (hk : k < b.length), itemAt b k = some b[k] := by
    intro k hk
    rw [itemAt, if_pos (by omega), Int.toNat_natCast, List.getElem?_eq_getElem hk]
  exact hsorted horders i j b[i] b[j] (by omega) (by omega) (by omega) (hitem i hi) (hitem j hj)

/-- Every sequence of at most `INT_MAX` items is sorted in place. -/
theorem seqSort_sorts (horders : Orders Compare) (a : List α) (hlen : a.length ≤ 2147483647) :
    ∃ b, seqSort Compare a = some b ∧ b.Perm a ∧ b.Pairwise fun x y => Compare x y ≤ 0 := by
  obtain ⟨b, hb, hperm⟩ := seqSort_perm horders.refl a
  exact ⟨b, hb, hperm, seqSort_sorted horders (by omega) hb⟩

/-- Numbers by their last digit, so that different ones are equal. -/
def compareDigits (x y : ℕ) : ℤ := (x % 10 : ℤ) - (y % 10 : ℤ)

theorem compareDigits_orders : Orders compareDigits where
  refl x := by
    dsimp only [compareDigits]
    omega
  flip x y := by
    dsimp only [compareDigits]
    omega
  trans x y z h h' := by
    dsimp only [compareDigits] at h h' ⊢
    omega

theorem seqSort_sorts_digits : ∃ b, seqSort compareDigits [13, 42, 3, 22, 31] = some b ∧ b.Perm [13, 42, 3, 22, 31] ∧
    b.Pairwise fun x y => compareDigits x y ≤ 0 :=
  seqSort_sorts compareDigits_orders [13, 42, 3, 22, 31] (by decide)

end Libntech.Containers
