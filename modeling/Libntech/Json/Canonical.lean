import Libntech.Containers.SequenceMeaning
import Libntech.Json.Escapes
import Libntech.Json.Numerals
import Libntech.Json.Writable
import Mathlib.Data.List.Nodup

/-! # Canonical output

The writers sort the members of an object by name before they write them, so that elements that differ in the order of
members only are written alike. `SeqSort` works on as many items as an `int` can count. The members of a larger
object are left, in part or all of them, in the order they came in.
-/
namespace Libntech.Json
set_option autoImplicit false

open Libntech.Containers

/-! ## The order of names -/

theorem strcmp_flip (s t : Bytes) : strcmp t s = -strcmp s t := by
  induction s generalizing t with
  | nil =>
    cases t with
    | nil => rfl
    | cons y t => rfl
  | cons x s ih =>
    cases t with
    | nil => rfl
    | cons y t =>
      rw [strcmp, strcmp]
      by_cases hxy : x < y
      · rw [if_pos hxy, if_neg (UInt8.lt_asymm hxy), if_pos hxy]
        rfl
      · by_cases hyx : y < x
        · rw [if_pos hyx, if_neg hxy, if_pos hyx]
        · rw [if_neg hyx, if_neg hxy, if_neg hxy, if_neg hyx]
          exact ih t

theorem strcmp_le_trans (s t u : Bytes) (h₁ : strcmp s t ≤ 0) (h₂ : strcmp t u ≤ 0) : strcmp s u ≤ 0 := by
  induction s generalizing t u with
  | nil =>
    cases u with
    | nil => exact Int.le_refl 0
    | cons z u => exact (by decide : (-1 : ℤ) ≤ 0)
  | cons x s ih =>
    cases t with
    | nil => exact absurd h₁ (by simp [strcmp])
    | cons y t =>
      cases u with
      | nil => exact absurd h₂ (by simp [strcmp])
      | cons z u =>
        rw [strcmp] at h₁ h₂ ⊢
        by_cases hxy : x < y
        · by_cases hyz : y < z
          · rw [if_pos (UInt8.lt_trans hxy hyz)]
            decide
          · by_cases hzy : z < y
            · rw [if_neg hyz, if_pos hzy] at h₂
              exact absurd h₂ (by decide)
            · have heq : y = z := UInt8.le_antisymm (UInt8.not_lt.mp hzy) (UInt8.not_lt.mp hyz)
              rw [← heq, if_pos hxy]
              decide
        · by_cases hyx : y < x
          · rw [if_neg hxy, if_pos hyx] at h₁
            exact absurd h₁ (by decide)
          · have heq : x = y := UInt8.le_antisymm (UInt8.not_lt.mp hyx) (UInt8.not_lt.mp hxy)
            subst heq
            rw [if_neg hxy, if_neg hxy] at h₁
            by_cases hxz : x < z
            · rw [if_pos hxz]
              decide
            · by_cases hzx : z < x
              · rw [if_neg hxz, if_pos hzx] at h₂
                exact absurd h₂ (by decide)
              · rw [if_neg hxz, if_neg hzx] at h₂ ⊢
                exact ih t u h₁ h₂

variable {a b e e' : JsonElement} {as bs xs ys : List (Bytes × JsonElement)} {w : Blanks} {indentLevel level : ℕ}
  {key s : Bytes}

theorem eq_of_strcmp_le {t : Bytes} (h₁ : strcmp s t ≤ 0) (h₂ : strcmp t s ≤ 0) : s = t := by
  induction s generalizing t with
  | nil =>
    cases t with
    | nil => rfl
    | cons y t => exact absurd h₂ (by simp [strcmp])
  | cons x s ih =>
    cases t with
    | nil => exact absurd h₁ (by simp [strcmp])
    | cons y t =>
      rw [strcmp] at h₁ h₂
      by_cases hxy : x < y
      · rw [if_neg (UInt8.lt_asymm hxy), if_pos hxy] at h₂
        exact absurd h₂ (by decide)
      · by_cases hyx : y < x
        · rw [if_neg hxy, if_pos hyx] at h₁
          exact absurd h₁ (by decide)
        · rw [if_neg hxy, if_neg hyx] at h₁
          rw [if_neg hyx, if_neg hxy] at h₂
          rw [UInt8.le_antisymm (UInt8.not_lt.mp hyx) (UInt8.not_lt.mp hxy), ih h₁ h₂]

theorem propertyCompare_orders : Orders jsonElementPropertyCompare where
  refl x := strcmp_self x.1
  flip x y := by
    unfold jsonElementPropertyCompare
    rw [strcmp_flip x.1 y.1]
    omega
  trans x y z := strcmp_le_trans x.1 y.1 z.1

/-- Members with different names that stand in order: there is one such list. -/
theorem sorted_unique (hnodup : (as.map Prod.fst).Nodup) (hperm : as.Perm bs)
    (ha : as.Pairwise fun x y => jsonElementPropertyCompare x y ≤ 0)
    (hb : bs.Pairwise fun x y => jsonElementPropertyCompare x y ≤ 0) : as = bs := by
  refine List.Perm.eq_of_pairwise (fun x y hx hy hxy hyx => ?_) ha hb hperm
  have hkey : x.1 = y.1 := eq_of_strcmp_le hxy hyx
  exact List.inj_on_of_nodup_map hnodup hx (hperm.mem_iff.mpr hy) hkey

/-! ## Small objects -/

/-- Every object has fewer members than an `int` can count. -/
inductive SmallObjects : JsonElement → Prop where
  | primitive (type : JsonPrimitiveType) (value : Bytes) : SmallObjects (.primitive type value)
  | array {children : List JsonElement} : (∀ e ∈ children, SmallObjects e) → SmallObjects (.array children)
  | object {children : List (Bytes × JsonElement)} : children.length < 2147483648 →
      (∀ c ∈ children, SmallObjects c.2) → SmallObjects (.object children)

theorem sortedElements_congr {as : List JsonElement} : ∀ {bs : List JsonElement}, as.length = bs.length →
    (∀ (i : ℕ) (a b : JsonElement), as[i]? = some a → bs[i]? = some b → jsonSorted a = jsonSorted b) →
    sortedElements as = sortedElements bs := by
  induction as with
  | nil =>
    intro bs hlen _
    rw [List.length_eq_zero_iff.mp hlen.symm]
  | cons a as ih =>
    intro bs hlen h
    cases bs with
    | nil => cases hlen
    | cons b bs =>
      have hab := h 0 a b rfl rfl
      have hrest : sortedElements as = sortedElements bs := ih (by simpa using hlen) fun i x y hx hy =>
        h (i + 1) x y (by simpa using hx) (by simpa using hy)
      rw [sortedElements, sortedElements, hab, hrest]

/-- The members with their values sorted: what was there under a name, and nothing else. -/
theorem mem_sortedMembers (h : sortedMembers as = some bs) :
    (key, e) ∈ bs ↔ ∃ x, (key, x) ∈ as ∧ jsonSorted x = some e := by
  induction as generalizing bs with
  | nil =>
    rw [sortedMembers, Option.some.injEq] at h
    subst h
    simp
  | cons c as ih =>
    obtain ⟨k, x⟩ := c
    rw [sortedMembers] at h
    cases hx : jsonSorted x with
    | none => simp [hx] at h
    | some y =>
      cases hs : sortedMembers as with
      | none => simp [hx, hs] at h
      | some ys =>
        simp only [hx, hs, Option.bind_eq_bind, Option.bind_some, Option.pure_def, Option.some.injEq] at h
        subst h
        constructor
        · intro hmem
          rcases List.mem_cons.mp hmem with heq | hmem
          · obtain ⟨rfl, rfl⟩ := Prod.mk.inj heq
            exact ⟨x, List.mem_cons_self, hx⟩
          · obtain ⟨x', hx', hsort⟩ := (ih hs).mp hmem
            exact ⟨x', List.mem_cons_of_mem _ hx', hsort⟩
        · rintro ⟨x', hmem, hsort⟩
          rcases List.mem_cons.mp hmem with heq | hmem
          · obtain ⟨rfl, rfl⟩ := Prod.mk.inj heq
            rw [hx, Option.some.injEq] at hsort
            rw [hsort]
            exact List.mem_cons_self
          · exact List.mem_cons_of_mem _ ((ih hs).mpr ⟨x', hmem, hsort⟩)

theorem sortedMembers_total (h : ∀ c ∈ as, DistinctKeys c.2) :
    ∃ bs, sortedMembers as = some bs ∧ bs.map Prod.fst = as.map Prod.fst := by
  have hsorted : ∀ c ∈ as, ∃ e, jsonSorted c.2 = some e ∧ True := by
    intro c hc
    obtain ⟨e, he, _⟩ := sorted_same (h c hc)
    exact ⟨e, he, trivial⟩
  obtain ⟨bs, hbs, hkeys, _⟩ := sortedMembers_spec (R := fun _ _ => True) hsorted
  exact ⟨bs, hbs, hkeys⟩

theorem sortMembers_total (as : List (Bytes × JsonElement)) :
    ∃ bs, seqSort jsonElementPropertyCompare as = some bs ∧ bs.Perm as :=
  seqSort_perm propertyCompare_orders.refl as

/-- Elements that differ in the order of members only are left alike by the writer. -/
theorem sorted_canonical (h : DistinctKeys a) : ∀ {b : JsonElement}, SmallObjects a → Same a b →
    jsonSorted a = jsonSorted b := by
  induction h with
  | primitive type value =>
    intro b _ hsame
    cases hsame
    rfl
  | array _ ih =>
    intro b hsmall hsame
    cases hsmall with
    | array hsmall =>
      cases hsame with
      | array hlen hall =>
        rw [jsonSorted, jsonSorted, sortedElements_congr hlen fun i x y hx hy =>
          ih x (List.mem_of_getElem? hx) (hsmall x (List.mem_of_getElem? hx)) (hall i x y hx hy)]
  | @object as hnodup hdistinct ih =>
    intro b hsmall hsame
    have hdistinct' := DistinctKeys.of_same (.object hnodup hdistinct) hsame
    cases hsmall with
    | object hlen hsmall =>
      cases hsame with
      | @object _ bs hperm hall =>
        cases hdistinct' with
        | object hnodup' hdistinct' =>
          obtain ⟨as', has', hkeys⟩ := sortedMembers_total hdistinct
          obtain ⟨bs', hbs', hkeys'⟩ := sortedMembers_total hdistinct'
          have hpermkeys : (as'.map Prod.fst).Perm (bs'.map Prod.fst) := by
            rw [hkeys, hkeys']
            exact hperm
          have hnodupA : (as'.map Prod.fst).Nodup := by rw [hkeys]; exact hnodup
          have hnodupB : (bs'.map Prod.fst).Nodup := by rw [hkeys']; exact hnodup'
          -- the same member stands under each name on both sides
          have hmem : ∀ m, m ∈ as' ↔ m ∈ bs' := by
            rintro ⟨key, e⟩
            rw [mem_sortedMembers has', mem_sortedMembers hbs']
            constructor
            · rintro ⟨x, hx, hsort⟩
              have hgx := mem_get hnodup hx
              obtain ⟨y, hy⟩ := get_of_key_mem (hperm.mem_iff.mp (List.mem_map_of_mem hx))
              exact ⟨y, get_mem hy, by rw [← ih (key, x) hx (hsmall _ hx) (hall key x y hgx hy)]; exact hsort⟩
            · rintro ⟨y, hy, hsort⟩
              have hgy := mem_get hnodup' hy
              obtain ⟨x, hx⟩ := get_of_key_mem (hperm.mem_iff.mpr (List.mem_map_of_mem hy))
              have hxm := get_mem hx
              exact ⟨x, hxm, by rw [ih (key, x) hxm (hsmall _ hxm) (hall key x y hx hgy)]; exact hsort⟩
          have hpermAB : as'.Perm bs' :=
            (List.perm_ext_iff_of_nodup (List.Nodup.of_map _ hnodupA) (List.Nodup.of_map _ hnodupB)).mpr hmem
          obtain ⟨cs, hcs, hpermC⟩ := sortMembers_total as'
          obtain ⟨ds, hds, hpermD⟩ := sortMembers_total bs'
          have hlenA : as'.length < 2147483648 := by
            have := congrArg List.length hkeys
            simp only [List.length_map] at this
            omega
          have hlenB : bs'.length < 2147483648 := by
            rw [← hpermAB.length_eq]
            exact hlenA
          have heq : cs = ds := sorted_unique ((hpermC.map Prod.fst).nodup_iff.mpr hnodupA)
            (hpermC.trans (hpermAB.trans hpermD.symm)) (seqSort_sorted propertyCompare_orders hlenA hcs)
            (seqSort_sorted propertyCompare_orders hlenB hds)
          rw [jsonSorted_object has' hcs, jsonSorted_object hbs' hds, heq]

/-! ## Different texts -/

theorem encodeChar_inj {c d : UInt8} {r : Bytes} (h : encodeChar c ++ r = encodeChar d ++ s) : c = d ∧ r = s := by
  have hescape : stringEscape 'u'.toUInt8 = none := by decide
  rcases encodeChar_cases c with ⟨_, e, hc, he⟩ | ⟨_, hc, _, hc'⟩ | ⟨_, hc⟩ <;>
    rcases encodeChar_cases d with ⟨_, e', hd, he'⟩ | ⟨_, hd, _, hd'⟩ | ⟨_, hd⟩ <;>
    rw [hc, hd] at h <;> simp only [List.cons_append, List.nil_append, List.cons.injEq] at h
  · obtain ⟨-, rfl, rfl⟩ := h
    rw [he, Option.some.injEq] at he'
    exact ⟨he', rfl⟩
  · exact absurd h.1.symm hd'
  · rw [h.2.1, hescape] at he
    cases he
  · exact absurd h.1 hc'
  · exact h
  · exact absurd h.1 hc'
  · rw [← h.2.1, hescape] at he'
    cases he'
  · exact absurd h.1.symm hd'
  · obtain ⟨-, -, -, -, hhigh, hlow, rfl⟩ := h
    have hc256 := c.toNat_lt
    have hd256 := d.toNat_lt
    have hch := (hexChar_digit (n := c.toNat / 16) (by omega)).1
    have hcl := (hexChar_digit (n := c.toNat % 16) (by omega)).1
    rw [hhigh, (hexChar_digit (n := d.toNat / 16) (by omega)).1, Option.some.injEq] at hch
    rw [hlow, (hexChar_digit (n := d.toNat % 16) (by omega)).1, Option.some.injEq] at hcl
    exact ⟨UInt8.toNat_inj.mp (by omega), rfl⟩

/-- A written name ends at its quote, so different names are written differently. -/
theorem encode_quote_inj {k l : Bytes} {r : Bytes}
    (h : jsonEncodeString k ++ '"'.toUInt8 :: r = jsonEncodeString l ++ '"'.toUInt8 :: s) : k = l := by
  have hquote : ∀ (c : UInt8) (k r s : Bytes), jsonEncodeString (c :: k) ++ r ≠ '"'.toUInt8 :: s := by
    intro c k r s heq
    rw [jsonEncodeString, List.flatMap_cons] at heq
    rcases encodeChar_cases c with ⟨_, e, hc, _⟩ | ⟨_, hc, hc', _⟩ | ⟨_, hc⟩ <;>
      rw [hc] at heq <;> simp only [List.cons_append, List.cons.injEq] at heq
    · exact absurd heq.1 (by decide)
    · exact hc' heq.1
    · exact absurd heq.1 (by decide)
  induction k generalizing l with
  | nil =>
    cases l with
    | nil => rfl
    | cons d l => exact absurd h.symm (hquote d l _ _)
  | cons c k ih =>
    cases l with
    | nil => exact absurd h (hquote c k _ _)
    | cons d l =>
      rw [jsonEncodeString, jsonEncodeString, List.flatMap_cons, List.flatMap_cons, List.append_assoc,
        List.append_assoc] at h
      obtain ⟨rfl, hrest⟩ := encodeChar_inj h
      rw [ih hrest]

theorem membersText_first {x y : Bytes × JsonElement}
    (h : membersText w level (x :: xs) = membersText w level (y :: ys)) : x.1 = y.1 := by
  rw [membersText, membersText] at h
  simp only [List.append_assoc, List.cons_append] at h
  exact encode_quote_inj (List.cons.inj (List.append_cancel_left h)).2

theorem elementsText_middle {xs ys : List JsonElement}
    (h : elementsText w level (xs ++ e :: ys) = elementsText w level (xs ++ e' :: ys)) :
    valueText w (level + 1) e = valueText w (level + 1) e' := by
  induction xs with
  | nil =>
    rw [List.nil_append, List.nil_append, elementsText, elementsText] at h
    simp only [List.append_assoc] at h
    exact List.append_cancel_right (List.append_cancel_left h)
  | cons x xs ih =>
    rw [List.cons_append, List.cons_append, elementsText, elementsText] at h
    have hempty : (xs ++ e :: ys).isEmpty = (xs ++ e' :: ys).isEmpty := by cases xs <;> rfl
    rw [hempty] at h
    exact ih (List.append_cancel_left h)

theorem membersText_middle
    (h : membersText w level (xs ++ (key, e) :: ys) = membersText w level (xs ++ (key, e') :: ys)) :
    valueText w (level + 1) e = valueText w (level + 1) e' := by
  induction xs with
  | nil =>
    rw [List.nil_append, List.nil_append, membersText, membersText] at h
    simp only [List.append_assoc] at h
    exact List.append_cancel_right (List.append_cancel_left (List.append_cancel_left (List.append_cancel_left h)))
  | cons x xs ih =>
    rw [List.cons_append, List.cons_append, membersText, membersText] at h
    have hempty : (xs ++ (key, e) :: ys).isEmpty = (xs ++ (key, e') :: ys).isEmpty := by cases xs <;> rfl
    rw [hempty] at h
    exact ih (List.append_cancel_left h)

/-! ## Large objects -/

/-- The writer leaves the two elements with different texts. -/
def WrittenApart (a b : JsonElement) : Prop :=
  ∃ a' b', jsonSorted a = some a' ∧ jsonSorted b = some b' ∧ ∀ w level, valueText w level a' ≠ valueText w level b'

theorem sortedElements_append {xs ys : List JsonElement} {xs' ys' : List JsonElement}
    (hx : sortedElements xs = some xs') (hy : sortedElements ys = some ys') :
    sortedElements (xs ++ ys) = some (xs' ++ ys') := by
  induction xs generalizing xs' with
  | nil =>
    rw [sortedElements, Option.some.injEq] at hx
    rw [← hx]
    exact hy
  | cons x xs ih =>
    rw [sortedElements] at hx
    cases hx₁ : jsonSorted x with
    | none => simp [hx₁] at hx
    | some y =>
      cases hx₂ : sortedElements xs with
      | none => simp [hx₁, hx₂] at hx
      | some zs =>
        simp only [hx₁, hx₂, Option.bind_eq_bind, Option.bind_some, Option.pure_def, Option.some.injEq] at hx
        rw [List.cons_append, sortedElements, hx₁, ih hx₂, ← hx]
        rfl

theorem sortedMembers_append {xs' ys' : List (Bytes × JsonElement)} (hx : sortedMembers xs = some xs')
    (hy : sortedMembers ys = some ys') :
    sortedMembers (xs ++ ys) = some (xs' ++ ys') := by
  induction xs generalizing xs' with
  | nil =>
    rw [sortedMembers, Option.some.injEq] at hx
    rw [← hx]
    exact hy
  | cons x xs ih =>
    obtain ⟨key, x⟩ := x
    rw [sortedMembers] at hx
    cases hx₁ : jsonSorted x with
    | none => simp [hx₁] at hx
    | some y =>
      cases hx₂ : sortedMembers xs with
      | none => simp [hx₁, hx₂] at hx
      | some zs =>
        simp only [hx₁, hx₂, Option.bind_eq_bind, Option.bind_some, Option.pure_def, Option.some.injEq] at hx
        rw [List.cons_append, sortedMembers, hx₁, ih hx₂, ← hx]
        rfl

theorem sortedElements_total {as : List JsonElement} (h : ∀ e ∈ as, DistinctKeys e) :
    ∃ bs, sortedElements as = some bs := by
  have hsorted : ∀ e ∈ as, ∃ e', jsonSorted e = some e' ∧ True := by
    intro e he
    obtain ⟨e', he', _⟩ := sorted_same (h e he)
    exact ⟨e', he', trivial⟩
  obtain ⟨bs, hbs, _⟩ := sortedElements_spec (R := fun _ _ => True) hsorted
  exact ⟨bs, hbs⟩

theorem sortedMembers_cons (key : Bytes) {ys' : List (Bytes × JsonElement)} (he : jsonSorted e = some e')
    (hy : sortedMembers ys = some ys') :
    sortedMembers ((key, e) :: ys) = some ((key, e') :: ys') := by
  rw [sortedMembers, he, hy]
  rfl

theorem array_writtenApart {xs ys : List JsonElement} {f : JsonElement} (hxs : ∀ x ∈ xs, DistinctKeys x)
    (hys : ∀ y ∈ ys, DistinctKeys y) (h : WrittenApart e f) :
    WrittenApart (.array (xs ++ e :: ys)) (.array (xs ++ f :: ys)) := by
  obtain ⟨e', f', he, hf, hne⟩ := h
  obtain ⟨xs', hxs'⟩ := sortedElements_total hxs
  obtain ⟨ys', hys'⟩ := sortedElements_total hys
  have hsorted : ∀ {g g' : JsonElement}, jsonSorted g = some g' →
      jsonSorted (.array (xs ++ g :: ys)) = some (.array (xs' ++ g' :: ys')) := by
    intro g g' hg
    have hcons : sortedElements (g :: ys) = some (g' :: ys') := by
      rw [sortedElements, hg, hys']
      rfl
    rw [jsonSorted, sortedElements_append hxs' hcons]
    rfl
  refine ⟨_, _, hsorted he, hsorted hf, fun w level heq => hne w (level + 1) ?_⟩
  have htext : ∀ g : JsonElement, valueText w level (.array (xs' ++ g :: ys')) =
      ascii "[" ++ w.newline ++ elementsText w level (xs' ++ g :: ys') ++ w.indent level ++ [']'.toUInt8] := by
    intro g
    cases xs' with
    | nil => rfl
    | cons x xs' => rfl
  rw [htext, htext] at heq
  simp only [List.append_assoc] at heq
  exact elementsText_middle (List.append_cancel_right (List.append_cancel_left (List.append_cancel_left heq)))

theorem membersText_of_valueText (h : valueText w level (.object as) = valueText w level (.object bs)) :
    membersText w level as = membersText w level bs := by
  rw [valueText, valueText] at h
  simp only [List.append_assoc] at h
  exact List.append_cancel_right (List.append_cancel_left (List.append_cancel_left h))

/-- A small object is sorted by its names alone, so another value changes one place of the text. -/
theorem object_writtenApart {f : JsonElement} (hlen : (xs ++ (key, e) :: ys).length < 2147483648)
    (hnodup : ((xs ++ (key, e) :: ys).map Prod.fst).Nodup) (hxs : ∀ x ∈ xs, DistinctKeys x.2)
    (hys : ∀ y ∈ ys, DistinctKeys y.2) (h : WrittenApart e f) :
    WrittenApart (.object (xs ++ (key, e) :: ys)) (.object (xs ++ (key, f) :: ys)) := by
  obtain ⟨e', f', he, hf, hne⟩ := h
  obtain ⟨xs', hxs', hkx⟩ := sortedMembers_total hxs
  obtain ⟨ys', hys', hky⟩ := sortedMembers_total hys
  have hA := sortedMembers_append hxs' (sortedMembers_cons key he hys')
  have hB := sortedMembers_append hxs' (sortedMembers_cons key hf hys')
  obtain ⟨cs, hcs, hpermC⟩ := sortMembers_total (xs' ++ (key, e') :: ys')
  obtain ⟨ds, hds, hpermD⟩ := sortMembers_total (xs' ++ (key, f') :: ys')
  have hkeys : ∀ g : JsonElement, (xs' ++ (key, g) :: ys').map Prod.fst = (xs ++ (key, e) :: ys).map Prod.fst := by
    intro g
    rw [List.map_append, List.map_append, List.map_cons, List.map_cons, hkx, hky]
  have hlen' : ∀ g : JsonElement, (xs' ++ (key, g) :: ys').length < 2147483648 := by
    intro g
    have := congrArg List.length (hkeys g)
    simp only [List.length_map] at this
    omega
  obtain ⟨ps, qs, hsplit⟩ := List.append_of_mem (hpermC.mem_iff.mpr (List.mem_append_right xs' List.mem_cons_self))
  -- the members in order, with the other value in its place
  have hds' : ds = ps ++ (key, f') :: qs := by
    have hrest : (ps ++ qs).Perm (xs' ++ ys') := by
      rw [hsplit] at hpermC
      exact (List.perm_cons _).mp ((List.perm_middle.symm.trans hpermC).trans List.perm_middle)
    have hperm : (ps ++ (key, f') :: qs).Perm (xs' ++ (key, f') :: ys') :=
      List.perm_middle.trans ((hrest.cons _).trans List.perm_middle.symm)
    have hsortedC := seqSort_sorted propertyCompare_orders (hlen' e') hcs
    have hsortedP : (ps ++ (key, f') :: qs).Pairwise fun x y => jsonElementPropertyCompare x y ≤ 0 := by
      have hpair : ∀ ms : List (Bytes × JsonElement), (ms.Pairwise fun x y => jsonElementPropertyCompare x y ≤ 0) ↔
          (ms.map Prod.fst).Pairwise fun s t => strcmp s t ≤ 0 := by
        intro ms
        rw [List.pairwise_map]
        rfl
      rw [hpair, List.map_append, List.map_cons]
      rw [hpair, hsplit, List.map_append, List.map_cons] at hsortedC
      exact hsortedC
    have hnodupD : (ds.map Prod.fst).Nodup := by
      refine (hpermD.map Prod.fst).nodup_iff.mpr ?_
      rw [hkeys]
      exact hnodup
    exact sorted_unique hnodupD (hpermD.trans hperm.symm) (seqSort_sorted propertyCompare_orders (hlen' f') hds) hsortedP
  refine ⟨_, _, jsonSorted_object hA hcs, jsonSorted_object hB hds, fun w level heq => hne w (level + 1) ?_⟩
  have hmembers := membersText_of_valueText heq
  rw [hsplit, hds'] at hmembers
  exact membersText_middle hmembers

/-- The member that a large object is written with first goes to the end, where sorting does not reach. -/
theorem large_writtenApart (hlen : 2147483648 ≤ as.length) (hnodup : (as.map Prod.fst).Nodup)
    (hdistinct : ∀ c ∈ as, DistinctKeys c.2) :
    ∃ bs, bs.Perm as ∧ WrittenApart (.object as) (.object bs) := by
  obtain ⟨as', has', hkeys⟩ := sortedMembers_total hdistinct
  obtain ⟨cs, hcs, hpermC⟩ := sortMembers_total as'
  have hlen' : as'.length = as.length := by
    have := congrArg List.length hkeys
    simpa only [List.length_map] using this
  obtain ⟨z, cs, rfl⟩ : ∃ z rest, cs = z :: rest := by
    cases cs with
    | nil =>
      have := hpermC.length_eq
      rw [List.length_nil] at this
      omega
    | cons z rest => exact ⟨z, rest, rfl⟩
  obtain ⟨key, v'⟩ := z
  obtain ⟨v, hv, hsort⟩ := (mem_sortedMembers has').mp (hpermC.mem_iff.mp List.mem_cons_self)
  obtain ⟨xs, ys, rfl⟩ := List.append_of_mem hv
  have hrest : ∀ c ∈ xs ++ ys, DistinctKeys c.2 := by
    intro c hc
    refine hdistinct c ?_
    rcases List.mem_append.mp hc with hc | hc
    · exact List.mem_append_left _ hc
    · exact List.mem_append_right _ (List.mem_cons_of_mem _ hc)
  obtain ⟨zs, hzs, hkz⟩ := sortedMembers_total hrest
  have hperm : (xs ++ ys ++ [(key, v)]).Perm (xs ++ (key, v) :: ys) :=
    (List.perm_append_singleton _ _).trans List.perm_middle.symm
  refine ⟨xs ++ ys ++ [(key, v)], hperm, ?_⟩
  have hB := sortedMembers_append hzs (sortedMembers_cons key hsort (by rw [sortedMembers]))
  obtain ⟨ds, hds, hpermD⟩ := sortMembers_total (zs ++ [(key, v')])
  have hlenZ : (zs ++ [(key, v')]).length = (xs ++ (key, v) :: ys).length := by
    have := congrArg List.length hkz
    simp only [List.length_map, List.length_append, List.length_cons, List.length_nil] at this ⊢
    omega
  have hkeysB : (zs ++ [(key, v')]).map Prod.fst = (xs ++ ys ++ [(key, v)]).map Prod.fst := by
    have hsplit : (xs ++ ys ++ [(key, v)]).map Prod.fst = (xs ++ ys).map Prod.fst ++ [key] := List.map_append
    rw [hsplit, List.map_append, hkz]
    rfl
  have hnodupD : (ds.map Prod.fst).Nodup := by
    refine (hpermD.map Prod.fst).nodup_iff.mpr ?_
    rw [hkeysB]
    exact (hperm.map Prod.fst).nodup_iff.mpr hnodup
  -- the last member is still the last one
  have hlast : ds[ds.length - 1]? = some (key, v') := by
    have hlenD := hpermD.length_eq
    have hbehind := seqSort_behind propertyCompare_orders.refl hds (i := ((ds.length - 1 : ℕ) : ℤ)) (by
      have := toInt_add_two_le (n := (zs ++ [(key, v')]).length) (by omega)
      omega)
    rw [itemAt, itemAt, if_pos (by omega), if_pos (by omega), Int.toNat_natCast] at hbehind
    rw [hbehind, hlenD, List.length_append, List.length_singleton, Nat.add_sub_cancel, List.getElem?_append_right
      (Nat.le_refl _), Nat.sub_self]
    rfl
  refine ⟨_, _, jsonSorted_object has' hcs, jsonSorted_object hB hds, fun w level heq => ?_⟩
  have hmembers := membersText_of_valueText heq
  have hlenD := hpermD.length_eq
  cases ds with
  | nil =>
    rw [List.length_nil] at hlenD
    omega
  | cons y ds =>
    have hfirst := membersText_first hmembers
    rw [List.length_cons, Nat.add_sub_cancel] at hlast
    -- a second member of the same name
    have hmem : key ∈ ds.map Prod.fst := by
      cases hds₀ : ds.length with
      | zero =>
        rw [List.length_cons] at hlenD
        omega
      | succ n =>
        rw [hds₀, List.getElem?_cons_succ] at hlast
        exact List.mem_map.mpr ⟨_, List.mem_of_getElem? hlast, rfl⟩
    rw [List.map_cons, List.nodup_cons, ← hfirst] at hnodupD
    exact hnodupD.1 hmem

/-- An element with a large object in it has another order of members that is written with another text. -/
theorem exists_writtenApart (h : DistinctKeys a) : ¬ SmallObjects a → ∃ b, Same a b ∧ WrittenApart a b := by
  induction h with
  | primitive type value => exact fun hlarge => absurd (.primitive type value) hlarge
  | @array children hdistinct ih =>
    intro hlarge
    have hchild : ∃ e ∈ children, ¬ SmallObjects e := by
      by_contra hnone
      exact hlarge (.array fun e he => Classical.not_not.mp fun hne => hnone ⟨e, he, hne⟩)
    obtain ⟨e, he, hlarge⟩ := hchild
    obtain ⟨f, hsame, hapart⟩ := ih e he hlarge
    obtain ⟨xs, ys, rfl⟩ := List.append_of_mem he
    refine ⟨.array (xs ++ f :: ys), .array (by simp) fun i x y hx hy => ?_,
      array_writtenApart (fun x hx => hdistinct x (List.mem_append_left _ hx))
        (fun y hy => hdistinct y (List.mem_append_right _ (List.mem_cons_of_mem _ hy))) hapart⟩
    by_cases hi : i = xs.length
    · subst hi
      rw [List.getElem?_append_right (Nat.le_refl _), Nat.sub_self, List.getElem?_cons_zero, Option.some.injEq] at hx hy
      rw [← hx, ← hy]
      exact hsame
    · have hxy : (xs ++ e :: ys)[i]? = (xs ++ f :: ys)[i]? := by
        by_cases hlt : i < xs.length
        · rw [List.getElem?_append_left hlt, List.getElem?_append_left hlt]
        · obtain ⟨j, hj⟩ : ∃ j, i - xs.length = j + 1 := ⟨i - xs.length - 1, by omega⟩
          rw [List.getElem?_append_right (by omega), List.getElem?_append_right (by omega), hj,
            List.getElem?_cons_succ, List.getElem?_cons_succ]
      have hmem := List.mem_of_getElem? hx
      rw [hxy, hy, Option.some.injEq] at hx
      rw [hx]
      exact same_refl (hdistinct x hmem)
  | @object as hnodup hdistinct ih =>
    intro hlarge
    by_cases hlen : as.length < 2147483648
    · have hchild : ∃ c ∈ as, ¬ SmallObjects c.2 := by
        by_contra hnone
        exact hlarge (.object hlen fun c hc => Classical.not_not.mp fun hne => hnone ⟨c, hc, hne⟩)
      obtain ⟨⟨key, e⟩, hc, hlarge⟩ := hchild
      obtain ⟨f, hsame, hapart⟩ := ih (key, e) hc hlarge
      obtain ⟨xs, ys, rfl⟩ := List.append_of_mem hc
      have hkeys : (xs ++ (key, e) :: ys).map Prod.fst = (xs ++ (key, f) :: ys).map Prod.fst := by
        rw [List.map_append, List.map_append, List.map_cons, List.map_cons]
      have hnodup' : ((xs ++ (key, f) :: ys).map Prod.fst).Nodup := by rw [← hkeys]; exact hnodup
      refine ⟨.object (xs ++ (key, f) :: ys), .object (by rw [hkeys]) fun k x y hx hy => ?_,
        object_writtenApart hlen hnodup (fun x hx => hdistinct x (List.mem_append_left _ hx))
          (fun y hy => hdistinct y (List.mem_append_right _ (List.mem_cons_of_mem _ hy))) hapart⟩
      by_cases hk : k = key
      · subst hk
        rw [mem_get hnodup (List.mem_append_right _ List.mem_cons_self), Option.some.injEq] at hx
        rw [mem_get hnodup' (List.mem_append_right _ List.mem_cons_self), Option.some.injEq] at hy
        rw [← hx, ← hy]
        exact hsame
      · have hmem : (k, x) ∈ xs ++ (key, f) :: ys := by
          rcases List.mem_append.mp (get_mem hx) with hmem | hmem
          · exact List.mem_append_left _ hmem
          · rcases List.mem_cons.mp hmem with heq | hmem
            · exact absurd (Prod.mk.inj heq).1 hk
            · exact List.mem_append_right _ (List.mem_cons_of_mem _ hmem)
        rw [mem_get hnodup' hmem, Option.some.injEq] at hy
        rw [← hy]
        exact same_refl (hdistinct (k, x) (get_mem hx))
    · obtain ⟨bs, hperm, hapart⟩ := large_writtenApart (by omega) hnodup hdistinct
      refine ⟨.object bs, .object (hperm.map Prod.fst).symm fun key x y hx hy => ?_, hapart⟩
      rw [mem_get hnodup (hperm.mem_iff.mp (get_mem hy)), Option.some.injEq] at hx
      rw [← hx]
      exact same_refl (hdistinct (key, y) (hperm.mem_iff.mp (get_mem hy)))

/-! ## The writers -/

/-- `JsonWrite` with the indent and `JsonWriteCompact` write the same text for both elements. -/
def WrittenAlike (indentLevel : ℕ) (a b : JsonElement) : Prop :=
  (∃ text, jsonWrite a indentLevel = some text ∧ jsonWrite b indentLevel = some text) ∧
    ∃ text, jsonWriteCompact a = some text ∧ jsonWriteCompact b = some text

/-- Writing leaves an element that compares equal to what it was. -/
def LeftEqual (a : JsonElement) : Prop :=
  ∃ a', jsonSorted a = some a' ∧ jsonCompare a' a = some 0 ∧ jsonCompare a a' = some 0

/-- Neither writer fails on the element. -/
def BothWritable (indentLevel : ℕ) (a : JsonElement) : Prop :=
  prettyWritable indentLevel a = true ∧ writable compactBlanks 0 a = true

theorem writtenAlike_of_sorted {c : JsonElement} (ha : jsonSorted a = some c) (hb : jsonSorted b = some c)
    (hc : BothWritable indentLevel c) : WrittenAlike indentLevel a b := by
  refine ⟨⟨ownIndent indentLevel c ++ valueText prettyBlanks indentLevel c, ?_, ?_⟩, valueText compactBlanks 0 c, ?_, ?_⟩
  · rw [jsonWrite_eq ha, if_pos hc.1]
  · rw [jsonWrite_eq hb, if_pos hc.1]
  · rw [jsonWriteCompact_eq ha, if_pos hc.2]
  · rw [jsonWriteCompact_eq hb, if_pos hc.2]

theorem bothWritable_of_alike {c : JsonElement} (ha : jsonSorted a = some c) (h : WrittenAlike indentLevel a b) :
    BothWritable indentLevel c := by
  obtain ⟨⟨pretty, hpretty, -⟩, compact, hcompact, -⟩ := h
  rw [jsonWrite_eq ha] at hpretty
  rw [jsonWriteCompact_eq ha] at hcompact
  constructor
  · by_contra hno
    rw [if_neg hno] at hpretty
    cases hpretty
  · by_contra hno
    rw [if_neg hno] at hcompact
    cases hcompact

theorem not_writtenAlike (h : WrittenApart a b) : ¬ WrittenAlike indentLevel a b := by
  obtain ⟨a', b', ha, hb, hne⟩ := h
  rintro ⟨-, text, hta, htb⟩
  rw [jsonWriteCompact_eq ha, Option.ite_none_right_eq_some] at hta
  rw [jsonWriteCompact_eq hb, Option.ite_none_right_eq_some] at htb
  exact hne compactBlanks 0 ((Option.some.inj hta.2).trans (Option.some.inj htb.2).symm)

/-- An element and all those that differ from it in the order of members are written alike, and left equal to what they
were, exactly if none of its objects has more members than an `int` can count and the writers fail neither on a string
or a key of it nor on the indent. -/
theorem canonical_output_iff {a : JsonElement} (h : DistinctKeys a) (indentLevel : ℕ) :
    ((∀ b, Same a b → WrittenAlike indentLevel a b) ∧ LeftEqual a) ↔ SmallObjects a ∧ BothWritable indentLevel a := by
  obtain ⟨a', hsorted, hdistinct, hsame⟩ := sorted_same h
  have hleft : LeftEqual a :=
    ⟨a', hsorted, compare_of_same hdistinct (same_symm hsame), compare_of_same h hsame⟩
  have hwritable : BothWritable indentLevel a' ↔ BothWritable indentLevel a := by
    rw [BothWritable, BothWritable, prettyWritable_same h hdistinct hsame, writable_same h hdistinct hsame]
  rw [← hwritable]
  constructor
  · rintro ⟨halike, _⟩
    refine ⟨?_, bothWritable_of_alike hsorted (halike a' hsame)⟩
    by_contra hlarge
    obtain ⟨b, hsame, hapart⟩ := exists_writtenApart h hlarge
    exact not_writtenAlike hapart (halike b hsame)
  · rintro ⟨hsmall, hfits⟩
    refine ⟨fun b hab => writtenAlike_of_sorted hsorted ?_ hfits, hleft⟩
    rw [← sorted_canonical h hsmall hab]
    exact hsorted

/-- An object of two members, out of order. -/
def twoMembers : List (Bytes × JsonElement) := [(ascii "b", jsonNullCreate), (ascii "a", jsonBoolCreate true)]

theorem canonical_output_twoMembers :
    (∀ b, Same (.object twoMembers) b → WrittenAlike 1 (.object twoMembers) b) ∧ LeftEqual (.object twoMembers) := by
  have hdistinct : DistinctKeys (.object twoMembers) := by
    refine .object (by decide) fun c hc => ?_
    simp only [twoMembers, List.mem_cons, List.not_mem_nil, or_false] at hc
    rcases hc with rfl | rfl
    · exact .primitive _ _
    · exact .primitive _ _
  refine (canonical_output_iff hdistinct 1).mpr ⟨.object (by decide) fun c hc => ?_, by decide +kernel, by decide⟩
  simp only [twoMembers, List.mem_cons, List.not_mem_nil, or_false] at hc
  rcases hc with rfl | rfl
  · exact .primitive _ _
  · exact .primitive _ _

/-- The members `"0": null`, `"1": null`, and so on. -/
def numberedMembers (n : ℕ) : List (Bytes × JsonElement) := (List.range n).map fun i => (decimal i, jsonNullCreate)

theorem numberedMembers_distinct (n : ℕ) : DistinctKeys (.object (numberedMembers n)) := by
  refine .object ?_ fun c hc => ?_
  · rw [numberedMembers, List.map_map]
    exact List.nodup_range.map decimal_injective
  · obtain ⟨i, _, rfl⟩ := List.mem_map.mp hc
    exact .primitive _ _

theorem numberedMembers_small {n : ℕ} (h : SmallObjects (.object (numberedMembers n))) : n < 2147483648 := by
  cases h with
  | object hlen _ =>
    rw [numberedMembers, List.length_map, List.length_range] at hlen
    exact hlen

/-- An object with as many members as an `int` cannot count any more has an order of members that is written with
another text. -/
theorem large_object_not_canonical :
    ∃ b, Same (.object (numberedMembers 2147483648)) b ∧
      ¬ WrittenAlike 0 (.object (numberedMembers 2147483648)) b := by
  have hlarge : ¬ SmallObjects (.object (numberedMembers 2147483648)) :=
    fun hsmall => Nat.lt_irrefl _ (numberedMembers_small hsmall)
  obtain ⟨b, hsame, hapart⟩ := exists_writtenApart (numberedMembers_distinct _) hlarge
  exact ⟨b, hsame, not_writtenAlike hapart⟩

end Libntech.Json
