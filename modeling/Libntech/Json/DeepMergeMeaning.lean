import Libntech.Json.CopyMeaning
import Libntech.Json.Ownership

/-! # What `JsonObjectMergeDeepInplace` does to memory

The base object and the other one take up disjoint nodes. Each step of the loop changes nodes of the base object only and
adds new ones, so the other object stays as it is, and the base object comes to stand for the merge.
-/
namespace Libntech.Json
set_option autoImplicit false

open Libntech.Lib

/-- In the second memory the pointer stands for the element. Of the nodes that were there only those of the set have
changed, and the element takes up such nodes and new ones. -/
structure Becomes (m m' : Memory) (x : ℕ) (s : Set ℕ) (e : JsonElement) : Prop where
  ordered : m'.Ordered
  next_le : m.next ≤ m'.next
  kept : ∀ y < m.next, y ∉ s → m'.nodes y = m.nodes y
  holds : ∃ s', Holds m' e x s' ∧ ∀ y ∈ s', y ∈ s ∨ m.next ≤ y

section Steps

variable {m m' : Memory} {x base : ℕ} {s : Set ℕ} {e : JsonElement} {as : List (Bytes × JsonElement)}

theorem Becomes.refl (hm : m.Ordered) (h : Holds m e x s) : Becomes m m x s e :=
  ⟨hm, Nat.le_refl _, fun _ _ _ => rfl, s, h, fun _ hy => .inl hy⟩

variable {t : Set ℕ} {bs : List (Bytes × JsonElement)}

theorem Becomes.others (h : Becomes m m' x s e) (hm : m.Ordered) {children : List (Bytes × ℕ)}
    (hheld : HoldsMembers m bs children t) (hdisj : Disjoint s t) :
    HoldsMembers m' bs children t := by
  refine HoldsMembers.frame bs hheld fun y hy => h.kept y (HoldsMembers.lt_next hm hheld y hy) fun hys => ?_
  exact Set.disjoint_left.mp hdisj hys hy

theorem disjoint_of_new {s' : Set ℕ} (hs' : ∀ y ∈ s', y ∈ s ∨ m.next ≤ y) (hdisj : Disjoint s t)
    (ht : ∀ y ∈ t, y < m.next) : Disjoint s' t := by
  refine Set.disjoint_left.mpr fun y hys hyt => ?_
  rcases hs' y hys with hy | hy
  · exact Set.disjoint_left.mp hdisj hy hyt
  · exact absurd (ht y hyt) (not_lt.mpr hy)

theorem Becomes.trans {m₁ : Memory} {e₁ : JsonElement} (h : Becomes m m₁ x s e₁)
    (h' : ∀ s₁, Holds m₁ e₁ x s₁ → (∀ y ∈ s₁, y ∈ s ∨ m.next ≤ y) → Becomes m₁ m' x s₁ e) : Becomes m m' x s e := by
  obtain ⟨s₁, hholds, hs₁⟩ := h.holds
  have hrest := h' s₁ hholds hs₁
  refine ⟨hrest.ordered, h.next_le.trans hrest.next_le, fun y hy hys => ?_, ?_⟩
  · refine (hrest.kept y (Nat.lt_of_lt_of_le hy h.next_le) fun hmem => ?_).trans (h.kept y hy hys)
    rcases hs₁ y hmem with hmem | hmem
    · exact hys hmem
    · omega
  · obtain ⟨s', hholds', hs'⟩ := hrest.holds
    refine ⟨s', hholds', fun y hy => ?_⟩
    rcases hs' y hy with hy | hy
    · exact hs₁ y hy
    · exact .inr (h.next_le.trans hy)

theorem put_becomes (hm : m.Ordered) (hbase : Holds m (.object as) base s) (key : Bytes) (hd : DistinctKeys e) :
    Becomes m (jsonObjectAppendElement (alloc e m).1 base key (alloc e m).2) base s (.object (appendElement as key e)) := by
  have hgrows := alloc_grows e hm
  have hlt := Holds.lt_next hm hbase
  obtain ⟨t, hx, ht⟩ := alloc_holds e hm hd
  have hbase₁ : Holds (alloc e m).1 (.object as) base s := Holds.frame _ hbase fun y hy => hgrows.kept y (hlt y hy)
  have hdisj : Disjoint s t := Set.disjoint_left.mpr fun y hys hyt => absurd (ht y hyt) (not_le.mpr (hlt y hys))
  obtain ⟨s', hput, hs'⟩ := append_holds key hbase₁ hx hdisj
  have hself := Holds.self hbase
  obtain ⟨children, _, hnode, -⟩ := hbase₁
  refine ⟨hgrows.ordered.append hnode key _, hgrows.next_le, fun y hy hys => ?_, s', hput, fun y hy => ?_⟩
  · have hne : y ≠ base := fun heq => hys (by rw [heq]; exact hself)
    exact (Function.update_of_ne hne ..).trans (hgrows.kept y hy)
  · exact (hs' y hy).imp_right (ht y)

theorem extend_becomes (hm : m.Ordered) {xs ys : List JsonElement} (hx : Holds m (.array xs) x s) {inner : List ℕ}
    (hnode : m.nodes x = some (.array inner)) (hd : ∀ e ∈ ys, DistinctKeys e) :
    Becomes m ⟨Function.update (allocElements ys m).1.nodes x (some (.array (inner ++ (allocElements ys m).2))),
      (allocElements ys m).1.next⟩ x s (.array (xs ++ ys)) := by
  have hgrows := allocElements_grows ys hm
  have hlt := Holds.lt_next hm hx
  obtain ⟨t, hys, ht⟩ := allocElements_holds ys hm hd
  obtain ⟨ids, u, hnode', hxs, hnot, rfl⟩ := hx
  obtain rfl := Node.array.inj (Option.some.inj (hnode.symm.trans hnode'))
  have hout : ∀ y ∈ insert x u, y ∉ t := fun y hy hyt => absurd (ht y hyt) (not_le.mpr (hlt y hy))
  have hnode₁ := (hgrows.kept x (hlt x (.inl rfl))).trans hnode
  have hboth : HoldsElements (allocElements ys m).1 (xs ++ ys) (inner ++ (allocElements ys m).2) (u ∪ t) := by
    refine (HoldsElements.frame xs hxs fun y hy => hgrows.kept y (hlt y (.inr hy))).append hys ?_
    exact Set.disjoint_left.mpr fun y hyu => hout y (.inr hyu)
  have hnot' : x ∉ u ∪ t := fun hmem => hmem.elim hnot (hout x (.inl rfl))
  refine ⟨hgrows.ordered.setArray hnode₁, hgrows.next_le, fun y hy hys => ?_, insert x (u ∪ t),
    ⟨_, u ∪ t, Function.update_self .., HoldsElements.frame _ hboth fun y hy => ?_, hnot', rfl⟩, ?_⟩
  · have hne : y ≠ x := fun heq => hys (.inl heq)
    exact (Function.update_of_ne hne ..).trans (hgrows.kept y hy)
  · have hne : y ≠ x := fun heq => hnot' (by rw [← heq]; exact hy)
    exact Function.update_of_ne hne ..
  · rintro y (rfl | hy | hy)
    · exact .inl (.inl rfl)
    · exact .inl (.inr hy)
    · exact .inr (ht y hy)

/-- The member of a name: none on both sides, or a child, and where this child becomes another element, the object does
so with that element in its place. -/
theorem member_becomes (hm : m.Ordered) (hbase : Holds m (.object as) base s) (key : Bytes) :
    (jsonObjectGetIn m base key = none ∧ valueOf as key = none) ∨
      ∃ v a t, jsonObjectGetIn m base key = some v ∧ valueOf as key = some a ∧ Holds m a v t ∧ t ⊆ s ∧
        ∀ m' e, Becomes m m' v t e → Becomes m m' base s (.object (replaceValue key e as)) := by
  have hlt := Holds.lt_next hm hbase
  obtain ⟨children, u, hnode, hes, hnot, rfl⟩ := hbase
  have hget : jsonObjectGetIn m base key = lookupMember children key := by
    rw [jsonObjectGetIn, Memory.Ordered.members_eq hnode]
  rw [hget]
  cases hv : lookupMember children key with
  | none =>
    have hnone : key ∉ children.map Prod.fst := lookupMember_eq_none.mp hv
    rw [hes.keys] at hnone
    exact .inl ⟨rfl, valueOf_eq_none.mpr hnone⟩
  | some v =>
    obtain ⟨a, t, ha, hholds, hsub, hchange⟩ := hes.focus hv
    refine .inr ⟨v, a, t, rfl, ha, hholds, hsub.trans (Set.subset_insert _ _), fun m' e hbecomes => ?_⟩
    obtain ⟨t', hholds', ht'⟩ := hbecomes.holds
    obtain ⟨u', hes', hu'⟩ := hchange m' e t' hholds'
      (fun y hy hyt => hbecomes.kept y (hlt y (.inr hy)) hyt)
      fun y hyt hyu => (ht' y hyt).resolve_right (not_le.mpr (hlt y (.inr hyu)))
    have hself := hlt base (.inl rfl)
    have hnode' : m'.nodes base = some (.object children) :=
      (hbecomes.kept base hself fun hmem => hnot (hsub hmem)).trans hnode
    have hnot' : base ∉ u' := by
      intro hmem
      rcases hu' base hmem with hmem | hmem
      · exact hnot hmem
      · rcases ht' base hmem with hmem | hmem
        · exact hnot (hsub hmem)
        · omega
    refine ⟨hbecomes.ordered, hbecomes.next_le, fun y hy hys => ?_, insert base u', ⟨children, u', hnode', hes', hnot', rfl⟩,
      ?_⟩
    · exact hbecomes.kept y hy fun hyt => hys (.inr (hsub hyt))
    · rintro y (rfl | hy)
      · exact .inl (.inl rfl)
      · rcases hu' y hy with hy | hy
        · exact .inl (.inr hy)
        · exact (ht' y hy).imp_left fun hyt => .inr (hsub hyt)

theorem holds_of_object {es : List (Bytes × ℕ)} (h : Holds m e x s) (hnode : m.nodes x = some (.object es)) :
    ∃ bs, e = .object bs ∧ ∃ t ⊆ s, HoldsMembers m bs es t := by
  cases e with
  | primitive type value => cases h.1.symm.trans hnode
  | array _ =>
    obtain ⟨_, _, hnode', -⟩ := h
    cases hnode'.symm.trans hnode
  | object bs =>
    obtain ⟨children, t, hnode', hbs, -, rfl⟩ := h
    obtain rfl := Node.object.inj (Option.some.inj (hnode'.symm.trans hnode))
    exact ⟨bs, rfl, t, Set.subset_insert _ _, hbs⟩

theorem holds_of_array {ids : List ℕ} (h : Holds m e x s) (hnode : m.nodes x = some (.array ids)) :
    ∃ ys, e = .array ys := by
  cases e with
  | primitive type value => cases h.1.symm.trans hnode
  | array ys => exact ⟨ys, rfl⟩
  | object bs =>
    obtain ⟨_, _, hnode', -⟩ := h
    cases hnode'.symm.trans hnode

theorem HoldsMembers.uncons {key : Bytes} {rest : List (Bytes × ℕ)} (h : HoldsMembers m bs ((key, x) :: rest) s) :
    ∃ b bs' t u, bs = (key, b) :: bs' ∧ Holds m b x t ∧ HoldsMembers m bs' rest u ∧ s = t ∪ u := by
  cases bs with
  | nil =>
    obtain ⟨hnil, -⟩ := h
    cases hnil
  | cons c bs =>
    obtain ⟨k, b⟩ := c
    obtain ⟨x', rest', t, u, hcons, hb, hbs, -, rfl⟩ := h
    cases hcons
    exact ⟨b, bs, t, u, rfl, hb, hbs, rfl⟩

theorem Becomes.andThen {m₁ : Memory} {cs : List (Bytes × JsonElement)} (hm : m.Ordered)
    (h : Becomes m m₁ base s (.object as)) {rest : List (Bytes × ℕ)} (hrest : HoldsMembers m bs rest t)
    (hdisj : Disjoint s t)
    (hloop : ∀ s₁, Holds m₁ (.object as) base s₁ → HoldsMembers m₁ bs rest t → Disjoint s₁ t →
      Becomes m₁ m' base s₁ (.object cs)) :
    Becomes m m' base s (.object cs) := by
  refine h.trans fun s₁ hbase hs₁ => hloop s₁ hbase (h.others hm hrest hdisj) ?_
  exact disjoint_of_new hs₁ hdisj (HoldsMembers.lt_next hm hrest)

/-- Two objects or two arrays meet in memory exactly if they do in the elements. -/
theorem overwrites_iff {b : JsonElement} {key : Bytes} (hm : m.Ordered) (hbase : Holds m (.object as) base s)
    (hx : Holds m b x t) :
    (∀ v, jsonObjectGetIn m base key = some v →
      ¬ (∃ inner extra, m.nodes v = some (.object inner) ∧ m.nodes x = some (.object extra)) ∧
      ¬ ∃ inner extra, m.nodes v = some (.array inner) ∧ m.nodes x = some (.array extra)) ↔
    mergesInPlace (valueOf as key) b = false := by
  obtain ⟨hget, hnone⟩ | ⟨v, a, sv, hget, ha, hv, -, -⟩ := member_becomes hm hbase key
  · rw [hnone, hget]
    refine ⟨fun _ => ?_, fun _ v hv => by cases hv⟩
    cases b <;> rfl
  · rw [hget, ha]
    constructor
    · intro hnot
      obtain ⟨hobjects, harrays⟩ := hnot v rfl
      unfold mergesInPlace
      split
      · rename_i heq
        obtain rfl := Option.some.inj heq
        obtain ⟨inner, _, hinner, -⟩ := hv
        obtain ⟨extra, _, hextra, -⟩ := hx
        exact absurd ⟨inner, extra, hinner, hextra⟩ hobjects
      · rename_i heq
        obtain rfl := Option.some.inj heq
        obtain ⟨inner, _, hinner, -⟩ := hv
        obtain ⟨extra, _, hextra, -⟩ := hx
        exact absurd ⟨inner, extra, hinner, hextra⟩ harrays
      · rfl
    · intro hplace v' hv'
      obtain rfl := Option.some.inj hv'
      refine ⟨?_, ?_⟩
      · rintro ⟨inner, extra, hinner, hextra⟩
        obtain ⟨_, rfl, -⟩ := holds_of_object hv hinner
        obtain ⟨_, rfl, -⟩ := holds_of_object hx hextra
        cases hplace
      · rintro ⟨inner, extra, hinner, hextra⟩
        obtain ⟨_, rfl⟩ := holds_of_array hv hinner
        obtain ⟨_, rfl⟩ := holds_of_array hx hextra
        cases hplace

end Steps

/-! ## What is copied -/

/-- An element of which `JsonCopy` makes an equal one. -/
structure Copyable (e : JsonElement) : Prop where
  sound : Sound e
  plain : PlainNumbers e

namespace Copyable

theorem copy {e copy : JsonElement} (h : Copyable e) (hcopy : jsonCopy e = some copy) : copy = e :=
  Option.some.inj (hcopy.symm.trans ((jsonCopy_eq_iff h.sound).mpr h.plain))

theorem arrayCopy {es : List JsonElement} (h : Copyable (.array es)) : jsonArrayCopy [] es = some es := by
  have hcopy := (jsonCopy_eq_iff h.sound).mpr h.plain
  rw [jsonCopy] at hcopy
  obtain ⟨es', hes, heq⟩ := Option.bind_eq_some_iff.mp hcopy
  rw [hes, JsonElement.array.inj (Option.some.inj heq)]

theorem members {es : List (Bytes × JsonElement)} (h : Copyable (.object es)) : ∀ c ∈ es, Copyable c.2 := by
  obtain ⟨hsound, hplain⟩ := h
  cases hsound with
  | object _ hall =>
    cases hplain with
    | object hall' => exact fun c hc => ⟨hall c hc, hall' c hc⟩

theorem elements {es : List JsonElement} (h : Copyable (.array es)) : ∀ e ∈ es, DistinctKeys e := by
  obtain ⟨hsound, -⟩ := h
  cases hsound with
  | array hall => exact fun e he => (hall e he).distinctKeys

end Copyable

/-! ## The loop -/

/-- What the loop leaves, from the given members of the other object on. -/
theorem deepMerges_becomes {m m' : Memory} {base : ℕ} {members : List (Bytes × ℕ)} {calls : List Call}
    (hd : DeepMerges m base members calls m') : m.Ordered →
      ∀ {as bs : List (Bytes × JsonElement)} {s t : Set ℕ}, Holds m (.object as) base s →
      HoldsMembers m bs members t → Disjoint s t → (∀ c ∈ bs, Copyable c.2) →
      Becomes m m' base s (.object (mergedMembers bs as)) := by
  induction hd with
  | done =>
    intro hm as bs s t hbase hbs _ _
    cases bs with
    | cons c bs =>
      obtain ⟨_, _, _, _, h, -⟩ := hbs
      cases h
    | nil =>
      rw [mergedMembers]
      exact Becomes.refl hm hbase
  | @merge m m₁ m' base extraValue baseValue key rest inner extra _ _ hget hinner hextra _ _ ihInner ihRest =>
    intro hm as bs s t hbase hbs hdisj hcopy
    obtain ⟨y, bs, tv, tr, rfl, hy, hrest, rfl⟩ := hbs.uncons
    obtain ⟨hdisjv, hdisjr⟩ := Set.disjoint_union_right.mp hdisj
    obtain ⟨hcopyv, hcopyr⟩ := List.forall_mem_cons.mp hcopy
    obtain ⟨ys, rfl, tys, hsub, hys⟩ := holds_of_object hy hextra
    obtain ⟨hnone, -⟩ | ⟨v, a, sv, hv, ha, hholds, hsubv, hchange⟩ := member_becomes hm hbase key
    · rw [hget] at hnone
      cases hnone
    · obtain rfl := Option.some.inj (hget.symm.trans hv)
      obtain ⟨xs, rfl, -⟩ := holds_of_object hholds hinner
      have hinner := ihInner hm hholds hys (hdisjv.mono hsubv hsub) hcopyv.members
      have hstep := hchange m₁ _ hinner
      rw [mergedMembers, get_eq_valueOf, ha, mergedValue]
      exact hstep.andThen hm hrest hdisjr fun s₁ hbase hrest hdisj => ihRest hstep.ordered hbase hrest hdisj hcopyr
  | @extend m m₁ m' base extraValue baseValue key rest inner extra ids es copy _ hget hinner hextra hreads hcopied halloc
      _ ih =>
    intro hm as bs s t hbase hbs hdisj hcopy
    obtain ⟨y, bs, tv, tr, rfl, hy, hrest, rfl⟩ := hbs.uncons
    obtain ⟨hdisjv, hdisjr⟩ := Set.disjoint_union_right.mp hdisj
    obtain ⟨hcopyv, hcopyr⟩ := List.forall_mem_cons.mp hcopy
    obtain rfl := (Holds.reads_iff y hy).mp hreads
    obtain rfl := Option.some.inj (hcopied.symm.trans hcopyv.arrayCopy)
    obtain ⟨hnone, -⟩ | ⟨v, a, sv, hv, ha, hholds, hsubv, hchange⟩ := member_becomes hm hbase key
    · rw [hget] at hnone
      cases hnone
    · obtain rfl := Option.some.inj (hget.symm.trans hv)
      obtain ⟨xs, rfl⟩ := holds_of_array hholds hinner
      have hextended := extend_becomes hm hholds hinner hcopyv.elements
      rw [halloc] at hextended
      have hstep := hchange _ _ hextended
      rw [mergedMembers, get_eq_valueOf, ha, mergedValue]
      exact hstep.andThen hm hrest hdisjr fun s₁ hbase hrest hdisj => ih hstep.ordered hbase hrest hdisj hcopyr
  | @put m m₁ m' base extraValue x key rest e copy _ hnot hreads hcopied halloc _ ih =>
    intro hm as bs s t hbase hbs hdisj hcopy
    obtain ⟨y, bs, tv, tr, rfl, hy, hrest, rfl⟩ := hbs.uncons
    obtain ⟨hdisjv, hdisjr⟩ := Set.disjoint_union_right.mp hdisj
    obtain ⟨hcopyv, hcopyr⟩ := List.forall_mem_cons.mp hcopy
    have hplace := (overwrites_iff hm hbase hy).mp hnot
    obtain rfl := (Holds.reads_iff y hy).mp hreads
    obtain rfl := hcopyv.copy hcopied
    have hstep := put_becomes hm hbase key hcopyv.sound.distinctKeys
    rw [halloc] at hstep
    rw [mergedMembers, get_eq_valueOf, hplace, if_neg Bool.false_ne_true]
    exact hstep.andThen hm hrest hdisjr fun s₁ hbase hrest hdisj => ih hstep.ordered hbase hrest hdisj hcopyr

theorem deepMerges_ends (bs : List (Bytes × JsonElement)) {m : Memory} (hm : m.Ordered) {base : ℕ}
    {members : List (Bytes × ℕ)} {as : List (Bytes × JsonElement)} {s t : Set ℕ} (hbase : Holds m (.object as) base s)
    (hbs : HoldsMembers m bs members t) (hdisj : Disjoint s t) (hcopy : ∀ c ∈ bs, Copyable c.2) :
    ∃ calls m', DeepMerges m base members calls m' := by
  match bs with
  | [] =>
    obtain ⟨rfl, -⟩ := hbs
    exact ⟨[], m, .done⟩
  | (key, b) :: bs =>
    obtain ⟨x, rest, tv, tr, rfl, hx, hrest, -, rfl⟩ := hbs
    obtain ⟨hdisjv, hdisjr⟩ := Set.disjoint_union_right.mp hdisj
    obtain ⟨hcopyv, hcopyr⟩ := List.forall_mem_cons.mp hcopy
    -- the loop over the rest, from where the step for the first member leads
    have hloop : ∀ {m₁ as₁}, Becomes m m₁ base s (.object as₁) → ∃ calls m', DeepMerges m₁ base rest calls m' := by
      intro m₁ as₁ hstep
      obtain ⟨s₁, hbase₁, hs₁⟩ := hstep.holds
      exact deepMerges_ends bs hstep.ordered hbase₁ (hstep.others hm hrest hdisjr)
        (disjoint_of_new hs₁ hdisjr (HoldsMembers.lt_next hm hrest)) hcopyr
    cases hplace : mergesInPlace (valueOf as key) b with
    | false =>
      obtain ⟨_, m', hd⟩ := hloop (put_becomes hm hbase key hcopyv.sound.distinctKeys)
      exact ⟨_, m', .put ((overwrites_iff hm hbase hx).mpr hplace) ((Holds.reads_iff b hx).mpr rfl)
        ((jsonCopy_eq_iff hcopyv.sound).mpr hcopyv.plain) rfl hd⟩
    | true =>
      obtain ⟨-, hnone⟩ | ⟨v, a, sv, hget, ha, hv, hsubv, hchange⟩ := member_becomes hm hbase key
      · rw [hnone] at hplace
        cases b <;> cases hplace
      · rw [ha] at hplace
        cases b with
        | primitive type value => cases a <;> cases hplace
        | array ys =>
          cases a with
          | primitive type value => cases hplace
          | object xs => cases hplace
          | array xs =>
            obtain ⟨inner, _, hinner, -⟩ := id hv
            obtain ⟨extra, _, hextra, -⟩ := id hx
            obtain ⟨_, m', hd⟩ := hloop (hchange _ _ (extend_becomes hm hv hinner hcopyv.elements))
            exact ⟨_, m', .extend hget hinner hextra ((Holds.reads_iff _ hx).mpr rfl) hcopyv.arrayCopy rfl hd⟩
        | object ys =>
          cases a with
          | primitive type value => cases hplace
          | array xs => cases hplace
          | object xs =>
            obtain ⟨inner, _, hinner, -⟩ := id hv
            obtain ⟨extra, tys, hextra, hys, -, rfl⟩ := id hx
            have hdisj' : Disjoint sv tys := hdisjv.mono hsubv (Set.subset_insert _ _)
            obtain ⟨_, m₁, hd₁⟩ := deepMerges_ends ys hm hv hys hdisj' hcopyv.members
            obtain ⟨_, m', hd⟩ := hloop (hchange m₁ _ (deepMerges_becomes hd₁ hm hv hys hdisj' hcopyv.members))
            exact ⟨_, m', .merge hget hinner hextra hd₁ hd⟩
termination_by sizeOf bs

/-- For two objects that take up disjoint nodes, the second one copyable: `JsonObjectMergeDeepInplace` ends, and then the
base stands for the merge, the other object has the nodes it had, each of them as it was, and the base has none of
them. -/
theorem mergeDeep_merges {m : Memory} (hm : m.Ordered) {base extra : ℕ} {as bs : List (Bytes × JsonElement)}
    {s t : Set ℕ} (hbase : Holds m (.object as) base s) (hextra : Holds m (.object bs) extra t) (hdisj : Disjoint s t)
    (hcopy : Copyable (.object bs)) {members : List (Bytes × ℕ)} (hmembers : m.nodes extra = some (.object members)) :
    (∃ calls m', DeepMerges m base members calls m') ∧ ∀ calls m', DeepMerges m base members calls m' →
      (∃ cs s', MergesTo (.object as) (.object bs) (.object cs) ∧ Holds m' (.object cs) base s' ∧ Disjoint s' t) ∧
        Holds m' (.object bs) extra t ∧ ∀ y ∈ t, m'.nodes y = m.nodes y := by
  obtain ⟨_, hbs, u, hsub, hheld⟩ := holds_of_object hextra hmembers
  obtain rfl := JsonElement.object.inj hbs
  have hdisj' : Disjoint s u := hdisj.mono_right hsub
  have ht := Holds.lt_next hm hextra
  refine ⟨deepMerges_ends bs hm hbase hheld hdisj' hcopy.members, fun calls m' hd => ?_⟩
  have hbecomes := deepMerges_becomes hd hm hbase hheld hdisj' hcopy.members
  have hkept : ∀ y ∈ t, m'.nodes y = m.nodes y :=
    fun y hy => hbecomes.kept y (ht y hy) fun hys => Set.disjoint_left.mp hdisj hys hy
  obtain ⟨s', hholds, hs'⟩ := hbecomes.holds
  refine ⟨⟨mergedMembers bs as, s', ?_, hholds, disjoint_of_new hs' hdisj ht⟩, Holds.frame _ hextra hkept, hkept⟩
  have hmerges := mergesTo_mergedValue (Holds.distinct hm _ hextra) (Holds.distinct hm _ hbase)
  rw [mergedValue] at hmerges
  exact hmerges

/-- `{"a": {"x": true}, "b": [true]}` -/
def mergeBase : List (Bytes × JsonElement) :=
  [(ascii "a", .object [(ascii "x", jsonBoolCreate true)]), (ascii "b", .array [jsonBoolCreate true])]

/-- `{"b": [null], "a": {"y": null}}` -/
def mergeExtra : List (Bytes × JsonElement) :=
  [(ascii "b", .array [jsonNullCreate]), (ascii "a", .object [(ascii "y", jsonNullCreate)])]

theorem mergeBase_distinct : DistinctKeys (.object mergeBase) := by
  have htrue : DistinctKeys (jsonBoolCreate true) := .primitive _ _
  refine .object (by decide) (List.forall_mem_cons.mpr ⟨?_, List.forall_mem_singleton.mpr ?_⟩)
  · exact .object (by decide) (List.forall_mem_singleton.mpr htrue)
  · exact .array (List.forall_mem_singleton.mpr htrue)

theorem mergeExtra_copyable : Copyable (.object mergeExtra) where
  sound := by
    have hnull : Sound jsonNullCreate := .primitive nofun fun _ => rfl
    refine .object (by decide) (List.forall_mem_cons.mpr ⟨?_, List.forall_mem_singleton.mpr ?_⟩)
    · exact .array (List.forall_mem_singleton.mpr hnull)
    · exact .object (by decide) (List.forall_mem_singleton.mpr hnull)
  plain := by
    have hnull : PlainNumbers jsonNullCreate := .primitive nofun nofun
    refine .object (List.forall_mem_cons.mpr ⟨?_, List.forall_mem_singleton.mpr ?_⟩)
    · exact .array (List.forall_mem_singleton.mpr hnull)
    · exact .object (List.forall_mem_singleton.mpr hnull)

/-- Both objects, the base first. -/
def twoObjects : Memory :=
  (alloc (.object mergeExtra) (alloc (.object mergeBase) .empty).1).1

theorem mergeDeep_merges_objects : ∃ base members calls m' cs s', DeepMerges twoObjects base members calls m' ∧
    MergesTo (.object mergeBase) (.object mergeExtra) (.object cs) ∧ Holds m' (.object cs) base s' := by
  have hgrows := alloc_grows (.object mergeBase) .empty
  have hgrows' := alloc_grows (.object mergeExtra) hgrows.ordered
  obtain ⟨s, hbase, -⟩ := alloc_holds (.object mergeBase) .empty mergeBase_distinct
  obtain ⟨t, hextra, ht⟩ := alloc_holds (.object mergeExtra) hgrows.ordered mergeExtra_copyable.sound.distinctKeys
  have hlt := Holds.lt_next hgrows.ordered hbase
  have hbase' : Holds twoObjects (.object mergeBase) _ s := Holds.frame _ hbase fun y hy => hgrows'.kept y (hlt y hy)
  have hdisj : Disjoint s t := Set.disjoint_left.mpr fun y hys hyt => absurd (ht y hyt) (not_le.mpr (hlt y hys))
  obtain ⟨members, _, hmembers, -⟩ := id hextra
  obtain ⟨⟨calls, m', hd⟩, hall⟩ :=
    mergeDeep_merges hgrows'.ordered hbase' hextra hdisj mergeExtra_copyable hmembers
  obtain ⟨⟨cs, s', hmerges, hholds, -⟩, -⟩ := hall calls m' hd
  exact ⟨_, members, calls, m', cs, s', hd, hmerges, hholds⟩

end Libntech.Json
