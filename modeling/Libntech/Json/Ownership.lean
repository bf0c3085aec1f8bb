import Libntech.Json.DeepMerge
import Libntech.Json.ObjectsMeaning
import Libntech.Json.WriteMeaning
import Mathlib.Order.CompletePartialOrder

/-! # The nodes of an element

`Holds` says of a pointer which element it stands for and which nodes the element takes up. The children of a container
take up disjoint nodes, none of them the node of the container. So a change elsewhere leaves the element as it is, and a
change in one child leaves the others.
-/
namespace Libntech.Json
set_option autoImplicit false

open Libntech.Lib

mutual

/-- The pointer stands for the element, which takes up the given nodes, each of them in one place. -/
def Holds (m : Memory) : JsonElement → ℕ → Set ℕ → Prop
  | .primitive type value, x, s => m.nodes x = some (.primitive type value) ∧ s = {x}
  | .array es, x, s => ∃ ids t, m.nodes x = some (.array ids) ∧ HoldsElements m es ids t ∧ x ∉ t ∧ s = insert x t
  | .object es, x, s =>
    ∃ children t, m.nodes x = some (.object children) ∧ HoldsMembers m es children t ∧ x ∉ t ∧ s = insert x t

def HoldsElements (m : Memory) : List JsonElement → List ℕ → Set ℕ → Prop
  | [], ids, s => ids = [] ∧ s = ∅
  | e :: es, ids, s =>
    ∃ x rest t u, ids = x :: rest ∧ Holds m e x t ∧ HoldsElements m es rest u ∧ Disjoint t u ∧ s = t ∪ u

def HoldsMembers (m : Memory) : List (Bytes × JsonElement) → List (Bytes × ℕ) → Set ℕ → Prop
  | [], children, s => children = [] ∧ s = ∅
  | (key, e) :: es, children, s =>
    ∃ x rest t u, children = (key, x) :: rest ∧ Holds m e x t ∧ HoldsMembers m es rest u ∧ Disjoint t u ∧ s = t ∪ u

end

/-! ## Other memories -/

section Frame

variable {m m' : Memory}

mutual

/-- An element is the same in all memories that agree on its nodes. -/
theorem Holds.frame (e : JsonElement) {x : ℕ} {s : Set ℕ} (h : Holds m e x s)
    (hsame : ∀ y ∈ s, m'.nodes y = m.nodes y) : Holds m' e x s := by
  match e with
  | .primitive type value =>
    obtain ⟨hx, rfl⟩ := h
    exact ⟨(hsame x rfl).trans hx, rfl⟩
  | .array es =>
    obtain ⟨ids, t, hx, hes, hnot, rfl⟩ := h
    exact ⟨ids, t, (hsame x (.inl rfl)).trans hx, HoldsElements.frame es hes fun y hy => hsame y (.inr hy), hnot, rfl⟩
  | .object es =>
    obtain ⟨children, t, hx, hes, hnot, rfl⟩ := h
    exact ⟨children, t, (hsame x (.inl rfl)).trans hx, HoldsMembers.frame es hes fun y hy => hsame y (.inr hy), hnot, rfl⟩

theorem HoldsElements.frame (es : List JsonElement) {ids : List ℕ} {s : Set ℕ} (h : HoldsElements m es ids s)
    (hsame : ∀ y ∈ s, m'.nodes y = m.nodes y) : HoldsElements m' es ids s := by
  match es with
  | [] => exact h
  | e :: es =>
    obtain ⟨x, rest, t, u, rfl, hx, hes, hdisj, rfl⟩ := h
    exact ⟨x, rest, t, u, rfl, Holds.frame e hx fun y hy => hsame y (.inl hy),
      HoldsElements.frame es hes fun y hy => hsame y (.inr hy), hdisj, rfl⟩

theorem HoldsMembers.frame (es : List (Bytes × JsonElement)) {children : List (Bytes × ℕ)} {s : Set ℕ}
    (h : HoldsMembers m es children s) (hsame : ∀ y ∈ s, m'.nodes y = m.nodes y) : HoldsMembers m' es children s := by
  match es with
  | [] => exact h
  | (key, e) :: es =>
    obtain ⟨x, rest, t, u, rfl, hx, hes, hdisj, rfl⟩ := h
    exact ⟨x, rest, t, u, rfl, Holds.frame e hx fun y hy => hsame y (.inl hy),
      HoldsMembers.frame es hes fun y hy => hsame y (.inr hy), hdisj, rfl⟩

end

end Frame

/-! ## What is held -/

section Held

variable {m : Memory}

variable {e : JsonElement} {x : ℕ} {s : Set ℕ} {es : List (Bytes × JsonElement)}

theorem Holds.self (h : Holds m e x s) : x ∈ s := by
  cases e with
  | primitive type value =>
    obtain ⟨-, rfl⟩ := h
    rfl
  | array es =>
    obtain ⟨ids, t, -, -, -, rfl⟩ := h
    exact .inl rfl
  | object es =>
    obtain ⟨children, t, -, -, -, rfl⟩ := h
    exact .inl rfl

mutual

theorem Holds.allocated (e : JsonElement) {x : ℕ} {s : Set ℕ} (h : Holds m e x s) :
    ∀ y ∈ s, ∃ node, m.nodes y = some node := by
  match e with
  | .primitive type value =>
    obtain ⟨hx, rfl⟩ := h
    rintro y rfl
    exact ⟨_, hx⟩
  | .array es =>
    obtain ⟨ids, t, hx, hes, -, rfl⟩ := h
    rintro y (rfl | hy)
    · exact ⟨_, hx⟩
    · exact HoldsElements.allocated es hes y hy
  | .object es =>
    obtain ⟨children, t, hx, hes, -, rfl⟩ := h
    rintro y (rfl | hy)
    · exact ⟨_, hx⟩
    · exact HoldsMembers.allocated es hes y hy

theorem HoldsElements.allocated (es : List JsonElement) {ids : List ℕ} {s : Set ℕ} (h : HoldsElements m es ids s) :
    ∀ y ∈ s, ∃ node, m.nodes y = some node := by
  match es with
  | [] =>
    obtain ⟨-, rfl⟩ := h
    exact fun y hy => hy.elim
  | e :: es =>
    obtain ⟨x, rest, t, u, -, hx, hes, -, rfl⟩ := h
    rintro y (hy | hy)
    · exact Holds.allocated e hx y hy
    · exact HoldsElements.allocated es hes y hy

theorem HoldsMembers.allocated (es : List (Bytes × JsonElement)) {children : List (Bytes × ℕ)} {s : Set ℕ}
    (h : HoldsMembers m es children s) : ∀ y ∈ s, ∃ node, m.nodes y = some node := by
  match es with
  | [] =>
    obtain ⟨-, rfl⟩ := h
    exact fun y hy => hy.elim
  | (key, e) :: es =>
    obtain ⟨x, rest, t, u, -, hx, hes, -, rfl⟩ := h
    rintro y (hy | hy)
    · exact Holds.allocated e hx y hy
    · exact HoldsMembers.allocated es hes y hy

end

theorem reads_primitive {type : JsonPrimitiveType} {value : Bytes} (hx : m.nodes x = some (.primitive type value)) :
    Reads m x e ↔ e = .primitive type value := by
  constructor
  · intro h
    cases h with
    | primitive hx' =>
      obtain ⟨rfl, rfl⟩ := Node.primitive.inj (Option.some.inj (hx.symm.trans hx'))
      rfl
    | array hx' _ _ => cases hx.symm.trans hx'
    | object hx' _ _ => cases hx.symm.trans hx'
  · rintro rfl
    exact .primitive hx

theorem reads_array {ids : List ℕ} (hx : m.nodes x = some (.array ids)) :
    Reads m x e ↔ ∃ es, List.Forall₂ (Reads m) ids es ∧ e = .array es := by
  constructor
  · intro h
    cases h with
    | primitive hx' => cases hx.symm.trans hx'
    | object hx' _ _ => cases hx.symm.trans hx'
    | @array _ _ es hx' hlen hall =>
      obtain rfl := Node.array.inj (Option.some.inj (hx.symm.trans hx'))
      refine ⟨es, List.forall₂_iff_get.mpr ⟨hlen, fun i hi hi' => ?_⟩, rfl⟩
      exact hall i _ _ (List.getElem?_eq_getElem hi) (List.getElem?_eq_getElem hi')
  · rintro ⟨es, hes, rfl⟩
    obtain ⟨hlen, hall⟩ := List.forall₂_iff_get.mp hes
    refine .array hx hlen fun i a e ha he => ?_
    obtain ⟨hi, rfl⟩ := List.getElem?_eq_some_iff.mp ha
    obtain ⟨hi', rfl⟩ := List.getElem?_eq_some_iff.mp he
    exact hall i hi hi'

theorem reads_object {children : List (Bytes × ℕ)} (hx : m.nodes x = some (.object children)) :
    Reads m x e ↔ ∃ es, List.Forall₂ (fun a c => a.1 = c.1 ∧ Reads m a.2 c.2) children es ∧ e = .object es := by
  constructor
  · intro h
    cases h with
    | primitive hx' => cases hx.symm.trans hx'
    | array hx' _ _ => cases hx.symm.trans hx'
    | @object _ _ es hx' hkeys hall =>
      obtain rfl := Node.object.inj (Option.some.inj (hx.symm.trans hx'))
      have hlen : children.length = es.length := by
        rw [← List.length_map, hkeys, List.length_map]
      refine ⟨es, List.forall₂_iff_get.mpr ⟨hlen, fun i hi hi' => ⟨?_, ?_⟩⟩, rfl⟩
      · have hkey : (children.map Prod.fst)[i]? = (es.map Prod.fst)[i]? := by rw [hkeys]
        rw [List.getElem?_map, List.getElem?_map, List.getElem?_eq_getElem hi, List.getElem?_eq_getElem hi'] at hkey
        exact Option.some.inj hkey
      · exact hall i _ _ (List.getElem?_eq_getElem hi) (List.getElem?_eq_getElem hi')
  · rintro ⟨es, hes, rfl⟩
    obtain ⟨hlen, hall⟩ := List.forall₂_iff_get.mp hes
    refine .object hx (List.ext_getElem (by simpa using hlen) fun i hi hi' => ?_) fun i a e ha he => ?_
    · rw [List.getElem_map, List.getElem_map]
      exact (hall i (by simpa using hi) (by simpa using hi')).1
    · obtain ⟨hi, rfl⟩ := List.getElem?_eq_some_iff.mp ha
      obtain ⟨hi', rfl⟩ := List.getElem?_eq_some_iff.mp he
      exact (hall i hi hi').2

mutual

/-- A pointer that holds an element stands for it, and for no other one. -/
theorem Holds.reads_iff (e : JsonElement) {x : ℕ} {s : Set ℕ} (h : Holds m e x s) {e' : JsonElement} :
    Reads m x e' ↔ e' = e := by
  match e with
  | .primitive type value =>
    obtain ⟨hx, -⟩ := h
    exact reads_primitive hx
  | .array es =>
    obtain ⟨ids, t, hx, hes, -, -⟩ := h
    rw [reads_array hx]
    constructor
    · rintro ⟨es', hall, rfl⟩
      rw [(HoldsElements.reads_iff es hes).mp hall]
    · rintro rfl
      exact ⟨es, (HoldsElements.reads_iff es hes).mpr rfl, rfl⟩
  | .object es =>
    obtain ⟨children, t, hx, hes, -, -⟩ := h
    rw [reads_object hx]
    constructor
    · rintro ⟨es', hall, rfl⟩
      rw [(HoldsMembers.reads_iff es hes).mp hall]
    · rintro rfl
      exact ⟨es, (HoldsMembers.reads_iff es hes).mpr rfl, rfl⟩

theorem HoldsElements.reads_iff (es : List JsonElement) {ids : List ℕ} {s : Set ℕ} (h : HoldsElements m es ids s)
    {es' : List JsonElement} : List.Forall₂ (Reads m) ids es' ↔ es' = es := by
  match es with
  | [] =>
    obtain ⟨rfl, -⟩ := h
    exact List.forall₂_nil_left_iff
  | e :: es =>
    obtain ⟨x, rest, t, u, rfl, hx, hes, -, -⟩ := h
    constructor
    · intro hall
      cases hall with
      | cons he hall => rw [(Holds.reads_iff e hx).mp he, (HoldsElements.reads_iff es hes).mp hall]
    · rintro rfl
      exact .cons ((Holds.reads_iff e hx).mpr rfl) ((HoldsElements.reads_iff es hes).mpr rfl)

theorem HoldsMembers.reads_iff (es : List (Bytes × JsonElement)) {children : List (Bytes × ℕ)} {s : Set ℕ}
    (h : HoldsMembers m es children s) {es' : List (Bytes × JsonElement)} :
    List.Forall₂ (fun a c => a.1 = c.1 ∧ Reads m a.2 c.2) children es' ↔ es' = es := by
  match es with
  | [] =>
    obtain ⟨rfl, -⟩ := h
    exact List.forall₂_nil_left_iff
  | (key, e) :: es =>
    obtain ⟨x, rest, t, u, rfl, hx, hes, -, -⟩ := h
    constructor
    · intro hall
      cases hall with
      | @cons _ c _ _ he hall =>
        obtain ⟨key', e'⟩ := c
        obtain ⟨rfl, he⟩ := he
        have hvalue : e' = e := (Holds.reads_iff e hx).mp he
        rw [hvalue, (HoldsMembers.reads_iff es hes).mp hall]
    · rintro rfl
      exact .cons ⟨rfl, (Holds.reads_iff e hx).mpr rfl⟩ ((HoldsMembers.reads_iff es hes).mpr rfl)

end

theorem HoldsMembers.keys : ∀ {children : List (Bytes × ℕ)} {s : Set ℕ},
    HoldsMembers m es children s → children.map Prod.fst = es.map Prod.fst := by
  induction es with
  | nil =>
    rintro children s ⟨rfl, -⟩
    rfl
  | cons c es ih =>
    rintro children s ⟨x, rest, t, u, rfl, -, hes, -, -⟩
    rw [List.map_cons, List.map_cons, ih hes]

mutual

/-- All objects in memory have different names, so the element has. -/
theorem Holds.distinct (hm : m.Ordered) (e : JsonElement) {x : ℕ} {s : Set ℕ} (h : Holds m e x s) : DistinctKeys e := by
  match e with
  | .primitive type value => exact .primitive type value
  | .array es =>
    obtain ⟨ids, t, -, hes, -, -⟩ := h
    exact .array (HoldsElements.distinct hm es hes)
  | .object es =>
    obtain ⟨children, t, hx, hes, -, -⟩ := h
    refine .object ?_ (HoldsMembers.distinct hm es hes)
    rw [← hes.keys]
    exact hm.names x children hx

theorem HoldsElements.distinct (hm : m.Ordered) (es : List JsonElement) {ids : List ℕ} {s : Set ℕ}
    (h : HoldsElements m es ids s) : ∀ e ∈ es, DistinctKeys e := by
  match es with
  | [] => exact fun e he => by cases he
  | e :: es =>
    obtain ⟨x, rest, t, u, -, hx, hes, -, -⟩ := h
    exact List.forall_mem_cons.mpr ⟨Holds.distinct hm e hx, HoldsElements.distinct hm es hes⟩

theorem HoldsMembers.distinct (hm : m.Ordered) (es : List (Bytes × JsonElement)) {children : List (Bytes × ℕ)}
    {s : Set ℕ} (h : HoldsMembers m es children s) : ∀ c ∈ es, DistinctKeys c.2 := by
  match es with
  | [] => exact fun c hc => by cases hc
  | (key, e) :: es =>
    obtain ⟨x, rest, t, u, -, hx, hes, -, -⟩ := h
    exact List.forall_mem_cons.mpr ⟨Holds.distinct hm e hx, HoldsMembers.distinct hm es hes⟩

end

/-! ## More, fewer and other children -/

theorem HoldsElements.append {es' : List JsonElement} {ids' : List ℕ} {s' : Set ℕ} {es : List JsonElement} :
    ∀ {ids : List ℕ} {s : Set ℕ}, HoldsElements m es ids s → HoldsElements m es' ids' s' → Disjoint s s' →
      HoldsElements m (es ++ es') (ids ++ ids') (s ∪ s') := by
  induction es with
  | nil =>
    rintro ids s ⟨rfl, rfl⟩ h' _
    rw [Set.empty_union]
    exact h'
  | cons e es ih =>
    rintro ids s ⟨x, rest, t, u, rfl, hx, hes, hdisj, rfl⟩ h' hdisj'
    obtain ⟨htdisj, hudisj⟩ := Set.disjoint_union_left.mp hdisj'
    exact ⟨x, rest ++ ids', t, u ∪ s', rfl, hx, ih hes h' hudisj, Set.disjoint_union_right.mpr ⟨hdisj, htdisj⟩,
      Set.union_assoc t u s'⟩

theorem HoldsMembers.append {es' : List (Bytes × JsonElement)} {children' : List (Bytes × ℕ)} {s' : Set ℕ} :
    ∀ {children : List (Bytes × ℕ)} {s : Set ℕ}, HoldsMembers m es children s →
      HoldsMembers m es' children' s' → Disjoint s s' → HoldsMembers m (es ++ es') (children ++ children') (s ∪ s') := by
  induction es with
  | nil =>
    rintro children s ⟨rfl, rfl⟩ h' _
    rw [Set.empty_union]
    exact h'
  | cons c es ih =>
    rintro children s ⟨x, rest, t, u, rfl, hx, hes, hdisj, rfl⟩ h' hdisj'
    obtain ⟨htdisj, hudisj⟩ := Set.disjoint_union_left.mp hdisj'
    exact ⟨x, rest ++ children', t, u ∪ s', rfl, hx, ih hes h' hudisj, Set.disjoint_union_right.mpr ⟨hdisj, htdisj⟩,
      Set.union_assoc t u s'⟩

theorem holdsMembers_single (key : Bytes) (h : Holds m e x s) : HoldsMembers m [(key, e)] [(key, x)] s :=
  ⟨x, [], s, ∅, rfl, h, ⟨rfl, rfl⟩, Set.disjoint_empty s, (Set.union_empty s).symm⟩

theorem HoldsMembers.erase (key : Bytes) :
    ∀ {children : List (Bytes × ℕ)} {s : Set ℕ}, HoldsMembers m es children s →
      ∃ s' ⊆ s, HoldsMembers m (removeKey key es) (children.eraseP fun child => child.1 = key) s' := by
  induction es with
  | nil =>
    rintro children s ⟨rfl, rfl⟩
    exact ⟨∅, Set.Subset.rfl, rfl, rfl⟩
  | cons c es ih =>
    rintro children s ⟨x, rest, t, u, rfl, hx, hes, hdisj, rfl⟩
    rw [removeKey]
    by_cases hc : c.1 = key
    · rw [if_pos hc, List.eraseP_cons_of_pos (by simpa using hc)]
      exact ⟨u, Set.subset_union_right, hes⟩
    · obtain ⟨u', hsub, hes'⟩ := ih hes
      rw [if_neg hc, List.eraseP_cons_of_neg (by simpa using hc)]
      exact ⟨t ∪ u', Set.union_subset_union_right t hsub, x, _, t, u', rfl, hx, hes', hdisj.mono_right hsub, rfl⟩

/-- A child by name, and what is held when only this child changes, to an element that takes up some of its nodes and
new ones. -/
theorem HoldsMembers.focus {key : Bytes} {v : ℕ} :
    ∀ {children : List (Bytes × ℕ)} {s : Set ℕ}, HoldsMembers m es children s → lookupMember children key = some v →
      ∃ e t, valueOf es key = some e ∧ Holds m e v t ∧ t ⊆ s ∧
        ∀ (m' : Memory) (e' : JsonElement) (t' : Set ℕ), Holds m' e' v t' →
          (∀ y ∈ s, y ∉ t → m'.nodes y = m.nodes y) → (∀ y ∈ t', y ∈ s → y ∈ t) →
            ∃ s', HoldsMembers m' (replaceValue key e' es) children s' ∧ ∀ y ∈ s', y ∈ s ∨ y ∈ t' := by
  induction es with
  | nil =>
    rintro children s ⟨rfl, -⟩ hv
    cases hv
  | cons c es ih =>
    obtain ⟨k, e⟩ := c
    rintro children s ⟨x, rest, t, u, rfl, hx, hes, hdisj, rfl⟩ hv
    change valueOf ((k, x) :: rest) key = some v at hv
    rw [valueOf_cons] at hv
    by_cases hk : key = k
    · subst hk
      rw [if_pos rfl] at hv
      obtain rfl := Option.some.inj hv
      refine ⟨e, t, by rw [valueOf_cons, if_pos rfl], hx, Set.subset_union_left, fun m' e' t' he' hsame hnew => ?_⟩
      have hrest : HoldsMembers m' es rest u :=
        HoldsMembers.frame es hes fun y hy => hsame y (.inr hy) fun hyt => Set.disjoint_left.mp hdisj hyt hy
      have hdisj' : Disjoint t' u :=
        Set.disjoint_left.mpr fun y hyt hyu => Set.disjoint_left.mp hdisj (hnew y hyt (.inr hyu)) hyu
      rw [replaceValue, if_pos rfl]
      exact ⟨t' ∪ u, ⟨x, rest, t', u, rfl, he', hrest, hdisj', rfl⟩, fun y hy => hy.symm.imp_left .inr⟩
    · rw [if_neg hk] at hv
      obtain ⟨found, t₀, hfound, hholds, hsub, hchange⟩ := ih hes hv
      refine ⟨found, t₀, by rw [valueOf_cons, if_neg hk]; exact hfound, hholds, hsub.trans Set.subset_union_right,
        fun m' e' t' he' hsame hnew => ?_⟩
      have hout : ∀ y ∈ t, y ∉ t₀ := fun y hy hy₀ => Set.disjoint_left.mp hdisj hy (hsub hy₀)
      have hfirst : Holds m' e x t := Holds.frame e hx fun y hy => hsame y (.inl hy) (hout y hy)
      obtain ⟨s', hes', hs'⟩ := hchange m' e' t' he' (fun y hy hy₀ => hsame y (.inr hy) hy₀)
        fun y hyt hyu => hnew y hyt (.inr hyu)
      have hdisj' : Disjoint t s' := by
        refine Set.disjoint_left.mpr fun y hyt hys => ?_
        rcases hs' y hys with hyu | hyt'
        · exact Set.disjoint_left.mp hdisj hyt hyu
        · exact hout y hyt (hnew y hyt' (.inl hyt))
      rw [replaceValue, if_neg (Ne.symm hk)]
      refine ⟨t ∪ s', ⟨x, rest, t, s', rfl, hfirst, hes', hdisj', rfl⟩, ?_⟩
      rintro y (hy | hy)
      · exact .inl (.inl hy)
      · exact (hs' y hy).imp_left .inr

theorem Holds.lt_next (hm : m.Ordered) (h : Holds m e x s) : ∀ y ∈ s, y < m.next := by
  intro y hy
  obtain ⟨node, hnode⟩ := Holds.allocated e h y hy
  exact hm.lt_next hnode

theorem HoldsElements.lt_next (hm : m.Ordered) {es : List JsonElement} {ids : List ℕ} (h : HoldsElements m es ids s) :
    ∀ y ∈ s, y < m.next := by
  intro y hy
  obtain ⟨node, hnode⟩ := HoldsElements.allocated es h y hy
  exact hm.lt_next hnode

theorem HoldsMembers.lt_next (hm : m.Ordered) {children : List (Bytes × ℕ)} (h : HoldsMembers m es children s) :
    ∀ y ∈ s, y < m.next := by
  intro y hy
  obtain ⟨node, hnode⟩ := HoldsMembers.allocated es h y hy
  exact hm.lt_next hnode

/-- `JsonObjectAppendElement`, with an element from elsewhere. -/
theorem append_holds {object : ℕ} {as : List (Bytes × JsonElement)} {t : Set ℕ} (key : Bytes)
    (hobject : Holds m (.object as) object s) (hx : Holds m e x t) (hdisj : Disjoint s t) :
    ∃ s', Holds (jsonObjectAppendElement m object key x) (.object (appendElement as key e)) object s' ∧
      ∀ y ∈ s', y ∈ s ∨ y ∈ t := by
  obtain ⟨children, u, hnode, hes, hnot, rfl⟩ := hobject
  obtain ⟨hout, hdisj⟩ := Set.disjoint_insert_left.mp hdisj
  obtain ⟨u', hsub, herased⟩ := hes.erase key
  have hput := herased.append (holdsMembers_single key hx) (hdisj.mono_left hsub)
  have hnot' : object ∉ u' ∪ t := fun hmem => hmem.elim (fun h => hnot (hsub h)) hout
  have hnodes : (jsonObjectAppendElement m object key x).nodes object =
      some (.object (children.eraseP (fun child => child.1 = key) ++ [(key, x)])) := by
    rw [← Memory.Ordered.members_eq hnode]
    exact Function.update_self ..
  refine ⟨insert object (u' ∪ t), ⟨_, u' ∪ t, hnodes, HoldsMembers.frame _ hput fun y hy => ?_, hnot', rfl⟩, ?_⟩
  · have hne : y ≠ object := fun heq => hnot' (by rw [← heq]; exact hy)
    exact Function.update_of_ne hne ..
  · rintro y (rfl | hy | hy)
    · exact .inl (.inl rfl)
    · exact .inl (.inr (hsub hy))
    · exact .inr hy

end Held

/-! ## Creating elements -/

mutual

theorem settled_eq_self (e : JsonElement) (hd : DistinctKeys e) : settled e = e := by
  match e with
  | .primitive type value => rw [settled]
  | .array es =>
    cases hd with
    | array hall => rw [settled, settledElements_eq_self es hall]
  | .object es =>
    cases hd with
    | object hnodup hall => rw [settled, settledMembers_eq_append es [] hnodup hall, List.nil_append]

theorem settledElements_eq_self (es : List JsonElement) (hd : ∀ e ∈ es, DistinctKeys e) : settledElements es = es := by
  match es with
  | [] => rw [settledElements]
  | e :: es =>
    obtain ⟨he, hes⟩ := List.forall_mem_cons.mp hd
    rw [settledElements, settled_eq_self e he, settledElements_eq_self es hes]

theorem settledMembers_eq_append (ms done : List (Bytes × JsonElement)) (hnodup : ((done ++ ms).map Prod.fst).Nodup)
    (hd : ∀ c ∈ ms, DistinctKeys c.2) : settledMembers done ms = done ++ ms := by
  match ms with
  | [] => rw [settledMembers, List.append_nil]
  | (key, e) :: rest =>
    obtain ⟨he, hrest⟩ := List.forall_mem_cons.mp hd
    have hnew : appendElement done key e = done ++ [(key, e)] := by
      rw [appendElement, removeKey_of_notMem]
      intro hmem
      rw [List.map_append, List.nodup_append] at hnodup
      exact hnodup.2.2 key hmem key List.mem_cons_self rfl
    have hnodup' : ((done ++ [(key, e)] ++ rest).map Prod.fst).Nodup := by
      rw [List.append_assoc]
      exact hnodup
    rw [settledMembers, settled_eq_self e he, hnew, settledMembers_eq_append rest _ hnodup' hrest, List.append_assoc]
    rfl

end

mutual

/-- A created element takes up new nodes, and members of one name have replaced each other. -/
theorem alloc_settles (e : JsonElement) {m : Memory} (hm : m.Ordered) :
    ∃ s, Holds (alloc e m).1 (settled e) (alloc e m).2 s ∧ ∀ y ∈ s, m.next ≤ y := by
  match e with
  | .primitive type value =>
    rw [settled]
    refine ⟨{m.next}, ⟨Function.update_self .., rfl⟩, ?_⟩
    rintro y rfl
    exact Nat.le_refl _
  | .array es =>
    obtain ⟨s, hes, hnew⟩ := allocElements_settle es hm
    have hgrows := allocElements_grows es hm
    have hlt := hes.lt_next hgrows.ordered
    have hgrows' : (allocElements es m).1.Grows ((allocElements es m).1.new (.array (allocElements es m).2)).1 :=
      new_grows hgrows.ordered nofun
    rw [settled]
    refine ⟨insert (allocElements es m).1.next s, ⟨(allocElements es m).2, s, Function.update_self ..,
      HoldsElements.frame _ hes fun y hy => hgrows'.kept y (hlt y hy), fun hmem => ?_, rfl⟩, ?_⟩
    · exact Nat.lt_irrefl _ (hlt _ hmem)
    · rintro y (rfl | hy)
      · exact hgrows.next_le
      · exact hnew y hy
  | .object es =>
    have hnew : m.Grows (m.new (.object [])).1 := new_grows hm fun cs hcs => (Node.object.inj hcs).symm
    have hobject : Holds (m.new (.object [])).1 (.object []) m.next {m.next} :=
      ⟨[], ∅, Function.update_self .., ⟨rfl, rfl⟩, Set.notMem_empty _, (insert_empty_eq _).symm⟩
    obtain ⟨s, hx, hs⟩ := allocMembers_settle m.next es hnew.ordered hobject
    rw [settled]
    refine ⟨s, hx, fun y hy => ?_⟩
    rcases hs y hy with rfl | hy
    · exact Nat.le_refl _
    · exact hnew.next_le.trans hy

theorem allocElements_settle (es : List JsonElement) {m : Memory} (hm : m.Ordered) :
    ∃ s, HoldsElements (allocElements es m).1 (settledElements es) (allocElements es m).2 s ∧ ∀ y ∈ s, m.next ≤ y := by
  match es with
  | [] =>
    rw [settledElements]
    exact ⟨∅, ⟨rfl, rfl⟩, fun y hy => hy.elim⟩
  | e :: es =>
    have hgrows := alloc_grows e hm
    have hgrows' := allocElements_grows es hgrows.ordered
    obtain ⟨t, hx, ht⟩ := alloc_settles e hm
    obtain ⟨u, hrest, hu⟩ := allocElements_settle es hgrows.ordered
    have hlt := hx.lt_next hgrows.ordered
    have hdisj : Disjoint t u := Set.disjoint_left.mpr fun y hyt hyu => absurd (hu y hyu) (not_le.mpr (hlt y hyt))
    rw [settledElements]
    refine ⟨t ∪ u, ⟨_, _, t, u, rfl, Holds.frame _ hx fun y hy => hgrows'.kept y (hlt y hy), hrest, hdisj, rfl⟩, ?_⟩
    rintro y (hy | hy)
    · exact ht y hy
    · exact hgrows.next_le.trans (hu y hy)

theorem allocMembers_settle (object : ℕ) (ms : List (Bytes × JsonElement)) {m : Memory} (hm : m.Ordered)
    {done : List (Bytes × JsonElement)} {s : Set ℕ} (hobject : Holds m (.object done) object s) :
    ∃ s', Holds (allocMembers object ms m) (.object (settledMembers done ms)) object s' ∧
      ∀ y ∈ s', y ∈ s ∨ m.next ≤ y := by
  match ms with
  | [] =>
    rw [settledMembers]
    exact ⟨s, hobject, fun y hy => .inl hy⟩
  | (key, e) :: rest =>
    have hgrows := alloc_grows e hm
    have hlt := hobject.lt_next hm
    obtain ⟨t, hx, ht⟩ := alloc_settles e hm
    have hobject₁ : Holds (alloc e m).1 (.object done) object s :=
      Holds.frame _ hobject fun y hy => hgrows.kept y (hlt y hy)
    have hdisj : Disjoint s t := Set.disjoint_left.mpr fun y hys hyt => absurd (ht y hyt) (not_le.mpr (hlt y hys))
    obtain ⟨s', hput, hs'⟩ := append_holds key hobject₁ hx hdisj
    obtain ⟨children, _, hnode, -⟩ := hobject₁
    obtain ⟨s'', hall, hs''⟩ := allocMembers_settle object rest (hgrows.ordered.append hnode key _) hput
    rw [settledMembers]
    refine ⟨s'', hall, fun y hy => ?_⟩
    rcases hs'' y hy with hy | hy
    · exact (hs' y hy).imp_right (ht y)
    · exact .inr (hgrows.next_le.trans hy)

end

theorem alloc_holds (e : JsonElement) {m : Memory} (hm : m.Ordered) (hd : DistinctKeys e) :
    ∃ s, Holds (alloc e m).1 e (alloc e m).2 s ∧ ∀ y ∈ s, m.next ≤ y := by
  obtain ⟨s, hs⟩ := alloc_settles e hm
  rw [settled_eq_self e hd] at hs
  exact ⟨s, hs⟩

theorem allocElements_holds (es : List JsonElement) {m : Memory} (hm : m.Ordered) (hd : ∀ e ∈ es, DistinctKeys e) :
    ∃ s, HoldsElements (allocElements es m).1 es (allocElements es m).2 s ∧ ∀ y ∈ s, m.next ≤ y := by
  obtain ⟨s, hs⟩ := allocElements_settle es hm
  rw [settledElements_eq_self es hd] at hs
  exact ⟨s, hs⟩

end Libntech.Json
