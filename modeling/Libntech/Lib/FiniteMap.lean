import Mathlib.Data.Finmap

/-! # Finite maps up to a key equivalence, and the entry lists that stand for them

The abstract map sends classes of equivalent keys to values: Mathlib's `Finmap` over `Quotient s`.
`Tracks s l m`: the entries `l` have pairwise inequivalent keys and say exactly what `m` says. It does
not look at the order of `l`, so it serves chained buckets, search trees and arrays alike. The lemmas
are the ones an implementation needs: add a new entry, overwrite one in place, drop one, count.

The last section holds the two linear scans that overwrite or drop the first entry with a given key.
-/
namespace Libntech.Lib
set_option autoImplicit false

variable {K V : Type*}

/-- Values by class of equivalent keys. -/
abbrev KeyMap (s : Setoid K) (V : Type*) := Finmap (fun _ : Quotient s => V)

/-- The entries `l` stand for the map `m`. -/
structure Tracks (s : Setoid K) [DecidableEq (Quotient s)] (l : List (K × V)) (m : KeyMap s V) :
    Prop where
  distinct : l.Pairwise fun a b => ¬ s.r a.1 b.1
  lookup_iff : ∀ k v, m.lookup (Quotient.mk s k) = some v ↔ ∃ e ∈ l, s.r e.1 k ∧ e.2 = v

namespace Tracks

variable {s : Setoid K} [DecidableEq (Quotient s)] {l l₁ l₂ : List (K × V)} {m : KeyMap s V}
  {k k' : K} {v v' : V}

omit [DecidableEq (Quotient s)] in
theorem class_eq : Quotient.mk s k = Quotient.mk s k' ↔ s.r k k' := Quotient.eq

theorem nil : Tracks s ([] : List (K × V)) ∅ := by
  refine ⟨List.Pairwise.nil, fun k v => ?_⟩
  simp

theorem perm (h : Tracks s l₁ m) (hp : l₁.Perm l₂) : Tracks s l₂ m := by
  refine ⟨hp.pairwise h.distinct fun hab hba => hab (s.symm hba), fun k v => ?_⟩
  rw [h.lookup_iff]
  constructor
  · rintro ⟨e, he, hr, hv⟩
    exact ⟨e, hp.mem_iff.mp he, hr, hv⟩
  · rintro ⟨e, he, hr, hv⟩
    exact ⟨e, hp.mem_iff.mpr he, hr, hv⟩

theorem lookup_of_mem (h : Tracks s l m) {e : K × V} (he : e ∈ l) (hr : s.r e.1 k) :
    m.lookup (Quotient.mk s k) = some e.2 :=
  (h.lookup_iff k e.2).mpr ⟨e, he, hr, rfl⟩

theorem lookup_absent (h : Tracks s l m) (hno : ∀ e ∈ l, ¬ s.r e.1 k) :
    m.lookup (Quotient.mk s k) = none := by
  rw [Option.eq_none_iff_forall_ne_some]
  intro v hv
  obtain ⟨e, he, hr, _⟩ := (h.lookup_iff k v).mp hv
  exact hno e he hr

theorem cons_new (h : Tracks s l m) (hno : ∀ e ∈ l, ¬ s.r e.1 k) :
    Tracks s ((k, v) :: l) (m.insert (Quotient.mk s k) v) := by
  refine ⟨List.pairwise_cons.mpr ⟨fun e he hr => hno e he (s.symm hr), h.distinct⟩, fun k' v' => ?_⟩
  by_cases hk : s.r k k'
  · rw [← class_eq.mpr hk, Finmap.lookup_insert, Option.some.injEq]
    constructor
    · intro hv
      exact ⟨(k, v), List.mem_cons_self, hk, hv⟩
    · rintro ⟨e, he, hr, hv⟩
      rcases List.mem_cons.mp he with rfl | he
      · exact hv
      · exact absurd (s.trans hr (s.symm hk)) (hno e he)
  · rw [Finmap.lookup_insert_of_ne _ (fun heq => hk (s.symm (class_eq.mp heq))), h.lookup_iff]
    constructor
    · rintro ⟨e, he, hr, hv⟩
      exact ⟨e, List.mem_cons_of_mem _ he, hr, hv⟩
    · rintro ⟨e, he, hr, hv⟩
      rcases List.mem_cons.mp he with rfl | he
      · exact absurd hr hk
      · exact ⟨e, he, hr, hv⟩

theorem erase_head {e : K × V} (h : Tracks s (e :: l) m) (hk : s.r e.1 k) :
    Tracks s l (m.erase (Quotient.mk s k)) := by
  obtain ⟨hhead, htail⟩ := List.pairwise_cons.mp h.distinct
  refine ⟨htail, fun k' v' => ?_⟩
  by_cases hkk : s.r k k'
  · rw [← class_eq.mpr hkk, Finmap.lookup_erase]
    constructor
    · intro hv
      exact absurd hv (by simp)
    · rintro ⟨e', he', hr, _⟩
      exact absurd (s.trans (s.trans hk hkk) (s.symm hr)) (hhead e' he')
  · rw [Finmap.lookup_erase_ne (fun heq => hkk (s.symm (class_eq.mp heq))), h.lookup_iff]
    constructor
    · rintro ⟨e', he', hr, hv⟩
      rcases List.mem_cons.mp he' with rfl | he'
      · exact absurd (s.trans (s.symm hk) hr) hkk
      · exact ⟨e', he', hr, hv⟩
    · rintro ⟨e', he', hr, hv⟩
      exact ⟨e', List.mem_cons_of_mem _ he', hr, hv⟩

theorem insert_erase (m : KeyMap s V) (c : Quotient s) (v : V) : (m.erase c).insert c v = m.insert c v := by
  apply Finmap.ext_lookup
  intro c'
  by_cases hc : c' = c
  · subst hc
    rw [Finmap.lookup_insert, Finmap.lookup_insert]
  · rw [Finmap.lookup_insert_of_ne _ hc, Finmap.lookup_insert_of_ne _ hc, Finmap.lookup_erase_ne hc]

theorem others_differ {e : K × V} (h : Tracks s (e :: l) m) (hk : s.r e.1 k) :
    ∀ e' ∈ l, ¬ s.r e'.1 k := fun e' he' hr =>
  (List.pairwise_cons.mp h.distinct).1 e' he' (s.trans hk (s.symm hr))

theorem overwrite {e : K × V} (h : Tracks s (l₁ ++ e :: l₂) m) (hk : s.r e.1 k) :
    Tracks s (l₁ ++ (k, v) :: l₂) (m.insert (Quotient.mk s k) v) := by
  have hfront := h.perm List.perm_middle
  rw [← insert_erase]
  exact ((hfront.erase_head hk).cons_new (hfront.others_differ hk)).perm List.perm_middle.symm

theorem drop {e : K × V} (h : Tracks s (l₁ ++ e :: l₂) m) (hk : s.r e.1 k) :
    Tracks s (l₁ ++ l₂) (m.erase (Quotient.mk s k)) :=
  (h.perm List.perm_middle).erase_head hk

theorem add (h : Tracks s (l₁ ++ l₂) m) (hno : ∀ e ∈ l₁ ++ l₂, ¬ s.r e.1 k) :
    Tracks s (l₁ ++ (k, v) :: l₂) (m.insert (Quotient.mk s k) v) :=
  (h.cons_new hno).perm List.perm_middle.symm

theorem erase_absent (h : Tracks s l m) (hno : ∀ e ∈ l, ¬ s.r e.1 k) :
    m.erase (Quotient.mk s k) = m := by
  apply Finmap.ext_lookup
  intro c
  by_cases hc : c = Quotient.mk s k
  · subst hc
    rw [Finmap.lookup_erase, h.lookup_absent hno]
  · rw [Finmap.lookup_erase_ne hc]

theorem mem_iff (h : Tracks s l m) : Quotient.mk s k ∈ m ↔ ∃ e ∈ l, s.r e.1 k := by
  rw [Finmap.mem_iff]
  constructor
  · rintro ⟨v, hv⟩
    obtain ⟨e, he, hr, _⟩ := (h.lookup_iff k v).mp hv
    exact ⟨e, he, hr⟩
  · rintro ⟨e, he, hr⟩
    exact ⟨e.2, h.lookup_of_mem he hr⟩

theorem card_eq (h : Tracks s l m) : m.keys.card = l.length := by
  induction l generalizing m with
  | nil =>
    have hempty : m.keys = ∅ := by
      rw [Finset.eq_empty_iff_forall_notMem]
      intro c hc
      induction c using Quotient.inductionOn with
      | h k =>
        obtain ⟨e, he, _⟩ := h.mem_iff.mp (Finmap.mem_keys.mp hc)
        exact absurd he (by simp)
    rw [hempty, Finset.card_empty, List.length_nil]
  | cons e l ih =>
    have hcard := ih (h.erase_head (s.refl e.1))
    have hmem : Quotient.mk s e.1 ∈ m.keys :=
      Finmap.mem_keys.mpr (h.mem_iff.mpr ⟨e, List.mem_cons_self, s.refl e.1⟩)
    rw [Finmap.keys_erase, Finset.card_erase_of_mem hmem] at hcard
    have hpos := Finset.card_pos.mpr ⟨_, hmem⟩
    rw [List.length_cons]
    omega

end Tracks

/-! ## Two equalities of keys -/

/-- The maps have the same entries, all with keys in `S`. -/
def SharesEntries {s s' : Setoid K} [DecidableEq (Quotient s)] [DecidableEq (Quotient s')] (S : Set K) (m : KeyMap s V)
    (m' : KeyMap s' V) : Prop :=
  ∃ l : List (K × V), (∀ e ∈ l, e.1 ∈ S) ∧ Tracks s l m ∧ Tracks s' l m'

namespace SharesEntries

variable {s s' : Setoid K} [DecidableEq (Quotient s)] [DecidableEq (Quotient s')] {S : Set K} {m : KeyMap s V}
  {m' : KeyMap s' V} {k : K}

theorem empty : SharesEntries S (∅ : KeyMap s V) (∅ : KeyMap s' V) :=
  ⟨[], fun _ he => absurd he List.not_mem_nil, Tracks.nil, Tracks.nil⟩

theorem card_eq (h : SharesEntries S m m') : m.keys.card = m'.keys.card := by
  obtain ⟨l, _, h₁, h₂⟩ := h
  rw [h₁.card_eq, h₂.card_eq]

variable (hS : ∀ a ∈ S, ∀ b ∈ S, s.r a b ↔ s'.r a b)
include hS

omit [DecidableEq (Quotient s)] [DecidableEq (Quotient s')] in
theorem find {l : List (K × V)} (hl : ∀ e ∈ l, e.1 ∈ S) (hk : k ∈ S) :
    (∃ l₁ e l₂, l = l₁ ++ e :: l₂ ∧ s.r e.1 k ∧ s'.r e.1 k) ∨ ((∀ e ∈ l, ¬ s.r e.1 k) ∧ ∀ e ∈ l, ¬ s'.r e.1 k) := by
  by_cases h : ∃ e ∈ l, s.r e.1 k
  · obtain ⟨e, he, hr⟩ := h
    obtain ⟨l₁, l₂, rfl⟩ := List.append_of_mem he
    exact .inl ⟨l₁, e, l₂, rfl, hr, (hS e.1 (hl e he) k hk).mp hr⟩
  · have hno : ∀ e ∈ l, ¬ s.r e.1 k := fun e he hr => h ⟨e, he, hr⟩
    exact .inr ⟨hno, fun e he hr => hno e he ((hS e.1 (hl e he) k hk).mpr hr)⟩

theorem lookup_eq (h : SharesEntries S m m') (hk : k ∈ S) : m.lookup (Quotient.mk s k) = m'.lookup (Quotient.mk s' k) := by
  obtain ⟨l, hl, h₁, h₂⟩ := h
  rcases find hS hl hk with ⟨l₁, e, l₂, rfl, hr, hr'⟩ | ⟨hno, hno'⟩
  · have he : e ∈ l₁ ++ e :: l₂ := List.mem_append_right _ List.mem_cons_self
    rw [h₁.lookup_of_mem he hr, h₂.lookup_of_mem he hr']
  · rw [h₁.lookup_absent hno, h₂.lookup_absent hno']

theorem mem_iff (h : SharesEntries S m m') (hk : k ∈ S) : Quotient.mk s k ∈ m ↔ Quotient.mk s' k ∈ m' := by
  rw [← Finmap.lookup_isSome, ← Finmap.lookup_isSome, h.lookup_eq hS hk]

theorem insert (h : SharesEntries S m m') (hk : k ∈ S) (v : V) :
    SharesEntries S (m.insert (Quotient.mk s k) v) (m'.insert (Quotient.mk s' k) v) := by
  obtain ⟨l, hl, h₁, h₂⟩ := h
  rcases find hS hl hk with ⟨l₁, e, l₂, rfl, hr, hr'⟩ | ⟨hno, hno'⟩
  · refine ⟨l₁ ++ (k, v) :: l₂, fun e' he' => ?_, h₁.overwrite hr, h₂.overwrite hr'⟩
    rcases List.mem_append.mp he' with he' | he'
    · exact hl e' (List.mem_append_left _ he')
    · rcases List.mem_cons.mp he' with rfl | he'
      · exact hk
      · exact hl e' (List.mem_append_right _ (List.mem_cons_of_mem _ he'))
  · refine ⟨(k, v) :: l, fun e' he' => ?_, h₁.cons_new hno, h₂.cons_new hno'⟩
    rcases List.mem_cons.mp he' with rfl | he'
    · exact hk
    · exact hl e' he'

theorem erase (h : SharesEntries S m m') (hk : k ∈ S) :
    SharesEntries S (m.erase (Quotient.mk s k)) (m'.erase (Quotient.mk s' k)) := by
  obtain ⟨l, hl, h₁, h₂⟩ := h
  rcases find hS hl hk with ⟨l₁, e, l₂, rfl, hr, hr'⟩ | ⟨hno, hno'⟩
  · refine ⟨l₁ ++ l₂, fun e' he' => ?_, h₁.drop hr, h₂.drop hr'⟩
    rcases List.mem_append.mp he' with he' | he'
    · exact hl e' (List.mem_append_left _ he')
    · exact hl e' (List.mem_append_right _ (List.mem_cons_of_mem _ he'))
  · rw [h₁.erase_absent hno, h₂.erase_absent hno']
    exact ⟨l, hl, h₁, h₂⟩

end SharesEntries

/-! ## Linear scans -/

/-- Overwrite the first entry whose key `hit` accepts. -/
def overwriteFirst (hit : K → Bool) (k : K) (v : V) : List (K × V) → Option (List (K × V))
  | [] => none
  | e :: l => if hit e.1 then some ((k, v) :: l) else (overwriteFirst hit k v l).map (e :: ·)

/-- Drop the first entry whose key `hit` accepts. -/
def dropFirst (hit : K → Bool) : List (K × V) → Option (List (K × V))
  | [] => none
  | e :: l => if hit e.1 then some l else (dropFirst hit l).map (e :: ·)

theorem overwriteFirst_cases (hit : K → Bool) (k : K) (v : V) (l : List (K × V)) :
    (∃ l₁ e l₂, l = l₁ ++ e :: l₂ ∧ hit e.1 = true ∧
        overwriteFirst hit k v l = some (l₁ ++ (k, v) :: l₂)) ∨
      (overwriteFirst hit k v l = none ∧ ∀ e ∈ l, hit e.1 = false) := by
  induction l with
  | nil => exact .inr ⟨rfl, by simp⟩
  | cons e l ih =>
    cases he : hit e.1 with
    | true => exact .inl ⟨[], e, l, rfl, he, by simp [overwriteFirst, he]⟩
    | false =>
      rcases ih with ⟨l₁, e', l₂, rfl, hhit, heq⟩ | ⟨hnone, hall⟩
      · exact .inl ⟨e :: l₁, e', l₂, rfl, hhit, by simp [overwriteFirst, he, heq]⟩
      · refine .inr ⟨by simp [overwriteFirst, he, hnone], ?_⟩
        intro e' he'
        rcases List.mem_cons.mp he' with rfl | he'
        · exact he
        · exact hall e' he'

theorem dropFirst_cases (hit : K → Bool) (l : List (K × V)) :
    (∃ l₁ e l₂, l = l₁ ++ e :: l₂ ∧ hit e.1 = true ∧ dropFirst hit l = some (l₁ ++ l₂)) ∨
      (dropFirst hit l = none ∧ ∀ e ∈ l, hit e.1 = false) := by
  induction l with
  | nil => exact .inr ⟨rfl, by simp⟩
  | cons e l ih =>
    cases he : hit e.1 with
    | true => exact .inl ⟨[], e, l, rfl, he, by simp [dropFirst, he]⟩
    | false =>
      rcases ih with ⟨l₁, e', l₂, rfl, hhit, heq⟩ | ⟨hnone, hall⟩
      · exact .inl ⟨e :: l₁, e', l₂, rfl, hhit, by simp [dropFirst, he, heq]⟩
      · refine .inr ⟨by simp [dropFirst, he, hnone], ?_⟩
        intro e' he'
        rcases List.mem_cons.mp he' with rfl | he'
        · exact he
        · exact hall e' he'

end Libntech.Lib
