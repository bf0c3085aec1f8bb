import Mathlib.Data.List.Perm.Subperm
import Mathlib.Logic.Function.Basic

/-! # Counting users

Things are used by others, each by at most one. `Counts object users`: for every thing that is there the list of its
users has each of them once. The lemmas say what it takes to keep this up when a user comes or goes.
-/
namespace Libntech.Lib
set_option autoImplicit false

variable {κ ρ : Type}

structure Counts (object : κ → Option ρ) (users : ρ → Option (List κ)) : Prop where
  nodup : ∀ r us, users r = some us → us.Nodup
  mem_iff : ∀ r us k, users r = some us → (k ∈ us ↔ object k = some r)
  counted : ∀ k r, object k = some r → users r ≠ none

variable {object : κ → Option ρ} {users : ρ → Option (List κ)} {k : κ} {r : ρ} {us : List κ}

namespace Counts

theorem mem (h : Counts object users) (hk : object k = some r) (hr : users r = some us) : k ∈ us :=
  (h.mem_iff r us k hr).mpr hk

theorem exists_users (h : Counts object users) (hk : object k = some r) : ∃ us, users r = some us :=
  Option.ne_none_iff_exists'.mp (h.counted k r hk)

theorem many_iff (h : Counts object users) (hk : object k = some r) (hr : users r = some us) :
    1 < us.length ↔ ∃ k', k' ≠ k ∧ object k' = some r := by
  have hnd := h.nodup r us hr
  constructor
  · intro hlong
    by_contra hall
    have hsub : us ⊆ [k] := by
      intro x hx
      rw [List.mem_singleton]
      by_contra hne
      exact hall ⟨x, hne, (h.mem_iff r us x hr).mp hx⟩
    have hlen := (hnd.subperm hsub).length_le
    rw [List.length_singleton] at hlen
    omega
  · intro ⟨k', hne, hk'⟩
    have hsub : [k, k'] ⊆ us := by
      intro x hx
      rw [List.mem_cons, List.mem_singleton] at hx
      obtain rfl | rfl := hx
      · exact h.mem hk hr
      · exact h.mem hk' hr
    have hnd' : [k, k'].Nodup := by
      rw [List.nodup_cons, List.mem_singleton]
      exact ⟨hne.symm, List.nodup_cons.mpr ⟨List.not_mem_nil, List.nodup_nil⟩⟩
    exact (hnd'.subperm hsub).length_le

variable [DecidableEq κ] [DecidableEq ρ]

theorem attachNew (h : Counts object users) (hr : users r = none) (hk : object k = none) :
    Counts (Function.update object k (some r)) (Function.update users r (some [k])) := by
  have hnot : ∀ k', object k' ≠ some r := by
    intro k' hk'
    exact h.counted k' r hk' hr
  have h₁ := h.nodup
  have h₂ := h.mem_iff
  have h₃ := h.counted
  constructor
  · intro q us hq
    simp only [Function.update_apply] at hq
    grind
  · intro q us k' hq
    simp only [Function.update_apply] at hq ⊢
    grind
  · intro k' q hq
    simp only [Function.update_apply] at hq ⊢
    grind

theorem attach (h : Counts object users) (hr : users r = some us) (hk : object k = none) :
    Counts (Function.update object k (some r)) (Function.update users r (some (us ++ [k]))) := by
  have hnot : k ∉ us := by
    intro hmem
    rw [h.mem_iff r us k hr, hk] at hmem
    cases hmem
  have h₁ := h.nodup
  have h₂ := h.mem_iff
  have h₃ := h.counted
  have hnd : (us ++ [k]).Nodup := List.nodup_append.mpr ⟨h₁ r us hr, by simp, by grind⟩
  constructor
  · intro q us' hq
    simp only [Function.update_apply] at hq
    grind
  · intro q us' k' hq
    simp only [Function.update_apply] at hq ⊢
    grind
  · intro k' q hq
    simp only [Function.update_apply] at hq ⊢
    grind

theorem detach (h : Counts object users) (hr : users r = some us) (hk : object k = some r) :
    Counts (Function.update object k none) (Function.update users r (some (us.erase k))) := by
  have h₁ := h.nodup
  have h₂ := h.mem_iff
  have h₃ := h.counted
  have hnd := (h₁ r us hr).erase k
  have hmem := fun k' => (h₁ r us hr).mem_erase_iff (a := k') (b := k)
  constructor
  · intro q us' hq
    simp only [Function.update_apply] at hq
    grind
  · intro q us' k' hq
    simp only [Function.update_apply] at hq ⊢
    grind
  · intro k' q hq
    simp only [Function.update_apply] at hq ⊢
    grind

theorem drop (h : Counts object users) (hr : users r = some us) (hk : object k = some r) (hone : ¬ 1 < us.length) :
    Counts (Function.update object k none) (Function.update users r none) := by
  have h₁ := h.nodup
  have h₂ := h.mem_iff
  have h₃ := h.counted
  have honly : ∀ k', object k' = some r → k' = k := by
    intro k' hk'
    by_contra hne
    exact hone ((h.many_iff hk hr).mpr ⟨k', hne, hk'⟩)
  constructor
  · intro q us' hq
    simp only [Function.update_apply] at hq
    grind
  · intro q us' k' hq
    simp only [Function.update_apply] at hq ⊢
    grind
  · intro k' q hq
    simp only [Function.update_apply] at hq ⊢
    grind

end Counts
end Libntech.Lib
