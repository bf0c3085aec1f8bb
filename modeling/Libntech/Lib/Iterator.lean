import Mathlib.Data.List.Range

/-! # Iterators

An iterator is a partial step on its state: each draw gives the next state, and an item or word that there is none. It
yields a list if the draws give its items one after the other, and from then on nothing.
-/
namespace Libntech.Lib
set_option autoImplicit false

variable {σ α : Type*} {step : σ → Option (σ × Option α)} {s s' : σ}

/-- What the first `n` draws give. -/
def draws (step : σ → Option (σ × Option α)) : ℕ → σ → Option (List (Option α))
  | 0, _ => some []
  | n + 1, s => (step s).bind fun r => (draws step n r.1).map (r.2 :: ·)

/-- However often it is drawn from, the iterator gives the items in order, and then none. -/
def Yields (step : σ → Option (σ × Option α)) (s : σ) (items : List α) : Prop :=
  ∀ n, draws step n s = some ((List.range n).map fun i => items[i]?)

theorem Yields.of_step {item : Option α} {rest items : List α} (hstep : step s = some (s', item))
    (hrest : Yields step s' rest) (hfirst : items[0]? = item) (hnext : ∀ i : ℕ, items[i + 1]? = rest[i]?) :
    Yields step s items := by
  intro n
  cases n with
  | zero => rfl
  | succ n =>
    rw [draws, hstep, List.range_succ_eq_map, List.map_cons, List.map_map, hfirst]
    rw [Option.bind_some, hrest n, Option.map_some]
    exact congrArg some (congrArg (item :: ·) (List.map_congr_left fun i _ => (hnext i).symm))

theorem Yields.cons {a : α} {items : List α} (hstep : step s = some (s', some a)) (hrest : Yields step s' items) :
    Yields step s (a :: items) := hrest.of_step hstep rfl fun _ => rfl

/-- States in which the iterator gives nothing and stays among them. -/
theorem Yields.nil {P : σ → Prop} (hstep : ∀ s, P s → ∃ s', step s = some (s', none) ∧ P s') (h : P s) :
    Yields step s [] := by
  intro n
  induction n generalizing s with
  | zero => rfl
  | succ n ih =>
    obtain ⟨s', heq, h'⟩ := hstep s h
    rw [draws, heq, List.range_succ_eq_map, List.map_cons, List.map_map]
    rw [Option.bind_some, ih h', Option.map_some]
    exact congrArg some (congrArg (none :: ·) (List.map_congr_left fun i _ => rfl))

theorem Yields.stuck (hstep : step s = some (s, none)) : Yields step s [] :=
  Yields.nil (P := (· = s)) (fun _ h => ⟨s, h ▸ hstep, rfl⟩) rfl

theorem Yields.next {a : α} {items : List α} (h : Yields step s (a :: items)) :
    ∃ s', step s = some (s', some a) ∧ Yields step s' items := by
  have hone := h 1
  rw [draws, Option.bind_eq_some_iff] at hone
  obtain ⟨⟨s', item⟩, hstep, hitem⟩ := hone
  cases hitem
  refine ⟨s', hstep, fun n => ?_⟩
  have hmore := h (n + 1)
  rw [draws, hstep, Option.bind_some, List.range_succ_eq_map, List.map_cons, List.map_map, Option.map_eq_some_iff] at hmore
  obtain ⟨rest, hrest, heq⟩ := hmore
  rw [hrest, (List.cons.inj heq).2]
  exact congrArg some (List.map_congr_left fun i _ => rfl)

theorem Yields.finished (h : Yields step s []) : ∃ s', step s = some (s', none) := by
  have hone := h 1
  rw [draws, Option.bind_eq_some_iff] at hone
  obtain ⟨⟨s', item⟩, hstep, hitem⟩ := hone
  cases hitem
  exact ⟨s', hstep⟩

theorem Yields.inside {τ : Type*} {outer : τ → Option (τ × Option α)} (f : σ → τ)
    (hstep : ∀ s, outer (f s) = (step s).map fun r => (f r.1, r.2)) {items : List α} (h : Yields step s items) :
    Yields outer (f s) items := by
  have hdraws : ∀ (n : ℕ) (s : σ), draws outer n (f s) = draws step n s := by
    intro n
    induction n with
    | zero => exact fun s => rfl
    | succ n ih =>
      intro s
      rw [draws, draws, hstep]
      cases step s with
      | none => rfl
      | some r => rw [Option.map_some, Option.bind_some, Option.bind_some, ih]
  intro n
  rw [hdraws, h n]

/-- An iterator that shows its items through `f`. -/
theorem Yields.map {β : Type*} (f : α → β) {items : List α} (h : Yields step s items) :
    Yields (fun s => (step s).map fun r => (r.1, r.2.map f)) s (items.map f) := by
  have hdraws : ∀ (n : ℕ) (s : σ), draws (fun s => (step s).map fun r => (r.1, r.2.map f)) n s =
      (draws step n s).map (List.map (Option.map f)) := by
    intro n
    induction n with
    | zero => exact fun s => rfl
    | succ n ih =>
      intro s
      rw [draws, draws]
      cases step s with
      | none => rfl
      | some r =>
        rw [Option.map_some, Option.bind_some, Option.bind_some, ih, Option.map_map, Option.map_map]
        rfl
  intro n
  rw [hdraws, h n, Option.map_some, List.map_map]
  exact congrArg some (List.map_congr_left fun i _ => by simp)

end Libntech.Lib
