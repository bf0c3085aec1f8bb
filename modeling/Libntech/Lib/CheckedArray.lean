import Mathlib.Data.List.Induction

/-! # Arrays with checked accesses

A piece of memory is the list of its cells, and an access outside it is a fault. The state of a loop over it is given by
the pieces that the memory is put together from: a cursor at `front.length` in `front ++ a :: rest` stands on `a`.
-/
namespace Libntech.Lib
set_option autoImplicit false

inductive Fault where
  | outOfBounds
  | outOfFuel
  deriving DecidableEq

section Cells

variable {α : Type}

def load (mem : List α) (i : ℕ) : Except Fault α :=
  match mem[i]? with
  | some a => .ok a
  | none => .error .outOfBounds

def store (mem : List α) (i : ℕ) (a : α) : Except Fault (List α) :=
  if i < mem.length then .ok (mem.set i a) else .error .outOfBounds

/-- The first position from `i` on whose cell does not pass the test. -/
def scan (p : α → Bool) (mem : List α) : ℕ → ℕ → Except Fault ℕ
  | 0, _ => .error .outOfFuel
  | fuel + 1, i => do if p (← load mem i) then scan p mem fuel (i + 1) else return i

/-- The last position up to `i` whose cell does not pass the test. -/
def scanBack (p : α → Bool) (mem : List α) : ℕ → Except Fault ℕ
  | 0 => do if p (← load mem 0) then .error .outOfBounds else return 0
  | i + 1 => do if p (← load mem (i + 1)) then scanBack p mem i else return i + 1

variable {mem : List α} {β : Type} {i : ℕ}

@[simp] theorem ok_bind {γ : Type} (b : β) (f : β → Except Fault γ) : (Except.ok b >>= f) = f b := rfl

@[simp] theorem error_bind {γ : Type} (e : Fault) (f : β → Except Fault γ) :
    ((Except.error e : Except Fault β) >>= f) = .error e := rfl

@[simp] theorem pure_ok (b : β) : (pure b : Except Fault β) = .ok b := rfl

theorem load_at (front : List α) (a : α) (rest : List α) (hmem : mem = front ++ a :: rest) (hi : i = front.length) :
    load mem i = .ok a := by
  subst hmem hi
  rw [load, List.getElem?_append_right (Nat.le_refl _), Nat.sub_self, List.getElem?_cons_zero]

theorem load_beyond (h : mem.length ≤ i) : load mem i = .error .outOfBounds := by
  rw [load, List.getElem?_eq_none h]

theorem store_at (front : List α) (a : α) (rest : List α) (b : α) (hmem : mem = front ++ a :: rest)
    (hi : i = front.length) : store mem i b = .ok (front ++ b :: rest) := by
  subst hmem hi
  rw [store, if_pos (by rw [List.length_append, List.length_cons]; omega),
    List.set_append_right _ _ (Nat.le_refl _), Nat.sub_self, List.set_cons_zero]

/-- A scan over cells that pass stops on the first that does not. -/
theorem scan_run {p : α → Bool} {a : α} {rest : List α} (ha : p a = false) (v : List α) :
    ∀ {fuel i : ℕ} (front : List α), mem = front ++ v ++ a :: rest → i = front.length → (∀ x ∈ v, p x = true) →
      v.length < fuel → scan p mem fuel i = .ok (i + v.length) := by
  induction v with
  | nil =>
    intro fuel i front hmem hi _ hfuel
    obtain ⟨fuel, rfl⟩ : ∃ k, fuel = k + 1 := ⟨fuel - 1, by rw [List.length_nil] at hfuel; omega⟩
    rw [List.append_nil] at hmem
    rw [scan, load_at front a rest hmem hi, ok_bind, ha]
    rfl
  | cons x v ih =>
    intro fuel i front hmem hi hv hfuel
    rw [List.length_cons] at hfuel
    obtain ⟨fuel, rfl⟩ : ∃ k, fuel = k + 1 := ⟨fuel - 1, by omega⟩
    have hnext : scan p mem fuel (i + 1) = .ok (i + 1 + v.length) :=
      ih (front ++ [x]) (by rw [hmem]; simp) (by simp [hi]) (fun y hy => hv y (List.mem_cons_of_mem x hy)) (by omega)
    rw [scan, load_at front x (v ++ a :: rest) (by rw [hmem]; simp) hi, ok_bind, hv x List.mem_cons_self, if_pos rfl,
      hnext, List.length_cons]
    congr 1
    omega

/-- A scan backwards over cells that pass stops on the last that does not. -/
theorem scanBack_run {p : α → Bool} {a : α} {front : List α} (ha : p a = false) (v : List α) :
    ∀ {i : ℕ} (rest : List α), mem = front ++ a :: (v ++ rest) → i = front.length + v.length →
      (∀ x ∈ v, p x = true) → scanBack p mem i = .ok front.length := by
  induction v using List.reverseRecOn with
  | nil =>
    intro i rest hmem hi _
    rw [List.length_nil, Nat.add_zero] at hi
    have hload := load_at front a rest hmem hi
    cases i with
    | zero => rw [scanBack, hload, ok_bind, ha, ← hi]; rfl
    | succ i => rw [scanBack, hload, ok_bind, ha, ← hi]; rfl
  | append_singleton v x ih =>
    intro i rest hmem hi hv
    rw [List.length_append, List.length_singleton] at hi
    have hload : load mem i = .ok x := load_at (front ++ a :: v) x rest (by rw [hmem]; simp) (by
      rw [List.length_append, List.length_cons]
      omega)
    obtain ⟨i, rfl⟩ : ∃ k, i = k + 1 := ⟨i - 1, by omega⟩
    rw [scanBack, hload, ok_bind, hv x (List.mem_append_right _ (List.mem_singleton_self x)), if_pos rfl]
    exact ih (x :: rest) (by rw [hmem]; simp) (by omega) fun y hy => hv y (List.mem_append_left _ hy)

end Cells

end Libntech.Lib
