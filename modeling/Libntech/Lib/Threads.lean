import Libntech.Lib.Interaction
import Mathlib.Logic.Function.Basic

/-! # Threads

Programs that run at the same time on one world; a step of the pool is one call of one thread. The proof about a thread
goes through its own program: `rely` is what it lets the others do between two of its calls, and `guarantee` is what its
own calls keep to, each behind the calls that the thread has made before. If what each thread guarantees is what every
other one relies on, all the proofs hold in the pool.
-/
namespace Libntech.Lib
set_option autoImplicit false

variable {ι C : Type} {A : C → Type} {α W : Type}

/-! ## One thread -/

section Thread

variable (serves : W → (c : C) → A c → W → Prop) (rely : W → W → Prop)
  (guarantee : List (Event W C A) → Event W C A → W → Prop) (post : List (Event W C A) → W → α → Prop)

/-- From a world on, behind the calls of `trace`. -/
def Program.Meets : Program C A α → List (Event W C A) → W → Prop
  | .done result, trace, w => ∀ w', Relation.ReflTransGen rely w w' → post trace w' result
  | .call c next, trace, w => ∀ w₀ answer w₁, Relation.ReflTransGen rely w w₀ → serves w₀ c answer w₁ →
      guarantee trace ⟨w₀, c, answer⟩ w₁ ∧ (next answer).Meets (trace ++ [⟨w₀, c, answer⟩]) w₁

end Thread

variable {serves : W → (c : C) → A c → W → Prop} {rely : W → W → Prop}
  {guarantee : List (Event W C A) → Event W C A → W → Prop} {post : List (Event W C A) → W → α → Prop}

theorem Program.Meets.after {p : Program C A α} {trace : List (Event W C A)} {w w₁ : W}
    (h : p.Meets serves rely guarantee post trace w) (hstep : rely w w₁) :
    p.Meets serves rely guarantee post trace w₁ := by
  cases p with
  | done result => exact fun w' hsteps => h w' (.head hstep hsteps)
  | call c next => exact fun w₀ answer w₂ hsteps => h w₀ answer w₂ (.head hstep hsteps)

/-! ## The pool -/

structure Pool (ι W C : Type) (A : C → Type) (α : Type) where
  world : W
  threads : ι → Program C A α

section Runs

variable [DecidableEq ι] (serves : ι → W → (c : C) → A c → W → Prop)

inductive PoolStep : Pool ι W C A α → ι → Event W C A → Pool ι W C A α → Prop where
  | call {p : Pool ι W C A α} {i : ι} {c : C} {next : A c → Program C A α} {answer : A c} {w' : W} :
      p.threads i = .call c next → serves i p.world c answer w' →
      PoolStep p i ⟨p.world, c, answer⟩ ⟨w', Function.update p.threads i (next answer)⟩

inductive PoolRuns : Pool ι W C A α → List (ι × Event W C A) → Pool ι W C A α → Prop where
  | refl (p : Pool ι W C A α) : PoolRuns p [] p
  | tail {p p' p'' : Pool ι W C A α} {trace : List (ι × Event W C A)} {i : ι} {e : Event W C A} :
      PoolRuns p trace p' → PoolStep serves p' i e p'' → PoolRuns p (trace ++ [(i, e)]) p''

/-- The calls of one thread. -/
def traceOf (i : ι) (trace : List (ι × Event W C A)) : List (Event W C A) :=
  trace.filterMap fun e => if e.1 = i then some e.2 else none

end Runs

section Rule

variable [DecidableEq ι] {serves : ι → W → (c : C) → A c → W → Prop} {rely : ι → W → W → Prop}
  {guarantee : ι → List (Event W C A) → Event W C A → W → Prop} {post : ι → List (Event W C A) → W → α → Prop}
  {p p' : Pool ι W C A α} {trace : List (ι × Event W C A)}

/-- The next call is one of thread `i`. -/
theorem PoolRuns.next (h : PoolRuns serves p trace p') (i : ι) {c : C} (answer : A c) {next : A c → Program C A α}
    {w' : W} (hi : p'.threads i = .call c next) (hserves : serves i p'.world c answer w') :
    PoolRuns serves p (trace ++ [(i, ⟨p'.world, c, answer⟩)]) ⟨w', Function.update p'.threads i (next answer)⟩ :=
  h.tail (.call hi hserves)

theorem traceOf_concat (i j : ι) (e : Event W C A) :
    traceOf i (trace ++ [(j, e)]) = traceOf i trace ++ if j = i then [e] else [] := by
  rw [traceOf, List.filterMap_append]
  split <;> simp [*, traceOf]

/-- What is left of each thread meets its conditions, and so did every call. -/
theorem PoolRuns.meets (h : PoolRuns serves p trace p')
    (hmeets : ∀ i, (p.threads i).Meets (serves i) (rely i) (guarantee i) (post i) [] p.world)
    (hcompat : ∀ i j before e w₁, i ≠ j → guarantee i before e w₁ → rely j e.world w₁) :
    (∀ i, (p'.threads i).Meets (serves i) (rely i) (guarantee i) (post i) (traceOf i trace) p'.world) ∧
      ∀ before i e after, trace = before ++ (i, e) :: after → ∃ w₁, guarantee i (traceOf i before) e w₁ := by
  induction h with
  | refl => exact ⟨hmeets, fun before i e after htrace => absurd htrace.symm (by simp)⟩
  | @tail q q' trace i e _ hstep ih =>
    obtain ⟨hthreads, hcalls⟩ := ih
    cases hstep with
    | @call c next answer w' hi hserves =>
      have hthread := hthreads i
      rw [hi] at hthread
      obtain ⟨hguarantee, hnext⟩ := hthread q.world answer w' .refl hserves
      refine ⟨fun j => ?_, fun before j e after htrace => ?_⟩
      · rw [traceOf_concat]
        simp only
        by_cases hj : i = j
        · subst hj
          rw [if_pos rfl, Function.update_self]
          exact hnext
        · rw [if_neg hj, List.append_nil, Function.update_of_ne (Ne.symm hj)]
          exact (hthreads j).after (hcompat i j _ _ _ hj hguarantee)
      · rcases List.eq_nil_or_concat after with rfl | ⟨after, last, rfl⟩
        · obtain ⟨rfl, hlast⟩ := List.append_inj' htrace rfl
          obtain ⟨rfl, rfl⟩ := Prod.mk.inj (List.singleton_inj.mp hlast)
          exact ⟨w', hguarantee⟩
        · rw [List.concat_eq_append, ← List.cons_append, ← List.append_assoc] at htrace
          obtain ⟨hbefore, -⟩ := List.append_inj' htrace rfl
          exact hcalls before j e after hbefore

theorem PoolRuns.invariant (h : PoolRuns serves p trace p')
    (hmeets : ∀ i, (p.threads i).Meets (serves i) (rely i) (guarantee i) (post i) [] p.world)
    (hcompat : ∀ i j before e w₁, i ≠ j → guarantee i before e w₁ → rely j e.world w₁) {inv : W → Prop}
    (hinv : ∀ i before e w₁, guarantee i before e w₁ → inv e.world → inv w₁) (hstart : inv p.world) : inv p'.world := by
  induction h with
  | refl => exact hstart
  | @tail q q' trace i e hrun hstep ih =>
    have hthreads := (hrun.meets hmeets hcompat).1
    cases hstep with
    | @call c next answer w' hi hserves =>
      have hthread := hthreads i
      rw [hi] at hthread
      exact hinv i _ _ _ (hthread q.world answer w' .refl hserves).1 ih

theorem PoolRuns.returned (h : PoolRuns serves p trace p')
    (hmeets : ∀ i, (p.threads i).Meets (serves i) (rely i) (guarantee i) (post i) [] p.world)
    (hcompat : ∀ i j before e w₁, i ≠ j → guarantee i before e w₁ → rely j e.world w₁) {i : ι} {result : α}
    (hdone : p'.threads i = .done result) : post i (traceOf i trace) p'.world result := by
  have hthread := (h.meets hmeets hcompat).1 i
  rw [hdone] at hthread
  exact hthread p'.world .refl

end Rule

end Libntech.Lib
