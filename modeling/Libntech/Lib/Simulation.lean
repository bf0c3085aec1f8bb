import Mathlib.Data.List.Forall2
import Mathlib.Data.Option.Basic

/-! # Deterministic machines, their runs, and lock-step simulation

A machine is a partial step function `σ → ε → Option (σ × ρ)`: event in, next state and reply out,
`none` when the event cannot happen in that state. `run` threads a list of events and collects the
replies. `Matches R` compares the outcomes of two machines: both refuse, or both answer alike and
land in `R`-related states; `run_matches` lifts it from one event to every list of events.

A *world* is a list of objects addressed by position. An object's own step may end it and may spawn
another one; `worldStep` runs that step at the addressed object. Interleaving the calls of several
threads on several objects is then one list of `(position, event)` pairs, and `world_matches` lifts
a simulation of single objects to worlds.
-/
namespace Libntech.Lib
set_option autoImplicit false

variable {σ τ ε ρ : Type*}

/-! ## Runs -/

/-- The state reached and the replies given along a list of events. -/
def run (step : σ → ε → Option (σ × ρ)) : σ → List ε → Option (σ × List ρ)
  | s, [] => some (s, [])
  | s, e :: es =>
    match step s e with
    | none => none
    | some (s', r) =>
      match run step s' es with
      | none => none
      | some (s'', rs) => some (s'', r :: rs)

@[simp] theorem run_nil (step : σ → ε → Option (σ × ρ)) (s : σ) : run step s [] = some (s, []) := rfl

theorem run_cons_some {step : σ → ε → Option (σ × ρ)} {s s'' : σ} {e : ε} {es : List ε} {rs : List ρ}
    (h : run step s (e :: es) = some (s'', rs)) :
    ∃ s' r rs', step s e = some (s', r) ∧ run step s' es = some (s'', rs') ∧ rs = r :: rs' := by
  unfold run at h
  cases hs : step s e with
  | none => simp [hs] at h
  | some p =>
    obtain ⟨s', r⟩ := p
    cases hr : run step s' es with
    | none => simp [hs, hr] at h
    | some q =>
      obtain ⟨t, rs'⟩ := q
      simp only [hs, hr, Option.some.injEq, Prod.mk.injEq] at h
      obtain ⟨rfl, rfl⟩ := h
      exact ⟨s', r, rs', rfl, hr, rfl⟩

theorem run_invariant {step : σ → ε → Option (σ × ρ)} {Inv : σ → Prop}
    (hstep : ∀ s e s' r, Inv s → step s e = some (s', r) → Inv s') :
    ∀ (es : List ε) (s s' : σ) (rs : List ρ), Inv s → run step s es = some (s', rs) → Inv s'
  | [], s, s', rs, hi, h => by
      simp only [run_nil, Option.some.injEq, Prod.mk.injEq] at h
      exact h.1 ▸ hi
  | e :: es, s, s', rs, hi, h => by
      obtain ⟨t, r, rs', hs, hr, _⟩ := run_cons_some h
      exact run_invariant hstep es t s' rs' (hstep s e t r hi hs) hr

/-! ## Simulation -/

/-- Both outcomes refuse, or both answer alike and land in related states. -/
def Matches (R : σ → τ → Prop) : Option (σ × ρ) → Option (τ × ρ) → Prop
  | none, none => True
  | some (s, r), some (t, r') => R s t ∧ r = r'
  | _, _ => False

variable {R : σ → τ → Prop} {v : List (Option τ)} {w : List (Option σ)}

theorem Matches.some_left {s : σ} {r : ρ} {o : Option (τ × ρ)} (h : Matches R (some (s, r)) o) :
    ∃ t, o = some (t, r) ∧ R s t := by
  cases o with
  | none => exact h.elim
  | some p =>
    obtain ⟨t, r'⟩ := p
    obtain ⟨hR, rfl⟩ := h
    exact ⟨t, rfl, hR⟩

theorem Matches.reply_eq {o : Option (σ × ρ)} {o' : Option (τ × ρ)} (h : Matches R o o') :
    o.map Prod.snd = o'.map Prod.snd := by
  cases o with
  | none =>
    cases o' with
    | none => rfl
    | some _ => exact h.elim
  | some p =>
    obtain ⟨t, rfl, _⟩ := h.some_left
    rfl

/-- Every event of the run finds its condition met. -/
def Along (cond : σ → ε → Prop) (step : σ → ε → Option (σ × ρ)) : σ → List ε → Prop
  | _, [] => True
  | s, e :: es => cond s e ∧ ∀ s' r, step s e = some (s', r) → Along cond step s' es

theorem Along.of_events {P : ε → Prop} {step : σ → ε → Option (σ × ρ)} :
    ∀ {es : List ε} {s : σ}, (∀ e ∈ es, P e) → Along (fun _ e => P e) step s es
  | [], _, _ => trivial
  | _ :: _, _, h =>
    ⟨h _ List.mem_cons_self, fun _ _ _ => Along.of_events fun e he => h e (List.mem_cons_of_mem _ he)⟩

theorem Along.cons {cond : σ → ε → Prop} {step : σ → ε → Option (σ × ρ)} {s s' : σ} {e : ε} {r : ρ} {es : List ε}
    (hc : cond s e) (hstep : step s e = some (s', r)) (hrest : Along cond step s' es) : Along cond step s (e :: es) := by
  refine ⟨hc, fun t q h => ?_⟩
  rw [hstep, Option.some.injEq, Prod.mk.injEq] at h
  exact h.1 ▸ hrest

/-- Steps that match where a condition is met match along a run that meets it. -/
theorem run_matches_along {R : σ → τ → Prop} {cond : τ → ε → Prop} {step₁ : σ → ε → Option (σ × ρ)}
    {step₂ : τ → ε → Option (τ × ρ)}
    (hstep : ∀ s t e, cond t e → R s t → Matches R (step₁ s e) (step₂ t e)) :
    ∀ (es : List ε) (s : σ) (t : τ), Along cond step₂ t es → R s t → Matches R (run step₁ s es) (run step₂ t es)
  | [], s, t, _, h => ⟨h, rfl⟩
  | e :: es, s, t, hc, h => by
      have he := hstep s t e hc.1 h
      unfold run
      cases h₁ : step₁ s e with
      | none =>
        rw [h₁] at he
        cases h₂ : step₂ t e with
        | none => trivial
        | some _ => rw [h₂] at he; exact he.elim
      | some p =>
        obtain ⟨s', r⟩ := p
        rw [h₁] at he
        obtain ⟨t', h₂, hR⟩ := he.some_left
        have hrest := run_matches_along hstep es s' t' (hc.2 t' r h₂) hR
        rw [h₂]
        cases h₃ : run step₁ s' es with
        | none =>
          rw [h₃] at hrest
          cases h₄ : run step₂ t' es with
          | none => simp only [h₃, h₄]; trivial
          | some _ => rw [h₄] at hrest; exact hrest.elim
        | some q =>
          obtain ⟨s'', rs⟩ := q
          rw [h₃] at hrest
          obtain ⟨t'', h₄, hR'⟩ := hrest.some_left
          simp only [h₃, h₄]
          exact ⟨hR', rfl⟩

theorem run_matches_on {P : ε → Prop} {step₁ : σ → ε → Option (σ × ρ)} {step₂ : τ → ε → Option (τ × ρ)}
    (hstep : ∀ s t e, P e → R s t → Matches R (step₁ s e) (step₂ t e)) (es : List ε) (s : σ) (t : τ)
    (hP : ∀ e ∈ es, P e) (h : R s t) : Matches R (run step₁ s es) (run step₂ t es) :=
  run_matches_along hstep es s t (Along.of_events hP) h

theorem run_matches {step₁ : σ → ε → Option (σ × ρ)} {step₂ : τ → ε → Option (τ × ρ)}
    (hstep : ∀ s t e, R s t → Matches R (step₁ s e) (step₂ t e)) (es : List ε) (s : σ) (t : τ) (h : R s t) :
    Matches R (run step₁ s es) (run step₂ t es) :=
  run_matches_on (P := fun _ => True) (fun s t e _ => hstep s t e) es s t (fun _ _ => trivial) h

/-- Against a machine that never refuses, every run goes through and ends in related states. -/
theorem run_matches_total {R : σ → τ → Prop} {step₁ : σ → ε → Option (σ × ρ)}
    {step₂ : τ → ε → Option (τ × ρ)}
    (hstep : ∀ s t e, R s t → Matches R (step₁ s e) (step₂ t e))
    (htotal : ∀ t e, ∃ t' r, step₂ t e = some (t', r)) :
    ∀ (es : List ε) (s : σ) (t : τ), R s t →
      ∃ s' t' rs, run step₁ s es = some (s', rs) ∧ run step₂ t es = some (t', rs) ∧ R s' t'
  | [], s, t, h => ⟨s, t, [], rfl, rfl, h⟩
  | e :: es, s, t, h => by
      have he := hstep s t e h
      obtain ⟨t', r, h₂⟩ := htotal t e
      cases h₁ : step₁ s e with
      | none => rw [h₁, h₂] at he; exact he.elim
      | some p =>
        obtain ⟨s', r'⟩ := p
        rw [h₁, h₂] at he
        obtain ⟨hR, rfl⟩ := he
        obtain ⟨s'', t'', rs, h₃, h₄, hR'⟩ := run_matches_total hstep htotal es s' t' hR
        exact ⟨s'', t'', r' :: rs, by simp only [run, h₁, h₃], by simp only [run, h₂, h₄], hR'⟩

/-! ## Worlds of objects -/

/-- What one call does to the object it is made on: the object afterwards (`none` once it is gone),
an object it creates, and the reply. -/
structure Effect (σ ρ : Type*) where
  self : Option σ
  spawned : Option σ
  reply : ρ

/-- An effect on the object alone. -/
def Effect.update (s : σ) (r : ρ) : Effect σ ρ := ⟨some s, none, r⟩

/-- One call on the object at position `e.1`; a position without a live object refuses it. -/
def worldStep (step : σ → ε → Option (Effect σ ρ)) (w : List (Option σ)) (e : ℕ × ε) :
    Option (List (Option σ) × ρ) :=
  match w[e.1]? with
  | some (some s) =>
    match step s e.2 with
    | some f => some (w.set e.1 f.self ++ f.spawned.toList.map some, f.reply)
    | none => none
  | _ => none

/-- Both calls refuse, or their effects agree up to `R` and reply alike. -/
def EffectMatches (R : σ → τ → Prop) : Option (Effect σ ρ) → Option (Effect τ ρ) → Prop
  | none, none => True
  | some f, some g => Option.Rel R f.self g.self ∧ Option.Rel R f.spawned g.spawned ∧ f.reply = g.reply
  | _, _ => False

/-- Related worlds: the same positions are live, and live objects are related. -/
def WorldRel (R : σ → τ → Prop) : List (Option σ) → List (Option τ) → Prop :=
  List.Forall₂ (Option.Rel R)

theorem WorldRel.mono {S : σ → τ → Prop} (h : WorldRel R w v) (hRS : ∀ {s t}, R s t → S s t) : WorldRel S w v :=
  List.Forall₂.imp (fun _ _ hab => by
    cases hab with
    | none => exact Option.Rel.none
    | some h => exact Option.Rel.some (hRS h)) h

theorem WorldRel.set (h : WorldRel R w v) {a : Option σ} {b : Option τ} (hab : Option.Rel R a b) (i : ℕ) :
    WorldRel R (w.set i a) (v.set i b) := by
  induction h generalizing i with
  | nil => exact List.Forall₂.nil
  | cons hc hrest ih =>
    cases i with
    | zero => exact List.Forall₂.cons hab hrest
    | succ i => exact List.Forall₂.cons hc (ih i)

theorem WorldRel.spawned {a : Option σ} {b : Option τ} (h : Option.Rel R a b) :
    WorldRel R (a.toList.map some) (b.toList.map some) := by
  cases h with
  | none => exact List.Forall₂.nil
  | some h => exact List.Forall₂.cons (Option.Rel.some h) List.Forall₂.nil

theorem WorldRel.at (h : WorldRel R w v) (i : ℕ) : Option.Rel (Option.Rel R) w[i]? v[i]? := by
  induction h generalizing i with
  | nil => exact Option.Rel.none
  | cons hc _ ih =>
    cases i with
    | zero => exact Option.Rel.some hc
    | succ i => exact ih i

/-- The condition on the object that the call is made on. -/
def OnLive (cond : τ → ε → Prop) (v : List (Option τ)) (e : ℕ × ε) : Prop :=
  ∀ t, v[e.1]? = some (some t) → cond t e.2

theorem OnLive.intro {cond : τ → ε → Prop} {i : ℕ} {t : τ} {e : ε} (hlive : v[i]? = some (some t)) (hc : cond t e) :
    OnLive cond v (i, e) := by
  intro t' h
  cases hlive.symm.trans h
  exact hc

/-- A simulation of single objects where a condition is met is one of worlds. -/
theorem world_matches_on {cond : τ → ε → Prop} {step₁ : σ → ε → Option (Effect σ ρ)}
    {step₂ : τ → ε → Option (Effect τ ρ)} (hstep : ∀ s t e, cond t e → R s t → EffectMatches R (step₁ s e) (step₂ t e))
    (w : List (Option σ)) (v : List (Option τ)) (e : ℕ × ε) (hc : OnLive cond v e) (h : WorldRel R w v) :
    Matches (WorldRel R) (worldStep step₁ w e) (worldStep step₂ v e) := by
  have hat := h.at e.1
  unfold OnLive at hc
  unfold worldStep
  generalize w[e.1]? = a at hat
  generalize v[e.1]? = b at hat hc
  cases hat with
  | none => trivial
  | some hab =>
    cases hab with
    | none => trivial
    | @some s t hst =>
      have he := hstep s t e.2 (hc t rfl) hst
      cases h₁ : step₁ s e.2 with
      | none =>
        cases h₂ : step₂ t e.2 with
        | none => simp only [h₁, h₂]; trivial
        | some _ => rw [h₁, h₂] at he; exact he.elim
      | some f =>
        cases h₂ : step₂ t e.2 with
        | none => rw [h₁, h₂] at he; exact he.elim
        | some g =>
          rw [h₁, h₂] at he
          obtain ⟨hself, hspawn, hreply⟩ := he
          simp only [h₁, h₂]
          exact ⟨List.rel_append (h.set hself e.1) (WorldRel.spawned hspawn), hreply⟩

end Libntech.Lib
