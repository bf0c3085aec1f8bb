import Mathlib.Logic.Relation

/-! # Programs that call an environment

A program is a tree: it ends with a result, or it makes a call and goes on with the answer. A world serves the calls;
between any two of them other parties may change the world. A run records the calls with the answers and with the
worlds they were served in.
-/
namespace Libntech.Lib
set_option autoImplicit false

universe u

inductive Program (C : Type) (A : C → Type) (α : Type u) where
  | done (result : α)
  | call (c : C) (next : A c → Program C A α)

variable {C : Type} {A : C → Type} {α : Type u} {W : Type*}

/-- A call, the answer to it, and the world right before it was served. -/
structure Event (W C : Type*) (A : C → Type*) where
  world : W
  c : C
  answer : A c

/-- The runs of a program: `serves` answers its calls, and steps of `other` come in between. -/
inductive Runs (serves : W → (c : C) → A c → W → Prop) (other : W → W → Prop) :
    W → Program C A α → List (Event W C A) → W → α → Prop where
  | done (w : W) (result : α) : Runs serves other w (.done result) [] w result
  | other {w w₁ w' : W} {p : Program C A α} {trace : List (Event W C A)} {result : α} : other w w₁ →
      Runs serves other w₁ p trace w' result → Runs serves other w p trace w' result
  | call {w w₁ w' : W} {c : C} {answer : A c} {next : A c → Program C A α} {trace : List (Event W C A)} {result : α} :
      serves w c answer w₁ → Runs serves other w₁ (next answer) trace w' result →
      Runs serves other w (.call c next) (⟨w, c, answer⟩ :: trace) w' result

variable {serves : W → (c : C) → A c → W → Prop} {other : W → W → Prop}

/-! ## Postconditions

`Ensures` says of every run from a world that a property of its calls, its last world and its result holds. It is
computed along the program, so that a proof goes through the program call by call.
-/

def Program.Ensures (serves : W → (c : C) → A c → W → Prop) (other : W → W → Prop) (p : Program C A α) (w : W)
    (post : List (Event W C A) → W → α → Prop) : Prop :=
  match p with
  | .done result => ∀ w', Relation.ReflTransGen other w w' → post [] w' result
  | .call c next => ∀ w₀ answer w₁, Relation.ReflTransGen other w w₀ → serves w₀ c answer w₁ →
      (next answer).Ensures serves other w₁ fun trace => post (⟨w₀, c, answer⟩ :: trace)

theorem Program.Ensures.after {p : Program C A α} {w w₁ : W} {post : List (Event W C A) → W → α → Prop}
    (h : p.Ensures serves other w post) (hstep : other w w₁) : p.Ensures serves other w₁ post := by
  cases p with
  | done result => exact fun w' hsteps => h w' (.head hstep hsteps)
  | call c next => exact fun w₀ answer w₂ hsteps => h w₀ answer w₂ (.head hstep hsteps)

variable {p : Program C A α} {w w' : W} {trace : List (Event W C A)} {result : α}

theorem Runs.ensures (h : Runs serves other w p trace w' result) {post : List (Event W C A) → W → α → Prop}
    (hp : p.Ensures serves other w post) : post trace w' result := by
  induction h generalizing post with
  | done w result => exact hp w .refl
  | other hstep _ ih => exact ih (hp.after hstep)
  | call hserves _ ih => exact ih (hp _ _ _ .refl hserves)

theorem Program.Ensures.mono {post post' : List (Event W C A) → W → α → Prop} (h : p.Ensures serves other w post)
    (himp : ∀ trace w' result, post trace w' result → post' trace w' result) :
    p.Ensures serves other w post' := by
  induction p generalizing w post post' with
  | done result => exact fun w' hsteps => himp [] w' result (h w' hsteps)
  | call c next ih =>
    exact fun w₀ answer w₁ hsteps hserves =>
      ih answer (h w₀ answer w₁ hsteps hserves) fun trace w' result => himp _ w' result

/-! ## Programs of programs

A program goes on with another one, and a program for one interface is a program for a larger one.
-/

section Composition

variable {β : Type u} {C' : Type} {A' : C' → Type} {serves' : W → (c : C') → A' c → W → Prop}

def Program.bind (p : Program C A α) (k : α → Program C A β) : Program C A β :=
  match p with
  | .done result => k result
  | .call c next => .call c fun answer => (next answer).bind k

theorem Runs.bind {k : α → Program C A β} {w₁ : W} {trace' : List (Event W C A)} {result' : β}
    (h : Runs serves other w p trace w₁ result) (h' : Runs serves other w₁ (k result) trace' w' result') :
    Runs serves other w (p.bind k) (trace ++ trace') w' result' := by
  induction h with
  | done w result => exact h'
  | other hstep _ ih => exact .other hstep (ih h')
  | call hserves _ ih => exact .call hserves (ih h')

theorem Program.Ensures.bind {k : α → Program C A β} {post : List (Event W C A) → W → β → Prop}
    (h : p.Ensures serves other w fun trace w' result =>
      (k result).Ensures serves other w' fun trace' => post (trace ++ trace')) :
    (p.bind k).Ensures serves other w post := by
  induction p generalizing w post with
  | done result => exact h w .refl
  | call c next ih => exact fun w₀ answer w₁ hsteps hserves => ih answer (h w₀ answer w₁ hsteps hserves)

/-- Each call is made by its name in the other interface, and what is answered there is read back. -/
def Program.embed (name : C → C') (read : (c : C) → A' (name c) → A c) : Program C A α → Program C' A' α
  | .done result => .done result
  | .call c next => .call (name c) fun answer => (next (read c answer)).embed name read

theorem Program.Ensures.embed {name : C → C'} {read : (c : C) → A' (name c) → A c}
    (hserves : ∀ w c answer w₁, serves' w (name c) answer w₁ → serves w c (read c answer) w₁) {post : W → α → Prop}
    (h : p.Ensures serves other w fun _ => post) :
    (p.embed name read).Ensures serves' other w fun trace w' result => (∀ e ∈ trace, ∃ c, e.c = name c) ∧ post w' result := by
  induction p generalizing w with
  | done result => exact fun w' hsteps => ⟨fun _ hmem => absurd hmem List.not_mem_nil, h w' hsteps⟩
  | call c next ih =>
    intro w₀ answer w₁ hsteps hserved
    refine (ih (read c answer) (h w₀ _ w₁ hsteps (hserves _ _ _ _ hserved))).mono fun trace w' result hpost => ?_
    exact ⟨List.forall_mem_cons.mpr ⟨⟨c, rfl⟩, hpost.1⟩, hpost.2⟩

end Composition

/-! ## Which calls are made -/

/-- Whatever is answered, the program makes such calls only. -/
def Program.Makes (P : C → Prop) : Program C A α → Prop
  | .done _ => True
  | .call c next => P c ∧ ∀ answer, (next answer).Makes P

theorem Runs.makes (h : Runs serves other w p trace w' result) {P : C → Prop} (hp : p.Makes P) : ∀ e ∈ trace, P e.c := by
  induction h with
  | done w result => exact fun _ hmem => absurd hmem List.not_mem_nil
  | other hstep _ ih => exact ih hp
  | call hserves _ ih =>
    intro e hmem
    rcases List.mem_cons.mp hmem with rfl | hmem
    · exact hp.1
    · exact ih (hp.2 _) e hmem

theorem Runs.served (h : Runs serves other w p trace w' result) : ∀ e ∈ trace, ∃ w₁, serves e.world e.c e.answer w₁ := by
  induction h with
  | done w result => exact fun _ hmem => absurd hmem List.not_mem_nil
  | other _ _ ih => exact ih
  | call hserves _ ih =>
    intro e hmem
    rcases List.mem_cons.mp hmem with rfl | hmem
    · exact ⟨_, hserves⟩
    · exact ih e hmem

/-! ## What a program may return -/

/-- Some run returns such a result. -/
def Program.MayReturn (serves : W → (c : C) → A c → W → Prop) (other : W → W → Prop) (p : Program C A α) (w : W)
    (P : α → Prop) : Prop :=
  ∃ trace w' result, Runs serves other w p trace w' result ∧ P result

theorem Program.MayReturn.done {result : α} {w : W} {P : α → Prop} (h : P result) :
    (Program.done result : Program C A α).MayReturn serves other w P :=
  ⟨[], w, result, .done w result, h⟩

theorem Program.MayReturn.call {c : C} {next : A c → Program C A α} {w w₁ : W} {answer : A c} {P : α → Prop}
    (hserves : serves w c answer w₁) (h : (next answer).MayReturn serves other w₁ P) :
    (Program.call c next).MayReturn serves other w P := by
  obtain ⟨trace, w', result, hruns, hresult⟩ := h
  exact ⟨_, w', result, .call hserves hruns, hresult⟩

end Libntech.Lib
