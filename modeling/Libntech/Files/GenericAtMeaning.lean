import Libntech.Files.GenericAt

/-! # Calls by `fchdir` in many threads

However the calls interleave, each one works in the directory it was asked for, and the process is back in its own
directory whenever the lock is free, unless the way back has failed. A call fails where it was refused to go to the
directory or back, and else returns what its work returns; it leaves nothing open but what `openat` returns.
-/
namespace Libntech.Files.GenericAt
set_option autoImplicit false

open Libntech.Lib

variable {ι F : Type} {home : ℕ} {perform : ℕ → NativeCall → F → ℤ → F → Prop}

/-! ## What the calls may expect of each other -/

/-- Nobody is at work elsewhere, or somebody has not come back. -/
def AtHome (home : ℕ) (w : Process ι F) : Prop := w.holder = none → w.cwd = home ∨ w.strayed = true

/-- The others leave the working directory to the holder of the lock, and a call its own descriptors and those from
before. -/
structure Relies (home : ℕ) (i : ι) (w w' : Process ι F) : Prop where
  holder : w'.holder = some i ↔ w.holder = some i
  cwd : w.holder = some i → w'.cwd = w.cwd
  fds : ∀ fd d, d.opener = none ∨ d.opener = some i → (w'.fds fd = some d ↔ w.fds fd = some d)
  strayed : w.strayed = true → w'.strayed = true
  atHome : AtHome home w → AtHome home w'

/-- The working directory is the one that was asked for: what the descriptor was open on when the call went there.
`base` are the descriptors from before. -/
structure InPlace (home : ℕ) (base : Fd → Option ℕ) (dirfd : Option Fd)
    (before : List (Event (Process ι F) AtCall AtAnswer)) (w : Process ι F) : Prop where
  went : ∀ fd, dirfd = some fd → ∃ world d, ⟨world, .fchdir fd, true⟩ ∈ before ∧ world.fds fd = some d ∧ w.cwd = d.object
  base : ∀ fd object, dirfd = some fd → base fd = some object → w.cwd = object
  here : dirfd = none → w.cwd = home ∨ w.strayed = true

structure Guarantees (home : ℕ) (base : Fd → Option ℕ) (dirfd : ι → Option Fd) (func : ι → NativeCall) (i : ι)
    (before : List (Event (Process ι F) AtCall AtAnswer)) (e : Event (Process ι F) AtCall AtAnswer) (w' : Process ι F) :
    Prop where
  holder : ∀ j, j ≠ i → (w'.holder = some j ↔ e.world.holder = some j)
  cwd : ∀ j, j ≠ i → e.world.holder = some j → w'.cwd = e.world.cwd
  fds : ∀ fd d, d.opener ≠ some i → (w'.fds fd = some d ↔ e.world.fds fd = some d)
  strayed : e.world.strayed = true → w'.strayed = true
  atHome : AtHome home e.world → AtHome home w'
  native : ∀ f, e.c = .native f → f = func i ∧ InPlace home base (dirfd i) before e.world

theorem relies_of_guarantees {base : Fd → Option ℕ} {dirfd : ι → Option Fd} {func : ι → NativeCall} {i j : ι}
    {before : List (Event (Process ι F) AtCall AtAnswer)} {e : Event (Process ι F) AtCall AtAnswer} {w' : Process ι F}
    (hne : i ≠ j) (h : Guarantees home base dirfd func i before e w') : Relies home j e.world w' where
  holder := h.holder j (Ne.symm hne)
  cwd := h.cwd j (Ne.symm hne)
  fds fd d hd := h.fds fd d fun hi => by
    rw [hi] at hd
    rcases hd with hd | hd
    · cases hd
    · exact hne (Option.some.inj hd)
  strayed := h.strayed
  atHome := h.atHome

/-! ## Where a call stands -/

/-- The descriptors that a call has open, and those from before. -/
structure Keeps (i : ι) (base : Fd → Option ℕ) (own : List (Fd × ℕ)) (w : Process ι F) : Prop where
  base : ∀ fd object, base fd = some object → w.fds fd = some ⟨object, none⟩
  own : ∀ fd object, w.fds fd = some ⟨object, some i⟩ ↔ (fd, object) ∈ own

structure Outside (home : ℕ) (i : ι) (base : Fd → Option ℕ) (own : List (Fd × ℕ)) (w : Process ι F) : Prop
    extends Keeps i base own w where
  holder : w.holder ≠ some i
  atHome : AtHome home w

/-- A call has the lock and is in `dir`. It has found the process in `start`. -/
structure Inside (home : ℕ) (i : ι) (base : Fd → Option ℕ) (own : List (Fd × ℕ)) (start dir : ℕ) (w : Process ι F) :
    Prop extends Keeps i base own w where
  holder : w.holder = some i
  cwd : w.cwd = dir
  start : start = home ∨ w.strayed = true

section Stable

variable {i : ι} {base : Fd → Option ℕ} {own : List (Fd × ℕ)} {start dir : ℕ} {w w' : Process ι F}

theorem Keeps.relies (h : Keeps i base own w) (hstep : Relies home i w w') : Keeps i base own w' where
  base fd object hbase := (hstep.fds fd _ (.inl rfl)).mpr (h.base fd object hbase)
  own fd object := (hstep.fds fd _ (.inr rfl)).trans (h.own fd object)

theorem Outside.relies (h : Outside home i base own w) (hsteps : Relation.ReflTransGen (Relies home i) w w') :
    Outside home i base own w' := by
  induction hsteps with
  | refl => exact h
  | tail _ hstep ih => exact ⟨ih.toKeeps.relies hstep, fun hi => ih.holder (hstep.holder.mp hi), hstep.atHome ih.atHome⟩

theorem Inside.relies (h : Inside home i base own start dir w) (hsteps : Relation.ReflTransGen (Relies home i) w w') :
    Inside home i base own start dir w' := by
  induction hsteps with
  | refl => exact h
  | tail _ hstep ih =>
    exact ⟨ih.toKeeps.relies hstep, hstep.holder.mpr ih.holder, (hstep.cwd ih.holder).trans ih.cwd,
      ih.start.imp_right hstep.strayed⟩

theorem strayed_relies (h : w.strayed = true) (hsteps : Relation.ReflTransGen (Relies home i) w w') :
    w'.strayed = true := by
  induction hsteps with
  | refl => exact h
  | tail _ hstep ih => exact hstep.strayed ih

end Stable

/-! ## Single calls -/

section Steps

variable {i : ι} {base : Fd → Option ℕ} {own own' : List (Fd × ℕ)} {start dir : ℕ} {w w' : Process ι F}
  {dirfd : ι → Option Fd} {func : ι → NativeCall} {before : List (Event (Process ι F) AtCall AtAnswer)}

/-- What the holder of the lock does concerns nobody else, as far as descriptors go. -/
theorem guarantees_of_holder {c : AtCall} {answer : AtAnswer c} (h : w.holder = some i)
    (hholder : ∀ j, w'.holder = some j → j = i)
    (hfds : ∀ fd d, d.opener ≠ some i → (w'.fds fd = some d ↔ w.fds fd = some d))
    (hstrayed : w.strayed = true → w'.strayed = true) (hhome : AtHome home w')
    (hnative : ∀ f, c = .native f → f = func i ∧ InPlace home base (dirfd i) before w) :
    Guarantees home base dirfd func i before ⟨w, c, answer⟩ w' where
  holder j hj := ⟨fun hw' => absurd (hholder j hw') hj, fun hw => absurd (Option.some.inj (hw.symm.trans h)) hj⟩
  cwd _ hj hw := absurd (Option.some.inj (hw.symm.trans h)) hj
  fds := hfds
  strayed := hstrayed
  atHome _ := hhome
  native := hnative

theorem Inside.atHome (h : Inside home i base own start dir w) : AtHome home w := fun hfree => by
  rw [h.holder] at hfree
  cases hfree

theorem lock_step (h : Outside home i base own w) (hserves : Serves home perform i w .lock () w') :
    Guarantees home base dirfd func i before ⟨w, .lock, ()⟩ w' ∧ Inside home i base own w.cwd w.cwd w' := by
  obtain ⟨hfree, rfl⟩ := hserves
  refine ⟨⟨fun j hj => ?_, fun _ _ _ => rfl, fun _ _ _ => .rfl, id, fun _ hnone => ?_, fun f hf => ?_⟩, ?_⟩
  · simp only [hfree, Option.some.injEq, reduceCtorEq, iff_false]
    exact Ne.symm hj
  · cases hnone
  · cases hf
  · exact ⟨⟨h.base, h.own⟩, rfl, rfl, h.atHome hfree⟩

theorem unlock_step (h : Inside home i base own start dir w) (hback : dir = home ∨ w.strayed = true)
    (hserves : Serves home perform i w .unlock () w') :
    Guarantees home base dirfd func i before ⟨w, .unlock, ()⟩ w' ∧ Outside home i base own w' := by
  obtain rfl := hserves
  have hhome : AtHome home ({ w with holder := none } : Process ι F) := fun _ => by
    rw [h.cwd]
    exact hback
  refine ⟨guarantees_of_holder h.holder ?_ (fun _ _ _ => .rfl) id hhome ?_, ⟨⟨h.base, h.own⟩, ?_, hhome⟩⟩
  · exact fun j hj => by cases hj
  · exact fun f hf => by cases hf
  · exact fun hi => by cases hi

theorem Keeps.opened (h : Keeps i base own w) {fd object : ℕ} (hfree : w.fds fd = none) {files : F} {holder : Option ι} :
    Keeps i base ((fd, object) :: own)
      { w with files := files, holder := holder, fds := Function.update w.fds fd (some ⟨object, some i⟩) } where
  base fd' object' hbase := by
    have hfd := h.base fd' object' hbase
    have hne : fd' ≠ fd := by
      rintro rfl
      rw [hfree] at hfd
      cases hfd
    exact (Function.update_of_ne hne _ _).trans hfd
  own fd' object' := by
    rw [List.mem_cons, Prod.mk.injEq]
    by_cases hfd : fd' = fd
    · subst hfd
      have hnot : (fd', object') ∉ own := fun hmem => by
        have hsome := (h.own fd' object').mpr hmem
        rw [hfree] at hsome
        cases hsome
      simp only [Function.update_self, Option.some.injEq, Descriptor.mk.injEq, and_true, true_and, or_iff_left hnot]
      exact eq_comm
    · simp only [Function.update_of_ne hfd, hfd, false_and, false_or]
      exact h.own fd' object'

theorem fds_opened {fd object : ℕ} (hfree : w.fds fd = none) (fd' : Fd) (d : Descriptor ι) (hd : d.opener ≠ some i) :
    Function.update w.fds fd (some ⟨object, some i⟩) fd' = some d ↔ w.fds fd' = some d := by
  by_cases hfd : fd' = fd
  · subst hfd
    rw [Function.update_self, hfree]
    refine ⟨fun hsome => ?_, fun hnone => by cases hnone⟩
    rw [← Option.some.inj hsome] at hd
    exact absurd rfl hd
  · rw [Function.update_of_ne hfd]

theorem openDot_step (h : Inside home i base own start dir w) {answer : Option Fd}
    (hserves : Serves home perform i w .openDot answer w') :
    Guarantees home base dirfd func i before ⟨w, .openDot, answer⟩ w' ∧
      Inside home i base ((answer.map fun fd => (fd, dir)).toList ++ own) start dir w' := by
  obtain rfl := h.cwd
  rcases hserves with ⟨rfl, rfl⟩ | ⟨fd, rfl, hfree, rfl⟩
  · refine ⟨guarantees_of_holder h.holder ?_ (fun _ _ _ => .rfl) id h.atHome ?_, h⟩
    · exact fun j hj => Option.some.inj (hj.symm.trans h.holder)
    · exact fun f hf => by cases hf
  · have hinside : Inside home i base ((fd, w.cwd) :: own) start w.cwd
        { w with fds := Function.update w.fds fd (some ⟨w.cwd, some i⟩) } :=
      ⟨h.toKeeps.opened hfree, h.holder, rfl, h.start⟩
    refine ⟨guarantees_of_holder h.holder ?_ (fds_opened hfree) id hinside.atHome ?_, hinside⟩
    · exact fun j hj => Option.some.inj (hj.symm.trans h.holder)
    · exact fun f hf => by cases hf

theorem close_step {c : Fd} (h : Keeps i base own w) (hfd : ∃ object, (c, object) ∈ own)
    (hown : ∀ fd object, (fd, object) ∈ own' ↔ (fd, object) ∈ own ∧ fd ≠ c)
    (hserves : Serves home perform i w (.close c) () w') :
    w' = { w with fds := Function.update w.fds c none } ∧ Keeps i base own' w' ∧
      ∀ fd d, d.opener ≠ some i → (w'.fds fd = some d ↔ w.fds fd = some d) := by
  obtain rfl := hserves
  obtain ⟨object, hmem⟩ := hfd
  have hmine := (h.own c object).mpr hmem
  refine ⟨rfl, ⟨fun fd object' hbase => ?_, fun fd object' => ?_⟩, fun fd d hd => ?_⟩
  · have hfd := h.base fd object' hbase
    have hne : fd ≠ c := by
      rintro rfl
      rw [hmine] at hfd
      cases hfd
    exact (Function.update_of_ne hne _ _).trans hfd
  · rw [hown]
    by_cases hne : fd = c
    · subst hne
      simp
    · simp only [Function.update_of_ne hne, ne_eq, hne, not_false_eq_true, and_true]
      exact h.own fd object'
  · by_cases hne : fd = c
    · subst hne
      simp only [Function.update_self, hmine, reduceCtorEq, false_iff]
      intro hsome
      rw [← Option.some.inj hsome] at hd
      exact hd rfl
    · simp only [Function.update_of_ne hne]

theorem fchdir_step (h : Inside home i base own start dir w) {fd : Fd} {answer : Bool}
    (hserves : Serves home perform i w (.fchdir fd) answer w') :
    Guarantees home base dirfd func i before ⟨w, .fchdir fd, answer⟩ w' ∧
      ((answer = false ∧ Inside home i base own start dir w' ∧ (dir = home ∨ w'.strayed = true)) ∨
        ∃ d, answer = true ∧ w.fds fd = some d ∧ Inside home i base own start d.object w') := by
  obtain rfl := h.cwd
  rcases hserves with ⟨rfl, rfl⟩ | ⟨d, hfd, rfl, rfl⟩
  · have hinside : Inside home i base own start w.cwd { w with strayed := w.strayed || decide (w.cwd ≠ home) } :=
      ⟨⟨h.base, h.own⟩, h.holder, rfl, h.start.imp_right fun hstrayed => by rw [hstrayed]; rfl⟩
    refine ⟨guarantees_of_holder h.holder ?_ (fun _ _ _ => .rfl) ?_ hinside.atHome ?_, .inl ⟨rfl, hinside, ?_⟩⟩
    · exact fun j hj => Option.some.inj (hj.symm.trans h.holder)
    · exact fun hstrayed => by rw [hstrayed]; rfl
    · exact fun f hf => by cases hf
    · by_cases hhome : w.cwd = home
      · exact .inl hhome
      · exact .inr (by simp [hhome])
  · have hinside : Inside home i base own start d.object { w with cwd := d.object } :=
      ⟨⟨h.base, h.own⟩, h.holder, rfl, h.start⟩
    refine ⟨guarantees_of_holder h.holder ?_ (fun _ _ _ => .rfl) id hinside.atHome ?_, .inr ⟨d, rfl, hfd, hinside⟩⟩
    · exact fun j hj => Option.some.inj (hj.symm.trans h.holder)
    · exact fun f hf => by cases hf

theorem native_cases {f : NativeCall} {result : ℤ} (hserves : Serves home perform i w (.native f) result w') :
    (∃ files, w' = { w with files := files } ∧ ¬ (f.opens = true ∧ 0 ≤ result)) ∨
      ∃ files object, f.opens = true ∧ 0 ≤ result ∧ w.fds result.toNat = none ∧
        w' = { w with files := files, fds := Function.update w.fds result.toNat (some ⟨object, some i⟩) } := by
  cases f with
  | notSupported =>
    obtain ⟨rfl, rfl⟩ := hserves
    exact .inl ⟨w'.files, rfl, fun hopens => by cases hopens.1⟩
  | _ =>
    obtain ⟨files, _, hw⟩ := hserves
    split at hw
    · rename_i hopens
      obtain ⟨hfree, object, rfl⟩ := hw
      exact .inr ⟨files, object, hopens.1, hopens.2, hfree, rfl⟩
    · rename_i hopens
      exact .inl ⟨files, hw, hopens⟩

/-- What a call has opened when it returns. -/
def Opened (f : NativeCall) (result : ℤ) (new : List (Fd × ℕ)) : Prop :=
  if f.opens = true ∧ 0 ≤ result then ∃ object, new = [(result.toNat, object)] else new = []

theorem native_step (h : Inside home i base own start dir w) (hplace : InPlace home base (dirfd i) before w) {result : ℤ}
    (hserves : Serves home perform i w (.native (func i)) result w') :
    Guarantees home base dirfd func i before ⟨w, .native (func i), result⟩ w' ∧
      ∃ new, Opened (func i) result new ∧ Inside home i base (new ++ own) start dir w' ∧
        ∀ x ∈ new, ∀ y ∈ own, x.1 ≠ y.1 := by
  have hholder : ∀ j, w.holder = some j → j = i := fun j hj => Option.some.inj (hj.symm.trans h.holder)
  have hnative : ∀ f, AtCall.native (func i) = .native f → f = func i ∧ InPlace home base (dirfd i) before w := fun f hf =>
    ⟨(AtCall.native.inj hf).symm, hplace⟩
  rcases native_cases hserves with ⟨files, rfl, hopens⟩ | ⟨files, object, hopens, hresult, hfree, rfl⟩
  · have hinside : Inside home i base own start dir { w with files := files } :=
      ⟨⟨h.base, h.own⟩, h.holder, h.cwd, h.start⟩
    refine ⟨guarantees_of_holder h.holder hholder (fun _ _ _ => .rfl) id hinside.atHome hnative, [], ?_, hinside, ?_⟩
    · rw [Opened, if_neg hopens]
    · exact fun x hx => absurd hx List.not_mem_nil
  · have hinside : Inside home i base ((result.toNat, object) :: own) start dir
        { w with files := files, fds := Function.update w.fds result.toNat (some ⟨object, some i⟩) } :=
      ⟨h.toKeeps.opened hfree, h.holder, h.cwd, h.start⟩
    refine ⟨guarantees_of_holder h.holder hholder (fds_opened hfree) id hinside.atHome hnative, [(result.toNat, object)],
      ?_, hinside, fun x hx y hy hxy => ?_⟩
    · rw [Opened, if_pos ⟨hopens, hresult⟩]
      exact ⟨object, rfl⟩
    · rw [List.mem_singleton.mp hx] at hxy
      have hmine := (h.own y.1 y.2).mpr hy
      rw [← hxy, hfree] at hmine
      cases hmine

theorem close_inside {c : Fd} (h : Inside home i base own start dir w) (hfd : ∃ object, (c, object) ∈ own)
    (hown : ∀ fd object, (fd, object) ∈ own' ↔ (fd, object) ∈ own ∧ fd ≠ c)
    (hserves : Serves home perform i w (.close c) () w') :
    Guarantees home base dirfd func i before ⟨w, .close c, ()⟩ w' ∧ Inside home i base own' start dir w' := by
  obtain ⟨rfl, hkeeps, hfds⟩ := close_step h.toKeeps hfd hown hserves
  have hinside : Inside home i base own' start dir { w with fds := Function.update w.fds c none } :=
    ⟨hkeeps, h.holder, h.cwd, h.start⟩
  refine ⟨guarantees_of_holder h.holder ?_ hfds id hinside.atHome ?_, hinside⟩
  · exact fun j hj => Option.some.inj (hj.symm.trans h.holder)
  · exact fun f hf => by cases hf

theorem close_outside {c : Fd} (h : Outside home i base own w) (hfd : ∃ object, (c, object) ∈ own)
    (hown : ∀ fd object, (fd, object) ∈ own' ↔ (fd, object) ∈ own ∧ fd ≠ c)
    (hserves : Serves home perform i w (.close c) () w') :
    Guarantees home base dirfd func i before ⟨w, .close c, ()⟩ w' ∧ Outside home i base own' w' := by
  obtain ⟨rfl, hkeeps, hfds⟩ := close_step h.toKeeps hfd hown hserves
  exact ⟨⟨fun _ _ => .rfl, fun _ _ _ => rfl, hfds, id, id, fun f hf => by cases hf⟩, hkeeps, h.holder, h.atHome⟩

end Steps

/-! ## Whole calls -/

/-- The directory of the event's world and the result, if the event is the call's work. -/
def performedBy : Event (Process ι F) AtCall AtAnswer → Option (ℕ × ℤ)
  | ⟨w, .native _, result⟩ => some (w.cwd, result)
  | _ => none

def performed (trace : List (Event (Process ι F) AtCall AtAnswer)) : List (ℕ × ℤ) := trace.filterMap performedBy

/-- The working directory could not be opened, or it was refused to go to a directory. -/
def refusedBy : Event (Process ι F) AtCall AtAnswer → Bool
  | ⟨_, .openDot, none⟩ => true
  | ⟨_, .fchdir _, false⟩ => true
  | _ => false

def refused (trace : List (Event (Process ι F) AtCall AtAnswer)) : Bool := trace.any refusedBy

/-- A call that has returned: it was refused to go to its directory, or it has done its work there, and returns the result
unless it was refused to go back. What it leaves open is the file that it returns. -/
structure AtOutcome (i : ι) (f : NativeCall) (trace : List (Event (Process ι F) AtCall AtAnswer)) (w : Process ι F)
    (result : ℤ) : Prop where
  performed : (performed trace = [] ∧ refused trace = true ∧ result = -1) ∨
    ∃ dir answer, performed trace = [(dir, answer)] ∧ result = if refused trace then -1 else answer
  unlocked : w.holder ≠ some i
  own : ∃ new, Opened f result new ∧ ∀ fd object, w.fds fd = some ⟨object, some i⟩ ↔ (fd, object) ∈ new

section Calls

variable {i : ι} {base : Fd → Option ℕ} {own : List (Fd × ℕ)} {start dir : ℕ} {w : Process ι F}
  {dirfd : ι → Option Fd} {func : ι → NativeCall} {trace : List (Event (Process ι F) AtCall AtAnswer)} {result : ℤ}

theorem none_left (c : Fd) (object : ℕ) (fd : Fd) (object' : ℕ) :
    (fd, object') ∈ ([] : List (Fd × ℕ)) ↔ (fd, object') ∈ [(c, object)] ∧ fd ≠ c := by
  simp +contextual

theorem opened_failed (f : NativeCall) : Opened f (-1) [] := by
  rw [Opened, if_neg fun h => absurd h.2 (by decide)]

abbrev MeetsAt (home : ℕ) (perform : ℕ → NativeCall → F → ℤ → F → Prop) (base : Fd → Option ℕ)
    (dirfd : ι → Option Fd) (func : ι → NativeCall) (i : ι) (p : AtProgram)
    (trace : List (Event (Process ι F) AtCall AtAnswer)) (w : Process ι F) : Prop :=
  p.Meets (Serves home perform i) (Relies home i) (Guarantees home base dirfd func i) (AtOutcome i (func i)) trace w

theorem meets_done (h : Outside home i base own w) (hopened : Opened (func i) result own)
    (hperformed : (performed trace = [] ∧ refused trace = true ∧ result = -1) ∨
      ∃ dir answer, performed trace = [(dir, answer)] ∧ result = if refused trace then -1 else answer) :
    MeetsAt home perform base dirfd func i (.done result) trace w := by
  intro w' hsteps
  have h' := h.relies hsteps
  exact ⟨hperformed, h'.holder, own, hopened, h'.own⟩

theorem meets_unlock (h : Inside home i base own start dir w) (hback : dir = home ∨ w.strayed = true)
    {rest : AtProgram} (hrest : ∀ e w', performedBy e = none → refusedBy e = false → Outside home i base own w' →
      MeetsAt home perform base dirfd func i rest (trace ++ [e]) w') :
    MeetsAt home perform base dirfd func i (unlockThen rest) trace w := by
  intro w₀ _ w₁ hsteps hserves
  have hback₀ := hback.imp_right fun hstrayed => strayed_relies hstrayed hsteps
  obtain ⟨hguarantees, houtside⟩ := unlock_step (h.relies hsteps) hback₀ hserves
  exact ⟨hguarantees, hrest _ _ rfl rfl houtside⟩

theorem performed_concat (e : Event (Process ι F) AtCall AtAnswer) (he : performedBy e = none) :
    performed (trace ++ [e]) = performed trace := by
  rw [performed, List.filterMap_append, List.filterMap_cons_none he, List.filterMap_nil, List.append_nil]
  rfl

theorem performed_native (w : Process ι F) (f : NativeCall) (result : ℤ) :
    performed (trace ++ [⟨w, .native f, result⟩]) = performed trace ++ [(w.cwd, result)] := by
  rw [performed, List.filterMap_append]
  rfl

theorem refused_concat (e : Event (Process ι F) AtCall AtAnswer) :
    refused (trace ++ [e]) = (refused trace || refusedBy e) := by
  rw [refused, List.any_append, List.any_cons, List.any_nil, Bool.or_false]
  rfl

/-- With `AT_FDCWD` the call works where the process is. -/
theorem meets_here (hdirfd : dirfd i = none) (h : Inside home i base [] start start w) (htrace : performed trace = [])
    (hfine : refused trace = false) :
    MeetsAt home perform base dirfd func i (.call (.native (func i)) fun result => unlockThen (.done result)) trace w := by
  intro w₀ result w₁ hsteps hserves
  have h₀ := h.relies hsteps
  have hplace : InPlace home base (dirfd i) trace w₀ := by
    refine ⟨fun fd hfd => ?_, fun fd object hfd => ?_, fun _ => ?_⟩
    · rw [hdirfd] at hfd
      cases hfd
    · rw [hdirfd] at hfd
      cases hfd
    · rw [h₀.cwd]
      exact h₀.start
  obtain ⟨hguarantees, new, hopened, hinside, -⟩ := native_step h₀ hplace hserves
  rw [List.append_nil] at hinside
  refine ⟨hguarantees, meets_unlock hinside hinside.start fun e w' he hr houtside =>
    meets_done houtside hopened (.inr ⟨w₀.cwd, result, ?_, ?_⟩)⟩
  · rw [performed_concat e he, performed_native, htrace]
    rfl
  · rw [refused_concat, refused_concat, hfine, hr]
    rfl

theorem meets_cleanup (hopened : Opened (func i) result own) (h : Outside home i base own w) {n : ℕ}
    (htrace : performed trace = [(n, result)]) (hrefused : refused trace = true) :
    MeetsAt home perform base dirfd func i (cleanup (func i) result (.done (-1))) trace w := by
  rw [cleanup]
  split
  · rename_i hopens
    rw [Bool.and_eq_true, decide_eq_true_eq] at hopens
    rw [Opened, if_pos hopens] at hopened
    obtain ⟨object, rfl⟩ := hopened
    intro w₀ _ w₁ hsteps hserves
    obtain ⟨hguarantees, houtside⟩ := close_outside (h.relies hsteps) ⟨object, List.mem_singleton.mpr rfl⟩
      (none_left _ object) hserves
    refine ⟨hguarantees, meets_done houtside (opened_failed _) (.inr ⟨n, result, ?_, ?_⟩)⟩
    · rw [performed_concat _ rfl, htrace]
    · rw [refused_concat, hrefused]
      rfl
  · rename_i hopens
    rw [Bool.and_eq_true, decide_eq_true_eq] at hopens
    rw [Opened, if_neg hopens] at hopened
    rw [hopened] at h
    refine meets_done h (opened_failed _) (.inr ⟨n, result, htrace, ?_⟩)
    rw [hrefused]
    rfl

theorem meets_back {cwd : Fd} {new : List (Fd × ℕ)} (hopened : Opened (func i) result new)
    (hnew : ∀ x ∈ new, x.1 ≠ cwd) (h : Inside home i base (new ++ [(cwd, start)]) start dir w) {n : ℕ}
    (htrace : performed trace = [(n, result)]) (hfine : refused trace = false) :
    MeetsAt home perform base dirfd func i (.call (.fchdir cwd) fun fchdir_ret => .call (.close cwd) fun _ =>
      unlockThen (if fchdir_ret then .done result else cleanup (func i) result (.done (-1)))) trace w := by
  have hclose : ∀ fd object, (fd, object) ∈ new ↔ (fd, object) ∈ new ++ [(cwd, start)] ∧ fd ≠ cwd := by
    intro fd object
    rw [List.mem_append, List.mem_singleton, Prod.mk.injEq]
    constructor
    · exact fun hmem => ⟨.inl hmem, hnew _ hmem⟩
    · rintro ⟨hmem | ⟨hfd, _⟩, hne⟩
      · exact hmem
      · exact absurd hfd hne
  have hsaved : ∃ object, (cwd, object) ∈ new ++ [(cwd, start)] :=
    ⟨start, List.mem_append_right _ (List.mem_singleton.mpr rfl)⟩
  intro w₀ back w₁ hsteps hserves
  have h₀ := h.relies hsteps
  obtain ⟨hguarantees, hafter⟩ := fchdir_step h₀ hserves
  refine ⟨hguarantees, ?_⟩
  rcases hafter with ⟨rfl, h₁, hstrayed⟩ | ⟨d, rfl, hd, h₁⟩
  · intro w₂ _ w₃ hsteps hserves
    have h₂ := h₁.relies hsteps
    obtain ⟨hguarantees, h₃⟩ := close_inside h₂ hsaved hclose hserves
    refine ⟨hguarantees, meets_unlock h₃ ?_ fun e w' he hr houtside => ?_⟩
    · exact hstrayed.imp_right fun hw => hguarantees.strayed (strayed_relies hw hsteps)
    · refine meets_cleanup hopened houtside (n := n) ?_ ?_
      · rw [performed_concat e he, performed_concat _ rfl, performed_concat _ rfl, htrace]
      · rw [refused_concat, refused_concat, refused_concat, hfine, hr]
        rfl
  · intro w₂ _ w₃ hsteps hserves
    have h₂ := h₁.relies hsteps
    obtain ⟨hguarantees, h₃⟩ := close_inside h₂ hsaved hclose hserves
    have hstart : d.object = start := by
      have hmine := (h₀.own cwd start).mpr (List.mem_append_right _ (List.mem_singleton.mpr rfl))
      rw [hd] at hmine
      rw [Option.some.inj hmine]
    rw [hstart] at h₃
    refine ⟨hguarantees, meets_unlock h₃ h₃.start fun e w' he hr houtside =>
      meets_done houtside hopened (.inr ⟨n, result, ?_, ?_⟩)⟩
    · rw [performed_concat e he, performed_concat _ rfl, performed_concat _ rfl, htrace]
    · rw [refused_concat, refused_concat, refused_concat, hfine, hr]
      rfl

theorem meets_away {fd : Fd} (hdirfd : dirfd i = some fd) (h : Inside home i base [] start start w)
    (htrace : performed trace = []) (hfine : refused trace = false) :
    MeetsAt home perform base dirfd func i (.call .openDot fun
      | none => unlockThen (.done (-1))
      | some cwd => .call (.fchdir fd) fun
        | false => .call (.close cwd) fun _ => unlockThen (.done (-1))
        | true => .call (.native (func i)) fun result => .call (.fchdir cwd) fun fchdir_ret =>
          .call (.close cwd) fun _ =>
            unlockThen (if fchdir_ret then .done result else cleanup (func i) result (.done (-1)))) trace w := by
  intro w₀ answer w₁ hsteps hserves
  obtain ⟨hguarantees, h₁⟩ := openDot_step (h.relies hsteps) hserves
  refine ⟨hguarantees, ?_⟩
  cases answer with
  | none =>
    refine meets_unlock h₁ h₁.start fun e w' he hr houtside => meets_done houtside (opened_failed _) (.inl ⟨?_, ?_, rfl⟩)
    · rw [performed_concat e he, performed_concat _ rfl, htrace]
    · rw [refused_concat, refused_concat, hr, hfine]
      rfl
  | some cwd =>
    intro w₂ moved w₃ hsteps hserves
    have h₂ := h₁.relies hsteps
    obtain ⟨hguarantees, hafter⟩ := fchdir_step h₂ hserves
    refine ⟨hguarantees, ?_⟩
    rcases hafter with ⟨rfl, h₃, _⟩ | ⟨d, rfl, hd, h₃⟩
    · intro w₄ _ w₅ hsteps hserves
      obtain ⟨hguarantees, h₅⟩ := close_inside (h₃.relies hsteps) ⟨start, List.mem_singleton.mpr rfl⟩
        (none_left _ start) hserves
      refine ⟨hguarantees, meets_unlock h₅ h₅.start fun e w' he hr houtside =>
        meets_done houtside (opened_failed _) (.inl ⟨?_, ?_, rfl⟩)⟩
      · rw [performed_concat e he, performed_concat _ rfl, performed_concat _ rfl, performed_concat _ rfl, htrace]
      · rw [refused_concat, refused_concat, refused_concat, refused_concat, hr, hfine]
        rfl
    · intro w₄ result w₅ hsteps hserves
      have h₄ := h₃.relies hsteps
      have hplace : InPlace home base (dirfd i)
          (trace ++ [⟨w₀, .openDot, some cwd⟩] ++ [⟨w₂, .fchdir fd, true⟩]) w₄ := by
        refine ⟨fun fd' hfd' => ?_, fun fd' object hfd' hbase => ?_, fun hnone => ?_⟩
        · rw [hdirfd] at hfd'
          obtain rfl := Option.some.inj hfd'
          exact ⟨w₂, d, List.mem_append_right _ (List.mem_singleton_self _), hd, h₄.cwd⟩
        · rw [hdirfd] at hfd'
          obtain rfl := Option.some.inj hfd'
          rw [h₂.base fd object hbase] at hd
          rw [h₄.cwd, ← Option.some.inj hd]
        · rw [hdirfd] at hnone
          cases hnone
      obtain ⟨hguarantees, new, hopened, h₅, hnew⟩ := native_step h₄ hplace hserves
      refine ⟨hguarantees, meets_back hopened (fun x hx => hnew x hx _ (List.mem_singleton.mpr rfl)) h₅ (n := w₄.cwd) ?_ ?_⟩
      · rw [performed_native, performed_concat _ rfl, performed_concat _ rfl, htrace]
        rfl
      · rw [refused_concat, refused_concat, refused_concat, hfine]
        rfl

theorem genericAt_meets (h : Outside home i base [] w) :
    MeetsAt home perform base dirfd func i (genericAtFunction (dirfd i) (func i)) [] w := by
  intro w₀ _ w₁ hsteps hserves
  obtain ⟨hguarantees, h₁⟩ := lock_step (h.relies hsteps) hserves
  refine ⟨hguarantees, ?_⟩
  have htrace : performed [(⟨w₀, .lock, ()⟩ : Event (Process ι F) AtCall AtAnswer)] = [] := rfl
  cases hdirfd : dirfd i with
  | none => exact meets_here hdirfd h₁ htrace rfl
  | some fd => exact meets_away hdirfd h₁ htrace rfl

end Calls

/-! ## Many calls at a time -/

/-- Any calls, in any interleaving, in a process whose lock is free. While nobody has failed to come back, the process
is in its own directory whenever the lock is free. Each call works in the directory that its descriptor was open on when
it went there (for a descriptor from before, that is its directory), or in the process's own one, and returns as
`AtOutcome` says. -/
theorem at_calls_in_place [DecidableEq ι] (dirfd : ι → Option Fd) (func : ι → NativeCall) {w : Process ι F}
    (hfree : w.holder = none) (hfds : ∀ fd d, w.fds fd = some d → d.opener = none)
    {trace : List (ι × Event (Process ι F) AtCall AtAnswer)} {p : Pool ι (Process ι F) AtCall AtAnswer ℤ}
    (hrun : PoolRuns (Serves w.cwd perform) ⟨w, fun i => genericAtFunction (dirfd i) (func i)⟩ trace p) :
    (p.world.holder = none → p.world.strayed = false → p.world.cwd = w.cwd) ∧
      (∀ before i e after f, trace = before ++ (i, e) :: after → e.c = .native f → f = func i ∧
        (∀ fd, dirfd i = some fd → ∃ world d, ⟨world, .fchdir fd, true⟩ ∈ traceOf i before ∧ world.fds fd = some d ∧
          e.world.cwd = d.object) ∧
        (∀ fd d, dirfd i = some fd → w.fds fd = some d → e.world.cwd = d.object) ∧
        (dirfd i = none → e.world.strayed = false → e.world.cwd = w.cwd)) ∧
      ∀ i result, p.threads i = .done result → AtOutcome i (func i) (traceOf i trace) p.world result := by
  have hmeets : ∀ i, MeetsAt w.cwd perform (fun fd => (w.fds fd).map Descriptor.object) dirfd func i
      (genericAtFunction (dirfd i) (func i)) [] w := by
    refine fun i => genericAt_meets ⟨⟨fun fd object hbase => ?_, fun fd object => ?_⟩, ?_, fun _ => .inl rfl⟩
    · obtain ⟨d, hd, rfl⟩ := Option.map_eq_some_iff.mp hbase
      rw [hd, ← hfds fd d hd]
    · refine iff_of_false (fun hd => ?_) List.not_mem_nil
      cases hfds fd _ hd
    · rw [hfree]
      exact fun hi => by cases hi
  have hcompat : ∀ i j before (e : Event (Process ι F) AtCall AtAnswer) w₁, i ≠ j →
      Guarantees w.cwd (fun fd => (w.fds fd).map Descriptor.object) dirfd func i before e w₁ →
        Relies w.cwd j e.world w₁ :=
    fun _ _ _ _ _ hne h => relies_of_guarantees hne h
  refine ⟨fun hholder hstrayed => ?_, fun before i e after f htrace hf => ?_, fun i result hdone =>
    hrun.returned hmeets hcompat hdone⟩
  · have hhome : AtHome w.cwd p.world :=
      hrun.invariant hmeets hcompat (fun i before e w₁ h => h.atHome) fun _ => .inl rfl
    rcases hhome hholder with hcwd | hnot
    · exact hcwd
    · rw [hstrayed] at hnot
      cases hnot
  · obtain ⟨_, hguarantees⟩ := (hrun.meets hmeets hcompat).2 before i e after htrace
    obtain ⟨rfl, hplace⟩ := hguarantees.native f hf
    refine ⟨rfl, hplace.went, fun fd d hdirfd hfd => ?_, fun hnone hstrayed => ?_⟩
    · exact hplace.base fd d.object hdirfd (congrArg (Option.map Descriptor.object) hfd)
    · rcases hplace.here hnone with hcwd | hnot
      · exact hcwd
      · rw [hstrayed] at hnot
        cases hnot

theorem serves_opened {i : ι} {w : Process ι F} {pathname : Libntech.Json.Bytes} {flags mode : ℕ} (files : F) (n o : ℕ)
    (hperform : perform w.cwd (.open pathname flags mode) w.files n files) (hfree : w.fds n = none) :
    Serves home perform i w (.native (.open pathname flags mode)) (n : ℤ)
      { w with files := files, fds := Function.update w.fds n (some ⟨o, some i⟩) } := by
  refine ⟨files, hperform, ?_⟩
  rw [if_pos ⟨rfl, Int.natCast_nonneg n⟩]
  exact ⟨hfree, o, rfl⟩

/-- A process in directory 1, with descriptor 3 open on directory 2. -/
def twoDirectories : Process Bool Unit :=
  ⟨1, none, fun fd => if fd = 3 then some ⟨2, none⟩ else none, (), false⟩

def twoDirfds (i : Bool) : Option Fd := if i then some 3 else none

/-- One call opens a file relative to descriptor 3, the other one in directory 1. -/
def twoCalls : Pool Bool (Process Bool Unit) AtCall AtAnswer ℤ :=
  ⟨twoDirectories, fun i => genericAtFunction (twoDirfds i) (.open [] 0 0)⟩

theorem at_calls_in_place_open :
    ∃ trace p, PoolRuns (Serves 1 fun _ _ _ _ _ => True) twoCalls trace p ∧ p.threads true = .done 5 ∧
      AtOutcome true (.open [] 0 0) (traceOf true trace) p.world 5 := by
  have hstart : PoolRuns (Serves 1 fun _ _ _ _ _ => True) twoCalls [] twoCalls := .refl _
  have hlocked := hstart.next true () rfl ⟨rfl, rfl⟩
  have hsaved := hlocked.next true (some 4) rfl (.inr ⟨4, rfl, rfl, rfl⟩)
  have hmoved := hsaved.next true true rfl (.inr ⟨⟨2, none⟩, rfl, rfl, rfl⟩)
  have hopened := hmoved.next true (5 : ℤ) rfl (serves_opened () 5 6 trivial rfl)
  have hback := hopened.next true true rfl (.inr ⟨⟨1, some true⟩, rfl, rfl, rfl⟩)
  have hclosed := hback.next true () rfl rfl
  have hunlocked := hclosed.next true () rfl rfl
  have hbefore : ∀ fd d, twoDirectories.fds fd = some d → d.opener = none := by
    intro fd d hfd
    change (if fd = 3 then some _ else none) = some d at hfd
    split at hfd
    · rw [← Option.some.inj hfd]
    · cases hfd
  exact ⟨_, _, hunlocked, rfl, (at_calls_in_place twoDirfds (fun _ => .open [] 0 0) (w := twoDirectories) rfl
    hbefore hunlocked).2.2 true 5 rfl⟩

end Libntech.Files.GenericAt
