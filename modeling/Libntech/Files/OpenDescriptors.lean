import Libntech.Files.SafeChange

/-! # The descriptors of safe_open

However the calls are answered, `safe_open_create_perms` leaves one descriptor more if it succeeds, and none if it fails.
-/
namespace Libntech.Files
set_option autoImplicit false

open Libntech.Json
open Libntech.Lib (Program)
open Relation (ReflTransGen)

/-! ## Descriptors -/

/-- Others do not touch the descriptors and the user of the process. -/
def LeavesProcess (other : World → World → Prop) : Prop := ∀ w w', other w w' → w'.fds = w.fds ∧ w'.euid = w.euid

theorem LeavesProcess.steps {other : World → World → Prop} (h : LeavesProcess other) {w w' : World}
    (hsteps : ReflTransGen other w w') : w'.fds = w.fds ∧ w'.euid = w.euid := by
  induction hsteps with
  | refl => exact ⟨rfl, rfl⟩
  | tail _ hstep ih =>
    obtain ⟨hfds, heuid⟩ := h _ _ hstep
    exact ⟨hfds.trans ih.1, heuid.trans ih.2⟩

/-- One descriptor more than before. -/
structure HasOpen (w₀ : World) (fd : Fd) (w : World) : Prop where
  free : w₀.fds fd = none
  held : ∃ ino, w.fds = Function.update w₀.fds fd (some ino)
  euid : w.euid = w₀.euid

/-- As before. -/
structure Restored (w₀ w : World) : Prop where
  fds : w.fds = w₀.fds
  euid : w.euid = w₀.euid

def Settled (w₀ : World) (w : World) : Except Errno Fd → Prop
  | .error _ => Restored w₀ w
  | .ok fd => HasOpen w₀ fd w

variable {w₀ w w₁ : World} {fd fd₁ : Fd}

theorem HasOpen.after (h : HasOpen w₀ fd w) (hfds : w₁.fds = w.fds) (heuid : w₁.euid = w.euid) : HasOpen w₀ fd w₁ := by
  obtain ⟨ino, hheld⟩ := h.held
  exact ⟨h.free, ⟨ino, hfds.trans hheld⟩, heuid.trans h.euid⟩

theorem Restored.after (h : Restored w₀ w) (hfds : w₁.fds = w.fds) (heuid : w₁.euid = w.euid) : Restored w₀ w₁ :=
  ⟨hfds.trans h.fds, heuid.trans h.euid⟩

theorem HasOpen.closed (h : HasOpen w₀ fd w) : Restored w₀ (w.assign fd none) := by
  obtain ⟨ino, hheld⟩ := h.held
  refine ⟨?_, h.euid⟩
  show Function.update w.fds fd none = w₀.fds
  rw [hheld, Function.update_idem, ← h.free, Function.update_eq_self]

theorem HasOpen.exchange (h : HasOpen w₀ fd w) (h₁ : HasOpen w fd₁ w₁) : HasOpen w₀ fd₁ (w₁.assign fd none) := by
  obtain ⟨ino, hheld⟩ := h.held
  obtain ⟨ino₁, hheld₁⟩ := h₁.held
  have hne : fd₁ ≠ fd := by
    rintro rfl
    have hfree := h₁.free
    rw [hheld, Function.update_self] at hfree
    cases hfree
  have hfree := h₁.free
  rw [hheld, Function.update_of_ne hne] at hfree
  refine ⟨hfree, ⟨ino₁, ?_⟩, h₁.euid.trans h.euid⟩
  show Function.update w₁.fds fd none = Function.update w₀.fds fd₁ (some ino₁)
  rw [hheld₁, Function.update_comm hne, hheld, Function.update_idem, ← h.free, Function.update_eq_self]

theorem Restored.closed (h : HasOpen w₀ fd w) (h₁ : Restored w w₁) : Restored w₀ (w₁.assign fd none) :=
  (h.after h₁.fds h₁.euid).closed

/-- What `openat` does to the descriptors. -/
theorem Opens.settled {dirfd : Option Fd} {path : Bytes} {flags : OpenFlags} {answer : Except Errno Fd}
    (h : Opens w dirfd path flags answer w₁) : Settled w w₁ answer := by
  cases h with
  | refused _ => exact ⟨rfl, rfl⟩
  | @existing start ino fd _ _ _ _ _ hfree => exact ⟨hfree, ⟨ino, rfl⟩, rfl⟩
  | @truncating start ino fd _ _ _ _ _ _ _ hfree => exact ⟨hfree, ⟨ino, rfl⟩, rfl⟩
  | @created start dir ino gid name fd _ _ _ _ _ hfree => exact ⟨hfree, ⟨ino, rfl⟩, rfl⟩

/-- The other calls of `safe_open` change neither descriptors nor the user. -/
theorem Serves.reads {c : Call} {answer : Answer c} (h : Serves w c answer w₁)
    (hc : (∃ dirfd path, c = .fstatat dirfd path) ∨ (∃ fd, c = .fstat fd) ∨ (∃ fd length, c = .ftruncate fd length) ∨
      c = .geteuid) : w₁.fds = w.fds ∧ w₁.euid = w.euid := by
  rcases hc with ⟨dirfd, path, rfl⟩ | ⟨fd, rfl⟩ | ⟨fd, length, rfl⟩ | rfl
  · rw [h.1]
    exact ⟨rfl, rfl⟩
  · rw [h.1]
    exact ⟨rfl, rfl⟩
  · rcases h with ⟨rfl, -⟩ | ⟨ino, -, rfl, -⟩
    · exact ⟨rfl, rfl⟩
    · exact ⟨rfl, rfl⟩
  · rw [h.2]
    exact ⟨rfl, rfl⟩

/-! ## The parts of safe_open -/

section Parts

variable {other : World → World → Prop} (hother : LeavesProcess other)
include hother

/-- The program settles what `w₀` was, whatever the calls are answered. -/
abbrev Settles (other : World → World → Prop) (w₀ w : World) (p : OpenProgram) : Prop :=
  p.Ensures Serves other w fun _ w' result => Settled w₀ w' result

theorem done_settles (result : Except Errno Fd) (h : Settled w₀ w result) : Settles other w₀ w (.done result) := by
  intro w' hsteps
  obtain ⟨hfds, heuid⟩ := hother.steps hsteps
  cases result with
  | error errno => exact Restored.after h hfds heuid
  | ok fd => exact HasOpen.after h hfds heuid

theorem fail_settles (h : HasOpen w₀ fd w) (errno : Errno) : Settles other w₀ w (fail fd errno) := by
  intro w₁ _ w₂ hsteps hserves
  obtain ⟨hfds, heuid⟩ := hother.steps hsteps
  obtain rfl := hserves
  exact done_settles hother (.error errno) (h.after hfds heuid).closed

theorem reads_settles {c : Call} (hc : (∃ dirfd path, c = .fstatat dirfd path) ∨ (∃ fd, c = .fstat fd) ∨
    (∃ fd length, c = .ftruncate fd length) ∨ c = .geteuid) (h : HasOpen w₀ fd w) {next : Answer c → OpenProgram}
    (hnext : ∀ answer w₁, HasOpen w₀ fd w₁ → Settles other w₀ w₁ (next answer)) : Settles other w₀ w (.call c next) := by
  intro w₁ answer w₂ hsteps hserves
  obtain ⟨hfds, heuid⟩ := hother.steps hsteps
  obtain ⟨hfds', heuid'⟩ := hserves.reads hc
  exact hnext answer w₂ ((h.after hfds heuid).after hfds' heuid')

theorem truncateOpened_settles (h : HasOpen w₀ fd w) (trunc : Bool) (final_size : Option ℕ) :
    Settles other w₀ w (truncateOpened trunc fd final_size) := by
  unfold truncateOpened
  split
  · split
    · refine reads_settles hother (Or.inr (Or.inr (Or.inl ⟨fd, 0, rfl⟩))) h fun answer w₁ h₁ => ?_
      cases answer with
      | error errno => exact fail_settles hother h₁ errno
      | ok _ => exact done_settles hother (.ok fd) h₁
    · exact done_settles hother (.ok fd) h
  · exact done_settles hother (.ok fd) h

theorem recheck_settles (h : HasOpen w₀ fd w) {p_uid : ℕ} (stat_before : Option Stat) (final_size : Option ℕ)
    {next : Option ℕ → OpenProgram} (hnext : ∀ size w₁, HasOpen w₀ fd w₁ → Settles other w₀ w₁ (next size)) :
    Settles other w₀ w (recheck p_uid fd stat_before final_size next) := by
  cases stat_before with
  | none => exact hnext final_size w h
  | some stat_before =>
    refine reads_settles hother (Or.inr (Or.inl ⟨fd, rfl⟩)) h fun answer w₁ h₁ => ?_
    cases answer with
    | error errno => exact fail_settles hother h₁ errno
    | ok stat_after =>
      show Settles other w₀ w₁ (if untrusted p_uid stat_before stat_after then fail fd .enolink else next _)
      split
      · exact fail_settles hother h₁ .enolink
      · exact hnext _ w₁ h₁

variable {currentfd : Fd} {p_uid create_perms : ℕ} {orig_flags : OpenFlags}

theorem openDirectory_settles (h : HasOpen w₀ currentfd w) (name : Bytes) (final_size : Option ℕ)
    {next : Fd → Option ℕ → OpenProgram} (hnext : ∀ fd size w₁, HasOpen w₀ fd w₁ → Settles other w₀ w₁ (next fd size)) :
    Settles other w₀ w (openDirectory p_uid currentfd name final_size next) := by
  refine reads_settles hother (Or.inl ⟨currentfd, name, rfl⟩) h fun answer w₁ h₁ => ?_
  cases answer with
  | error errno => exact fail_settles hother h₁ errno
  | ok stat_before =>
    intro w₂ opened w₃ hsteps hopens w₄ _ w₅ hsteps' hclose
    obtain ⟨hfds, heuid⟩ := hother.steps hsteps
    obtain ⟨hfds', heuid'⟩ := hother.steps hsteps'
    obtain rfl := hclose
    have hopened := Opens.settled hopens
    have h₂ := h₁.after hfds heuid
    cases opened with
    | error errno =>
      exact done_settles hother (.error errno) (Restored.closed h₂ (Restored.after hopened hfds' heuid'))
    | ok fd =>
      exact recheck_settles hother (h₂.exchange (HasOpen.after hopened hfds' heuid')) (some stat_before) final_size
        fun size w₁ h => hnext fd size w₁ h

theorem openLast_settles (h : HasOpen w₀ currentfd w) {again : OpenProgram} (component : Component) (final_size : Option ℕ)
    (stat_before : Option Stat) (trunc : Bool) (flags : OpenFlags)
    (hagain : ∀ w₁, HasOpen w₀ currentfd w₁ → Settles other w₀ w₁ again) :
    Settles other w₀ w
      (openLast orig_flags create_perms p_uid again currentfd component final_size stat_before trunc flags) := by
  intro w₂ opened w₃ hsteps hopens
  obtain ⟨hfds, heuid⟩ := hother.steps hsteps
  have h₂ := h.after hfds heuid
  have hopened := Opens.settled hopens
  cases opened with
  | error errno =>
    have h₃ : HasOpen w₀ currentfd w₃ := h₂.after hopened.fds hopened.euid
    show Settles other w₀ w₃ (if _ then again else fail currentfd errno)
    split
    · exact hagain w₃ h₃
    · exact fail_settles hother h₃ errno
  | ok fd =>
    intro w₄ _ w₅ hsteps' hclose
    obtain ⟨hfds', heuid'⟩ := hother.steps hsteps'
    obtain rfl := hclose
    exact recheck_settles hother (h₂.exchange (HasOpen.after hopened hfds' heuid')) stat_before final_size
      fun size w₁ h => truncateOpened_settles hother h trunc size

theorem attempt_settles (h : HasOpen w₀ currentfd w) {again : OpenProgram} (component : Component) (final_size : Option ℕ)
    (flags : OpenFlags) (hagain : ∀ w₁, HasOpen w₀ currentfd w₁ → Settles other w₀ w₁ again) :
    Settles other w₀ w (attempt orig_flags create_perms p_uid again currentfd component final_size flags) := by
  refine reads_settles hother (Or.inl ⟨currentfd, component.name, rfl⟩) h fun answer w₁ h₁ => ?_
  cases answer with
  | error errno =>
    show Settles other w₀ w₁ (if _ then _ else _)
    split
    · exact fail_settles hother h₁ errno
    · exact openLast_settles hother h₁ component final_size none false _ hagain
  | ok stat_before =>
    show Settles other w₀ w₁ (if _ then _ else _)
    split
    · exact fail_settles hother h₁ .eexist
    · exact openLast_settles hother h₁ component final_size (some stat_before) _ _ hagain

theorem attempts_settles (left : ℕ) : ∀ {w : World}, HasOpen w₀ currentfd w → ∀ (component : Component)
    (final_size : Option ℕ) (flags : OpenFlags),
    Settles other w₀ w (attempts orig_flags create_perms p_uid currentfd component final_size left flags) := by
  induction left with
  | zero =>
    intro w h component final_size flags
    exact attempt_settles hother h component final_size flags fun w₁ h₁ => fail_settles hother h₁ .eacces
  | succ left ih =>
    intro w h component final_size flags
    exact attempt_settles hother h component final_size flags fun w₁ h₁ => ih h₁ component final_size orig_flags

theorem openComponents_settles (comps : List Component) : ∀ {w : World} {currentfd : Fd}, HasOpen w₀ currentfd w →
    ∀ (final_size : Option ℕ) (flags : OpenFlags),
    Settles other w₀ w (openComponents orig_flags create_perms p_uid currentfd final_size flags comps) := by
  induction comps with
  | nil =>
    intro w currentfd h final_size flags
    exact truncateOpened_settles hother h false final_size
  | cons component comps ih =>
    intro w currentfd h final_size flags
    cases comps with
    | nil => exact attempts_settles hother 3 h component final_size flags
    | cons second rest =>
      exact openDirectory_settles hother h component.name final_size fun fd size w₁ h₁ => ih h₁ size _

theorem safeOpenCreatePerms_settles (w : World) (pathname : Option Bytes) (flags : OpenFlags) (create_perms : ℕ) :
    Settles other w w (safeOpenCreatePerms pathname flags create_perms) := by
  match pathname with
  | none => exact done_settles hother (.error .einval) ⟨rfl, rfl⟩
  | some [] => exact done_settles hother (.error .enoent) ⟨rfl, rfl⟩
  | some (c :: rest) =>
    intro w₁ opened w₂ hsteps hopens
    obtain ⟨hfds, heuid⟩ := hother.steps hsteps
    have hopened := Opens.settled hopens
    cases opened with
    | error errno => exact done_settles hother (.error errno) ⟨hopened.fds.trans hfds, hopened.euid.trans heuid⟩
    | ok fd =>
      obtain ⟨ino, hheld⟩ := hopened.held
      have h : HasOpen w fd w₂ := ⟨by rw [← hfds]; exact hopened.free, ⟨ino, by rw [← hfds]; exact hheld⟩,
        hopened.euid.trans heuid⟩
      exact reads_settles hother (Or.inr (Or.inr (Or.inr rfl))) h fun euid w₁ h₁ =>
        openComponents_settles hother _ h₁ none flags

end Parts

end Libntech.Files
