import Libntech.Files.SafeOpenMeaning

/-! # Which calls create files

Whatever the system calls answer, a file is created by `O_CREAT` and `O_EXCL` under a single name, so that no symlink is
followed.
-/
namespace Libntech.Files
set_option autoImplicit false

open Libntech.Json

/-- A call that may create a file is exclusive, and made with a single name for a path. -/
def Exclusive : Call → Prop
  | .openat dirfd text flags _ => flags.creat = true → flags.excl = true ∧ ∃ currentfd, ∃ component : Component,
      dirfd = some currentfd ∧ text = component.name ++ component.slashes ∧ component.Proper
  | _ => True

section Creates

variable {orig_flags : OpenFlags} {create_perms p_uid : ℕ} {currentfd : Fd} {final_size : Option ℕ}

theorem fail_makes (errno : Errno) : (fail currentfd errno).Makes Exclusive := ⟨trivial, fun _ => trivial⟩

theorem truncateOpened_makes (trunc : Bool) : (truncateOpened trunc currentfd final_size).Makes Exclusive := by
  unfold truncateOpened
  split
  · split
    · refine ⟨trivial, fun answer => ?_⟩
      cases answer with
      | error errno => exact fail_makes errno
      | ok _ => trivial
    · trivial
  · trivial

theorem recheck_makes (stat_before : Option Stat) {next : Option ℕ → OpenProgram}
    (hnext : ∀ size, (next size).Makes Exclusive) :
    (recheck p_uid currentfd stat_before final_size next).Makes Exclusive := by
  cases stat_before with
  | none => exact hnext final_size
  | some stat_before =>
    refine ⟨trivial, fun answer => ?_⟩
    cases answer with
    | error errno => exact fail_makes errno
    | ok stat_after =>
      dsimp only
      split
      · exact fail_makes _
      · exact hnext _

theorem openDirectory_makes (name : Bytes) {next : Fd → Option ℕ → OpenProgram}
    (hnext : ∀ fd size, (next fd size).Makes Exclusive) :
    (openDirectory p_uid currentfd name final_size next).Makes Exclusive := by
  refine ⟨trivial, fun before => ?_⟩
  cases before with
  | error errno => exact fail_makes errno
  | ok stat_before =>
    refine ⟨nofun, fun opened => ⟨trivial, fun _ => ?_⟩⟩
    cases opened with
    | error errno => trivial
    | ok fd => exact recheck_makes _ (hnext fd)

variable {component : Component} {again : OpenProgram} (hproper : component.Proper)
include hproper

theorem openLast_makes {stat_before : Option Stat} {trunc : Bool} {flags : OpenFlags}
    (hflags : flags.creat = true → flags.excl = true) (hagain : again.Makes Exclusive) :
    (openLast orig_flags create_perms p_uid again currentfd component final_size stat_before trunc flags).Makes
      Exclusive := by
  refine ⟨fun hcreat => ⟨hflags hcreat, currentfd, component, rfl, rfl, hproper⟩, fun opened => ?_⟩
  cases opened with
  | error errno =>
    dsimp only
    split
    · exact hagain
    · exact fail_makes errno
  | ok filefd => exact ⟨trivial, fun _ => recheck_makes _ fun _ => truncateOpened_makes trunc⟩

theorem attempt_makes (flags : OpenFlags) (hagain : again.Makes Exclusive) :
    (attempt orig_flags create_perms p_uid again currentfd component final_size flags).Makes Exclusive := by
  refine ⟨trivial, fun before => ?_⟩
  cases before with
  | error errno =>
    dsimp only
    split
    · exact fail_makes errno
    · exact openLast_makes hproper (fun _ => rfl) hagain
  | ok stat_before =>
    dsimp only
    split
    · exact fail_makes _
    · exact openLast_makes hproper nofun hagain

theorem attempts_makes (left : ℕ) : ∀ flags : OpenFlags,
    (attempts orig_flags create_perms p_uid currentfd component final_size left flags).Makes Exclusive := by
  induction left with
  | zero => exact fun flags => attempt_makes hproper flags (fail_makes _)
  | succ left ih => exact fun flags => attempt_makes hproper flags (ih orig_flags)

omit hproper in
theorem openComponents_makes (comps : List Component) (hproper : ∀ c ∈ comps, c.Proper) :
    ∀ (currentfd : Fd) (final_size : Option ℕ) (flags : OpenFlags),
      (openComponents orig_flags create_perms p_uid currentfd final_size flags comps).Makes Exclusive := by
  induction comps with
  | nil => exact fun _ _ _ => truncateOpened_makes false
  | cons component comps ih =>
    intro currentfd final_size flags
    obtain ⟨hfirst, hrest⟩ := List.forall_mem_cons.mp hproper
    cases comps with
    | nil => exact attempts_makes hfirst 3 flags
    | cons second rest => exact openDirectory_makes _ fun fd size => ih hrest fd size _

end Creates

theorem safeOpenCreatePerms_makes (path : Bytes) (flags : OpenFlags) (create_perms : ℕ) :
    (safeOpenCreatePerms (some path) flags create_perms).Makes Exclusive := by
  cases path with
  | nil => trivial
  | cons c rest =>
    rw [safeOpenCreatePerms_eq]
    refine ⟨nofun, fun opened => ?_⟩
    cases opened with
    | error errno => trivial
    | ok fd => exact ⟨trivial, fun euid => openComponents_makes _ (components_of_path _).1 fd none flags⟩

/-- An exclusive call that creates a file does so under a name that was free. -/
theorem Exclusive.vacant {world w' : World} {dirfd : Option Fd} {text : Bytes} {flags : OpenFlags} {perms : ℕ} {fd : Fd}
    (h : Exclusive (.openat dirfd text flags perms)) (hserves : Serves world (.openat dirfd text flags perms) (.ok fd) w')
    (hcreat : flags.creat = true) : ∃ dir name, world.start dirfd text = some dir ∧ pathComponents text = [name] ∧
      world.fs.entry dir name = none := by
  obtain ⟨hexcl, currentfd, component, rfl, rfl, hproper⟩ := h hcreat
  obtain ⟨dir, hdir, -, hentry, -⟩ := opens_created hproper hcreat hexcl hserves
  exact ⟨dir, component.name, (hproper.start world currentfd _).trans hdir, hproper.components_text, hentry⟩

end Libntech.Files
