import Libntech.Files.SafeOpenMeaning

/-! # What a call of safe_open_create_perms leaves behind

A call that fails has closed what it opened, and none of its system calls created or truncated a file. A call that
succeeds leaves one descriptor more, of a file that it truncated where that was asked for. There are two exceptions.
Of a path of slashes the directory that the walk starts from is returned as it was opened, whatever the flags are. And
`O_TRUNC` without write access, which the first assertion excludes, is handed to `openat`, before the checks.
-/
namespace Libntech.Files
set_option autoImplicit false

open Libntech.Json
open Libntech.Lib (Event Program Runs)
open Relation (ReflTransGen)

/-- Others do what they like with the files, but not with the descriptors of the process. -/
def Elsewhere (w w' : World) : Prop := w'.fds = w.fds

theorem Elsewhere.steps {w w' : World} (h : ReflTransGen Elsewhere w w') : w'.fds = w.fds := by
  induction h with
  | refl => rfl
  | tail _ hstep ih => exact hstep.trans ih

/-- A call that neither creates nor truncates a file. -/
def Harmless (e : Event World Call Answer) : Prop := ∀ w₁, Serves e.world e.c e.answer w₁ → w₁.fs = e.world.fs

/-- The file was created by the call that opened it, or it is empty at the last call. -/
inductive Emptied (trace : Trace) (fd : Fd) (ino : ℕ) : Prop where
  | created {world : World} {dirfd : Option Fd} {path : Bytes} {flags : OpenFlags} {perms : ℕ} :
      ⟨world, .openat dirfd path flags perms, .ok fd⟩ ∈ trace → world.fs.inode ino = none → Emptied trace fd ino
  | truncated {e : Event World Call Answer} {w₁ : World} : trace.getLast? = some e → Serves e.world e.c e.answer w₁ →
      w₁.fds fd = some ino → (∀ node, w₁.fs.inode ino = some node → node.size = 0) → Emptied trace fd ino

/-- What a call may leave behind, from the descriptors that were open before. -/
def Atomic (emptying : Prop) (before : Fd → Option ℕ) (trace : Trace) (w' : World) : Except Errno Fd → Prop
  | .error _ => w'.fds = before ∧ ∀ e ∈ trace, Harmless e
  | .ok fd => before fd = none ∧ ∃ ino, w'.fds = Function.update before fd (some ino) ∧
      (emptying → Emptied trace fd ino)

theorem Emptied.cons {trace : Trace} {fd : Fd} {ino : ℕ} (e : Event World Call Answer) (h : Emptied trace fd ino) :
    Emptied (e :: trace) fd ino := by
  cases h with
  | created hmem hnone => exact .created (List.mem_cons_of_mem _ hmem) hnone
  | truncated hlast hserves hfd hsize =>
    refine .truncated ?_ hserves hfd hsize
    rw [List.getLast?_cons, hlast, Option.getD_some]

theorem Atomic.cons {emptying : Prop} {before : Fd → Option ℕ} {trace : Trace} {w' : World} {result : Except Errno Fd}
    {e : Event World Call Answer} (he : Harmless e) (h : Atomic emptying before trace w' result) :
    Atomic emptying before (e :: trace) w' result := by
  cases result with
  | error errno => exact ⟨h.1, List.forall_mem_cons.mpr ⟨he, h.2⟩⟩
  | ok fd =>
    obtain ⟨hfree, ino, hfds, hemptied⟩ := h
    exact ⟨hfree, ino, hfds, fun hemptying => (hemptied hemptying).cons e⟩

/-! ## The descriptor at hand -/

/-- Of the descriptors that a call opened, this one is open. -/
structure Holds (before : Fd → Option ℕ) (fd : Fd) (ino : ℕ) (w : World) : Prop where
  free : before fd = none
  fds : w.fds = Function.update before fd (some ino)

section Holds

variable {before : Fd → Option ℕ} {fd currentfd : Fd} {ino dir : ℕ} {w w₁ w₂ : World}

theorem Holds.steps (h : Holds before fd ino w) (hsteps : ReflTransGen Elsewhere w w₁) : Holds before fd ino w₁ :=
  ⟨h.free, (Elsewhere.steps hsteps).trans h.fds⟩

theorem Holds.self (h : Holds before fd ino w) : w.fds fd = some ino := by
  rw [h.fds]
  exact Function.update_self ..

theorem Holds.closed (h : Holds before fd ino w) : (w.assign fd none).fds = before := by
  show Function.update w.fds fd none = before
  rw [h.fds, Function.update_idem, ← h.free, Function.update_eq_self]

theorem Holds.handed (h : Holds before currentfd dir w) (hfree : w.fds fd = none)
    (hfds : w₁.fds = Function.update w.fds fd (some ino)) (hsteps : ReflTransGen Elsewhere w₁ w₂) :
    Holds before fd ino (w₂.assign currentfd none) := by
  have hne : fd ≠ currentfd := by
    rintro rfl
    rw [h.self] at hfree
    cases hfree
  refine ⟨?_, ?_⟩
  · rw [h.fds, Function.update_of_ne hne] at hfree
    exact hfree
  · show Function.update w₂.fds currentfd none = _
    have hclosed : Function.update before fd (some ino) currentfd = none := by
      rw [Function.update_of_ne hne.symm, h.free]
    rw [Elsewhere.steps hsteps, hfds, h.fds, Function.update_comm hne.symm, Function.update_idem, ← hclosed,
      Function.update_eq_self]

end Holds

/-! ## Harmless calls -/

variable {flags : OpenFlags} {path : Bytes} {pathname : Option Bytes} {create_perms : ℕ}

section Harmless

variable {w : World}

theorem harmless_fstatat (fd : Fd) (path : Bytes) (answer : Except Errno Stat) :
    Harmless ⟨w, .fstatat fd path, answer⟩ := fun _ h => congrArg World.fs h.1

theorem harmless_fstat (fd : Fd) (answer : Except Errno Stat) : Harmless ⟨w, .fstat fd, answer⟩ :=
  fun _ h => congrArg World.fs h.1

theorem harmless_close (fd : Fd) : Harmless ⟨w, .close fd, ()⟩ := by
  rintro w₁ rfl
  rfl

theorem harmless_geteuid (euid : ℕ) : Harmless ⟨w, .geteuid, euid⟩ := fun _ h => congrArg World.fs h.2

theorem harmless_ftruncate (fd : Fd) (length : ℕ) (errno : Errno) :
    Harmless ⟨w, .ftruncate fd length, .error errno⟩ := by
  rintro w₁ (⟨rfl, -⟩ | ⟨-, -, -, hanswer⟩)
  · rfl
  · cases hanswer

theorem harmless_refused (dirfd : Option Fd) (path : Bytes) (flags : OpenFlags) (perms : ℕ) (errno : Errno) :
    Harmless ⟨w, .openat dirfd path flags perms, .error errno⟩ := by
  intro w₁ h
  cases h with
  | refused _ => rfl

/-- Without `O_CREAT` and `O_TRUNC` a file is opened as it is. -/
theorem opens_old {w₁ : World} {dirfd : Option Fd} {fd : Fd} (hcreat : flags.creat = false)
    (htrunc : flags.trunc = false) (h : Opens w dirfd path flags (.ok fd) w₁) :
    w.fds fd = none ∧ ∃ ino, w₁ = w.assign fd (some ino) := by
  cases h with
  | created _ hcreat' _ _ _ _ =>
    rw [hcreat] at hcreat'
    cases hcreat'
  | truncating _ _ _ _ _ htrunc' _ _ =>
    rw [htrunc] at htrunc'
    cases htrunc'
  | @existing _ ino _ _ _ _ _ _ hfree =>
    refine ⟨hfree, ino, ?_⟩
    simp only [htrunc, Bool.false_and, Bool.false_eq_true, if_false]

theorem harmless_old {dirfd : Option Fd} {perms : ℕ} (answer : Except Errno Fd) (hcreat : flags.creat = false)
    (htrunc : flags.trunc = false) :
    Harmless ⟨w, .openat dirfd path flags perms, answer⟩ := by
  cases answer with
  | error errno => exact harmless_refused dirfd path flags perms errno
  | ok fd =>
    intro w₁ h
    obtain ⟨-, ino, rfl⟩ := opens_old hcreat htrunc h
    rfl

end Harmless

/-! ## The flags

`O_TRUNC` is only dropped. Where it is not, it came without write access.
-/

structure Restricts (orig_flags flags : OpenFlags) : Prop extends SameFlags orig_flags flags where
  trunc : flags.trunc = true → orig_flags.trunc = true

theorem Restricts.refl (flags : OpenFlags) : Restricts flags flags := ⟨.refl flags, id⟩

theorem Restricts.withoutTrunc {orig_flags : OpenFlags} (h : Restricts orig_flags flags) :
    Restricts orig_flags (withoutTrunc orig_flags flags) := by
  refine ⟨h.toSameFlags.withoutTrunc, ?_⟩
  unfold Files.withoutTrunc
  split
  · exact nofun
  · exact h.trunc

/-- `O_TRUNC` is set and the file is not opened for writing, though it may be there already. -/
def TruncatesUnwritable (flags : OpenFlags) : Prop :=
  flags.trunc = true ∧ flags.writes = false ∧ (flags.creat && flags.excl) = false

theorem withoutTrunc_trunc {orig_flags : OpenFlags} (h : Restricts orig_flags flags)
    (hdefined : ¬ TruncatesUnwritable orig_flags) (hboth : ¬ (flags.creat && flags.excl) = true) :
    (withoutTrunc orig_flags flags).trunc = false := by
  rw [h.creat, h.excl, Bool.not_eq_true] at hboth
  unfold withoutTrunc
  split
  · rfl
  · rename_i hsaves
    by_contra htrunc
    have horig : orig_flags.trunc = true := h.trunc (Bool.not_eq_false _ ▸ htrunc)
    refine hdefined ⟨horig, ?_, hboth⟩
    rwa [savesTrunc, horig, Bool.and_true, Bool.not_eq_true] at hsaves

/-! ## The rules -/

section Rules

variable {emptying : Prop} {before : Fd → Option ℕ} {w : World} {p_uid : ℕ} {fd currentfd : Fd} {ino dir : ℕ}

/-- Every run from here is atomic. -/
abbrev Leaves (emptying : Prop) (before : Fd → Option ℕ) (w : World) (program : OpenProgram) : Prop :=
  program.Ensures Serves Elsewhere w (Atomic emptying before)

theorem Leaves.behind {program : OpenProgram} {e : Event World Call Answer} (h : Leaves emptying before w program)
    (he : Harmless e) : program.Ensures Serves Elsewhere w fun trace => Atomic emptying before (e :: trace) :=
  h.mono fun _ _ _ => Atomic.cons he

theorem fail_leaves (h : Holds before fd ino w) (errno : Errno) : Leaves emptying before w (fail fd errno) := by
  rintro w₀ _ _ hsteps rfl w' hsteps'
  refine ⟨?_, List.forall_mem_singleton.mpr (harmless_close fd)⟩
  rw [Elsewhere.steps hsteps']
  exact (h.steps hsteps).closed

theorem done_leaves (h : Holds before fd ino w) (hno : ¬ emptying) : Leaves emptying before w (.done (.ok fd)) :=
  fun _ hsteps => ⟨h.free, ino, (Elsewhere.steps hsteps).trans h.fds, fun hemptying => absurd hemptying hno⟩

/-- The end of the function, behind a call of `fstat`. -/
theorem truncateOpened_leaves {trunc : Bool} {node : Inode} (h : Holds before fd ino w)
    (hnode : w.fs.inode ino = some node) (htrunc : emptying → trunc = true) :
    (truncateOpened trunc fd (some node.size)).Ensures Serves Elsewhere w fun trace =>
      Atomic emptying before (⟨w, .fstat fd, .ok node.stat⟩ :: trace) := by
  have hharmless : Harmless ⟨w, .fstat fd, .ok node.stat⟩ := harmless_fstat fd _
  unfold truncateOpened
  split
  · split
    · rintro w₀ answer w₁ hsteps (⟨rfl, errno, rfl, -⟩ | ⟨ino', hfd, rfl, rfl⟩)
      · have hfail : Leaves emptying before w₁ (fail fd errno) := fail_leaves (h.steps hsteps) errno
        exact (hfail.behind (harmless_ftruncate fd 0 errno)).mono fun _ _ _ => Atomic.cons hharmless
      · intro w' hsteps'
        have hholds := h.steps hsteps
        rw [hholds.self] at hfd
        obtain rfl := Option.some.inj hfd
        have hserved : Serves w₀ (.ftruncate fd 0) (.ok ()) { w₀ with fs := w₀.fs.truncate ino 0 } :=
          .inr ⟨ino, hholds.self, rfl, rfl⟩
        refine ⟨h.free, ino, (Elsewhere.steps hsteps').trans hholds.fds, fun _ =>
          .truncated rfl hserved hholds.self fun node' hnode' => ?_⟩
        simp only [FileSystem.truncate, if_true, Option.map_eq_some_iff] at hnode'
        obtain ⟨_, -, rfl⟩ := hnode'
        rfl
    · rename_i hzero
      have hsize : node.size = 0 := Option.some.inj (not_not.mp hzero)
      have hserved : Serves w (.fstat fd) (.ok node.stat) w := ⟨rfl, .inr ⟨ino, node, h.self, hnode, rfl⟩⟩
      refine fun w' hsteps => ⟨h.free, ino, (Elsewhere.steps hsteps).trans h.fds, fun _ =>
        .truncated rfl hserved h.self fun node' hnode' => ?_⟩
      rw [hnode] at hnode'
      obtain rfl := Option.some.inj hnode'
      exact hsize
  · rename_i hno
    have hdone : Leaves emptying before w (.done (.ok fd)) := done_leaves h fun hemptying => hno (htrunc hemptying)
    exact hdone.behind hharmless

theorem recheck_leaves {stat_before : Stat} {final_size : Option ℕ} {next : Option ℕ → OpenProgram}
    (h : Holds before fd ino w)
    (hnext : ∀ w₁ node, Holds before fd ino w₁ → w₁.fs.inode ino = some node →
      (next (some node.size)).Ensures Serves Elsewhere w₁ fun trace =>
        Atomic emptying before (⟨w₁, .fstat fd, .ok node.stat⟩ :: trace)) :
    Leaves emptying before w (recheck p_uid fd (some stat_before) final_size next) := by
  rintro w₀ answer w₁ hsteps ⟨rfl, ⟨errno, rfl, -⟩ | ⟨ino', node, hfd, hnode, rfl⟩⟩
  · exact (fail_leaves (h.steps hsteps) errno).behind (harmless_fstat fd _)
  · have hholds := h.steps hsteps
    rw [hholds.self] at hfd
    obtain rfl := Option.some.inj hfd
    dsimp only
    split
    · exact (fail_leaves hholds _).behind (harmless_fstat fd _)
    · exact hnext w₁ node hholds hnode

theorem openDirectory_leaves {name : Bytes} {final_size : Option ℕ} {next : Fd → Option ℕ → OpenProgram}
    (h : Holds before currentfd dir w)
    (hnext : ∀ w₁ fd ino size, Holds before fd ino w₁ → Leaves emptying before w₁ (next fd size)) :
    Leaves emptying before w (openDirectory p_uid currentfd name final_size next) := by
  rintro w₀ answer w₁ hsteps ⟨rfl, ⟨errno, rfl, -⟩ | ⟨_, _, _, _, _, _, rfl⟩⟩
  · exact (fail_leaves (h.steps hsteps) errno).behind (harmless_fstatat currentfd name _)
  · refine Leaves.behind ?_ (harmless_fstatat currentfd name _)
    rintro w₂ opened w₃ hsteps' hopens
    have hholds := (h.steps hsteps).steps hsteps'
    refine Leaves.behind ?_ (harmless_old opened rfl rfl)
    rintro w₄ _ _ hsteps'' rfl
    refine Leaves.behind ?_ (harmless_close currentfd)
    cases opened with
    | error errno =>
      cases hopens with
      | refused _ =>
        intro w' hsteps'''
        refine ⟨?_, fun _ hmem => absurd hmem List.not_mem_nil⟩
        rw [Elsewhere.steps hsteps''']
        exact (hholds.steps hsteps'').closed
    | ok fd =>
      obtain ⟨hfree, ino, rfl⟩ := opens_old rfl rfl hopens
      exact recheck_leaves (hholds.handed hfree rfl hsteps'') fun w₅ node hfd _ =>
        (hnext w₅ fd ino _ hfd).behind (harmless_fstat fd _)

/-! ## The last component -/

variable {orig_flags flags : OpenFlags} {create_perms : ℕ} {component : Component} {final_size : Option ℕ}
  {again : OpenProgram}

/-- What was there is opened without `O_CREAT` and `O_TRUNC`. -/
theorem openLast_leaves_old {stat_before : Stat} {trunc : Bool} (h : Holds before currentfd dir w)
    (hcreat : flags.creat = false) (hno : flags.trunc = false) (htrunc : emptying → trunc = true)
    (hagain : ∀ w₁, Holds before currentfd dir w₁ → Leaves emptying before w₁ again) :
    Leaves emptying before w (openLast orig_flags create_perms p_uid again currentfd component final_size
      (some stat_before) trunc flags) := by
  rintro w₁ opened w₂ hsteps hopens
  have hholds := h.steps hsteps
  refine Leaves.behind ?_ (harmless_old opened hcreat hno)
  cases opened with
  | error errno =>
    cases hopens with
    | refused _ =>
      dsimp only
      split
      · exact hagain w₁ hholds
      · exact fail_leaves hholds errno
  | ok fd =>
    rintro w₃ _ _ hsteps' rfl
    refine Leaves.behind ?_ (harmless_close currentfd)
    obtain ⟨hfree, ino, rfl⟩ := opens_old hcreat hno hopens
    exact recheck_leaves (hholds.handed hfree rfl hsteps') fun _ _ hfd hnode => truncateOpened_leaves hfd hnode htrunc

/-- What was not there is created, and nothing fails behind that. -/
theorem openLast_leaves_new (h : Holds before currentfd dir w) (hexcl : flags.excl = true)
    (hcreat : flags.creat = true) (hagain : ∀ w₁, Holds before currentfd dir w₁ → Leaves emptying before w₁ again) :
    Leaves emptying before w (openLast orig_flags create_perms p_uid again currentfd component final_size none false
      flags) := by
  rintro w₁ opened w₂ hsteps hopens
  have hholds := h.steps hsteps
  cases opened with
  | error errno =>
    refine Leaves.behind ?_ (harmless_refused _ _ _ _ errno)
    cases hopens with
    | refused _ =>
      dsimp only
      split
      · exact hagain w₁ hholds
      · exact fail_leaves hholds errno
  | ok fd =>
    cases hopens with
    | existing _ _ _ _ hnot _ => simp [hcreat, hexcl] at hnot
    | truncating _ _ _ _ hnot _ _ _ => simp [hcreat, hexcl] at hnot
    | @created start dir' ino gid name _ hnone _ _ _ _ hfree =>
      rintro w₃ _ _ hsteps' rfl w' hsteps''
      have hfd := (hholds.handed hfree rfl hsteps').steps hsteps''
      exact ⟨hfd.free, ino, hfd.fds, fun _ => .created List.mem_cons_self hnone⟩

variable (hempty : emptying → savesTrunc orig_flags = true)
include hempty

section Attempts

variable (hdefined : ¬ TruncatesUnwritable orig_flags)
include hdefined

theorem attempt_leaves (hflags : Restricts orig_flags flags) (h : Holds before currentfd dir w)
    (hagain : ∀ w₁, Holds before currentfd dir w₁ → Leaves emptying before w₁ again) :
    Leaves emptying before w (attempt orig_flags create_perms p_uid again currentfd component final_size flags) := by
  have hflags' := hflags.withoutTrunc
  have hno := withoutTrunc_trunc hflags hdefined
  have hcreat : (withoutTrunc orig_flags flags).creat = flags.creat := hflags'.creat.trans hflags.creat.symm
  have hexcl : (withoutTrunc orig_flags flags).excl = flags.excl := hflags'.excl.trans hflags.excl.symm
  rw [← hcreat, ← hexcl] at hno
  unfold attempt
  dsimp only
  generalize withoutTrunc orig_flags flags = flags at hno
  rintro w₁ answer w₂ hsteps hserves
  refine Leaves.behind ?_ (harmless_fstatat currentfd _ answer)
  have hholds : Holds before currentfd dir w₂ := by
    obtain ⟨rfl, -⟩ := hserves
    exact h.steps hsteps
  cases answer with
  | error errno =>
    dsimp only
    split
    · exact fail_leaves hholds errno
    · rename_i hnew
      refine openLast_leaves_new hholds rfl ?_ hagain
      by_contra hcreat
      have hcreat' : flags.creat = false := Bool.eq_false_iff.mpr hcreat
      exact hnew (by simp [hcreat'])
  | ok stat_before =>
    dsimp only
    split
    · exact fail_leaves hholds _
    · rename_i hboth
      exact openLast_leaves_old hholds rfl (hno hboth) hempty hagain

theorem attempts_leaves (left : ℕ) : ∀ {w : World} {flags : OpenFlags}, Restricts orig_flags flags →
    Holds before currentfd dir w →
    Leaves emptying before w (attempts orig_flags create_perms p_uid currentfd component final_size left flags) := by
  induction left with
  | zero => exact fun hflags h => attempt_leaves hempty hdefined hflags h fun _ hholds => fail_leaves hholds _
  | succ left ih => exact fun hflags h => attempt_leaves hempty hdefined hflags h fun _ => ih (.refl _)

end Attempts

/-- The components are passed one after the other. With none of them nothing is truncated. -/
theorem openComponents_leaves (comps : List Component) (hcomps : comps = [] → ¬ emptying)
    (hdefined : comps ≠ [] → ¬ TruncatesUnwritable orig_flags) :
    ∀ {w : World} {currentfd : Fd} {dir : ℕ} {final_size : Option ℕ} {flags : OpenFlags}, Restricts orig_flags flags →
      Holds before currentfd dir w →
      Leaves emptying before w (openComponents orig_flags create_perms p_uid currentfd final_size flags comps) := by
  induction comps with
  | nil => exact fun _ h => done_leaves h (hcomps rfl)
  | cons component rest ih =>
    intro w currentfd dir final_size flags hflags h
    cases rest with
    | nil => exact attempts_leaves hempty (hdefined (List.cons_ne_nil _ _)) 3 hflags h
    | cons second rest =>
      have hdefined' : second :: rest ≠ [] → ¬ TruncatesUnwritable orig_flags :=
        fun _ => hdefined (List.cons_ne_nil _ _)
      exact openDirectory_leaves h fun _ _ _ _ hfd => ih nofun hdefined' hflags.withoutTrunc hfd

end Rules

/-! ## Whole calls -/

/-- A path of slashes. -/
def SlashesOnly (pathname : Option Bytes) : Prop :=
  ∃ slashes, pathname = some slashes ∧ slashes ≠ [] ∧ ∀ c ∈ slashes, c = slash

/-- A path with a name in it. -/
def NamesComponent (pathname : Option Bytes) : Prop :=
  ∃ path, pathname = some path ∧ ∃ c ∈ path, c ≠ slash

theorem namesComponent_of_components (h : components (path.dropWhile (· = slash)) ≠ []) :
    NamesComponent (some path) := by
  refine ⟨path, rfl, ?_⟩
  by_contra hnone
  refine h ?_
  have hdrop : path.dropWhile (· = slash) = [] := by
    rw [List.dropWhile_eq_nil_iff]
    intro c hc
    have hslash : c = slash := by
      by_contra hne
      exact hnone ⟨c, hc, hne⟩
    simpa using hslash
  rw [hdrop, components]

theorem safeOpenCreatePerms_leaves {emptying : Prop} (w : World) (hempty : emptying → savesTrunc flags = true)
    (hslashes : SlashesOnly pathname → ¬ emptying) (hdefined : NamesComponent pathname → ¬ TruncatesUnwritable flags) :
    Leaves emptying w.fds w (safeOpenCreatePerms pathname flags create_perms) := by
  have hunopened : ∀ errno, Leaves emptying w.fds w (.done (.error errno)) :=
    fun _ _ hsteps => ⟨Elsewhere.steps hsteps, fun _ hmem => absurd hmem List.not_mem_nil⟩
  match pathname, hslashes, hdefined with
  | none, _, _ => exact hunopened _
  | some [], _, _ => exact hunopened _
  | some (c :: rest), hslashes, hdefined =>
    rw [safeOpenCreatePerms_eq]
    rintro w₁ opened w₂ hsteps hopens
    refine Leaves.behind ?_ (harmless_old opened rfl rfl)
    cases opened with
    | error errno =>
      cases hopens with
      | refused _ =>
        exact fun _ hsteps' => ⟨Elsewhere.steps (hsteps.trans hsteps'), fun _ hmem => absurd hmem List.not_mem_nil⟩
    | ok fd =>
      obtain ⟨hfree, ino, rfl⟩ := opens_old rfl rfl hopens
      have hholds : Holds w.fds fd ino (w₁.assign fd (some ino)) := by
        rw [← Elsewhere.steps hsteps]
        exact ⟨hfree, rfl⟩
      rintro w₃ euid _ hsteps' ⟨-, rfl⟩
      refine Leaves.behind ?_ (harmless_geteuid euid)
      refine openComponents_leaves hempty _ (fun hnil => hslashes ?_)
        (fun hne => hdefined (namesComponent_of_components hne)) (.refl flags) (hholds.steps hsteps')
      have hdrop : (c :: rest).dropWhile (· = slash) = [] := by
        by_contra hne
        exact components_ne_nil hne hnil
      exact ⟨c :: rest, rfl, List.cons_ne_nil _ _, fun b hb => by simpa using List.dropWhile_eq_nil_iff.mp hdrop b hb⟩

theorem spare_none : ∃ bound, ∀ fd, bound ≤ fd → (fun _ : Fd => (none : Option ℕ)) fd = none := ⟨0, fun _ _ => rfl⟩

/-- The root directory alone, of the size that a directory has. -/
def rootDirectory : World where
  fs := {
    inode := fun ino => if ino = 0 then some ⟨0, 0, 4096, .directory fun _ => none⟩ else none
    root := 0
    spare := ⟨1, fun _ hino => if_neg (Nat.ne_of_gt hino)⟩
    rooted := ⟨_, rfl, rfl⟩ }
  fds := fun _ => none
  cwd := 0
  euid := 0
  spare := spare_none

theorem opens_root : Opens rootDirectory none (ascii "/") .rdonly (.ok 3) (rootDirectory.assign 3 (some 0)) :=
  .existing rfl (.here 0) (fun _ => ⟨_, rfl, rfl⟩) (fun _ => rfl) rfl rfl

/-- A path of slashes leads to the root directory, which is opened for reading and is what it was. -/
theorem slashes_opened (flags : OpenFlags) (create_perms : ℕ) (h : SlashesOnly pathname) :
    ∃ trace w', Runs Serves Elsewhere rootDirectory (safeOpenCreatePerms pathname flags create_perms) trace w' (.ok 3) ∧
      ∀ ino, w'.fds = Function.update rootDirectory.fds 3 (some ino) → ¬ Emptied trace 3 ino := by
  obtain ⟨slashes, rfl, hne, hslashes⟩ := h
  obtain ⟨c, rest, rfl⟩ := List.exists_cons_of_ne_nil hne
  obtain rfl := hslashes c List.mem_cons_self
  have hnil : (slash :: rest).dropWhile (· = slash) = [] := by
    rw [List.dropWhile_eq_nil_iff]
    exact fun b hb => by simpa using hslashes b hb
  have hprogram := safeOpenCreatePerms_eq slash rest flags create_perms
  rw [if_pos rfl, hnil, show components [] = [] by rw [components]] at hprogram
  let w₁ := rootDirectory.assign 3 (some 0)
  have hrun : Runs Serves Elsewhere rootDirectory (safeOpenCreatePerms (some (slash :: rest)) flags create_perms)
      [⟨rootDirectory, .openat none (ascii "/") .rdonly 0, .ok 3⟩, ⟨w₁, .geteuid, 0⟩] w₁ (.ok 3) := by
    rw [hprogram]
    exact .call opens_root (.call ⟨rfl, rfl⟩ (.done _ _))
  refine ⟨_, w₁, hrun, fun ino hino hemptied => ?_⟩
  have hfd : w₁.fds 3 = some ino := by simpa using congrFun hino 3
  obtain rfl := Option.some.inj hfd
  cases hemptied with
  | created hmem hnone =>
    simp only [List.mem_cons, List.not_mem_nil, or_false, Event.mk.injEq, reduceCtorEq, false_and, and_false] at hmem
    obtain ⟨rfl, -⟩ := hmem
    cases hnone
  | truncated hlast hserves _ hsize =>
    obtain rfl := Option.some.inj hlast
    obtain ⟨-, rfl⟩ := hserves
    exact absurd (hsize _ rfl) (by decide)

/-! ## A call that truncates and fails

In a directory where every name leads back to the directory all paths are walked. The last call of `openat` truncates,
and `fstat` is refused.
-/

/-- A directory that is all there is. -/
def maze : FileSystem where
  inode := fun ino => if ino = 0 then some ⟨0, 0, 4096, .directory fun _ => some 0⟩ else none
  root := 0
  spare := ⟨1, fun _ hino => if_neg (Nat.ne_of_gt hino)⟩
  rooted := ⟨_, rfl, rfl⟩

theorem maze_inode : maze.inode 0 = some ⟨0, 0, 4096, .directory fun _ => some 0⟩ := rfl

theorem maze_resolves (follow : Bool) (names : List Bytes) : Resolves maze follow 0 names (.object 0) := by
  induction names with
  | nil => exact .here 0
  | cons name rest ih =>
    have hentry : maze.entry 0 name = some 0 := by
      rw [FileSystem.entry, maze_inode]
      exact ite_self _
    exact .enter hentry maze_inode (fun h => by cases h) ih

/-- A run that fails, with a call that truncates. -/
def MayHarm (w : World) (program : OpenProgram) : Prop :=
  ∃ trace w' errno, Runs Serves Elsewhere w program trace w' (.error errno) ∧ ∃ e ∈ trace, ¬ Harmless e

section MayHarm

variable {w w₁ : World} {currentfd : Fd}

theorem MayHarm.call {c : Call} {answer : Answer c} {next : Answer c → OpenProgram} (hserves : Serves w c answer w₁)
    (h : MayHarm w₁ (next answer)) : MayHarm w (.call c next) := by
  obtain ⟨trace, w', errno, hrun, e, he, hharm⟩ := h
  exact ⟨_, w', errno, .call hserves hrun, e, List.mem_cons_of_mem _ he, hharm⟩

/-- The process stands in the maze. -/
structure InMaze (w : World) (fd : Fd) : Prop where
  fs : w.fs = maze
  fds : w.fds fd = some 0

theorem InMaze.start (h : InMaze w currentfd) (path : Bytes) : w.start (some currentfd) path = some 0 := by
  unfold World.start
  split
  · rw [h.fs]
    rfl
  · exact h.fds

theorem InMaze.resolves (h : InMaze w currentfd) (follow : Bool) (path : Bytes) :
    Resolves w.fs follow 0 (pathComponents path) (.object 0) := by
  rw [h.fs]
  exact maze_resolves follow _

theorem InMaze.isDirectory (h : InMaze w currentfd) : w.fs.isDirectory 0 := by
  rw [h.fs]
  exact maze.rooted

theorem InMaze.fstatat (h : InMaze w currentfd) (name : Bytes) :
    Serves w (.fstatat currentfd name) (.ok ⟨0, 0, 4096⟩) w := by
  refine ⟨rfl, .inr ⟨0, 0, ⟨0, 0, 4096, .directory fun _ => some 0⟩, h.start name, h.resolves false name, ?_, rfl⟩⟩
  rw [h.fs]
  rfl

theorem InMaze.openDirectory {name : Bytes} {final_size : Option ℕ} {next : Fd → Option ℕ → OpenProgram}
    (h : InMaze w currentfd) (hnext : ∀ w₁ fd size, InMaze w₁ fd → MayHarm w₁ (next fd size)) :
    MayHarm w (openDirectory 0 currentfd name final_size next) := by
  obtain ⟨fd, hspare⟩ := w.spare
  have hfree := hspare fd le_rfl
  have hopens : Serves w (.openat (some currentfd) name .rdonly 0) (.ok fd) (w.assign fd (some 0)) :=
    .existing (h.start name) (h.resolves true name) (fun _ => h.isDirectory) (fun _ => rfl) rfl hfree
  have hne : fd ≠ currentfd := by
    rintro rfl
    rw [h.fds] at hfree
    cases hfree
  have hclosed : InMaze ((w.assign fd (some 0)).assign currentfd none) fd := by
    refine ⟨h.fs, ?_⟩
    show Function.update (Function.update w.fds fd (some 0)) currentfd none fd = some 0
    rw [Function.update_of_ne hne, Function.update_self]
  have hstat : Serves ((w.assign fd (some 0)).assign currentfd none) (.fstat fd) (.ok ⟨0, 0, 4096⟩) _ :=
    ⟨rfl, .inr ⟨0, ⟨0, 0, 4096, .directory fun _ => some 0⟩, hclosed.fds, by rw [hclosed.fs]; rfl, rfl⟩⟩
  have hclose : Serves (w.assign fd (some 0)) (.close currentfd) () _ := rfl
  exact .call (h.fstatat name) (.call hopens (.call hclose (.call hstat (hnext _ fd _ hclosed))))

theorem InMaze.attempt {again : OpenProgram} {component : Component} {final_size : Option ℕ} (h : InMaze w currentfd)
    (hflags : TruncatesUnwritable flags) :
    MayHarm w (attempt flags create_perms 0 again currentfd component final_size flags) := by
  obtain ⟨htrunc, hwrites, hboth⟩ := hflags
  have hsaves : savesTrunc flags = false := by rw [savesTrunc, hwrites, Bool.false_and]
  have hsame : withoutTrunc flags flags = flags := if_neg (by rw [hsaves]; exact Bool.false_ne_true)
  obtain ⟨fd, hspare⟩ := w.spare
  have hfree := hspare fd le_rfl
  have hopens : Serves w (.openat (some currentfd) (component.name ++ component.slashes) { flags with creat := false }
      create_perms) (.ok fd) ({ w with fs := w.fs.truncate 0 0 }.assign fd (some 0)) :=
    .truncating (h.start _) (h.resolves true _) (fun _ => h.isDirectory) (fun _ => rfl) rfl htrunc hwrites hfree
  have hclose : ∀ w fd, Serves w (.close fd) () (w.assign fd none) := fun _ _ => rfl
  have hstat : ∀ w, Serves w (.fstat fd) (.error .eacces) w := fun w => ⟨rfl, .inl ⟨.eacces, rfl, nofun⟩⟩
  unfold Files.attempt
  rw [hsame]
  refine .call (h.fstatat component.name) ?_
  dsimp only
  rw [hboth, if_neg Bool.false_ne_true]
  refine ⟨_, _, .eacces, .call hopens (.call (hclose _ _) (.call (hstat _) (.call (hclose _ _) (.done _ _)))), _,
    List.mem_cons_self, fun hharmless => ?_⟩
  -- the size of the directory has changed
  have hfs := congrArg (fun fs => (fs.inode 0).map Inode.size) (hharmless _ hopens)
  simp [World.assign, FileSystem.truncate, h.fs, maze_inode] at hfs

theorem InMaze.openComponents (hflags : TruncatesUnwritable flags) (comps : List Component) (hcomps : comps ≠ []) :
    ∀ {w : World} {currentfd : Fd} {final_size : Option ℕ},
      InMaze w currentfd → MayHarm w (openComponents flags create_perms 0 currentfd final_size flags comps) := by
  have hsame : withoutTrunc flags flags = flags :=
    if_neg (by rw [savesTrunc, hflags.2.1, Bool.false_and]; exact Bool.false_ne_true)
  induction comps with
  | nil => exact (hcomps rfl).elim
  | cons component rest ih =>
    intro w currentfd final_size h
    cases rest with
    | nil => exact h.attempt hflags
    | cons second rest =>
      refine h.openDirectory fun w₁ fd size h₁ => ?_
      rw [hsame]
      exact ih (List.cons_ne_nil _ _) h₁

end MayHarm

/-- The maze, before the call. -/
def mazeWorld : World where
  fs := maze
  fds := fun _ => none
  cwd := 0
  euid := 0
  spare := spare_none

theorem mazeWorld_mayHarm (create_perms : ℕ) (hnames : NamesComponent pathname) (hflags : TruncatesUnwritable flags) :
    MayHarm mazeWorld (safeOpenCreatePerms pathname flags create_perms) := by
  obtain ⟨path, rfl, c, hc, hne⟩ := hnames
  cases path with
  | nil => exact absurd hc List.not_mem_nil
  | cons first rest =>
    rw [safeOpenCreatePerms_eq]
    have hstart : mazeWorld.start none (if first = slash then ascii "/" else ascii ".") = some 0 := by
      unfold World.start
      split <;> rfl
    have hopens : Serves mazeWorld (.openat none (if first = slash then ascii "/" else ascii ".") .rdonly 0) (.ok 3)
        (mazeWorld.assign 3 (some 0)) :=
      .existing hstart (maze_resolves true _) (fun _ => maze.rooted) (fun _ => rfl) rfl rfl
    have heuid : Serves (mazeWorld.assign 3 (some 0)) .geteuid 0 _ := ⟨rfl, rfl⟩
    have hcomps : components ((first :: rest).dropWhile (· = slash)) ≠ [] := by
      refine components_ne_nil fun hdrop => hne ?_
      simpa using List.dropWhile_eq_nil_iff.mp hdrop c hc
    have hinmaze : InMaze (mazeWorld.assign 3 (some 0)) 3 := ⟨rfl, rfl⟩
    exact .call hopens (.call heuid (hinmaze.openComponents hflags _ hcomps))

/-- Calls are atomic, but for the truncation of a directory that is named by slashes, and for `O_TRUNC` without write
access on what may be there. -/
theorem safeOpenCreatePerms_atomic_iff (pathname : Option Bytes) (flags : OpenFlags) (create_perms : ℕ) :
    (∀ w trace w' result, Runs Serves Elsewhere w (safeOpenCreatePerms pathname flags create_perms) trace w' result →
      Atomic (flags.trunc = true ∧ flags.writes = true) w.fds trace w' result) ↔
      ¬ (flags.trunc = true ∧ flags.writes = true ∧ SlashesOnly pathname) ∧
        ¬ (flags.trunc = true ∧ flags.writes = false ∧ (flags.creat && flags.excl) = false ∧
          NamesComponent pathname) := by
  constructor
  · refine fun h => ⟨?_, ?_⟩
    · rintro ⟨htrunc, hwrites, hslashes⟩
      obtain ⟨trace, w', hrun, hnot⟩ := slashes_opened flags create_perms hslashes
      obtain ⟨-, ino, hfds, hemptied⟩ := h _ _ _ _ hrun
      exact hnot ino hfds (hemptied ⟨htrunc, hwrites⟩)
    · rintro ⟨htrunc, hwrites, hboth, hnames⟩
      obtain ⟨trace, w', errno, hrun, e, he, hharm⟩ := mazeWorld_mayHarm create_perms hnames ⟨htrunc, hwrites, hboth⟩
      exact hharm ((h _ _ _ _ hrun).2 e he)
  · rintro ⟨hslashed, hdefined⟩ w trace w' result hrun
    refine hrun.ensures (safeOpenCreatePerms_leaves w (fun hemptying => ?_) (fun hslashes hemptying => ?_) ?_)
    · simp [savesTrunc, hemptying.1, hemptying.2]
    · exact hslashed ⟨hemptying.1, hemptying.2, hslashes⟩
    · exact fun hnames hflags => hdefined ⟨hflags.1, hflags.2.1, hflags.2.2, hnames⟩

/-- `/` opened for writing with `O_TRUNC`. -/
theorem root_not_truncated : ¬ ∀ w trace w' result,
    Runs Serves Elsewhere w (safeOpenCreatePerms (some (ascii "/")) ⟨.wronly, false, false, true⟩ 0) trace w' result →
      Atomic True w.fds trace w' result := by
  intro h
  have hslashes : SlashesOnly (some (ascii "/")) := ⟨_, rfl, by decide, fun c hc => List.mem_singleton.mp hc⟩
  obtain ⟨trace, w', hrun, hnot⟩ := slashes_opened ⟨.wronly, false, false, true⟩ 0 hslashes
  obtain ⟨-, ino, hfds, hemptied⟩ := h _ _ _ _ hrun
  exact hnot ino hfds (hemptied trivial)

end Libntech.Files
