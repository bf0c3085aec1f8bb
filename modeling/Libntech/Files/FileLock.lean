import Libntech.Files.Atomicity
import Libntech.Files.Swaps

/-! # File locks (`libutils/file_lib.c`, `libutils/file_lib.h`)

`ExclusiveFileLockPath` and `SharedFileLockPath` as they are built elsewhere than on Windows. The locks that others hold
are behind the answers of `fcntl`. A lock that waits may be interrupted any number of times; a program has so many turns.
-/
namespace Libntech.Files
set_option autoImplicit false

open Libntech.Json
open Libntech.Lib (Event Program Runs)
open Relation (ReflTransGen)

inductive LockType where
  | rdlck
  | wrlck

/-- With `wait` the command is `F_SETLKW`, else `F_SETLK`. The region is the whole file. -/
inductive LockCall where
  | file (c : Call)
  | fcntl (fd : ℤ) (lock_type : LockType) (wait : Bool)

@[reducible] def LockAnswer : LockCall → Type
  | .file c => Answer c
  | .fcntl _ _ _ => Except Errno Unit

def LockServes (w : World) : (c : LockCall) → LockAnswer c → World → Prop
  | .file c, answer, w' => Serves w c answer w'
  | .fcntl _ _ _, _, w' => w' = w

abbrev LockProgram := Program LockCall LockAnswer

abbrev LockTrace := List (Event World LockCall LockAnswer)

structure FileLock where
  fd : ℤ

/-- `EMPTY_FILE_LOCK` -/
def emptyFileLock : FileLock := ⟨-1⟩

/-! ## Locking -/

/-- `while (fcntl(fd, F_SETLKW, &lock_spec) == -1)` -/
def waitLoop (fd : ℤ) (lock_type : LockType) : ℕ → LockProgram (Option ℤ)
  | 0 => .done none
  | turns + 1 =>
    .call (.fcntl fd lock_type true) fun
      | .error errno => if errno ≠ eintr then .done (some (-1)) else waitLoop fd lock_type turns
      | .ok _ => .done (some 0)

def lockFD (turns : ℕ) (fd : ℤ) (lock_type : LockType) (wait : Bool) : LockProgram (Option ℤ) :=
  if wait then waitLoop fd lock_type turns
  else
    .call (.fcntl fd lock_type false) fun
      | .error _ => .done (some (-1))
      | .ok _ => .done (some 0)

def exclusiveFileLock (turns : ℕ) (lock : FileLock) (wait : Bool) : LockProgram (Option ℤ) :=
  lockFD turns lock.fd .wrlck wait

def sharedFileLock (turns : ℕ) (lock : FileLock) (wait : Bool) : LockProgram (Option ℤ) :=
  lockFD turns lock.fd .rdlck wait

/-- `S_IRUSR | S_IWUSR` -/
def cfPermsDefault : ℕ := 0o600

def safeOpen (pathname : Option Bytes) (flags : OpenFlags) : OpenProgram :=
  safeOpenCreatePerms pathname flags cfPermsDefault

/-- What the two functions share: how they open the file, and how they lock it. -/
def openAndLock (flags : OpenFlags) (fileLock : FileLock → LockProgram (Option ℤ)) (lock : FileLock)
    (fpath : Option Bytes) : LockProgram (Option (ℤ × FileLock)) :=
  ((safeOpen fpath flags).embed .file fun _ answer => answer).bind fun
    | .error _ => .done (some (-2, lock))
    | .ok fd =>
      (fileLock { lock with fd := fd }).bind fun
        | none => .done none
        | some ret => .done (some (ret, if ret ≠ 0 then { lock with fd := -1 } else { lock with fd := fd }))

/-- `O_CREAT|O_RDWR` -/
def exclusiveFileLockPath (turns : ℕ) (lock : FileLock) (fpath : Option Bytes) (wait : Bool) :
    LockProgram (Option (ℤ × FileLock)) :=
  openAndLock ⟨.rdwr, true, false, false⟩ (exclusiveFileLock turns · wait) lock fpath

/-- `O_CREAT|O_RDONLY` -/
def sharedFileLockPath (turns : ℕ) (lock : FileLock) (fpath : Option Bytes) (wait : Bool) :
    LockProgram (Option (ℤ × FileLock)) :=
  openAndLock ⟨.rdonly, true, false, false⟩ (sharedFileLock turns · wait) lock fpath

/-- The function for a type of locks. -/
def fileLockPath : LockType → ℕ → FileLock → Option Bytes → Bool → LockProgram (Option (ℤ × FileLock))
  | .wrlck => exclusiveFileLockPath
  | .rdlck => sharedFileLockPath

/-! ## Refused locks -/

/-- `fcntl` failed, and was not interrupted while it waited. -/
def Refuses : Event World LockCall LockAnswer → Prop
  | ⟨_, .fcntl _ _ wait, .error errno⟩ => ¬ (wait = true ∧ errno = eintr)
  | _ => False

def Refused (trace : LockTrace) : Prop := ∃ e ∈ trace, Refuses e

theorem not_refused_nil : ¬ Refused [] := fun ⟨_, hmem, _⟩ => absurd hmem List.not_mem_nil

variable {trace : LockTrace} {lock : FileLock} {w' : World}

theorem refused_cons {e : Event World LockCall LockAnswer} :
    Refused (e :: trace) ↔ Refuses e ∨ Refused trace := by
  simp [Refused]

theorem refused_append {trace' : LockTrace} : Refused (trace ++ trace') ↔ Refused trace ∨ Refused trace' := by
  simp [Refused, or_and_right, exists_or]

theorem not_refused_files (h : ∀ e ∈ trace, ∃ c, e.c = .file c) : ¬ Refused trace := by
  rintro ⟨⟨world, c, answer⟩, hmem, hrefuses⟩
  obtain ⟨c', rfl⟩ := h _ hmem
  exact hrefuses

section Locking

variable {fd : ℤ} {lock_type : LockType} {w : World}

/-- The descriptors stay, and a failure is one of `fcntl`. -/
def Locks (before : Fd → Option ℕ) (trace : LockTrace) (w' : World) (ret : Option ℤ) : Prop :=
  w'.fds = before ∧ ∀ r, ret = some r → (r ≠ 0 ↔ Refused trace)

theorem done_locks {before : Fd → Option ℕ} {e : Event World LockCall LockAnswer} {r : ℤ} (hfds : w.fds = before)
    (hr : r ≠ 0 ↔ Refuses e) : (Program.done (some r) : LockProgram (Option ℤ)).Ensures LockServes Elsewhere w
      fun trace => Locks before (e :: trace) := by
  refine fun w' hsteps => ⟨(Elsewhere.steps hsteps).trans hfds, fun r' hr' => ?_⟩
  obtain rfl := Option.some.inj hr'
  rw [refused_cons, hr]
  simp [not_refused_nil]

theorem waitLoop_locks (turns : ℕ) : ∀ w : World,
    (waitLoop fd lock_type turns).Ensures LockServes Elsewhere w (Locks w.fds) := by
  induction turns with
  | zero => exact fun w w' hsteps => ⟨Elsewhere.steps hsteps, nofun⟩
  | succ turns ih =>
    rintro w _ answer w₁ hsteps rfl
    have hfds := Elsewhere.steps hsteps
    cases answer with
    | ok _ => exact done_locks hfds (iff_of_false (by decide) not_false)
    | error errno =>
      dsimp only
      split
      · rename_i hne
        exact done_locks hfds (iff_of_true (by decide) fun hinterrupted => hne hinterrupted.2)
      · rename_i heq
        have hretried : ¬ Refuses ⟨w₁, .fcntl fd lock_type true, .error errno⟩ :=
          not_not.mpr ⟨rfl, not_not.mp heq⟩
        rw [← hfds]
        refine (ih w₁).mono fun trace w' ret hlocks => ⟨hlocks.1, fun r hr => ?_⟩
        rw [refused_cons, hlocks.2 r hr]
        simp [hretried]

theorem lockFD_locks (turns : ℕ) (wait : Bool) (w : World) :
    (lockFD turns fd lock_type wait).Ensures LockServes Elsewhere w (Locks w.fds) := by
  cases wait with
  | true => exact waitLoop_locks turns w
  | false =>
    rintro w₀ answer _ hsteps rfl
    have hfds := Elsewhere.steps hsteps
    cases answer with
    | ok _ => exact done_locks hfds (iff_of_false (by decide) not_false)
    | error errno => exact done_locks hfds (iff_of_true (by decide) nofun)

end Locking

/-! ## What is left open -/

/-- After a call, from the descriptors that were open before. -/
structure LockOutcome (before : Fd → Option ℕ) (trace : LockTrace) (w' : World) (ret : ℤ) (lock : FileLock) : Prop where
  unset : ret ≠ 0 → lock.fd = -1
  neutral : ret ≠ 0 → ¬ Refused trace → w'.fds = before
  leaked : Refused trace → ret ≠ 0 ∧ ∃ fd ino, before fd = none ∧ w'.fds = Function.update before fd (some ino)

theorem openAndLock_outcome {flags : OpenFlags} {fileLock : FileLock → LockProgram (Option ℤ)} {fpath : Option Bytes}
    (w : World) (hlock : lock.fd = -1) (htrunc : flags.trunc = false)
    (hlocks : ∀ lock w, (fileLock lock).Ensures LockServes Elsewhere w (Locks w.fds)) :
    (openAndLock flags fileLock lock fpath).Ensures LockServes Elsewhere w fun trace w' out =>
      ∀ ret lock', out = some (ret, lock') → LockOutcome w.fds trace w' ret lock' := by
  have hopen : (safeOpen fpath flags).Ensures Serves Elsewhere w fun _ w' opened =>
      Atomic False w.fds [] w' opened := by
    have hdefined : ¬ TruncatesUnwritable flags := fun hflags => Bool.false_ne_true (htrunc.symm.trans hflags.1)
    refine (safeOpenCreatePerms_leaves w False.elim (fun _ => not_false) fun _ => hdefined).mono fun _ w' opened h => ?_
    cases opened with
    | error errno => exact ⟨h.1, fun _ hmem => absurd hmem List.not_mem_nil⟩
    | ok fd => exact ⟨h.1, h.2.imp fun _ hino => ⟨hino.1, False.elim⟩⟩
  have hembedded : ((safeOpen fpath flags).embed LockCall.file fun _ answer => answer).Ensures LockServes Elsewhere w
      fun trace w' opened => (∀ e ∈ trace, ∃ c, e.c = .file c) ∧ Atomic False w.fds [] w' opened := by
    have hserved : ∀ w c (answer : LockAnswer (.file c)) w₁, LockServes w (.file c) answer w₁ → Serves w c answer w₁ :=
      fun _ _ _ _ hserves => hserves
    exact hopen.embed hserved
  refine (hembedded.mono fun trace w₁ opened hopened => ?_).bind
  obtain ⟨hfiles, hatomic⟩ := hopened
  have hnot := not_refused_files hfiles
  cases opened with
  | error errno =>
    intro w' hsteps ret lock' hout
    obtain ⟨rfl, rfl⟩ := Prod.mk.inj (Option.some.inj hout)
    rw [List.append_nil]
    exact ⟨fun _ => hlock, fun _ _ => (Elsewhere.steps hsteps).trans hatomic.1, fun hrefused => absurd hrefused hnot⟩
  | ok fd =>
    obtain ⟨hfree, ino, hfds, -⟩ := hatomic
    refine ((hlocks _ w₁).mono fun trace' w₂ out hlocked => ?_).bind
    obtain ⟨hkept, hret⟩ := hlocked
    cases out with
    | none => exact fun _ _ _ _ => nofun
    | some r =>
      intro w' hsteps ret lock' hout
      obtain ⟨rfl, rfl⟩ := Prod.mk.inj (Option.some.inj hout)
      have hrefused : Refused (trace ++ (trace' ++ [])) ↔ r ≠ 0 := by
        rw [List.append_nil, refused_append, or_iff_right hnot, hret r rfl]
      refine ⟨fun hne => by rw [if_pos hne], fun hne hgranted => absurd (hrefused.mpr hne) hgranted,
        fun hleak => ⟨hrefused.mp hleak, fd, ino, hfree, ?_⟩⟩
      rw [Elsewhere.steps hsteps, hkept, hfds]

theorem fileLockPath_outcome {lock_type : LockType} {turns : ℕ} {fpath : Option Bytes} {wait : Bool} {w : World}
    {ret : ℤ}
    (h : Runs LockServes Elsewhere w (fileLockPath lock_type turns emptyFileLock fpath wait) trace w' (some (ret, lock))) :
    LockOutcome w.fds trace w' ret lock := by
  cases lock_type with
  | wrlck => exact h.ensures (openAndLock_outcome w rfl rfl fun _ _ => lockFD_locks ..) ret lock rfl
  | rdlck => exact h.ensures (openAndLock_outcome w rfl rfl fun _ _ => lockFD_locks ..) ret lock rfl

theorem LockOutcome.neutral_iff {before : Fd → Option ℕ} {ret : ℤ} (h : LockOutcome before trace w' ret lock) :
    (ret ≠ 0 → lock.fd = -1 ∧ w'.fds = before) ↔ ¬ Refused trace := by
  constructor
  · intro hneutral hrefused
    obtain ⟨hne, fd, ino, hfree, hfds⟩ := h.leaked hrefused
    rw [(hneutral hne).2] at hfds
    rw [hfds, Function.update_self] at hfree
    cases hfree
  · exact fun hnot hne => ⟨h.unset hne, h.neutral hne hnot⟩

/-- Calls that fail, one after the other. -/
inductive FailedAttempts : World → List LockTrace → World → Prop where
  | nil (w : World) : FailedAttempts w [] w
  | cons {lock_type : LockType} {turns : ℕ} {fpath : Option Bytes} {wait : Bool} {w w₁ w' : World} {trace : LockTrace}
      {traces : List LockTrace} {ret : ℤ} {lock : FileLock} :
      Runs LockServes Elsewhere w (fileLockPath lock_type turns emptyFileLock fpath wait) trace w₁ (some (ret, lock)) →
      ret ≠ 0 → FailedAttempts w₁ traces w' → FailedAttempts w (trace :: traces) w'

/-- What was open stays open, and something more is open once a lock was refused. -/
theorem FailedAttempts.fds {w : World} {traces : List LockTrace} (h : FailedAttempts w traces w') :
    (∀ fd, w.fds fd ≠ none → w'.fds fd ≠ none) ∧
      ((∀ trace ∈ traces, ¬ Refused trace) → w'.fds = w.fds) ∧
      ((∃ trace ∈ traces, Refused trace) → ∃ fd, w.fds fd = none ∧ w'.fds fd ≠ none) := by
  induction h with
  | nil w => exact ⟨fun _ => id, fun _ => rfl, fun ⟨_, hmem, _⟩ => absurd hmem List.not_mem_nil⟩
  | @cons lock_type turns fpath wait w w₁ w' trace traces ret lock hrun hret _ ih =>
    obtain ⟨hstay, hnone, hsome⟩ := ih
    have houtcome := fileLockPath_outcome hrun
    have hgrown : ∀ fd, w.fds fd ≠ none → w₁.fds fd ≠ none := by
      intro fd hfd
      by_cases hrefused : Refused trace
      · obtain ⟨-, fd', ino, -, hfds⟩ := houtcome.leaked hrefused
        rw [hfds, Function.update_apply]
        split
        · exact Option.some_ne_none ino
        · exact hfd
      · rw [houtcome.neutral hret hrefused]
        exact hfd
    refine ⟨fun fd hfd => hstay fd (hgrown fd hfd), fun hall => ?_, fun ⟨trace', hmem, hrefused⟩ => ?_⟩
    · obtain ⟨hfirst, hrest⟩ := List.forall_mem_cons.mp hall
      exact (hnone hrest).trans (houtcome.neutral hret hfirst)
    · rcases List.mem_cons.mp hmem with rfl | hmem
      · obtain ⟨-, fd, ino, hfree, hfds⟩ := houtcome.leaked hrefused
        refine ⟨fd, hfree, hstay fd ?_⟩
        rw [hfds, Function.update_self]
        exact Option.some_ne_none ino
      · obtain ⟨fd, hfree, hfd⟩ := hsome ⟨trace', hmem, hrefused⟩
        exact ⟨fd, by_contra fun hopen => hgrown fd hopen hfree, hfd⟩

/-- The world after a lock on `f` was refused: `f` is open. -/
def refusedWorld : World := (((process 0 3).assign 3 (some 2)).assign 4 (some 3)).assign 3 none

/-- `EAGAIN` -/
def refusedTrace : LockTrace :=
  let w₁ := (process 0 3).assign 3 (some 2)
  let w₂ := w₁.assign 4 (some 3)
  [⟨process 0 3, .file (.openat none (ascii ".") .rdonly 0), .ok 3⟩, ⟨w₁, .file .geteuid, 0⟩,
    ⟨w₁, .file (.fstatat 3 (ascii "f")), .ok ⟨0, 0, 5⟩⟩,
    ⟨w₁, .file (.openat (some 3) (ascii "f" ++ []) ⟨.rdwr, false, false, false⟩ cfPermsDefault), .ok 4⟩,
    ⟨w₂, .file (.close 3), ()⟩, ⟨refusedWorld, .file (.fstat 4), .ok ⟨0, 0, 5⟩⟩,
    ⟨refusedWorld, .fcntl 4 .wrlck false, .error (.other 11)⟩]

theorem runs_refused : Runs LockServes Elsewhere (process 0 3)
    (fileLockPath .wrlck 0 emptyFileLock (some (ascii "f")) false) refusedTrace refusedWorld (some (-1, ⟨-1⟩)) := by
  have hleads : Resolves (files 3) true 2 [ascii "f"] (.object 3) := .enter rfl rfl nofun (.here 3)
  have hexamined : Serves ((process 0 3).assign 3 (some 2)) (.fstatat 3 (ascii "f")) (.ok ⟨0, 0, 5⟩) _ :=
    ⟨rfl, .inr ⟨2, 3, ⟨0, 0, 5, .regular⟩, rfl, .enter rfl rfl nofun (.here 3), rfl, rfl⟩⟩
  have hfile : ¬ (files 3).isDirectory 3 := by
    rintro ⟨node, hnode, hdirectory⟩
    obtain rfl := Option.some.inj hnode
    cases hdirectory
  have hopen : Serves ((process 0 3).assign 3 (some 2))
      (.openat (some 3) (ascii "f" ++ []) ⟨.rdwr, false, false, false⟩ cfPermsDefault) (.ok 4)
        (((process 0 3).assign 3 (some 2)).assign 4 (some 3)) :=
    .existing rfl hleads nofun (fun hdirectory => absurd hdirectory hfile) rfl rfl
  have hstat : Serves refusedWorld (.fstat 4) (.ok ⟨0, 0, 5⟩) refusedWorld :=
    ⟨rfl, .inr ⟨3, ⟨0, 0, 5, .regular⟩, rfl, rfl, rfl⟩⟩
  rw [fileLockPath, exclusiveFileLockPath, openAndLock, safeOpen, safeOpenCreatePerms_f]
  refine .call (opens_dot 0 3) (.call ⟨rfl, rfl⟩ (.call hexamined (.call hopen (.call rfl (.call hstat ?_)))))
  exact .call rfl (.done _ _)

/-- A call leaves no descriptor behind and no number in the lock, unless the lock is refused; and so do any number of
calls that fail. -/
theorem fileLockPath_neutral_iff (w w' : World) :
    (∀ (lock_type : LockType) (turns : ℕ) (fpath : Option Bytes) (wait : Bool) (trace : LockTrace) (ret : ℤ)
      (lock : FileLock),
      Runs LockServes Elsewhere w (fileLockPath lock_type turns emptyFileLock fpath wait) trace w' (some (ret, lock)) →
      ((ret ≠ 0 → lock.fd = -1 ∧ w'.fds = w.fds) ↔ ¬ Refused trace)) ∧
    ∀ traces : List LockTrace, FailedAttempts w traces w' →
      (w'.fds = w.fds ↔ ∀ trace ∈ traces, ¬ Refused trace) := by
  refine ⟨fun _ _ _ _ _ _ _ hrun => (fileLockPath_outcome hrun).neutral_iff, fun traces h => ?_⟩
  obtain ⟨-, hnone, hsome⟩ := h.fds
  refine ⟨fun hsame trace hmem hrefused => ?_, hnone⟩
  obtain ⟨fd, hfree, hfd⟩ := hsome ⟨trace, hmem, hrefused⟩
  rw [hsame] at hfd
  exact hfd hfree

/-- The lock on `f` refused. -/
theorem fileLockPath_neutral_iff_f :
    (((-1 : ℤ) ≠ 0 → (-1 : ℤ) = -1 ∧ refusedWorld.fds = (process 0 3).fds) ↔ ¬ Refused refusedTrace) ∧
      (refusedWorld.fds = (process 0 3).fds ↔ ∀ trace ∈ [refusedTrace], ¬ Refused trace) :=
  ⟨(fileLockPath_neutral_iff _ _).1 .wrlck 0 _ false _ _ _ runs_refused,
    (fileLockPath_neutral_iff _ _).2 _ (.cons runs_refused (by decide) (.nil _))⟩

/-- Descriptor 4 is still open, and no lock knows it. -/
theorem refused_left_open : ∃ trace w', Runs LockServes Elsewhere (process 0 3)
    (exclusiveFileLockPath 0 emptyFileLock (some (ascii "f")) false) trace w' (some (-1, ⟨-1⟩)) ∧
      (process 0 3).fds 4 = none ∧ w'.fds 4 ≠ none :=
  ⟨_, _, runs_refused, rfl, Option.some_ne_none 3⟩

end Libntech.Files
