import Libntech.Json.Element
import Libntech.Lib.Threads
import Mathlib.Data.Int.Notation

/-! # The `*at` functions by `fchdir` (`libcompat/generic_at.c`, `openat.c`, `fchownat.c`, `fchmodat.c`, `fstatat.c`,
`readlinkat.c`)

Where the system has no `openat` and the like, `generic_at_function` goes to the directory, does the work there and goes
back, under the lock `CHDIR_LOCK`. All the threads of a process share its working directory. Each call of one of the
functions is a thread here; the calls of one thread of the process are such that only run one after the other.

Locking and unlocking do not fail. `errno` and the buffers that a call fills are left out.
-/
namespace Libntech.Files.GenericAt
set_option autoImplicit false

open Libntech.Json Libntech.Lib

/-! ## Calls of the system -/

abbrev Fd := ℕ

/-- What the functions do in the directory. -/
inductive NativeCall where
  | open (pathname : Bytes) (flags mode : ℕ)
  | lchown (pathname : Bytes) (owner group : ℕ)
  | chown (pathname : Bytes) (owner group : ℕ)
  | notSupported
  | chmod (pathname : Bytes) (mode : ℕ)
  | lstat (pathname : Bytes)
  | stat (pathname : Bytes)
  | readlink (pathname : Bytes) (bufsize : ℕ)

def NativeCall.opens : NativeCall → Bool
  | .open _ _ _ => true
  | _ => false

inductive AtCall where
  | lock
  | unlock
  -- `open(".", O_RDONLY)`
  | openDot
  | fchdir (fd : Fd)
  | close (fd : Fd)
  | native (func : NativeCall)

@[reducible] def AtAnswer : AtCall → Type
  | .lock => Unit
  | .unlock => Unit
  | .openDot => Option Fd
  | .fchdir _ => Bool
  | .close _ => Unit
  | .native _ => ℤ

abbrev AtProgram := Program AtCall AtAnswer ℤ

/-! ## The functions -/

/-- `pthread_mutex_unlock(&CHDIR_LOCK)`, and then the rest. -/
def unlockThen (rest : AtProgram) : AtProgram := .call .unlock fun _ => rest

/-- The cleanup function: that of `openat` closes what it has opened, the others do nothing. -/
def cleanup (func : NativeCall) (result : ℤ) (rest : AtProgram) : AtProgram :=
  if func.opens && 0 ≤ result then .call (.close result.toNat) fun _ => rest else rest

/-- No descriptor is `AT_FDCWD`. -/
def genericAtFunction (dirfd : Option Fd) (func : NativeCall) : AtProgram :=
  .call .lock fun _ =>
    match dirfd with
    | none => .call (.native func) fun result => unlockThen (.done result)
    | some dirfd =>
      .call .openDot fun
        | none => unlockThen (.done (-1))
        | some cwd =>
          .call (.fchdir dirfd) fun
            | false => .call (.close cwd) fun _ => unlockThen (.done (-1))
            | true =>
              .call (.native func) fun result =>
                .call (.fchdir cwd) fun fchdir_ret =>
                  .call (.close cwd) fun _ =>
                    unlockThen (if fchdir_ret then .done result else cleanup func result (.done (-1)))

def openat (dirfd : Option Fd) (pathname : Bytes) (flags mode : ℕ) : AtProgram :=
  genericAtFunction dirfd (.open pathname flags mode)

/-- `nofollow` is `AT_SYMLINK_NOFOLLOW` in the flags. -/
def fchownat (dirfd : Option Fd) (pathname : Bytes) (owner group : ℕ) (nofollow : Bool) : AtProgram :=
  genericAtFunction dirfd (if nofollow then .lchown pathname owner group else .chown pathname owner group)

def fchmodat (dirfd : Option Fd) (pathname : Bytes) (mode : ℕ) (nofollow : Bool) : AtProgram :=
  genericAtFunction dirfd (if nofollow then .notSupported else .chmod pathname mode)

def fstatat (dirfd : Option Fd) (pathname : Bytes) (nofollow : Bool) : AtProgram :=
  genericAtFunction dirfd (if nofollow then .lstat pathname else .stat pathname)

def readlinkat (dirfd : Option Fd) (pathname : Bytes) (bufsize : ℕ) : AtProgram :=
  genericAtFunction dirfd (.readlink pathname bufsize)

/-! ## The process -/

/-- A descriptor: the object it is open on, and the call that has opened it. -/
structure Descriptor (ι : Type) where
  object : ℕ
  opener : Option ι

/-- `cwd` is the working directory. `strayed` says that an `fchdir` has failed away from `home`, the directory that the
process was started in: no variable of the program knows that. -/
structure Process (ι F : Type) where
  cwd : ℕ
  holder : Option ι
  fds : Fd → Option (Descriptor ι)
  files : F
  strayed : Bool

section Kernel

variable {ι F : Type} (home : ℕ) (perform : ℕ → NativeCall → F → ℤ → F → Prop)

/-- The kernel answers the call of a thread. `perform` is what the system does with a call in a directory; a file it
opens gets a free descriptor. -/
def Serves (i : ι) (w : Process ι F) : (c : AtCall) → AtAnswer c → Process ι F → Prop
  | .lock, _, w' => w.holder = none ∧ w' = { w with holder := some i }
  | .unlock, _, w' => w' = { w with holder := none }
  | .openDot, answer, w' =>
    (answer = none ∧ w' = w) ∨
      ∃ fd, answer = some fd ∧ w.fds fd = none ∧
        w' = { w with fds := Function.update w.fds fd (some ⟨w.cwd, some i⟩) }
  | .fchdir fd, answer, w' =>
    (answer = false ∧ w' = { w with strayed := w.strayed || decide (w.cwd ≠ home) }) ∨
      ∃ d, w.fds fd = some d ∧ answer = true ∧ w' = { w with cwd := d.object }
  | .close fd, _, w' => w' = { w with fds := Function.update w.fds fd none }
  | .native .notSupported, answer, w' => answer = -1 ∧ w' = w
  | .native func, answer, w' =>
    ∃ files, perform w.cwd func w.files answer files ∧
      if func.opens = true ∧ 0 ≤ answer then
        w.fds answer.toNat = none ∧ ∃ object,
          w' = { w with files := files, fds := Function.update w.fds answer.toNat (some ⟨object, some i⟩) }
      else w' = { w with files := files }

end Kernel

end Libntech.Files.GenericAt
