import Libntech.Files.Kernel

/-! # safe_open_create_perms (`libutils/file_lib.c`)

The branch that is built on neither Windows nor Android, as a program over the system calls. `errno` and the returned
descriptor are the result. Built without assertions: behind the first one the function goes on with `O_TRUNC` and
without write access; the others hold (`trunc` is left set only where `fstat` gave a size).
-/
namespace Libntech.Files
set_option autoImplicit false

open Libntech.Json
open Libntech.Lib (Program)

abbrev OpenProgram := Program Call Answer (Except Errno Fd)

/-! ## The components of a path -/

/-- A component, and the slashes behind it that are put back when it is opened. -/
structure Component where
  name : Bytes
  slashes : Bytes

/-- What the loop cuts from `next_component`, turn by turn. Double slashes are eliminated; where nothing is behind them,
`restore_slash` has the component keep them. -/
def components (next_component : Bytes) : List Component :=
  match next_component with
  | [] => []
  | c :: tail =>
    let behind := tail.dropWhile (· ≠ slash)
    let next := behind.dropWhile (· = slash)
    ⟨c :: tail.takeWhile (· ≠ slash), if next = [] then behind else []⟩ :: components next
termination_by next_component.length
decreasing_by
  have hbehind := (List.dropWhile_suffix (· ≠ slash) (l := tail)).length_le
  have hnext := (List.dropWhile_suffix (· = slash) (l := tail.dropWhile (· ≠ slash))).length_le
  rw [List.length_cons]
  exact Nat.lt_succ_of_le (Nat.le_trans hnext hbehind)

/-! ## The checks -/

/-- `bool p_uid; p_uid = geteuid();` -/
def pUid (euid : ℕ) : ℕ := if euid = 0 then 0 else 1

/-- The condition under which a symlink is not followed. -/
def untrusted (p_uid : ℕ) (stat_before stat_after : Stat) : Bool :=
  stat_before.uid ≠ 0 && stat_before.uid ≠ p_uid &&
    (stat_before.uid ≠ stat_after.uid || stat_before.gid ≠ stat_after.gid)

/-- `close(currentfd); return -1;` -/
def fail (currentfd : Fd) (errno : Errno) : OpenProgram :=
  .call (.close currentfd) fun _ => .done (.error errno)

/-- "If file did exist, we fstat() again and compare with previous." -/
def recheck (p_uid : ℕ) (currentfd : Fd) (stat_before : Option Stat) (final_size : Option ℕ)
    (next : Option ℕ → OpenProgram) : OpenProgram :=
  match stat_before with
  | none => next final_size
  | some stat_before =>
    .call (.fstat currentfd) fun
      | .error errno => fail currentfd errno
      | .ok stat_after =>
        if untrusted p_uid stat_before stat_after then fail currentfd .enolink else next (some stat_after.size)

/-- The end of the function; no size is `(size_t) -1`. -/
def truncateOpened (trunc : Bool) (currentfd : Fd) (final_size : Option ℕ) : OpenProgram :=
  if trunc then
    if final_size ≠ some 0 then
      .call (.ftruncate currentfd 0) fun
        | .error errno => fail currentfd errno
        | .ok _ => .done (.ok currentfd)
    else .done (.ok currentfd)
  else .done (.ok currentfd)

/-! ## The loop -/

section

variable (orig_flags : OpenFlags) (create_perms p_uid : ℕ)

/-- The value of `trunc` behind its `if`. -/
def savesTrunc : Bool := orig_flags.writes && orig_flags.trunc

def withoutTrunc (flags : OpenFlags) : OpenFlags :=
  if savesTrunc orig_flags then { flags with trunc := false } else flags

/-- A component that is not the last one. -/
def openDirectory (currentfd : Fd) (name : Bytes) (final_size : Option ℕ) (next : Fd → Option ℕ → OpenProgram) :
    OpenProgram :=
  .call (.fstatat currentfd name) fun
    | .error errno => fail currentfd errno
    | .ok stat_before =>
      .call (.openat (some currentfd) name .rdonly 0) fun opened =>
        .call (.close currentfd) fun _ =>
          match opened with
          | .error errno => .done (.error errno)
          | .ok new_currentfd => recheck p_uid new_currentfd (some stat_before) final_size (next new_currentfd)

/-- The last component is opened, with what `fstatat` found and the flags for it. -/
def openLast (again : OpenProgram) (currentfd : Fd) (component : Component) (final_size : Option ℕ)
    (stat_before : Option Stat) (trunc : Bool) (flags : OpenFlags) : OpenProgram :=
  .call (.openat (some currentfd) (component.name ++ component.slashes) flags create_perms) fun
    | .error errno =>
      if (stat_before.isNone && !orig_flags.excl && errno = .eexist) ||
          (stat_before.isSome && orig_flags.creat && errno = .enoent) then again
      else fail currentfd errno
    | .ok filefd =>
      .call (.close currentfd) fun _ =>
        recheck p_uid filefd stat_before final_size (truncateOpened trunc filefd)

/-- One attempt at the last component; `again` is what a race leads to. -/
def attempt (again : OpenProgram) (currentfd : Fd) (component : Component) (final_size : Option ℕ) (flags : OpenFlags) :
    OpenProgram :=
  let flags := withoutTrunc orig_flags flags
  .call (.fstatat currentfd component.name) fun
    | .error errno =>
      if errno ≠ .enoent || !flags.creat then fail currentfd errno
      else openLast orig_flags create_perms p_uid again currentfd component final_size none false
        { flags with excl := true }
    | .ok stat_before =>
      if flags.creat && flags.excl then fail currentfd .eexist
      else openLast orig_flags create_perms p_uid again currentfd component final_size (some stat_before)
        (savesTrunc orig_flags) { flags with creat := false }

/-- The last component, with so many attempts left. A new attempt starts from the original flags. -/
def attempts (currentfd : Fd) (component : Component) (final_size : Option ℕ) : ℕ → OpenFlags → OpenProgram
  | 0, flags =>
    attempt orig_flags create_perms p_uid (fail currentfd .eacces) currentfd component final_size flags
  | left + 1, flags =>
    attempt orig_flags create_perms p_uid (attempts currentfd component final_size left orig_flags) currentfd
      component final_size flags

/-- `while (next_component)` -/
def openComponents : Fd → Option ℕ → OpenFlags → List Component → OpenProgram
  | currentfd, final_size, _, [] => truncateOpened false currentfd final_size
  | currentfd, final_size, flags, [component] =>
    attempts orig_flags create_perms p_uid currentfd component final_size 3 flags
  | currentfd, final_size, flags, component :: second :: rest =>
    openDirectory p_uid currentfd component.name final_size fun new_currentfd final_size =>
      openComponents new_currentfd final_size (withoutTrunc orig_flags flags) (second :: rest)

end

/-- No path is `NULL`. -/
def safeOpenCreatePerms (pathname : Option Bytes) (flags : OpenFlags) (create_perms : ℕ) : OpenProgram :=
  match pathname with
  | none => .done (.error .einval)
  | some [] => .done (.error .enoent)
  | some (c :: rest) =>
    let first_dir := if c = slash then ascii "/" else ascii "."
    let next_component := if c = slash then rest.dropWhile (· = slash) else c :: rest
    .call (.openat none first_dir .rdonly 0) fun
      | .error errno => .done (.error errno)
      | .ok currentfd =>
        .call .geteuid fun euid =>
          openComponents flags create_perms (pUid euid) currentfd none flags (components next_component)

end Libntech.Files
