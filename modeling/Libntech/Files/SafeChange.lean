import Libntech.Files.FileLock
import Libntech.Glob.FileTree

/-! # safe_chown, safe_lchown, safe_chmod and safe_chdir (`libutils/file_lib.c`)

They are built on `safe_open`, whose calls are among theirs. Results are `errno`, or that the call was done.
-/
namespace Libntech.Files
set_option autoImplicit false

open Libntech.Json
open Libntech.Glob (basename)
open Libntech.Lib (Program)

/-! ## Calls -/

/-- What is read of `st_mode`. -/
inductive LeafType where
  | symlink
  | fifo
  | socket
  | other
  deriving DecidableEq

structure LeafStat where
  uid : ℕ
  gid : ℕ
  size : ℕ
  type : LeafType

/-- The calls of `safe_open`, and those besides. `fstatat` is called with `AT_SYMLINK_NOFOLLOW`, `fchmodat` without. -/
inductive ChangeCall where
  | plain (c : Call)
  | fstatat (dirfd : Fd) (path : Bytes)
  | readlinkat (dirfd : Fd) (path : Bytes) (bufsiz : ℕ)
  | fchownat (dirfd : Fd) (path : Bytes) (owner group : ℕ) (nofollow : Bool)
  | fchmodat (dirfd : Fd) (path : Bytes) (mode : ℕ)
  | fchmod (fd : Fd) (mode : ℕ)
  | fchdir (fd : Fd)
  | seteuid (uid : ℕ)

@[reducible] def ChangeAnswer : ChangeCall → Type
  | .plain c => Answer c
  | .fstatat _ _ => Except Errno LeafStat
  | .readlinkat _ _ _ => Except Errno Bytes
  | .fchownat _ _ _ _ _ => Except Errno Unit
  | .fchmodat _ _ _ => Except Errno Unit
  | .fchmod _ _ => Except Errno Unit
  | .fchdir _ => Except Errno Unit
  | .seteuid _ => Except Errno Unit

abbrev ChangeProgram := Program ChangeCall ChangeAnswer

def eloop : Errno := .other 40

def symlinkMaxDepth : ℕ := 32

/-- `safe_open` -/
def plainOpen (pathname : Bytes) (flags : OpenFlags) : ChangeProgram (Except Errno Fd) :=
  (safeOpen (some pathname) flags).embed .plain fun _ answer => answer

/-- `close(fd); return ret;` -/
def closing {α : Type} (fd : Fd) (ret : α) : ChangeProgram α := .call (.plain (.close fd)) fun _ => .done ret

def safeChdir (path : Bytes) : ChangeProgram (Except Errno Unit) :=
  (plainOpen path .rdonly).bind fun
    | .error errno => .done (.error errno)
    | .ok fd => .call (.fchdir fd) fun changed => closing fd changed

/-! ## The parent directory -/

/-- `dirname` -/
def dirname (path : Bytes) : Bytes :=
  let trimmed := path.reverse.dropWhile (· = slash)
  let front := trimmed.dropWhile (· ≠ slash)
  if path = [] then ascii "."
  else if trimmed = [] then [slash]
  else if front = [] then ascii "."
  else if front.dropWhile (· = slash) = [] then [slash]
  else (front.dropWhile (· = slash)).reverse

/-- The descriptor and the true leaf. -/
abbrev ParentProgram := ChangeProgram (Except Errno Fd × Bytes)

section

variable (nofollow : Bool)

/-- "Some attacks may use symlinks to get higher privileges": whether what was found behind a link is refused. -/
def refusesLink (p_uid link_user link_group : ℕ) (traversed_link : Bool) (statbuf : LeafStat) : Bool :=
  traversed_link && link_user ≠ 0 && link_user ≠ p_uid && (link_user ≠ statbuf.uid || link_group ≠ statbuf.gid)

/-- One invocation. `follow` is the one for the target of a link; there is none left if the countdown is over. -/
def openParent (follow : Option (LeafStat → Bytes → ParentProgram)) (path : Bytes) (link_user link_group : ℕ)
    (traversed_link : Bool) : ParentProgram :=
  let parent_dir := dirname path
  let leaf := basename path
  .call (.plain .geteuid) fun p_uid =>
    (plainOpen parent_dir .rdonly).bind fun
      | .error errno => .done (.error errno, leaf)
      | .ok dirfd =>
        .call (.fstatat dirfd leaf) fun
          | .error errno => closing dirfd (.error errno, leaf)
          | .ok statbuf =>
            if refusesLink p_uid link_user link_group traversed_link statbuf then closing dirfd (.error .enolink, leaf)
            else if statbuf.type = .symlink ∧ nofollow = false then
              match follow with
              | none => closing dirfd (.error eloop, leaf)
              | some follow =>
                .call (.readlinkat dirfd leaf (statbuf.size + 1)) fun
                  | .error _ => closing dirfd (.error .enolink, leaf)
                  | .ok link =>
                    if statbuf.size < link.length then closing dirfd (.error .enolink, leaf)
                    else
                      let resolved_link := if link.head? = some slash then link else parent_dir ++ slash :: link
                      (follow statbuf resolved_link).bind fun ret => closing dirfd ret
            else .done (.ok dirfd, leaf)

def safeOpenTrueParentDir (loop_countdown : ℕ) (path : Bytes) (link_user link_group : ℕ) (traversed_link : Bool) :
    ParentProgram :=
  match loop_countdown with
  | 0 => openParent nofollow none path link_user link_group traversed_link
  | 1 => openParent nofollow none path link_user link_group traversed_link
  | loop_countdown + 2 =>
    openParent nofollow
      (some fun statbuf resolved_link =>
        safeOpenTrueParentDir (loop_countdown + 1) resolved_link statbuf.uid statbuf.gid true)
      path link_user link_group traversed_link

end

/-! ## The changes -/

def safeChownImpl (path : Bytes) (owner group : ℕ) (nofollow : Bool) : ChangeProgram (Except Errno Unit) :=
  (safeOpenTrueParentDir nofollow symlinkMaxDepth path 0 0 false).bind fun (opened, true_leaf) =>
    match opened with
    | .error errno => .done (.error errno)
    | .ok dirfd =>
      let leaf := if nofollow then basename path else true_leaf
      .call (.fchownat dirfd leaf owner group true) fun ret => closing dirfd ret

def safeChown (path : Bytes) (owner group : ℕ) : ChangeProgram (Except Errno Unit) := safeChownImpl path owner group false
def safeLchown (path : Bytes) (owner group : ℕ) : ChangeProgram (Except Errno Unit) := safeChownImpl path owner group true

/-- For a FIFO or a socket the effective user is its owner for the call. No result is `ProgrammingError`. -/
def changeAsOwner (dirfd : Fd) (leaf : Bytes) (mode : ℕ) (statbuf : LeafStat) : ChangeProgram (Option (Except Errno Unit)) :=
  .call (.plain .geteuid) fun olduid =>
    .call (.seteuid statbuf.uid) fun
      | .error errno => closing dirfd (some (.error errno))
      | .ok _ =>
        .call (.fchmodat dirfd leaf mode) fun ret =>
          .call (.seteuid olduid) fun
            | .error _ => .done none
            | .ok _ => closing dirfd (some ret)

def safeChmod (path : Bytes) (mode : ℕ) : ChangeProgram (Option (Except Errno Unit)) :=
  (safeOpenTrueParentDir false symlinkMaxDepth path 0 0 false).bind fun (opened, leaf_alloc) =>
    match opened with
    | .error errno => .done (some (.error errno))
    | .ok dirfd =>
      let leaf := basename leaf_alloc
      .call (.fstatat dirfd leaf) fun
        | .error errno => closing dirfd (some (.error errno))
        | .ok statbuf =>
          if statbuf.type = .fifo ∨ statbuf.type = .socket then changeAsOwner dirfd leaf mode statbuf
          else
            (plainOpen path .rdonly).bind fun
              | .error errno => closing dirfd (some (.error errno))
              | .ok file_fd =>
                .call (.fchmod file_fd mode) fun ret =>
                  .call (.plain (.close file_fd)) fun _ => closing dirfd (some ret)

end Libntech.Files
