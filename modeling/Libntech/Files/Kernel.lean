import Libntech.Json.Element
import Libntech.Lib.Interaction
import Mathlib.Logic.Function.Basic

/-! # System calls on a file system

The part of the kernel's interface that `safe_open_create_perms` uses. A call may be refused with any error number but
`ENOLINK`, which `openat`, `fstatat`, `fstat` and `ftruncate` do not have. What a call that is not refused does is
defined on a file system of inodes.
-/
namespace Libntech.Files
set_option autoImplicit false

open Libntech.Json

/-! ## Calls -/

inductive Errno where
  | enoent
  | eexist
  | eacces
  | einval
  | enolink
  | other (code : ℕ)
  deriving DecidableEq

def eintr : Errno := .other 4

abbrev Fd := ℕ

inductive AccessMode where
  | rdonly
  | wronly
  | rdwr
  deriving DecidableEq

structure OpenFlags where
  access : AccessMode
  creat : Bool
  excl : Bool
  trunc : Bool

def OpenFlags.rdonly : OpenFlags := ⟨.rdonly, false, false, false⟩

/-- `O_RDWR` or `O_WRONLY` -/
def OpenFlags.writes (flags : OpenFlags) : Bool := flags.access ≠ .rdonly

structure Stat where
  uid : ℕ
  gid : ℕ
  size : ℕ

/-- The calls. No descriptor is `AT_FDCWD`; `fstatat` is called with `AT_SYMLINK_NOFOLLOW`. -/
inductive Call where
  | openat (dirfd : Option Fd) (path : Bytes) (flags : OpenFlags) (perms : ℕ)
  | fstatat (dirfd : Fd) (path : Bytes)
  | fstat (fd : Fd)
  | close (fd : Fd)
  | ftruncate (fd : Fd) (length : ℕ)
  | geteuid

@[reducible] def Answer : Call → Type
  | .openat _ _ _ _ => Except Errno Fd
  | .fstatat _ _ => Except Errno Stat
  | .fstat _ => Except Errno Stat
  | .close _ => Unit
  | .ftruncate _ _ => Except Errno Unit
  | .geteuid => ℕ

/-! ## File systems -/

inductive Kind where
  | regular
  | directory (entries : Bytes → Option ℕ)
  | symlink (target : Bytes)
  | special

structure Inode where
  uid : ℕ
  gid : ℕ
  size : ℕ
  kind : Kind

def Inode.stat (node : Inode) : Stat := ⟨node.uid, node.gid, node.size⟩

def Inode.isSymlink (node : Inode) : Bool :=
  match node.kind with
  | .symlink _ => true
  | _ => false

def Inode.isDirectory (node : Inode) : Bool :=
  match node.kind with
  | .directory _ => true
  | _ => false

/-- Inode numbers do not run out, and there is a root directory. -/
structure FileSystem where
  inode : ℕ → Option Inode
  root : ℕ
  spare : ∃ bound, ∀ ino, bound ≤ ino → inode ino = none
  rooted : ∃ node, inode root = some node ∧ node.isDirectory = true

/-- The inode number under a name; `.` is the directory itself. -/
def FileSystem.entry (fs : FileSystem) (dir : ℕ) (name : Bytes) : Option ℕ :=
  match fs.inode dir with
  | some ⟨_, _, _, .directory entries⟩ => if name = ascii "." then some dir else entries name
  | _ => none

/-- The directory entry itself: what `lstat` sees. -/
def FileSystem.lstat (fs : FileSystem) (dir : ℕ) (name : Bytes) : Option Inode :=
  (fs.entry dir name).bind fs.inode

def FileSystem.isDirectory (fs : FileSystem) (ino : ℕ) : Prop :=
  ∃ node, fs.inode ino = some node ∧ node.isDirectory = true

/-- An inode with an entry more, if it is that directory. -/
def Inode.enter (node : Inode) (name : Bytes) (ino : ℕ) : Inode :=
  match node.kind with
  | .directory entries => { node with kind := .directory (Function.update entries name (some ino)) }
  | _ => node

theorem Inode.isDirectory_enter (node : Inode) (name : Bytes) (ino : ℕ) :
    (node.enter name ino).isDirectory = node.isDirectory := by
  obtain ⟨uid, gid, size, kind⟩ := node
  cases kind <;> rfl

/-- A new regular file, with an entry for it. -/
def FileSystem.create (fs : FileSystem) (dir : ℕ) (name : Bytes) (ino uid gid : ℕ) (hfree : fs.inode ino = none) :
    FileSystem where
  inode i :=
    if i = ino then some ⟨uid, gid, 0, .regular⟩
    else if i = dir then (fs.inode i).map fun node => node.enter name ino
    else fs.inode i
  root := fs.root
  spare := by
    obtain ⟨bound, hbound⟩ := fs.spare
    refine ⟨max bound (ino + 1), fun i hi => ?_⟩
    have hnone := hbound i (Nat.le_trans (Nat.le_max_left _ _) hi)
    have hne : i ≠ ino := Nat.ne_of_gt (Nat.le_trans (Nat.le_max_right _ _) hi)
    simp [hne, hnone]
  rooted := by
    obtain ⟨node, hroot, hkind⟩ := fs.rooted
    have hne : fs.root ≠ ino := by
      intro heq
      rw [heq, hfree] at hroot
      cases hroot
    by_cases hdir : fs.root = dir
    · exact ⟨_, by rw [if_neg hne, if_pos hdir, hroot]; rfl, (node.isDirectory_enter name ino).trans hkind⟩
    · exact ⟨node, by rw [if_neg hne, if_neg hdir, hroot], hkind⟩

def FileSystem.truncate (fs : FileSystem) (ino : ℕ) (length : ℕ) : FileSystem where
  inode i := if i = ino then (fs.inode i).map fun node => { node with size := length } else fs.inode i
  root := fs.root
  spare := by
    obtain ⟨bound, hbound⟩ := fs.spare
    refine ⟨bound, fun i hi => ?_⟩
    simp [hbound i hi]
  rooted := by
    obtain ⟨node, hroot, hkind⟩ := fs.rooted
    by_cases heq : fs.root = ino
    · exact ⟨{ node with size := length }, by rw [if_pos heq, hroot]; rfl, hkind⟩
    · exact ⟨node, by rw [if_neg heq, hroot], hkind⟩

/-! ## Paths -/

def slash : UInt8 := '/'.toUInt8

/-- The parts of a path between its slashes. -/
def pathComponents : Bytes → List Bytes
  | [] => []
  | c :: rest =>
    if c = slash then pathComponents rest
    else if rest.head? = none ∨ rest.head? = some slash then [c] :: pathComponents rest
    else
      match pathComponents rest with
      | [] => [[c]]
      | name :: names => (c :: name) :: names

def isAbsolute (path : Bytes) : Bool := path.head? = some slash

/-- The parts of a symlink's target. A slash at the end asks for a directory. -/
def linkComponents (target : Bytes) : List Bytes :=
  pathComponents target ++ if target.getLast? = some slash then [ascii "."] else []

/-- Where a path leads: to an object, or to a name that is free in a directory. -/
inductive Place where
  | object (ino : ℕ)
  | vacant (dir : ℕ) (name : Bytes)

/-- Where the components of a path lead from a directory. Without `follow` a symlink in the last place is not followed.
The limit on the number of symlinks is one of the reasons to refuse a call. -/
inductive Resolves (fs : FileSystem) (follow : Bool) : ℕ → List Bytes → Place → Prop where
  | here (ino : ℕ) : Resolves fs follow ino [] (.object ino)
  | vacant {dir : ℕ} {name : Bytes} : fs.isDirectory dir → fs.entry dir name = none →
      Resolves fs follow dir [name] (.vacant dir name)
  | enter {dir ino : ℕ} {name : Bytes} {rest : List Bytes} {node : Inode} {place : Place} :
      fs.entry dir name = some ino → fs.inode ino = some node →
      (node.isSymlink = true → rest = [] ∧ follow = false) →
      Resolves fs follow ino rest place → Resolves fs follow dir (name :: rest) place
  | link {dir ino : ℕ} {name target : Bytes} {rest : List Bytes} {node : Inode} {place : Place} :
      fs.entry dir name = some ino → fs.inode ino = some node → node.kind = .symlink target →
      (rest = [] → follow = true) → target ≠ [] →
      Resolves fs follow (if isAbsolute target then fs.root else dir) (linkComponents target ++ rest) place →
      Resolves fs follow dir (name :: rest) place

/-! ## Worlds -/

/-- A file system, and a process in it. Descriptors do not run out. -/
structure World where
  fs : FileSystem
  fds : Fd → Option ℕ
  cwd : ℕ
  euid : ℕ
  spare : ∃ bound, ∀ fd, bound ≤ fd → fds fd = none

/-- A descriptor is opened or closed. -/
def World.assign (w : World) (fd : Fd) (object : Option ℕ) : World where
  fs := w.fs
  fds := Function.update w.fds fd object
  cwd := w.cwd
  euid := w.euid
  spare := by
    obtain ⟨bound, hbound⟩ := w.spare
    refine ⟨max bound (fd + 1), fun i hi => ?_⟩
    have hne : i ≠ fd := Nat.ne_of_gt (Nat.le_trans (Nat.le_max_right _ _) hi)
    rw [Function.update_of_ne hne]
    exact hbound i (Nat.le_trans (Nat.le_max_left _ _) hi)

/-- The directory that a path starts from. -/
def World.start (w : World) (dirfd : Option Fd) (path : Bytes) : Option ℕ :=
  if isAbsolute path then some w.fs.root
  else
    match dirfd with
    | none => some w.cwd
    | some fd => w.fds fd

/-- `openat`. With `O_CREAT` and `O_EXCL` a symlink at the end of the path is not followed, and what exists is not
opened. With `O_CREAT` alone the file is created where a dangling symlink leads to. A directory is not opened for
writing. What `O_TRUNC` does without write access is undefined: what is opened may be truncated or not. -/
inductive Opens (w : World) (dirfd : Option Fd) (path : Bytes) (flags : OpenFlags) : Except Errno Fd → World → Prop where
  | refused {e : Errno} : e ≠ .enolink → Opens w dirfd path flags (.error e) w
  | existing {start ino : ℕ} {fd : Fd} : w.start dirfd path = some start →
      Resolves w.fs true start (pathComponents path) (.object ino) →
      (path.getLast? = some slash → w.fs.isDirectory ino) →
      (w.fs.isDirectory ino → (flags.writes || flags.creat) = false) →
      (flags.creat && flags.excl) = false → w.fds fd = none →
      Opens w dirfd path flags (.ok fd)
        ({ w with fs := if flags.trunc && flags.writes then w.fs.truncate ino 0 else w.fs }.assign fd (some ino))
  | truncating {start ino : ℕ} {fd : Fd} : w.start dirfd path = some start →
      Resolves w.fs true start (pathComponents path) (.object ino) →
      (path.getLast? = some slash → w.fs.isDirectory ino) → (w.fs.isDirectory ino → flags.creat = false) →
      (flags.creat && flags.excl) = false → flags.trunc = true → flags.writes = false → w.fds fd = none →
      Opens w dirfd path flags (.ok fd) ({ w with fs := w.fs.truncate ino 0 }.assign fd (some ino))
  | created {start dir ino gid : ℕ} {name : Bytes} {fd : Fd} (hfree : w.fs.inode ino = none) :
      flags.creat = true → w.start dirfd path = some start →
      Resolves w.fs (!flags.excl) start (pathComponents path) (.vacant dir name) →
      path.getLast? ≠ some slash → w.fds fd = none →
      Opens w dirfd path flags (.ok fd)
        ({ w with fs := w.fs.create dir name ino w.euid gid hfree }.assign fd (some ino))

/-- The kernel answers a call. -/
def Serves (w : World) : (c : Call) → Answer c → World → Prop
  | .openat dirfd path flags _, answer, w' => Opens w dirfd path flags answer w'
  | .fstatat dirfd path, answer, w' =>
    w' = w ∧ ((∃ e, answer = .error e ∧ e ≠ .enolink) ∨
      ∃ start ino node, w.start (some dirfd) path = some start ∧
        Resolves w.fs false start (pathComponents path) (.object ino) ∧ w.fs.inode ino = some node ∧
        answer = .ok node.stat)
  | .fstat fd, answer, w' =>
    w' = w ∧ ((∃ e, answer = .error e ∧ e ≠ .enolink) ∨
      ∃ ino node, w.fds fd = some ino ∧ w.fs.inode ino = some node ∧ answer = .ok node.stat)
  | .close fd, _, w' => w' = w.assign fd none
  | .ftruncate fd length, answer, w' =>
    (w' = w ∧ ∃ e, answer = .error e ∧ e ≠ .enolink) ∨
      ∃ ino, w.fds fd = some ino ∧ w' = { w with fs := w.fs.truncate ino length } ∧ answer = .ok ()
  | .geteuid, answer, w' => answer = w.euid ∧ w' = w

/-- A step of another user `u`: what is not owned by `u`, directories with their entries, stays what it is, but for the
size of a file, and what is new is owned by `u`. Inodes without an entry stay, and so does what is open in the
process. -/
structure Interferes (u : ℕ) (w w' : World) : Prop where
  fds : w'.fds = w.fds
  cwd : w'.cwd = w.cwd
  euid : w'.euid = w.euid
  root : w'.fs.root = w.fs.root
  others : ∀ ino node, w.fs.inode ino = some node → node.uid ≠ u →
    ∃ size, w'.fs.inode ino = some { node with size := size }
  own : ∀ ino node', w'.fs.inode ino = some node' → node'.uid ≠ u → ∃ node, w.fs.inode ino = some node ∧ node.uid ≠ u
  opened : ∀ fd ino node, w.fds fd = some ino → w.fs.inode ino = some node →
    ∃ node', w'.fs.inode ino = some node' ∧ node'.uid = node.uid ∧ node'.gid = node.gid

end Libntech.Files
