import Libntech.Json.Element
import Libntech.Lib.Terminated
import Mathlib.Data.List.Nodup

/-! # A tree of files (`libutils/file_lib.c`, `libutils/path.c`)

What the kernel and the functions around it show of a tree without symbolic links in which every directory can be read:
an entry is what it resolves to. The kernel refuses an empty path and one of `PATH_MAX` bytes or more.
-/
namespace Libntech.Glob
set_option autoImplicit false

open Libntech.Json

def slash : UInt8 := '/'.toUInt8
def dot : Bytes := ascii "."
def dotDot : Bytes := ascii ".."

/-! ## File types -/

inductive FileType where
  | regular
  | directory
  | socket
  | fifo
  | charDevice
  | blockDevice
  deriving DecidableEq

/-- The file type bits of `st_mode`. -/
def FileType.mode : FileType → ℕ
  | .regular => 0x8000
  | .directory => 0x4000
  | .socket => 0xC000
  | .fifo => 0x1000
  | .charDevice => 0x2000
  | .blockDevice => 0x6000

/-- `S_IFDIR` -/
def sIfdir : ℕ := 0x4000

/-- The test of `PathWalk`. -/
def FileType.hasDirBit (type : FileType) : Bool := type.mode &&& sIfdir != 0

theorem FileType.hasDirBit_iff (type : FileType) :
    type.hasDirBit = true ↔ type = .directory ∨ type = .socket ∨ type = .blockDevice := by
  cases type <;> decide

/-! ## Trees -/

/-- A name of an entry. The special entries of a directory are not among them. -/
structure IsName (name : Bytes) : Prop where
  nonempty : name ≠ []
  noSlash : slash ∉ name
  noNul : 0 ∉ name
  notDot : name ≠ dot
  notDotDot : name ≠ dotDot

/-- The way down from the root. -/
abbrev Position := List Bytes

structure FileTree where
  type : Position → Option FileType
  /-- The entries of a directory, in the order in which they are read. -/
  entries : Position → List Bytes
  cwd : Position
  root : type [] = some .directory
  cwd_directory : type cwd = some .directory
  parent : ∀ p name, (type (p ++ [name])).isSome → type p = some .directory
  mem_entries : ∀ p name, name ∈ entries p ↔ (type (p ++ [name])).isSome
  nodup : ∀ p, (entries p).Nodup
  names : ∀ p, ∀ name ∈ entries p, IsName name

namespace FileTree

variable (T : FileTree)

/-! ## Paths -/

/-- One component of a path. An empty one is between two separators. -/
def enter (p : Position) (name : Bytes) : Option Position :=
  if T.type p ≠ some .directory then none
  else if name = [] ∨ name = dot then some p
  else if name = dotDot then some p.dropLast
  else if (T.type (p ++ [name])).isSome then some (p ++ [name])
  else none

def pathMax : ℕ := 4096

/-- What a path names. -/
def lookup (path : Bytes) : Option Position :=
  if path = [] ∨ pathMax ≤ path.length then none
  else (path.splitOn slash).foldlM T.enter (if path.head? = some slash then [] else T.cwd)

/-- `stat`: the type of what the path names. -/
def stat (path : Bytes) : Option FileType := (T.lookup path).bind T.type

end FileTree

/-- `Path_JoinAlloc` -/
def pathJoinAlloc (dir leaf : Bytes) : Bytes :=
  if dir.getLast? = some slash then dir ++ leaf else dir ++ slash :: leaf

/-- `basename` -/
def basename (path : Bytes) : Bytes :=
  let trimmed := path.reverse.dropWhile (· = slash)
  if path = [] then dot
  else if trimmed = [] then [slash]
  else (trimmed.takeWhile (· ≠ slash)).reverse

end Libntech.Glob
