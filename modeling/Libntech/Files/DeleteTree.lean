import Libntech.Files.Kernel
import Libntech.Glob.FileTree
import Mathlib.Algebra.Order.Ring.Nat

/-! # Deleting a tree of files (`libutils/file_lib.c`)

A place is a list of names, from the entry up. The kernel may refuse to open a directory, to look at an entry or to remove it;
then the error number is not `ENOENT`. Nobody else changes the tree.
-/
namespace Libntech.Files.DeleteTree
set_option autoImplicit false

open Libntech.Json (Bytes ascii)
open Libntech.Glob (IsName dot dotDot FileTree.pathMax)

/-! ## Trees -/

abbrev Place := List Bytes

/-- Symbolic links are among the other things: `lstat` does not follow them. -/
inductive Kind where
  | directory
  | other
  deriving DecidableEq

abbrev Tree := Place → Option Kind

/-- What the kernel does with paths, in which order directories are read, and what is refused. -/
structure Host where
  place : Bytes → Option Place
  order : Place → List Bytes
  openRefused : Place → Bool
  statRefused : Place → Bool
  removeRefused : Place → Bool
  joins : ∀ path p name, place path = some p → IsName name → path.length + name.length + 1 < FileTree.pathMax →
    place (path ++ Glob.slash :: name) = some (name :: p)
  nodup : ∀ p, (order p).Nodup

variable (host : Host)

/-- The entries of a directory. -/
def entries (tree : Tree) (p : Place) : List Bytes := (host.order p).filter fun name => (tree (name :: p)).isSome

def remove (tree : Tree) (p : Place) : Tree := fun q => if q = p then none else tree q

/-! ## Calls -/

/-- What a path names. -/
def find (tree : Tree) (path : Bytes) : Except Errno (Place × Kind) :=
  if FileTree.pathMax ≤ path.length then .error (.other 36)
  else
    match (host.place path).bind fun p => (tree p).map fun kind => (p, kind) with
    | none => .error .enoent
    | some found => .ok found

/-- `DirOpen`, and the entries that `DirRead` gives. -/
def dirOpen (tree : Tree) (path : Bytes) : Except Errno (List Bytes) := do
  let (p, kind) ← find host tree path
  if kind = .other then throw (.other 20)
  else if host.openRefused p then throw .eacces
  else return dot :: dotDot :: entries host tree p

def lstat (tree : Tree) (path : Bytes) : Except Errno Kind := do
  let (p, kind) ← find host tree path
  if host.statRefused p then throw .eacces else return kind

def unlink (tree : Tree) (path : Bytes) : Except Errno Tree := do
  let (p, kind) ← find host tree path
  if kind = .directory then throw (.other 21)
  else if host.removeRefused p then throw .eacces
  else return remove tree p

/-- A directory must be empty. -/
def rmdir (tree : Tree) (path : Bytes) : Except Errno Tree := do
  let (p, kind) ← find host tree path
  if kind = .other then throw (.other 20)
  else if host.removeRefused p then throw .eacces
  else if entries host tree p ≠ [] then throw (.other 39)
  else return remove tree p

/-! ## DeleteDirectoryTree -/

/-- `snprintf` into `PATH_MAX` bytes -/
def subpathOf (path name : Bytes) : Bytes := (path ++ Glob.slash :: name).take (FileTree.pathMax - 1)

/-- One turn: `failed` and the tree. -/
def deleteEntry (again : Bytes → Tree → Option (Bool × Tree)) (path : Bytes) (failed : Bool) (tree : Tree) (name : Bytes) :
    Option (Bool × Tree) :=
  if name = dot ∨ name = dotDot then some (failed, tree)
  else
    let subpath := subpathOf path name
    match lstat host tree subpath with
    | .error errno => some (if errno = .enoent then failed else true, tree)
    | .ok .directory => do
      let (deleted, tree) ← again subpath tree
      match rmdir host tree subpath with
      | .ok tree => return (failed || !deleted, tree)
      | .error _ => return (true, tree)
    | .ok .other =>
      match unlink host tree subpath with
      | .ok tree => some (failed, tree)
      | .error errno => some (if errno = .enoent then failed else true, tree)

def deleteEntries (again : Bytes → Tree → Option (Bool × Tree)) (path : Bytes) :
    List Bytes → Bool → Tree → Option (Bool × Tree)
  | [], failed, tree => some (failed, tree)
  | name :: names, failed, tree => do
    let (failed, tree) ← deleteEntry host again path failed tree name
    deleteEntries again path names failed tree

/-- As deep as `depth`. -/
def deleteDirectoryTreeInternal : ℕ → Bytes → Tree → Option (Bool × Tree)
  | 0, _, _ => none
  | depth + 1, path, tree =>
    match dirOpen host tree path with
    | .error errno => some (errno = .enoent, tree)
    | .ok names => do
      let (failed, tree) ← deleteEntries host (deleteDirectoryTreeInternal depth) path names false tree
      return (!failed, tree)

def deleteDirectoryTree (depth : ℕ) (path : Bytes) (tree : Tree) : Option (Bool × Tree) :=
  deleteDirectoryTreeInternal host depth path tree

/-! ## What stays -/

/-- Below a place, what the refusals of the kernel keep: what is in a directory that cannot be opened, what cannot be looked
at, what cannot be removed, and the directories around it. -/
inductive Kept (tree : Tree) : Place → Place → Prop where
  | closed {p x : Place} {name : Bytes} : host.openRefused p = true → name :: p <:+ x → tree x ≠ none → Kept tree p x
  | unseen {p x : Place} {name : Bytes} : host.statRefused (name :: p) = true → name :: p <:+ x → tree x ≠ none →
      Kept tree p x
  | inside {p x : Place} {name : Bytes} : Kept tree (name :: p) x → Kept tree p x
  | around {p x : Place} {name : Bytes} : Kept tree (name :: p) x → Kept tree p (name :: p)
  | refused {p : Place} {name : Bytes} : host.removeRefused (name :: p) = true → tree (name :: p) ≠ none →
      Kept tree p (name :: p)

/-- Something stays, or could not be opened. -/
def Complains (tree : Tree) (p : Place) : Prop :=
  (∃ x, Kept host tree p x) ∨ ∃ x, p <:+ x ∧ tree x = some .directory ∧ host.openRefused x = true

/-- Everything in the tree is in a directory, and has a path that the kernel takes. -/
structure Proper (tree : Tree) (path : Bytes) (p : Place) : Prop where
  place : host.place path = some p
  directory : tree p = some .directory
  parent : ∀ above name, tree (name :: (above ++ p)) ≠ none → tree (above ++ p) = some .directory
  names : ∀ above name, tree (name :: (above ++ p)) ≠ none → IsName name ∧ name ∈ host.order (above ++ p)
  fits : ∀ above, tree (above ++ p) ≠ none → path.length + (above.map fun name => name.length + 1).sum < FileTree.pathMax

/-- What is left, and what is returned. -/
structure Deleted (tree : Tree) (p : Place) (deleted : Bool) (tree' : Tree) : Prop where
  elsewhere : ∀ x, (∀ name, ¬ name :: p <:+ x) → tree' x = tree x
  kept : ∀ x, Kept host tree p x → tree' x = tree x
  gone : ∀ x name, name :: p <:+ x → ¬ Kept host tree p x → tree' x = none
  told : deleted = true ↔ ¬ Complains host tree p

variable {host}

/-! ## Calls on what is there -/

variable {c x : Place} {deleted : Bool} {tree₁ : Tree} {kind : Kind} {m : Bytes}
  {again : Bytes → Tree → Option (Bool × Tree)}

section Found

variable {tree : Tree} {path : Bytes} {p : Place}

theorem lstat_found (h : find host tree path = .ok (p, kind)) :
    lstat host tree path = if host.statRefused p then .error .eacces else .ok kind := by
  rw [lstat, h]
  rfl

theorem unlink_found (h : find host tree path = .ok (p, .other)) :
    unlink host tree path = if host.removeRefused p then .error .eacces else .ok (remove tree p) := by
  rw [unlink, h]
  rfl

theorem rmdir_found (h : find host tree path = .ok (p, .directory)) :
    rmdir host tree path =
      if host.removeRefused p then .error .eacces
      else if entries host tree p ≠ [] then .error (.other 39)
      else .ok (remove tree p) := by
  rw [rmdir, h]
  rfl

theorem dirOpen_found (h : find host tree path = .ok (p, .directory)) :
    dirOpen host tree path =
      if host.openRefused p then .error .eacces else .ok (dot :: dotDot :: entries host tree p) := by
  rw [dirOpen, h]
  rfl

end Found

/-! ## Places -/

theorem child_unique {p : Place} {n : Bytes} (hm : m :: p <:+ x) (hn : n :: p <:+ x) : m = n := by
  obtain ⟨a, rfl⟩ := hm
  obtain ⟨b, h⟩ := hn
  have hlen := congrArg List.length h
  simp only [List.length_append, List.length_cons] at hlen
  exact (List.cons.inj (List.append_inj h (by omega)).2).1.symm

theorem eq_or_below (h : c <:+ x) : x = c ∨ ∃ m, m :: c <:+ x := by
  obtain ⟨above, rfl⟩ := h
  rcases List.eq_nil_or_concat above with rfl | ⟨above, m, rfl⟩
  · exact .inl rfl
  · exact .inr ⟨m, above, by simp⟩

theorem not_below_self : ¬ m :: c <:+ c := fun h => by
  have hlen := h.length_le
  rw [List.length_cons] at hlen
  omega

theorem below_child {n : Bytes} (h : n :: c <:+ x) : c <:+ x := (List.suffix_cons n c).trans h

theorem Proper.exists_above {tree : Tree} {path : Bytes} {p : Place} (h : Proper host tree path p) (hp : p <:+ c)
    (hc : c <:+ x) (hx : tree x ≠ none) : tree c ≠ none := by
  obtain ⟨above, rfl⟩ := hp
  obtain ⟨more, rfl⟩ := hc
  induction more with
  | nil => exact hx
  | cons name more ih =>
    refine ih ?_
    rw [List.cons_append, ← List.append_assoc] at hx
    rw [← List.append_assoc, h.parent _ _ hx]
    exact Option.some_ne_none _

theorem Proper.is_directory {tree : Tree} {path : Bytes} {p : Place} (h : Proper host tree path p) (hp : p <:+ c)
    (hm : tree (m :: c) ≠ none) : tree c = some .directory := by
  obtain ⟨above, rfl⟩ := hp
  exact h.parent above m hm

/-- A directory below is proper under its own path, also when the rest of the tree has changed. -/
theorem Proper.child {tree tree' : Tree} {path : Bytes} {p : Place} (h : Proper host tree path p) {n : Bytes}
    (hn : tree (n :: p) = some .directory) (hsame : ∀ x, n :: p <:+ x → tree' x = tree x) :
    Proper host tree' (path ++ Glob.slash :: n) (n :: p) := by
  have hexists : tree (n :: ([] ++ p)) ≠ none := by rw [List.nil_append, hn]; exact Option.some_ne_none _
  have hfits := h.fits [n] (by rw [List.singleton_append, hn]; exact Option.some_ne_none _)
  have hshift : ∀ above, above ++ n :: p = above ++ [n] ++ p := by simp
  have hagree : ∀ above, tree' (above ++ n :: p) = tree (above ++ [n] ++ p) := fun above =>
    (hsame _ (List.suffix_append _ _)).trans (by rw [hshift])
  refine ⟨?_, ?_, fun above name hx => ?_, fun above name hx => ?_, fun above hx => ?_⟩
  · refine host.joins path p n h.place (h.names [] n hexists).1 ?_
    simpa [Nat.add_assoc] using hfits
  · rw [hsame _ (List.suffix_refl _), hn]
  · rw [hagree]
    refine h.parent _ name ?_
    rw [← List.cons_append, hagree] at hx
    exact hx
  · rw [hshift]
    refine h.names _ name ?_
    rw [← List.cons_append, hagree] at hx
    exact hx
  · rw [hagree] at hx
    have hlen := h.fits _ hx
    simp only [List.map_append, List.map_cons, List.map_nil, List.sum_append, List.sum_cons, List.sum_nil] at hlen
    simp only [List.length_append, List.length_cons]
    omega

/-! ## What stays -/

theorem Kept.under {tree : Tree} {p : Place} (h : Kept host tree p x) : ∃ name, name :: p <:+ x := by
  induction h with
  | @closed p x name _ hx _ => exact ⟨name, hx⟩
  | @unseen p x name _ hx _ => exact ⟨name, hx⟩
  | @inside p x name _ ih =>
    obtain ⟨m, hm⟩ := ih
    exact ⟨name, below_child hm⟩
  | @around p x name _ _ => exact ⟨name, List.suffix_refl _⟩
  | @refused p name _ _ => exact ⟨name, List.suffix_refl _⟩

theorem Kept.congr {tree tree' : Tree} {p : Place} (h : Kept host tree p x) :
    (∀ y name, name :: p <:+ y → tree y = tree' y) → Kept host tree' p x := by
  induction h with
  | closed hrefused hx hexists => exact fun hsame => .closed hrefused hx (hsame _ _ hx ▸ hexists)
  | unseen hrefused hx hexists => exact fun hsame => .unseen hrefused hx (hsame _ _ hx ▸ hexists)
  | inside _ ih => exact fun hsame => .inside (ih fun y m hy => hsame y _ (below_child hy))
  | around _ ih => exact fun hsame => .around (ih fun y m hy => hsame y _ (below_child hy))
  | refused hrefused hexists => exact fun hsame => .refused hrefused (hsame _ _ (List.suffix_refl _) ▸ hexists)

theorem kept_congr {tree tree₀ : Tree} (hsame : ∀ x, c <:+ x → tree x = tree₀ x) (x : Place) :
    Kept host tree c x ↔ Kept host tree₀ c x := by
  constructor
  · exact fun h => h.congr fun y m hy => hsame y (below_child hy)
  · exact fun h => h.congr fun y m hy => (hsame y (below_child hy)).symm

theorem Kept.entry {tree : Tree} {path : Bytes} {b : Place} (hproper : Proper host tree path b) {p : Place}
    (h : Kept host tree p x) : b <:+ p → ∃ m, Kept host tree p (m :: p) ∧ tree (m :: p) ≠ none := by
  induction h with
  | @closed p x name hrefused hx hexists =>
    intro hb
    have hname := hproper.exists_above (hb.trans (List.suffix_cons _ _)) hx hexists
    exact ⟨name, .closed hrefused (List.suffix_refl _) hname, hname⟩
  | @unseen p x name hrefused hx hexists =>
    intro hb
    have hname := hproper.exists_above (hb.trans (List.suffix_cons _ _)) hx hexists
    exact ⟨name, .unseen hrefused (List.suffix_refl _) hname, hname⟩
  | @inside p x name hkept ih | @around p x name hkept ih =>
    intro hb
    have hb' := hb.trans (List.suffix_cons name p)
    obtain ⟨m, hm, hexists⟩ := ih hb'
    exact ⟨name, .around hm, by rw [hproper.is_directory hb' hexists]; exact Option.some_ne_none _⟩
  | @refused p name hrefused hexists => exact fun _ => ⟨name, .refused hrefused hexists, hexists⟩

theorem kept_iff {tree : Tree} {p : Place} {n : Bytes} (hopen : host.openRefused p = false)
    (hstat : host.statRefused (n :: p) = false) (hx : n :: p <:+ x) :
    Kept host tree p x ↔ Kept host tree (n :: p) x ∨
      x = n :: p ∧ (host.removeRefused (n :: p) = true ∧ tree (n :: p) ≠ none ∨ ∃ y, Kept host tree (n :: p) y) := by
  constructor
  · intro h
    cases h with
    | closed hrefused _ _ => rw [hopen] at hrefused; cases hrefused
    | unseen hrefused hx' _ =>
      rw [child_unique hx' hx, hstat] at hrefused
      cases hrefused
    | inside hkept =>
      obtain ⟨m, hm⟩ := hkept.under
      rw [child_unique (below_child hm) hx] at hkept
      exact .inl hkept
    | around hkept =>
      rw [child_unique (List.suffix_refl _) hx] at hkept ⊢
      exact .inr ⟨rfl, .inr ⟨_, hkept⟩⟩
    | refused hrefused hexists =>
      rw [child_unique (List.suffix_refl _) hx] at hrefused hexists ⊢
      exact .inr ⟨rfl, .inl ⟨hrefused, hexists⟩⟩
  · rintro (hkept | ⟨rfl, ⟨hrefused, hexists⟩ | ⟨y, hkept⟩⟩)
    · exact .inside hkept
    · exact .refused hrefused hexists
    · exact .around hkept

/-! ## One entry -/

variable {tree₀ tree : Tree} {path : Bytes} {p : Place} {n : Bytes}

theorem Proper.subpath (h : Proper host tree₀ path p) (hn : tree₀ (n :: p) ≠ none) :
    subpathOf path n = path ++ Glob.slash :: n ∧ host.place (path ++ Glob.slash :: n) = some (n :: p) ∧
      (path ++ Glob.slash :: n).length < FileTree.pathMax := by
  have hfits := h.fits [n] hn
  simp only [List.map_cons, List.map_nil, List.sum_cons, List.sum_nil] at hfits
  have hlen : (path ++ Glob.slash :: n).length < FileTree.pathMax := by
    rw [List.length_append, List.length_cons]
    omega
  exact ⟨List.take_of_length_le (by omega), host.joins path p n h.place (h.names [] n hn).1 (by omega), hlen⟩

theorem find_entry (h : Proper host tree₀ path p) (hn : tree₀ (n :: p) ≠ none) (hkind : tree (n :: p) = some kind) :
    find host tree (subpathOf path n) = .ok (n :: p, kind) := by
  obtain ⟨hsub, hplace, hlen⟩ := h.subpath hn
  rw [hsub, find, if_neg (Nat.not_le.mpr hlen), hplace, Option.bind_some, hkind, Option.map_some]

theorem lstat_entry (h : Proper host tree₀ path p) (hn : tree₀ (n :: p) ≠ none) (hkind : tree (n :: p) = some kind)
    (hstat : host.statRefused (n :: p) = false) :
    lstat host tree (subpathOf path n) = .ok kind := by
  rw [lstat_found (find_entry h hn hkind), hstat, if_neg Bool.false_ne_true]

/-- What stays, or cannot be opened. -/
def Trouble (host : Host) (tree : Tree) (p x : Place) : Prop :=
  Kept host tree p x ∨ tree x = some .directory ∧ host.openRefused x = true

/-- What a turn does to the tree, whose rest may have changed since the directory was opened. -/
structure EntryDone (host : Host) (tree₀ : Tree) (p : Place) (n : Bytes) (failed : Bool) (tree : Tree) (failed' : Bool)
    (tree' : Tree) : Prop where
  elsewhere : ∀ x, ¬ n :: p <:+ x → tree' x = tree x
  kept : ∀ x, n :: p <:+ x → Kept host tree₀ p x → tree' x = tree₀ x
  gone : ∀ x, n :: p <:+ x → ¬ Kept host tree₀ p x → tree' x = none
  told : failed' = true ↔ failed = true ∨ ∃ x, n :: p <:+ x ∧ Trouble host tree₀ p x

theorem entryDone_same (hsame : ∀ x, n :: p <:+ x → tree x = tree₀ x) (failed : Bool) (hkept : Kept host tree₀ p (n :: p))
    (hall : ∀ x, n :: p <:+ x → tree₀ x ≠ none → Kept host tree₀ p x) :
    EntryDone host tree₀ p n failed tree true tree := by
  refine ⟨fun _ _ => rfl, fun x hx _ => hsame x hx, fun x hx hnot => ?_, ?_⟩
  · rw [hsame x hx]
    by_contra hexists
    exact hnot (hall x hx hexists)
  · exact ⟨fun _ => .inr ⟨_, List.suffix_refl _, .inl hkept⟩, fun _ => rfl⟩

theorem deleteOther_spec (hproper : Proper host tree₀ path p) (hopen : host.openRefused p = false)
    (hstat : host.statRefused (n :: p) = false) (hkind : tree₀ (n :: p) = some .other)
    (hsame : ∀ x, n :: p <:+ x → tree x = tree₀ x) (again : Bytes → Tree → Option (Bool × Tree)) (failed : Bool) :
    ∃ failed' tree', deleteEntry host again path failed tree n = some (failed', tree') ∧
      EntryDone host tree₀ p n failed tree failed' tree' := by
  have hn : tree₀ (n :: p) ≠ none := by rw [hkind]; exact Option.some_ne_none _
  have hname := (hproper.names [] n hn).1
  have hhere := (hsame _ (List.suffix_refl _)).trans hkind
  have hfind := find_entry hproper hn hhere
  have hlstat := lstat_entry hproper hn hhere hstat
  -- there is nothing below it
  have halone : ∀ x, n :: p <:+ x → tree₀ x ≠ none → x = n :: p := by
    intro x hx hexists
    refine (eq_or_below hx).resolve_right ?_
    rintro ⟨m, hm⟩
    have hmid := hproper.exists_above ((List.suffix_cons n p).trans (List.suffix_cons m _)) hm hexists
    rw [hproper.is_directory (List.suffix_cons n p) hmid] at hkind
    cases hkind
  cases hrefused : host.removeRefused (n :: p) with
  | true =>
    have hunlink : unlink host tree (subpathOf path n) = .error .eacces := by
      rw [unlink_found hfind, if_pos hrefused]
    refine ⟨true, tree, ?_, entryDone_same hsame failed (.refused hrefused hn) fun x hx hexists => ?_⟩
    · simp [deleteEntry, hname.notDot, hname.notDotDot, hlstat, hunlink]
    · rw [halone x hx hexists]
      exact .refused hrefused hn
  | false =>
    have hunlink : unlink host tree (subpathOf path n) = .ok (remove tree (n :: p)) := by
      rw [unlink_found hfind, hrefused, if_neg Bool.false_ne_true]
    have hnone : ∀ x, n :: p <:+ x → ¬ Kept host tree₀ p x := by
      intro x hx hkept
      have hbelow : ∀ y, ¬ Kept host tree₀ (n :: p) y := fun y hy => by
        obtain ⟨m, -, hexists⟩ := hy.entry hproper (List.suffix_cons n p)
        rw [hproper.is_directory (List.suffix_cons n p) hexists] at hkind
        cases hkind
      rcases (kept_iff hopen hstat hx).mp hkept with h | ⟨-, ⟨h, -⟩ | ⟨y, h⟩⟩
      · exact hbelow x h
      · rw [hrefused] at h
        cases h
      · exact hbelow y h
    refine ⟨failed, remove tree (n :: p), ?_, fun x hx => ?_, fun x hx h => absurd h (hnone x hx), fun x hx _ => ?_, ?_⟩
    · simp [deleteEntry, hname.notDot, hname.notDotDot, hlstat, hunlink]
    · rw [remove, if_neg]
      rintro rfl
      exact hx (List.suffix_refl _)
    · by_cases heq : x = n :: p
      · exact if_pos heq
      · rw [remove, if_neg heq, hsame x hx]
        by_contra hexists
        exact heq (halone x hx hexists)
    · refine ⟨.inl, fun h => h.resolve_right ?_⟩
      rintro ⟨x, hx, hkept | ⟨hdir, -⟩⟩
      · exact hnone x hx hkept
      · rw [halone x hx (by rw [hdir]; exact Option.some_ne_none _), hkind] at hdir
        cases hdir

/-- After the deletion below it, a directory is empty where nothing was kept. -/
theorem entries_deleted (hproper : Proper host tree₀ path p) (hc : p <:+ c) (hsame : ∀ x, c <:+ x → tree x = tree₀ x)
    (hdel : Deleted host tree c deleted tree₁) :
    entries host tree₁ c = [] ↔ ∀ y, ¬ Kept host tree₀ c y := by
  rw [entries, List.filter_eq_nil_iff]
  constructor
  · intro hempty y hkept
    obtain ⟨m, hm, hexists⟩ := hkept.entry hproper hc
    have horder : m ∈ host.order c := by
      obtain ⟨above, rfl⟩ := hc
      exact (hproper.names above m hexists).2
    refine hempty m horder ?_
    rw [hdel.kept _ ((kept_congr hsame _).mpr hm), hsame _ (List.suffix_cons m c)]
    exact Option.isSome_iff_ne_none.mpr hexists
  · intro hnone m _
    rw [hdel.gone (m :: c) m (List.suffix_refl _) fun h => hnone _ ((kept_congr hsame _).mp h)]
    exact Bool.false_ne_true

theorem Deleted.gone_inside (hsame : ∀ x, n :: p <:+ x → tree x = tree₀ x)
    (hdel : Deleted host tree (n :: p) deleted tree₁) (hx : n :: p <:+ x) (hne : x ≠ n :: p)
    (hnot : ¬ Kept host tree₀ (n :: p) x) : tree₁ x = none := by
  obtain ⟨m, hm⟩ := (eq_or_below hx).resolve_left hne
  exact hdel.gone x m hm fun h => hnot ((kept_congr hsame x).mp h)

theorem entryDone_stays (hopen : host.openRefused p = false) (hstat : host.statRefused (n :: p) = false)
    (hsame : ∀ x, n :: p <:+ x → tree x = tree₀ x) (hdel : Deleted host tree (n :: p) deleted tree₁) (failed : Bool)
    (hkept : Kept host tree₀ p (n :: p)) :
    EntryDone host tree₀ p n failed tree true tree₁ := by
  refine ⟨fun x hx => hdel.elsewhere x fun m hm => hx (below_child hm), fun x hx h => ?_, fun x hx h => ?_, ?_⟩
  · rcases (kept_iff hopen hstat hx).mp h with h | ⟨rfl, -⟩
    · rw [hdel.kept x ((kept_congr hsame x).mpr h), hsame x hx]
    · rw [hdel.elsewhere _ fun m => not_below_self, hsame _ hx]
  · refine hdel.gone_inside hsame hx ?_ fun hinside => h (.inside hinside)
    rintro rfl
    exact h hkept
  · exact ⟨fun _ => .inr ⟨_, List.suffix_refl _, .inl hkept⟩, fun _ => rfl⟩

theorem entryDone_goes (hnot : ∀ x, n :: p <:+ x → ¬ Kept host tree₀ p x) (hsame : ∀ x, n :: p <:+ x → tree x = tree₀ x)
    (hdel : Deleted host tree (n :: p) deleted tree₁) (failed : Bool) :
    EntryDone host tree₀ p n failed tree (failed || !deleted) (remove tree₁ (n :: p)) := by
  have hnone : ∀ y, ¬ Kept host tree₀ (n :: p) y := fun y hy => by
    obtain ⟨m, hm⟩ := hy.under
    exact hnot y (below_child hm) (.inside hy)
  refine ⟨fun x hx => ?_, fun x hx h => absurd h (hnot x hx), fun x hx _ => ?_, ?_⟩
  · rw [remove, if_neg]
    · exact hdel.elsewhere x fun m hm => hx (below_child hm)
    · rintro rfl
      exact hx (List.suffix_refl _)
  · by_cases heq : x = n :: p
    · exact if_pos heq
    · rw [remove, if_neg heq]
      exact hdel.gone_inside hsame hx heq (hnone x)
  · have htold : deleted = false ↔ ∃ x, n :: p <:+ x ∧ Trouble host tree₀ p x := by
      rw [← Bool.not_eq_true, hdel.told, not_not]
      constructor
      · rintro (⟨x, hkept⟩ | ⟨x, hx, hopened⟩)
        · exact absurd ((kept_congr hsame x).mp hkept) (hnone x)
        · exact ⟨x, hx, .inr (by rw [← hsame x hx]; exact hopened)⟩
      · rintro ⟨x, hx, hkept | hopened⟩
        · exact absurd hkept (hnot x hx)
        · exact .inr ⟨x, hx, by rw [hsame x hx]; exact hopened⟩
    rw [← htold]
    cases failed <;> cases deleted <;> simp

theorem deleteDirectory_spec (hproper : Proper host tree₀ path p) (hopen : host.openRefused p = false)
    (hstat : host.statRefused (n :: p) = false) (hdir : tree₀ (n :: p) = some .directory)
    (hsame : ∀ x, n :: p <:+ x → tree x = tree₀ x)
    (hcall : again (path ++ Glob.slash :: n) tree = some (deleted, tree₁))
    (hdel : Deleted host tree (n :: p) deleted tree₁) (failed : Bool) :
    ∃ failed' tree', deleteEntry host again path failed tree n = some (failed', tree') ∧
      EntryDone host tree₀ p n failed tree failed' tree' := by
  have hn : tree₀ (n :: p) ≠ none := by rw [hdir]; exact Option.some_ne_none _
  have hself : tree₁ (n :: p) = some .directory := by
    rw [hdel.elsewhere _ fun m => not_below_self, hsame _ (List.suffix_refl _), hdir]
  have hname := (hproper.names [] n hn).1
  have hfind := find_entry hproper hn hself
  have hlstat := lstat_entry hproper hn ((hsame _ (List.suffix_refl _)).trans hdir) hstat
  have hentries := entries_deleted hproper (List.suffix_cons n p) hsame hdel
  rw [← (hproper.subpath hn).1] at hcall
  cases hrefused : host.removeRefused (n :: p) with
  | true =>
    have hrmdir : rmdir host tree₁ (subpathOf path n) = .error .eacces := by
      rw [rmdir_found hfind, if_pos hrefused]
    refine ⟨true, tree₁, ?_, entryDone_stays hopen hstat hsame hdel failed (.refused hrefused hn)⟩
    simp [deleteEntry, hname.notDot, hname.notDotDot, hlstat, hcall, hrmdir]
  | false =>
    by_cases hnone : ∀ y, ¬ Kept host tree₀ (n :: p) y
    · have hrmdir : rmdir host tree₁ (subpathOf path n) = .ok (remove tree₁ (n :: p)) := by
        rw [rmdir_found hfind, hrefused, if_neg Bool.false_ne_true, if_neg (not_not.mpr (hentries.mpr hnone))]
      have hnot : ∀ x, n :: p <:+ x → ¬ Kept host tree₀ p x := by
        intro x hx hkept
        rcases (kept_iff hopen hstat hx).mp hkept with h | ⟨-, ⟨h, -⟩ | ⟨y, h⟩⟩
        · exact hnone x h
        · rw [hrefused] at h
          cases h
        · exact hnone y h
      refine ⟨failed || !deleted, remove tree₁ (n :: p), ?_, entryDone_goes hnot hsame hdel failed⟩
      simp [deleteEntry, hname.notDot, hname.notDotDot, hlstat, hcall, hrmdir]
    · have hrmdir : rmdir host tree₁ (subpathOf path n) = .error (.other 39) := by
        rw [rmdir_found hfind, hrefused, if_neg Bool.false_ne_true, if_pos (mt hentries.mp hnone)]
      obtain ⟨y, hy⟩ := not_forall_not.mp hnone
      refine ⟨true, tree₁, ?_, entryDone_stays hopen hstat hsame hdel failed (.around hy)⟩
      simp [deleteEntry, hname.notDot, hname.notDotDot, hlstat, hcall, hrmdir]

theorem deleteEntry_spec (hproper : Proper host tree₀ path p) (hopen : host.openRefused p = false)
    (hn : tree₀ (n :: p) ≠ none) (hsame : ∀ x, n :: p <:+ x → tree x = tree₀ x)
    (hagain : tree₀ (n :: p) = some .directory →
      ∃ deleted tree₁, again (path ++ Glob.slash :: n) tree = some (deleted, tree₁) ∧
        Deleted host tree (n :: p) deleted tree₁)
    (failed : Bool) :
    ∃ failed' tree', deleteEntry host again path failed tree n = some (failed', tree') ∧
      EntryDone host tree₀ p n failed tree failed' tree' := by
  obtain ⟨kind, hkind⟩ := Option.ne_none_iff_exists'.mp hn
  cases hstat : host.statRefused (n :: p) with
  | true =>
    have hname := (hproper.names [] n hn).1
    have hfind := find_entry hproper hn ((hsame _ (List.suffix_refl _)).trans hkind)
    have hlstat : lstat host tree (subpathOf path n) = .error .eacces := by
      rw [lstat_found hfind, if_pos hstat]
    refine ⟨true, tree, ?_, entryDone_same hsame failed ?_ fun x hx hexists => .unseen hstat hx hexists⟩
    · simp [deleteEntry, hname.notDot, hname.notDotDot, hlstat]
    · exact .unseen hstat (List.suffix_refl _) hn
  | false =>
    cases kind with
    | other => exact deleteOther_spec hproper hopen hstat hkind hsame again failed
    | directory =>
      obtain ⟨deleted, tree₁, hcall, hdel⟩ := hagain hkind
      exact deleteDirectory_spec hproper hopen hstat hkind hsame hcall hdel failed

/-! ## All entries -/

/-- The loop over entries of the directory, each of them as it was. -/
theorem deleteEntries_spec (hproper : Proper host tree₀ path p) (hopen : host.openRefused p = false)
    (hagain : ∀ n tree, tree₀ (n :: p) = some .directory → (∀ x, n :: p <:+ x → tree x = tree₀ x) →
      ∃ deleted tree₁, again (path ++ Glob.slash :: n) tree = some (deleted, tree₁) ∧
        Deleted host tree (n :: p) deleted tree₁)
    {names : List Bytes} (hnodup : names.Nodup) (hnames : ∀ n ∈ names, tree₀ (n :: p) ≠ none)
    (hsame : ∀ n ∈ names, ∀ x, n :: p <:+ x → tree x = tree₀ x) (failed : Bool) :
    ∃ failed' tree', deleteEntries host again path names failed tree = some (failed', tree') ∧
      (∀ x, (∀ n ∈ names, ¬ n :: p <:+ x) → tree' x = tree x) ∧
      (∀ n ∈ names, ∀ x, n :: p <:+ x →
        (Kept host tree₀ p x → tree' x = tree₀ x) ∧ (¬ Kept host tree₀ p x → tree' x = none)) ∧
      (failed' = true ↔ failed = true ∨ ∃ n ∈ names, ∃ x, n :: p <:+ x ∧ Trouble host tree₀ p x) := by
  induction names generalizing tree failed with
  | nil => exact ⟨failed, tree, rfl, fun _ _ => rfl, fun _ h => absurd h List.not_mem_nil, by simp⟩
  | cons n names ih =>
    obtain ⟨hfresh, hnodup⟩ := List.nodup_cons.mp hnodup
    have hhead := hsame n List.mem_cons_self
    obtain ⟨failed₁, tree₁, hentry, hdone⟩ := deleteEntry_spec hproper hopen (hnames n List.mem_cons_self) hhead
      (hagain n tree · hhead) failed
    have hother : ∀ m ∈ names, ∀ x, m :: p <:+ x → ¬ n :: p <:+ x := fun m hm x hx hx' =>
      hfresh (child_unique hx' hx ▸ hm)
    have hrest : ∀ m ∈ names, ∀ x, m :: p <:+ x → tree₁ x = tree₀ x := fun m hm x hx =>
      (hdone.elsewhere x (hother m hm x hx)).trans (hsame m (List.mem_cons_of_mem n hm) x hx)
    obtain ⟨failed', tree', hloop, helse, hin, htold⟩ :=
      ih hnodup (fun m hm => hnames m (List.mem_cons_of_mem n hm)) hrest failed₁
    refine ⟨failed', tree', by simp [deleteEntries, hentry, hloop], fun x hx => ?_, fun m hm x hx => ?_, ?_⟩
    · rw [helse x fun m hm => hx m (List.mem_cons_of_mem n hm), hdone.elsewhere x (hx n List.mem_cons_self)]
    · rcases List.mem_cons.mp hm with rfl | hm
      · rw [helse x fun k hk hkx => hother k hk x hkx hx]
        exact ⟨hdone.kept x hx, hdone.gone x hx⟩
      · exact hin m hm x hx
    · rw [htold, hdone.told]
      simp only [List.mem_cons, exists_eq_or_imp, or_assoc]

/-! ## The whole tree -/

theorem entries_nodup : (entries host tree p).Nodup := (host.nodup p).filter _

theorem Proper.mem_entries (h : Proper host tree path p) (n : Bytes) : n ∈ entries host tree p ↔ tree (n :: p) ≠ none := by
  rw [entries, List.mem_filter, Option.isSome_iff_ne_none]
  exact ⟨And.right, fun hn => ⟨(h.names [] n hn).2, hn⟩⟩

theorem Proper.find_path (h : Proper host tree path p) : find host tree path = .ok (p, .directory) := by
  have hlen : path.length < FileTree.pathMax := by
    simpa using h.fits [] (by rw [List.nil_append, h.directory]; exact Option.some_ne_none _)
  rw [find, if_neg (Nat.not_le.mpr hlen), h.place, Option.bind_some, h.directory, Option.map_some]

/-- In a directory that is open, the trouble is below its entries. -/
theorem Proper.complains_iff (h : Proper host tree path p) (hopen : host.openRefused p = false) :
    Complains host tree p ↔ ∃ n ∈ entries host tree p, ∃ x, n :: p <:+ x ∧ Trouble host tree p x := by
  constructor
  · rintro (⟨x, hkept⟩ | ⟨x, hx, hopened⟩)
    · obtain ⟨m, hm, hexists⟩ := hkept.entry h (List.suffix_refl p)
      exact ⟨m, (h.mem_entries m).mpr hexists, _, List.suffix_refl _, .inl hm⟩
    · rcases eq_or_below hx with rfl | ⟨m, hm⟩
      · rw [hopen] at hopened
        cases hopened.2
      · have hexists : tree x ≠ none := by rw [hopened.1]; exact Option.some_ne_none _
        have hlisted := (h.mem_entries m).mpr (h.exists_above (List.suffix_cons m p) hm hexists)
        exact ⟨m, hlisted, x, hm, .inr hopened⟩
  · rintro ⟨n, -, x, hx, hkept | hopened⟩
    · exact .inl ⟨x, hkept⟩
    · exact .inr ⟨x, below_child hx, hopened⟩

/-- Whatever the kernel refuses: below the directory, exactly what it keeps is left, nothing else in the tree is touched, and
the return value tells whether all is gone and every directory could be opened. -/
theorem deleteDirectoryTree_spec (hproper : Proper host tree path p) {depth : ℕ}
    (hdepth : ∀ above, tree (above ++ p) ≠ none → above.length < depth) :
    ∃ deleted tree', deleteDirectoryTree host depth path tree = some (deleted, tree') ∧
      Deleted host tree p deleted tree' := by
  unfold deleteDirectoryTree
  induction depth generalizing tree path p with
  | zero => exact absurd (hdepth [] (by rw [List.nil_append, hproper.directory]; exact Option.some_ne_none _)) (by simp)
  | succ depth ih =>
    rw [deleteDirectoryTreeInternal]
    cases hopen : host.openRefused p with
    | true =>
      have hdir : dirOpen host tree path = .error .eacces := by
        rw [dirOpen_found hproper.find_path, if_pos hopen]
      refine ⟨false, tree, by simp [hdir], fun _ _ => rfl, fun _ _ => rfl, fun x name hx hnot => ?_, ?_⟩
      · by_contra hexists
        exact hnot (.closed hopen hx hexists)
      · simp only [Bool.false_eq_true, false_iff, not_not]
        exact .inr ⟨p, List.suffix_refl p, hproper.directory, hopen⟩
    | false =>
      have hdir : dirOpen host tree path = .ok (dot :: dotDot :: entries host tree p) := by
        rw [dirOpen_found hproper.find_path, hopen, if_neg Bool.false_ne_true]
      have hagain : ∀ n tree', tree (n :: p) = some .directory → (∀ x, n :: p <:+ x → tree' x = tree x) →
          ∃ deleted tree₁,
            deleteDirectoryTreeInternal host depth (path ++ Glob.slash :: n) tree' = some (deleted, tree₁) ∧
              Deleted host tree' (n :: p) deleted tree₁ := by
        intro n tree' hn hsame
        refine ih (hproper.child hn hsame) fun above habove => ?_
        rw [hsame _ (List.suffix_append _ _), show above ++ n :: p = above ++ [n] ++ p by simp] at habove
        have hlt := hdepth _ habove
        rw [List.length_append, List.length_singleton] at hlt
        omega
      obtain ⟨failed, tree', hloop, helse, hin, htold⟩ := deleteEntries_spec hproper hopen hagain entries_nodup
        (fun n hn => (hproper.mem_entries n).mp hn) (fun _ _ _ _ => rfl) false
      have hdots : deleteEntries host (deleteDirectoryTreeInternal host depth) path (dot :: dotDot :: entries host tree p)
          false tree = some (failed, tree') := by
        simp only [deleteEntries, deleteEntry, true_or, or_true, if_true, Option.bind_eq_bind, Option.bind_some]
        exact hloop
      refine ⟨!failed, tree', by simp [hdir, hdots], fun x hx => helse x fun n _ => hx n, fun x hx => ?_,
        fun x name hx hnot => ?_, ?_⟩
      · obtain ⟨n, hn⟩ := hx.under
        by_cases hlisted : n ∈ entries host tree p
        · exact (hin n hlisted x hn).1 hx
        · exact helse x fun m hm hmx => hlisted (child_unique hmx hn ▸ hm)
      · by_cases hlisted : name ∈ entries host tree p
        · exact (hin name hlisted x hx).2 hnot
        · rw [helse x fun m hm hmx => hlisted (child_unique hmx hx ▸ hm)]
          by_contra hexists
          exact hlisted ((hproper.mem_entries name).mpr (hproper.exists_above (List.suffix_cons name p) hx hexists))
      · rw [or_iff_right Bool.false_ne_true] at htold
        rw [hproper.complains_iff hopen, ← htold]
        cases failed <;> simp

/-! ## A directory with a file and a directory that cannot be opened -/

def sampleHost : Host where
  place path := some (path.splitOn Glob.slash).reverse
  order p := if p = [ascii "t"] then [ascii "a", ascii "d"] else []
  openRefused p := p = [ascii "d", ascii "t"]
  statRefused _ := false
  removeRefused _ := false
  joins path p name hplace hname _ := by
    cases hplace
    rw [List.splitOn_append_cons_self, List.splitOn_eq_singleton hname.noSlash, List.reverse_append]
    rfl
  nodup p := by
    split_ifs
    · decide
    · exact List.nodup_nil

def sampleTree : Tree := fun q =>
  if q = [ascii "t"] then some .directory
  else if q = [ascii "a", ascii "t"] then some .other
  else if q = [ascii "d", ascii "t"] then some .directory
  else none

theorem sampleTree_exists {above : List Bytes} (h : sampleTree (above ++ [ascii "t"]) ≠ none) :
    above = [] ∨ above = [ascii "a"] ∨ above = [ascii "d"] := by
  unfold sampleTree at h
  split_ifs at h with h₁ h₂ h₃
  · exact .inl (List.append_left_eq_self.mp h₁)
  · exact .inr (.inl (List.append_inj_left' h₂ rfl))
  · exact .inr (.inr (List.append_inj_left' h₃ rfl))
  · exact absurd rfl h

theorem isName_letter {c : UInt8} (h : c ≠ Glob.slash ∧ c ≠ 0 ∧ [c] ≠ dot) : IsName [c] := by
  refine ⟨List.cons_ne_nil _ _, ?_, ?_, h.2.2, ?_⟩
  · simpa using h.1.symm
  · simpa using h.2.1.symm
  · intro heq
    have hlen : 1 = dotDot.length := congrArg List.length heq
    exact absurd hlen (by decide)

theorem sampleTree_proper : Proper sampleHost sampleTree (ascii "t") [ascii "t"] where
  place := by decide
  directory := rfl
  parent above name h := by
    rw [← List.cons_append] at h
    rcases sampleTree_exists h with h | h | h <;> cases h <;> rfl
  names above name h := by
    rw [← List.cons_append] at h
    rcases sampleTree_exists h with h | h | h
    · cases h
    · cases h
      exact ⟨isName_letter (by decide), by decide⟩
    · cases h
      exact ⟨isName_letter (by decide), by decide⟩
  fits above h := by
    rcases sampleTree_exists h with rfl | rfl | rfl <;> decide

/-- The file is gone, and so is the directory, as it is empty; but it could not be opened. -/
theorem deleteDirectoryTree_spec_sample : ∃ deleted tree',
    deleteDirectoryTree sampleHost 2 (ascii "t") sampleTree = some (deleted, tree') ∧
      Deleted sampleHost sampleTree [ascii "t"] deleted tree' :=
  deleteDirectoryTree_spec sampleTree_proper fun above h => by
    rcases sampleTree_exists h with rfl | rfl | rfl <;> decide

end Libntech.Files.DeleteTree
