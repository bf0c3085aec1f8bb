import Libntech.Files.SafeOpenMeaning

/-! # The trust rule

Which components of a path are trusted, after the documentation of `safe_open_create_perms`, and which the code takes for
trusted. What the rule says of the effective user, the code says of `p_uid`, which is 1 for every user but root.
-/
namespace Libntech.Files
set_option autoImplicit false

open Libntech.Json

/-! ## The components of a path in a file system -/

/-- A component that has an entry, the directory that those in front of it lead to, and those behind it. -/
structure Occurrence where
  dir : ℕ
  name : Bytes
  rest : List Bytes
  entry : Inode

structure Occurs (fs : FileSystem) (start : ℕ) (names : List Bytes) (c : Occurrence) : Prop where
  front : ∃ front, names = front ++ c.name :: c.rest ∧ Resolves fs true start front (.object c.dir)
  found : fs.lstat c.dir c.name = some c.entry

section Occurrences

variable {fs : FileSystem} {start : ℕ} {name : Bytes} {names : List Bytes} {c : Occurrence}

theorem Occurs.here {entry : Inode} (h : fs.lstat start name = some entry) :
    Occurs fs start (name :: names) ⟨start, name, names, entry⟩ :=
  ⟨⟨[], rfl, .here start⟩, h⟩

theorem Occurs.behind {ino : ℕ} (hleads : Resolves fs true start [name] (.object ino)) (h : Occurs fs ino names c) :
    Occurs fs start (name :: names) c := by
  obtain ⟨⟨front, rfl, hfront⟩, hfound⟩ := h
  exact ⟨⟨name :: front, rfl, hleads.append hfront⟩, hfound⟩

theorem Occurs.cases (h : Occurs fs start (name :: names) c) :
    (∃ entry, fs.lstat start name = some entry ∧ c = ⟨start, name, names, entry⟩) ∨
      ∃ ino, Resolves fs true start [name] (.object ino) ∧ Occurs fs ino names c := by
  obtain ⟨⟨front, hnames, hfront⟩, hfound⟩ := h
  cases front with
  | nil =>
    obtain ⟨rfl, rfl⟩ := List.cons.inj hnames
    cases hfront
    exact .inl ⟨c.entry, hfound, rfl⟩
  | cons _ front =>
    obtain ⟨rfl, rfl⟩ := List.cons.inj hnames
    by_cases hnil : front = []
    · subst hnil
      exact .inr ⟨c.dir, hfront, ⟨[], rfl, .here c.dir⟩, hfound⟩
    · obtain ⟨ino, hleads, hrest⟩ := hfront.split (List.singleton_append).symm hnil
      exact .inr ⟨ino, hleads, ⟨front, rfl, hrest⟩, hfound⟩

theorem Occurs.not_nil (h : Occurs fs start [] c) : False := by
  obtain ⟨⟨front, hnames, -⟩, -⟩ := h
  cases front <;> cases hnames

theorem Occurs.first (h : Occurs fs start names c) : ∃ name rest entry, names = name :: rest ∧
    fs.lstat start name = some entry := by
  cases names with
  | nil => exact h.not_nil.elim
  | cons name rest =>
    rcases h.cases with ⟨entry, hentry, -⟩ | ⟨ino, hleads, -⟩
    · exact ⟨name, rest, entry, rfl, hentry⟩
    · obtain ⟨entry, hentry⟩ := hleads.lstat
      exact ⟨name, rest, entry, rfl, hentry⟩

end Occurrences

/-! ## The rule -/

/-- No other steps: the calls alone change the file system. -/
def Unchanged (_ _ : World) : Prop := False

/-- What a component resolves to. -/
def Occurrence.Leads (c : Occurrence) (fs : FileSystem) (ino : ℕ) (object : Inode) : Prop :=
  Resolves fs true c.dir [c.name] (.object ino) ∧ fs.inode ino = some object

/-- The entry is owned by root or by the user running the process. -/
def Occurrence.Own (c : Occurrence) (euid : ℕ) : Prop := c.entry.uid = 0 ∨ c.entry.uid = euid

/-- It is, or the owners of the entry and of the object are the same. -/
def Occurrence.Trusted (c : Occurrence) (fs : FileSystem) (euid : ℕ) : Prop :=
  c.Own euid ∨ ∃ ino object, c.Leads fs ino object ∧ c.entry.uid = object.uid ∧ c.entry.gid = object.gid

/-- The trust rule for a call that was made in this world. An `openat` that creates a file has a single name for a path,
and its directory has no entry under it, so no symlink either. -/
structure TrustRule (w : World) (path : Bytes) (trace : Trace) (result : Except Errno Fd) : Prop where
  opened : ∀ fd, result = .ok fd → ∀ c, Occurs w.fs (w.origin path) (pathComponents path) c → c.Trusted w.fs w.euid
  followed : (∀ c, Occurs w.fs (w.origin path) (pathComponents path) c → c.Own w.euid) → result ≠ .error .enolink
  created : ∀ world dirfd text flags perms fd, ⟨world, .openat dirfd text flags perms, .ok fd⟩ ∈ trace →
    flags.creat = true → ∃ dir name, world.start dirfd text = some dir ∧ pathComponents text = [name] ∧
      world.fs.entry dir name = none

/-! ## What the code checks -/

section Verdict

variable (fs : FileSystem) (euid : ℕ) (flags : OpenFlags) (slashed : Prop)

/-- What the code finds out about a component that can be opened: whether the symlink is refused. -/
def Occurrence.Verdict (c : Occurrence) (refused : Bool) : Prop :=
  ∃ ino object, c.Leads fs ino object ∧ untrusted (pUid euid) c.entry.stat object.stat = refused ∧
    (c.rest = [] → Openable flags slashed fs ino)

/-- The last component is there, or can be created. -/
def Arrives (start : ℕ) (names : List Bytes) : Prop :=
  ∃ front dir name, names = front ++ [name] ∧ Resolves fs true start front (.object dir) ∧
    ((∃ entry, fs.lstat dir name = some entry) ∨ Creatable flags slashed fs dir name)

/-- An entry of user 1, taken for one of the effective user, whose object belongs to others. -/
def Occurrence.Overtrusted (c : Occurrence) : Prop :=
  1 < euid ∧ c.entry.uid = 1 ∧ ∃ ino object, c.Leads fs ino object ∧
    ¬(c.entry.uid = object.uid ∧ c.entry.gid = object.gid)

/-- An entry of the effective user, not taken for one, whose object belongs to others. -/
def Occurrence.Mistrusted (c : Occurrence) : Prop :=
  1 < euid ∧ c.entry.uid = euid ∧ ∃ ino object, c.Leads fs ino object ∧
    ¬(c.entry.uid = object.uid ∧ c.entry.gid = object.gid) ∧ (c.rest = [] → Openable flags slashed fs ino)

end Verdict

/-- Every component passes what the code checks, and among them is one that should not. -/
def MistakenTrust (w : World) (path : Bytes) (flags : OpenFlags) : Prop :=
  (∀ c, Occurs w.fs (w.origin path) (pathComponents path) c →
    c.Verdict w.fs w.euid flags (path.getLast? = some slash) false) ∧
  Arrives w.fs flags (path.getLast? = some slash) (w.origin path) (pathComponents path) ∧
  ∃ c, Occurs w.fs (w.origin path) (pathComponents path) c ∧ c.Overtrusted w.fs w.euid

/-- Every component should pass, and among them is one that does not. -/
def MistakenRefusal (w : World) (path : Bytes) (flags : OpenFlags) : Prop :=
  (∀ c, Occurs w.fs (w.origin path) (pathComponents path) c → c.Own w.euid) ∧
  ∃ c, Occurs w.fs (w.origin path) (pathComponents path) c ∧
    c.Mistrusted w.fs w.euid flags (path.getLast? = some slash)

/-- Only users other than root and user 1 are mistaken for another. -/
theorem mistaken_euid {w : World} {path : Bytes} {flags : OpenFlags}
    (h : MistakenTrust w path flags ∨ MistakenRefusal w path flags) : 1 < w.euid := by
  rcases h with ⟨-, -, c, -, heuid, -⟩ | ⟨-, c, -, heuid, -⟩
  · exact heuid
  · exact heuid

section Verdicts

variable {fs : FileSystem} {euid : ℕ} {flags : OpenFlags} {slashed : Prop} {c : Occurrence}

theorem Occurrence.Leads.unique {ino ino' : ℕ} {object object' : Inode} (h : c.Leads fs ino object)
    (h' : c.Leads fs ino' object') : ino = ino' ∧ object = object' := by
  obtain rfl := Place.object.inj (h.1.unique h'.1)
  have hobject := h.2
  rw [h'.2] at hobject
  exact ⟨rfl, (Option.some.inj hobject).symm⟩

theorem pUid_cases (euid : ℕ) : euid ≤ 1 ∧ pUid euid = euid ∨ 1 < euid ∧ pUid euid = 1 := by
  unfold pUid
  split <;> omega

theorem untrusted_eq_true {p_uid : ℕ} {stat_before stat_after : Stat} :
    untrusted p_uid stat_before stat_after = true ↔ stat_before.uid ≠ 0 ∧ stat_before.uid ≠ p_uid ∧
      ¬(stat_before.uid = stat_after.uid ∧ stat_before.gid = stat_after.gid) := by
  rw [← not_iff_not, Bool.not_eq_true, untrusted_eq_false]
  tauto

/-- Where a component passes, it is not trusted just if user 1 is taken for the effective user. -/
theorem Occurrence.Verdict.trusted_iff (h : c.Verdict fs euid flags slashed false) :
    c.Trusted fs euid ↔ ¬ c.Overtrusted fs euid := by
  obtain ⟨ino, object, hleads, htrust, -⟩ := h
  have hpasses := untrusted_eq_false.mp htrust
  constructor
  · rintro (hroot | hself) ⟨heuid, hone, ino', object', hleads', hdiffers⟩
    · rcases hroot with hzero | heq
      · omega
      · omega
    · obtain ⟨ino'', object'', hleads'', hsame⟩ := hself
      obtain ⟨-, rfl⟩ := hleads'.unique hleads''
      exact hdiffers hsame
  · intro hnot
    rcases hpasses with hzero | heq | hsame
    · exact .inl (.inl hzero)
    · rcases pUid_cases euid with ⟨-, hp_uid⟩ | ⟨heuid, hp_uid⟩
      · exact .inl (.inr (heq.trans hp_uid))
      · by_contra htrusted
        exact hnot ⟨heuid, heq.trans hp_uid, ino, object, hleads, fun hsame =>
          htrusted (.inr ⟨ino, object, hleads, hsame⟩)⟩
    · exact .inr ⟨ino, object, hleads, hsame⟩

/-- A component with an own entry is refused just if the effective user is not recognised. -/
theorem Occurrence.Own.refused_iff (h : c.Own euid) :
    c.Verdict fs euid flags slashed true ↔ c.Mistrusted fs euid flags slashed := by
  constructor
  · rintro ⟨ino, object, hleads, htrust, hopenable⟩
    obtain ⟨hroot, hp_uid, hdiffers⟩ := untrusted_eq_true.mp htrust
    have hself : c.entry.uid = euid := h.resolve_left hroot
    refine ⟨?_, hself, ino, object, hleads, hdiffers, hopenable⟩
    rcases pUid_cases euid with ⟨-, heq⟩ | ⟨heuid, -⟩
    · exact absurd (hself.trans heq.symm) hp_uid
    · exact heuid
  · rintro ⟨heuid, hself, ino, object, hleads, hdiffers, hopenable⟩
    have huid : c.entry.stat.uid = euid := hself
    have hp_uid : pUid euid = 1 := by
      rcases pUid_cases euid with ⟨hle, -⟩ | ⟨-, heq⟩
      · exact absurd heuid (Nat.not_lt.mpr hle)
      · exact heq
    exact ⟨ino, object, hleads, untrusted_eq_true.mpr ⟨by omega, by omega, hdiffers⟩, hopenable⟩

end Verdicts

end Libntech.Files
