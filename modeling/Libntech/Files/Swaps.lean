import Libntech.Files.SafeOpenMeaning

/-! # Entries that are exchanged during a run

Between `fstatat` and `openat` another user may put a symlink in the place of an entry. What is compared with the opened
object is the entry that `fstatat` saw, and only if neither root nor the user of the process owned it.
-/
namespace Libntech.Files
set_option autoImplicit false

open Libntech.Json
open Relation (ReflTransGen)

variable {w w' : World} {euid ino u : ℕ} {p : Passage}

theorem Interferes.foreign (h : Interferes u w w') : Foreign w w' := ⟨h.fds, h.euid, h.opened⟩

/-! ## What a run has checked -/

/-- A component that was there was compared with what was opened. -/
def Passage.Passed (other : World → World → Prop) (p_uid : ℕ) (p : Passage) : Prop :=
  ∀ stat_before, p.before = .ok stat_before → ∃ w ino object, Visit other w p stat_before ino object ∧
    untrusted p_uid stat_before object.stat = false

/-- The entry under the name when it is opened. -/
def Passage.Finds (p : Passage) (entry : Inode) : Prop :=
  ∃ dir, p.opened.fds p.dirfd = some dir ∧ p.opened.fs.lstat dir p.name = some entry

/-- The passages of a run that succeeds are those of the components, and have been checked. -/
def AllPassed (other : World → World → Prop) (p_uid : ℕ) (names : List Bytes) (ps : List Passage)
    (result : Except Errno Fd) : Prop :=
  ∀ fd, result = .ok fd → ps.map Passage.name = names ∧ ∀ p ∈ ps, p.Passed other p_uid

section Passed

variable {other : World → World → Prop} {p_uid : ℕ} {names : List Bytes} {p : Passage} {ps : List Passage}
  {result : Except Errno Fd}

theorem Visit.passed {stat_before : Stat} {object : Inode} (h : Visit other w p stat_before ino object)
    (htrust : untrusted p_uid stat_before object.stat = false) :
    p.Passed other p_uid := by
  intro stat_before' hbefore
  rw [h.before] at hbefore
  obtain rfl := Except.ok.inj hbefore
  exact ⟨w, ino, object, h, htrust⟩

theorem AllPassed.error {errno : Errno} : AllPassed other p_uid names ps (.error errno) := fun _ h => by cases h

theorem AllPassed.nil : AllPassed other p_uid [] [] result := fun _ _ => ⟨rfl, nofun⟩

theorem AllPassed.cons {name : Bytes} (hname : p.name = name) (hp : p.Passed other p_uid)
    (h : AllPassed other p_uid names ps result) : AllPassed other p_uid (name :: names) (p :: ps) result := by
  intro fd hresult
  obtain ⟨hnames, hall⟩ := h fd hresult
  exact ⟨by rw [List.map_cons, hname, hnames], List.forall_mem_cons.mpr ⟨hp, hall⟩⟩

end Passed

section Runs

variable {other : World → World → Prop} (hother : ∀ w w', other w w' → Foreign w w')
include hother

theorem openComponents_passed {orig_flags : OpenFlags} {create_perms p_uid : ℕ} (comps : List Component)
    (hproper : ∀ c ∈ comps, c.Proper) : ∀ {w : World} {currentfd : Fd} {final_size : Option ℕ} {flags : OpenFlags},
      SameFlags orig_flags flags →
      Promises other w (openComponents orig_flags create_perms p_uid currentfd final_size flags comps)
        (AllPassed other p_uid (comps.map Component.name)) := by
  induction comps with
  | nil =>
    intro w currentfd final_size flags _
    exact truncateOpened_ensures (fun _ _ _ _ => .error) (fun _ => .nil) fun _ _ => .nil
  | cons component comps ih =>
    intro w currentfd final_size flags hflags
    obtain ⟨hfirst, hrest⟩ := List.forall_mem_cons.mp hproper
    cases comps with
    | nil =>
      refine attempts_promises hother hfirst (fun _ _ _ => .error) (fun _ _ _ _ _ _ _ _ _ _ => .error)
        (fun p _ _ _ hname _ hvisit _ htrust fd => ?_) (fun p errno _ hname hbefore _ _ _ _ fd => ?_) 3 .refl hflags
      · exact AllPassed.nil.cons hname (hvisit.passed htrust)
      · refine AllPassed.nil.cons hname fun stat_before hok => ?_
        rw [hbefore] at hok
        cases hok
    | cons second rest =>
      refine openDirectory_promises hother hfirst (fun _ _ _ => .error) (fun _ _ _ _ _ _ _ _ _ => .error)
        fun p _ _ _ hname _ hvisit htrust _ _ _ _ _ _ _ => ?_
      refine (ih hrest hflags.withoutTrunc).mono fun trace _ result hpassed => ?_
      exact hpassed.cons hname (hvisit.passed htrust)

theorem safeOpenCreatePerms_passed {path : Bytes} {flags : OpenFlags} {create_perms : ℕ} {trace : Trace}
    {result : Except Errno Fd}
    (h : Lib.Runs Serves other w (safeOpenCreatePerms (some path) flags create_perms) trace w' result) :
    AllPassed other (pUid w.euid) (pathComponents path) (passages trace) result := by
  obtain ⟨hproper, hnames⟩ := components_of_path path
  refine h.ensures (safeOpenCreatePerms_promises hother (fun _ _ _ => .error) fun w₀ w₁ fd _ _ => ?_)
  rw [← hnames]
  exact openComponents_passed hother _ hproper (.refl flags)

end Runs

/-! ## Safe passages -/

theorem Passage.Leads.unique {ino' : ℕ} {object object' : Inode} (h : p.Leads ino object) (h' : p.Leads ino' object') :
    object = object' := by
  obtain ⟨dir, hdir, hleads, hobject⟩ := h
  obtain ⟨dir', hdir', hleads', hobject'⟩ := h'
  rw [hdir] at hdir'
  obtain rfl := Option.some.inj hdir'
  obtain rfl := Place.object.inj (hleads.unique hleads')
  rw [hobject] at hobject'
  exact Option.some.inj hobject'

/-- What was opened was opened through no symlink, or through one that is trusted or has the owner and group of it. -/
def Passage.Safe (euid : ℕ) (p : Passage) : Prop :=
  ∀ entry, p.Finds entry → entry.isSymlink = true → entry.uid = 0 ∨ entry.uid = euid ∨
    ∃ ino object, p.Leads ino object ∧ entry.uid = object.uid ∧ entry.gid = object.gid

/-- It was opened through a symlink of the user to an object that the user does not own. -/
def Passage.Swapped (u : ℕ) (p : Passage) : Prop :=
  ∃ entry ino object, p.Finds entry ∧ entry.isSymlink = true ∧ entry.uid = u ∧ p.Leads ino object ∧ object.uid ≠ u

/-- A symlink that is neither of root nor of the process has the owner and group that `fstatat` reported, and the code
does not take that owner for one of them. -/
def Passage.Compared (euid : ℕ) (p : Passage) : Prop :=
  ∀ stat_before entry, p.before = .ok stat_before → p.Finds entry → entry.isSymlink = true →
    entry.uid = 0 ∨ entry.uid = euid ∨
      stat_before.uid ≠ 0 ∧ stat_before.uid ≠ pUid euid ∧ stat_before.uid = entry.uid ∧ stat_before.gid = entry.gid

theorem Passage.Passed.safe {other : World → World → Prop} (h : p.Passed other (pUid euid))
    (hcompared : p.Compared euid) {stat_before : Stat} (hbefore : p.before = .ok stat_before) : p.Safe euid := by
  intro entry hentry hlink
  obtain ⟨_, ino, object, hvisit, htrust⟩ := h stat_before hbefore
  refine (hcompared stat_before entry hbefore hentry hlink).imp_right fun hrest => hrest.imp_right ?_
  rintro ⟨hroot, hp_uid, huid, hgid⟩
  rcases untrusted_eq_false.mp htrust with hzero | heq | ⟨huid', hgid'⟩
  · exact absurd hzero hroot
  · exact absurd heq hp_uid
  · exact ⟨ino, object, hvisit.leads, huid ▸ huid', hgid ▸ hgid'⟩

theorem inode_kept (h : ReflTransGen (Interferes u) w w') {node : Inode} (hino : w.fs.inode ino = some node)
    (hown : node.uid ≠ u) : ∃ size, w'.fs.inode ino = some { node with size := size } := by
  induction h with
  | refl => exact ⟨node.size, hino⟩
  | tail _ hstep ih =>
    obtain ⟨size, hsize⟩ := ih
    exact hstep.others ino { node with size := size } hsize hown

/-- Where the user owns neither the directory nor the entry, what is opened is what was examined. So a process of root or
of user 1 is safe there. -/
theorem Passage.Passed.compared (h : p.Passed (Interferes u) (pUid euid)) (heuid : euid ≤ 1)
    (hdirectory : ∀ dir node, p.examined.fds p.dirfd = some dir → p.examined.fs.inode dir = some node → node.uid ≠ u)
    (hentry : ∀ dir entry, p.examined.fds p.dirfd = some dir → p.examined.fs.lstat dir p.name = some entry → entry.uid ≠ u) :
    p.Compared euid := by
  rintro stat_before entry' hbefore ⟨dir', hdir', hfound⟩ _
  obtain ⟨w, ino, object, hvisit, -⟩ := h stat_before hbefore
  obtain ⟨dir, entry, hdir, hreported, rfl⟩ := hvisit.reported
  rw [(Foreign.steps (fun _ _ hstep => hstep.foreign) hvisit.opened).fds, hdir] at hdir'
  obtain rfl := Option.some.inj hdir'
  obtain ⟨i, hname, hi⟩ := Option.bind_eq_some_iff.mp hreported
  obtain ⟨node, hnode, hkind⟩ := isDirectory_of_entry hname
  obtain ⟨size, hsize⟩ := inode_kept hvisit.opened hi (hentry dir entry hdir hreported)
  obtain ⟨size', hsize'⟩ := inode_kept hvisit.opened hnode (hdirectory dir node hdir hnode)
  have hname' : p.opened.fs.entry dir p.name = some i := by
    rw [← hname]
    unfold FileSystem.entry
    rw [hsize', hnode]
    obtain ⟨_, _, _, kind⟩ := node
    cases kind <;> rfl
  have hsame : entry' = { entry with size := size } := by
    rw [FileSystem.lstat, hname', Option.bind_some, hsize] at hfound
    exact (Option.some.inj hfound).symm
  have hp_uid : pUid euid = euid := by
    unfold pUid
    split <;> omega
  rw [hsame, hp_uid]
  by_cases hroot : entry.uid = 0
  · exact .inl hroot
  · by_cases hself : entry.uid = euid
    · exact .inr (.inl hself)
    · exact .inr (.inr ⟨hroot, hself, rfl, rfl⟩)

theorem Passage.Safe.not_swapped (h : p.Safe euid) (hroot : u ≠ 0) (heuid : u ≠ euid) : ¬ p.Swapped u := by
  rintro ⟨entry, ino, object, hentry, hlink, rfl, hleads, hne⟩
  rcases h entry hentry hlink with huid | huid | ⟨ino', object', hleads', huid, -⟩
  · exact hroot huid
  · exact heuid huid
  · exact hne (by rw [huid, hleads.unique hleads'])

/-- In every run in which `u` does whatever `u` can between the calls: if each symlink that a component is opened through
is compared, or trusted, then success means that all components were opened safely. -/
theorem safeOpenCreatePerms_safe {u : ℕ} {w w' : World} {path : Bytes} {flags : OpenFlags} {create_perms : ℕ}
    {trace : Trace} {fd : Fd} (hroot : u ≠ 0) (heuid : u ≠ w.euid)
    (h : Lib.Runs Serves (Interferes u) w (safeOpenCreatePerms (some path) flags create_perms) trace w' (.ok fd))
    (hcompared : ∀ p ∈ passages trace, p.Compared w.euid) :
    (passages trace).map Passage.name = pathComponents path ∧
      ∀ p ∈ passages trace, (∃ stat_before, p.before = .ok stat_before) → p.Safe w.euid ∧ ¬ p.Swapped u := by
  obtain ⟨hnames, hpassed⟩ := safeOpenCreatePerms_passed (fun _ _ hstep => hstep.foreign) h fd rfl
  refine ⟨hnames, fun p hp hexisted => ?_⟩
  obtain ⟨stat_before, hbefore⟩ := hexisted
  have hsafe := (hpassed p hp).safe (hcompared p hp) hbefore
  exact ⟨hsafe, hsafe.not_swapped hroot heuid⟩

/-! ## An exchange -/

/-- A file of root, and a directory of user 1000 with a symlink in it; its entry is one or the other of two inodes. -/
def files (entry : ℕ) : FileSystem where
  inode
    | 0 => some ⟨0, 0, 0, .directory fun name => if name = ascii "s" then some 1 else none⟩
    | 1 => some ⟨0, 0, 9, .regular⟩
    | 2 => some ⟨1000, 1000, 0, .directory fun name => if name = ascii "f" then some entry else none⟩
    | 3 => some ⟨0, 0, 5, .regular⟩
    | 4 => some ⟨1000, 1000, 2, .symlink (ascii "/s")⟩
    | _ => none
  root := 0
  spare := ⟨5, fun ino hino => by
    match ino, hino with
    | ino + 5, _ => rfl⟩
  rooted := ⟨_, rfl, rfl⟩

/-- A process in that directory. -/
def process (euid entry : ℕ) : World where
  fs := files entry
  fds := fun _ => none
  cwd := 2
  euid := euid
  spare := ⟨0, fun _ _ => rfl⟩

theorem files_same {entry entry' : ℕ} (hne : ino ≠ 2) : (files entry).inode ino = (files entry').inode ino := by
  match ino with
  | 0 => rfl
  | 1 => rfl
  | 2 => exact absurd rfl hne
  | 3 => rfl
  | 4 => rfl
  | ino + 5 => rfl

theorem exchanged (hfs : w.fs = files 3) : Interferes 1000 w { w with fs := files 4 } where
  fds := rfl
  cwd := rfl
  euid := rfl
  root := by
    rw [hfs]
    rfl
  others := by
    rw [hfs]
    intro ino node hino hown
    by_cases hne : ino = 2
    · subst hne
      obtain rfl := Option.some.inj hino
      exact absurd rfl hown
    · exact ⟨node.size, (files_same hne).trans hino⟩
  own := by
    rw [hfs]
    intro ino node' hino hown
    by_cases hne : ino = 2
    · subst hne
      obtain rfl := Option.some.inj hino
      exact absurd rfl hown
    · exact ⟨node', (files_same hne).trans hino, hown⟩
  opened := by
    rw [hfs]
    intro _ ino node _ hino
    by_cases hne : ino = 2
    · subst hne
      obtain rfl := Option.some.inj hino
      exact ⟨_, rfl, rfl, rfl⟩
    · exact ⟨node, (files_same hne).trans hino, rfl, rfl⟩

theorem safeOpenCreatePerms_f (flags : OpenFlags) (create_perms : ℕ) :
    safeOpenCreatePerms (some (ascii "f")) flags create_perms =
      .call (.openat none (ascii ".") .rdonly 0) (openFrom flags create_perms [⟨ascii "f", []⟩]) := by
  have hcomponents : components ['f'.toUInt8] = [⟨ascii "f", []⟩] := by
    have hempty : components [] = [] := by rw [components]
    rw [components]
    exact congrArg _ hempty
  have hprogram := safeOpenCreatePerms_eq 'f'.toUInt8 [] flags create_perms
  rw [if_neg (by decide), List.dropWhile_cons_of_neg (by decide), hcomponents] at hprogram
  exact hprogram

theorem opens_dot (euid entry : ℕ) :
    Opens (process euid entry) none (ascii ".") .rdonly (.ok 3) ((process euid entry).assign 3 (some 2)) := by
  have hdot : Resolves (files entry) true 2 [ascii "."] (.object 2) := .enter rfl rfl nofun (.here 2)
  exact .existing rfl hdot nofun (fun _ => rfl) rfl rfl

theorem leads_secret : Resolves (files 4) true 2 [ascii "f"] (.object 1) := by
  have hs : Resolves (files 4) true 0 [ascii "s"] (.object 1) := .enter rfl rfl nofun (.here 1)
  exact .link rfl rfl rfl (fun _ => rfl) nofun hs

/-- The file of root was examined, and the symlink was opened. -/
theorem exchanged_opened : ∃ trace w', Lib.Runs Serves (Interferes 1000) (process 0 3)
    (safeOpenCreatePerms (some (ascii "f")) .rdonly 0) trace w' (.ok 4) ∧
      ∃ p ∈ passages trace, (∃ stat_before, p.before = .ok stat_before) ∧ ¬ p.Safe 0 ∧ p.Swapped 1000 := by
  let w₁ := (process 0 3).assign 3 (some 2)
  let w₂ := (process 0 4).assign 3 (some 2)
  let w₃ := w₂.assign 4 (some 1)
  let w₄ := w₃.assign 3 none
  have hopen : Serves w₂ (.openat (some 3) (ascii "f" ++ []) .rdonly 0) (.ok 4) w₃ :=
    .existing rfl leads_secret nofun (fun _ => rfl) rfl rfl
  have hexamined : Serves w₁ (.fstatat 3 (ascii "f")) (.ok ⟨0, 0, 5⟩) w₁ :=
    ⟨rfl, .inr ⟨2, 3, ⟨0, 0, 5, .regular⟩, rfl, .enter rfl rfl nofun (.here 3), rfl, rfl⟩⟩
  have hstat : Serves w₄ (.fstat 4) (.ok ⟨0, 0, 9⟩) w₄ := ⟨rfl, .inr ⟨1, ⟨0, 0, 9, .regular⟩, rfl, rfl, rfl⟩⟩
  have hrun : Lib.Runs Serves (Interferes 1000) (process 0 3) (safeOpenCreatePerms (some (ascii "f")) .rdonly 0)
      [⟨process 0 3, .openat none (ascii ".") .rdonly 0, .ok 3⟩, ⟨w₁, .geteuid, 0⟩,
        ⟨w₁, .fstatat 3 (ascii "f"), .ok ⟨0, 0, 5⟩⟩, ⟨w₂, .openat (some 3) (ascii "f" ++ []) .rdonly 0, .ok 4⟩,
        ⟨w₃, .close 3, ()⟩, ⟨w₄, .fstat 4, .ok ⟨0, 0, 9⟩⟩] w₄ (.ok 4) := by
    rw [safeOpenCreatePerms_f]
    refine .call (opens_dot 0 3) (.call ⟨rfl, rfl⟩ (.call hexamined (.other (exchanged rfl) (.call hopen ?_))))
    exact .call rfl (.call hstat (.done _ _))
  have hswapped : Passage.Swapped 1000 ⟨3, ascii "f", .ok ⟨0, 0, 5⟩, w₁, w₂⟩ :=
    ⟨⟨1000, 1000, 2, .symlink (ascii "/s")⟩, 1, ⟨0, 0, 9, .regular⟩, ⟨2, rfl, rfl⟩, rfl, rfl,
      ⟨2, rfl, leads_secret, rfl⟩, by decide⟩
  refine ⟨_, w₄, hrun, _, List.mem_singleton_self _, ⟨_, rfl⟩, fun hsafe => ?_, hswapped⟩
  exact hsafe.not_swapped (by decide) (by decide) hswapped

/-- An exchange that comes after `openat` makes no difference. -/
theorem safeOpenCreatePerms_safe_file : ∃ trace w', Lib.Runs Serves (Interferes 1000) (process 0 3)
    (safeOpenCreatePerms (some (ascii "f")) .rdonly 0) trace w' (.ok 4) ∧
      (passages trace).map Passage.name = [ascii "f"] ∧
      ∀ p ∈ passages trace, (∃ stat_before, p.before = .ok stat_before) → p.Safe 0 ∧ ¬ p.Swapped 1000 := by
  let w₁ := (process 0 3).assign 3 (some 2)
  let w₂ := w₁.assign 4 (some 3)
  let w₃ : World := { w₂ with fs := files 4 }
  let w₄ := w₃.assign 3 none
  have hf : Resolves (files 3) true 2 [ascii "f"] (.object 3) := .enter rfl rfl nofun (.here 3)
  have hopen : Serves w₁ (.openat (some 3) (ascii "f" ++ []) .rdonly 0) (.ok 4) w₂ :=
    .existing rfl hf nofun (fun _ => rfl) rfl rfl
  have hexamined : Serves w₁ (.fstatat 3 (ascii "f")) (.ok ⟨0, 0, 5⟩) w₁ :=
    ⟨rfl, .inr ⟨2, 3, ⟨0, 0, 5, .regular⟩, rfl, .enter rfl rfl nofun (.here 3), rfl, rfl⟩⟩
  have hstat : Serves w₄ (.fstat 4) (.ok ⟨0, 0, 5⟩) w₄ := ⟨rfl, .inr ⟨3, ⟨0, 0, 5, .regular⟩, rfl, rfl, rfl⟩⟩
  have hrun : Lib.Runs Serves (Interferes 1000) (process 0 3) (safeOpenCreatePerms (some (ascii "f")) .rdonly 0)
      [⟨process 0 3, .openat none (ascii ".") .rdonly 0, .ok 3⟩, ⟨w₁, .geteuid, 0⟩,
        ⟨w₁, .fstatat 3 (ascii "f"), .ok ⟨0, 0, 5⟩⟩, ⟨w₁, .openat (some 3) (ascii "f" ++ []) .rdonly 0, .ok 4⟩,
        ⟨w₃, .close 3, ()⟩, ⟨w₄, .fstat 4, .ok ⟨0, 0, 5⟩⟩] w₄ (.ok 4) := by
    rw [safeOpenCreatePerms_f]
    refine .call (opens_dot 0 3) (.call ⟨rfl, rfl⟩ (.call hexamined (.call hopen (.other (exchanged rfl) ?_))))
    exact .call rfl (.call hstat (.done _ _))
  refine ⟨_, w₄, hrun, safeOpenCreatePerms_safe (by decide) (by decide) hrun fun p hp => ?_⟩
  obtain rfl := List.mem_singleton.mp hp
  rintro stat_before entry - ⟨dir, hdir, hentry⟩ hlink
  obtain rfl := Option.some.inj hdir
  obtain rfl := Option.some.inj hentry
  cases hlink

end Libntech.Files
