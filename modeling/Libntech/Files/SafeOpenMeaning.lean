import Libntech.Files.Resolution

/-! # How a run of safe_open_create_perms goes on

A run opens component after component: `fstatat` reports an entry, `openat` opens something under its name, and `fstat`
of what was opened decides whether the walk goes on. Each rule says what is left to show for the calls of one part of the
code, whatever others do between the calls.
-/
namespace Libntech.Files
set_option autoImplicit false

open Libntech.Json
open Libntech.Lib (Event Program)
open Relation (ReflTransGen)

/-! ## Passages -/

abbrev Trace := List (Event World Call Answer)

/-- A component that was opened: what `fstatat` said of it, and the worlds right before `fstatat` and `openat`. -/
structure Passage where
  dirfd : Fd
  name : Bytes
  before : Except Errno Stat
  examined : World
  opened : World

/-- The components that were opened in a run. -/
def passages : Trace → List Passage
  | [] => []
  | ⟨examined, .fstatat dirfd name, before⟩ :: rest =>
    match rest.head? with
    | some ⟨opened, .openat _ _ _ _, .ok _⟩ => ⟨dirfd, name, before, examined, opened⟩ :: passages rest
    | _ => passages rest
  | _ :: rest => passages rest

/-- What was opened. -/
def Passage.Leads (p : Passage) (ino : ℕ) (object : Inode) : Prop :=
  ∃ dir, p.opened.fds p.dirfd = some dir ∧ Resolves p.opened.fs true dir [p.name] (.object ino) ∧
    p.opened.fs.inode ino = some object

/-! ## Between the calls -/

/-- The process has the same descriptors and the same user, and what is open keeps its owner. -/
structure Foreign (w w' : World) : Prop where
  fds : w'.fds = w.fds
  euid : w'.euid = w.euid
  owner : ∀ fd ino node, w.fds fd = some ino → w.fs.inode ino = some node →
    ∃ node', w'.fs.inode ino = some node' ∧ node'.uid = node.uid ∧ node'.gid = node.gid

theorem Foreign.refl (w : World) : Foreign w w := ⟨rfl, rfl, fun _ _ node _ hino => ⟨node, hino, rfl, rfl⟩⟩

variable {flags : OpenFlags} {w₁ : World} {stat_before : Stat}

theorem Foreign.trans {w w₂ : World} (h : Foreign w w₁) (h' : Foreign w₁ w₂) : Foreign w w₂ := by
  refine ⟨h'.fds.trans h.fds, h'.euid.trans h.euid, fun fd ino node hfd hino => ?_⟩
  obtain ⟨node₁, hino₁, huid₁, hgid₁⟩ := h.owner fd ino node hfd hino
  obtain ⟨node₂, hino₂, huid₂, hgid₂⟩ := h'.owner fd ino node₁ (by rw [h.fds]; exact hfd) hino₁
  exact ⟨node₂, hino₂, huid₂.trans huid₁, hgid₂.trans hgid₁⟩

theorem Foreign.steps {other : World → World → Prop} (hother : ∀ w w', other w w' → Foreign w w') {w w' : World}
    (h : ReflTransGen other w w') : Foreign w w' := by
  induction h with
  | refl => exact .refl w
  | tail _ hstep ih => exact ih.trans (hother _ _ hstep)

/-- Root, or who `p_uid` stands for, or the owner and group of what was opened. -/
theorem untrusted_eq_false {p_uid : ℕ} {stat_after : Stat} :
    untrusted p_uid stat_before stat_after = false ↔ stat_before.uid = 0 ∨ stat_before.uid = p_uid ∨
      stat_before.uid = stat_after.uid ∧ stat_before.gid = stat_after.gid := by
  simp only [untrusted, Bool.and_eq_false_iff, Bool.or_eq_false_iff, decide_eq_false_iff_not, not_not, or_assoc, ne_eq]

theorem untrusted_congr {p_uid : ℕ} {a b : Stat} (huid : a.uid = b.uid) (hgid : a.gid = b.gid) :
    untrusted p_uid stat_before a = untrusted p_uid stat_before b := by
  rw [untrusted, untrusted, huid, hgid]

/-- The directory that the path of a call starts from. -/
def World.origin (w : World) (path : Bytes) : ℕ := if isAbsolute path then w.fs.root else w.cwd

/-- What comes behind `openat` of the first directory. -/
def openFrom (flags : OpenFlags) (create_perms : ℕ) (comps : List Component) : Except Errno Fd → OpenProgram
  | .error errno => .done (.error errno)
  | .ok currentfd =>
    .call .geteuid fun euid => openComponents flags create_perms (pUid euid) currentfd none flags comps

/-- Slashes in front of the first component are eliminated, as behind the others. -/
theorem safeOpenCreatePerms_eq (c : UInt8) (rest : Bytes) (flags : OpenFlags) (create_perms : ℕ) :
    safeOpenCreatePerms (some (c :: rest)) flags create_perms =
      .call (.openat none (if c = slash then ascii "/" else ascii ".") .rdonly 0)
        (openFrom flags create_perms (components ((c :: rest).dropWhile (· = slash)))) := by
  have hnext : (if c = slash then rest.dropWhile (· = slash) else c :: rest) = (c :: rest).dropWhile (· = slash) := by
    by_cases hc : c = slash
    · rw [if_pos hc, List.dropWhile_cons_of_pos (by simpa using hc)]
    · rw [if_neg hc, List.dropWhile_cons_of_neg (by simpa using hc)]
  unfold safeOpenCreatePerms
  dsimp only
  rw [hnext]
  congr 1
  funext opened
  cases opened with
  | error errno => rfl
  | ok currentfd => rfl

/-! ## Single calls -/

section Calls

variable {w w' : World} {currentfd fd : Fd} {component : Component} {flags : OpenFlags}

theorem fstatat_reports {answer : Except Errno Stat} (hproper : component.Proper)
    (h : Serves w (.fstatat currentfd component.name) answer w') : w' = w ∧
      ((∃ errno, answer = .error errno ∧ errno ≠ .enolink) ∨ ∃ dir entry, w.fds currentfd = some dir ∧
        w.fs.lstat dir component.name = some entry ∧ answer = .ok entry.stat) := by
  obtain ⟨hworld, herror | ⟨dir, ino, node, hdir, hleads, hino, hanswer⟩⟩ := h
  · exact ⟨hworld, .inl herror⟩
  · rw [hproper.start_name] at hdir
    rw [hproper.components_name] at hleads
    refine ⟨hworld, .inr ⟨dir, node, hdir, ?_, hanswer⟩⟩
    rw [FileSystem.lstat, hleads.entry_eq, Option.bind_some, hino]

/-- What is opened is what the name leads to. -/
structure Reached (w : World) (currentfd : Fd) (component : Component) (flags : OpenFlags) (fd : Fd) (w' : World)
    (dir ino : ℕ) (object : Inode) : Prop where
  start : w.fds currentfd = some dir
  leads : Resolves w.fs true dir [component.name] (.object ino)
  found : w.fs.inode ino = some object
  slashes : component.slashes ≠ [] → w.fs.isDirectory ino
  writes : w.fs.isDirectory ino → flags.writes = false
  free : w.fds fd = none
  fds : w'.fds = Function.update w.fds fd (some ino)
  euid : w'.euid = w.euid
  owner : ∃ node, w'.fs.inode ino = some node ∧ node.uid = object.uid ∧ node.gid = object.gid
  kept : flags.trunc = false → w' = w.assign fd (some ino)

theorem opens_reached (hproper : component.Proper) (hcreat : flags.creat = false)
    (h : Opens w (some currentfd) (component.name ++ component.slashes) flags (.ok fd) w') :
    ∃ dir ino object, Reached w currentfd component flags fd w' dir ino object := by
  cases h with
  | created _ hcreat' _ _ _ _ =>
    rw [hcreat] at hcreat'
    cases hcreat'
  | @existing dir ino _ hdir hleads hslash hwrites _ hfree =>
    rw [hproper.start] at hdir
    rw [hproper.components_text] at hleads
    obtain ⟨object, hobject⟩ := hleads.inode_of_name
    refine ⟨dir, ino, object, hdir, hleads, hobject, fun hne => hslash (hproper.getLast_eq.mpr hne), fun hdirectory => ?_,
      hfree, rfl, rfl, ?_, fun hkeeps => ?_⟩
    · have hboth := hwrites hdirectory
      rw [hcreat, Bool.or_false] at hboth
      exact hboth
    · show ∃ node, (if flags.trunc && flags.writes then w.fs.truncate ino 0 else w.fs).inode ino = some node ∧ _
      split
      · exact ⟨{ object with size := 0 }, by simp [FileSystem.truncate, hobject], rfl, rfl⟩
      · exact ⟨object, hobject, rfl, rfl⟩
    · rw [hkeeps]
      rfl
  | @truncating dir ino _ hdir hleads hslash _ _ htrunc hwrites hfree =>
    rw [hproper.start] at hdir
    rw [hproper.components_text] at hleads
    obtain ⟨object, hobject⟩ := hleads.inode_of_name
    refine ⟨dir, ino, object, hdir, hleads, hobject, fun hne => hslash (hproper.getLast_eq.mpr hne), fun _ => hwrites,
      hfree, rfl, rfl, ?_, fun hkeeps => ?_⟩
    · exact ⟨{ object with size := 0 }, by simp [World.assign, FileSystem.truncate, hobject], rfl, rfl⟩
    · rw [hkeeps] at htrunc
      cases htrunc

/-- With `O_CREAT` and `O_EXCL` the name was free. -/
theorem opens_created (hproper : component.Proper) (hcreat : flags.creat = true) (hexcl : flags.excl = true)
    (h : Opens w (some currentfd) (component.name ++ component.slashes) flags (.ok fd) w') :
    ∃ dir, w.fds currentfd = some dir ∧ w.fs.isDirectory dir ∧ w.fs.entry dir component.name = none ∧
      component.slashes = [] := by
  cases h with
  | existing _ _ _ _ hboth _ =>
    rw [hcreat, hexcl] at hboth
    cases hboth
  | truncating _ _ _ _ hboth _ _ _ =>
    rw [hcreat, hexcl] at hboth
    cases hboth
  | @created start dir ino gid name _ hfree _ hstart hleads hslash _ =>
    rw [hproper.start] at hstart
    rw [hproper.components_text, hexcl] at hleads
    obtain ⟨rfl, rfl, hdirectory, hentry⟩ := hleads.vacant_eq
    refine ⟨dir, hstart, hdirectory, hentry, ?_⟩
    by_contra hne
    exact hslash (hproper.getLast_eq.mpr hne)

end Calls

/-- A component that is there is examined and opened. -/
structure Visit (other : World → World → Prop) (w : World) (p : Passage) (stat_before : Stat) (ino : ℕ) (object : Inode) :
    Prop where
  before : p.before = .ok stat_before
  examined : ReflTransGen other w p.examined
  reported : ∃ dir entry, p.examined.fds p.dirfd = some dir ∧ p.examined.fs.lstat dir p.name = some entry ∧
    stat_before = entry.stat
  opened : ReflTransGen other p.examined p.opened
  leads : p.Leads ino object

/-! ## The last component -/

/-- What is asked of an object that is there to be opened with such flags. -/
structure Openable (flags : OpenFlags) (slashed : Prop) (fs : FileSystem) (ino : ℕ) : Prop where
  excl : (flags.creat && flags.excl) = false
  slashes : slashed → fs.isDirectory ino
  writes : fs.isDirectory ino → flags.writes = false

/-- What is asked of a name to be created. -/
structure Creatable (flags : OpenFlags) (slashed : Prop) (fs : FileSystem) (dir : ℕ) (name : Bytes) : Prop where
  creat : flags.creat = true
  slashes : ¬ slashed
  directory : fs.isDirectory dir
  vacant : fs.entry dir name = none

/-- `O_TRUNC` aside, the flags of each attempt are the original ones. -/
structure SameFlags (orig_flags flags : OpenFlags) : Prop where
  access : flags.access = orig_flags.access
  creat : flags.creat = orig_flags.creat
  excl : flags.excl = orig_flags.excl

theorem SameFlags.refl (flags : OpenFlags) : SameFlags flags flags := ⟨rfl, rfl, rfl⟩

theorem SameFlags.withoutTrunc {orig_flags : OpenFlags} (h : SameFlags orig_flags flags) :
    SameFlags orig_flags (withoutTrunc orig_flags flags) := by
  unfold Files.withoutTrunc
  split
  · exact ⟨h.access, h.creat, h.excl⟩
  · exact h

/-! ## The rules -/

section Rules

variable {other : World → World → Prop} {w : World} {p_uid : ℕ}

variable {fd : Fd} {post : Trace → World → Except Errno Fd → Prop} {final_size : Option ℕ}

theorem fail_ensures {errno : Errno} (h : ∀ world w', post [⟨world, .close fd, ()⟩] w' (.error errno)) :
    (fail fd errno).Ensures Serves other w post :=
  fun world _ _ _ _ w' _ => h world w'

theorem truncateOpened_ensures {trunc : Bool}
    (herror : ∀ trace w' errno, errno ≠ .enolink → post trace w' (.error errno)) (hok : ∀ w', post [] w' (.ok fd))
    (htruncated : ∀ world w', post [⟨world, .ftruncate fd 0, .ok ()⟩] w' (.ok fd)) :
    (truncateOpened trunc fd final_size).Ensures Serves other w post := by
  unfold truncateOpened
  split
  · split
    · rintro world answer w₁ - (⟨-, errno, rfl, hne⟩ | ⟨-, -, -, rfl⟩)
      · exact fail_ensures fun _ _ => herror _ _ errno hne
      · exact fun w' _ => htruncated world w'
    · exact fun w' _ => hok w'
  · exact fun w' _ => hok w'

variable (hother : ∀ w w', other w w' → Foreign w w')
include hother

theorem recheck_ensures {next : Option ℕ → OpenProgram} {ino : ℕ} {node : Inode} (hfd : w.fds fd = some ino)
    (hino : w.fs.inode ino = some node) (herror : ∀ trace w' errno, errno ≠ .enolink → post trace w' (.error errno))
    (hrefused : untrusted p_uid stat_before node.stat = true → ∀ trace w', post trace w' (.error .enolink))
    (hnext : untrusted p_uid stat_before node.stat = false → ∀ w₁ stat_after, ReflTransGen other w w₁ →
      (next (some stat_after.size)).Ensures Serves other w₁ fun trace =>
        post (⟨w₁, .fstat fd, .ok stat_after⟩ :: trace)) :
    (recheck p_uid fd (some stat_before) final_size next).Ensures Serves other w post := by
  rintro _ answer w₁ hsteps ⟨rfl, ⟨errno, rfl, hne⟩ | ⟨ino', node', hfd', hino', rfl⟩⟩
  · exact fail_ensures fun _ _ => herror _ _ errno hne
  · have hforeign := Foreign.steps hother hsteps
    rw [hforeign.fds, hfd] at hfd'
    obtain rfl := Option.some.inj hfd'
    obtain ⟨node'', hino'', huid, hgid⟩ := hforeign.owner fd ino node hfd hino
    rw [hino'] at hino''
    obtain rfl := Option.some.inj hino''
    have hsame : untrusted p_uid stat_before node'.stat = untrusted p_uid stat_before node.stat :=
      untrusted_congr huid hgid
    dsimp only
    rw [hsame]
    cases htrust : untrusted p_uid stat_before node.stat with
    | true => exact fail_ensures fun _ _ => hrefused htrust _ _
    | false => exact hnext htrust w₁ node'.stat hsteps

/-- Of the passages that a run goes through from here on, and of its result. -/
abbrev Promises (other : World → World → Prop) (w : World) (program : OpenProgram)
    (R : List Passage → Except Errno Fd → Prop) : Prop :=
  program.Ensures Serves other w fun trace _ result => R (passages trace) result

variable {R : List Passage → Except Errno Fd → Prop} {currentfd : Fd} {component : Component}

/-- The descriptor that was opened is still there after the one before was closed. -/
theorem fds_closed {w' : World} {dir ino : ℕ} {object : Inode}
    (h : Reached w currentfd component flags fd w' dir ino object) (hsteps : ReflTransGen other w' w₁) :
    (w₁.assign currentfd none).fds fd = some ino ∧ ∃ node, (w₁.assign currentfd none).fs.inode ino = some node ∧
      node.uid = object.uid ∧ node.gid = object.gid := by
  have hforeign := Foreign.steps hother hsteps
  have hne : fd ≠ currentfd := by
    rintro rfl
    have hstart := h.start
    rw [h.free] at hstart
    cases hstart
  have hfd : w'.fds fd = some ino := by
    rw [h.fds]
    exact Function.update_self ..
  obtain ⟨node, hnode, huid, hgid⟩ := h.owner
  obtain ⟨node', hnode', huid', hgid'⟩ := hforeign.owner fd ino node hfd hnode
  refine ⟨?_, node', hnode', huid'.trans huid, hgid'.trans hgid⟩
  show Function.update w₁.fds currentfd none fd = some ino
  rw [Function.update_of_ne hne, hforeign.fds, hfd]

theorem openDirectory_promises {next : Fd → Option ℕ → OpenProgram} (hproper : component.Proper)
    (herror : ∀ ps errno, errno ≠ .enolink → R ps (.error errno))
    (hrefused : ∀ p stat_before ino object, p.name = component.name → p.dirfd = currentfd →
      Visit other w p stat_before ino object → untrusted p_uid stat_before object.stat = true →
        ∀ ps, R ps (.error .enolink))
    (hnext : ∀ p stat_before ino object, p.name = component.name → p.dirfd = currentfd →
      Visit other w p stat_before ino object → untrusted p_uid stat_before object.stat = false →
        ∀ fd w' w₁ size, ReflTransGen other (p.opened.assign fd (some ino)) w' →
          ReflTransGen other (w'.assign currentfd none) w₁ → w₁.fds fd = some ino →
            Promises other w₁ (next fd size) fun ps => R (p :: ps)) :
    Promises other w (openDirectory p_uid currentfd component.name final_size next) R := by
  intro w₁ before w₂ hexamined hserves
  obtain ⟨rfl, ⟨errno, rfl, hne⟩ | ⟨dir, entry, hdir, hentry, rfl⟩⟩ := fstatat_reports hproper hserves
  · exact fail_ensures fun _ _ => herror _ errno hne
  · rintro w₃ opened w₄ hsteps hopens w₅ _ _ hsteps' rfl
    cases opened with
    | error errno =>
      cases hopens with
      | refused hne => exact fun _ _ => herror _ errno hne
    | ok fd =>
      have hproper' : Component.Proper ⟨component.name, []⟩ := ⟨hproper.nonempty, hproper.noSlash, nofun⟩
      rw [← List.append_nil component.name] at hopens
      obtain ⟨dir', ino, object, hreached⟩ := opens_reached hproper' rfl hopens
      obtain ⟨hfd, node, hnode, huid, hgid⟩ := fds_closed hother hreached hsteps'
      have hvisit : Visit other w ⟨currentfd, component.name, .ok entry.stat, w₂, w₃⟩ entry.stat ino object :=
        ⟨rfl, hexamined, ⟨dir, entry, hdir, hentry, rfl⟩, hsteps, dir', hreached.start, hreached.leads, hreached.found⟩
      have hsame : untrusted p_uid entry.stat node.stat = untrusted p_uid entry.stat object.stat :=
        untrusted_congr huid hgid
      refine recheck_ensures hother hfd hnode (fun _ _ errno hne => herror _ errno hne) (fun htrust _ _ => ?_)
        fun htrust w₁ stat_after hsteps'' => ?_
      · exact hrefused _ _ _ _ rfl rfl hvisit (hsame ▸ htrust) _
      · obtain rfl := hreached.kept rfl
        refine hnext _ _ _ _ rfl rfl hvisit (hsame ▸ htrust) fd w₅ w₁ _ hsteps' hsteps'' ?_
        rw [(Foreign.steps hother hsteps'').fds]
        exact hfd

section Last

variable {orig_flags : OpenFlags} {create_perms : ℕ} {final_size : Option ℕ} (hproper : component.Proper)
  (herror : ∀ ps errno, errno ≠ .enolink → R ps (.error errno))
  (hrefused : ∀ p stat_before ino object, p.name = component.name → p.dirfd = currentfd →
    Visit other w p stat_before ino object → Openable orig_flags (component.slashes ≠ []) p.opened.fs ino →
      untrusted p_uid stat_before object.stat = true → ∀ ps, R ps (.error .enolink))
  (hpassed : ∀ p stat_before ino object, p.name = component.name → p.dirfd = currentfd →
    Visit other w p stat_before ino object → Openable orig_flags (component.slashes ≠ []) p.opened.fs ino →
      untrusted p_uid stat_before object.stat = false → ∀ fd, R [p] (.ok fd))
  (hcreated : ∀ p errno dir, p.name = component.name → p.before = .error errno → ReflTransGen other w p.examined →
    ReflTransGen other p.examined p.opened → p.opened.fds currentfd = some dir →
      Creatable orig_flags (component.slashes ≠ []) p.opened.fs dir component.name → ∀ fd, R [p] (.ok fd))
include hproper herror hrefused hpassed hcreated

variable {again : OpenProgram}

omit hcreated in
theorem openLast_old {trunc : Bool} {dir : ℕ} {entry : Inode} (hexcl : (orig_flags.creat && orig_flags.excl) = false)
    (haccess : flags.access = orig_flags.access) (hcreat : flags.creat = false)
    (hagain : ∀ w₁, ReflTransGen other w w₁ → Promises other w₁ again R) (hexamined : ReflTransGen other w w₁)
    (hdir : w₁.fds currentfd = some dir) (hentry : w₁.fs.lstat dir component.name = some entry) :
    (openLast orig_flags create_perms p_uid again currentfd component final_size (some entry.stat) trunc
      flags).Ensures Serves other w₁ fun trace _ result =>
        R (passages (⟨w₁, .fstatat currentfd component.name, .ok entry.stat⟩ :: trace)) result := by
  rintro w₂ opened w₃ hsteps hopens
  cases opened with
  | error errno =>
    cases hopens with
    | refused hne =>
      dsimp only
      split
      · exact hagain w₂ (hexamined.trans hsteps)
      · exact fail_ensures fun _ _ => herror _ errno hne
  | ok fd =>
    rintro w₄ _ _ hsteps' rfl
    obtain ⟨dir', ino, object, hreached⟩ := opens_reached hproper hcreat hopens
    obtain ⟨hfd, node, hnode, huid, hgid⟩ := fds_closed hother hreached hsteps'
    have hvisit : Visit other w ⟨currentfd, component.name, .ok entry.stat, w₁, w₂⟩ entry.stat ino object :=
      ⟨rfl, hexamined, ⟨dir, entry, hdir, hentry, rfl⟩, hsteps, dir', hreached.start, hreached.leads, hreached.found⟩
    have hopenable : Openable orig_flags (component.slashes ≠ []) w₂.fs ino := by
      refine ⟨hexcl, hreached.slashes, fun hdirectory => ?_⟩
      have hwrites := hreached.writes hdirectory
      rw [OpenFlags.writes, haccess] at hwrites
      exact hwrites
    have hsame : untrusted p_uid entry.stat node.stat = untrusted p_uid entry.stat object.stat :=
      untrusted_congr huid hgid
    refine recheck_ensures hother hfd hnode (fun _ _ errno hne => herror _ errno hne) (fun htrust _ _ => ?_)
      fun htrust w₅ stat_after _ => truncateOpened_ensures (fun _ _ errno hne => herror _ errno hne) (fun _ => ?_)
        fun _ _ => ?_
    · exact hrefused _ _ _ _ rfl rfl hvisit hopenable (hsame ▸ htrust) _
    · exact hpassed _ _ _ _ rfl rfl hvisit hopenable (hsame ▸ htrust) fd
    · exact hpassed _ _ _ _ rfl rfl hvisit hopenable (hsame ▸ htrust) fd

omit hother hrefused hpassed in
theorem openLast_new {errno : Errno} (horig : orig_flags.creat = true) (hcreat : flags.creat = true)
    (hexcl : flags.excl = true) (hagain : ∀ w₁, ReflTransGen other w w₁ → Promises other w₁ again R)
    (hexamined : ReflTransGen other w w₁) :
    (openLast orig_flags create_perms p_uid again currentfd component final_size none false flags).Ensures Serves other w₁
      fun trace _ result => R (passages (⟨w₁, .fstatat currentfd component.name, .error errno⟩ :: trace)) result := by
  rintro w₂ opened w₃ hsteps hopens
  cases opened with
  | error errno =>
    cases hopens with
    | refused hne =>
      dsimp only
      split
      · exact hagain w₂ (hexamined.trans hsteps)
      · exact fail_ensures fun _ _ => herror _ errno hne
  | ok fd =>
    rintro w₄ _ _ hsteps' rfl
    obtain ⟨dir, hdir, hdirectory, hentry, hslashes⟩ := opens_created hproper hcreat hexcl hopens
    exact fun _ _ => hcreated ⟨currentfd, component.name, .error errno, w₁, w₂⟩ errno dir rfl rfl hexamined hsteps hdir
      ⟨horig, not_not.mpr hslashes, hdirectory, hentry⟩ fd

theorem attempt_promises {w₀ : World} (hfrom : ReflTransGen other w w₀) (hflags : SameFlags orig_flags flags)
    (hagain : ∀ w₁, ReflTransGen other w w₁ → Promises other w₁ again R) :
    Promises other w₀ (attempt orig_flags create_perms p_uid again currentfd component final_size flags) R := by
  have hflags' := hflags.withoutTrunc
  unfold attempt
  dsimp only
  generalize withoutTrunc orig_flags flags = flags at hflags'
  intro w₁ before w₂ hexamined hserves
  obtain ⟨rfl, ⟨errno, rfl, hne⟩ | ⟨dir, entry, hdir, hentry, rfl⟩⟩ := fstatat_reports hproper hserves
  · dsimp only
    split
    · exact fail_ensures fun _ _ => herror _ errno hne
    · rename_i hnew
      have hcreat : flags.creat = true := by
        by_contra hno
        exact hnew (by rw [Bool.eq_false_iff.mpr hno]; simp)
      exact openLast_new hproper herror hcreated (hflags'.creat ▸ hcreat) hcreat rfl hagain (hfrom.trans hexamined)
  · dsimp only
    split
    · exact fail_ensures fun _ _ => herror _ _ nofun
    · rename_i hold
      have hexcl : (orig_flags.creat && orig_flags.excl) = false := by
        rw [← hflags'.creat, ← hflags'.excl]
        exact Bool.eq_false_iff.mpr hold
      exact openLast_old hother hproper herror hrefused hpassed hexcl hflags'.access rfl hagain (hfrom.trans hexamined)
        hdir hentry

/-- Failed calls change nothing, so each attempt starts like the first one. -/
theorem attempts_promises (left : ℕ) : ∀ {w₀ : World} {flags : OpenFlags}, ReflTransGen other w w₀ →
    SameFlags orig_flags flags →
    Promises other w₀ (attempts orig_flags create_perms p_uid currentfd component final_size left flags) R := by
  induction left with
  | zero =>
    intro w₀ flags hfrom hflags
    exact attempt_promises hother hproper herror hrefused hpassed hcreated hfrom hflags fun _ _ =>
      fail_ensures fun _ _ => herror _ _ nofun
  | succ left ih =>
    intro w₀ flags hfrom hflags
    exact attempt_promises hother hproper herror hrefused hpassed hcreated hfrom hflags fun _ hfrom' =>
      ih hfrom' (.refl orig_flags)

end Last

/-! ## The beginning -/

omit hother in
theorem opens_origin {c : UInt8} (rest : Bytes)
    (h : Opens w none (if c = slash then ascii "/" else ascii ".") .rdonly (.ok fd) w₁) :
    w₁ = w.assign fd (some (w.origin (c :: rest))) := by
  cases h with
  | created _ hcreat _ _ _ _ => cases hcreat
  | truncating _ _ _ _ _ htrunc _ _ => cases htrunc
  | @existing start ino _ hstart hleads _ _ _ _ =>
    have hino : ino = w.origin (c :: rest) := by
      unfold World.origin isAbsolute
      by_cases hc : c = slash
      · rw [if_pos hc] at hstart hleads
        have hroot : start = w.fs.root := (Option.some.inj hstart).symm
        have hhere : Resolves w.fs true start [] (.object ino) := hleads
        cases hhere
        simp [hc, hroot]
      · rw [if_neg hc] at hstart hleads
        have hcwd : start = w.cwd := (Option.some.inj hstart).symm
        have hdot : Resolves w.fs true start [ascii "."] (.object ino) := hleads
        rw [hdot.dot, hcwd]
        simp [hc]
    rw [hino]
    rfl

theorem safeOpenCreatePerms_promises {path : Bytes} {create_perms : ℕ}
    (herror : ∀ ps errno, errno ≠ .enolink → R ps (.error errno))
    (hopen : ∀ w₀ w₁ fd, ReflTransGen other w w₀ → ReflTransGen other (w₀.assign fd (some (w₀.origin path))) w₁ →
      Promises other w₁ (openComponents flags create_perms (pUid w.euid) fd none flags
        (components (path.dropWhile (· = slash)))) R) :
    Promises other w (safeOpenCreatePerms (some path) flags create_perms) R := by
  cases path with
  | nil => exact fun _ _ => herror _ _ nofun
  | cons c rest =>
    rw [safeOpenCreatePerms_eq]
    rintro w₀ opened w₁ hfrom hopens
    cases opened with
    | error errno =>
      cases hopens with
      | refused hne => exact fun _ _ => herror _ errno hne
    | ok fd =>
      obtain rfl := opens_origin rest hopens
      rintro w₂ euid _ hsteps ⟨rfl, rfl⟩
      have heuid := (Foreign.steps hother hsteps).euid.trans (Foreign.steps hother hfrom).euid
      have hrest := hopen w₀ _ fd hfrom hsteps
      rw [← heuid] at hrest
      exact hrest

end Rules

end Libntech.Files
