import Libntech.Files.Creation
import Libntech.Files.Swaps
import Libntech.Files.TrustRule

/-! # Which symlinks are followed

The trust rule for calls in a file system that nobody else changes: it holds unless `p_uid` takes one user for another.
-/
namespace Libntech.Files
set_option autoImplicit false

open Libntech.Json
open Libntech.Lib (Program)
open Relation (ReflTransGen)

/-! ## What a run finds out -/

theorem unchanged_foreign (w w' : World) (h : Unchanged w w') : Foreign w w' := h.elim

theorem unchanged_steps {w w' : World} (h : ReflTransGen Unchanged w w') : w' = w := by
  induction h with
  | refl => rfl
  | tail _ hstep _ => exact hstep.elim

section Outcome

variable (fs : FileSystem) (euid : ℕ) (flags : OpenFlags) (slashed : Prop)

/-- A result, and what it says of the components. -/
structure Outcome (dir : ℕ) (names : List Bytes) (result : Except Errno Fd) : Prop where
  opened : ∀ fd, result = .ok fd → (∀ c, Occurs fs dir names c → c.Verdict fs euid flags slashed false) ∧
    (names ≠ [] → Arrives fs flags slashed dir names)
  refused : result = .error .enolink → ∃ c, Occurs fs dir names c ∧ c.Verdict fs euid flags slashed true

variable {fs euid flags slashed} {dir ino : ℕ} {name : Bytes} {names : List Bytes} {entry object : Inode}
  {result : Except Errno Fd}

theorem Outcome.error {errno : Errno} (h : errno ≠ .enolink) : Outcome fs euid flags slashed dir names (.error errno) :=
  ⟨nofun, fun heq => absurd (Except.error.inj heq) h⟩

theorem Outcome.nil (fd : Fd) : Outcome fs euid flags slashed dir [] (.ok fd) :=
  ⟨fun _ _ => ⟨fun _ hoccurs => hoccurs.not_nil.elim, fun hne => absurd rfl hne⟩, nofun⟩

theorem Outcome.here (hentry : fs.lstat dir name = some entry)
    (h : Occurrence.Verdict fs euid flags slashed ⟨dir, name, names, entry⟩ true) :
    Outcome fs euid flags slashed dir (name :: names) (.error .enolink) :=
  ⟨nofun, fun _ => ⟨_, .here hentry, h⟩⟩

theorem Arrives.cons (hleads : Resolves fs true dir [name] (.object ino)) (h : Arrives fs flags slashed ino names) :
    Arrives fs flags slashed dir (name :: names) := by
  obtain ⟨front, dir', name', rfl, hfront, hlast⟩ := h
  exact ⟨name :: front, dir', name', rfl, hleads.append hfront, hlast⟩

theorem Outcome.behind (hentry : fs.lstat dir name = some entry) (hleads : Resolves fs true dir [name] (.object ino))
    (hpasses : Occurrence.Verdict fs euid flags slashed ⟨dir, name, names, entry⟩ false) (hne : names ≠ [])
    (h : Outcome fs euid flags slashed ino names result) :
    Outcome fs euid flags slashed dir (name :: names) result := by
  constructor
  · intro fd hresult
    obtain ⟨hall, harrives⟩ := h.opened fd hresult
    refine ⟨fun c hoccurs => ?_, fun _ => (harrives hne).cons hleads⟩
    rcases hoccurs.cases with ⟨entry', hentry', rfl⟩ | ⟨ino', hleads', hbehind⟩
    · rw [hentry] at hentry'
      obtain rfl := Option.some.inj hentry'
      exact hpasses
    · obtain rfl := Place.object.inj (hleads.unique hleads')
      exact hall c hbehind
  · intro hresult
    obtain ⟨c, hoccurs, hrefused⟩ := h.refused hresult
    exact ⟨c, hoccurs.behind hleads, hrefused⟩

theorem Outcome.last (hentry : fs.lstat dir name = some entry)
    (hpasses : Occurrence.Verdict fs euid flags slashed ⟨dir, name, [], entry⟩ false) (fd : Fd) :
    Outcome fs euid flags slashed dir [name] (.ok fd) := by
  refine ⟨fun _ _ => ⟨fun c hoccurs => ?_, fun _ => ⟨[], dir, name, rfl, .here dir, .inl ⟨entry, hentry⟩⟩⟩, nofun⟩
  rcases hoccurs.cases with ⟨entry', hentry', rfl⟩ | ⟨_, _, hbehind⟩
  · rw [hentry] at hentry'
    obtain rfl := Option.some.inj hentry'
    exact hpasses
  · exact hbehind.not_nil.elim

theorem Outcome.create (h : Creatable flags slashed fs dir name) (fd : Fd) :
    Outcome fs euid flags slashed dir [name] (.ok fd) := by
  refine ⟨fun _ _ => ⟨fun c hoccurs => ?_, fun _ => ⟨[], dir, name, rfl, .here dir, .inr h⟩⟩, nofun⟩
  obtain ⟨name', rest, entry', hnames, hentry'⟩ := hoccurs.first
  obtain ⟨rfl, rfl⟩ := List.cons.inj hnames
  rw [FileSystem.lstat, h.vacant] at hentry'
  cases hentry'

end Outcome

/-- In a file system that does not change, what is examined is what is opened. -/
theorem Visit.unchanged {w : World} {p : Passage} {stat_before : Stat} {name : Bytes} {currentfd : Fd} {dir ino : ℕ}
    {object : Inode} (h : Visit Unchanged w p stat_before ino object) (hname : p.name = name)
    (hdirfd : p.dirfd = currentfd) (hdir : w.fds currentfd = some dir) :
    p.opened = w ∧ (∃ entry, w.fs.lstat dir name = some entry ∧ stat_before = entry.stat) ∧
      Resolves w.fs true dir [name] (.object ino) ∧ w.fs.inode ino = some object := by
  subst hname hdirfd
  have hexamined := unchanged_steps h.examined
  have hopened := (unchanged_steps h.opened).trans hexamined
  obtain ⟨dir', entry, hdir', hentry, hstat⟩ := h.reported
  obtain ⟨dir'', hdir'', hleads, hobject⟩ := h.leads
  rw [hexamined, hdir] at hdir'
  obtain rfl := Option.some.inj hdir'
  rw [hopened, hdir] at hdir''
  obtain rfl := Option.some.inj hdir''
  rw [hexamined] at hentry
  rw [hopened] at hleads hobject
  exact ⟨hopened, ⟨entry, hentry, hstat⟩, hleads, hobject⟩

variable {flags orig_flags : OpenFlags} {create_perms : ℕ}

theorem openComponents_outcome {euid : ℕ} {slashed : Prop} {fs : FileSystem} (comps : List Component)
    (hproper : ∀ c ∈ comps, c.Proper) (hslashed : LastSlashed comps slashed) :
    ∀ {w : World} {currentfd : Fd} {final_size : Option ℕ} {flags : OpenFlags} {dir : ℕ}, SameFlags orig_flags flags →
      w.fs = fs → w.fds currentfd = some dir →
      Promises Unchanged w (openComponents orig_flags create_perms (pUid euid) currentfd final_size flags comps)
        fun _ => Outcome fs euid orig_flags slashed dir (comps.map Component.name) := by
  induction comps with
  | nil =>
    intro w currentfd final_size flags dir _ _ _
    exact truncateOpened_ensures (fun _ _ _ hne => .error hne) (fun _ => .nil _) fun _ _ => .nil _
  | cons component comps ih =>
    intro w currentfd final_size flags dir hflags hfs hdir
    subst hfs
    obtain ⟨hfirst, hrest⟩ := List.forall_mem_cons.mp hproper
    cases comps with
    | nil =>
      obtain rfl := hslashed.eq
      refine attempts_promises unchanged_foreign hfirst (fun _ _ hne => .error hne)
        (fun p _ ino object hname hdirfd hvisit hopenable htrust _ => ?_)
        (fun p _ ino object hname hdirfd hvisit hopenable htrust fd => ?_)
        (fun p _ dir' hname _ hexamined hopened hdir' hcreatable fd => ?_) 3 .refl hflags
      · obtain ⟨hworld, ⟨entry, hentry, rfl⟩, hleads, hobject⟩ := hvisit.unchanged hname hdirfd hdir
        exact .here hentry ⟨ino, object, ⟨hleads, hobject⟩, htrust, fun _ => hworld ▸ hopenable⟩
      · obtain ⟨hworld, ⟨entry, hentry, rfl⟩, hleads, hobject⟩ := hvisit.unchanged hname hdirfd hdir
        exact .last hentry ⟨ino, object, ⟨hleads, hobject⟩, htrust, fun _ => hworld ▸ hopenable⟩ fd
      · have hworld := (unchanged_steps hopened).trans (unchanged_steps hexamined)
        rw [hworld, hdir] at hdir'
        obtain rfl := Option.some.inj hdir'
        exact .create (hworld ▸ hcreatable) fd
    | cons second rest =>
      refine openDirectory_promises unchanged_foreign hfirst (fun _ _ hne => .error hne)
        (fun p _ ino object hname hdirfd hvisit htrust _ => ?_)
        fun p _ ino object hname hdirfd hvisit htrust fd w' w₁ size hsteps hsteps' hfd => ?_
      · obtain ⟨-, ⟨entry, hentry, rfl⟩, hleads, hobject⟩ := hvisit.unchanged hname hdirfd hdir
        exact .here hentry ⟨ino, object, ⟨hleads, hobject⟩, htrust, nofun⟩
      · obtain ⟨hworld, ⟨entry, hentry, rfl⟩, hleads, hobject⟩ := hvisit.unchanged hname hdirfd hdir
        have hfs : w₁.fs = w.fs := by
          rw [unchanged_steps hsteps', unchanged_steps hsteps, hworld]
          rfl
        refine (ih hrest hslashed.rest hflags.withoutTrunc hfs hfd).mono fun trace _ result houtcome => ?_
        exact houtcome.behind hentry hleads ⟨ino, object, ⟨hleads, hobject⟩, htrust, nofun⟩ (List.cons_ne_nil _ _)

/-! ## Runs in which no call is refused -/

section MayReturn

variable {w : World} {currentfd : Fd} {component : Component} {dir ino p_uid : ℕ} {entry object : Inode}
  {P : Except Errno Fd → Prop}

theorem serves_fstatat (hproper : component.Proper) (hdir : w.fds currentfd = some dir)
    (hentry : w.fs.lstat dir component.name = some entry) :
    Serves w (.fstatat currentfd component.name) (.ok entry.stat) w := by
  obtain ⟨ino, hname, hino⟩ := Option.bind_eq_some_iff.mp hentry
  refine ⟨rfl, .inr ⟨dir, ino, entry, (hproper.start_name w currentfd).trans hdir, ?_, hino, rfl⟩⟩
  rw [hproper.components_name]
  exact .enter hname hino (fun _ => ⟨rfl, rfl⟩) (.here ino)

theorem opens_existing (hproper : component.Proper) (hcreat : flags.creat = false) (hdir : w.fds currentfd = some dir)
    (hleads : Resolves w.fs true dir [component.name] (.object ino)) (hobject : w.fs.inode ino = some object)
    (hslashes : component.slashes ≠ [] → w.fs.isDirectory ino) (hwrites : w.fs.isDirectory ino → flags.writes = false) :
    ∃ fd w', Opens w (some currentfd) (component.name ++ component.slashes) flags (.ok fd) w' ∧
      Reached w currentfd component flags fd w' dir ino object := by
  obtain ⟨fd, hspare⟩ := w.spare
  have hfree := hspare fd le_rfl
  have hleads' : Resolves w.fs true dir (pathComponents (component.name ++ component.slashes)) (.object ino) := by
    rw [hproper.components_text]
    exact hleads
  have hopens : ∃ w', Opens w (some currentfd) (component.name ++ component.slashes) flags (.ok fd) w' := by
    refine ⟨_, .existing ((hproper.start w currentfd _).trans hdir) hleads'
      (fun hslash => hslashes (hproper.getLast_eq.mp hslash)) (fun hdirectory => ?_) ?_ hfree⟩
    · rw [hwrites hdirectory, hcreat]
      rfl
    · rw [hcreat]
      rfl
  obtain ⟨w', hopens⟩ := hopens
  obtain ⟨dir', ino', object', hreached⟩ := opens_reached hproper hcreat hopens
  have hstart := hreached.start
  rw [hdir] at hstart
  obtain rfl := Option.some.inj hstart
  obtain rfl := Place.object.inj (hreached.leads.unique hleads)
  have hfound := hreached.found
  rw [hobject] at hfound
  obtain rfl := Option.some.inj hfound
  exact ⟨fd, w', hopens, hreached⟩

theorem close_mayReturn {next : Unit → OpenProgram}
    (h : (next ()).MayReturn Serves Unchanged (w.assign currentfd none) P) :
    (Program.call (.close currentfd) next : OpenProgram).MayReturn Serves Unchanged w P := by
  have hserves : Serves w (.close currentfd) () (w.assign currentfd none) := rfl
  exact .call hserves h

theorem fail_mayReturn {errno : Errno} (h : P (.error errno)) :
    (fail currentfd errno).MayReturn Serves Unchanged w P := close_mayReturn (.done h)

variable {final_size : Option ℕ}

theorem truncateOpened_mayReturn {trunc : Bool} {fd : Fd} (hfd : w.fds fd = some ino) (h : P (.ok fd)) :
    (truncateOpened trunc fd final_size).MayReturn Serves Unchanged w P := by
  unfold truncateOpened
  split
  · split
    · have hserves : Serves w (.ftruncate fd 0) (.ok ()) { w with fs := w.fs.truncate ino 0 } :=
        .inr ⟨ino, hfd, rfl, rfl⟩
      exact .call hserves (.done h)
    · exact .done h
  · exact .done h

theorem recheck_mayReturn {fd : Fd} {stat_before : Stat} {next : Option ℕ → OpenProgram} (hfd : w.fds fd = some ino)
    (hnode : ∃ node, w.fs.inode ino = some node ∧ node.uid = object.uid ∧
      node.gid = object.gid)
    (hrefused : untrusted p_uid stat_before object.stat = true → P (.error .enolink))
    (hnext : untrusted p_uid stat_before object.stat = false → ∀ size, (next size).MayReturn Serves Unchanged w P) :
    (recheck p_uid fd (some stat_before) final_size next).MayReturn Serves Unchanged w P := by
  obtain ⟨node, hino, huid, hgid⟩ := hnode
  have hserves : Serves w (.fstat fd) (.ok node.stat) w := ⟨rfl, .inr ⟨ino, node, hfd, hino, rfl⟩⟩
  refine .call hserves ?_
  have hsame : untrusted p_uid stat_before node.stat = untrusted p_uid stat_before object.stat :=
    untrusted_congr huid hgid
  dsimp only
  rw [hsame]
  cases htrust : untrusted p_uid stat_before object.stat with
  | true => exact fail_mayReturn (hrefused htrust)
  | false => exact hnext htrust _

variable (hproper : component.Proper) (hdir : w.fds currentfd = some dir)
include hproper hdir

section Existing

variable (hentry : w.fs.lstat dir component.name = some entry)
  (hleads : Resolves w.fs true dir [component.name] (.object ino)) (hobject : w.fs.inode ino = some object)
  (hrefused : untrusted p_uid entry.stat object.stat = true → P (.error .enolink))
include hentry hleads hobject hrefused

theorem openDirectory_mayReturn {next : Fd → Option ℕ → OpenProgram}
    (hnext : untrusted p_uid entry.stat object.stat = false → ∀ fd w₁ size, w₁.fs = w.fs → w₁.fds fd = some ino →
      (next fd size).MayReturn Serves Unchanged w₁ P) :
    (openDirectory p_uid currentfd component.name final_size next).MayReturn Serves Unchanged w P := by
  have hproper' : Component.Proper ⟨component.name, []⟩ := ⟨hproper.nonempty, hproper.noSlash, nofun⟩
  have hcreat : OpenFlags.rdonly.creat = false := rfl
  obtain ⟨fd, w', hopens, hreached⟩ := opens_existing hproper' hcreat hdir hleads hobject (fun hne => absurd rfl hne)
    fun _ => rfl
  obtain ⟨hfd, hnode⟩ := fds_closed unchanged_foreign hreached .refl
  rw [List.append_nil] at hopens
  refine .call (serves_fstatat hproper hdir hentry) (.call hopens (close_mayReturn ?_))
  refine recheck_mayReturn hfd hnode hrefused fun htrust size => hnext htrust fd _ size ?_ hfd
  rw [hreached.kept rfl]
  rfl

theorem attempt_mayReturn {again : OpenProgram} (hflags : SameFlags orig_flags flags)
    (hopenable : Openable orig_flags (component.slashes ≠ []) w.fs ino)
    (hpassed : untrusted p_uid entry.stat object.stat = false → ∀ fd, P (.ok fd)) :
    (attempt orig_flags create_perms p_uid again currentfd component final_size flags).MayReturn Serves Unchanged w
      P := by
  have hflags' := hflags.withoutTrunc
  unfold attempt
  dsimp only
  generalize withoutTrunc orig_flags flags = flags at hflags'
  refine .call (serves_fstatat hproper hdir hentry) ?_
  have hexcl : ¬(flags.creat && flags.excl) = true := by
    rw [hflags'.creat, hflags'.excl, hopenable.excl]
    exact Bool.false_ne_true
  dsimp only
  rw [if_neg hexcl]
  have hwrites : w.fs.isDirectory ino → OpenFlags.writes { flags with creat := false } = false := by
    intro hdirectory
    have horig := hopenable.writes hdirectory
    rw [OpenFlags.writes, ← hflags'.access] at horig
    exact horig
  obtain ⟨fd, w', hopens, hreached⟩ := opens_existing hproper rfl hdir hleads hobject hopenable.slashes hwrites
  obtain ⟨hfd, hnode⟩ := fds_closed unchanged_foreign hreached .refl
  refine .call hopens (close_mayReturn ?_)
  exact recheck_mayReturn hfd hnode hrefused fun htrust size => truncateOpened_mayReturn hfd (hpassed htrust fd)

end Existing

theorem attempt_mayCreate {again : OpenProgram} (hflags : SameFlags orig_flags flags)
    (hcreatable : Creatable orig_flags (component.slashes ≠ []) w.fs dir component.name) (hcreated : ∀ fd, P (.ok fd)) :
    (attempt orig_flags create_perms p_uid again currentfd component final_size flags).MayReturn Serves Unchanged w
      P := by
  have hflags' := hflags.withoutTrunc
  unfold attempt
  dsimp only
  generalize withoutTrunc orig_flags flags = flags at hflags'
  have hnone : Serves w (.fstatat currentfd component.name) (.error .enoent) w := ⟨rfl, .inl ⟨.enoent, rfl, nofun⟩⟩
  refine .call hnone ?_
  have hcreat : flags.creat = true := hflags'.creat.trans hcreatable.creat
  have hnew : ¬(decide (Errno.enoent ≠ .enoent) || !flags.creat) = true := by
    rw [hcreat]
    decide
  dsimp only
  rw [if_neg hnew]
  obtain ⟨fd, hspare⟩ := w.spare
  obtain ⟨ino, hino⟩ := w.fs.spare
  have hvacant : Resolves w.fs (!true) dir (pathComponents (component.name ++ component.slashes))
      (.vacant dir component.name) := by
    rw [hproper.components_text]
    exact .vacant hcreatable.directory hcreatable.vacant
  have hopens : ∃ w', Opens w (some currentfd) (component.name ++ component.slashes) { flags with excl := true }
      (.ok fd) w' := by
    have hfree := hino ino le_rfl
    refine ⟨{ w with fs := w.fs.create dir component.name ino w.euid 0 hfree }.assign fd (some ino),
      .created hfree ?_ ((hproper.start w currentfd _).trans hdir) hvacant ?_ (hspare fd le_rfl)⟩
    · exact hcreat
    · exact fun hslash => hcreatable.slashes (hproper.getLast_eq.mp hslash)
  obtain ⟨w', hopens⟩ := hopens
  exact .call hopens (close_mayReturn (.done (hcreated fd)))

end MayReturn

section Components

variable {orig_flags : OpenFlags} {create_perms euid : ℕ} {slashed : Prop} {fs : FileSystem}
  {P : Except Errno Fd → Prop}

/-- A component that is refused ends the walk, unless one before it does. -/
theorem openComponents_refuses {c : Occurrence} (comps : List Component) (hproper : ∀ c ∈ comps, c.Proper)
    (hslashed : LastSlashed comps slashed)
    (hrefused : c.Verdict fs euid orig_flags slashed true) (herror : P (.error .enolink)) :
    ∀ {w : World} {currentfd : Fd} {final_size : Option ℕ} {flags : OpenFlags} {dir : ℕ}, SameFlags orig_flags flags →
      w.fs = fs → w.fds currentfd = some dir → Occurs fs dir (comps.map Component.name) c →
      (openComponents orig_flags create_perms (pUid euid) currentfd final_size flags comps).MayReturn Serves Unchanged w
        P := by
  induction comps with
  | nil =>
    intro w currentfd final_size flags dir _ _ _ hoccurs
    exact hoccurs.not_nil.elim
  | cons component comps ih =>
    intro w currentfd final_size flags dir hflags hfs hdir hoccurs
    subst hfs
    obtain ⟨hfirst, hrest⟩ := List.forall_mem_cons.mp hproper
    cases comps with
    | nil =>
      obtain rfl := hslashed.eq
      rcases hoccurs.cases with ⟨entry, hentry, rfl⟩ | ⟨_, _, hbehind⟩
      · obtain ⟨ino, object, ⟨hleads, hobject⟩, htrust, hopenable⟩ := hrefused
        refine attempt_mayReturn hfirst hdir hentry hleads hobject (fun _ => herror) hflags (hopenable rfl) fun hpasses => ?_
        cases htrust.symm.trans hpasses
      · exact hbehind.not_nil.elim
    | cons second rest =>
      rcases hoccurs.cases with ⟨entry, hentry, rfl⟩ | ⟨ino, hleads, hbehind⟩
      · obtain ⟨ino, object, ⟨hleads, hobject⟩, htrust, -⟩ := hrefused
        refine openDirectory_mayReturn hfirst hdir hentry hleads hobject (fun _ => herror) fun hpasses => ?_
        cases htrust.symm.trans hpasses
      · obtain ⟨entry, hentry⟩ := hleads.lstat
        obtain ⟨object, hobject⟩ := hleads.inode_of_name
        refine openDirectory_mayReturn hfirst hdir hentry hleads hobject (fun _ => herror) fun _ fd w₁ size hfs hfd => ?_
        exact ih hrest hslashed.rest hflags.withoutTrunc hfs hfd hbehind

theorem Arrives.uncons {dir : ℕ} {name : Bytes} {names : List Bytes} (h : Arrives fs flags slashed dir (name :: names))
    (hne : names ≠ []) :
    ∃ ino, Resolves fs true dir [name] (.object ino) ∧ Arrives fs flags slashed ino names := by
  obtain ⟨front, dir', name', hnames, hfront, hlast⟩ := h
  cases front with
  | nil => exact absurd (List.cons.inj hnames).2 hne
  | cons _ front =>
    obtain ⟨rfl, rfl⟩ := List.cons.inj hnames
    by_cases hnil : front = []
    · subst hnil
      exact ⟨dir', hfront, [], dir', name', rfl, .here dir', hlast⟩
    · obtain ⟨ino, hleads, hrest⟩ := hfront.split (List.singleton_append).symm hnil
      exact ⟨ino, hleads, front, dir', name', rfl, hrest, hlast⟩

theorem openComponents_succeeds (comps : List Component) (hproper : ∀ c ∈ comps, c.Proper)
    (hslashed : LastSlashed comps slashed)
    (hok : ∀ fd, P (.ok fd)) :
    ∀ {w : World} {currentfd : Fd} {final_size : Option ℕ} {flags : OpenFlags} {dir : ℕ}, SameFlags orig_flags flags →
      w.fs = fs → w.fds currentfd = some dir →
      (∀ c, Occurs fs dir (comps.map Component.name) c → c.Verdict fs euid orig_flags slashed false) →
      Arrives fs orig_flags slashed dir (comps.map Component.name) →
      (openComponents orig_flags create_perms (pUid euid) currentfd final_size flags comps).MayReturn Serves Unchanged w
        P := by
  induction comps with
  | nil =>
    intro w currentfd final_size flags dir _ _ hdir _ _
    exact truncateOpened_mayReturn hdir (hok currentfd)
  | cons component comps ih =>
    intro w currentfd final_size flags dir hflags hfs hdir hpasses harrives
    subst hfs
    obtain ⟨hfirst, hrest⟩ := List.forall_mem_cons.mp hproper
    cases comps with
    | nil =>
      obtain rfl := hslashed.eq
      obtain ⟨front, dir', name, hnames, hfront, hthere⟩ := harrives
      obtain ⟨rfl, hname⟩ := List.append_eq_singleton_iff.mp hnames.symm |>.resolve_right (fun h => List.cons_ne_nil _ _ h.2)
      obtain rfl := (List.cons.inj hname).1
      cases hfront
      rcases hthere with ⟨entry, hentry⟩ | hcreatable
      · obtain ⟨ino, object, ⟨hleads, hobject⟩, htrust, hopenable⟩ := hpasses _ (.here hentry)
        refine attempt_mayReturn hfirst hdir hentry hleads hobject (fun hrefused => ?_) hflags (hopenable rfl)
          fun _ => hok
        cases htrust.symm.trans hrefused
      · exact attempt_mayCreate hfirst hdir hflags hcreatable hok
    | cons second rest =>
      obtain ⟨ino, hleads, hrests⟩ := harrives.uncons (List.cons_ne_nil _ _)
      obtain ⟨entry, hentry⟩ := hleads.lstat
      obtain ⟨object, hobject⟩ := hleads.inode_of_name
      obtain ⟨ino', object', hleads', htrust, -⟩ := hpasses _ (.here hentry)
      obtain ⟨-, rfl⟩ := hleads'.unique ⟨hleads, hobject⟩
      refine openDirectory_mayReturn hfirst hdir hentry hleads hobject (fun hrefused => ?_) fun _ fd w₁ size hfs hfd => ?_
      · cases htrust.symm.trans hrefused
      · exact ih hrest hslashed.rest hflags.withoutTrunc hfs hfd (fun c hoccurs => hpasses c (hoccurs.behind hleads)) hrests

end Components

/-! ## Whole runs -/

section Whole

variable {w : World} {path : Bytes} {flags : OpenFlags} {create_perms : ℕ} {P : Except Errno Fd → Prop}

theorem safeOpenCreatePerms_outcome {trace : Trace} {w' : World} {result : Except Errno Fd}
    (h : Lib.Runs Serves Unchanged w (safeOpenCreatePerms (some path) flags create_perms) trace w' result) :
    Outcome w.fs w.euid flags (path.getLast? = some slash) (w.origin path) (pathComponents path) result := by
  obtain ⟨hproper, hnames⟩ := components_of_path path
  have hslashed := components_of_path_slashes path
  rw [← hnames]
  have houtcome : Promises Unchanged w (safeOpenCreatePerms (some path) flags create_perms) fun _ =>
      Outcome w.fs w.euid flags (path.getLast? = some slash) (w.origin path)
        ((components (path.dropWhile (· = slash))).map Component.name) := by
    refine safeOpenCreatePerms_promises unchanged_foreign (fun _ _ hne => .error hne) fun w₀ w₁ fd hfrom hto => ?_
    obtain rfl := unchanged_steps hfrom
    obtain rfl := unchanged_steps hto
    exact openComponents_outcome _ hproper hslashed (.refl flags) rfl (Function.update_self ..)
  exact h.ensures houtcome

theorem safeOpenCreatePerms_mayReturn (hdirectory : w.fs.isDirectory (w.origin path)) (hne : path ≠ [])
    (h : ∀ fd w₁, w₁.fs = w.fs → w₁.fds fd = some (w.origin path) →
      (openComponents flags create_perms (pUid w.euid) fd none flags
        (components (path.dropWhile (· = slash)))).MayReturn Serves Unchanged w₁ P) :
    (safeOpenCreatePerms (some path) flags create_perms).MayReturn Serves Unchanged w P := by
  cases path with
  | nil => exact absurd rfl hne
  | cons c rest =>
    rw [safeOpenCreatePerms_eq]
    obtain ⟨fd, hspare⟩ := w.spare
    have hfree := hspare fd le_rfl
    have hopens : Serves w (.openat none (if c = slash then ascii "/" else ascii ".") .rdonly 0) (.ok fd)
        (w.assign fd (some (w.origin (c :: rest)))) := by
      by_cases hc : c = slash
      · have horigin : w.origin (c :: rest) = w.fs.root := by simp [World.origin, isAbsolute, hc]
        rw [if_pos hc, horigin]
        exact .existing rfl (.here w.fs.root) (fun _ => w.fs.rooted) (fun _ => rfl) rfl hfree
      · have horigin : w.origin (c :: rest) = w.cwd := by simp [World.origin, isAbsolute, hc]
        rw [horigin] at hdirectory
        rw [if_neg hc, horigin]
        have hdot : Resolves w.fs true w.cwd [ascii "."] (.object w.cwd) := .dot_of_directory hdirectory
        exact .existing rfl hdot (fun hslash => absurd hslash (by decide)) (fun _ => rfl) rfl hfree
    have heuid : Serves (w.assign fd (some (w.origin (c :: rest)))) .geteuid w.euid _ := ⟨rfl, rfl⟩
    exact .call hopens (.call heuid (h fd _ rfl (Function.update_self ..)))

theorem Occurs.origin {c : Occurrence} (h : Occurs w.fs (w.origin path) (pathComponents path) c) :
    w.fs.isDirectory (w.origin path) ∧ path ≠ [] := by
  obtain ⟨name, rest, entry, hnames, hentry⟩ := h.first
  obtain ⟨ino, hname, -⟩ := Option.bind_eq_some_iff.mp hentry
  refine ⟨isDirectory_of_entry hname, ?_⟩
  rintro rfl
  cases hnames

theorem mistakenTrust_opens (h : MistakenTrust w path flags) (hok : ∀ fd, P (.ok fd)) :
    (safeOpenCreatePerms (some path) flags create_perms).MayReturn Serves Unchanged w P := by
  obtain ⟨hpasses, harrives, c, hoccurs, -⟩ := h
  obtain ⟨hdirectory, hne⟩ := hoccurs.origin
  obtain ⟨hproper, hnames⟩ := components_of_path path
  rw [← hnames] at hpasses harrives
  exact safeOpenCreatePerms_mayReturn hdirectory hne fun fd w₁ hfs hfd =>
    openComponents_succeeds _ hproper (components_of_path_slashes path) hok (.refl flags) hfs hfd hpasses harrives

theorem mistakenRefusal_fails (h : MistakenRefusal w path flags) (herror : P (.error .enolink)) :
    (safeOpenCreatePerms (some path) flags create_perms).MayReturn Serves Unchanged w P := by
  obtain ⟨hown, c, hoccurs, hmistrusted⟩ := h
  obtain ⟨hdirectory, hne⟩ := hoccurs.origin
  obtain ⟨hproper, hnames⟩ := components_of_path path
  have hrefused := (hown c hoccurs).refused_iff.mpr hmistrusted
  rw [← hnames] at hoccurs
  exact safeOpenCreatePerms_mayReturn hdirectory hne fun fd w₁ hfs hfd =>
    openComponents_refuses _ hproper (components_of_path_slashes path) hrefused herror (.refl flags) hfs hfd hoccurs

end Whole

/-- The trust rule holds of every call, unless a user is mistaken for another. -/
theorem trustRule_iff (w : World) (path : Bytes) (flags : OpenFlags) (create_perms : ℕ) :
    (∀ trace w' result, Lib.Runs Serves Unchanged w (safeOpenCreatePerms (some path) flags create_perms) trace w' result →
      TrustRule w path trace result) ↔ ¬ MistakenTrust w path flags ∧ ¬ MistakenRefusal w path flags := by
  constructor
  · intro h
    refine ⟨fun hmistaken => ?_, fun hmistaken => ?_⟩
    · have hopens : (safeOpenCreatePerms (some path) flags create_perms).MayReturn Serves Unchanged w fun result =>
          ∃ fd, result = .ok fd := mistakenTrust_opens hmistaken fun fd => ⟨fd, rfl⟩
      obtain ⟨trace, w', _, hrun, fd, rfl⟩ := hopens
      obtain ⟨hpasses, -, c, hoccurs, hovertrusted⟩ := hmistaken
      exact (hpasses c hoccurs).trusted_iff.mp ((h trace w' _ hrun).opened fd rfl c hoccurs) hovertrusted
    · have hfails : (safeOpenCreatePerms (some path) flags create_perms).MayReturn Serves Unchanged w fun result =>
          result = .error .enolink := mistakenRefusal_fails hmistaken rfl
      obtain ⟨trace, w', _, hrun, rfl⟩ := hfails
      exact (h trace w' _ hrun).followed hmistaken.1 rfl
  · rintro ⟨htrust, hrefusal⟩ trace w' result hrun
    have houtcome := safeOpenCreatePerms_outcome hrun
    constructor
    · intro fd hresult c hoccurs
      obtain ⟨hpasses, harrives⟩ := houtcome.opened fd hresult
      have hne : pathComponents path ≠ [] := by
        obtain ⟨name, rest, _, hnames, _⟩ := hoccurs.first
        rw [hnames]
        exact List.cons_ne_nil _ _
      rw [(hpasses c hoccurs).trusted_iff]
      exact fun hovertrusted => htrust ⟨hpasses, harrives hne, c, hoccurs, hovertrusted⟩
    · intro hown hresult
      obtain ⟨c, hoccurs, hrefused⟩ := houtcome.refused hresult
      exact hrefusal ⟨hown, c, hoccurs, (hown c hoccurs).refused_iff.mp hrefused⟩
    · intro world dirfd text callFlags perms fd hmem hcreat
      obtain ⟨w₁, hserves⟩ := hrun.served _ hmem
      exact (hrun.makes (safeOpenCreatePerms_makes path flags create_perms) _ hmem).vacant hserves hcreat

/-- User 1000 is not allowed to follow an own symlink. -/
theorem own_symlink_refused : ∃ trace w', Lib.Runs Serves Unchanged (process 1000 4)
    (safeOpenCreatePerms (some (ascii "f")) .rdonly 0) trace w' (.error .enolink) ∧
      ¬ TrustRule (process 1000 4) (ascii "f") trace (.error .enolink) := by
  have hoccurs : Occurs (files 4) 2 [ascii "f"] ⟨2, ascii "f", [], ⟨1000, 1000, 2, .symlink (ascii "/s")⟩⟩ := .here rfl
  have hown : ∀ c, Occurs (files 4) 2 [ascii "f"] c → c.Own 1000 := by
    intro c h
    rcases h.cases with ⟨entry, hentry, rfl⟩ | ⟨_, _, hbehind⟩
    · obtain rfl := Option.some.inj hentry
      exact .inr rfl
    · exact hbehind.not_nil.elim
  have hopenable : Openable .rdonly ((ascii "f").getLast? = some slash) (files 4) 1 :=
    ⟨rfl, fun hslash => absurd hslash (by decide), fun _ => rfl⟩
  have hmistaken : MistakenRefusal (process 1000 4) (ascii "f") .rdonly :=
    ⟨hown, _, hoccurs, by decide, rfl, 1, ⟨0, 0, 9, .regular⟩, ⟨leads_secret, rfl⟩, by decide, fun _ => hopenable⟩
  have hfails : (safeOpenCreatePerms (some (ascii "f")) .rdonly 0).MayReturn Serves Unchanged (process 1000 4)
      fun result => result = .error .enolink := mistakenRefusal_fails hmistaken rfl
  obtain ⟨trace, w', _, hrun, rfl⟩ := hfails
  exact ⟨trace, w', hrun, fun hrule => hrule.followed hown rfl⟩

end Libntech.Files
