import Libntech.Files.OpenDescriptors
import Libntech.Files.Swaps
import Mathlib.Data.List.Chain

/-! # What safe_chown and safe_chmod change

Links are followed one by one, each trusted; then one call changes the name that was examined last, in the directory
that was opened for it. All descriptors are closed again, and the effective user is the one from before.
-/
namespace Libntech.Files
set_option autoImplicit false

open Libntech.Json
open Libntech.Glob (basename)
open Libntech.Lib (Event Program)
open Relation (ReflTransGen)

/-! ## The calls on a file system -/

/-- `(uid_t) -1` stands for no change. -/
def Inode.chown (node : Inode) (owner group : ℕ) : Inode :=
  { node with
    uid := if owner = 0xffffffff then node.uid else owner
    gid := if group = 0xffffffff then node.gid else group }

def FileSystem.chown (fs : FileSystem) (ino owner group : ℕ) : FileSystem where
  inode i := if i = ino then (fs.inode i).map fun node => node.chown owner group else fs.inode i
  root := fs.root
  spare := by
    obtain ⟨bound, hbound⟩ := fs.spare
    refine ⟨bound, fun i hi => ?_⟩
    simp [hbound i hi]
  rooted := by
    obtain ⟨node, hroot, hkind⟩ := fs.rooted
    by_cases heq : fs.root = ino
    · exact ⟨node.chown owner group, by rw [if_pos heq, hroot]; rfl, hkind⟩
    · exact ⟨node, by rw [if_neg heq, hroot], hkind⟩

def Inode.HasType (node : Inode) : LeafType → Prop
  | .symlink => node.isSymlink = true
  | .fifo => node.kind = .special
  | .socket => node.kind = .special
  | .other => node.isSymlink = false

/-- What a path leads to from a directory. -/
def World.Leads (w : World) (follow : Bool) (dirfd : Fd) (path : Bytes) (ino : ℕ) (node : Inode) : Prop :=
  ∃ start, w.start (some dirfd) path = some start ∧ Resolves w.fs follow start (pathComponents path) (.object ino) ∧
    w.fs.inode ino = some node

/-- The kernel answers a call. The mode is changed by the owner or by root. -/
def ServesChange (w : World) : (c : ChangeCall) → ChangeAnswer c → World → Prop
  | .plain c, answer, w' => Serves w c answer w'
  | .fstatat dirfd path, answer, w' =>
    w' = w ∧ ((∃ e, answer = .error e) ∨
      ∃ ino node type, w.Leads false dirfd path ino node ∧ node.HasType type ∧
        answer = .ok ⟨node.uid, node.gid, node.size, type⟩)
  | .readlinkat dirfd path bufsiz, answer, w' =>
    w' = w ∧ ((∃ e, answer = .error e) ∨
      ∃ ino node target, w.Leads false dirfd path ino node ∧ node.kind = .symlink target ∧
        answer = .ok (target.take bufsiz))
  | .fchownat dirfd path owner group nofollow, answer, w' =>
    (w' = w ∧ ∃ e, answer = .error e) ∨
      ∃ ino node, w.Leads (!nofollow) dirfd path ino node ∧ w' = { w with fs := w.fs.chown ino owner group } ∧ answer = .ok ()
  | .fchmodat dirfd path _, answer, w' =>
    w' = w ∧ ((∃ e, answer = .error e) ∨
      ∃ ino node, w.Leads true dirfd path ino node ∧ (w.euid = 0 ∨ w.euid = node.uid) ∧ answer = .ok ())
  | .fchmod fd _, answer, w' =>
    w' = w ∧ ((∃ e, answer = .error e) ∨
      ∃ ino node, w.fds fd = some ino ∧ w.fs.inode ino = some node ∧ (w.euid = 0 ∨ w.euid = node.uid) ∧ answer = .ok ())
  | .fchdir fd, answer, w' =>
    (w' = w ∧ ∃ e, answer = .error e) ∨
      ∃ ino, w.fds fd = some ino ∧ w.fs.isDirectory ino ∧ w' = { w with cwd := ino } ∧ answer = .ok ()
  | .seteuid uid, answer, w' =>
    (w' = w ∧ ∃ e, answer = .error e) ∨ (w' = { w with euid := uid } ∧ answer = .ok ())

/-! ## What a run examined, and what it changed -/

abbrev ChangeTrace := List (Event World ChangeCall ChangeAnswer)

/-- A leaf that `fstatat` reported. -/
structure Examined where
  dirfd : Fd
  leaf : Bytes
  stat : LeafStat

def examined : ChangeTrace → List Examined
  | [] => []
  | ⟨_, .fstatat dirfd leaf, .ok stat⟩ :: rest => ⟨dirfd, leaf, stat⟩ :: examined rest
  | _ :: rest => examined rest

def ChangeCall.changes : ChangeCall → Bool
  | .fchownat _ _ _ _ _ => true
  | .fchmodat _ _ _ => true
  | .fchmod _ _ => true
  | .seteuid _ => true
  | _ => false

/-- What was changed, or was to be: owners and modes, and the effective user. -/
def changes (trace : ChangeTrace) : ChangeTrace := trace.filter fun e => e.c.changes

theorem examined_append (a b : ChangeTrace) : examined (a ++ b) = examined a ++ examined b := by
  induction a using examined.induct with
  | case1 => rfl
  | case2 world dirfd leaf stat rest ih => rw [List.cons_append, examined, examined, ih, List.cons_append]
  | case3 e rest hother ih => rw [List.cons_append, examined, examined, ih] <;> exact hother

theorem changes_append (a b : ChangeTrace) : changes (a ++ b) = changes a ++ changes b := List.filter_append a b

/-- The calls of `safe_open` are none of these. -/
def Plain (trace : ChangeTrace) : Prop := ∀ e ∈ trace, ∃ c, e.c = ChangeCall.plain c

variable {trace : ChangeTrace}

theorem Plain.changes (h : Plain trace) : Files.changes trace = [] := by
  refine List.filter_eq_nil_iff.mpr fun e he => ?_
  obtain ⟨c, hc⟩ := h e he
  rw [hc]
  exact Bool.false_ne_true

theorem Plain.examined (h : Plain trace) : Files.examined trace = [] := by
  induction trace using examined.induct with
  | case1 => rfl
  | case2 world dirfd leaf stat rest ih =>
    obtain ⟨c, hc⟩ := h _ List.mem_cons_self
    cases hc
  | case3 e rest hother ih =>
    rw [Files.examined]
    · exact ih fun e he => h e (List.mem_cons_of_mem _ he)
    · exact hother

/-- Root's links, those of the process's user, and those with the owner and the group of what they lead to. -/
def TrustsLink (euid uid gid : ℕ) (stat : LeafStat) : Prop := uid = 0 ∨ uid = euid ∨ uid = stat.uid ∧ gid = stat.gid

/-- A link that was followed, and what was found behind it. -/
def PointsTo (euid : ℕ) (link next : Examined) : Prop :=
  link.stat.type = .symlink ∧ TrustsLink euid link.stat.uid link.stat.gid next.stat

/-- The way to the leaf: links to follow, each trusted, and the leaf. -/
structure WayTo (euid : ℕ) (nofollow : Bool) (found : List Examined) (last : Examined) : Prop where
  links : List.IsChain (PointsTo euid) (found ++ [last])
  ends : nofollow = false → last.stat.type ≠ .symlink
  straight : nofollow = true → found = []

theorem refusesLink_eq_false {p_uid link_user link_group : ℕ} {traversed_link : Bool} {statbuf : LeafStat}
    (h : refusesLink p_uid link_user link_group traversed_link statbuf = false) (htraversed : traversed_link = true) :
    TrustsLink p_uid link_user link_group statbuf := by
  rw [refusesLink, htraversed] at h
  simp only [Bool.true_and, Bool.and_eq_false_iff, Bool.or_eq_false_iff, decide_eq_false_iff_not, not_not, ne_eq] at h
  rw [TrustsLink]
  tauto

/-! ## Runs by what they tell -/

section Runs

variable {other : World → World → Prop} {α : Type} {w : World}

/-- Of every run: what it changed and examined, its last world and its result. -/
abbrev Tells (other : World → World → Prop) (w : World) (p : ChangeProgram α)
    (post : ChangeTrace → List Examined → World → α → Prop) : Prop :=
  p.Ensures ServesChange other w fun trace w' result => post (changes trace) (examined trace) w' result

variable {post : ChangeTrace → List Examined → World → α → Prop}

theorem tells_plain {c : Call} {next : Answer c → ChangeProgram α}
    (h : ∀ w₁ answer w₂, ReflTransGen other w w₁ → Serves w₁ c answer w₂ → Tells other w₂ (next answer) post) :
    Tells other w (.call (.plain c) next) post :=
  fun w₁ answer w₂ hsteps hserves => h w₁ answer w₂ hsteps hserves

variable {leaf : Bytes} {dirfd fd : Fd} {w₀ : World}

theorem tells_fstatat {next : Except Errno LeafStat → ChangeProgram α}
    (herror : ∀ w₁ errno, ReflTransGen other w w₁ → Tells other w₁ (next (.error errno)) post)
    (hok : ∀ w₁ stat, ReflTransGen other w w₁ →
      Tells other w₁ (next (.ok stat)) fun made found => post made (⟨dirfd, leaf, stat⟩ :: found)) :
    Tells other w (.call (.fstatat dirfd leaf) next) post := by
  intro w₁ answer w₂ hsteps hserves
  obtain rfl := hserves.1
  cases answer with
  | error errno => exact herror w₂ errno hsteps
  | ok stat => exact hok w₂ stat hsteps

theorem tells_readlinkat {bufsiz : ℕ} {next : Except Errno Bytes → ChangeProgram α}
    (h : ∀ w₁ answer, ReflTransGen other w w₁ → Tells other w₁ (next answer) post) :
    Tells other w (.call (.readlinkat dirfd leaf bufsiz) next) post := by
  intro w₁ answer w₂ hsteps hserves
  obtain rfl := hserves.1
  exact h w₂ answer hsteps

theorem tells_seteuid {uid : ℕ} {next : Except Errno Unit → ChangeProgram α}
    (herror : ∀ w₁ errno, ReflTransGen other w w₁ →
      Tells other w₁ (next (.error errno)) fun made found => post (⟨w₁, .seteuid uid, .error errno⟩ :: made) found)
    (hok : ∀ w₁, ReflTransGen other w w₁ →
      Tells other { w₁ with euid := uid } (next (.ok ())) fun made found =>
        post (⟨w₁, .seteuid uid, .ok ()⟩ :: made) found) :
    Tells other w (.call (.seteuid uid) next) post := by
  intro w₁ answer w₂ hsteps hserves
  obtain ⟨rfl, errno, rfl⟩ | ⟨rfl, rfl⟩ := hserves
  · exact herror w₂ errno hsteps
  · exact hok w₁ hsteps

theorem tells_fchdir {next : Except Errno Unit → ChangeProgram α}
    (h : ∀ w₁ answer w₂, ReflTransGen other w w₁ → w₂.fds = w₁.fds → w₂.euid = w₁.euid → Tells other w₂ (next answer) post) :
    Tells other w (.call (.fchdir fd) next) post := by
  intro w₁ answer w₂ hsteps hserves
  obtain ⟨rfl, errno, rfl⟩ | ⟨ino, -, -, rfl, rfl⟩ := hserves
  · exact h w₂ (.error errno) w₂ hsteps rfl rfl
  · exact h w₁ (.ok ()) _ hsteps rfl rfl

theorem tells_bind {β : Type} {p : ChangeProgram β} {k : β → ChangeProgram α}
    (h : Tells other w p fun made found w' result =>
      Tells other w' (k result) fun made' found' => post (made ++ made') (found ++ found')) :
    Tells other w (p.bind k) post := by
  refine Program.Ensures.bind (h.mono fun trace w' result hpost => hpost.mono fun trace' w₁ result' hlast => ?_)
  rw [changes_append, examined_append]
  exact hlast

theorem tells_mono {p : ChangeProgram α} {post' : ChangeTrace → List Examined → World → α → Prop}
    (h : Tells other w p post) (himp : ∀ made found w' result, post made found w' result → post' made found w' result) :
    Tells other w p post' :=
  h.mono fun _ w' result => himp _ _ w' result

variable (hother : LeavesProcess other)
include hother

theorem tells_done {result : α} (h : ∀ w', w'.fds = w.fds → w'.euid = w.euid → post [] [] w' result) :
    Tells other w (.done result) post :=
  fun w' hsteps => h w' (hother.steps hsteps).1 (hother.steps hsteps).2

theorem tells_closing {ret : α}
    (h : ∀ w₁ w', ReflTransGen other w w₁ → w'.fds = (w₁.assign fd none).fds → w'.euid = w₁.euid → post [] [] w' ret) :
    Tells other w (closing fd ret) post := by
  refine tells_plain fun w₁ _ w₂ hsteps hserves => tells_done hother fun w' hfds heuid => ?_
  obtain rfl := hserves
  exact h w₁ w' hsteps hfds heuid

theorem tells_closed {ret : α} (hheld : HasOpen w₀ fd w) (h : ∀ w', Restored w₀ w' → post [] [] w' ret) :
    Tells other w (closing fd ret) post := by
  refine tells_closing hother fun w₁ w' hsteps hfds heuid => h w' ?_
  obtain ⟨hfds', heuid'⟩ := hother.steps hsteps
  exact (hheld.after hfds' heuid').closed.after hfds heuid

theorem tells_plainOpen {pathname : Bytes} {flags : OpenFlags} {k : Except Errno Fd → ChangeProgram α}
    (herror : ∀ w₁ errno, Restored w w₁ → Tells other w₁ (k (.error errno)) post)
    (hok : ∀ w₁ fd, HasOpen w fd w₁ → Tells other w₁ (k (.ok fd)) post) :
    Tells other w ((plainOpen pathname flags).bind k) post := by
  have hopen : (plainOpen pathname flags).Ensures ServesChange other w fun trace w' result =>
      Plain trace ∧ Settled w w' result :=
    Program.Ensures.embed (fun _ _ _ _ h => h) (safeOpenCreatePerms_settles hother w (some pathname) flags cfPermsDefault)
  refine tells_bind (hopen.mono fun trace w' result hpost => ?_)
  rw [hpost.1.changes, hpost.1.examined]
  cases result with
  | error errno => exact herror w' errno hpost.2
  | ok fd => exact hok w' fd hpost.2

/-- `safe_chdir` changes nothing but the working directory. -/
theorem safeChdir_tells (w : World) (path : Bytes) :
    Tells other w (safeChdir path) fun made _ w' _ => made = [] ∧ Restored w w' := by
  refine tells_plainOpen hother (fun w₁ errno h₁ => ?_) fun w₁ fd h₁ => ?_
  · exact tells_done hother fun w' hfds heuid => ⟨rfl, h₁.after hfds heuid⟩
  · refine tells_fchdir fun w₂ changed w₃ hsteps hfds₃ heuid₃ => ?_
    obtain ⟨hfds, heuid⟩ := hother.steps hsteps
    exact tells_closed hother ((h₁.after hfds heuid).after hfds₃ heuid₃) fun w' h => ⟨rfl, h⟩

/-! ## The parent directory -/

/-- What an invocation for a path tells, behind a link of that user and group if there was one. -/
structure ParentFound (w₀ : World) (nofollow : Bool) (path : Bytes) (link_user link_group : ℕ) (traversed_link : Bool)
    (bound : ℕ) (made : ChangeTrace) (seen : List Examined) (w' : World) (ret : Except Errno Fd × Bytes) : Prop where
  quiet : made = []
  settled : Settled w₀ w' ret.1
  leaf : ∃ p, ret.2 = basename p ∧ (nofollow = true → p = path)
  way : ∀ dirfd, ret.1 = .ok dirfd → ∃ found stat, seen = found ++ [⟨dirfd, ret.2, stat⟩] ∧ found.length ≤ bound ∧
    WayTo w₀.euid nofollow found ⟨dirfd, ret.2, stat⟩
  behind : traversed_link = true → ∀ first ∈ seen.head?, ∀ dirfd, ret.1 = .ok dirfd →
    TrustsLink w₀.euid link_user link_group first.stat

variable {nofollow : Bool} {path : Bytes} {link_user link_group : ℕ} {traversed_link : Bool} {bound : ℕ}

omit hother in
theorem parentFound_error {w' : World} {made : ChangeTrace} {seen : List Examined} {errno : Errno} (hquiet : made = [])
    (h : Restored w₀ w') :
    ParentFound w₀ nofollow path link_user link_group traversed_link bound made seen w' (.error errno, basename path) where
  quiet := hquiet
  settled := h
  leaf := ⟨path, rfl, fun _ => rfl⟩
  way := fun _ h => by cases h
  behind := fun _ _ _ _ h => by cases h

theorem openParent_tells {follow : Option (LeafStat → Bytes → ParentProgram)}
    (hfollow : ∀ f, follow = some f → ∃ less, less < bound ∧ ∀ w stat target,
      Tells other w (f stat target) (ParentFound w nofollow target stat.uid stat.gid true less)) (w : World) :
    Tells other w (openParent nofollow follow path link_user link_group traversed_link)
      (ParentFound w nofollow path link_user link_group traversed_link bound) := by
  refine tells_plain fun w₁ p_uid w₂ hsteps hserves => ?_
  obtain ⟨hfds, heuid⟩ := hother.steps hsteps
  obtain ⟨rfl, rfl⟩ := hserves
  refine tells_plainOpen hother (fun w₃ errno h₃ => ?_) fun w₃ dirfd h₃ => ?_
  · refine tells_done hother fun w' hfds' heuid' => parentFound_error rfl ?_
    exact ⟨hfds'.trans (h₃.fds.trans hfds), heuid'.trans (h₃.euid.trans heuid)⟩
  have hheld : HasOpen w dirfd w₃ := by
    obtain ⟨ino, hino⟩ := h₃.held
    exact ⟨by rw [← hfds]; exact h₃.free, ⟨ino, by rw [← hfds]; exact hino⟩, h₃.euid.trans heuid⟩
  have hclosed : ∀ w₁ errno seen, ReflTransGen other w₃ w₁ → Tells other w₁ (closing dirfd (.error errno, basename path))
      fun made found => ParentFound w nofollow path link_user link_group traversed_link bound made (seen ++ found) := by
    intro w₁ errno seen hsteps
    obtain ⟨hfds', heuid'⟩ := hother.steps hsteps
    exact tells_closed hother (hheld.after hfds' heuid') fun w' h => parentFound_error rfl h
  refine tells_fstatat (fun w₄ errno hsteps₄ => hclosed w₄ errno [] hsteps₄) fun w₄ statbuf hsteps₄ => ?_
  obtain ⟨hfds₄, heuid₄⟩ := hother.steps hsteps₄
  have hheld₄ := hheld.after hfds₄ heuid₄
  -- what `fstatat` reported is kept in front of what follows
  have hfail : ∀ w₁ errno, ReflTransGen other w₄ w₁ → Tells other w₁ (closing dirfd (.error errno, basename path))
      fun made found => ParentFound w nofollow path link_user link_group traversed_link bound made
        (⟨dirfd, basename path, statbuf⟩ :: found) := fun w₁ errno hsteps =>
    hclosed w₁ errno [⟨dirfd, basename path, statbuf⟩] (hsteps₄.trans hsteps)
  simp only
  split
  · exact hfail w₄ .enolink .refl
  rename_i hrefused
  rw [Bool.not_eq_true] at hrefused
  have htrust : traversed_link = true → TrustsLink w.euid link_user link_group statbuf := fun h => by
    rw [← heuid]
    exact refusesLink_eq_false hrefused h
  split
  · rename_i hlink
    cases hfollows : follow with
    | none => exact hfail w₄ eloop .refl
    | some f =>
      obtain ⟨less, hless, hf⟩ := hfollow f hfollows
      refine tells_readlinkat fun w₅ answer hsteps₅ => ?_
      cases answer with
      | error errno => exact hfail w₅ .enolink hsteps₅
      | ok link =>
        simp only
        split
        · exact hfail w₅ .enolink hsteps₅
        · obtain ⟨hfds₅, heuid₅⟩ := hother.steps hsteps₅
          have hheld₅ := hheld₄.after hfds₅ heuid₅
          refine tells_bind (tells_mono (hf w₅ statbuf _) fun made found w₆ ret h => ?_)
          refine tells_closing hother fun w₇ w' hsteps₇ hfds₇ heuid₇ => ?_
          obtain ⟨hfds₆, heuid₆⟩ := hother.steps hsteps₇
          obtain ⟨p, hp, hsame⟩ := h.leaf
          rw [List.append_nil, List.append_nil]
          refine ⟨h.quiet, ?_, ⟨p, hp, fun hno => by rw [hlink.2] at hno; cases hno⟩, ?_, ?_⟩
          · have hsettled := h.settled
            cases hret : ret.1 with
            | error errno =>
              rw [hret] at hsettled
              exact (Restored.closed hheld₅ (Restored.after hsettled hfds₆ heuid₆)).after hfds₇ heuid₇
            | ok fd =>
              rw [hret] at hsettled
              exact (hheld₅.exchange (HasOpen.after hsettled hfds₆ heuid₆)).after hfds₇ heuid₇
          · intro fd hfd
            obtain ⟨way, stat, hseen, hlength, hway⟩ := h.way fd hfd
            refine ⟨⟨dirfd, basename path, statbuf⟩ :: way, stat, by rw [hseen, List.cons_append],
              by rw [List.length_cons]; omega, ?_, hway.ends, fun hno => by rw [hlink.2] at hno; cases hno⟩
            rw [List.cons_append, ← hseen]
            refine List.isChain_cons.mpr ⟨fun next hnext => ⟨hlink.1, ?_⟩, ?_⟩
            · rw [← hheld₅.euid]
              exact h.behind rfl next hnext fd hfd
            · rw [hseen, ← hheld₅.euid]
              exact hway.links
          · intro htraversed first hfirst fd _
            rw [List.head?_cons, Option.mem_def, Option.some.injEq] at hfirst
            rw [← hfirst]
            exact htrust htraversed
  · rename_i hlink
    refine tells_done hother fun w' hfds' heuid' => ⟨rfl, hheld₄.after hfds' heuid', ⟨path, rfl, fun _ => rfl⟩, ?_, ?_⟩
    · intro fd hfd
      obtain rfl := Except.ok.inj hfd
      refine ⟨[], statbuf, rfl, Nat.zero_le bound, List.IsChain.singleton _, fun hfollows htype => ?_, fun _ => rfl⟩
      exact hlink ⟨htype, hfollows⟩
    · intro htraversed first hfirst fd _
      rw [List.head?_cons, Option.mem_def, Option.some.injEq] at hfirst
      rw [← hfirst]
      exact htrust htraversed

theorem safeOpenTrueParentDir_tells (loop_countdown : ℕ) : ∀ (w : World) (path : Bytes) (link_user link_group : ℕ)
    (traversed_link : Bool),
    Tells other w (safeOpenTrueParentDir nofollow loop_countdown path link_user link_group traversed_link)
      (ParentFound w nofollow path link_user link_group traversed_link (loop_countdown - 1)) := by
  induction loop_countdown using Nat.twoStepInduction with
  | zero =>
    intro w path link_user link_group traversed_link
    exact openParent_tells hother (fun f hf => by cases hf) w
  | one =>
    intro w path link_user link_group traversed_link
    exact openParent_tells hother (fun f hf => by cases hf) w
  | more n _ ih =>
    intro w path link_user link_group traversed_link
    refine openParent_tells hother (fun f hf => ?_) w
    rw [← Option.some.inj hf]
    exact ⟨n, Nat.lt_succ_self n, fun w stat target => ih w target stat.uid stat.gid true⟩

/-! ## The changes -/

omit hother in
/-- A call that changes an owner or a mode leaves the descriptors and the user. -/
theorem tells_change {c : ChangeCall} (hc : c.changes = true) (hkeeps : ∀ uid, c ≠ .seteuid uid)
    {next : ChangeAnswer c → ChangeProgram α}
    (h : ∀ w₁ answer w₂, ReflTransGen other w w₁ → w₂.fds = w₁.fds → w₂.euid = w₁.euid →
      Tells other w₂ (next answer) fun made found => post (⟨w₁, c, answer⟩ :: made) found) :
    Tells other w (.call c next) post := by
  intro w₁ answer w₂ hsteps hserves
  have hkept : w₂.fds = w₁.fds ∧ w₂.euid = w₁.euid := by
    cases c with
    | fchownat dirfd path owner group nofollow =>
      obtain ⟨rfl, -⟩ | ⟨ino, node, -, rfl, -⟩ := hserves
      · exact ⟨rfl, rfl⟩
      · exact ⟨rfl, rfl⟩
    | fchmodat dirfd path mode => exact ⟨by rw [hserves.1], by rw [hserves.1]⟩
    | fchmod fd mode => exact ⟨by rw [hserves.1], by rw [hserves.1]⟩
    | seteuid uid => exact absurd rfl (hkeeps uid)
    | _ => cases hc
  refine (h w₁ answer w₂ hsteps hkept.1 hkept.2).mono fun trace w' result hpost => ?_
  have hmade : changes (⟨w₁, c, answer⟩ :: trace) = ⟨w₁, c, answer⟩ :: changes trace :=
    List.filter_cons_of_pos hc
  have hseen : examined (⟨w₁, c, answer⟩ :: trace) = examined trace := by
    cases c with
    | fstatat dirfd path => cases hc
    | _ => rfl
  show post (changes (⟨w₁, c, answer⟩ :: trace)) (examined (⟨w₁, c, answer⟩ :: trace)) w' result
  rw [hmade, hseen]
  exact hpost

/-- Either nothing was changed, or the entry at the end of a trusted way was, without following it. -/
def ChownTells (w : World) (owner group : ℕ) (nofollow : Bool) (made : ChangeTrace) (seen : List Examined) (w' : World)
    (result : Except Errno Unit) : Prop :=
  Restored w w' ∧ ((made = [] ∧ ∃ errno, result = .error errno) ∨ ∃ world found last,
    made = [⟨world, .fchownat last.dirfd last.leaf owner group true, result⟩] ∧ seen = found ++ [last] ∧
      found.length < symlinkMaxDepth ∧ WayTo w.euid nofollow found last)

theorem safeChownImpl_tells (w : World) (path : Bytes) (owner group : ℕ) (nofollow : Bool) :
    Tells other w (safeChownImpl path owner group nofollow) (ChownTells w owner group nofollow) := by
  refine tells_bind (tells_mono (safeOpenTrueParentDir_tells hother symlinkMaxDepth w path 0 0 false)
    fun made seen w₁ ret h => ?_)
  obtain ⟨opened, true_leaf⟩ := ret
  obtain ⟨hquiet, hsettled, ⟨p, hleaf, hsame⟩, hway, -⟩ := h
  subst hquiet
  cases opened with
  | error errno =>
    exact tells_done hother fun w' hfds heuid => ⟨Restored.after hsettled hfds heuid, Or.inl ⟨rfl, errno, rfl⟩⟩
  | ok dirfd =>
    obtain ⟨found, stat, rfl, hlength, hwayTo⟩ := hway dirfd rfl
    have hname : (if nofollow then basename path else true_leaf) = true_leaf := by
      split
      · rename_i hno
        rw [← hsame hno]
        exact hleaf.symm
      · rfl
    simp only
    rw [hname]
    refine tells_change rfl (fun _ h => by cases h) fun w₂ ret w₃ hsteps hfds heuid => ?_
    obtain ⟨hfds₂, heuid₂⟩ := hother.steps hsteps
    refine tells_closed hother ((HasOpen.after hsettled hfds₂ heuid₂).after hfds heuid) fun w' hrestored => ?_
    refine ⟨hrestored, Or.inr ⟨w₂, found, ⟨dirfd, true_leaf, stat⟩, rfl, List.append_nil _, ?_, hwayTo⟩⟩
    rw [symlinkMaxDepth] at hlength ⊢
    omega

omit hother in
theorem basename_name {name : Bytes} (hne : name ≠ []) (hslash : Glob.slash ∉ name) : basename name = name := by
  have htake : name.reverse.takeWhile (· ≠ Glob.slash) = name.reverse := by
    refine List.takeWhile_eq_self_iff.mpr fun c hc => decide_eq_true fun heq => hslash ?_
    rw [← heq]
    exact List.mem_reverse.mp hc
  have hdrop : name.reverse.dropWhile (· = Glob.slash) = name.reverse := by
    obtain ⟨c, rest, hcons⟩ := List.exists_cons_of_ne_nil (List.reverse_ne_nil_iff.mpr hne)
    have hc : c ≠ Glob.slash := fun heq => hslash (by
      rw [← List.mem_reverse, hcons, heq]
      exact List.mem_cons_self)
    rw [hcons, List.dropWhile_cons_of_neg (by simpa using hc)]
  rw [basename, hdrop, htake, List.reverse_reverse, if_neg hne, if_neg (List.reverse_ne_nil_iff.mpr hne)]

omit hother in
theorem basename_basename (path : Bytes) : basename (basename path) = basename path := by
  nth_rewrite 2 3 [basename]
  split
  · rfl
  · split
    · rfl
    · rename_i htrimmed
      obtain ⟨c, rest, hcons⟩ := List.exists_cons_of_ne_nil htrimmed
      have hc : c ≠ Glob.slash := by
        rintro rfl
        refine head_dropSlashes path.reverse ?_
        show (path.reverse.dropWhile (· = Glob.slash)).head? = some Glob.slash
        rw [hcons]
        rfl
      refine basename_name ?_ fun hmem => ?_
      · rw [hcons, List.takeWhile_cons_of_pos (by simpa using hc)]
        exact List.reverse_ne_nil_iff.mpr (List.cons_ne_nil _ _)
      · have hno := List.mem_takeWhile_imp (List.mem_reverse.mp hmem)
        exact absurd rfl (of_decide_eq_true hno)

/-- The mode of a FIFO or a socket is changed by its name, as its owner, and then the effective user is set back to the one
of the process. No result is the end of the process: exactly where that is refused. -/
def ChangedAsOwner (w : World) (dirfd : Fd) (leaf : Bytes) (mode : ℕ) (again : LeafStat) (made : ChangeTrace)
    (result : Option (Except Errno Unit)) : Prop :=
  ∃ w₁ world w₂ ret back, made = [⟨w₁, .seteuid again.uid, .ok ()⟩, ⟨world, .fchmodat dirfd leaf mode, ret⟩,
    ⟨w₂, .seteuid w.euid, back⟩] ∧ world.euid = again.uid ∧
      ((back = .ok () ∧ result = some ret) ∨ ((∃ errno, back = .error errno) ∧ result = none))

/-- Behind the way to the leaf the mode is changed; of other files by a new descriptor. -/
def ModeChanged (w : World) (mode : ℕ) (last : Examined) (again : LeafStat) (made : ChangeTrace)
    (result : Option (Except Errno Unit)) : Prop :=
  if again.type = .fifo ∨ again.type = .socket then ChangedAsOwner w last.dirfd last.leaf mode again made result
  else
    ∃ world fd ret, made = [⟨world, .fchmod fd mode, ret⟩] ∧ world.euid = w.euid ∧ result = some ret ∧
      w.fds fd = none ∧ world.fds fd ≠ none

/-- Nothing was changed; at most it was refused to become the owner. -/
def NothingChanged (made : ChangeTrace) (result : Option (Except Errno Unit)) : Prop :=
  ∃ errno, result = some (.error errno) ∧ (made = [] ∨ ∃ world uid, made = [⟨world, .seteuid uid, .error errno⟩])

/-- Either nothing was changed, or one mode was; if the function returns, everything else is as before. -/
def ChmodTells (w : World) (mode : ℕ) (made : ChangeTrace) (seen : List Examined) (w' : World)
    (result : Option (Except Errno Unit)) : Prop :=
  (∀ ret, result = some ret → Restored w w') ∧ (NothingChanged made result ∨
    ∃ found last again, seen = found ++ [last, ⟨last.dirfd, last.leaf, again⟩] ∧ found.length < symlinkMaxDepth ∧
      WayTo w.euid false found last ∧ ModeChanged w mode last again made result)

theorem changeAsOwner_tells {mode : ℕ} {statbuf : LeafStat} (hheld : HasOpen w₀ dirfd w) :
    Tells other w (changeAsOwner dirfd leaf mode statbuf) fun made seen w' result => seen = [] ∧
      (∀ ret, result = some ret → Restored w₀ w') ∧
        (NothingChanged made result ∨ ChangedAsOwner w₀ dirfd leaf mode statbuf made result) := by
  refine tells_plain fun w₁ olduid w₂ hsteps hserves => ?_
  obtain ⟨hfds₁, heuid₁⟩ := hother.steps hsteps
  obtain ⟨rfl, rfl⟩ := hserves
  have hheld₁ := hheld.after hfds₁ heuid₁
  refine tells_seteuid (fun w₃ errno hsteps₃ => ?_) fun w₃ hsteps₃ => ?_
  · obtain ⟨hfds₃, heuid₃⟩ := hother.steps hsteps₃
    exact tells_closed hother (hheld₁.after hfds₃ heuid₃) fun w' h =>
      ⟨rfl, fun _ _ => h, Or.inl ⟨errno, rfl, Or.inr ⟨w₃, statbuf.uid, rfl⟩⟩⟩
  obtain ⟨hfds₃, heuid₃⟩ := hother.steps hsteps₃
  have hheld₃ := hheld₁.after hfds₃ heuid₃
  refine tells_change (c := .fchmodat dirfd leaf mode) rfl (fun _ h => by cases h)
    fun w₅ ret w₆ hsteps₅ hfds₆ heuid₆ => ?_
  obtain ⟨hfds₅, heuid₅⟩ := hother.steps hsteps₅
  refine tells_seteuid (fun w₇ errno _ => ?_) fun w₇ hsteps₇ => ?_
  · refine tells_done hother fun w' _ _ => ⟨rfl, ?_, Or.inr ?_⟩
    · intro ret h
      cases h
    · exact ⟨w₃, w₅, w₇, ret, .error errno, by rw [hheld₁.euid], heuid₅, Or.inr ⟨⟨errno, rfl⟩, rfl⟩⟩
  · obtain ⟨hfds₇, -⟩ := hother.steps hsteps₇
    have hfds : w₇.fds = w₃.fds := hfds₇.trans (hfds₆.trans hfds₅)
    have hback : HasOpen w₀ dirfd { w₇ with euid := w₂.euid } := by
      obtain ⟨ino, hino⟩ := hheld₃.held
      exact ⟨hheld₃.free, ⟨ino, hfds.trans hino⟩, hheld₁.euid⟩
    refine tells_closed hother hback fun w' h => ⟨rfl, fun _ _ => h, Or.inr ?_⟩
    exact ⟨w₃, w₅, w₇, ret, .ok (), by rw [hheld₁.euid], heuid₅, Or.inl ⟨rfl, rfl⟩⟩

theorem safeChmod_tells (w : World) (path : Bytes) (mode : ℕ) :
    Tells other w (safeChmod path mode) (ChmodTells w mode) := by
  refine tells_bind (tells_mono (safeOpenTrueParentDir_tells hother symlinkMaxDepth w path 0 0 false)
    fun made seen w₁ ret h => ?_)
  obtain ⟨opened, leaf_alloc⟩ := ret
  obtain ⟨hquiet, hsettled, ⟨p, hleaf, -⟩, hway, -⟩ := h
  subst hquiet
  cases opened with
  | error errno =>
    exact tells_done hother fun w' hfds heuid =>
      ⟨fun _ _ => Restored.after hsettled hfds heuid, Or.inl ⟨errno, rfl, Or.inl rfl⟩⟩
  | ok dirfd =>
    obtain ⟨found, stat, rfl, hlength, hwayTo⟩ := hway dirfd rfl
    have hname : basename leaf_alloc = leaf_alloc := by
      rw [show leaf_alloc = basename p from hleaf, basename_basename]
    have hshort : found.length < symlinkMaxDepth := by
      rw [symlinkMaxDepth] at hlength ⊢
      omega
    simp only
    rw [hname]
    refine tells_fstatat (fun w₂ errno hsteps => ?_) fun w₂ again hsteps => ?_
    · obtain ⟨hfds, heuid⟩ := hother.steps hsteps
      exact tells_closed hother (HasOpen.after hsettled hfds heuid) fun w' h =>
        ⟨fun _ _ => h, Or.inl ⟨errno, rfl, Or.inl rfl⟩⟩
    obtain ⟨hfds, heuid⟩ := hother.steps hsteps
    have hheld : HasOpen w dirfd w₂ := HasOpen.after hsettled hfds heuid
    have hseen : found ++ [⟨dirfd, leaf_alloc, stat⟩] ++ [⟨dirfd, leaf_alloc, again⟩]
        = found ++ [⟨dirfd, leaf_alloc, stat⟩, (⟨dirfd, leaf_alloc, again⟩ : Examined)] := by simp
    simp only
    split
    · rename_i htype
      refine tells_mono (changeAsOwner_tells hother hheld) fun made seen w' result h => ?_
      obtain ⟨rfl, hrestored, hnothing | hchanged⟩ := h
      · exact ⟨hrestored, Or.inl hnothing⟩
      · refine ⟨hrestored, Or.inr ⟨found, ⟨dirfd, leaf_alloc, stat⟩, again, hseen, hshort, hwayTo, ?_⟩⟩
        rw [ModeChanged, if_pos htype]
        exact hchanged
    · rename_i htype
      refine tells_plainOpen hother (fun w₃ errno h₃ => ?_) fun w₃ file_fd h₃ => ?_
      · exact tells_closed hother (hheld.after h₃.fds h₃.euid) fun w' h =>
          ⟨fun _ _ => h, Or.inl ⟨errno, rfl, Or.inl rfl⟩⟩
      refine tells_change (c := .fchmod file_fd mode) rfl (fun _ h => by cases h) fun w₄ ret w₅ hsteps₄ hfds₅ heuid₅ => ?_
      obtain ⟨hfds₄, heuid₄⟩ := hother.steps hsteps₄
      have h₄ := h₃.after hfds₄ heuid₄
      refine tells_plain fun w₆ _ w₇ hsteps₆ hserves₆ => ?_
      obtain ⟨hfds₆, heuid₆⟩ := hother.steps hsteps₆
      obtain rfl := hserves₆
      have hrestored : Restored w₂ (w₆.assign file_fd none) := ((h₄.after hfds₅ heuid₅).after hfds₆ heuid₆).closed
      refine tells_closed hother (hheld.after hrestored.fds hrestored.euid) fun w' h => ⟨fun _ _ => h, Or.inr
        ⟨found, ⟨dirfd, leaf_alloc, stat⟩, again, hseen, hshort, hwayTo, ?_⟩⟩
      rw [ModeChanged, if_neg htype]
      obtain ⟨ino, hino⟩ := h₄.held
      refine ⟨w₄, file_fd, ret, rfl, h₄.euid.trans hheld.euid, rfl, ?_, ?_⟩
      · obtain ⟨held, hheldAt⟩ := hheld.held
        have hfree := h₄.free
        rw [hheldAt] at hfree
        by_cases heq : file_fd = dirfd
        · rw [heq]
          exact hheld.free
        · rw [Function.update_of_ne heq] at hfree
          exact hfree
      · rw [hino, Function.update_self]
        exact Option.some_ne_none ino

end Runs

/-! ## Whole runs -/

/-- What the owner or the mode of which was changed, in the world of the call. -/
theorem changed_leads {other : World → World → Prop} {α : Type} {w w' world : World} {p : ChangeProgram α} {result : α}
    (h : Lib.Runs ServesChange other w p trace w' result) {c : ChangeCall} {answer : ChangeAnswer c}
    (hmade : ⟨world, c, answer⟩ ∈ changes trace) : ∃ w₁, ServesChange world c answer w₁ :=
  h.served _ (List.mem_filter.mp hmade).1

/-- `safe_chown` and `safe_lchown`: in every run no descriptor is left behind, and at most one owner is changed. It is
that of the entry at the end of a way of trusted links, and a link that is put in its place is not followed. -/
theorem safeChown_run {other : World → World → Prop} (hother : LeavesProcess other) {w w' : World} {path : Bytes}
    {owner group : ℕ} {nofollow : Bool} {trace : ChangeTrace} {result : Except Errno Unit}
    (h : Lib.Runs ServesChange other w (safeChownImpl path owner group nofollow) trace w' result) :
    ChownTells w owner group nofollow (changes trace) (examined trace) w' result ∧
      ∀ world dirfd leaf nofollow, changes trace = [⟨world, .fchownat dirfd leaf owner group nofollow, .ok ()⟩] →
        ∃ ino node, World.Leads world false dirfd leaf ino node := by
  have htells := h.ensures (safeChownImpl_tells hother w path owner group nofollow)
  refine ⟨htells, fun world dirfd leaf nofollow hmade => ?_⟩
  obtain ⟨w₁, ⟨-, errno, herror⟩ | ⟨ino, node, hleads, -⟩⟩ := changed_leads h (by rw [hmade]; exact List.mem_singleton_self _)
  · cases herror
  obtain ⟨-, ⟨hnothing, -⟩ | ⟨world', found, last, hsame, -⟩⟩ := htells
  · rw [hmade] at hnothing
    cases hnothing
  · rw [hmade] at hsame
    obtain ⟨-, hcall, -⟩ := Event.mk.inj (List.singleton_inj.mp hsame)
    obtain ⟨-, -, -, -, rfl⟩ := ChangeCall.fchownat.inj hcall
    exact ⟨ino, node, hleads⟩

/-- The working directory is open. -/
def openedDot (euid entry : ℕ) : World :=
  (((process euid entry).assign 3 (some 2)).assign 4 (some 2)).assign 3 none

theorem safeOpen_dot_runs (other : World → World → Prop) (euid entry : ℕ) : ∃ opening,
    Lib.Runs ServesChange other (process euid entry) (plainOpen (ascii ".") .rdonly) opening (openedDot euid entry)
      (.ok 4) := by
  let w₁ := (process euid entry).assign 3 (some 2)
  let w₂ := w₁.assign 4 (some 2)
  have hcomponents : components ['.'.toUInt8] = [⟨ascii ".", []⟩] := by
    have hempty : components [] = [] := by rw [components]
    rw [components]
    exact congrArg _ hempty
  have hprogram := safeOpenCreatePerms_eq '.'.toUInt8 [] .rdonly cfPermsDefault
  rw [if_neg (by decide), List.dropWhile_cons_of_neg (by decide), hcomponents] at hprogram
  have hdot : Resolves (files entry) true 2 [ascii "."] (.object 2) :=
    .enter rfl rfl (fun h => absurd h Bool.false_ne_true) (.here 2)
  have hentry : Resolves (files entry) false 2 [ascii "."] (.object 2) :=
    .enter rfl rfl (fun h => absurd h Bool.false_ne_true) (.here 2)
  have hexamined : Serves w₁ (.fstatat 3 (ascii ".")) (.ok ⟨1000, 1000, 0⟩) w₁ :=
    ⟨rfl, .inr ⟨2, 2, _, rfl, hentry, rfl, rfl⟩⟩
  have hopen : Serves w₁ (.openat (some 3) (ascii "." ++ []) .rdonly cfPermsDefault) (.ok 4) w₂ :=
    .existing rfl hdot (fun h => absurd h (by decide)) (fun _ => rfl) rfl rfl
  have hstat : Serves (openedDot euid entry) (.fstat 4) (.ok ⟨1000, 1000, 0⟩) (openedDot euid entry) :=
    ⟨rfl, .inr ⟨2, _, rfl, rfl, rfl⟩⟩
  have htrusted : untrusted (pUid euid) ⟨1000, 1000, 0⟩ ⟨1000, 1000, 0⟩ = false := by simp [untrusted]
  refine ⟨[⟨process euid entry, .plain (.openat none (ascii ".") .rdonly 0), .ok 3⟩, ⟨w₁, .plain .geteuid, euid⟩,
    ⟨w₁, .plain (.fstatat 3 (ascii ".")), .ok ⟨1000, 1000, 0⟩⟩,
    ⟨w₁, .plain (.openat (some 3) (ascii "." ++ []) .rdonly cfPermsDefault), .ok 4⟩,
    ⟨w₂, .plain (.close 3), ()⟩, ⟨openedDot euid entry, .plain (.fstat 4), .ok ⟨1000, 1000, 0⟩⟩], ?_⟩
  rw [plainOpen, safeOpen, show (ascii ".") = ['.'.toUInt8] from rfl, hprogram]
  refine .call (opens_dot euid entry) (.call ⟨rfl, rfl⟩ (.call hexamined (.call hopen (.call rfl (.call hstat ?_)))))
  show Lib.Runs ServesChange other (openedDot euid entry) (Program.embed ChangeCall.plain (fun _ a => a)
    (if untrusted (pUid euid) ⟨1000, 1000, 0⟩ ⟨1000, 1000, 0⟩ then fail 4 .enolink else truncateOpened false 4 (some 0)))
    [] (openedDot euid entry) (.ok 4)
  rw [htrusted]
  exact .done _ _

/-- Root takes over the symlink itself. -/
theorem safeChown_run_symlink : ∃ trace w',
    Lib.Runs ServesChange (Interferes 1000) (process 0 4) (safeLchown (ascii "f") 0 0) trace w' (.ok ()) ∧
      ChownTells (process 0 4) 0 0 true (changes trace) (examined trace) w' (.ok ()) := by
  let w₁ := openedDot 0 4
  have hleaf : w₁.Leads false 4 (ascii "f") 4 ⟨1000, 1000, 2, .symlink (ascii "/s")⟩ :=
    ⟨2, rfl, .enter rfl rfl (fun _ => ⟨rfl, rfl⟩) (.here 4), rfl⟩
  have hexamined : ServesChange w₁ (.fstatat 4 (ascii "f")) (.ok ⟨1000, 1000, 2, .symlink⟩) w₁ :=
    ⟨rfl, .inr ⟨4, _, .symlink, hleaf, rfl, rfl⟩⟩
  have hchown : ServesChange w₁ (.fchownat 4 (ascii "f") 0 0 true) (.ok ()) { w₁ with fs := w₁.fs.chown 4 0 0 } :=
    .inr ⟨4, _, hleaf, rfl, rfl⟩
  let w₂ : World := { w₁ with fs := w₁.fs.chown 4 0 0 }
  have hclose : ServesChange w₂ (.plain (.close 4)) () (w₂.assign 4 none) := rfl
  obtain ⟨opening, hopening⟩ := safeOpen_dot_runs (Interferes 1000) 0 4
  have hparent : Lib.Runs ServesChange (Interferes 1000) (process 0 4)
      (safeOpenTrueParentDir true symlinkMaxDepth (ascii "f") 0 0 false) _ w₁ (.ok 4, ascii "f") :=
    .call ⟨rfl, rfl⟩ (hopening.bind (.call hexamined (.done _ _)))
  have hrun : Lib.Runs ServesChange (Interferes 1000) (process 0 4) (safeLchown (ascii "f") 0 0) _ _ (.ok ()) :=
    hparent.bind (.call hchown (.call hclose (.done _ _)))
  exact ⟨_, _, hrun, (safeChown_run (fun w w' h => ⟨h.fds, h.euid⟩) hrun).1⟩

/-- `safe_chmod`: in every run that returns, no descriptor is left behind and the effective user is the one from before;
the process ends only where it was refused to set the user back. Under the name of a FIFO, nothing is changed but what its
owner owns, if that is not root. -/
theorem safeChmod_run {other : World → World → Prop} (hother : LeavesProcess other) {w w' : World} {path : Bytes}
    {mode : ℕ} {trace : ChangeTrace} {result : Option (Except Errno Unit)}
    (h : Lib.Runs ServesChange other w (safeChmod path mode) trace w' result) :
    ChmodTells w mode (changes trace) (examined trace) w' result ∧
      ∀ world dirfd leaf, ⟨world, .fchmodat dirfd leaf mode, .ok ()⟩ ∈ changes trace →
        ∃ again ino node, (⟨dirfd, leaf, again⟩ : Examined) ∈ examined trace ∧ World.Leads world true dirfd leaf ino node ∧
          (again.uid = 0 ∨ node.uid = again.uid) := by
  have htells := h.ensures (safeChmod_tells hother w path mode)
  refine ⟨htells, fun world dirfd leaf hmade => ?_⟩
  obtain ⟨w₁, -, herror | ⟨ino, node, hleads, howner, -⟩⟩ := changed_leads h hmade
  · obtain ⟨errno, herror⟩ := herror
    cases herror
  obtain ⟨-, ⟨errno, -, hnothing | ⟨world', uid, hrefused⟩⟩ | ⟨found, last, again, hseen, -, -, hchanged⟩⟩ := htells
  · rw [hnothing] at hmade
    cases hmade
  · rw [hrefused, List.mem_singleton] at hmade
    cases (Event.mk.inj hmade).2.1
  · rw [ModeChanged] at hchanged
    split at hchanged
    · obtain ⟨w₂, world', w₃, ret, back, hsame, heuid, -⟩ := hchanged
      rw [hsame, List.mem_cons, List.mem_cons, List.mem_singleton] at hmade
      obtain hfirst | hsecond | hthird := hmade
      · cases (Event.mk.inj hfirst).2.1
      · obtain ⟨rfl, hcall, -⟩ := Event.mk.inj hsecond
        obtain ⟨rfl, rfl, -⟩ := ChangeCall.fchmodat.inj hcall
        refine ⟨again, ino, node, by rw [hseen]; simp, hleads, ?_⟩
        rw [← heuid]
        exact howner.imp_right Eq.symm
      · cases (Event.mk.inj hthird).2.1
    · obtain ⟨world', fd, ret, hsame, -⟩ := hchanged
      rw [hsame, List.mem_singleton] at hmade
      cases (Event.mk.inj hmade).2.1

/-- Root's file is opened for the change. -/
theorem safeChmod_run_file : ∃ trace w',
    Lib.Runs ServesChange (Interferes 1000) (process 0 3) (safeChmod (ascii "f") 0o600) trace w' (some (.ok ())) ∧
      ChmodTells (process 0 3) 0o600 (changes trace) (examined trace) w' (some (.ok ())) := by
  let w₁ := openedDot 0 3
  let w₂ := w₁.assign 3 (some 2)
  let w₃ := w₂.assign 5 (some 3)
  let w₄ := w₃.assign 3 none
  let w₅ := w₄.assign 5 none
  have hleaf : w₁.Leads false 4 (ascii "f") 3 ⟨0, 0, 5, .regular⟩ := ⟨2, rfl, .enter rfl rfl nofun (.here 3), rfl⟩
  have hexamined : ServesChange w₁ (.fstatat 4 (ascii "f")) (.ok ⟨0, 0, 5, .other⟩) w₁ :=
    ⟨rfl, .inr ⟨3, _, .other, hleaf, rfl, rfl⟩⟩
  obtain ⟨opening, hopening⟩ := safeOpen_dot_runs (Interferes 1000) 0 3
  have hparent : Lib.Runs ServesChange (Interferes 1000) (process 0 3)
      (safeOpenTrueParentDir false symlinkMaxDepth (ascii "f") 0 0 false) _ w₁ (.ok 4, ascii "f") :=
    .call ⟨rfl, rfl⟩ (hopening.bind (.call hexamined (.done _ _)))
  -- the file, by a descriptor of its own
  have hdot : Serves w₁ (.openat none (ascii ".") .rdonly 0) (.ok 3) w₂ :=
    .existing rfl (.enter rfl rfl nofun (.here 2)) nofun (fun _ => rfl) rfl rfl
  have hstatted : Serves w₂ (.fstatat 3 (ascii "f")) (.ok ⟨0, 0, 5⟩) w₂ :=
    ⟨rfl, .inr ⟨2, 3, _, rfl, .enter rfl rfl nofun (.here 3), rfl, rfl⟩⟩
  have hopen : Serves w₂ (.openat (some 3) (ascii "f" ++ []) .rdonly cfPermsDefault) (.ok 5) w₃ :=
    .existing rfl (.enter rfl rfl nofun (.here 3)) nofun (fun _ => rfl) rfl rfl
  have hstat : Serves w₄ (.fstat 5) (.ok ⟨0, 0, 5⟩) w₄ := ⟨rfl, .inr ⟨3, _, rfl, rfl, rfl⟩⟩
  have hfile : Lib.Runs ServesChange (Interferes 1000) w₁ (plainOpen (ascii "f") .rdonly)
      [⟨w₁, .plain (.openat none (ascii ".") .rdonly 0), .ok 3⟩, ⟨w₂, .plain .geteuid, 0⟩,
        ⟨w₂, .plain (.fstatat 3 (ascii "f")), .ok ⟨0, 0, 5⟩⟩,
        ⟨w₂, .plain (.openat (some 3) (ascii "f" ++ []) .rdonly cfPermsDefault), .ok 5⟩, ⟨w₃, .plain (.close 3), ()⟩,
        ⟨w₄, .plain (.fstat 5), .ok ⟨0, 0, 5⟩⟩] w₄ (.ok 5) := by
    rw [plainOpen, safeOpen, safeOpenCreatePerms_f]
    exact .call hdot (.call ⟨rfl, rfl⟩ (.call hstatted (.call hopen (.call rfl (.call hstat (.done _ _))))))
  have hchmod : ServesChange w₄ (.fchmod 5 0o600) (.ok ()) w₄ := ⟨rfl, .inr ⟨3, _, rfl, rfl, .inl rfl, rfl⟩⟩
  have hclose : ServesChange w₄ (.plain (.close 5)) () w₅ := rfl
  have hclose' : ServesChange w₅ (.plain (.close 4)) () (w₅.assign 4 none) := rfl
  have hrun : Lib.Runs ServesChange (Interferes 1000) (process 0 3) (safeChmod (ascii "f") 0o600) _ _ (some (.ok ())) :=
    hparent.bind (.call hexamined (hfile.bind (.call hchmod (.call hclose (.call hclose' (.done _ _))))))
  exact ⟨_, _, hrun, (safeChmod_run (fun w w' h => ⟨h.fds, h.euid⟩) hrun).1⟩

end Libntech.Files
