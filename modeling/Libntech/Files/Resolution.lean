import Libntech.Files.SafeOpen
import Libntech.Lib.Terminated

/-! # Where paths lead

Resolving a path is resolving it component by component, and the components that `safe_open_create_perms` cuts from a
path are those that the kernel sees in it.
-/
namespace Libntech.Files
set_option autoImplicit false

open Libntech.Json

/-! ## Resolution -/

variable {fs : FileSystem} {follow : Bool} {dir ino : ℕ} {name : Bytes}

theorem isDirectory_of_entry (h : fs.entry dir name = some ino) : fs.isDirectory dir := by
  unfold FileSystem.entry at h
  split at h
  · rename_i hinode
    exact ⟨_, hinode, rfl⟩
  · cases h

theorem Resolves.unique {comps : List Bytes} {place place' : Place} (h : Resolves fs follow dir comps place)
    (h' : Resolves fs follow dir comps place') : place = place' := by
  induction h with
  | here ino =>
    cases h'
    rfl
  | vacant hdir hentry =>
    cases h' with
    | vacant _ _ => rfl
    | enter hentry' _ _ _ => rw [hentry] at hentry'; cases hentry'
    | link hentry' _ _ _ _ _ => rw [hentry] at hentry'; cases hentry'
  | enter hentry hinode hlink _ ih =>
    cases h' with
    | vacant _ hentry' => rw [hentry] at hentry'; cases hentry'
    | enter hentry' _ _ hrest =>
      rw [hentry, Option.some.injEq] at hentry'
      subst hentry'
      exact ih hrest
    | link hentry' hinode' hkind hfollow _ _ =>
      rw [hentry, Option.some.injEq] at hentry'
      subst hentry'
      rw [hinode, Option.some.injEq] at hinode'
      subst hinode'
      obtain ⟨hnil, hfalse⟩ := hlink (by rw [Inode.isSymlink, hkind])
      rw [hfollow hnil] at hfalse
      cases hfalse
  | link hentry hinode hkind hfollow _ _ ih =>
    cases h' with
    | vacant _ hentry' => rw [hentry] at hentry'; cases hentry'
    | enter hentry' hinode' hlink _ =>
      rw [hentry, Option.some.injEq] at hentry'
      subst hentry'
      rw [hinode, Option.some.injEq] at hinode'
      subst hinode'
      obtain ⟨hnil, hfalse⟩ := hlink (by rw [Inode.isSymlink, hkind])
      rw [hfollow hnil] at hfalse
      cases hfalse
    | link hentry' hinode' hkind' _ _ hrest =>
      rw [hentry, Option.some.injEq] at hentry'
      subst hentry'
      rw [hinode, Option.some.injEq] at hinode'
      subst hinode'
      rw [hkind, Kind.symlink.injEq] at hkind'
      subst hkind'
      exact ih hrest

/-- A path that goes on leads through the object that its front leads to. -/
theorem Resolves.split {comps : List Bytes} {place : Place} (h : Resolves fs true dir comps place) :
    ∀ {front back : List Bytes}, comps = front ++ back → back ≠ [] →
      ∃ mid, Resolves fs true dir front (.object mid) ∧ Resolves fs true mid back place := by
  induction h with
  | here ino =>
    intro front back heq hne
    exact absurd (List.append_eq_nil_iff.mp heq.symm).2 hne
  | vacant hdir hentry =>
    intro front back heq hne
    cases front with
    | nil =>
      rw [List.nil_append] at heq
      exact ⟨_, .here _, by rw [← heq]; exact .vacant hdir hentry⟩
    | cons _ front =>
      obtain ⟨-, hrest⟩ := List.cons.inj heq
      exact absurd (List.append_eq_nil_iff.mp hrest.symm).2 hne
  | enter hentry hinode hlink hrest ih =>
    intro front back heq hne
    cases front with
    | nil =>
      rw [List.nil_append] at heq
      exact ⟨_, .here _, by rw [← heq]; exact .enter hentry hinode hlink hrest⟩
    | cons _ front =>
      obtain ⟨rfl, hrest⟩ := List.cons.inj heq
      obtain ⟨mid, hfront, hback⟩ := ih hrest hne
      refine ⟨mid, .enter hentry hinode (fun hsym => ?_) hfront, hback⟩
      cases (hlink hsym).2
  | link hentry hinode hkind hfollow htarget hrest ih =>
    intro front back heq hne
    cases front with
    | nil =>
      rw [List.nil_append] at heq
      exact ⟨_, .here _, by rw [← heq]; exact .link hentry hinode hkind hfollow htarget hrest⟩
    | cons _ front =>
      obtain ⟨rfl, rfl⟩ := List.cons.inj heq
      obtain ⟨mid, hfront, hback⟩ := ih (List.append_assoc _ front back).symm hne
      exact ⟨mid, .link hentry hinode hkind (fun _ => rfl) htarget hfront, hback⟩

theorem Resolves.append {front back : List Bytes} {mid : ℕ} {place : Place}
    (h : Resolves fs true dir front (.object mid)) (hback : Resolves fs true mid back place) :
    Resolves fs true dir (front ++ back) place := by
  generalize hplace : Place.object mid = middle at h
  induction h with
  | here ino =>
    obtain rfl := Place.object.inj hplace
    exact hback
  | vacant hdir hentry => cases hplace
  | enter hentry hinode hlink _ ih =>
    refine .enter hentry hinode (fun hsym => ?_) (ih hplace)
    cases (hlink hsym).2
  | link hentry hinode hkind hfollow htarget _ ih =>
    have hrest := ih hplace
    rw [List.append_assoc] at hrest
    exact .link hentry hinode hkind (fun _ => rfl) htarget hrest

theorem Resolves.entry_eq (h : Resolves fs false dir [name] (.object ino)) :
    fs.entry dir name = some ino := by
  cases h with
  | enter hentry _ _ hrest =>
    cases hrest
    exact hentry
  | link _ _ _ hfollow _ _ => cases hfollow rfl

theorem Resolves.vacant_eq {d : ℕ} {n : Bytes} (h : Resolves fs false dir [name] (.vacant d n)) :
    d = dir ∧ n = name ∧ fs.isDirectory dir ∧ fs.entry dir name = none := by
  cases h with
  | vacant hdir hentry => exact ⟨rfl, rfl, hdir, hentry⟩
  | enter _ _ _ hrest => cases hrest
  | link _ _ _ hfollow _ _ => cases hfollow rfl

theorem entry_dot (h : fs.entry dir (ascii ".") = some ino) : ino = dir := by
  unfold FileSystem.entry at h
  split at h
  · rw [if_pos rfl] at h
    exact (Option.some.inj h).symm
  · cases h

/-- The entry `.` is no symlink. -/
theorem Resolves.dot (h : Resolves fs true dir [ascii "."] (.object ino)) : ino = dir := by
  cases h with
  | enter hentry _ _ hrest =>
    cases hrest
    exact entry_dot hentry
  | link hentry hinode hkind _ _ _ =>
    obtain ⟨node, hdirectory, hnode⟩ := isDirectory_of_entry hentry
    rw [entry_dot hentry, hdirectory] at hinode
    obtain rfl := Option.some.inj hinode
    rw [Inode.isDirectory, hkind] at hnode
    cases hnode

theorem Resolves.dot_of_directory (h : fs.isDirectory dir) : Resolves fs true dir [ascii "."] (.object dir) := by
  obtain ⟨⟨uid, gid, size, kind⟩, hnode, hkind⟩ := h
  cases kind with
  | directory entries =>
    have hentry : fs.entry dir (ascii ".") = some dir := by
      rw [FileSystem.entry, hnode]
      exact if_pos rfl
    exact .enter hentry hnode nofun (.here dir)
  | regular | symlink _ | special => cases hkind

theorem Resolves.lstat {rest : List Bytes} (h : Resolves fs true dir (name :: rest) (.object ino)) :
    ∃ entry, fs.lstat dir name = some entry := by
  cases h with
  | enter hentry hinode _ _ => exact ⟨_, by rw [FileSystem.lstat, hentry, Option.bind_some, hinode]⟩
  | link hentry hinode _ _ _ _ => exact ⟨_, by rw [FileSystem.lstat, hentry, Option.bind_some, hinode]⟩

theorem Resolves.inode {comps : List Bytes} (h : Resolves fs follow dir comps (.object ino))
    (hdir : ∃ node, fs.inode dir = some node) : ∃ node, fs.inode ino = some node := by
  generalize hplace : Place.object ino = place at h
  induction h with
  | here _ =>
    obtain rfl := Place.object.inj hplace
    exact hdir
  | vacant _ _ => cases hplace
  | enter _ hinode _ _ ih => exact ih ⟨_, hinode⟩ hplace
  | link _ _ _ _ _ _ ih =>
    refine ih ?_ hplace
    split
    · obtain ⟨node, hroot, _⟩ := fs.rooted
      exact ⟨node, hroot⟩
    · exact hdir

theorem Resolves.inode_of_name (h : Resolves fs true dir [name] (.object ino)) : ∃ node, fs.inode ino = some node := by
  obtain ⟨entry, hentry⟩ := h.lstat
  obtain ⟨_, hentry, _⟩ := Option.bind_eq_some_iff.mp hentry
  obtain ⟨node, hnode, _⟩ := isDirectory_of_entry hentry
  exact h.inode ⟨node, hnode⟩

/-! ## The components of a path -/

/-- A text that is empty or goes on with a slash. -/
def EndsName (behind : Bytes) : Prop := behind.head? = none ∨ behind.head? = some slash

theorem pathComponents_name {behind : Bytes} (hne : name ≠ []) (hname : slash ∉ name) (hbehind : EndsName behind) :
    pathComponents (name ++ behind) = name :: pathComponents behind := by
  induction name with
  | nil => exact absurd rfl hne
  | cons c name ih =>
    have hc : c ≠ slash := fun heq => hname (heq ▸ List.mem_cons_self)
    rw [List.cons_append, pathComponents, if_neg hc]
    cases name with
    | nil => exact if_pos hbehind
    | cons d name =>
      have hd : d ≠ slash := fun heq => hname (heq ▸ List.mem_cons_of_mem c List.mem_cons_self)
      have hgoes : ¬((d :: name ++ behind).head? = none ∨ (d :: name ++ behind).head? = some slash) := by
        rw [List.cons_append, List.head?_cons, not_or, Option.some.injEq]
        exact ⟨Option.some_ne_none d, hd⟩
      rw [if_neg hgoes, ih (List.cons_ne_nil d name) fun hmem => hname (List.mem_cons_of_mem c hmem)]

theorem pathComponents_slashes {slashes : Bytes} (h : ∀ c ∈ slashes, c = slash) (behind : Bytes) :
    pathComponents (slashes ++ behind) = pathComponents behind := by
  induction slashes with
  | nil => rfl
  | cons c slashes ih =>
    rw [List.cons_append, pathComponents, if_pos (h c List.mem_cons_self),
      ih fun d hd => h d (List.mem_cons_of_mem c hd)]

theorem pathComponents_dropSlashes (path : Bytes) :
    pathComponents (path.dropWhile (· = slash)) = pathComponents path := by
  have hslashes : ∀ c ∈ path.takeWhile (· = slash), c = slash := by
    intro c hc
    have heq := List.mem_takeWhile_imp hc
    exact of_decide_eq_true heq
  have hall := pathComponents_slashes hslashes (path.dropWhile (· = slash))
  rw [List.takeWhile_append_dropWhile] at hall
  exact hall.symm

theorem head_dropWhile_ne (text : Bytes) : EndsName (text.dropWhile (· ≠ slash)) := by
  have hhead := List.head?_dropWhile_not (· ≠ slash) text
  cases h : (text.dropWhile (· ≠ slash)).head? with
  | none => exact .inl h
  | some c =>
    rw [h] at hhead
    simp only [ne_eq, decide_not, Bool.not_eq_false', decide_eq_true_eq] at hhead
    exact .inr (h.trans (congrArg some hhead))

theorem head_dropSlashes (text : Bytes) : (text.dropWhile (· = slash)).head? ≠ some slash := by
  intro h
  have hhead := List.head?_dropWhile_not (· = slash) text
  rw [h] at hhead
  simp at hhead

theorem not_mem_takeWhile_ne (text : Bytes) : slash ∉ text.takeWhile (· ≠ slash) := Lib.notMem_takeWhile_ne slash text

/-- A name without slashes, and slashes behind it. -/
structure Component.Proper (component : Component) : Prop where
  nonempty : component.name ≠ []
  noSlash : slash ∉ component.name
  slashes : ∀ c ∈ component.slashes, c = slash

theorem components_ne_nil {path : Bytes} (h : path ≠ []) : components path ≠ [] := by
  cases path with
  | nil => exact absurd rfl h
  | cons c tail =>
    rw [components]
    exact List.cons_ne_nil _ _

theorem components_proper (path : Bytes) (h : path.head? ≠ some slash) : ∀ c ∈ components path, c.Proper := by
  fun_induction components path with
  | case1 => exact fun _ hmem => absurd hmem List.not_mem_nil
  | case2 c tail behind next ih =>
    have hc : c ≠ slash := fun heq => h (congrArg some heq)
    intro component hmem
    rcases List.mem_cons.mp hmem with rfl | hmem
    · refine ⟨List.cons_ne_nil _ _, ?_, ?_⟩
      · exact List.not_mem_cons_of_ne_of_not_mem hc.symm (not_mem_takeWhile_ne tail)
      · split
        · rename_i hnext
          exact fun d hd => of_decide_eq_true (List.dropWhile_eq_nil_iff.mp hnext d hd)
        · exact fun _ hmem => absurd hmem List.not_mem_nil
    · exact ih (head_dropSlashes _) component hmem

theorem components_names (path : Bytes) (h : path.head? ≠ some slash) :
    (components path).map Component.name = pathComponents path := by
  fun_induction components path with
  | case1 => rfl
  | case2 c tail behind next ih =>
    have hc : c ≠ slash := fun heq => h (congrArg some heq)
    have hname := pathComponents_name (List.cons_ne_nil c (tail.takeWhile (· ≠ slash)))
      (List.not_mem_cons_of_ne_of_not_mem hc.symm (not_mem_takeWhile_ne tail)) (head_dropWhile_ne tail)
    rw [List.cons_append, List.takeWhile_append_dropWhile] at hname
    rw [List.map_cons, ih (head_dropSlashes _), hname, ← pathComponents_dropSlashes behind]

theorem components_of_path (path : Bytes) : (∀ c ∈ components (path.dropWhile (· = slash)), c.Proper) ∧
    (components (path.dropWhile (· = slash))).map Component.name = pathComponents path := by
  have hhead := head_dropSlashes path
  exact ⟨components_proper _ hhead, (components_names _ hhead).trans (pathComponents_dropSlashes path)⟩

namespace Component.Proper

variable {component : Component} (h : component.Proper)
include h

theorem endsName : EndsName component.slashes := by
  cases hslashes : component.slashes with
  | nil => exact .inl rfl
  | cons c rest => exact .inr (congrArg some (h.slashes c (hslashes ▸ List.mem_cons_self)))

theorem components_name : pathComponents component.name = [component.name] := by
  have hname : pathComponents (component.name ++ []) = component.name :: pathComponents [] :=
    pathComponents_name h.nonempty h.noSlash (.inl rfl)
  rw [List.append_nil] at hname
  exact hname

theorem components_text : pathComponents (component.name ++ component.slashes) = [component.name] := by
  have hslashes := pathComponents_slashes h.slashes []
  rw [List.append_nil] at hslashes
  rw [pathComponents_name h.nonempty h.noSlash h.endsName, hslashes]
  rfl

theorem relative (behind : Bytes) : isAbsolute (component.name ++ behind) = false := by
  cases hname : component.name with
  | nil => exact absurd hname h.nonempty
  | cons c rest =>
    rw [isAbsolute, List.cons_append, List.head?_cons, decide_eq_false_iff_not, Option.some.injEq]
    exact fun heq => h.noSlash (hname ▸ heq ▸ List.mem_cons_self)

theorem start (w : World) (fd : Fd) (behind : Bytes) : w.start (some fd) (component.name ++ behind) = w.fds fd := by
  rw [World.start, h.relative]
  rfl

theorem start_name (w : World) (fd : Fd) : w.start (some fd) component.name = w.fds fd := by
  have hstart := h.start w fd []
  rwa [List.append_nil] at hstart

theorem getLast_eq : (component.name ++ component.slashes).getLast? = some slash ↔ component.slashes ≠ [] := by
  rw [List.getLast?_append]
  cases hlast : component.slashes.getLast? with
  | some c =>
    have hmem := List.mem_of_getLast? hlast
    rw [Option.some_or, h.slashes c hmem]
    exact iff_of_true rfl (List.ne_nil_of_mem hmem)
  | none =>
    rw [Option.none_or, List.getLast?_eq_none_iff.mp hlast]
    refine iff_of_false (fun heq => h.noSlash (List.mem_of_getLast? heq)) (fun hne => hne rfl)

end Component.Proper

/-- Behind the last component there are slashes or not. -/
def LastSlashed (comps : List Component) (slashed : Prop) : Prop :=
  ∀ front last, comps = front ++ [last] → (last.slashes ≠ [] ↔ slashed)

theorem LastSlashed.eq {component : Component} {slashed : Prop} (h : LastSlashed [component] slashed) :
    slashed = (component.slashes ≠ []) := propext (h [] component rfl).symm

theorem LastSlashed.rest {component : Component} {comps : List Component} {slashed : Prop}
    (h : LastSlashed (component :: comps) slashed) : LastSlashed comps slashed :=
  fun front last heq => h (component :: front) last (congrArg (List.cons component) heq)

theorem components_slashes (path : Bytes) (h : path.head? ≠ some slash) :
    LastSlashed (components path) (path.getLast? = some slash) := by
  have hproper := components_proper path h
  fun_induction components path with
  | case1 =>
    intro front last heq
    cases front <;> cases heq
  | case2 c tail behind next ih =>
    intro front last heq
    obtain ⟨hfirst, hrest⟩ := List.forall_mem_cons.mp hproper
    have hpath : c :: tail = (c :: tail.takeWhile (· ≠ slash)) ++ behind := by
      rw [List.cons_append, List.takeWhile_append_dropWhile]
    by_cases hnext : next = []
    · rw [hnext, components, if_pos rfl] at heq
      rw [hnext, if_pos rfl] at hfirst
      cases front with
      | nil =>
        obtain ⟨rfl, -⟩ := List.cons.inj heq
        rw [hpath, hfirst.getLast_eq]
      | cons _ front => exact absurd (List.cons.inj heq).2.symm (List.append_ne_nil_of_right_ne_nil _ (List.cons_ne_nil _ _))
    · cases front with
      | nil =>
        have hnil := (List.cons.inj heq).2
        exact absurd hnil (components_ne_nil hnext)
      | cons _ front =>
        have hback : behind = behind.takeWhile (· = slash) ++ next := List.takeWhile_append_dropWhile.symm
        rw [ih (head_dropSlashes _) hrest front last (List.cons.inj heq).2, hpath, hback, ← List.append_assoc,
          List.getLast?_append_of_ne_nil _ hnext]

theorem components_of_path_slashes (path : Bytes) :
    LastSlashed (components (path.dropWhile (· = slash))) (path.getLast? = some slash) := by
  intro front last heq
  have hne : path.dropWhile (· = slash) ≠ [] := by
    intro hnil
    rw [hnil, components] at heq
    exact List.append_ne_nil_of_right_ne_nil front (List.cons_ne_nil last []) heq.symm
  rw [components_slashes _ (head_dropSlashes path) front last heq, ← List.getLast?_append_of_ne_nil
    (path.takeWhile (· = slash)) hne, List.takeWhile_append_dropWhile]

end Libntech.Files
