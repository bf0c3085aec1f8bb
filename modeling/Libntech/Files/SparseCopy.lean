import Libntech.Files.Transfers

/-! # Copying files with holes (`libutils/file_lib.c`)

`FileSparseCopyShoveling` and `FileSparseClose` as they are built where the system calls of Linux are not available. Only
`read` and `write` have replies; `lseek`, `ftruncate`, `fsync` and `close` do not fail.
-/
namespace Libntech.Files
set_option autoImplicit false

open Libntech.Json (Bytes)
open Libntech.Lib (PositionedFile)
open Libntech.Lib.PositionedFile (StandsBehind standsBehind_nil)

/-- The first byte that is not `c` (`libutils/string_lib.c`). -/
def memcchr (buf : Bytes) (c : UInt8) : Option ℕ := buf.findIdx? (· ≠ c)

/-- What is stored in `*wrote_hole`, or nothing for `false`. -/
def fileSparseWrite (buf : Bytes) (calls : Calls) (fd : PositionedFile UInt8) :
    Option (Option Bool × Calls × PositionedFile UInt8) :=
  let all_zeroes := memcchr buf 0 = none
  if all_zeroes then some (some true, calls, fd.advance buf.length)
  else do
    let (w_ret, calls, fd) ← fullWrite buf calls.replies calls.errno fd
    return (if w_ret < 0 then none else some false, calls, fd)

structure SparseCopied where
  retval : Bool
  total_bytes_written : ℕ
  last_write_was_a_hole : Bool
  calls : Calls
  dd : PositionedFile UInt8

/-- `while (true)`, for so many turns, with what is left of the source. -/
def shovelLoop (blk_size : ℕ) : ℕ → Calls → Bytes → PositionedFile UInt8 → ℕ → Bool → Option SparseCopied
  | 0, _, _, _, _, _ => none
  | turns + 1, calls, source, dd, n_read_total, hole => do
    let (n_read, calls, source) ← fullRead blk_size calls.replies calls.errno source
    match n_read with
    | none => return ⟨false, n_read_total, hole, calls, dd⟩
    | some [] => return ⟨true, n_read_total, hole, calls, dd⟩
    | some (b :: buf) => do
      let (ret, calls, dd) ← fileSparseWrite (b :: buf) calls dd
      match ret with
      | none => return ⟨false, n_read_total, hole, calls, dd⟩
      | some hole => shovelLoop blk_size turns calls source dd (n_read_total + (b :: buf).length) hole

/-- Each turn uses a reply. -/
def fileSparseCopyShoveling (blk_size : ℕ) (calls : Calls) (source : Bytes) (dd : PositionedFile UInt8) :
    Option SparseCopied :=
  shovelLoop blk_size (calls.replies.length + 1) calls source dd 0 false

def fileSparseClose (calls : Calls) (fd : PositionedFile UInt8) (total_bytes_written : ℕ) (last_write_was_hole : Bool) :
    Option (Bool × PositionedFile UInt8) :=
  if last_write_was_hole then do
    let (ret1, _, fd) ← fullWrite [0] calls.replies calls.errno fd
    return if ret1 = -1 then (false, fd) else (true, fd.resize 0 total_bytes_written)
  else some (true, fd)

/-- A copy to an empty file, which is closed: whether both succeed, the total, and the file. -/
def copyAndClose (blk_size : ℕ) (calls : Calls) (source : Bytes) : Option (Bool × ℕ × Bytes) := do
  let copied ← fileSparseCopyShoveling blk_size calls source ⟨[], 0⟩
  let (closed, fd) ← fileSparseClose copied.calls copied.dd copied.total_bytes_written copied.last_write_was_a_hole
  return (copied.retval && closed, copied.total_bytes_written, fd.cells)

/-! ## Blocks -/

theorem memcchr_none {buf : Bytes} : memcchr buf 0 = none ↔ buf = List.replicate buf.length 0 := by
  rw [memcchr, List.findIdx?_eq_none_iff, List.eq_replicate_iff]
  simp

/-- A block is a hole, or its length fits into an `int`. -/
def Countable (block : Bytes) : Prop := block.length < 2 ^ 31 ∨ ∀ b ∈ block, b = 0

/-- Every block of the source, the last one included, which may be shorter. -/
def CountableBlocks (blk_size : ℕ) (source : Bytes) : Prop :=
  ∀ k, Countable ((source.drop (k * blk_size)).take blk_size)

variable {blk_size : ℕ} {source : Bytes}

theorem countableBlocks_iff :
    CountableBlocks blk_size source ↔
      Countable (source.take blk_size) ∧ CountableBlocks blk_size (source.drop blk_size) := by
  have hnext : ∀ k, (source.drop blk_size).drop (k * blk_size) = source.drop ((k + 1) * blk_size) := by
    intro k
    rw [List.drop_drop, Nat.succ_mul, Nat.add_comm]
  constructor
  · refine fun h => ⟨by simpa using h 0, fun k => ?_⟩
    rw [hnext]
    exact h (k + 1)
  · rintro ⟨hfirst, hrest⟩ k
    cases k with
    | zero => simpa using hfirst
    | succ k =>
      rw [← hnext]
      exact hrest k

theorem countableBlocks_nil (blk_size : ℕ) : CountableBlocks blk_size [] := fun k => by simp [Countable]

/-! ## What is copied -/

section Copy

variable {calls : Calls}

/-- A block is written where the file stands, as a hole or as it is. -/
theorem fileSparseWrite_writes {buf text : Bytes} {fd : PositionedFile UInt8} (hwrites : NoFailure calls.replies)
    (hlong : buf.length ≤ transfers calls.replies) (hbuf : Countable buf) (hne : buf ≠ [])
    (hfd : StandsBehind 0 fd text) :
    ∃ hole calls' fd', fileSparseWrite buf calls fd = some (some hole, calls', fd') ∧ StandsBehind 0 fd' (text ++ buf) ∧
      (hole = false → fd'.cells = text ++ buf) ∧ NoFailure calls'.replies ∧
      calls'.replies.length ≤ calls.replies.length ∧
      transfers calls.replies ≤ transfers calls'.replies + buf.length := by
  rw [fileSparseWrite]
  by_cases hzero : memcchr buf 0 = none
  · rw [if_pos hzero]
    refine ⟨true, calls, _, rfl, ?_, nofun, hwrites, le_rfl, Nat.le_add_right _ _⟩
    have hhole := hfd.advance buf.length
    rw [← memcchr_none.mp hzero] at hhole
    exact hhole
  · have hsmall : buf.length < 2 ^ 31 := by
      refine hbuf.resolve_right fun hall => hzero ?_
      rw [memcchr_none, List.eq_replicate_iff]
      exact ⟨rfl, hall⟩
    obtain ⟨calls', fd', hrun, hfd', hcells, hcount⟩ := fullWrite_writes calls.replies hwrites hlong hsmall hfd
    have hfollows := fullWrite_follows calls.replies hrun
    rw [if_neg hzero, hrun, Option.bind_eq_bind, Option.bind_some]
    dsimp only
    rw [if_neg (by omega)]
    exact ⟨false, calls', fd', rfl, hfd', fun _ => hcells (.inr hne), hfollows.noFailure hwrites,
      hfollows.suffix.length_le, hcount⟩

/-- After a turn the destination stands behind one block more of the source. -/
theorem shovelLoop_copies (hblk : 0 < blk_size) (turns : ℕ) : ∀ {calls : Calls} {front source : Bytes}
    {dd : PositionedFile UInt8} {hole : Bool}, NoFailure calls.replies →
      3 * source.length + 1 ≤ transfers calls.replies → calls.replies.length < turns → CountableBlocks blk_size source →
      StandsBehind 0 dd front → (hole = false → dd.cells = front) →
      ∃ copied, shovelLoop blk_size turns calls source dd front.length hole = some copied ∧ copied.retval = true ∧
        copied.total_bytes_written = (front ++ source).length ∧ StandsBehind 0 copied.dd (front ++ source) ∧
        (copied.last_write_was_a_hole = false → copied.dd.cells = front ++ source) ∧ NoFailure copied.calls.replies ∧
        transfers calls.replies ≤ transfers copied.calls.replies + 3 * source.length + 1 := by
  induction turns with
  | zero => exact fun _ _ hturns => absurd hturns (Nat.not_lt_zero _)
  | succ turns ih =>
    intro calls front source dd hole hreads hlong hturns hblocks hdd hcells
    have henough : min blk_size source.length < transfers calls.replies := by omega
    have hreturns := @fullRead_returns calls.replies blk_size calls.errno source hreads henough
    obtain ⟨block, calls₁, rest, hread, hcount₁⟩ := hreturns
    obtain ⟨hfollows, hblock⟩ := fullRead_follows calls.replies hread
    obtain ⟨rfl, rfl⟩ := hblock block rfl
    have huses := fullRead_uses hblk hread
    have hreads₁ := hfollows.noFailure hreads
    have hlength : (source.take blk_size).length = min blk_size source.length := List.length_take
    have hsplit := List.take_append_drop blk_size source
    obtain ⟨hfirst, hrest⟩ := countableBlocks_iff.mp hblocks
    rw [shovelLoop, hread, Option.bind_eq_bind, Option.bind_some]
    generalize source.take blk_size = block at *
    generalize source.drop blk_size = rest at *
    cases block with
    | nil =>
      have hend : source = [] := by
        rw [List.length_nil] at hlength
        exact List.length_eq_zero_iff.mp (by omega)
      subst hend
      rw [List.append_nil]
      exact ⟨_, rfl, rfl, rfl, hdd, hcells, hreads₁, by simpa using hcount₁⟩
    | cons b buf =>
      have hsource : source.length = (b :: buf).length + rest.length := by rw [← hsplit, List.length_append]
      have hpos : 0 < (b :: buf).length := Nat.succ_pos _
      obtain ⟨hole', calls₂, dd', hwrite, hdd', hcells', hreads₂, hless, hcount₂⟩ :=
        fileSparseWrite_writes hreads₁ (by omega) hfirst (List.cons_ne_nil b buf) hdd
      dsimp only
      rw [hwrite, Option.bind_eq_bind, Option.bind_some, ← List.length_append, ← hsplit, ← List.append_assoc]
      obtain ⟨copied, hrun, hret, htotal, hdest, hclosed, hnone, hcount₃⟩ := ih hreads₂ (by omega) (by omega) hrest hdd' hcells'
      refine ⟨copied, hrun, hret, htotal, hdest, hclosed, hnone, ?_⟩
      rw [hsplit]
      omega

theorem fileSparseClose_closes {fd : PositionedFile UInt8} {text : Bytes} {hole : Bool}
    (hwrites : NoFailure calls.replies) (hlong : 1 ≤ transfers calls.replies) (hfd : StandsBehind 0 fd text)
    (hcells : hole = false → fd.cells = text) :
    ∃ fd', fileSparseClose calls fd text.length hole = some (true, fd') ∧ fd'.cells = text := by
  rw [fileSparseClose]
  cases hole with
  | false => exact ⟨fd, rfl, hcells rfl⟩
  | true =>
    have hwrite := @fullWrite_writes calls.replies [0] text calls.errno fd hwrites hlong (by decide) hfd
    obtain ⟨calls', fd', hrun, -, hfull, -⟩ := hwrite
    rw [if_pos rfl, hrun, Option.bind_eq_bind, Option.bind_some]
    exact ⟨_, rfl, PositionedFile.resize_cells (hfull (.inr (List.cons_ne_nil _ _)))⟩

theorem copyAndClose_copies (hblk : 0 < blk_size) (hreads : NoFailure calls.replies)
    (hlong : 3 * source.length + 2 ≤ transfers calls.replies) (hblocks : CountableBlocks blk_size source) :
    copyAndClose blk_size calls source = some (true, source.length, source) := by
  obtain ⟨copied, hrun, hret, htotal, hdest, hclosed, hreads', hcount⟩ := shovelLoop_copies hblk (calls.replies.length + 1)
    hreads (by omega) (Nat.lt_succ_self _) hblocks standsBehind_nil fun _ => rfl
  rw [List.nil_append] at htotal hdest hclosed
  have hcopied : fileSparseCopyShoveling blk_size calls source ⟨[], 0⟩ = some copied := hrun
  obtain ⟨fd, hclose, hcells⟩ := fileSparseClose_closes hreads' (by omega) hdest hclosed
  rw [copyAndClose, hcopied, Option.bind_eq_bind, Option.bind_some, htotal, hclose, hret, ← hcells]
  rfl

/-! ## A block that is too long -/

/-- Every call transfers 2^31 bytes, if there are so many. -/
structure Steady (calls : Calls) : Prop where
  replies : ∀ reply ∈ calls.replies, reply = .ok (2 ^ 31 - 1)
  errno : calls.errno ≠ eintr

theorem Steady.follows {replies : List Reply} {errno : Errno} (h : Steady ⟨replies, errno⟩)
    (hfollows : Follows replies errno calls) : Steady calls := by
  refine ⟨fun reply hmem => h.replies reply (hfollows.suffix.subset hmem), ?_⟩
  rcases hfollows.errno with heq | hmem
  · rw [heq]
    exact h.errno
  · exact nomatch h.replies _ hmem

theorem shovelLoop_countable (turns : ℕ) : ∀ {calls : Calls} {source : Bytes} {dd : PositionedFile UInt8}
    {total : ℕ} {hole : Bool} {copied : SparseCopied}, Steady calls →
      shovelLoop blk_size turns calls source dd total hole = some copied → copied.retval = true → 0 < blk_size →
      CountableBlocks blk_size source := by
  induction turns with
  | zero => exact fun _ => nofun
  | succ turns ih =>
    intro calls source dd total hole copied hsteady hrun hret hblk
    rw [shovelLoop] at hrun
    obtain ⟨⟨n_read, calls₁, rest⟩, hread, hrun⟩ := Option.bind_eq_some_iff.mp hrun
    obtain ⟨hfollows, hblock⟩ := fullRead_follows calls.replies hread
    have hsteady₁ := hsteady.follows hfollows
    rw [countableBlocks_iff]
    match n_read, hblock, hrun with
    | none, _, hrun =>
      cases hrun
      cases hret
    | some [], hblock, hrun =>
      obtain ⟨hnil, -⟩ := hblock [] rfl
      have hend : source = [] := by
        rcases List.take_eq_nil_iff.mp hnil.symm with hzero | hend
        · omega
        · exact hend
      subst hend
      simp [Countable, countableBlocks_nil]
    | some (b :: buf), hblock, hrun =>
      obtain ⟨hbuf, rfl⟩ := hblock _ rfl
      rw [← hbuf]
      obtain ⟨⟨ret, calls₂, dd'⟩, hwrite, hrun⟩ := Option.bind_eq_some_iff.mp hrun
      cases ret with
      | none =>
        cases hrun
        cases hret
      | some hole' =>
        rw [fileSparseWrite] at hwrite
        by_cases hzero : memcchr (b :: buf) 0 = none
        · rw [if_pos hzero] at hwrite
          cases hwrite
          refine ⟨.inr fun c hc => ?_, ih hsteady₁ hrun hret hblk⟩
          rw [memcchr_none] at hzero
          exact List.eq_of_mem_replicate (hzero ▸ hc)
        · rw [if_neg hzero] at hwrite
          obtain ⟨⟨w_ret, calls₃, dd₃⟩, hfull, hwrite⟩ := Option.bind_eq_some_iff.mp hwrite
          dsimp only at hwrite
          split at hwrite
          · cases hwrite
          · rename_i hok
            cases hwrite
            refine ⟨.inl ?_, ih (hsteady₁.follows (fullWrite_follows _ hfull)) hrun hret hblk⟩
            by_contra hhuge
            exact hok (fullWrite_huge hsteady₁.replies hsteady₁.errno (Nat.not_lt.mp hhuge) hfull)

theorem countableBlocks_of_copies (hblk : 0 < blk_size)
    (h : ∀ calls, NoFailure calls.replies → 3 * source.length + 2 ≤ transfers calls.replies →
      copyAndClose blk_size calls source = some (true, source.length, source)) :
    CountableBlocks blk_size source := by
  have hsteady : Steady ⟨List.replicate (3 * source.length + 2) (.ok (2 ^ 31 - 1)), .enoent⟩ :=
    ⟨fun reply hmem => List.eq_of_mem_replicate hmem, nofun⟩
  have hreads : NoFailure (List.replicate (3 * source.length + 2) (.ok (2 ^ 31 - 1))) := by
    intro errno hmem
    have hne : Except.error errno = Except.ok (2 ^ 31 - 1) := List.eq_of_mem_replicate hmem
    cases hne
  have hlong : transfers (List.replicate (3 * source.length + 2) (.ok (2 ^ 31 - 1))) = 3 * source.length + 2 := by
    rw [transfers, List.countP_replicate]
    rfl
  have hrun := h ⟨_, .enoent⟩ hreads (Nat.le_of_eq hlong.symm)
  obtain ⟨copied, hcopied, hrun⟩ := Option.bind_eq_some_iff.mp hrun
  obtain ⟨⟨closed, fd⟩, -, hrun⟩ := Option.bind_eq_some_iff.mp hrun
  have hret := congrArg Prod.fst (Option.some.inj hrun)
  exact shovelLoop_countable _ hsteady hcopied (Bool.and_eq_true_iff.mp hret).1 hblk

end Copy

/-- The copy is exact, whatever the transfers and interruptions are, if and only if a block that is no hole always has
fewer than 2^31 bytes. -/
theorem sparseCopy_exact_iff (blk_size : ℕ) (source : Bytes) (h : 0 < blk_size) :
    (∀ calls, NoFailure calls.replies → 3 * source.length + 2 ≤ transfers calls.replies →
      copyAndClose blk_size calls source = some (true, source.length, source)) ↔ CountableBlocks blk_size source :=
  ⟨countableBlocks_of_copies h, fun hblocks _ hreads hlong => copyAndClose_copies h hreads hlong hblocks⟩

/-- Blocks of two bytes, the last of them a hole. -/
theorem sparseCopy_exact_small :
    (∀ calls, NoFailure calls.replies → 3 * [7, 0, 0, 0].length + 2 ≤ transfers calls.replies →
      copyAndClose 2 calls [7, 0, 0, 0] = some (true, [7, 0, 0, 0].length, [7, 0, 0, 0])) ↔
      CountableBlocks 2 [7, 0, 0, 0] :=
  sparseCopy_exact_iff 2 [7, 0, 0, 0] (by decide)

/-- A source of 2^31 bytes in one block. -/
theorem huge_block_not_copied : ¬ ∀ calls, NoFailure calls.replies →
    3 * (List.replicate (2 ^ 31) (1 : UInt8)).length + 2 ≤ transfers calls.replies →
      copyAndClose (2 ^ 31) calls (List.replicate (2 ^ 31) 1) =
        some (true, (List.replicate (2 ^ 31) (1 : UInt8)).length, List.replicate (2 ^ 31) 1) := by
  intro h
  have hblock := countableBlocks_of_copies (by decide) h 0
  rw [Nat.zero_mul, List.drop_zero, List.take_of_length_le (by rw [List.length_replicate])] at hblock
  rcases hblock with hsmall | hzero
  · rw [List.length_replicate] at hsmall
    exact absurd hsmall (by decide)
  · exact absurd (hzero 1 (List.mem_replicate.mpr ⟨by decide, rfl⟩)) (by decide)

end Libntech.Files
