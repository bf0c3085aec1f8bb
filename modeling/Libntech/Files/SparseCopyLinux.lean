import Libntech.Files.SparseCopy
import Mathlib.Data.List.TakeWhile

/-! # Copying files with holes on Linux (`libutils/file_lib.c`)

`FileSparseCopy` with `SEEK_DATA` and `SEEK_HOLE`. The cells of the source are bytes or lie in a hole. `FICLONE` and
`fallocate` may fail; `copy_file_range` and `sendfile` copy at most so many bytes more than one. `errno` is `none` for 0,
and calls that succeed leave it as it is.
-/
namespace Libntech.Files
set_option autoImplicit false

open Libntech.Json (Bytes)
open Libntech.Lib (PositionedFile)

def enxio : Errno := .other 6

def eopnotsupp : Errno := .other 95

/-! ## The source -/

/-- The length fits into `off_t`. -/
structure SourceFile where
  cells : List (Option UInt8)
  fits : cells.length < 2 ^ 63

/-- A hole reads as zeroes. -/
def SourceFile.bytes (src : SourceFile) : Bytes := src.cells.map (·.getD 0)

/-- `lseek(sd, pos, SEEK_DATA)`; nothing is `ENXIO`. -/
def SourceFile.seekData (src : SourceFile) (pos : ℕ) : Option ℕ :=
  if (src.cells.drop pos).dropWhile Option.isNone = [] then none
  else some (pos + ((src.cells.drop pos).takeWhile Option.isNone).length)

/-- `lseek(sd, pos, SEEK_HOLE)` from data. There is a hole at the end of the file. -/
def SourceFile.seekHole (src : SourceFile) (pos : ℕ) : ℕ :=
  pos + ((src.cells.drop pos).takeWhile Option.isSome).length

/-- What `fstat` says of the source, and what is answered to the calls that may fail. -/
structure CopyCalls where
  st_blocks : ℕ
  same_dev : Bool
  ficlone : Except Errno Unit
  fallocate : Except Errno Unit

/-! ## The loop -/

structure CopyState where
  in_pos : ℕ
  out_pos : ℕ
  errno : Option Errno
  dd : PositionedFile UInt8
  total_bytes_written : UInt64

/-- The loop is left with what it returns, or goes on. -/
inductive CopyTurn where
  | left (retval : Bool) (s : CopyState)
  | again (s : CopyState)

/-- `copy_file_range` or `sendfile` of `count` bytes from `in_pos`, where `sd` stands, and what comes behind it. -/
def copyData (src : SourceFile) (limit count : ℕ) (s : CopyState) : CopyTurn :=
  let data := (src.bytes.drop s.in_pos).take (transferred limit count)
  let error := s.errno
  let s := { s with
    in_pos := s.in_pos + data.length
    out_pos := s.out_pos + data.length
    dd := s.dd.write 0 data
    total_bytes_written := s.total_bytes_written + UInt64.ofNat data.length }
  if data.length = 0 ∨ s.in_pos = src.cells.length then .left (error = none) s else .again s

/-- `while (!done)`. The destination is moved relative to where it stands. -/
def copyTurn (src : SourceFile) (limit : ℕ) (s : CopyState) : CopyTurn :=
  match src.seekData s.in_pos with
  | none => .left true { s with errno := some enxio }
  | some in_pos =>
    let next_hole := src.seekHole in_pos
    if in_pos ≠ s.out_pos then
      let out_pos : ℤ := s.dd.pos + (in_pos - s.out_pos)
      if out_pos < 0 then .left false { s with in_pos := in_pos, errno := some .einval }
      else copyData src limit (next_hole - in_pos)
        { s with in_pos := in_pos, out_pos := out_pos.toNat, dd := { s.dd with pos := out_pos.toNat } }
    else copyData src limit (next_hole - in_pos) { s with in_pos := in_pos }

def copyLoop (src : SourceFile) : List ℕ → CopyState → Option (Bool × CopyState)
  | [], _ => none
  | limit :: limits, s =>
    match copyTurn src limit s with
    | .left retval s => some (retval, s)
    | .again s => copyLoop src limits s

/-! ## The function -/

structure LinuxCopied where
  retval : Bool
  total_bytes_written : UInt64
  last_write_was_a_hole : Bool
  dd : PositionedFile UInt8

/-- `FALLOC_FL_KEEP_SIZE|FALLOC_FL_PUNCH_HOLE` from the start of the file. -/
def punchHole (f : PositionedFile UInt8) (length : ℕ) : PositionedFile UInt8 :=
  { f with cells := List.replicate (min length f.cells.length) 0 ++ f.cells.drop length }

/-- Behind `fallocate`. -/
def copyExtents (src : SourceFile) (limits : List ℕ) (total : UInt64) (dd : PositionedFile UInt8) :
    Option LinuxCopied := do
  let (retval, s) ← copyLoop src limits ⟨0, 0, none, dd, total⟩
  return ⟨retval, s.total_bytes_written, false, s.dd⟩

/-- From what `*total_bytes_written` and `*last_write_was_a_hole` are before. -/
def fileSparseCopy (src : SourceFile) (calls : CopyCalls) (limits : List ℕ) (total : UInt64) (hole : Bool)
    (dd : PositionedFile UInt8) : Option LinuxCopied :=
  let input_size := src.cells.length
  if calls.same_dev && calls.ficlone.isOk then
    some ⟨true, UInt64.ofNat input_size, false, { dd with cells := src.bytes }⟩
  else
    let dd := dd.resize 0 input_size
    if calls.st_blocks = 0 then some ⟨true, UInt64.ofNat input_size, false, dd⟩
    else
      match calls.fallocate with
      | .ok _ => copyExtents src limits total (punchHole dd (calls.st_blocks * 512))
      | .error errno =>
        if errno ≠ eopnotsupp then some ⟨false, 0, hole, dd⟩ else copyExtents src limits total dd

/-! ## What is copied -/

section Copy

/-- Up to the position the source is copied, and behind it the destination is blank. -/
structure CopiedUpTo (front rest : List (Option UInt8)) (prior : UInt64) (s : CopyState) : Prop where
  in_pos : s.in_pos = front.length
  out_pos : s.out_pos = front.length
  errno : s.errno = none
  pos : s.dd.pos = front.length
  cells : s.dd.cells = front.map (·.getD 0) ++ List.replicate rest.length 0
  total : s.total_bytes_written = prior + UInt64.ofNat (front.countP Option.isSome)

variable {src : SourceFile} {front rest : List (Option UInt8)} {prior : UInt64} {s : CopyState}

theorem map_holes {cells : List (Option UInt8)} (h : ∀ cell ∈ cells, cell.isNone = true) :
    cells.map (·.getD 0) = List.replicate cells.length 0 ∧ cells.countP Option.isSome = 0 := by
  induction cells with
  | nil => exact ⟨rfl, rfl⟩
  | cons cell cells ih =>
    obtain ⟨hfirst, hrest⟩ := List.forall_mem_cons.mp h
    obtain rfl := Option.isNone_iff_eq_none.mp hfirst
    obtain ⟨hmap, hcount⟩ := ih hrest
    exact ⟨by rw [List.map_cons, hmap]; rfl, by rw [List.countP_cons_of_neg (by simp), hcount]⟩

theorem copyData_copies {limit count : ℕ} {data behind : List (Option UInt8)}
    (hcells : src.cells = front ++ (data ++ behind)) (hdata : ∀ cell ∈ data, cell.isSome = true)
    (htransferred : transferred limit count = data.length) (hne : data ≠ [])
    (h : CopiedUpTo front (data ++ behind) prior s) :
    ∃ s', CopiedUpTo (front ++ data) behind prior s' ∧
      copyData src limit count s = if behind = [] then .left true s' else .again s' := by
  have hbytes : (src.bytes.drop s.in_pos).take (transferred limit count) = data.map (·.getD 0) := by
    rw [htransferred, h.in_pos, SourceFile.bytes, hcells, List.map_append, List.map_append, List.drop_left' (List.length_map _),
      List.take_left' (List.length_map _)]
  have hcount : data.countP Option.isSome = data.length := List.countP_eq_length.mpr hdata
  have hlength : 0 < data.length := List.length_pos_of_ne_nil hne
  have hend : (s.in_pos + data.length = src.cells.length) ↔ behind = [] := by
    rw [h.in_pos, hcells, List.length_append, List.length_append, ← List.length_eq_zero_iff]
    omega
  unfold copyData
  rw [hbytes]
  simp only [List.length_map, hend, h.errno, Nat.ne_of_gt hlength, false_or, decide_true]
  refine ⟨_, ⟨?_, ?_, rfl, ?_, ?_, ?_⟩, rfl⟩
  · rw [List.length_append, ← h.in_pos]
  · rw [List.length_append, ← h.out_pos]
  · rw [List.length_append, ← h.pos, PositionedFile.write, List.length_map]
  · have hmapped : data.map (·.getD 0) ≠ [] := by simpa using hne
    have hinside : s.dd.pos + (data.map (·.getD 0)).length ≤ s.dd.cells.length := by
      rw [h.pos, h.cells]
      simp
    rw [PositionedFile.write_inside 0 hmapped hinside, h.cells, h.pos, List.take_left' (List.length_map _), ← List.drop_drop,
      List.drop_left' (List.length_map _), List.drop_replicate, List.map_append, List.length_append, List.length_map,
      Nat.add_sub_cancel_left]
  · rw [h.total, List.countP_append, hcount, UInt64.ofNat_add, UInt64.add_assoc]

/-- What is skipped is blank in the destination, as it reads in the source. -/
theorem CopiedUpTo.skip {holes behind : List (Option UInt8)} (h : CopiedUpTo front (holes ++ behind) prior s)
    (hholes : ∀ cell ∈ holes, cell.isNone = true) {s' : CopyState} (hin : s'.in_pos = front.length + holes.length)
    (hout : s'.out_pos = front.length + holes.length) (hpos : s'.dd.pos = front.length + holes.length)
    (herrno : s'.errno = s.errno) (hcells : s'.dd.cells = s.dd.cells)
    (htotal : s'.total_bytes_written = s.total_bytes_written) : CopiedUpTo (front ++ holes) behind prior s' := by
  obtain ⟨hmap, hcount⟩ := map_holes hholes
  refine ⟨by rw [hin, List.length_append], by rw [hout, List.length_append], herrno.trans h.errno,
    by rw [hpos, List.length_append], ?_, ?_⟩
  · rw [hcells, h.cells, List.map_append, hmap, List.append_assoc, List.replicate_append_replicate, List.length_append]
  · rw [htotal, h.total, List.countP_append, hcount, Nat.add_zero]

theorem CopiedUpTo.done (h : CopiedUpTo front rest prior s) (hcells : src.cells = front ++ rest)
    (hrest : ∀ cell ∈ rest, cell.isNone = true) :
    s.dd.cells = src.bytes ∧ s.total_bytes_written = prior + UInt64.ofNat (src.cells.countP Option.isSome) := by
  obtain ⟨hmap, hcount⟩ := map_holes hrest
  refine ⟨?_, ?_⟩
  · rw [h.cells, SourceFile.bytes, hcells, List.map_append, hmap]
  · rw [h.total, hcells, List.countP_append, hcount, Nat.add_zero]

theorem holes_or_data (cells : List (Option UInt8)) : (∀ cell ∈ cells, cell.isNone = true) ∨
    ∃ holes cell tail, cells = holes ++ cell :: tail ∧ (∀ cell ∈ holes, cell.isNone = true) ∧ cell.isSome = true := by
  induction cells with
  | nil => exact .inl fun _ hmem => absurd hmem List.not_mem_nil
  | cons cell cells ih =>
    cases cell with
    | some b => exact .inr ⟨[], some b, cells, rfl, fun _ hmem => absurd hmem List.not_mem_nil, rfl⟩
    | none =>
      rcases ih with hall | ⟨holes, cell, tail, rfl, hholes, hcell⟩
      · exact .inl (List.forall_mem_cons.mpr ⟨rfl, hall⟩)
      · exact .inr ⟨none :: holes, cell, tail, rfl, List.forall_mem_cons.mpr ⟨rfl, hholes⟩, hcell⟩

theorem seekData_end (hcells : src.cells = front ++ rest) (hrest : ∀ cell ∈ rest, cell.isNone = true) :
    src.seekData front.length = none := by
  rw [SourceFile.seekData, hcells, List.drop_left, if_pos (List.dropWhile_eq_nil_iff.mpr hrest)]

theorem seekData_data {holes tail : List (Option UInt8)} {cell : Option UInt8}
    (hcells : src.cells = front ++ (holes ++ cell :: tail)) (hholes : ∀ cell ∈ holes, cell.isNone = true)
    (hcell : cell.isSome = true) : src.seekData front.length = some (front.length + holes.length) := by
  have hnot : ¬ cell.isNone = true := by simpa [Option.isSome_iff_ne_none] using hcell
  rw [SourceFile.seekData, hcells, List.drop_left, List.dropWhile_append_of_pos hholes,
    List.takeWhile_append_of_pos hholes, List.dropWhile_cons_of_neg hnot, List.takeWhile_cons_of_neg hnot,
    if_neg (List.cons_ne_nil _ _), List.append_nil]

/-- The destination is moved to where the data is, if it does not stand there. -/
theorem copyTurn_data (limit : ℕ) {holes tail : List (Option UInt8)} {cell : Option UInt8}
    (hcells : src.cells = front ++ (holes ++ cell :: tail)) (hholes : ∀ cell ∈ holes, cell.isNone = true)
    (hcell : cell.isSome = true) (h : CopiedUpTo front (holes ++ cell :: tail) prior s) :
    ∃ s', CopiedUpTo (front ++ holes) (cell :: tail) prior s' ∧
      copyTurn src limit s = copyData src limit ((cell :: tail).takeWhile Option.isSome).length s' := by
  have hhole : src.seekHole (front.length + holes.length) - (front.length + holes.length) =
      ((cell :: tail).takeWhile Option.isSome).length := by
    rw [SourceFile.seekHole, hcells, ← List.append_assoc, ← List.length_append, List.drop_left, Nat.add_sub_cancel_left]
  unfold copyTurn
  rw [h.in_pos, seekData_data hcells hholes hcell]
  dsimp only
  rw [hhole]
  split
  · have hout : (s.dd.pos : ℤ) + (((front.length + holes.length : ℕ) : ℤ) - s.out_pos) =
        ((front.length + holes.length : ℕ) : ℤ) := by
      rw [h.pos, h.out_pos]
      omega
    rw [hout, if_neg (Int.not_lt.mpr (Int.natCast_nonneg _)), Int.toNat_natCast]
    refine ⟨_, ?_, rfl⟩
    exact h.skip hholes rfl rfl rfl rfl rfl rfl
  · rename_i hstands
    rw [h.out_pos] at hstands
    have hnone : holes.length = 0 := by omega
    refine ⟨_, ?_, rfl⟩
    refine h.skip hholes rfl ?_ ?_ rfl rfl rfl
    · rw [h.out_pos, hnone, Nat.add_zero]
    · rw [h.pos, hnone, Nat.add_zero]

theorem copyTurn_copies (limit : ℕ) (hcells : src.cells = front ++ rest) (h : CopiedUpTo front rest prior s) :
    (∃ s', copyTurn src limit s = .left true s' ∧ s'.dd.cells = src.bytes ∧
      s'.total_bytes_written = prior + UInt64.ofNat (src.cells.countP Option.isSome)) ∨
    ∃ front' rest' s', copyTurn src limit s = .again s' ∧ src.cells = front' ++ rest' ∧ rest'.length < rest.length ∧
      CopiedUpTo front' rest' prior s' := by
  rcases holes_or_data rest with hrest | ⟨holes, cell, tail, rfl, hholes, hcell⟩
  · left
    unfold copyTurn
    rw [h.in_pos, seekData_end hcells hrest]
    exact ⟨_, rfl, h.done hcells hrest⟩
  · obtain ⟨s₁, hs₁, hturn⟩ := copyTurn_data limit hcells hholes hcell h
    rw [hturn]
    rw [← List.append_assoc] at hcells
    have hrun : (cell :: tail).takeWhile Option.isSome <+: cell :: tail := List.takeWhile_prefix _
    have hdata : ∀ cell' ∈ (cell :: tail).takeWhile Option.isSome, cell'.isSome = true :=
      List.all_eq_true.mp List.all_takeWhile
    have hpos : 0 < ((cell :: tail).takeWhile Option.isSome).length := by
      rw [List.takeWhile_cons_of_pos hcell]
      exact Nat.succ_pos _
    generalize (cell :: tail).takeWhile Option.isSome = run at hrun hdata hpos
    obtain ⟨behind, hbehind⟩ := hrun
    have hle := transferred_le limit run.length
    have hn := transferred_pos limit hpos
    have hsplit : run.take (transferred limit run.length) ++ (run.drop (transferred limit run.length) ++ behind) =
        cell :: tail := by
      rw [← List.append_assoc, List.take_append_drop, hbehind]
    have hlength : (run.take (transferred limit run.length)).length = transferred limit run.length :=
      List.length_take_of_le hle
    rw [← hsplit] at hcells hs₁
    obtain ⟨s₂, hs₂, hcopy⟩ := copyData_copies hcells (fun cell' hmem => hdata cell' (List.mem_of_mem_take hmem))
      hlength.symm (List.ne_nil_of_length_pos (by rw [hlength]; exact hn)) hs₁
    rw [hcopy]
    rw [← List.append_assoc] at hcells
    split
    · rename_i hend
      rw [hend] at hcells hs₂
      exact .inl ⟨s₂, rfl, hs₂.done hcells fun _ hmem => absurd hmem List.not_mem_nil⟩
    · refine .inr ⟨_, _, s₂, rfl, hcells, ?_, hs₂⟩
      have htotal := congrArg List.length hsplit
      rw [List.length_append, hlength] at htotal
      have hrest : (holes ++ cell :: tail).length = holes.length + (cell :: tail).length := List.length_append
      omega

theorem copyLoop_copies (limits : List ℕ) : ∀ {front rest : List (Option UInt8)} {s : CopyState},
    src.cells = front ++ rest → rest.length < limits.length → CopiedUpTo front rest prior s →
      ∃ s', copyLoop src limits s = some (true, s') ∧ s'.dd.cells = src.bytes ∧
        s'.total_bytes_written = prior + UInt64.ofNat (src.cells.countP Option.isSome) := by
  induction limits with
  | nil => exact fun _ hlong => absurd hlong (Nat.not_lt_zero _)
  | cons limit limits ih =>
    intro front rest s hcells hlong h
    rw [copyLoop]
    rcases copyTurn_copies limit hcells h with ⟨s', hturn, hdone⟩ | ⟨front', rest', s', hturn, hcells', hless, h'⟩
    · rw [hturn]
      exact ⟨s', rfl, hdone⟩
    · rw [hturn]
      exact ih hcells' (by rw [List.length_cons] at hlong; omega) h'

theorem countP_cells (cells : List (Option UInt8)) :
    cells.countP Option.isSome + cells.countP Option.isNone = cells.length := by
  have hcount : cells.length = cells.countP Option.isSome + cells.countP fun cell => ¬ cell.isSome :=
    List.length_eq_countP_add_countP Option.isSome
  rw [hcount]
  congr 2
  funext cell
  cases cell <;> rfl

theorem copyExtents_copies {limits : List ℕ} {dd : PositionedFile UInt8} (hlimits : src.cells.length < limits.length)
    (hpos : dd.pos = 0) (hcells : dd.cells = List.replicate src.cells.length 0) :
    ∃ out, copyExtents src limits prior dd = some out ∧ out.retval = true ∧ out.dd.cells = src.bytes ∧
      out.total_bytes_written = prior + UInt64.ofNat (src.cells.countP Option.isSome) := by
  have hstart : CopiedUpTo [] src.cells prior ⟨0, 0, none, dd, prior⟩ :=
    ⟨rfl, rfl, rfl, hpos, hcells, (UInt64.add_zero _).symm⟩
  obtain ⟨s, hrun, hdone⟩ := copyLoop_copies limits rfl hlimits hstart
  rw [copyExtents, hrun]
  exact ⟨_, rfl, rfl, hdone⟩

/-- The destination has its size before the copy, and is blank; punching holes into it changes nothing. -/
theorem punchHole_blank (n length : ℕ) : (punchHole ⟨List.replicate n 0, 0⟩ length).cells = List.replicate n 0 := by
  show List.replicate (min length (List.replicate n (0 : UInt8)).length) 0 ++ (List.replicate n 0).drop length = _
  rw [List.length_replicate, List.drop_replicate, List.replicate_append_replicate]
  congr 1
  omega

theorem fileSparseCopy_copies {calls : CopyCalls} {limits : List ℕ} {hole : Bool} (hblocks : 0 < calls.st_blocks)
    (hfallocate : ∀ errno, calls.fallocate = .error errno → errno = eopnotsupp)
    (hlimits : src.cells.length < limits.length) :
    ∃ out, fileSparseCopy src calls limits prior hole ⟨[], 0⟩ = some out ∧ out.retval = true ∧ out.dd.cells = src.bytes ∧
      out.total_bytes_written = if calls.same_dev && calls.ficlone.isOk then UInt64.ofNat src.cells.length
        else prior + UInt64.ofNat (src.cells.countP Option.isSome) := by
  have hsized : (PositionedFile.mk ([] : Bytes) 0).resize 0 src.cells.length = ⟨List.replicate src.cells.length 0, 0⟩ := by
    simp [PositionedFile.resize, List.rightpad]
  unfold fileSparseCopy
  dsimp only
  by_cases hcloned : (calls.same_dev && calls.ficlone.isOk) = true
  · rw [if_pos hcloned, if_pos hcloned]
    exact ⟨_, rfl, rfl, rfl, rfl⟩
  · rw [if_neg hcloned, if_neg hcloned, if_neg (Nat.ne_of_gt hblocks), hsized]
    cases hpreset : calls.fallocate with
    | ok _ => exact copyExtents_copies hlimits rfl (punchHole_blank _ _)
    | error errno =>
      dsimp only
      rw [if_neg (not_not.mpr (hfallocate errno hpreset))]
      exact copyExtents_copies hlimits rfl rfl

end Copy

/-! ## The two implementations -/

theorem shovelLoop_total {blk_size : ℕ} (hblk : 0 < blk_size) (turns : ℕ) : ∀ {calls : Calls} {source : Bytes}
    {dd : PositionedFile UInt8} {total : ℕ} {hole : Bool} {copied : SparseCopied},
    shovelLoop blk_size turns calls source dd total hole = some copied → copied.retval = true →
      copied.total_bytes_written = total + source.length := by
  induction turns with
  | zero =>
    intro calls source dd total hole copied hrun
    cases hrun
  | succ turns ih =>
    intro calls source dd total hole copied hrun hret
    rw [shovelLoop] at hrun
    obtain ⟨⟨n_read, calls₁, rest⟩, hread, hrun⟩ := Option.bind_eq_some_iff.mp hrun
    obtain ⟨-, hblock⟩ := fullRead_follows calls.replies hread
    cases n_read with
    | none =>
      cases hrun
      cases hret
    | some buf =>
      cases buf with
      | nil =>
        obtain ⟨hnil, -⟩ := hblock [] rfl
        have hend : source = [] := (List.take_eq_nil_iff.mp hnil.symm).resolve_left (Nat.ne_of_gt hblk)
        cases hrun
        rw [hend]
        rfl
      | cons b buf =>
        obtain ⟨hbuf, rfl⟩ := hblock _ rfl
        obtain ⟨⟨ret, calls₂, dd'⟩, -, htail⟩ := Option.bind_eq_some_iff.mp hrun
        cases ret with
        | none =>
          cases htail
          cases hret
        | some hole' =>
          have hsplit := congrArg List.length (List.take_append_drop blk_size source)
          rw [← hbuf, List.length_append] at hsplit
          rw [ih htail hret]
          omega

/-- The source is copied, and the total is its length exactly when it was cloned, or when the total was the number of
bytes in holes before. What the portable implementation reports is the length. -/
theorem fileSparseCopy_total_iff (src : SourceFile) (calls : CopyCalls) (limits : List ℕ) (total : UInt64) (hole : Bool)
    (hblocks : 0 < calls.st_blocks) (hfallocate : ∀ errno, calls.fallocate = .error errno → errno = eopnotsupp)
    (hlimits : src.cells.length < limits.length) :
    (∃ out, fileSparseCopy src calls limits total hole ⟨[], 0⟩ = some out ∧ out.retval = true ∧
      out.dd.cells = src.bytes ∧ (out.total_bytes_written.toNat = src.cells.length ↔
        (calls.same_dev && calls.ficlone.isOk) = true ∨ total.toNat = src.cells.countP Option.isNone)) ∧
    ∀ blk_size calls' copied, 0 < blk_size → fileSparseCopyShoveling blk_size calls' src.bytes ⟨[], 0⟩ = some copied →
      copied.retval = true → copied.total_bytes_written = src.cells.length := by
  constructor
  · obtain ⟨out, hrun, hret, hcells, htotal⟩ := fileSparseCopy_copies hblocks hfallocate hlimits
    refine ⟨out, hrun, hret, hcells, ?_⟩
    have hfits := src.fits
    have hcount := countP_cells src.cells
    have hprior := total.toNat_lt
    rw [htotal]
    split
    · rename_i hcloned
      refine iff_of_true ?_ (.inl hcloned)
      rw [UInt64.toNat_ofNat_of_lt' (by rw [UInt64.size]; omega)]
    · rename_i hcopied
      rw [or_iff_right hcopied, UInt64.toNat_add, UInt64.toNat_ofNat_of_lt' (by rw [UInt64.size]; omega)]
      omega
  · intro blk_size calls' copied hblk hrun hret
    rw [shovelLoop_total hblk _ hrun hret, Nat.zero_add, SourceFile.bytes, List.length_map]

def halfHole : SourceFile := ⟨[some 7, none], by decide⟩

/-- One byte and a hole of one byte, where the total was 1 before. -/
theorem fileSparseCopy_total_half :
    (∃ out, fileSparseCopy halfHole ⟨8, false, .error .einval, .ok ()⟩ [0, 0, 0] 1 false ⟨[], 0⟩ = some out ∧
      out.retval = true ∧ out.dd.cells = halfHole.bytes ∧ (out.total_bytes_written.toNat = halfHole.cells.length ↔
        (false && (Except.error Errno.einval : Except Errno Unit).isOk) = true ∨
          (1 : UInt64).toNat = halfHole.cells.countP Option.isNone)) ∧
    ∀ blk_size calls copied, 0 < blk_size → fileSparseCopyShoveling blk_size calls halfHole.bytes ⟨[], 0⟩ = some copied →
      copied.retval = true → copied.total_bytes_written = halfHole.cells.length :=
  fileSparseCopy_total_iff halfHole ⟨8, false, .error .einval, .ok ()⟩ [0, 0, 0] 1 false (by decide) nofun (by decide)

/-- Where the total was 0 before, it is 1 afterwards. -/
theorem hole_not_counted : ∃ out,
    fileSparseCopy halfHole ⟨8, false, .error .einval, .ok ()⟩ [0, 0, 0] 0 false ⟨[], 0⟩ = some out ∧
      out.total_bytes_written.toNat ≠ halfHole.cells.length :=
  ⟨⟨true, 1, false, ⟨[7, 0], 1⟩⟩, rfl, by decide⟩

end Libntech.Files
