import Libntech.Files.Kernel
import Libntech.Lib.PositionedFile
import Mathlib.Algebra.Group.Nat.Defs
import Mathlib.Data.List.Infix

/-! # Reading and writing in full (`libutils/file_lib.c`)

What the calls of `read` and `write` answer, one after the other, is a list of replies: an error, or how many bytes more
than one are transferred at most. A run that comes to the end of the list has no result.
-/
namespace Libntech.Files
set_option autoImplicit false

open Libntech.Json (Bytes)
open Libntech.Lib (PositionedFile)
open Libntech.Lib.PositionedFile (StandsBehind)

/-! ## Replies -/

abbrev Reply := Except Errno ℕ

/-- How many of `count` bytes a call transfers. -/
def transferred (limit count : ℕ) : ℕ := min (limit + 1) count

/-- Calls are interrupted, but they do not fail. -/
def NoFailure (replies : List Reply) : Prop := ∀ errno, .error errno ∈ replies → errno = eintr

/-- How many of the calls transfer. -/
def transfers (replies : List Reply) : ℕ := replies.countP fun reply => reply.isOk

section Replies

variable {errno : Errno} {limit : ℕ} {replies : List Reply}

theorem NoFailure.first (h : NoFailure (.error errno :: replies)) : errno = eintr := h errno List.mem_cons_self

theorem NoFailure.rest {reply : Reply} (h : NoFailure (reply :: replies)) : NoFailure replies :=
  fun errno hmem => h errno (List.mem_cons_of_mem _ hmem)

@[simp] theorem transfers_nil : transfers [] = 0 := rfl

@[simp] theorem transfers_error : transfers (.error errno :: replies) = transfers replies := by
  rw [transfers, List.countP_cons_of_neg (by simp [Except.isOk, Except.toBool])]
  rfl

@[simp] theorem transfers_ok : transfers (.ok limit :: replies) = transfers replies + 1 := by
  rw [transfers, List.countP_cons_of_pos (by simp [Except.isOk, Except.toBool])]
  rfl

end Replies

/-! ## FullRead and FullWrite -/

/-- The replies that are left, and `errno`, which calls that succeed leave as it is. -/
structure Calls where
  replies : List Reply
  errno : Errno

/-- `FullRead` of `len` bytes from what is left of the source; -1 is `none`, inside. -/
def fullRead : ℕ → List Reply → Errno → Bytes → Option (Option Bytes × Calls × Bytes)
  | 0, replies, errno, source => some (some [], ⟨replies, errno⟩, source)
  | _ + 1, [], _, _ => none
  | len + 1, .error errno :: replies, _, source =>
    if errno = eintr then fullRead (len + 1) replies errno source else some (none, ⟨replies, errno⟩, source)
  | len + 1, .ok limit :: replies, errno, source =>
    let bytes_read := source.take (transferred limit (len + 1))
    if bytes_read.length = 0 then some (some [], ⟨replies, errno⟩, source)
    else do
      let (rest, calls, source) ← fullRead (len + 1 - bytes_read.length) replies errno (source.drop bytes_read.length)
      return (rest.map (bytes_read ++ ·), calls, source)

/-- A number that is stored in an `int`. -/
def toInt (n : ℕ) : ℤ := Int.bmod n (2 ^ 32)

/-- `int written = write(desc, ptr, len);` -/
def fullWrite : Bytes → List Reply → Errno → PositionedFile UInt8 → Option (ℤ × Calls × PositionedFile UInt8)
  | [], replies, errno, desc => some (0, ⟨replies, errno⟩, desc)
  | _ :: _, [], _, _ => none
  | b :: ptr, .error errno :: replies, _, desc =>
    if errno = eintr then fullWrite (b :: ptr) replies errno desc else some (-1, ⟨replies, errno⟩, desc)
  | b :: ptr, .ok limit :: replies, errno, desc =>
    let count := transferred limit (b :: ptr).length
    let desc := desc.write 0 ((b :: ptr).take count)
    let written := toInt count
    if written < 0 then
      if errno = eintr then fullWrite (b :: ptr) replies errno desc else some (written, ⟨replies, errno⟩, desc)
    else do
      let (total_written, calls, desc) ← fullWrite ((b :: ptr).drop written.toNat) replies errno desc
      return (if total_written < 0 then total_written else written + total_written, calls, desc)

/-! ## What they do -/

/-- Calls were made, and an error was stored if there was one. -/
structure Follows (replies : List Reply) (errno : Errno) (calls : Calls) : Prop where
  suffix : calls.replies <:+ replies
  errno : calls.errno = errno ∨ .error calls.errno ∈ replies

theorem Follows.refl (replies : List Reply) (errno : Errno) : Follows replies errno ⟨replies, errno⟩ :=
  ⟨List.suffix_refl _, .inl rfl⟩

theorem Follows.behind {replies : List Reply} {errno : Errno} {calls : Calls} (reply : Reply)
    (h : Follows replies errno calls) : Follows (reply :: replies) errno calls :=
  ⟨h.suffix.trans (List.suffix_cons _ _), h.errno.imp_right (List.mem_cons_of_mem _)⟩

variable {replies : List Reply} {errno : Errno} {calls : Calls}

theorem Follows.failed {errno' : Errno} (h : Follows replies errno' calls) :
    Follows (.error errno' :: replies) errno calls := by
  refine ⟨h.suffix.trans (List.suffix_cons _ _), .inr ?_⟩
  rcases h.errno with heq | hmem
  · rw [heq]
    exact List.mem_cons_self
  · exact List.mem_cons_of_mem _ hmem

theorem Follows.noFailure (h : Follows replies errno calls) (hreads : NoFailure replies) : NoFailure calls.replies :=
  fun errno hmem => hreads errno (h.suffix.subset hmem)

/-- What a call reads is a part of what is asked for, and the rest follows behind it. -/
theorem drop_taken (source : Bytes) (n : ℕ) : source.drop (source.take n).length = source.drop n := by
  rw [List.length_take]
  rcases Nat.le_total n source.length with hle | hle
  · rw [Nat.min_eq_left hle]
  · rw [Nat.min_eq_right hle, List.drop_length, List.drop_eq_nil_of_le hle]

theorem taken_append (source : Bytes) {n len : ℕ} (h : n ≤ len) :
    source.take n ++ (source.drop (source.take n).length).take (len - (source.take n).length) = source.take len ∧
      (source.drop (source.take n).length).drop (len - (source.take n).length) = source.drop len := by
  rcases Nat.le_total n source.length with hle | hle
  · rw [List.length_take_of_le hle, ← List.take_add, List.drop_drop, Nat.add_sub_cancel' h]
    exact ⟨rfl, rfl⟩
  · rw [drop_taken, List.drop_eq_nil_of_le hle, List.take_of_length_le hle, List.take_of_length_le (hle.trans h),
      List.drop_eq_nil_of_le (hle.trans h)]
    simp

theorem transferred_le (limit count : ℕ) : transferred limit count ≤ count := Nat.min_le_right _ _

theorem transferred_pos (limit : ℕ) {count : ℕ} (h : 0 < count) : 0 < transferred limit count :=
  Nat.lt_min.mpr ⟨Nat.succ_pos limit, h⟩

theorem eof_of_taken {source : Bytes} {limit count : ℕ} (h : 0 < count)
    (hzero : (source.take (transferred limit count)).length = 0) : source = [] := by
  have hpos := transferred_pos limit h
  rw [List.length_take] at hzero
  exact List.length_eq_zero_iff.mp (by omega)

section Full

/-- Whatever the replies are, what is read in full is the next bytes of the source. -/
theorem fullRead_follows (replies : List Reply) : ∀ {len : ℕ} {errno : Errno} {source source' : Bytes}
    {buf : Option Bytes} {calls : Calls}, fullRead len replies errno source = some (buf, calls, source') →
      Follows replies errno calls ∧ ∀ bytes, buf = some bytes → bytes = source.take len ∧ source' = source.drop len := by
  induction replies with
  | nil =>
    intro len errno source source' buf calls hrun
    cases len with
    | succ len => cases hrun
    | zero =>
      cases hrun
      exact ⟨.refl _ _, fun bytes hbytes => by simpa using hbytes.symm⟩
  | cons reply replies ih =>
    intro len errno source source' buf calls hrun
    cases len with
    | zero =>
      cases hrun
      exact ⟨.refl _ _, fun bytes hbytes => by simpa using hbytes.symm⟩
    | succ len =>
      cases reply with
      | error errno' =>
        rw [fullRead] at hrun
        split at hrun
        · obtain ⟨hfollows, hbytes⟩ := ih hrun
          exact ⟨hfollows.failed, hbytes⟩
        · cases hrun
          exact ⟨(Follows.refl _ _).failed, nofun⟩
      | ok limit =>
        rw [fullRead] at hrun
        split at hrun
        · rename_i hzero
          cases hrun
          refine ⟨(Follows.refl _ _).behind _, fun bytes hbytes => ?_⟩
          rw [eof_of_taken (Nat.succ_pos len) hzero]
          simpa using hbytes.symm
        · obtain ⟨⟨rest, calls', source''⟩, hrest, hrun⟩ := Option.bind_eq_some_iff.mp hrun
          cases hrun
          obtain ⟨hfollows, hbytes⟩ := ih hrest
          refine ⟨hfollows.behind _, fun bytes hmap => ?_⟩
          obtain ⟨rest', hsome, rfl⟩ := Option.map_eq_some_iff.mp hmap
          obtain ⟨rfl, hsource⟩ := hbytes rest' hsome
          obtain ⟨htake, hdrop⟩ := taken_append source (transferred_le limit (len + 1))
          exact ⟨htake, hsource.trans hdrop⟩

theorem fullRead_uses {len : ℕ} {source source' : Bytes} {buf : Option Bytes} (hpos : 0 < len)
    (hrun : fullRead len replies errno source = some (buf, calls, source')) :
    calls.replies.length < replies.length := by
  obtain ⟨len, rfl⟩ := Nat.exists_eq_succ_of_ne_zero (Nat.ne_of_gt hpos)
  cases replies with
  | nil => cases hrun
  | cons reply replies =>
    rw [List.length_cons, Nat.lt_succ_iff]
    cases reply with
    | error errno' =>
      rw [fullRead] at hrun
      split at hrun
      · exact (fullRead_follows replies hrun).1.suffix.length_le
      · cases hrun
        exact le_rfl
    | ok limit =>
      rw [fullRead] at hrun
      split at hrun
      · cases hrun
        exact le_rfl
      · obtain ⟨⟨rest, calls', source''⟩, hrest, hrun⟩ := Option.bind_eq_some_iff.mp hrun
        cases hrun
        exact (fullRead_follows replies hrest).1.suffix.length_le

/-- Without a failure one call of `read` for each byte, and one for the end of the file, are enough. -/
theorem fullRead_returns (replies : List Reply) : ∀ {len : ℕ} {errno : Errno} {source : Bytes}, NoFailure replies →
    min len source.length < transfers replies →
      ∃ bytes calls source', fullRead len replies errno source = some (some bytes, calls, source') ∧
        transfers replies ≤ transfers calls.replies + min len source.length + 1 := by
  induction replies with
  | nil => exact fun _ hlong => absurd hlong (Nat.not_lt_zero _)
  | cons reply replies ih =>
    intro len errno source hreads hlong
    cases len with
    | zero => exact ⟨[], _, source, rfl, Nat.le_succ_of_le (Nat.le_add_right _ _)⟩
    | succ len =>
      cases reply with
      | error errno' =>
        rw [transfers_error] at hlong ⊢
        rw [fullRead, if_pos hreads.first]
        exact ih hreads.rest hlong
      | ok limit =>
        rw [transfers_ok] at hlong ⊢
        rw [fullRead]
        split
        · exact ⟨[], ⟨replies, errno⟩, source, rfl, Nat.succ_le_succ (Nat.le_add_right _ _)⟩
        · rename_i hsome
          have htaken : (source.take (transferred limit (len + 1))).length ≤ min (len + 1) source.length := by
            have hle := transferred_le limit (len + 1)
            rw [List.length_take]
            omega
          generalize source.take (transferred limit (len + 1)) = bytes_read at hsome htaken
          have hless : min (len + 1 - bytes_read.length) (source.drop bytes_read.length).length + bytes_read.length
              = min (len + 1) source.length := by
            rw [List.length_drop]
            omega
          have hrest := @ih (len + 1 - bytes_read.length) errno (source.drop bytes_read.length) hreads.rest (by omega)
          obtain ⟨bytes, calls, source', hrun, hcount⟩ := hrest
          rw [hrun, Option.bind_eq_bind, Option.bind_some]
          exact ⟨_, calls, source', rfl, by omega⟩

theorem fullWrite_follows (replies : List Reply) : ∀ {ptr : Bytes} {errno : Errno} {desc desc' : PositionedFile UInt8}
    {ret : ℤ} {calls : Calls}, fullWrite ptr replies errno desc = some (ret, calls, desc') →
      Follows replies errno calls := by
  induction replies with
  | nil =>
    intro ptr errno desc desc' ret calls hrun
    cases ptr with
    | cons b ptr => cases hrun
    | nil =>
      cases hrun
      exact .refl _ _
  | cons reply replies ih =>
    intro ptr errno desc desc' ret calls hrun
    cases ptr with
    | nil =>
      cases hrun
      exact .refl _ _
    | cons b ptr =>
      cases reply with
      | error errno' =>
        rw [fullWrite] at hrun
        split at hrun
        · exact (ih hrun).failed
        · cases hrun
          exact (Follows.refl _ _).failed
      | ok limit =>
        rw [fullWrite] at hrun
        dsimp only at hrun
        split at hrun
        · split at hrun
          · exact (ih hrun).behind _
          · simp only [Option.some.injEq, Prod.mk.injEq] at hrun
            obtain ⟨-, rfl, -⟩ := hrun
            exact (Follows.refl _ _).behind _
        · obtain ⟨⟨total, calls', desc''⟩, hrest, hrun⟩ := Option.bind_eq_some_iff.mp hrun
          cases hrun
          exact (ih hrest).behind _

theorem toInt_of_lt {n : ℕ} (h : n < 2 ^ 31) : toInt n = n := Int.bmod_eq_of_le (by omega) (by omega)

/-- Fewer bytes than an `int` can count are written where the file stands. -/
theorem fullWrite_writes (replies : List Reply) : ∀ {ptr text : Bytes} {errno : Errno} {desc : PositionedFile UInt8},
    NoFailure replies → ptr.length ≤ transfers replies → ptr.length < 2 ^ 31 → StandsBehind 0 desc text →
      ∃ calls desc', fullWrite ptr replies errno desc = some ((ptr.length : ℤ), calls, desc') ∧
        StandsBehind 0 desc' (text ++ ptr) ∧ (desc.cells = text ∨ ptr ≠ [] → desc'.cells = text ++ ptr) ∧
        transfers replies ≤ transfers calls.replies + ptr.length := by
  induction replies with
  | nil =>
    intro ptr text errno desc _ hlong _ hdesc
    obtain rfl := List.length_eq_zero_iff.mp (Nat.le_zero.mp hlong)
    exact ⟨⟨[], errno⟩, desc, rfl, by simpa using hdesc, by simp, le_rfl⟩
  | cons reply replies ih =>
    intro ptr text errno desc hwrites hlong hsmall hdesc
    cases ptr with
    | nil => exact ⟨⟨reply :: replies, errno⟩, desc, rfl, by simpa using hdesc, by simp, le_rfl⟩
    | cons b ptr =>
      cases reply with
      | error errno' =>
        rw [transfers_error] at hlong ⊢
        rw [fullWrite, if_pos hwrites.first]
        exact ih hwrites.rest hlong hsmall hdesc
      | ok limit =>
        rw [transfers_ok] at hlong ⊢
        rw [fullWrite]
        dsimp only
        have hle := transferred_le limit (b :: ptr).length
        have hpos := transferred_pos limit (List.length_pos_of_ne_nil (List.cons_ne_nil b ptr))
        have hsplit := List.take_append_drop (transferred limit (b :: ptr).length) (b :: ptr)
        have hfirst := List.length_take_of_le hle
        generalize transferred limit (b :: ptr).length = count at hle hpos hsplit hfirst
        have hne : (b :: ptr).take count ≠ [] := by
          apply List.ne_nil_of_length_pos
          rw [hfirst]
          exact hpos
        have hrest : ((b :: ptr).drop count).length + count = (b :: ptr).length := by
          rw [List.length_drop]
          omega
        rw [toInt_of_lt (Nat.lt_of_le_of_lt hle hsmall), if_neg (by omega), Int.toNat_natCast]
        have hwritten := hdesc.write ((b :: ptr).take count)
        obtain ⟨calls, desc', hrun, hdesc', hcells, hcount⟩ := @ih ((b :: ptr).drop count) _ errno _ hwrites.rest
          (by omega) (by omega) hwritten
        rw [List.append_assoc, hsplit] at hdesc' hcells
        rw [hrun, Option.bind_eq_bind, Option.bind_some]
        refine ⟨calls, desc', ?_, hdesc', fun _ => hcells (.inl (hdesc.write_cells hne)), by omega⟩
        rw [if_neg (by omega)]
        congr 2
        omega

theorem fullWrite_huge {ptr : Bytes} {desc desc' : PositionedFile UInt8} {ret : ℤ}
    (hsteady : ∀ reply ∈ replies, reply = .ok (2 ^ 31 - 1)) (herrno : errno ≠ eintr) (hhuge : 2 ^ 31 ≤ ptr.length)
    (hrun : fullWrite ptr replies errno desc = some (ret, calls, desc')) : ret < 0 := by
  cases ptr with
  | nil => exact absurd hhuge (by decide)
  | cons b ptr =>
    cases replies with
    | nil => cases hrun
    | cons reply replies =>
      obtain rfl := hsteady _ List.mem_cons_self
      have hcount : transferred (2 ^ 31 - 1) (b :: ptr).length = 2 ^ 31 := Nat.min_eq_left hhuge
      have hnegative : toInt (2 ^ 31) = -2 ^ 31 := rfl
      rw [fullWrite, hcount, hnegative] at hrun
      dsimp only at hrun
      rw [if_pos (by decide), if_neg herrno] at hrun
      cases hrun
      decide

end Full

end Libntech.Files
