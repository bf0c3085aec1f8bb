import Libntech.Strings.CStrings
import Libntech.Strings.Replace

/-! # Appending to a string (`StrCat`, `StrCatDelim`)

`*dst_len` is the length that would have been needed, and so it may be larger than what `dst` has room for.
-/
namespace Libntech.Strings
set_option autoImplicit false

open Libntech.Json (Bytes CString)
open Libntech.Lib (Fault store)

/-- `(dst_len != NULL) ? *dst_len : strlen(dst)` -/
def currentLen (dst : Bytes) (dst_len : Option ℕ) : Except Fault ℕ := dst_len.elim (List.length <$> cString dst) .ok

/-- `(src_len != 0) ? src_len : strlen(src)` -/
def sourceLen (src : Bytes) (src_len : ℕ) : Except Fault ℕ := if src_len ≠ 0 then .ok src_len else List.length <$> cString src

/-- The three branches of `StrCat`. -/
def catBytes (dst : Bytes) (dst_size dlen needed_len : ℕ) (src : Bytes) (slen : ℕ) : Except Fault Bytes :=
  if dst_size ≤ (dlen + 1) % 2 ^ 64 then .ok dst
  else if needed_len < dst_size then do
    let dst ← memcpy dst dlen src 0 slen
    store dst needed_len 0
  else do
    let dst ← memcpy dst dlen src 0 (dst_size - dlen - 1)
    store dst (dst_size - 1) 0

/-- `dst` and `*dst_len` behind the call. -/
def strCat (dst : Bytes) (dst_size : ℕ) (dst_len : Option ℕ) (src : Bytes) (src_len : ℕ) :
    Except Fault (Bytes × Option ℕ) := do
  let dlen ← currentLen dst dst_len
  let slen ← sourceLen src src_len
  let needed_len := (dlen + slen) % 2 ^ 64
  let dst ← catBytes dst dst_size dlen needed_len src slen
  return (dst, dst_len.map fun _ => needed_len)

/-- The separator, if `dst` is not empty. -/
def putSep (dst : Bytes) (dlen : ℕ) (sep : UInt8) : Except Fault (Bytes × ℕ) :=
  if 0 < dlen then (·, dlen + 1) <$> store dst dlen sep else .ok (dst, dlen)

/-- The three branches of `StrCatDelim`. -/
def catBytesDelim (dst : Bytes) (dst_size dlen needed_len : ℕ) (src : Bytes) (slen : ℕ) (sep : UInt8) : Except Fault Bytes :=
  if dst_size ≤ (dlen + 1) % 2 ^ 64 then .ok dst
  else if needed_len < dst_size then do
    let (dst, dlen) ← putSep dst dlen sep
    let dst ← memcpy dst dlen src 0 slen
    store dst needed_len 0
  else .ok dst

def strCatDelim (dst : Bytes) (dst_size : ℕ) (dst_len : Option ℕ) (src : Bytes) (sep : UInt8) :
    Except Fault (Bytes × Option ℕ) := do
  let dlen ← currentLen dst dst_len
  let slen ← List.length <$> cString src
  let needed_len := if 0 < dlen then (dlen + slen + 1) % 2 ^ 64 else (dlen + slen) % 2 ^ 64
  let dst ← catBytesDelim dst dst_size dlen needed_len src slen sep
  return (dst, dst_len.map fun _ => needed_len)

/-! ## Writing behind what is there -/

/-- The memory begins with these bytes, and holds what it held from `dst_size` on. -/
structure Begins (dst_size : ℕ) (outside bytes dst : Bytes) : Prop where
  inside : dst_size ≤ dst.length
  begins : bytes <+: dst
  outside : dst.drop dst_size = outside

variable {dst_size : ℕ} {outside bytes dst : Bytes}

theorem Begins.left {more : Bytes} (h : Begins dst_size outside (bytes ++ more) dst) : Begins dst_size outside bytes dst :=
  ⟨h.inside, (List.prefix_append bytes more).trans h.begins, h.outside⟩

theorem Begins.memcpy (h : Begins dst_size outside bytes dst) {src : Bytes} {n : ℕ} (hroom : bytes.length + n ≤ dst_size)
    (hsrc : n ≤ src.length) :
    ∃ dst', memcpy dst bytes.length src 0 n = .ok dst' ∧ Begins dst_size outside (bytes ++ src.take n) dst' := by
  obtain ⟨hinside, ⟨tail, rfl⟩, houtside⟩ := h
  have htake : (bytes ++ tail).take bytes.length = bytes := List.take_left
  have hlen : (bytes ++ src.take n).length = bytes.length + n := by
    rw [List.length_append, List.length_take, Nat.min_eq_left hsrc]
  refine ⟨bytes ++ src.take n ++ (bytes ++ tail).drop (bytes.length + n), ?_, ?_, List.prefix_append _ _, ?_⟩
  · rw [Strings.memcpy, if_pos ⟨by omega, by omega⟩, List.drop_zero, htake]
  · rw [List.length_append, hlen, List.length_drop]
    omega
  · have hrest : bytes.length + n + (dst_size - (bytes.length + n)) = dst_size := by omega
    rw [List.drop_append, hlen, List.drop_eq_nil_of_le (by omega), List.nil_append, List.drop_drop, hrest, houtside]

theorem Begins.store (h : Begins dst_size outside bytes dst) (c : UInt8) (hroom : bytes.length < dst_size) :
    ∃ dst', store dst bytes.length c = .ok dst' ∧ Begins dst_size outside (bytes ++ [c]) dst' := by
  obtain ⟨hinside, ⟨tail, rfl⟩, houtside⟩ := h
  cases tail with
  | nil =>
    rw [List.append_nil] at hinside
    omega
  | cons b tail =>
    refine ⟨bytes ++ c :: tail, Lib.store_at bytes b tail c rfl rfl, ?_, ?_, ?_⟩
    · rwa [List.length_append, List.length_cons] at hinside ⊢
    · exact (List.prefix_append_right_inj bytes).mpr ⟨tail, rfl⟩
    · obtain ⟨k, rfl⟩ := Nat.exists_eq_add_of_lt hroom
      rwa [List.drop_append, List.drop_eq_nil_of_le (by omega), Nat.add_assoc, Nat.add_sub_cancel_left] at houtside ⊢

/-- The string that `dst` holds. -/
def Holds (dst_size : ℕ) (outside content dst : Bytes) : Prop :=
  content.length < dst_size ∧ Begins dst_size outside (content ++ [0]) dst

/-! ## StrCat -/

/-- What is appended by a call of `StrCat`: so many bytes of a memory, or the string in it. -/
structure Source where
  src : Bytes
  src_len : ℕ
  readable : if src_len = 0 then 0 ∈ src else src_len ≤ src.length

def Source.appended (source : Source) : Bytes := if source.src_len = 0 then text source.src else source.src.take source.src_len

theorem Source.sourceLen_eq (source : Source) : sourceLen source.src source.src_len = .ok source.appended.length := by
  have hreadable := source.readable
  rw [sourceLen, appended]
  by_cases hzero : source.src_len = 0
  · rw [if_pos hzero] at hreadable
    rw [if_neg (not_not.mpr hzero), if_pos hzero, cString, if_pos hreadable]
    rfl
  · rw [if_neg hzero] at hreadable
    rw [if_pos hzero, if_neg hzero, List.length_take, Nat.min_eq_left hreadable]

theorem Source.appended_begin (source : Source) : source.appended <+: source.src := by
  rw [Source.appended]
  split
  · exact List.takeWhile_prefix _
  · exact List.take_prefix _ _

theorem Source.take_appended (source : Source) {n : ℕ} (hn : n ≤ source.appended.length) :
    source.src.take n = source.appended.take n := by
  obtain ⟨tail, htail⟩ := source.appended_begin
  rw [← htail, List.take_append_of_le_length hn]

theorem catBytes_holds (source : Source) {total : Bytes} (h : Holds dst_size outside (total.take (dst_size - 1)) dst)
    (hsize : total.length + 1 < 2 ^ 64) :
    ∃ dst', catBytes dst dst_size total.length (total ++ source.appended).length source.src source.appended.length = .ok dst' ∧
      Holds dst_size outside ((total ++ source.appended).take (dst_size - 1)) dst' := by
  obtain ⟨hfits, hbegins⟩ := h
  have hsum : (total ++ source.appended).length = total.length + source.appended.length := List.length_append
  have hsrc := source.appended_begin.length_le
  rw [catBytes, Nat.mod_eq_of_lt hsize]
  by_cases hfull : dst_size ≤ total.length + 1
  · refine ⟨dst, if_pos hfull, ?_⟩
    rw [List.take_append_of_le_length (by omega)]
    exact ⟨hfits, hbegins⟩
  rw [if_neg hfull]
  rw [List.take_of_length_le (by omega)] at hfits hbegins
  by_cases hfit : (total ++ source.appended).length < dst_size
  · obtain ⟨dst₁, hdst₁, hbegins₁⟩ := hbegins.left.memcpy (n := source.appended.length) (by omega) hsrc
    rw [source.take_appended (Nat.le_refl _), List.take_length] at hbegins₁
    obtain ⟨dst₂, hdst₂, hbegins₂⟩ := hbegins₁.store 0 hfit
    refine ⟨dst₂, ?_, ?_⟩
    · rw [if_pos hfit, hdst₁, Lib.ok_bind, hdst₂]
    · rw [List.take_of_length_le (by omega)]
      exact ⟨hfit, hbegins₂⟩
  · have hroom : dst_size - total.length - 1 ≤ source.appended.length := by omega
    have hcut : (total ++ source.appended).take (dst_size - 1) = total ++ source.appended.take (dst_size - total.length - 1) := by
      rw [List.take_append, List.take_of_length_le (by omega), Nat.sub_right_comm]
    have hlast : (total ++ source.appended.take (dst_size - total.length - 1)).length = dst_size - 1 := by
      rw [List.length_append, List.length_take]
      omega
    obtain ⟨dst₁, hdst₁, hbegins₁⟩ := hbegins.left.memcpy (n := dst_size - total.length - 1) (by omega) (hroom.trans hsrc)
    rw [source.take_appended hroom] at hbegins₁
    obtain ⟨dst₂, hdst₂, hbegins₂⟩ := hbegins₁.store 0 (by omega)
    rw [hlast] at hdst₂
    refine ⟨dst₂, ?_, ?_⟩
    · rw [if_neg hfit, hdst₁, Lib.ok_bind, hdst₂]
    · rw [hcut]
      exact ⟨by omega, hbegins₂⟩

theorem strCat_step (source : Source) {total : Bytes} (h : Holds dst_size outside (total.take (dst_size - 1)) dst)
    (hsize : (total ++ source.appended).length < 2 ^ 64 - 1) :
    ∃ dst', strCat dst dst_size (some total.length) source.src source.src_len =
        .ok (dst', some (total ++ source.appended).length) ∧
      Holds dst_size outside ((total ++ source.appended).take (dst_size - 1)) dst' := by
  rw [List.length_append] at hsize
  have hneeded : (total.length + source.appended.length) % 2 ^ 64 = (total ++ source.appended).length := by
    rw [List.length_append, Nat.mod_eq_of_lt (by omega)]
  obtain ⟨dst', hdst', hholds⟩ := catBytes_holds source h (by omega)
  refine ⟨dst', ?_, hholds⟩
  rw [strCat, source.sourceLen_eq]
  show (catBytes dst dst_size total.length ((total.length + source.appended.length) % 2 ^ 64) source.src
    source.appended.length >>= fun dst => pure (dst, some ((total.length + source.appended.length) % 2 ^ 64))) = _
  rw [hneeded, hdst']
  rfl

/-- The calls one after the other, with one variable for the length. -/
def strCats (dst_size : ℕ) (s : Bytes × Option ℕ) (sources : List Source) : Except Fault (Bytes × Option ℕ) :=
  sources.foldlM (fun s source => strCat s.1 dst_size s.2 source.src source.src_len) s

theorem strCats_run (sources : List Source) {total : Bytes} (h : Holds dst_size outside (total.take (dst_size - 1)) dst)
    (hsize : (total ++ sources.flatMap Source.appended).length < 2 ^ 64 - 1) :
    ∃ dst', strCats dst_size (dst, some total.length) sources =
        .ok (dst', some (total ++ sources.flatMap Source.appended).length) ∧
      Holds dst_size outside ((total ++ sources.flatMap Source.appended).take (dst_size - 1)) dst' := by
  induction sources generalizing total dst with
  | nil =>
    rw [List.flatMap_nil, List.append_nil]
    exact ⟨dst, rfl, h⟩
  | cons source sources ih =>
    rw [List.flatMap_cons, ← List.append_assoc] at hsize ⊢
    obtain ⟨dst₁, hdst₁, hholds₁⟩ := strCat_step source h (by rw [List.length_append] at hsize; omega)
    obtain ⟨dst₂, hdst₂, hholds₂⟩ := ih hholds₁ hsize
    refine ⟨dst₂, ?_, hholds₂⟩
    rw [strCats, List.foldlM_cons, hdst₁]
    exact hdst₂

/-! ## StrCatDelim -/

/-- A separator only stands behind a text that is not empty. -/
def appendDelim (joined : Bytes) (source : CString × UInt8) : Bytes :=
  if 0 < joined.length then joined ++ source.2 :: source.1.bytes else joined ++ source.1.bytes

/-- The sources with their separators; those in front that are empty have none. -/
def joined (sources : List (CString × UInt8)) : Bytes := sources.foldl appendDelim []

theorem joined_concat (sources : List (CString × UInt8)) (source : CString × UInt8) :
    joined (sources ++ [source]) = appendDelim (joined sources) source := by
  rw [joined, List.foldl_append]
  rfl

theorem length_appendDelim (joined : Bytes) (source : CString × UInt8) : (appendDelim joined source).length =
    if 0 < joined.length then joined.length + source.1.bytes.length + 1 else joined.length + source.1.bytes.length := by
  rw [appendDelim]
  split
  · rw [List.length_append, List.length_cons, Nat.add_assoc]
  · rw [List.length_append]

theorem length_joined_mono (front later : List (CString × UInt8)) : (joined front).length ≤ (joined (front ++ later)).length := by
  induction later using List.reverseRecOn with
  | nil => rw [List.append_nil]
  | append_singleton later source ih =>
    rw [← List.append_assoc, joined_concat, length_appendDelim]
    split
    all_goals omega

theorem catBytesDelim_fits (source : CString × UInt8) (rest : Bytes) {joined : Bytes} (h : Holds dst_size outside joined dst)
    (hsize : joined.length + 1 < 2 ^ 64) (hfit : (appendDelim joined source).length < dst_size) :
    ∃ dst', catBytesDelim dst dst_size joined.length (appendDelim joined source).length (source.1.bytes ++ 0 :: rest)
        source.1.bytes.length source.2 = .ok dst' ∧
      Holds dst_size outside (appendDelim joined source) dst' := by
  obtain ⟨-, hbegins⟩ := h
  have hlen := length_appendDelim joined source
  have hsrc : source.1.bytes.length ≤ (source.1.bytes ++ 0 :: rest).length := by
    rw [List.length_append]
    omega
  rw [catBytesDelim, Nat.mod_eq_of_lt hsize]
  by_cases hfull : dst_size ≤ joined.length + 1
  · -- there is room for the NUL alone, and nothing that does not fit
    split at hlen
    · omega
    have hnil : joined = [] := List.length_eq_zero_iff.mp (by omega)
    have hsame : appendDelim joined source = joined := by
      rw [hnil]
      exact List.length_eq_zero_iff.mp (by rw [← hnil]; omega)
    refine ⟨dst, if_pos hfull, hfit, ?_⟩
    rwa [hsame]
  rw [if_neg hfull, if_pos hfit, putSep]
  by_cases hpos : 0 < joined.length
  · have hjoined : appendDelim joined source = joined ++ [source.2] ++ source.1.bytes := by
      rw [appendDelim, if_pos hpos, List.append_assoc, List.singleton_append]
    rw [if_pos hpos] at hlen
    obtain ⟨dst₁, hdst₁, hbegins₁⟩ := hbegins.left.store source.2 (by omega)
    obtain ⟨dst₂, hdst₂, hbegins₂⟩ := hbegins₁.memcpy (n := source.1.bytes.length) (by
      rw [List.length_append, List.length_singleton]
      omega) hsrc
    rw [List.take_left, ← hjoined] at hbegins₂
    rw [List.length_append, List.length_singleton] at hdst₂
    obtain ⟨dst₃, hdst₃, hbegins₃⟩ := hbegins₂.store 0 hfit
    refine ⟨dst₃, ?_, hfit, hbegins₃⟩
    rw [if_pos hpos, hdst₁]
    show (memcpy dst₁ (joined.length + 1) _ 0 _ >>= _) = _
    rw [hdst₂, Lib.ok_bind, hdst₃]
  · have hjoined : appendDelim joined source = joined ++ source.1.bytes := if_neg hpos
    rw [if_neg hpos] at hlen
    obtain ⟨dst₁, hdst₁, hbegins₁⟩ := hbegins.left.memcpy (n := source.1.bytes.length) (by omega) hsrc
    rw [List.take_left, ← hjoined] at hbegins₁
    obtain ⟨dst₂, hdst₂, hbegins₂⟩ := hbegins₁.store 0 hfit
    refine ⟨dst₂, ?_, hfit, hbegins₂⟩
    rw [if_neg hpos]
    show (memcpy dst joined.length _ 0 _ >>= _) = _
    rw [hdst₁, Lib.ok_bind, hdst₂]

theorem catBytesDelim_full (dst : Bytes) {dlen needed_len : ℕ} (src : Bytes) (slen : ℕ) (sep : UInt8)
    (hfull : dst_size ≤ needed_len) :
    catBytesDelim dst dst_size dlen needed_len src slen sep = .ok dst := by
  rw [catBytesDelim, if_neg (Nat.not_lt.mpr hfull), ite_self]

theorem strCatDelim_eq (source : CString × UInt8) (rest : Bytes) (dst : Bytes) {joined : Bytes}
    (hsize : (appendDelim joined source).length < 2 ^ 64 - 1) :
    strCatDelim dst dst_size (some joined.length) (source.1.bytes ++ 0 :: rest) source.2 =
      catBytesDelim dst dst_size joined.length (appendDelim joined source).length (source.1.bytes ++ 0 :: rest)
        source.1.bytes.length source.2 >>= fun dst => .ok (dst, some (appendDelim joined source).length) := by
  have hlen := length_appendDelim joined source
  have hneeded : (if 0 < joined.length then (joined.length + source.1.bytes.length + 1) % 2 ^ 64
      else (joined.length + source.1.bytes.length) % 2 ^ 64) = (appendDelim joined source).length := by
    rw [hlen] at hsize ⊢
    split at hsize
    next hpos => rw [if_pos hpos, if_pos hpos, Nat.mod_eq_of_lt (by omega)]
    next hpos => rw [if_neg hpos, if_neg hpos, Nat.mod_eq_of_lt (by omega)]
  have hnul : 0 ∈ source.1.bytes ++ 0 :: rest := List.mem_append_right _ List.mem_cons_self
  have hstr : cString (source.1.bytes ++ 0 :: rest) = .ok source.1.bytes := by
    rw [cString, if_pos hnul]
    exact congrArg _ (text_terminated source.1 rest)
  rw [strCatDelim, hstr]
  show (catBytesDelim dst dst_size joined.length (if 0 < joined.length then _ else _) _ source.1.bytes.length source.2 >>=
    fun dst => Except.ok (dst, some (if 0 < joined.length then _ else _))) = _
  rw [hneeded]

/-- So many sources are the longest leading run whose text fits. -/
structure Fitting (dst_size : ℕ) (sources : List (CString × UInt8)) (k : ℕ) : Prop where
  inside : k ≤ sources.length
  fits : (joined (sources.take k)).length < dst_size
  longest : ∀ m, k < m → m ≤ sources.length → dst_size ≤ (joined (sources.take m)).length

/-- The calls one after the other, with one variable for the length. -/
def strCatDelims (dst_size : ℕ) (s : Bytes × Option ℕ) (sources : List (CString × UInt8)) : Except Fault (Bytes × Option ℕ) :=
  sources.foldlM (fun s source => strCatDelim s.1 dst_size s.2 (source.1.bytes ++ [0]) source.2) s

theorem strCatDelims_concat {front : List (CString × UInt8)} (source : CString × UInt8) {s : Bytes × Option ℕ} {dst' : Bytes}
    (hfront : strCatDelims dst_size s front = .ok (dst', some (joined front).length))
    (hsize : (joined (front ++ [source])).length < 2 ^ 64 - 1) :
    strCatDelims dst_size s (front ++ [source]) =
      catBytesDelim dst' dst_size (joined front).length (joined (front ++ [source])).length (source.1.bytes ++ [0])
        source.1.bytes.length source.2 >>= fun dst => .ok (dst, some (joined (front ++ [source])).length) := by
  rw [joined_concat] at hsize ⊢
  rw [strCatDelims, List.foldlM_append, ← strCatDelims, hfront, Lib.ok_bind, List.foldlM_cons]
  show (strCatDelim dst' dst_size (some (joined front).length) (source.1.bytes ++ 0 :: []) source.2 >>= pure) = _
  rw [bind_pure, strCatDelim_eq source [] dst' hsize]

theorem strCatDelims_run (sources : List (CString × UInt8)) (h : Holds dst_size outside [] dst)
    (hsize : (joined sources).length < 2 ^ 64 - 1) :
    ∃ dst', strCatDelims dst_size (dst, some 0) sources = .ok (dst', some (joined sources).length) ∧
      ∃ k, Fitting dst_size sources k ∧ Holds dst_size outside (joined (sources.take k)) dst' := by
  induction sources using List.reverseRecOn with
  | nil =>
    exact ⟨dst, rfl, 0, ⟨Nat.le_refl 0, h.1, fun m hpos hle => absurd hle (Nat.not_le.mpr hpos)⟩, h⟩
  | append_singleton front source ih =>
    have hmono := length_joined_mono front [source]
    obtain ⟨dst₁, hdst₁, k, hfitting, hholds⟩ := ih (by omega)
    have hrun := strCatDelims_concat source hdst₁ hsize
    have htake : ∀ m, m ≤ front.length → (front ++ [source]).take m = front.take m := fun m hm =>
      List.take_append_of_le_length hm
    have hlen : (front ++ [source]).length = front.length + 1 := List.length_append
    have hwhole : (front ++ [source]).take (front.length + 1) = front ++ [source] := List.take_of_length_le (Nat.le_of_eq hlen)
    by_cases hfit : (joined (front ++ [source])).length < dst_size
    · -- all of the earlier ones fit, and this one too
      have hk : k = front.length := by
        by_contra hne
        have hfull := hfitting.longest front.length (Nat.lt_of_le_of_ne hfitting.inside hne) (Nat.le_refl _)
        rw [List.take_length] at hfull
        omega
      rw [hk, List.take_length] at hholds
      rw [joined_concat] at hfit hrun
      obtain ⟨dst₂, hdst₂, hholds₂⟩ := catBytesDelim_fits source [] hholds (by omega) hfit
      rw [hdst₂, Lib.ok_bind] at hrun
      rw [joined_concat]
      refine ⟨dst₂, hrun, front.length + 1, ⟨Nat.le_of_eq hlen.symm, ?_, fun m hlt hle => ?_⟩, ?_⟩
      · rwa [hwhole, joined_concat]
      · omega
      · rwa [hwhole, joined_concat]
    · rw [catBytesDelim_full dst₁ _ _ _ (Nat.not_lt.mp hfit), Lib.ok_bind] at hrun
      refine ⟨dst₁, hrun, k, ⟨?_, ?_, fun m hlt hle => ?_⟩, ?_⟩
      · exact hfitting.inside.trans (by omega)
      · rw [htake k hfitting.inside]
        exact hfitting.fits
      · obtain hm | rfl := Nat.lt_or_eq_of_le (hle.trans_eq hlen)
        · rw [htake m (Nat.le_of_lt_succ hm)]
          exact hfitting.longest m hlt (Nat.le_of_lt_succ hm)
        · rw [hwhole]
          exact Nat.not_lt.mp hfit
      · rwa [htake k hfitting.inside]

theorem strCatDelims_full {front : List (CString × UInt8)} (later : List (CString × UInt8)) {s : Bytes × Option ℕ} {dst' : Bytes}
    (hfront : strCatDelims dst_size s front = .ok (dst', some (joined front).length)) (hfull : dst_size ≤ (joined front).length)
    (hsize : (joined (front ++ later)).length < 2 ^ 64 - 1) :
    strCatDelims dst_size s (front ++ later) = .ok (dst', some (joined (front ++ later)).length) := by
  induction later using List.reverseRecOn with
  | nil => rwa [List.append_nil]
  | append_singleton later source ih =>
    have hmono := length_joined_mono front (later ++ [source])
    have hmono' := length_joined_mono (front ++ later) [source]
    rw [← List.append_assoc] at hsize hmono ⊢
    rw [strCatDelims_concat source (ih (by omega)) hsize, catBytesDelim_full dst' _ _ _ (hfull.trans hmono)]
    rfl

/-- Both functions, on an empty string with room for `dst_size` bytes, called any number of times. -/
theorem strCat_strCatDelim {dst_size : ℕ} {dst : Bytes} (hpos : 1 ≤ dst_size) (hroom : dst_size ≤ dst.length)
    (hempty : dst.head? = some 0) :
    (∀ sources : List Source, (sources.flatMap Source.appended).length < 2 ^ 64 - 1 → ∃ dst',
      strCats dst_size (dst, some 0) sources = .ok (dst', some (sources.flatMap Source.appended).length) ∧
      Holds dst_size (dst.drop dst_size) ((sources.flatMap Source.appended).take (dst_size - 1)) dst') ∧
    ∀ sources : List (CString × UInt8), (joined sources).length < 2 ^ 64 - 1 → ∃ dst',
      strCatDelims dst_size (dst, some 0) sources = .ok (dst', some (joined sources).length) ∧
      (∃ k, Fitting dst_size sources k ∧ Holds dst_size (dst.drop dst_size) (joined (sources.take k)) dst') ∧
      ∀ front later, sources = front ++ later → dst_size ≤ (joined front).length →
        strCatDelims dst_size (dst, some 0) front = .ok (dst', some (joined front).length) := by
  have hholds : Holds dst_size (dst.drop dst_size) [] dst :=
    ⟨hpos, hroom, List.singleton_prefix_iff_head?_eq_some.mpr hempty, rfl⟩
  refine ⟨fun sources hsize => ?_, fun sources hsize => ?_⟩
  · have hnil : Holds dst_size (dst.drop dst_size) (([] : Bytes).take (dst_size - 1)) dst := by rwa [List.take_nil]
    exact strCats_run sources hnil hsize
  · obtain ⟨dst', hdst', hfitting⟩ := strCatDelims_run sources hholds hsize
    refine ⟨dst', hdst', hfitting, fun front later hsplit hfull => ?_⟩
    subst hsplit
    have hmono := length_joined_mono front later
    obtain ⟨dst₁, hdst₁, -⟩ := strCatDelims_run front hholds (by omega)
    have hsame := strCatDelims_full later hdst₁ hfull hsize
    rw [hdst'] at hsame
    injection hsame with hsame
    rw [hdst₁, (Prod.mk.inj hsame).1]

/-- Four bytes with room for three, and texts of four and of five: what is cut, and what is left out. -/
theorem strCat_strCatDelim_three :
    (∃ dst', strCats 3 ([0, 8, 8, 7], some 0) [⟨[97, 98, 0], 0, by decide⟩, ⟨[99, 100], 2, by decide⟩] = .ok (dst', some 4) ∧
      Holds 3 [7] [97, 98] dst') ∧
    ∃ dst', strCatDelims 3 ([0, 8, 8, 7], some 0) [(⟨[97], by decide⟩, 44), (⟨[98], by decide⟩, 44), (⟨[99], by decide⟩, 44)] =
        .ok (dst', some 5) ∧
      (∃ k, Fitting 3 [(⟨[97], by decide⟩, 44), (⟨[98], by decide⟩, 44), (⟨[99], by decide⟩, 44)] k ∧
        Holds 3 [7] (joined ([(⟨[97], by decide⟩, 44), (⟨[98], by decide⟩, 44), (⟨[99], by decide⟩, 44)].take k)) dst') ∧
      strCatDelims 3 ([0, 8, 8, 7], some 0) [(⟨[97], by decide⟩, 44), (⟨[98], by decide⟩, 44)] = .ok (dst', some 3) := by
  have h := @strCat_strCatDelim 3 [0, 8, 8, 7] (by decide) (by decide) rfl
  obtain ⟨dst', hdst', hfitting, hlater⟩ :=
    h.2 [(⟨[97], by decide⟩, 44), (⟨[98], by decide⟩, 44), (⟨[99], by decide⟩, 44)] (by decide)
  exact ⟨h.1 _ (by decide), dst', hdst', hfitting,
    hlater [(⟨[97], by decide⟩, 44), (⟨[98], by decide⟩, 44)] [(⟨[99], by decide⟩, 44)] rfl (by decide)⟩

/-- An empty first source takes no separator. -/
theorem separator_left_out : ¬ ∃ dst', strCatDelims 3 ([0, 0, 0], some 0) [(⟨[], by decide⟩, 44), (⟨[97], by decide⟩, 44)] =
    .ok (dst', some ([44].intercalate [[], [(97 : UInt8)]]).length) := by
  have hone : strCatDelims 3 ([0, 0, 0], some 0) [(⟨[], by decide⟩, 44), (⟨[97], by decide⟩, 44)] =
      .ok ([97, 0, 0], some 1) := rfl
  rintro ⟨dst', h⟩
  rw [hone] at h
  injection h with h
  exact absurd (Prod.mk.inj h).2 (by decide)

end Libntech.Strings
