import Libntech.Lib.Occurrences
import Libntech.Lib.Terminated
import Libntech.Strings.Replace
import Mathlib.Data.List.TakeWhile

/-! # What is replaced

`StringReplaceN` makes the replacements in `tmp`, and what is done there and what is ahead in `buf` are together the
result, all the time (`Holding`). So it finds out that the result is too long as soon as a part of it is.
`SearchAndReplace` takes what it writes up to its NUL in pieces of at most `INT_MAX` bytes.
-/
namespace Libntech.Strings
set_option autoImplicit false

open Libntech.Json (Bytes CString ascii)
open Libntech.Lib (Fault replaceFirst replaceAll lastPiece)
open Libntech.Mustache (findFirst strstr)
open Libntech.Csv (intMax writerWrite writerWriteLen)

/-! ## Occurrences -/

section Occurrences

variable {find text : Bytes}

theorem findFirst_split {k : ℕ} (h : findFirst find text = some k) :
    ∃ front rest, text = front ++ (find ++ rest) ∧ front.length = k ∧ ∀ j < k, ¬ find <+: text.drop j := by
  fun_induction findFirst find text generalizing k with
  | case1 hempty =>
    obtain rfl := Option.some.inj h
    exact ⟨[], [], by simp [List.isEmpty_iff.mp hempty], rfl, by simp⟩
  | case2 hempty => cases h
  | case3 c rest hstarts =>
    obtain rfl := Option.some.inj h
    obtain ⟨behind, hbehind⟩ := List.isPrefixOf_iff_prefix.mp hstarts
    exact ⟨[], behind, hbehind.symm, rfl, by simp⟩
  | case4 c rest hstarts ih =>
    obtain ⟨j, hj, rfl⟩ := Option.map_eq_some_iff.mp h
    obtain ⟨front, behind, hrest, hlen, hfirst⟩ := ih hj
    refine ⟨c :: front, behind, by rw [hrest, List.cons_append], by rw [List.length_cons, hlen], fun i hi => ?_⟩
    cases i with
    | zero => simpa [List.isPrefixOf_iff_prefix] using hstarts
    | succ i => exact hfirst i (Nat.lt_of_succ_lt_succ hi)

theorem findFirst_none (h : findFirst find text = none) : ¬ find <:+: text := by
  fun_induction findFirst find text with
  | case1 hempty => cases h
  | case2 hempty =>
    intro hinfix
    exact hempty (List.isEmpty_iff.mpr (List.infix_nil.mp hinfix))
  | case3 c rest hstarts => cases h
  | case4 c rest hstarts ih =>
    rw [List.infix_cons_iff, not_or]
    exact ⟨fun hprefix => hstarts (List.isPrefixOf_iff_prefix.mpr hprefix), ih (Option.map_eq_none_iff.mp h)⟩

theorem findFirst_apart (h : ¬ find <:+: text) : findFirst find text = none := by
  cases hfound : findFirst find text with
  | none => rfl
  | some k =>
    obtain ⟨front, rest, rfl, -⟩ := findFirst_split hfound
    exact absurd ⟨front, rest, by simp⟩ h

theorem strstr_none {i : ℕ} (h : strstr text i find = none) : ¬ find <:+: text.drop i :=
  findFirst_none (Option.map_eq_none_iff.mp h)

theorem strstr_split {i p : ℕ} (h : strstr text i find = some p) : ∃ front rest,
    text.drop i = front ++ (find ++ rest) ∧ p = i + front.length ∧
      ∀ j < front.length, ¬ find <+: (front ++ (find ++ rest)).drop j := by
  obtain ⟨k, hk, rfl⟩ := Option.map_eq_some_iff.mp h
  obtain ⟨front, rest, htext, rfl, hfirst⟩ := findFirst_split hk
  exact ⟨front, rest, htext, rfl, htext ▸ hfirst⟩

end Occurrences

/-! ## Memory -/

theorem cString_terminated {text behind : Bytes} (h : 0 ∉ text) : cString (text ++ 0 :: behind) = .ok text := by
  rw [cString, if_pos (by simp), Lib.takeWhile_ne_terminated h]

theorem memcpy_inside {dst src : Bytes} {i j len : ℕ} (hdst : i + len ≤ dst.length) (hsrc : j + len ≤ src.length) :
    ∃ dst', memcpy dst i src j len = .ok dst' ∧ dst'.length = dst.length ∧
      dst'.take (i + len) = dst.take i ++ (src.drop j).take len ∧ dst'.drop (i + len) = dst.drop (i + len) := by
  have hlen : (dst.take i ++ (src.drop j).take len).length = i + len := by
    simp only [List.length_append, List.length_take, List.length_drop]
    omega
  refine ⟨_, if_pos ⟨hdst, hsrc⟩, ?_, ?_, ?_⟩
  · rw [List.length_append, hlen, List.length_drop]
    omega
  · rw [List.take_append_of_le_length (Nat.le_of_eq hlen.symm), List.take_of_length_le (Nat.le_of_eq hlen)]
  · rw [List.drop_append_of_le_length (Nat.le_of_eq hlen.symm), List.drop_of_length_le (Nat.le_of_eq hlen),
      List.nil_append]

/-! ## The loop -/

/-- What is done is in `tmp`. -/
structure Holding (text done : Bytes) (buf_size : ℕ) (s : Replacing) : Prop where
  size : s.tmp.length = buf_size
  tmp : s.tmp.take s.tmp_len = done
  tmp_len : s.tmp_len = done.length
  buf_idx : s.buf_idx ≤ text.length

section Loop

variable {text behind find replace done front rest : Bytes} {buf_size : ℕ} {s : Replacing}

theorem replaceOne_overflow (hs : Holding text done buf_size s)
    (h : buf_size ≤ (done ++ (front ++ replace)).length) :
    replaceOne (text ++ 0 :: behind) find replace buf_size s (s.buf_idx + front.length) = .ok none := by
  rw [List.length_append, List.length_append, ← Nat.add_assoc, ← hs.tmp_len] at h
  rw [replaceOne, Nat.add_sub_cancel_left, if_pos h]

theorem replaceOne_fits (hs : Holding text done buf_size s) (hahead : text.drop s.buf_idx = front ++ (find ++ rest))
    (h : (done ++ (front ++ replace)).length < buf_size) :
    ∃ s', replaceOne (text ++ 0 :: behind) find replace buf_size s (s.buf_idx + front.length) = .ok (some s') ∧
      Holding text (done ++ (front ++ replace)) buf_size s' ∧ text.drop s'.buf_idx = rest := by
  rw [List.length_append, List.length_append, ← Nat.add_assoc, ← hs.tmp_len] at h
  have hlen := congrArg List.length hahead
  simp only [List.length_drop, List.length_append] at hlen
  have hidx := hs.buf_idx
  have hsize := hs.size
  obtain ⟨tmp, htmp, htmplen, htmptake, -⟩ := @memcpy_inside s.tmp (text ++ 0 :: behind)
    s.tmp_len s.buf_idx front.length (by omega) (by simp only [List.length_append, List.length_cons]; omega)
  obtain ⟨tmp', htmp', htmplen', htmptake', -⟩ := @memcpy_inside tmp replace
    (s.tmp_len + front.length) 0 replace.length (by omega) (by omega)
  have hfront : ((text ++ 0 :: behind).drop s.buf_idx).take front.length = front := by
    rw [List.drop_append_of_le_length hidx, hahead, List.append_assoc, List.take_left]
  refine ⟨⟨tmp', s.tmp_len + front.length + replace.length, s.buf_idx + front.length + find.length⟩, ?_, ?_, ?_⟩
  · rw [replaceOne, Nat.add_sub_cancel_left, if_neg (Nat.not_le.mpr h), htmp]
    show (memcpy tmp (s.tmp_len + front.length) replace 0 replace.length >>= _) = _
    rw [htmp']
    rfl
  · refine ⟨htmplen'.trans (htmplen.trans hsize), ?_, ?_, ?_⟩
    · show tmp'.take (s.tmp_len + front.length + replace.length) = _
      rw [htmptake', htmptake, hfront, hs.tmp, List.drop_zero, List.take_length, List.append_assoc]
    · simp only [List.length_append, ← hs.tmp_len, Nat.add_assoc]
    · show s.buf_idx + front.length + find.length ≤ text.length
      omega
  · show text.drop (s.buf_idx + front.length + find.length) = rest
    rw [Nat.add_assoc, ← List.drop_drop, hahead, ← List.append_assoc, ← List.length_append, List.drop_left]

theorem replaceLoop_next {buf : Bytes} {s' : Replacing} {p : ℕ} (n : ℕ)
    (hone : replaceOne buf find replace buf_size s p = .ok (some s')) :
    replaceLoop buf text find replace buf_size (n + 1) s p =
      match strstr text s'.buf_idx find with
      | none => .ok (some s')
      | some p => replaceLoop buf text find replace buf_size n s' p := by
  rw [replaceLoop, hone]
  rfl

/-- The loop stops because the result is too long, or the rest of the result is as it is in `buf`. -/
theorem replaceLoop_spec (hne : find ≠ []) (n : ℕ) {p : ℕ} (hs : Holding text done buf_size s)
    (hp : strstr text s.buf_idx find = some p) :
    (replaceLoop (text ++ 0 :: behind) text find replace buf_size n s p = .ok none ∧
      buf_size ≤ (done ++ replaceFirst find replace n (text.drop s.buf_idx)).length) ∨
    ∃ s' done', replaceLoop (text ++ 0 :: behind) text find replace buf_size n s p = .ok (some s') ∧
      Holding text done' buf_size s' ∧
      done' ++ text.drop s'.buf_idx = done ++ replaceFirst find replace n (text.drop s.buf_idx) := by
  induction n generalizing s done p with
  | zero => exact .inr ⟨s, done, rfl, hs, by rw [Lib.replaceFirst_zero]⟩
  | succ n ih =>
    obtain ⟨front, rest, hahead, rfl, hfirst⟩ := strstr_split hp
    rw [hahead, Lib.replaceFirst_found hne n front rest hfirst]
    by_cases hfits : (done ++ (front ++ replace)).length < buf_size
    · obtain ⟨s', hone, hs', hrest⟩ := @replaceOne_fits _ behind _ _ _ _ _ _ _ hs hahead hfits
      rw [replaceLoop_next n hone]
      cases hnext : strstr text s'.buf_idx find with
      | none =>
        have hapart := strstr_none hnext
        rw [hrest] at hapart
        refine .inr ⟨s', _, rfl, hs', ?_⟩
        rw [hrest, Lib.replaceFirst_apart _ hapart]
        simp
      | some p =>
        have hloop := ih hs' hnext
        rw [hrest] at hloop
        simpa only [List.append_assoc] using hloop
    · rw [replaceLoop, replaceOne_overflow hs (Nat.le_of_not_lt hfits)]
      refine .inl ⟨rfl, ?_⟩
      simp only [List.length_append] at hfits ⊢
      omega

end Loop

/-! ## StringReplaceN -/

/-- A buffer of at least `size` bytes, and a string in it that leaves room for its NUL. -/
structure StringBuffer where
  text : Bytes
  behind : Bytes
  size : ℕ
  nul_free : 0 ∉ text
  fits : text.length < size
  room : size ≤ (text ++ 0 :: behind).length

def StringBuffer.mem (b : StringBuffer) : Bytes := b.text ++ 0 :: b.behind

/-- The buffer with another string in it. -/
def StringBuffer.filled (b : StringBuffer) (text : Bytes) : Bytes := text ++ 0 :: b.mem.drop (text.length + 1)

theorem StringBuffer.filled_outside (b : StringBuffer) {text : Bytes} (h : text.length < b.size) :
    (b.filled text).length = b.mem.length ∧ (b.filled text).drop b.size = b.mem.drop b.size := by
  have hroom : b.size ≤ b.mem.length := b.room
  constructor
  · simp only [StringBuffer.filled, List.length_append, List.length_cons, List.length_drop]
    omega
  · have hlen : (text ++ [0]).length = text.length + 1 := List.length_append
    rw [StringBuffer.filled, List.append_cons, List.drop_append, List.drop_of_length_le (by omega), List.nil_append,
      List.drop_drop, hlen, Nat.add_sub_cancel' h]

section Buffers

variable (stack : ℕ → UInt8) (b : StringBuffer) (find replace : CString)

/-- The replacements were asked for, and there is something to replace. -/
def Replaces (n : ℕ) : Prop := n ≠ 0 ∧ find.bytes <:+: b.text

theorem stringReplaceN_keeps {n : ℕ} (h : ¬ Replaces b find n) :
    stringReplaceN stack b.mem b.size find.bytes replace.bytes n = .ok (0, b.mem) := by
  rw [stringReplaceN]
  by_cases hn : n = 0
  · rw [if_pos hn]
    rfl
  · have hnone : strstr b.text 0 find.bytes = none :=
      Option.map_eq_none_iff.mpr (findFirst_apart fun hinfix => h ⟨hn, hinfix⟩)
    rw [if_neg hn, StringBuffer.mem, cString_terminated b.nul_free]
    show (match strstr b.text 0 find.bytes with
      | none => _
      | some p => _) = _
    rw [hnone]
    rfl

theorem stringReplaceN_replaces {n : ℕ} (hne : find.bytes ≠ []) (h : Replaces b find n) :
    stringReplaceN stack b.mem b.size find.bytes replace.bytes n =
      .ok (if (replaceFirst find.bytes replace.bytes n b.text).length < b.size then
          ((replaceFirst find.bytes replace.bytes n b.text).length,
            b.filled (replaceFirst find.bytes replace.bytes n b.text))
        else (-1, b.mem)) := by
  obtain ⟨hn, hinfix⟩ := h
  obtain ⟨p, hp⟩ : ∃ p, strstr b.text 0 find.bytes = some p := by
    cases hp : strstr b.text 0 find.bytes with
    | none => exact absurd hinfix (strstr_none hp)
    | some p => exact ⟨p, rfl⟩
  have hstart : Holding b.text [] b.size ⟨(List.range b.size).map stack, 0, 0⟩ :=
    ⟨by simp, rfl, rfl, Nat.zero_le _⟩
  have hloop := @replaceLoop_spec _ b.behind _ replace.bytes _ _ _ hne n _ hstart hp
  rw [List.drop_zero, List.nil_append] at hloop
  rw [stringReplaceN, if_neg hn, StringBuffer.mem, cString_terminated b.nul_free]
  show (match strstr b.text 0 find.bytes with
    | none => _
    | some p => _) = _
  rw [hp]
  rcases hloop with ⟨hrun, hlong⟩ | ⟨s, done, hrun, hs, hresult⟩
  · simp only [hrun, if_neg (Nat.not_lt.mpr hlong)]
    rfl
  · have hlen := congrArg List.length hresult
    rw [List.length_append, List.length_drop, ← hs.tmp_len] at hlen
    simp only [hrun, Lib.ok_bind, ← hlen]
    by_cases hfits : s.tmp_len + (b.text.length - s.buf_idx) < b.size
    · rw [if_pos hfits, if_neg (Nat.not_le.mpr hfits)]
      have hidx := hs.buf_idx
      have hsize := hs.size
      have hroom := b.room
      have htext : (b.text ++ 0 :: b.behind).length = b.text.length + (b.behind.length + 1) := by simp
      obtain ⟨tmp, htmp, htmplen, htake, -⟩ := @memcpy_inside s.tmp (b.text ++ 0 :: b.behind)
        s.tmp_len s.buf_idx (b.text.length - s.buf_idx + 1) (by omega) (by omega)
      obtain ⟨buf, hbuf, -, hbuftake, hbufdrop⟩ := @memcpy_inside (b.text ++ 0 :: b.behind) tmp
        0 0 (s.tmp_len + (b.text.length - s.buf_idx) + 1) (by omega) (by omega)
      have hdone : tmp.take (s.tmp_len + (b.text.length - s.buf_idx) + 1) =
          replaceFirst find.bytes replace.bytes n b.text ++ [0] := by
        have hsplit : b.text.drop s.buf_idx ++ 0 :: b.behind = (b.text.drop s.buf_idx ++ [0]) ++ b.behind := by simp
        have hcount : b.text.length - s.buf_idx + 1 = (b.text.drop s.buf_idx ++ [0]).length := by simp
        rw [Nat.add_assoc, htake, hs.tmp, List.drop_append_of_le_length hidx, hsplit, hcount, List.take_left,
          ← List.append_assoc, hresult]
      have hfilled : buf = b.filled (replaceFirst find.bytes replace.bytes n b.text) := by
        rw [← List.take_append_drop (0 + (s.tmp_len + (b.text.length - s.buf_idx) + 1)) buf, hbuftake, hbufdrop,
          List.take_zero, List.drop_zero, hdone, StringBuffer.filled, ← hlen, Nat.zero_add]
        simp [StringBuffer.mem]
      rw [htmp, Lib.ok_bind, hbuf, Lib.ok_bind, hfilled]
      rfl
    · rw [if_neg hfits, if_pos (Nat.not_lt.mp hfits)]
      rfl

/-- What `StringReplaceN` is to do: replace the first `n` occurrences if the result fits, and stay inside the buffer. -/
structure ReplacesFirst (n : ℕ) : Prop where
  overflow : (∃ buf, stringReplaceN stack b.mem b.size find.bytes replace.bytes n = .ok (-1, buf)) ↔
    b.size ≤ (replaceFirst find.bytes replace.bytes n b.text).length
  failed : ∀ buf, stringReplaceN stack b.mem b.size find.bytes replace.bytes n = .ok (-1, buf) → buf = b.mem
  kept : ¬ Replaces b find n → replaceFirst find.bytes replace.bytes n b.text = b.text ∧
    stringReplaceN stack b.mem b.size find.bytes replace.bytes n = .ok (0, b.mem)
  replaced : Replaces b find n → (replaceFirst find.bytes replace.bytes n b.text).length < b.size →
    stringReplaceN stack b.mem b.size find.bytes replace.bytes n =
      .ok ((replaceFirst find.bytes replace.bytes n b.text).length,
        b.filled (replaceFirst find.bytes replace.bytes n b.text))
  outside : ∀ ret buf, stringReplaceN stack b.mem b.size find.bytes replace.bytes n = .ok (ret, buf) →
    buf.length = b.mem.length ∧ buf.drop b.size = b.mem.drop b.size

theorem replaceFirst_kept {n : ℕ} (h : ¬ Replaces b find n) :
    replaceFirst find.bytes replace.bytes n b.text = b.text := by
  by_cases hn : n = 0
  · rw [hn, Lib.replaceFirst_zero]
  · exact Lib.replaceFirst_apart n fun hinfix => h ⟨hn, hinfix⟩

theorem stringReplaceN_replacesFirst (hne : find.bytes ≠ []) (n : ℕ) : ReplacesFirst stack b find replace n := by
  by_cases hreplaces : Replaces b find n
  · have hrun := stringReplaceN_replaces stack b find replace hne hreplaces
    by_cases hfits : (replaceFirst find.bytes replace.bytes n b.text).length < b.size
    · rw [if_pos hfits] at hrun
      refine ⟨⟨?_, fun hlong => absurd hfits (Nat.not_lt.mpr hlong)⟩, ?_, fun hkeeps => absurd hreplaces hkeeps,
        fun _ _ => hrun, ?_⟩
      · rintro ⟨buf, hbuf⟩
        rw [hrun, Except.ok.injEq, Prod.mk.injEq] at hbuf
        omega
      · intro buf hbuf
        rw [hrun, Except.ok.injEq, Prod.mk.injEq] at hbuf
        omega
      · intro ret buf hbuf
        rw [hrun, Except.ok.injEq, Prod.mk.injEq] at hbuf
        rw [← hbuf.2]
        exact b.filled_outside hfits
    · rw [if_neg hfits] at hrun
      refine ⟨⟨fun _ => Nat.not_lt.mp hfits, fun _ => ⟨b.mem, hrun⟩⟩, ?_, fun hkeeps => absurd hreplaces hkeeps,
        fun _ hshort => absurd hshort hfits, ?_⟩
      · intro buf hbuf
        rw [hrun, Except.ok.injEq, Prod.mk.injEq] at hbuf
        exact hbuf.2.symm
      · intro ret buf hbuf
        rw [hrun, Except.ok.injEq, Prod.mk.injEq] at hbuf
        rw [← hbuf.2]
        exact ⟨rfl, rfl⟩
  · have hrun := stringReplaceN_keeps stack b find replace hreplaces
    have hsame := replaceFirst_kept b find replace hreplaces
    have hfits := b.fits
    refine ⟨⟨?_, fun hlong => ?_⟩, ?_, fun _ => ⟨hsame, hrun⟩, fun hyes => absurd hyes hreplaces, ?_⟩
    · rintro ⟨buf, hbuf⟩
      rw [hrun, Except.ok.injEq, Prod.mk.injEq] at hbuf
      omega
    · rw [hsame] at hlong
      omega
    · intro buf hbuf
      rw [hrun, Except.ok.injEq, Prod.mk.injEq] at hbuf
      exact hbuf.2.symm
    · intro ret buf hbuf
      rw [hrun, Except.ok.injEq, Prod.mk.injEq] at hbuf
      rw [← hbuf.2]
      exact ⟨rfl, rfl⟩

end Buffers

/-! ## SearchAndReplace -/

section Search

variable {search replace : Bytes} (hsearch : search ≠ [])
include hsearch

theorem searchLoop_apart (w : Bytes) {source : Bytes} (h : ¬ search <:+: source) :
    searchLoop search replace hsearch w source = w ++ source.take intMax := by
  rw [searchLoop]
  split
  · rfl
  · rename_i found hfound
    rw [findFirst_apart h] at hfound
    cases hfound

theorem searchLoop_found (w : Bytes) {source front rest : Bytes} {found : ℕ}
    (hfound : findFirst search source = some found) (hsource : source = front ++ (search ++ rest))
    (hlen : front.length = found) :
    searchLoop search replace hsearch w source =
      searchLoop search replace hsearch (w ++ (front ++ replace.take intMax)) rest := by
  rw [searchLoop]
  split
  · rename_i hnone
    rw [hfound] at hnone
    cases hnone
  · rename_i k hk
    obtain rfl := Option.some.inj (hfound.symm.trans hk)
    have hdrop : source.drop (found + search.length) = rest := by
      rw [hsource, ← List.append_assoc, ← hlen, ← List.length_append, List.drop_left]
    have hwritten : writerWrite (writerWriteLen w source found) replace = w ++ (front ++ replace.take intMax) := by
      rw [writerWrite, writerWriteLen, writerWriteLen, hsource, ← hlen, List.take_left, List.append_assoc]
    rw [hdrop, hwritten]

/-- The pieces are written whole. -/
def PiecesShort (search replace source : Bytes) : Prop :=
  (search <:+: source → replace.length ≤ intMax) ∧ (lastPiece search source).length ≤ intMax

theorem piecesShort_found {front rest : Bytes}
    (hfirst : ∀ k < front.length, ¬ search <+: (front ++ (search ++ rest)).drop k) :
    PiecesShort search replace (front ++ (search ++ rest)) ↔
      replace.length ≤ intMax ∧ PiecesShort search replace rest := by
  have hinfix : search <:+: front ++ (search ++ rest) := ⟨front, rest, by simp⟩
  rw [PiecesShort, PiecesShort, Lib.lastPiece_found hsearch front rest hfirst]
  constructor
  · rintro ⟨hreplace, hlast⟩
    exact ⟨hreplace hinfix, fun _ => hreplace hinfix, hlast⟩
  · rintro ⟨hreplace, -, hlast⟩
    exact ⟨fun _ => hreplace, hlast⟩

/-- What is written is not longer than the result, and as long only if all pieces are short. -/
theorem searchLoop_length (w source : Bytes) :
    (searchLoop search replace hsearch w source).length ≤ w.length + (replaceAll search replace source).length ∧
      ((searchLoop search replace hsearch w source).length = w.length + (replaceAll search replace source).length →
        PiecesShort search replace source) := by
  induction hn : source.length using Nat.strong_induction_on generalizing w source with
  | _ n ih =>
    cases hfound : findFirst search source with
    | none =>
      have hapart := findFirst_none hfound
      rw [searchLoop_apart hsearch w hapart, Lib.replaceAll_apart hapart, PiecesShort, Lib.lastPiece_apart hapart]
      simp only [List.length_append, List.length_take]
      exact ⟨by omega, fun heq => ⟨fun hinfix => absurd hinfix hapart, by omega⟩⟩
    | some found =>
      obtain ⟨front, rest, hsource, hlen, hfirst⟩ := findFirst_split hfound
      rw [hsource, ← hlen] at hfirst
      have hpos := List.length_pos_iff.mpr hsearch
      have hsize := congrArg List.length hsource
      simp only [List.length_append] at hsize
      obtain ⟨hle, heq⟩ := ih rest.length (by omega) (w ++ (front ++ replace.take intMax)) rest rfl
      rw [searchLoop_found hsearch w hfound hsource hlen, hsource, Lib.replaceAll_found hsearch front rest hfirst,
        piecesShort_found hsearch hfirst]
      simp only [List.length_append, List.length_take] at hle heq ⊢
      exact ⟨by omega, fun hsame => ⟨by omega, heq (by omega)⟩⟩

theorem searchLoop_short (w : Bytes) {source : Bytes} (h : PiecesShort search replace source) :
    searchLoop search replace hsearch w source = w ++ replaceAll search replace source := by
  induction hn : source.length using Nat.strong_induction_on generalizing w source with
  | _ n ih =>
    cases hfound : findFirst search source with
    | none =>
      have hapart := findFirst_none hfound
      have hlast := h.2
      rw [Lib.lastPiece_apart hapart] at hlast
      rw [searchLoop_apart hsearch w hapart, Lib.replaceAll_apart hapart, List.take_of_length_le hlast]
    | some found =>
      obtain ⟨front, rest, hsource, hlen, hfirst⟩ := findFirst_split hfound
      rw [hsource, ← hlen] at hfirst
      have hpos := List.length_pos_iff.mpr hsearch
      have hsize := congrArg List.length hsource
      simp only [List.length_append] at hsize
      rw [hsource, piecesShort_found hsearch hfirst] at h
      have hrest := ih rest.length (by omega) (w ++ (front ++ replace.take intMax)) h.2 rfl
      rw [searchLoop_found hsearch w hfound hsource hlen, hrest, List.take_of_length_le h.1, hsource,
        Lib.replaceAll_found hsearch front rest hfirst]
      simp

theorem searchAndReplace_iff (source : Bytes) :
    searchAndReplace source search replace = replaceAll search replace source ↔ PiecesShort search replace source := by
  rw [searchAndReplace, dif_neg hsearch]
  constructor
  · intro h
    refine (searchLoop_length hsearch [] source).2 ?_
    rw [h, List.length_nil, Nat.zero_add]
  · intro h
    rw [searchLoop_short hsearch [] h, List.nil_append]

end Search

/-! ## Both -/

/-- `StringReplace` makes the text that `SearchAndReplace` makes, unless it returns -1. -/
def Agrees (stack : ℕ → UInt8) (b : StringBuffer) (find replace : CString) : Prop :=
  ∀ ret buf, stringReplace stack b.mem b.size find.bytes replace.bytes = .ok (ret, buf) → ret ≠ -1 →
    cString buf = .ok (searchAndReplace b.text find.bytes replace.bytes)

section Both

variable (stack : ℕ → UInt8) (b : StringBuffer) (find replace : CString)

theorem replaceFirst_nul_free (n : ℕ) {text : Bytes} (h : 0 ∉ text) (hne : find.bytes ≠ []) :
    0 ∉ replaceFirst find.bytes replace.bytes n text := by
  induction n generalizing text with
  | zero => simpa using h
  | succ n ih =>
    cases hfound : findFirst find.bytes text with
    | none =>
      rw [Lib.replaceFirst_apart _ (findFirst_none hfound)]
      exact h
    | some k =>
      obtain ⟨front, rest, rfl, rfl, hfirst⟩ := findFirst_split hfound
      rw [Lib.replaceFirst_found hne n front rest hfirst]
      simp only [List.mem_append, not_or] at h ⊢
      exact ⟨h.1, replace.nul_free, ih h.2.2⟩

theorem replaceFirst_size (hne : find.bytes ≠ []) :
    replaceFirst find.bytes replace.bytes b.size b.text = replaceAll find.bytes replace.bytes b.text :=
  Lib.replaceFirst_all hne (Nat.le_of_lt b.fits)

/-- What `StringReplace` leaves in the buffer if it does not return -1. -/
theorem stringReplace_text (hne : find.bytes ≠ []) {ret : ℤ} {buf : Bytes} (hret : ret ≠ -1)
    (h : stringReplace stack b.mem b.size find.bytes replace.bytes = .ok (ret, buf)) :
    (replaceAll find.bytes replace.bytes b.text).length < b.size ∧
      cString buf = .ok (replaceAll find.bytes replace.bytes b.text) := by
  have hmeets := stringReplaceN_replacesFirst stack b find replace hne b.size
  have hnul := replaceFirst_nul_free find replace b.size b.nul_free hne
  rw [stringReplace] at h
  rw [← replaceFirst_size b find replace hne]
  have hfits : (replaceFirst find.bytes replace.bytes b.size b.text).length < b.size := by
    by_contra hlong
    obtain ⟨buf', hbuf'⟩ := hmeets.overflow.mpr (Nat.not_lt.mp hlong)
    rw [hbuf', Except.ok.injEq, Prod.mk.injEq] at h
    exact hret h.1.symm
  refine ⟨hfits, ?_⟩
  by_cases hreplaces : Replaces b find b.size
  · rw [hmeets.replaced hreplaces hfits, Except.ok.injEq, Prod.mk.injEq] at h
    rw [← h.2]
    exact cString_terminated hnul
  · obtain ⟨hsame, hrun⟩ := hmeets.kept hreplaces
    rw [hrun, Except.ok.injEq, Prod.mk.injEq] at h
    rw [hsame, ← h.2]
    exact cString_terminated b.nul_free

theorem stringReplace_returns (hne : find.bytes ≠ []) (hfits : (replaceAll find.bytes replace.bytes b.text).length < b.size) :
    ∃ ret buf, stringReplace stack b.mem b.size find.bytes replace.bytes = .ok (ret, buf) ∧ ret ≠ -1 := by
  have hmeets := stringReplaceN_replacesFirst stack b find replace hne b.size
  rw [← replaceFirst_size b find replace hne] at hfits
  by_cases hreplaces : Replaces b find b.size
  · exact ⟨_, _, hmeets.replaced hreplaces hfits, by omega⟩
  · exact ⟨0, b.mem, (hmeets.kept hreplaces).2, by decide⟩

/-- `StringReplaceN` does what it is to do. `SearchAndReplace` makes the same text exactly when no piece that it writes
is longer than `INT_MAX`, for a result that fits into the buffer. -/
theorem stringReplace_iff (hne : find.bytes ≠ []) :
    (∀ n, ReplacesFirst stack b find replace n) ∧ Agrees stack b find replace ↔
      ((replaceAll find.bytes replace.bytes b.text).length < b.size →
        PiecesShort find.bytes replace.bytes b.text) := by
  rw [and_iff_right (stringReplaceN_replacesFirst stack b find replace hne), ← searchAndReplace_iff hne]
  constructor
  · intro hagrees hfits
    obtain ⟨ret, buf, hrun, hret⟩ := stringReplace_returns stack b find replace hne hfits
    have htext := hagrees ret buf hrun hret
    rw [(stringReplace_text stack b find replace hne hret hrun).2, Except.ok.injEq] at htext
    exact htext.symm
  · intro hsame ret buf hrun hret
    obtain ⟨hfits, htext⟩ := stringReplace_text stack b find replace hne hret hrun
    rw [htext, hsame hfits]

end Both

/-- Three commas, and room for one more byte for each. -/
def fourNumbers : StringBuffer where
  text := ascii "1,2,3,4"
  behind := [0, 0, 0]
  size := 11
  nul_free := by decide
  fits := by decide
  room := by decide

theorem fourNumbers_replaced :
    (∀ n, ReplacesFirst (fun _ => 0) fourNumbers ⟨ascii ",", by decide⟩ ⟨ascii "__", by decide⟩ n) ∧
      Agrees (fun _ => 0) fourNumbers ⟨ascii ",", by decide⟩ ⟨ascii "__", by decide⟩ := by
  refine (stringReplace_iff _ _ _ _ (by decide)).mpr fun _ => ⟨fun _ => by decide, ?_⟩
  have hlast : lastPiece (ascii ",") fourNumbers.text = ascii "4" := by
    simp [lastPiece, Lib.pieces, fourNumbers, ascii, Char.toUInt8]
  rw [hlast]
  decide

section LongPiece

variable (n : ℕ)

theorem replicate_apart : ¬ ascii "b" <:+: List.replicate n 'a'.toUInt8 := fun hinside =>
  absurd (List.eq_of_mem_replicate (hinside.subset (List.mem_singleton_self 'b'.toUInt8))) (by decide)

theorem replicate_buffer : ∃ b : StringBuffer, b.text = List.replicate n 'a'.toUInt8 :=
  ⟨⟨_, [], n + 1, fun h => absurd (List.eq_of_mem_replicate h) (by decide), by simp, by simp⟩, rfl⟩

theorem replicate_cut (h : intMax < n) :
    searchAndReplace (List.replicate n 'a'.toUInt8) (ascii "b") [] = List.replicate intMax 'a'.toUInt8 := by
  rw [searchAndReplace, dif_neg (by decide), searchLoop_apart _ _ (replicate_apart n), List.nil_append,
    List.take_replicate, Nat.min_eq_left (Nat.le_of_lt h)]

theorem replicate_disagrees (h : intMax < n) : ∃ b : StringBuffer, b.text = List.replicate n 'a'.toUInt8 ∧
    stringReplace (fun _ => 0) b.mem b.size (ascii "b") [] = .ok (0, b.mem) ∧
    searchAndReplace b.text (ascii "b") [] = List.replicate intMax 'a'.toUInt8 ∧
    ¬ Agrees (fun _ => 0) b ⟨ascii "b", by decide⟩ ⟨[], by decide⟩ := by
  obtain ⟨b, htext⟩ := replicate_buffer n
  have hkept : stringReplace (fun _ => 0) b.mem b.size (ascii "b") [] = .ok (0, b.mem) := by
    refine stringReplaceN_keeps _ b ⟨ascii "b", by decide⟩ ⟨[], by decide⟩ fun hreplaces => replicate_apart n ?_
    rw [← htext]
    exact hreplaces.2
  refine ⟨b, htext, hkept, by rw [htext, replicate_cut n h], fun hagrees => ?_⟩
  have hsame := hagrees 0 b.mem hkept (by decide)
  rw [StringBuffer.mem, cString_terminated b.nul_free, Except.ok.injEq, htext, replicate_cut n h] at hsame
  have hlen := congrArg List.length hsame
  rw [List.length_replicate, List.length_replicate] at hlen
  omega

end LongPiece

/-- Nothing is replaced, and the one piece is a byte longer than `INT_MAX`. -/
theorem long_piece_cut : ∃ b : StringBuffer, b.text = List.replicate 2147483648 'a'.toUInt8 ∧
    stringReplace (fun _ => 0) b.mem b.size (ascii "b") [] = .ok (0, b.mem) ∧
    searchAndReplace b.text (ascii "b") [] = List.replicate intMax 'a'.toUInt8 ∧
    ¬ Agrees (fun _ => 0) b ⟨ascii "b", by decide⟩ ⟨[], by decide⟩ :=
  replicate_disagrees 2147483648 (by decide)

end Libntech.Strings
