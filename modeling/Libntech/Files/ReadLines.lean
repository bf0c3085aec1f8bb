import Libntech.Containers.BufferCapacity
import Libntech.Lib.CheckedArray
import Mathlib.Algebra.Group.Nat.Defs

/-! # Reading lines (`libcompat/getline.c`, `libutils/file_lib.c`)

`NULL` is `none`, and -1 is no number. The size that goes with a buffer is the length of its array.
-/
namespace Libntech.Files.ReadLines
set_option autoImplicit false

open Libntech.Json (Bytes ascii)
open Libntech.Containers (untilNul untilNul_append_nul)
open Libntech.Lib (Fault load store)

/-! ## Streams -/

/-- Behind the rest there is the end, or an error. -/
structure Stream where
  rest : Bytes
  breaks : Bool
  eof : Bool
  error : Bool

/-- The `getc` that finds nothing. -/
def Stream.ended (s : Stream) : Stream :=
  { s with rest := [], eof := s.eof || !s.breaks, error := s.error || s.breaks }

/-! ## getdelim -/

def ssizeMax : ℕ := 2 ^ 63 - 1

/-- `_GETDELIM_GROWBY` -/
def growBy : ℕ := 4096

/-- `_GETDELIM_MINLEN` -/
def minLen : ℕ := 4

inductive Stop where
  | failed
  | delimited
  | ended
  deriving DecidableEq

section Lines

variable (realloc : Option Bytes → ℕ → Option Bytes)

/-- The buffer, with room for a byte more and the terminator. -/
def grow (bytes : ℕ) (buf : Bytes) : Option Bytes :=
  if buf.length - 1 ≤ bytes then realloc (some buf) (buf.length + growBy) else some buf

/-- What the loop stops with: the number of bytes, the buffer, and the rest of the stream. -/
def getdelimLoop (delimiter : UInt8) : Bytes → ℕ → Bytes → Except Fault (Stop × ℕ × Bytes × Bytes)
  | [], bytes, buf => .ok (.ended, bytes, buf, [])
  | c :: rest, bytes, buf =>
    if ssizeMax ≤ bytes + 1 then .ok (.failed, bytes, buf, rest)
    else
      match grow realloc (bytes + 1) buf with
      | none => .ok (.failed, bytes + 1, buf, rest)
      | some buf => do
        let buf ← store buf bytes c
        if c = delimiter then return (.delimited, bytes + 1, buf, rest)
        else getdelimLoop delimiter rest (bytes + 1) buf

/-- "resize (or allocate) the line buffer if necessary" -/
def lineBuffer (lineptr : Option Bytes) : Option Bytes :=
  match lineptr with
  | some buf => if buf.length < minLen then realloc (some buf) growBy else some buf
  | none => realloc none growBy

/-- The number of bytes, `*lineptr`, and the stream. -/
def getdelim (lineptr : Option Bytes) (delimiter : UInt8) (s : Stream) :
    Except Fault (Option ℕ × Option Bytes × Stream) :=
  match lineBuffer realloc lineptr with
  | none => .ok (none, lineptr, s)
  | some buf => do
    let (stop, bytes, buf, rest) ← getdelimLoop realloc delimiter s.rest 0 buf
    let s := if stop = .ended then s.ended else { s with rest := rest }
    if stop = .failed ∨ s.error ∨ (s.eof ∧ bytes = 0) then return (none, some buf, s)
    else
      let buf ← store buf bytes 0
      return (some bytes, some buf, s)

def newline : UInt8 := '\n'.toUInt8

def getline (lineptr : Option Bytes) (s : Stream) : Except Fault (Option ℕ × Option Bytes × Stream) :=
  getdelim realloc lineptr newline s

/-! ## CfReadLines -/

/-- That no line has 0 bytes is an assertion. -/
def cfReadLine (buff : Option Bytes) (s : Stream) : Except Fault (Option ℕ × Option Bytes × Stream) := do
  match ← getline realloc buff s with
  | (some (b + 1), some buff, s) =>
    if (← load buff b) = newline then
      let buff ← store buff b 0
      return (some b, some buff, s)
    else return (some (b + 1), some buff, s)
  | result => return result

/-- The terminator is read. -/
def xstrdup (buff : Option Bytes) : Except Fault Bytes :=
  match buff with
  | some buff => if 0 ∈ buff then .ok (untilNul buff) else .error .outOfBounds
  | none => .error .outOfBounds

/-- The lines that are appended, and whether no error came. -/
def readLinesLoop : ℕ → Option Bytes → Stream → List Bytes → Except Fault (Bool × List Bytes)
  | 0, _, _, _ => .error .outOfFuel
  | fuel + 1, buff, s, appended =>
    if s.eof then .ok (true, appended)
    else do
      let (ret, buff, s) ← cfReadLine realloc buff s
      match ret with
      | none => if s.eof then readLinesLoop fuel buff s appended else return (false, appended)
      | some _ => readLinesLoop fuel buff s (appended ++ [← xstrdup buff])

/-- The number of lines, and the sequence with them. A `buff` that is `NULL` itself, which the documentation allows, is
dereferenced when it is freed. -/
def cfReadLines (fuel : ℕ) (buff : Option (Option Bytes)) (s : Stream) (lines : List Bytes) :
    Except Fault (Option ℕ × List Bytes) :=
  match buff with
  | none => .error .outOfBounds
  | some buff => do
    let (done, appended) ← readLinesLoop realloc fuel buff s []
    return (if done then some appended.length else none, lines ++ appended)

end Lines

/-! ## What is read -/

/-- The lines of a text, without their ends. What is broken off is not a line. -/
def linesFrom (breaks : Bool) (line : Bytes) : Bytes → List Bytes
  | [] => if line = [] ∨ breaks then [] else [line]
  | c :: rest => if c = newline then line :: linesFrom breaks [] rest else linesFrom breaks (line ++ [c]) rest

def Stream.lines (s : Stream) : List Bytes := linesFrom s.breaks [] s.rest

variable {realloc : Option Bytes → ℕ → Option Bytes}

/-- Memory that is given has the size that was asked for, and keeps what was in it. -/
structure Reallocates (realloc : Option Bytes → ℕ → Option Bytes) : Prop where
  length : ∀ old n buf, realloc old n = some buf → buf.length = n
  keeps : ∀ old n buf, realloc (some old) n = some buf → old.length ≤ n → old <+: buf

/-- There is memory, and the number of bytes is a `ssize_t`. -/
structure Granted (realloc : Option Bytes → ℕ → Option Bytes) (n : ℕ) : Prop where
  memory : ∀ old n, realloc old n ≠ none
  size : n + 1 < ssizeMax

/-! ## One line -/

theorem grown (hrealloc : Reallocates realloc) {front buf buf₁ : Bytes} (hfront : front <+: buf)
    (hroom : front.length + 2 ≤ buf.length)
    (h : grow realloc (front.length + 1) buf = some buf₁) : front <+: buf₁ ∧ front.length + 3 ≤ buf₁.length := by
  unfold grow at h
  split_ifs at h with hfull
  · have hlen := hrealloc.length _ _ _ h
    refine ⟨hfront.trans (hrealloc.keeps _ _ _ h (Nat.le_add_right _ _)), ?_⟩
    rw [hlen, growBy]
    omega
  · cases h
    exact ⟨hfront, by omega⟩

theorem store_behind {front buf : Bytes} (hfront : front <+: buf) (hroom : front.length < buf.length) (c : UInt8) :
    ∃ tail, store buf front.length c = .ok (front ++ c :: tail) ∧ (front ++ c :: tail).length = buf.length := by
  obtain ⟨tail, rfl⟩ := hfront
  cases tail with
  | nil => simp at hroom
  | cons x tail => exact ⟨tail, Lib.store_at front x tail c rfl rfl, by simp⟩

/-- What a stream has up to the delimiter. -/
def taken (delimiter : UInt8) (rest : Bytes) : Bytes :=
  rest.takeWhile (· ≠ delimiter) ++ if delimiter ∈ rest then [delimiter] else []

def left (delimiter : UInt8) (rest : Bytes) : Bytes := (rest.dropWhile (· ≠ delimiter)).tail

theorem taken_cons_ne {delimiter c : UInt8} (h : c ≠ delimiter) (rest : Bytes) :
    taken delimiter (c :: rest) = c :: taken delimiter rest := by
  simp [taken, h, Ne.symm h]

theorem left_cons_ne {delimiter c : UInt8} (h : c ≠ delimiter) (rest : Bytes) :
    left delimiter (c :: rest) = left delimiter rest := by
  simp [left, h]

/-- With the buffer full of what came before, the loop reads up to the delimiter or to the end. -/
theorem getdelimLoop_reads (hrealloc : Reallocates realloc) (delimiter : UInt8) (rest front buf : Bytes)
    (hfront : front <+: buf) (hroom : front.length + 2 ≤ buf.length) :
    ∃ stop bytes buf' rest', getdelimLoop realloc delimiter rest front.length buf = .ok (stop, bytes, buf', rest') ∧
      (stop = .failed ∧ ¬ Granted realloc (front.length + rest.length) ∨
        stop = (if delimiter ∈ rest then .delimited else .ended) ∧ bytes = (front ++ taken delimiter rest).length ∧
          front ++ taken delimiter rest <+: buf' ∧ bytes + 2 ≤ buf'.length ∧ rest' = left delimiter rest) := by
  induction rest generalizing front buf with
  | nil => exact ⟨_, _, _, _, rfl, .inr ⟨rfl, by simp [taken], by simpa [taken] using hfront, hroom, rfl⟩⟩
  | cons c rest ih =>
    by_cases hsize : ssizeMax ≤ front.length + 1
    · rw [getdelimLoop, if_pos hsize]
      refine ⟨_, _, _, _, rfl, .inl ⟨rfl, fun h => ?_⟩⟩
      have hlt := h.size
      rw [List.length_cons] at hlt
      omega
    rw [getdelimLoop, if_neg hsize]
    cases hgrow : grow realloc (front.length + 1) buf with
    | none =>
      refine ⟨_, _, _, _, rfl, .inl ⟨rfl, fun h => ?_⟩⟩
      unfold grow at hgrow
      split_ifs at hgrow
      exact h.memory _ _ hgrow
    | some buf₁ =>
      obtain ⟨hfront₁, hroom₁⟩ := grown hrealloc hfront hroom hgrow
      obtain ⟨tail, hstore, hlen⟩ := store_behind hfront₁ (by omega) c
      have hnext : front ++ [c] <+: front ++ c :: tail := ⟨tail, by simp⟩
      simp only [hstore, Lib.ok_bind]
      by_cases hc : c = delimiter
      · subst hc
        rw [if_pos rfl]
        exact ⟨_, _, _, _, rfl, .inr ⟨by simp, by simp [taken], by simp [taken], by omega, by simp [left]⟩⟩
      · obtain ⟨stop, bytes, buf', rest', hloop, hresult⟩ := ih (front ++ [c]) (front ++ c :: tail) hnext
          (by rw [hlen, List.length_append, List.length_singleton]; omega)
        rw [List.length_append, List.length_singleton] at hloop
        rw [if_neg hc, taken_cons_ne hc, left_cons_ne hc]
        refine ⟨stop, bytes, buf', rest', hloop, ?_⟩
        simpa [Ne.symm hc, Nat.add_assoc, Nat.add_comm 1] using hresult

theorem taken_of_mem {delimiter : UInt8} {rest : Bytes} (h : delimiter ∈ rest) :
    ∃ text, rest = text ++ delimiter :: left delimiter rest ∧ delimiter ∉ text ∧
      taken delimiter rest = text ++ [delimiter] := by
  induction rest with
  | nil => simp at h
  | cons c rest ih =>
    by_cases hc : c = delimiter
    · subst hc
      exact ⟨[], by simp [left], by simp, by simp [taken]⟩
    · obtain ⟨text, hrest, htext, htaken⟩ := ih ((List.mem_cons.mp h).resolve_left (Ne.symm hc))
      refine ⟨c :: text, ?_, by simp [Ne.symm hc, htext], ?_⟩
      · rw [left_cons_ne hc, List.cons_append, ← hrest]
      · rw [taken_cons_ne hc, htaken, List.cons_append]

theorem taken_of_not_mem {delimiter : UInt8} {rest : Bytes} (h : delimiter ∉ rest) : taken delimiter rest = rest := by
  induction rest with
  | nil => rfl
  | cons c rest ih =>
    have hc : c ≠ delimiter := fun heq => h (heq ▸ List.mem_cons_self)
    rw [taken_cons_ne hc, ih fun hmem => h (List.mem_cons_of_mem c hmem)]

/-- What a call has read, and how the stream stands then. -/
inductive LineRead (realloc : Option Bytes → ℕ → Option Bytes) (s : Stream) : Option ℕ → Option Bytes → Stream → Prop where
  | failed {buff : Option Bytes} {s' : Stream} : s'.eof = false → ¬ Granted realloc s.rest.length →
      LineRead realloc s none buff s'
  | line {text rest tail : Bytes} {n : ℕ} : s.rest = text ++ newline :: rest → newline ∉ text →
      LineRead realloc s (some n) (some (text ++ 0 :: tail)) { s with rest := rest }
  | last {tail : Bytes} {n : ℕ} : newline ∉ s.rest → s.rest ≠ [] → s.breaks = false →
      LineRead realloc s (some n) (some (s.rest ++ 0 :: tail)) s.ended
  | nothing {buff : Option Bytes} : newline ∉ s.rest → s.rest = [] ∨ s.breaks = true →
      LineRead realloc s none buff s.ended

theorem lineBuffer_room (hrealloc : Reallocates realloc) {lineptr : Option Bytes} {buf : Bytes}
    (h : lineBuffer realloc lineptr = some buf) : 2 ≤ buf.length := by
  unfold lineBuffer at h
  split at h
  · split_ifs at h with hlen
    · rw [hrealloc.length _ _ _ h, growBy]
      omega
    · cases h
      rw [minLen] at hlen
      omega
  · rw [hrealloc.length _ _ _ h, growBy]
    omega

theorem lineBuffer_none {lineptr : Option Bytes} (h : lineBuffer realloc lineptr = none) (n : ℕ) :
    ¬ Granted realloc n := by
  intro hgranted
  unfold lineBuffer at h
  split at h
  · split_ifs at h
    exact hgranted.memory _ _ h
  · exact hgranted.memory _ _ h

theorem cfReadLine_reads (hrealloc : Reallocates realloc) (buff : Option Bytes) {s : Stream} (heof : s.eof = false)
    (herror : s.error = false) :
    ∃ ret buff' s', cfReadLine realloc buff s = .ok (ret, buff', s') ∧ LineRead realloc s ret buff' s' := by
  unfold cfReadLine getline getdelim
  cases hbuf : lineBuffer realloc buff with
  | none => exact ⟨_, _, _, rfl, .failed heof (lineBuffer_none hbuf _)⟩
  | some buf =>
    obtain ⟨stop, bytes, buf', rest', hloop, hresult⟩ := getdelimLoop_reads hrealloc newline s.rest [] buf
      List.nil_prefix (lineBuffer_room hrealloc hbuf)
    rw [List.length_nil] at hloop
    simp only [hloop, Lib.ok_bind]
    rcases hresult with ⟨rfl, hnot⟩ | ⟨rfl, rfl, hholds, hroom, rfl⟩
    · rw [List.length_nil, Nat.zero_add] at hnot
      exact ⟨_, _, _, rfl, .failed heof hnot⟩
    · rw [List.nil_append] at hholds hroom ⊢
      obtain ⟨tail, hstore, -⟩ := store_behind hholds (by omega) 0
      by_cases hmem : newline ∈ s.rest
      · obtain ⟨text, hrest, htext, htaken⟩ := taken_of_mem hmem
        have hgoes : ¬ (s.error = true ∨ s.eof = true ∧ (taken newline s.rest).length = 0) := by simp [heof, herror]
        simp only [if_pos hmem, reduceCtorEq, if_false, false_or, if_neg hgoes, hstore, Lib.ok_bind, Lib.pure_ok]
        rw [htaken, List.append_assoc, List.length_append, List.length_singleton]
        simp only [List.singleton_append, Lib.load_at text newline (0 :: tail) rfl rfl, Lib.ok_bind, if_true,
          Lib.store_at text newline (0 :: tail) 0 rfl rfl]
        exact ⟨_, _, _, rfl, .line hrest htext⟩
      · rw [taken_of_not_mem hmem] at hstore ⊢
        simp only [if_neg hmem, if_true, reduceCtorEq, false_or]
        by_cases hend : s.rest = [] ∨ s.breaks = true
        · have hstops : s.ended.error = true ∨ s.ended.eof = true ∧ s.rest.length = 0 := by
            cases hbreaks : s.breaks with
            | true => exact .inl (by simp [Stream.ended, hbreaks])
            | false => exact .inr ⟨by simp [Stream.ended, hbreaks], by simpa [hbreaks] using hend⟩
          rw [if_pos hstops]
          exact ⟨_, _, _, rfl, .nothing hmem hend⟩
        · obtain ⟨hne, hbreaks⟩ := not_or.mp hend
          have hgoes : ¬ (s.ended.error = true ∨ s.ended.eof = true ∧ s.rest.length = 0) := by
            simp [Stream.ended, herror, hbreaks, hne]
          obtain ⟨front, c, hlast⟩ := List.eq_nil_or_concat s.rest |>.resolve_left hne
          have hc : c ≠ newline := fun heq => hmem (by simp [hlast, heq])
          have hload : load (s.rest ++ 0 :: tail) front.length = .ok c :=
            Lib.load_at front c (0 :: tail) (by simp [hlast]) rfl
          have hlen : s.rest.length = front.length + 1 := by simp [hlast]
          simp only [if_neg hgoes, hstore, Lib.ok_bind, Lib.pure_ok]
          rw [hlen]
          simp only [hload, Lib.ok_bind, if_neg hc]
          exact ⟨_, _, _, rfl, .last hmem hne (by simpa using hbreaks)⟩

/-! ## All lines -/

theorem linesFrom_line (breaks : Bool) {text : Bytes} (htext : newline ∉ text) (line rest : Bytes) :
    linesFrom breaks line (text ++ newline :: rest) = (line ++ text) :: linesFrom breaks [] rest := by
  induction text generalizing line with
  | nil => simp [linesFrom]
  | cons c text ih =>
    have hc : c ≠ newline := fun h => htext (h ▸ List.mem_cons_self)
    rw [List.cons_append, linesFrom, if_neg hc, ih (fun h => htext (List.mem_cons_of_mem c h)), List.append_assoc,
      List.singleton_append]

theorem linesFrom_last (breaks : Bool) {text : Bytes} (htext : newline ∉ text) (line : Bytes) :
    linesFrom breaks line text = if line ++ text = [] ∨ breaks then [] else [line ++ text] := by
  induction text generalizing line with
  | nil => simp [linesFrom]
  | cons c text ih =>
    have hc : c ≠ newline := fun h => htext (h ▸ List.mem_cons_self)
    rw [linesFrom, if_neg hc, ih (fun h => htext (List.mem_cons_of_mem c h)), List.append_assoc, List.singleton_append]

theorem Granted.mono {m n : ℕ} (h : Granted realloc n) (hle : m ≤ n) : Granted realloc m :=
  ⟨h.memory, by have := h.size; omega⟩

/-- The lines that are read come one after another, and stop early only where something was refused. -/
theorem readLinesLoop_reads (hrealloc : Reallocates realloc) {fuel : ℕ} {s : Stream} (herror : s.error = false)
    (heof : s.eof = false) (hfuel : s.rest.length + 2 ≤ fuel) (buff : Option Bytes) (appended : List Bytes) :
    ∃ done new, readLinesLoop realloc fuel buff s appended = .ok (done, appended ++ new) ∧
      new <+: s.lines.map untilNul ∧ (done = true → new = s.lines.map untilNul ∧ s.breaks = false) ∧
      (Granted realloc s.rest.length → new = s.lines.map untilNul ∧ done = !s.breaks) := by
  induction fuel generalizing s buff appended with
  | zero => omega
  | succ fuel ih =>
    obtain ⟨ret, buff', s', hread, hline⟩ := cfReadLine_reads hrealloc buff heof herror
    rw [readLinesLoop, heof, if_neg Bool.false_ne_true, hread, Lib.ok_bind]
    cases hline with
    | failed heof' hnot =>
      refine ⟨false, [], ?_, List.nil_prefix, nofun, fun h => absurd h hnot⟩
      simp [heof']
    | @line text rest tail n hrest htext =>
      have hlines : s.lines = text :: Stream.lines { s with rest := rest } := by
        rw [Stream.lines, hrest, linesFrom_line s.breaks htext]
        rfl
      have hshort : rest.length + 2 ≤ fuel := by
        rw [hrest, List.length_append, List.length_cons] at hfuel
        omega
      obtain ⟨done, new, hloop, hnew, hdone, hall⟩ := ih (s := { s with rest := rest }) herror heof hshort
        (some (text ++ 0 :: tail)) (appended ++ [untilNul text])
      refine ⟨done, untilNul text :: new, ?_, ?_, fun h => ?_, fun h => ?_⟩
      · simpa [xstrdup, untilNul_append_nul] using hloop
      · rw [hlines, List.map_cons]
        exact List.cons_prefix_cons.mpr ⟨rfl, hnew⟩
      · rw [hlines, List.map_cons, (hdone h).1]
        exact ⟨rfl, (hdone h).2⟩
      · have hle : rest.length ≤ s.rest.length := by
          rw [hrest, List.length_append, List.length_cons]
          omega
        rw [hlines, List.map_cons, (hall (h.mono hle)).1]
        exact ⟨rfl, (hall (h.mono hle)).2⟩
    | @last tail n hmem hne hbreaks =>
      have hlines : s.lines = [s.rest] := by
        rw [Stream.lines, linesFrom_last s.breaks hmem, List.nil_append, if_neg (by simp [hne, hbreaks])]
      obtain ⟨fuel, rfl⟩ : ∃ k, fuel = k + 1 := ⟨fuel - 1, by omega⟩
      refine ⟨true, [untilNul s.rest], ?_, by rw [hlines]; exact List.prefix_refl _, fun _ => ⟨by rw [hlines]; rfl, hbreaks⟩,
        fun _ => ⟨by rw [hlines]; rfl, by rw [hbreaks]; rfl⟩⟩
      simp [xstrdup, untilNul_append_nul, readLinesLoop, Stream.ended, hbreaks]
    | nothing hmem hend =>
      have hlines : s.lines = [] := by
        rw [Stream.lines, linesFrom_last s.breaks hmem, List.nil_append, if_pos hend]
      obtain ⟨fuel, rfl⟩ : ∃ k, fuel = k + 1 := ⟨fuel - 1, by omega⟩
      refine ⟨!s.breaks, [], ?_, List.nil_prefix, fun h => ⟨by rw [hlines]; rfl, by simpa using h⟩,
        fun _ => ⟨by rw [hlines]; rfl, rfl⟩⟩
      cases hbreaks : s.breaks <;> simp [readLinesLoop, Stream.ended, hbreaks, heof]

/-- `CfReadLines` with a buffer: nothing is read or written outside of it, however it grows, and the strings that are
appended are the lines of the stream, cut at a NUL. -/
theorem cfReadLines_reads (hrealloc : Reallocates realloc) {s : Stream} (herror : s.error = false) (heof : s.eof = false)
    (buff : Option Bytes) (lines : List Bytes) :
    ∃ ret new, cfReadLines realloc (s.rest.length + 2) (some buff) s lines = .ok (ret, lines ++ new) ∧
      new <+: s.lines.map untilNul ∧ (∀ n, ret = some n → n = new.length ∧ new = s.lines.map untilNul ∧ s.breaks = false) ∧
      (Granted realloc s.rest.length → new = s.lines.map untilNul ∧ (ret = none ↔ s.breaks = true)) := by
  obtain ⟨done, new, hloop, hnew, hdone, hall⟩ := readLinesLoop_reads hrealloc herror heof (Nat.le_refl _) buff []
  refine ⟨if done then some new.length else none, new, ?_, hnew, fun n hn => ?_, fun h => ?_⟩
  · simp [cfReadLines, hloop]
  · cases done with
    | false => cases hn
    | true =>
      cases hn
      exact ⟨rfl, hdone rfl⟩
  · refine ⟨(hall h).1, ?_⟩
    rw [(hall h).2]
    cases s.breaks <;> simp

/-- Memory is never refused. -/
def plenty (old : Option Bytes) (n : ℕ) : Option Bytes := some ((old.getD [] ++ List.replicate n 0).take n)

theorem plenty_reallocates : Reallocates plenty where
  length old n buf h := by
    cases h
    rw [List.length_take, List.length_append, List.length_replicate]
    omega
  keeps old n buf h hle := by
    cases h
    rw [Option.getD_some, List.take_append, List.take_of_length_le hle]
    exact List.prefix_append _ _

/-- A line, an empty one, and one that has no end. -/
theorem cfReadLines_reads_three :
    ∃ ret new, cfReadLines plenty 6 (some none) ⟨ascii "a\n\nb", false, false, false⟩ [] = .ok (ret, [] ++ new) ∧
      new = [ascii "a", [], ascii "b"] ∧ ret ≠ none := by
  obtain ⟨ret, new, hread, -, -, hall⟩ := cfReadLines_reads plenty_reallocates (s := ⟨ascii "a\n\nb", false, false, false⟩)
    rfl rfl none []
  obtain ⟨hnew, hret⟩ := hall ⟨fun _ _ => Option.some_ne_none _, by decide⟩
  exact ⟨ret, new, hread, hnew, fun h => Bool.false_ne_true (hret.mp h)⟩

end Libntech.Files.ReadLines
