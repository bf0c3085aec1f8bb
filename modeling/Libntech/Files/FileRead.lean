import Libntech.Containers.BufferMeaning
import Libntech.Files.Transfers

/-! # Reading a file into a string (`libutils/file_lib.c`, `libutils/writer.c`)

A run that comes to the end of the replies of `read` has no result.
-/
namespace Libntech.Files
set_option autoImplicit false

open Libntech.Json (Bytes)
open Libntech.Containers (Memory writeAt xrealloc untilNul)

/-! ## StringWriter -/

structure StringWriterImpl where
  data : Bytes
  len : ℕ
  allocated : ℕ

/-- `xstrdup("")` -/
def stringWriter : StringWriterImpl := ⟨[0], 0, 1⟩

def stringWriterReallocate (fresh : Memory) (w : StringWriterImpl) (extraLength : ℕ) : StringWriterImpl :=
  let allocated := max (w.allocated * 2) (w.len + extraLength + 1)
  { w with allocated := allocated, data := xrealloc fresh w.data allocated }

/-- The length is measured by `strnlen`. -/
def stringWriterWriteLen (fresh : Memory) (w : StringWriterImpl) (str : Bytes) (len_ : ℕ) : Option StringWriterImpl := do
  let str := untilNul (str.take len_)
  let w := if w.len + str.length + 1 > w.allocated then stringWriterReallocate fresh w str.length else w
  let data ← writeAt w.data w.len str
  let data ← writeAt data (w.len + str.length) [0]
  return { w with data := data, len := w.len + str.length }

/-! ## FileReadFromFd -/

def readBufsize : ℕ := 4096

/-- `for (;;)`, with what is left of the file. `NULL` is `none`, inside. -/
def fileReadLoop (fresh : Memory) (maxSize : ℕ) :
    List Reply → Bytes → StringWriterImpl → Option (Option (StringWriterImpl × Bool))
  | [], _, _ => none
  | .error errno :: replies, rest, w =>
    if errno ≠ eintr then some none else fileReadLoop fresh maxSize replies rest w
  | .ok limit :: replies, rest, w =>
    let buf := rest.take (transferred limit readBufsize)
    if buf.length = 0 then some (some (w, false))
    else if buf.length + w.len > maxSize then do
      let w ← stringWriterWriteLen fresh w buf (maxSize - w.len)
      return some (w, true)
    else do
      let w ← stringWriterWriteLen fresh w buf buf.length
      fileReadLoop fresh maxSize replies (rest.drop buf.length) w

/-- The writer, and `*truncated`. -/
def fileReadFromFd (fresh : Memory) (replies : List Reply) (content : Bytes) (maxSize : ℕ) :
    Option (Option (StringWriterImpl × Bool)) :=
  fileReadLoop fresh maxSize replies content stringWriter

/-! ## What a writer holds -/

/-- The text, and a NUL behind it. -/
structure Written (w : StringWriterImpl) (text : Bytes) : Prop where
  data : ∃ rest, w.data = text ++ 0 :: rest
  len : w.len = text.length
  allocated : w.allocated = w.data.length

theorem written_nil : Written stringWriter [] := ⟨⟨[], rfl⟩, rfl, rfl⟩

theorem Written.unique {w : StringWriterImpl} {text text' : Bytes} (h : Written w text) (h' : Written w text') :
    text = text' := by
  obtain ⟨rest, hdata⟩ := h.data
  obtain ⟨rest', hdata'⟩ := h'.data
  rw [hdata] at hdata'
  exact List.append_inj_left hdata' (h.len.symm.trans h'.len)

/-- Where there is room, the bytes and the NUL are written behind the text. -/
theorem writeAt_terminated (text : Bytes) {rest str : Bytes} (h : str.length < rest.length) :
    ∃ data rest', writeAt (text ++ rest) text.length str = some data ∧
      writeAt data (text.length + str.length) [0] = some (text ++ str ++ 0 :: rest') ∧
      (text ++ str ++ 0 :: rest').length = (text ++ rest).length := by
  have hroom : (rest.drop str.length).length = rest.length - str.length := List.length_drop
  refine ⟨_, (rest.drop str.length).drop 1, Containers.writeAt_append (Nat.le_of_lt h), ?_, ?_⟩
  · rw [← List.length_append, Containers.writeAt_append (by rw [hroom, List.length_singleton]; omega)]
    simp
  · simp only [List.length_append, List.length_cons, List.length_drop]
    omega

theorem stringWriterWriteLen_written (fresh : Memory) {w : StringWriterImpl} {text : Bytes} (str : Bytes) (len : ℕ)
    (h : Written w text) :
    ∃ w', stringWriterWriteLen fresh w str len = some w' ∧ Written w' (text ++ untilNul (str.take len)) := by
  unfold stringWriterWriteLen
  dsimp only
  generalize untilNul (str.take len) = str
  -- behind the text there is room for the bytes and a NUL, in the old array or in the new one
  have hroom : ∃ rest, (if w.len + str.length + 1 > w.allocated then stringWriterReallocate fresh w str.length else w)
      = ⟨text ++ rest, text.length, (text ++ rest).length⟩ ∧ str.length < rest.length := by
    obtain ⟨⟨rest, hdata⟩, hlen, hallocated⟩ := h
    obtain ⟨data, len, allocated⟩ := w
    dsimp only at hdata hlen hallocated ⊢
    subst hdata hlen hallocated
    simp only [List.length_append, List.length_cons]
    split
    · rename_i hfull
      have hgrows : (text ++ 0 :: rest).length ≤
          max ((text.length + (rest.length + 1)) * 2) (text.length + str.length + 1) := by
        rw [List.length_append, List.length_cons]
        omega
      obtain ⟨more, hmore, hlength⟩ := Containers.xrealloc_eq fresh (text ++ 0 :: rest) _ hgrows
      refine ⟨0 :: rest ++ more, ?_, ?_⟩
      · rw [stringWriterReallocate, hmore]
        simp only [List.length_append, List.length_cons, List.append_assoc, StringWriterImpl.mk.injEq, true_and] at hlength ⊢
        omega
      · simp only [List.length_append, List.length_cons] at hlength ⊢
        omega
    · exact ⟨0 :: rest, rfl, by rw [List.length_cons]; omega⟩
  obtain ⟨rest, hw, hlen⟩ := hroom
  obtain ⟨data, rest', hfirst, hsecond, hlength⟩ := writeAt_terminated text hlen
  rw [hw]
  dsimp only
  rw [hfirst, Option.bind_eq_bind, Option.bind_some, hsecond, Option.bind_some]
  exact ⟨_, rfl, ⟨rest', rfl⟩, by simp only [List.length_append], hlength.symm⟩

/-! ## What is read -/

section Reading

variable (fresh : Memory) {maxSize : ℕ}

theorem fileReadLoop_no_nul (replies : List Reply) : ∀ {rest text : Bytes} {w w' : StringWriterImpl} {truncated : Bool},
    Written w text → 0 ∉ text → fileReadLoop fresh maxSize replies rest w = some (some (w', truncated)) →
      ∃ text', Written w' text' ∧ 0 ∉ text' := by
  induction replies with
  | nil => exact fun _ _ => nofun
  | cons reply replies ih =>
    intro rest text w w' truncated hw htext hrun
    have happend : ∀ str len, ∃ w₁, stringWriterWriteLen fresh w str len = some w₁ ∧ ∃ text', Written w₁ text' ∧ 0 ∉ text' := by
      intro str len
      obtain ⟨w₁, hrun₁, hw₁⟩ := stringWriterWriteLen_written fresh str len hw
      exact ⟨w₁, hrun₁, _, hw₁, by simp [htext, Containers.not_mem_untilNul]⟩
    cases reply with
    | error errno =>
      rw [fileReadLoop] at hrun
      split at hrun
      · cases hrun
      · exact ih hw htext hrun
    | ok limit =>
      rw [fileReadLoop] at hrun
      split at hrun
      · cases hrun
        exact ⟨text, hw, htext⟩
      · split at hrun
        · obtain ⟨w₁, hwrite, hkept⟩ := happend (rest.take (transferred limit readBufsize)) (maxSize - w.len)
          rw [hwrite, Option.bind_eq_bind, Option.bind_some] at hrun
          cases hrun
          exact hkept
        · obtain ⟨w₁, hwrite, text', hw', htext'⟩ := happend (rest.take (transferred limit readBufsize)) _
          rw [hwrite, Option.bind_eq_bind, Option.bind_some] at hrun
          exact ih hw' htext' hrun

/-- Without a NUL in what is to be kept, all of it is there at the end. -/
theorem fileReadLoop_reads (replies : List Reply) : ∀ {front rest : Bytes} {w : StringWriterImpl},
    NoFailure replies → rest.length < transfers replies → Written w front → front.length ≤ maxSize →
      0 ∉ (front ++ rest).take maxSize →
      ∃ w', fileReadLoop fresh maxSize replies rest w = some (some (w', decide (maxSize < (front ++ rest).length))) ∧
        Written w' ((front ++ rest).take maxSize) := by
  induction replies with
  | nil => exact fun _ hlong => absurd hlong (Nat.not_lt_zero _)
  | cons reply replies ih =>
    intro front rest w hreads hlong hw hfits hnul
    cases reply with
    | error errno =>
      rw [fileReadLoop, if_neg (not_not.mpr hreads.first)]
      exact ih hreads.rest (by simpa using hlong) hw hfits hnul
    | ok limit =>
      rw [fileReadLoop]
      have hsplit : rest.take (transferred limit readBufsize) ++ rest.drop (transferred limit readBufsize) = rest :=
        List.take_append_drop _ _
      have hempty : rest.take (transferred limit readBufsize) = [] → rest = [] := by
        intro hnil
        rcases List.take_eq_nil_iff.mp hnil with hzero | hrest
        · exact absurd hzero (by unfold transferred readBufsize; omega)
        · exact hrest
      rw [drop_taken]
      generalize rest.take (transferred limit readBufsize) = buf at hsplit hempty
      generalize rest.drop (transferred limit readBufsize) = rest' at hsplit
      subst hsplit
      split
      · rename_i hzero
        obtain rfl := List.length_eq_zero_iff.mp hzero
        obtain rfl : rest' = [] := by simpa using hempty rfl
        refine ⟨w, ?_, ?_⟩
        · rw [List.append_nil, List.append_nil, decide_eq_false (Nat.not_lt.mpr hfits)]
        · rw [List.append_nil, List.append_nil, List.take_of_length_le hfits]
          exact hw
      · rename_i hsome
        rw [hw.len]
        split
        · rename_i hover
          -- what is kept of the last chunk is in front of the limit
          have hkept : (front ++ (buf ++ rest')).take maxSize = front ++ buf.take (maxSize - front.length) := by
            rw [List.take_append, List.take_of_length_le hfits, List.take_append_of_le_length (by omega)]
          rw [hkept] at hnul ⊢
          obtain ⟨w', hwrite, hw'⟩ := stringWriterWriteLen_written fresh buf (maxSize - front.length) hw
          rw [Containers.untilNul_eq_self (fun hmem => hnul (List.mem_append_right _ hmem))] at hw'
          refine ⟨w', ?_, hw'⟩
          rw [hwrite, decide_eq_true (by simp only [List.length_append]; omega)]
          rfl
        · rename_i hunder
          obtain ⟨w', hwrite, hw'⟩ := stringWriterWriteLen_written fresh buf buf.length hw
          have hfits' : (front ++ buf).length ≤ maxSize := by
            rw [List.length_append]
            omega
          rw [← List.append_assoc] at hnul ⊢
          have hplain : 0 ∉ front ++ buf := by
            rw [List.take_append, List.take_of_length_le hfits'] at hnul
            exact fun hmem => hnul (List.mem_append_left _ hmem)
          rw [List.take_length, Containers.untilNul_eq_self fun hmem => hplain (List.mem_append_right _ hmem)] at hw'
          rw [hwrite, Option.bind_eq_bind, Option.bind_some]
          refine ih hreads.rest ?_ hw' hfits' hnul
          rw [transfers_ok, List.length_append] at hlong
          omega

end Reading

/-- The first bytes of the file are read, however the calls split them, exactly when there is no NUL among them. -/
theorem fileReadFromFd_reads_iff (fresh : Memory) (content : Bytes) (maxSize : ℕ) (replies : List Reply)
    (hreads : NoFailure replies) (hlong : content.length < transfers replies) :
    (∃ w, fileReadFromFd fresh replies content maxSize = some (some (w, decide (maxSize < content.length))) ∧
      Written w (content.take maxSize)) ↔ 0 ∉ content.take maxSize := by
  constructor
  · rintro ⟨w, hrun, hw⟩
    obtain ⟨text, htext, hnul⟩ := fileReadLoop_no_nul fresh replies written_nil List.not_mem_nil hrun
    rw [hw.unique htext]
    exact hnul
  · intro hnul
    obtain ⟨w, hrun, hw⟩ := fileReadLoop_reads fresh replies hreads hlong written_nil (Nat.zero_le _) hnul
    exact ⟨w, hrun, hw⟩

/-- `ab` in two pieces, with an interruption, of at most one byte. -/
theorem fileReadFromFd_reads_letters :
    (∃ w, fileReadFromFd (fun _ _ => 7) [.ok 0, .error eintr, .ok 0, .ok 0] [97, 98] 1 =
      some (some (w, decide (1 < [97, 98].length))) ∧ Written w ([97, 98].take 1)) ↔ 0 ∉ ([97, 98] : Bytes).take 1 :=
  fileReadFromFd_reads_iff _ _ _ _ (by simp [NoFailure]) (by decide)

/-- A file of three bytes with a NUL in the middle, read at once. -/
theorem read_cut_at_nul : ¬ ∃ w, fileReadFromFd (fun _ _ => 7) [.ok 4095, .ok 4095] [97, 0, 98] 10 = some (some (w, false)) ∧
    Written w [97, 0, 98] := by
  rintro ⟨w, hrun, hw⟩
  have hread : fileReadFromFd (fun _ _ => 7) [.ok 4095, .ok 4095] [97, 0, 98] 10 = some (some (⟨[97, 0], 1, 2⟩, false)) := rfl
  rw [hread] at hrun
  cases hrun
  exact absurd hw.len (by decide)

end Libntech.Files
