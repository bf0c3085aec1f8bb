import Libntech.Containers.Buffer
import Libntech.Lib.Terminated

/-! # The representation of a buffer

A buffer holds a text with more bytes of its array behind it (`BufferHolds`). Every operation takes what the buffer
holds to what it holds afterwards, and writes only inside the array. In C string mode the text has no NUL and the byte
behind it is one. Most operations see to that themselves; `BufferSetMode` relies on a NUL that is there already, and the
formatted text is taken as it is.
-/
namespace Libntech.Containers
set_option autoImplicit false

open Libntech.Json (Bytes CString)

/-! ## What a buffer holds -/

/-- The used bytes, and the bytes behind them. -/
structure BufferHolds (b : Buffer) (text rest : Bytes) : Prop where
  buffer : b.buffer = text ++ rest
  used : b.used = text.length
  capacity : b.capacity = b.buffer.length
  room : rest ≠ []

structure Buffer.InBounds (b : Buffer) : Prop where
  capacity : b.capacity = b.buffer.length
  used : b.used < b.capacity

def Buffer.text (b : Buffer) : Bytes := b.buffer.take b.used

/-- The byte behind the used ones is a NUL. -/
def Buffer.Ends (b : Buffer) : Prop := b.buffer[b.used]? = some 0

/-- In C string mode the size of the buffer is the length of the string. -/
def Buffer.Terminated (b : Buffer) : Prop := b.mode = .cstring → b.Ends ∧ 0 ∉ b.text

section Holds

variable {b : Buffer} {text rest : Bytes} (h : BufferHolds b text rest)
include h

theorem BufferHolds.text_eq : b.text = text := by
  rw [Buffer.text, h.buffer, h.used, List.take_left]

theorem BufferHolds.ends_iff : b.Ends ↔ rest.head? = some 0 := by
  rw [Buffer.Ends, h.buffer, h.used, List.getElem?_append_right (Nat.le_refl _), Nat.sub_self, List.head?_eq_getElem?]

theorem BufferHolds.length : b.capacity = text.length + rest.length := by
  rw [h.capacity, h.buffer, List.length_append]

theorem BufferHolds.inBounds : b.InBounds := by
  have hroom := List.length_pos_iff.mpr h.room
  refine ⟨h.capacity, ?_⟩
  rw [h.length, h.used]
  omega

end Holds

variable {b : Buffer} {bytes rest : Bytes}

theorem Buffer.InBounds.holds (h : b.InBounds) : BufferHolds b b.text (b.buffer.drop b.used) where
  buffer := (List.take_append_drop _ _).symm
  used := by rw [Buffer.text, List.length_take_of_le (h.capacity ▸ Nat.le_of_lt h.used)]
  capacity := h.capacity
  room := by
    rw [ne_eq, List.drop_eq_nil_iff, Nat.not_le]
    exact h.capacity ▸ h.used

/-! ## Writing -/

theorem writeAt_append {text : Bytes} (h : bytes.length ≤ rest.length) :
    writeAt (text ++ rest) text.length bytes = some (text ++ bytes ++ rest.drop bytes.length) := by
  rw [writeAt, if_pos (by rw [List.length_append]; omega), List.take_left, ← List.drop_drop, List.drop_left]

theorem write_used {text : Bytes} (bytes : Bytes) (h : BufferHolds b text rest) (hlen : bytes.length ≤ rest.length)
    (hne : bytes ≠ []) :
    ∃ b', b.write b.used bytes = some b' ∧ BufferHolds b' text (bytes ++ rest.drop bytes.length) ∧ b'.mode = b.mode := by
  refine ⟨{ b with buffer := text ++ bytes ++ rest.drop bytes.length }, ?_, ⟨?_, h.used, ?_, ?_⟩, rfl⟩
  · rw [Buffer.write, h.buffer, h.used, writeAt_append hlen]
    rfl
  · rw [List.append_assoc]
  · show b.capacity = _
    rw [h.length, List.length_append, List.length_append, List.length_drop]
    omega
  · simp [hne]

theorem write_nul {text : Bytes} (h : BufferHolds b text rest) :
    ∃ b', b.write b.used [0] = some b' ∧ BufferHolds b' text (0 :: rest.tail) ∧ b'.mode = b.mode := by
  obtain ⟨b', hb, hholds, hmode⟩ := write_used [0] h (List.length_pos_iff.mpr h.room) (by simp)
  rw [List.length_singleton, List.drop_one] at hholds
  exact ⟨b', hb, hholds, hmode⟩

theorem extend_holds {text : Bytes} (bytes : Bytes) (h : BufferHolds b text rest) (hlen : bytes.length < rest.length) :
    ∃ b', b.extend bytes = some b' ∧ BufferHolds b' (text ++ bytes) (rest.drop bytes.length) ∧ b'.mode = b.mode := by
  refine ⟨{ b with buffer := text ++ bytes ++ rest.drop bytes.length, used := b.used + bytes.length }, ?_,
    ⟨rfl, ?_, ?_, ?_⟩, rfl⟩
  · rw [Buffer.extend, Buffer.write, h.buffer, h.used, writeAt_append (Nat.le_of_lt hlen)]
    rfl
  · show b.used + bytes.length = _
    rw [h.used, List.length_append]
  · show b.capacity = _
    rw [h.length, List.length_append, List.length_append, List.length_drop]
    omega
  · rw [ne_eq, List.drop_eq_nil_iff, Nat.not_le]
    exact hlen

/-! ## Allocation -/

theorem le_upperPowerOfTwo (v : ℕ) : v < Buffer.upperPowerOfTwo (v + 1) := by
  have hor : ∀ x k : ℕ, x ≤ x ||| x >>> k := fun x k => Nat.left_le_or
  rw [Buffer.upperPowerOfTwo, Nat.add_sub_cancel]
  exact Nat.lt_succ_of_le (((((hor _ 1).trans (hor _ 2)).trans (hor _ 4)).trans (hor _ 8)).trans (hor _ 16))

theorem xrealloc_eq (fresh : Memory) (data : Bytes) (size : ℕ) (h : data.length ≤ size) :
    ∃ more, xrealloc fresh data size = data ++ more ∧ more.length = size - data.length := by
  refine ⟨_, by rw [xrealloc, List.take_of_length_le h], ?_⟩
  rw [List.length_map, List.length_range]

/-- Afterwards the array has more bytes than are needed, with the old ones in front. -/
theorem expandIfNeeded_holds (fresh : Memory) {text : Bytes} (needed : ℕ) (h : BufferHolds b text rest) :
    ∃ rest', BufferHolds (expandIfNeeded fresh b needed) text rest' ∧ needed < text.length + rest'.length ∧
      (expandIfNeeded fresh b needed).mode = b.mode ∧ (expandIfNeeded fresh b needed).used = b.used ∧
      rest'.head? = rest.head? := by
  unfold expandIfNeeded
  by_cases hneed : b.capacity ≤ needed
  · have hgrow := le_upperPowerOfTwo needed
    obtain ⟨more, hdata, hlen⟩ := xrealloc_eq fresh b.buffer (Buffer.upperPowerOfTwo (needed + 1))
      (by rw [← h.capacity]; omega)
    rw [← h.capacity] at hlen
    rw [if_pos hneed]
    refine ⟨rest ++ more, ⟨?_, h.used, ?_, ?_⟩, ?_, rfl, rfl, ?_⟩
    · show xrealloc _ _ _ = _
      rw [hdata, h.buffer, List.append_assoc]
    · show Buffer.upperPowerOfTwo _ = (xrealloc _ _ _).length
      rw [hdata, List.length_append, ← h.capacity]
      omega
    · simp [h.room]
    · have hcap := h.length
      rw [List.length_append]
      omega
    · rw [List.head?_append_of_ne_nil _ h.room]
  · rw [if_neg hneed]
    exact ⟨rest, h, by rw [← h.length]; omega, rfl, rfl, rfl⟩

/-! ## What an operation leaves -/

/-- An operation leaves the buffer with a text, inside its array; in C string mode the text still ends. -/
structure Leaves (b b' : Buffer) (text : Bytes) : Prop where
  mode : b'.mode = b.mode
  inBounds : b'.InBounds
  text : b'.text = text
  ends : b.mode = .cstring → b.Ends → b'.Ends

theorem BufferHolds.leaves {b' : Buffer} {text : Bytes} (h : BufferHolds b' text rest) (hmode : b'.mode = b.mode)
    (hends : b.mode = .cstring → b.Ends → rest.head? = some 0) : Leaves b b' text where
  mode := hmode
  inBounds := h.inBounds
  text := h.text_eq
  ends := fun hc he => h.ends_iff.mpr (hends hc he)

theorem Leaves.refl (h : b.InBounds) : Leaves b b b.text := ⟨rfl, h, rfl, fun _ he => he⟩

theorem Leaves.trans {b₁ b₂ : Buffer} {text₁ text₂ : Bytes} (h₁ : Leaves b b₁ text₁) (h₂ : Leaves b₁ b₂ text₂) :
    Leaves b b₂ text₂ where
  mode := h₂.mode.trans h₁.mode
  inBounds := h₂.inBounds
  text := h₂.text
  ends := fun hc he => h₂.ends (h₁.mode.trans hc) (h₁.ends hc he)

theorem Leaves.terminated_iff {b' : Buffer} {text : Bytes} (h : Leaves b b' text) (hb : b.Terminated) :
    b'.Terminated ↔ (b.mode = .cstring → 0 ∉ text) := by
  rw [Buffer.Terminated, h.mode, h.text]
  constructor
  · intro hterm hc
    exact (hterm hc).2
  · intro htext hc
    exact ⟨h.ends hc (hb hc).1, htext hc⟩

/-! ## Appending -/

theorem not_mem_untilNul (bytes : Bytes) : 0 ∉ untilNul bytes := Lib.notMem_takeWhile_ne 0 bytes

theorem untilNul_eq_self (h : 0 ∉ bytes) : untilNul bytes = bytes := Lib.takeWhile_ne_self h

theorem untilNul_split (h : 0 ∈ bytes) : ∃ tail, bytes = untilNul bytes ++ 0 :: tail := by
  induction bytes with
  | nil => exact absurd h List.not_mem_nil
  | cons c bytes ih =>
    by_cases hc : c = 0
    · subst hc
      exact ⟨bytes, rfl⟩
    · obtain ⟨tail, htail⟩ := ih (List.mem_of_ne_of_mem (Ne.symm hc) h)
      refine ⟨tail, ?_⟩
      rw [untilNul, List.takeWhile_cons_of_pos (by simpa using hc), List.cons_append]
      exact congrArg _ htail

theorem expand_extend (fresh : Memory) {needed : ℕ} (bytes : Bytes) (h : b.InBounds)
    (hneed : b.used + bytes.length ≤ needed) :
    ∃ b' rest', (expandIfNeeded fresh b needed).extend bytes = some b' ∧ b'.mode = b.mode ∧
      BufferHolds b' (b.text ++ bytes) rest' := by
  obtain ⟨rest, hholds, hroom, hmode, -, -⟩ := expandIfNeeded_holds fresh needed h.holds
  rw [← h.holds.used] at hroom
  obtain ⟨b', hext, hholds', hmode'⟩ := extend_holds bytes hholds (by omega)
  exact ⟨b', _, hext, hmode'.trans hmode, hholds'⟩

theorem expand_extend_nul (fresh : Memory) (h : b.InBounds) :
    ∃ b', ((expandIfNeeded fresh b (b.used + bytes.length + 1)).extend bytes >>= fun b => b.write b.used [0]) =
      some b' ∧ Leaves b b' (b.text ++ bytes) := by
  obtain ⟨b₁, rest₁, hext, hmode, hholds⟩ := expand_extend fresh bytes h (Nat.le_succ _)
  obtain ⟨b₂, hnul, hholds₂, hmode₂⟩ := write_nul hholds
  refine ⟨b₂, ?_, hholds₂.leaves (hmode₂.trans hmode) fun _ _ => rfl⟩
  rw [hext]
  exact hnul

/-- What `BufferAppend` takes of the bytes. -/
def appended (b : Buffer) (bytes : Bytes) : Bytes :=
  match b.mode with
  | .cstring => untilNul bytes
  | .bytearray => bytes

theorem bufferAppend_leaves (fresh : Memory) (bytes : Bytes) (h : b.InBounds) :
    ∃ b', bufferAppend fresh b bytes = some b' ∧ Leaves b b' (b.text ++ appended b bytes) := by
  rw [bufferAppend, appended]
  by_cases hnil : bytes = []
  · subst hnil
    refine ⟨b, by rw [if_pos rfl], ?_⟩
    cases b.mode <;> simpa [untilNul] using Leaves.refl h
  · rw [if_neg hnil]
    cases hmode : b.mode with
    | cstring => exact expand_extend_nul fresh h
    | bytearray =>
      obtain ⟨b', rest', hext, hmode', hholds⟩ := expand_extend fresh bytes h (Nat.le_refl _)
      refine ⟨b', hext, hholds.leaves hmode' fun hc => ?_⟩
      rw [hmode] at hc
      exact absurd hc (by decide)

theorem bufferAppendString_leaves (fresh : Memory) (str : CString) (h : b.InBounds) :
    ∃ b', bufferAppendString fresh b str = some b' ∧ Leaves b b' (b.text ++ str.bytes) :=
  expand_extend_nul fresh h

theorem bufferAppendChar_leaves (fresh : Memory) (byte : UInt8) (h : b.InBounds) :
    ∃ b' text, bufferAppendChar fresh b byte = some b' ∧ Leaves b b' (b.text ++ text) ∧ (byte ≠ 0 → text = [byte]) := by
  rw [bufferAppendChar]
  by_cases hroom : b.used < b.capacity - 1
  · rw [if_pos hroom]
    have hlen := h.holds.length
    rw [← h.holds.used] at hlen
    obtain ⟨b₁, hext, hholds, hmode⟩ := extend_holds [byte] h.holds (by rw [List.length_singleton]; omega)
    obtain ⟨b₂, hnul, hholds₂, hmode₂⟩ := write_nul hholds
    rw [hext]
    show ∃ b' text, (match b₁.mode with | .cstring => b₁.write b₁.used [0] | .bytearray => some b₁) = some b' ∧ _
    rw [hmode]
    cases hb : b.mode with
    | cstring => exact ⟨b₂, [byte], hnul, hholds₂.leaves (hmode₂.trans hmode) fun _ _ => rfl, fun _ => rfl⟩
    | bytearray =>
      refine ⟨b₁, [byte], rfl, hholds.leaves hmode fun hc => ?_, fun _ => rfl⟩
      rw [hb] at hc
      exact absurd hc (by decide)
  · rw [if_neg hroom]
    obtain ⟨b', happ, hleaves⟩ := bufferAppend_leaves fresh [byte] h
    refine ⟨b', _, happ, hleaves, fun hbyte => ?_⟩
    rw [appended, untilNul_eq_self (by simpa using hbyte.symm)]
    cases b.mode <;> rfl

/-! ## Formatted text -/

section Formatted

variable {b : Buffer} {text rest : Bytes} (formatted : Bytes)

theorem vsnprintf_fits (hbuffer : b.buffer = text ++ rest) (hlen : formatted.length < rest.length) :
    vsnprintf b text.length rest.length formatted =
      some { b with buffer := text ++ formatted ++ 0 :: rest.drop (formatted.length + 1) } := by
  have hwritten : (formatted ++ [0]).length ≤ rest.length := by
    rw [List.length_append, List.length_singleton]
    omega
  rw [vsnprintf, if_neg (by omega), List.take_of_length_le (by omega), Buffer.write, hbuffer, writeAt_append hwritten]
  simp

theorem vsnprintf_short (hbuffer : b.buffer = text ++ rest) (hroom : rest ≠ []) (hlen : rest.length ≤ formatted.length) :
    vsnprintf b text.length rest.length formatted =
      some { b with buffer := text ++ (formatted.take (rest.length - 1) ++ [0]) } := by
  have hpos := List.length_pos_iff.mpr hroom
  have hwritten : (formatted.take (rest.length - 1) ++ [0]).length = rest.length := by
    rw [List.length_append, List.length_singleton, List.length_take]
    omega
  rw [vsnprintf, if_neg (by omega), Buffer.write, hbuffer, writeAt_append (by omega), hwritten, List.drop_length,
    List.append_nil]
  rfl

theorem BufferHolds.fits (h : BufferHolds b text rest) (hlen : formatted.length < rest.length) :
    BufferHolds { b with buffer := text ++ formatted ++ 0 :: rest.drop (formatted.length + 1),
                         used := text.length + formatted.length }
      (text ++ formatted) (0 :: rest.drop (formatted.length + 1)) where
  buffer := rfl
  used := (List.length_append ..).symm
  capacity := by
    show b.capacity = _
    rw [h.length, List.length_append, List.length_append, List.length_cons, List.length_drop]
    omega
  room := List.cons_ne_nil _ _

theorem BufferHolds.short (h : BufferHolds b text rest) (hlen : rest.length ≤ formatted.length) :
    BufferHolds { b with buffer := text ++ (formatted.take (rest.length - 1) ++ [0]) } text
      (formatted.take (rest.length - 1) ++ [0]) where
  buffer := rfl
  used := h.used
  capacity := by
    have hroom := List.length_pos_iff.mpr h.room
    show b.capacity = _
    rw [h.length, List.length_append, List.length_append, List.length_take, List.length_singleton]
    omega
  room := by simp

end Formatted

theorem bufferAppendF_leaves (fresh : Memory) (formatted : Bytes) (h : b.InBounds) :
    ∃ b', bufferAppendF fresh b formatted = some b' ∧ Leaves b b' (b.text ++ formatted) := by
  obtain ⟨text, rest, hb⟩ : ∃ text rest, BufferHolds b text rest := ⟨_, _, h.holds⟩
  have hsize : b.capacity - b.used = rest.length := by
    rw [hb.length, hb.used, Nat.add_sub_cancel_left]
  rw [bufferAppendF, hsize, hb.used, hb.text_eq]
  by_cases hlen : rest.length ≤ formatted.length
  · obtain ⟨rest₂, hb₂, hneed, hmode, -, -⟩ := expandIfNeeded_holds fresh (b.used + formatted.length) (hb.short formatted hlen)
    have hused := hb.used
    have hsize₂ := Nat.sub_eq_of_eq_add' hb₂.length
    refine ⟨_, ?_, (hb₂.fits formatted (by omega)).leaves hmode fun _ _ => rfl⟩
    rw [vsnprintf_short formatted hb.buffer hb.room hlen, Option.bind_eq_bind, Option.bind_some]
    dsimp only
    rw [if_pos (by rw [hsize]; exact hlen), hb₂.used, hsize₂, vsnprintf_fits formatted hb₂.buffer (by omega),
      Option.bind_some, hb₂.used]
    rfl
  · refine ⟨_, ?_, (hb.fits formatted (Nat.lt_of_not_le hlen)).leaves rfl fun _ _ => rfl⟩
    rw [vsnprintf_fits formatted hb.buffer (Nat.lt_of_not_le hlen), Option.bind_eq_bind, Option.bind_some]
    dsimp only
    rw [if_neg (by rw [hsize]; exact hlen), hb.used]
    rfl

theorem Buffer.InBounds.cleared (h : b.InBounds) : BufferHolds { b with used := 0 } [] b.buffer where
  buffer := rfl
  used := rfl
  capacity := h.capacity
  room := List.ne_nil_of_length_pos (h.capacity ▸ Nat.zero_lt_of_lt h.used)

theorem vsnprintf_start_fits (formatted : Bytes) (hlen : formatted.length < b.buffer.length) :
    vsnprintf b 0 b.buffer.length formatted =
      some { b with buffer := formatted ++ 0 :: b.buffer.drop (formatted.length + 1) } :=
  vsnprintf_fits formatted (List.nil_append b.buffer).symm hlen

theorem vsnprintf_start_short (formatted : Bytes) (hroom : b.buffer ≠ []) (hlen : b.buffer.length ≤ formatted.length) :
    vsnprintf b 0 b.buffer.length formatted =
      some { b with buffer := formatted.take (b.buffer.length - 1) ++ [0] } :=
  vsnprintf_short formatted (List.nil_append b.buffer).symm hroom hlen

theorem bufferPrintf_leaves (fresh : Memory) (formatted : Bytes) (h : b.InBounds) :
    ∃ b', bufferPrintf fresh b (.text formatted) = some b' ∧ Leaves b b' formatted := by
  have hb := h.cleared
  rw [bufferPrintf, h.capacity]
  by_cases hlen : b.buffer.length ≤ formatted.length
  · have hshort := hb.short formatted hlen
    have hin : Buffer.InBounds { b with buffer := formatted.take (b.buffer.length - 1) ++ [0] } :=
      ⟨hshort.capacity, h.used⟩
    obtain ⟨rest₂, hb₂, hneed, hmode, -, -⟩ := expandIfNeeded_holds fresh formatted.length hin.holds
    have hin₂ := hb₂.inBounds
    rw [← hb₂.length, hin₂.capacity] at hneed
    have hfits := hin₂.cleared.fits formatted hneed
    refine ⟨_, ?_, hfits.leaves hmode fun _ _ => rfl⟩
    rw [vsnprintf_start_short formatted hb.room hlen, Option.bind_eq_bind, Option.bind_some]
    dsimp only
    have hsecond := vsnprintf_start_fits formatted (b := { expandIfNeeded fresh
      { b with buffer := formatted.take (b.buffer.length - 1) ++ [0] } formatted.length with used := 0 }) hneed
    dsimp only at hsecond
    rw [← hin₂.capacity] at hsecond
    rw [if_pos (by rw [h.capacity]; exact hlen), hsecond, Option.bind_some, List.length_nil, Nat.zero_add]
    rfl
  · have hfits := hb.fits formatted (Nat.lt_of_not_le hlen)
    refine ⟨_, ?_, hfits.leaves rfl fun _ _ => rfl⟩
    rw [vsnprintf_start_fits formatted (Nat.lt_of_not_le hlen), Option.bind_eq_bind, Option.bind_some]
    dsimp only
    rw [if_neg (by rw [h.capacity]; exact hlen), List.length_nil, Nat.zero_add]
    rfl

/-! ## Replacing and trimming -/

theorem bufferClear_leaves (h : b.InBounds) : ∃ b', bufferClear b = some b' ∧ Leaves b b' [] := by
  obtain ⟨b', hwrite, hholds, hmode⟩ := write_nul h.cleared
  exact ⟨b', hwrite, hholds.leaves hmode fun _ _ => rfl⟩

theorem bufferSet_leaves (fresh : Memory) (bytes : Bytes) (h : b.InBounds) :
    ∃ b', bufferSet fresh b bytes = some b' ∧ Leaves b b' (appended b bytes) := by
  obtain ⟨b₁, hclear, hleaves₁⟩ := bufferClear_leaves h
  obtain ⟨b₂, happ, hleaves₂⟩ := bufferAppend_leaves fresh bytes hleaves₁.inBounds
  rw [hleaves₁.text, List.nil_append, appended, hleaves₁.mode] at hleaves₂
  refine ⟨b₂, ?_, hleaves₁.trans hleaves₂⟩
  rw [bufferSet, hclear]
  exact happ

theorem bufferTrimToMaxLength_leaves (max : ℕ) (h : b.InBounds) :
    ∃ b', bufferTrimToMaxLength b max = some b' ∧ Leaves b b' (b.text.take max) := by
  rw [bufferTrimToMaxLength]
  by_cases hmax : max < b.used
  · have hin : Buffer.InBounds { b with used := max } := ⟨h.capacity, Nat.lt_trans hmax h.used⟩
    obtain ⟨b', hwrite, hholds, hmode⟩ := write_nul hin.holds
    have htext : Buffer.text { b with used := max } = b.text.take max := by
      rw [Buffer.text, Buffer.text, List.take_take, Nat.min_eq_left (Nat.le_of_lt hmax)]
    rw [htext] at hholds
    exact ⟨b', by rw [if_pos hmax]; exact hwrite, hholds.leaves hmode fun _ _ => rfl⟩
  · have htext : b.text.take max = b.text := by
      rw [List.take_of_length_le]
      rw [← h.holds.used]
      omega
    rw [htext]
    exact ⟨b, by rw [if_neg hmax], Leaves.refl h⟩

theorem bufferNew_inBounds (fresh : Memory) (capacity : ℕ) (h : 1 ≤ capacity) :
    ∃ b, bufferNewWithCapacity fresh capacity = some b ∧ b.InBounds ∧ b.text = [] ∧ b.Ends := by
  have hin : Buffer.InBounds ⟨xmalloc fresh capacity, .cstring, capacity, 0⟩ := by
    refine ⟨?_, h⟩
    show capacity = (xmalloc fresh capacity).length
    rw [xmalloc, List.length_map, List.length_range]
  obtain ⟨b, hclear, hleaves⟩ := bufferClear_leaves hin
  obtain ⟨b', hwrite, hholds, -⟩ := write_nul hin.cleared
  have heq : b = b' := Option.some.inj (hclear.symm.trans hwrite)
  subst heq
  exact ⟨b, hwrite, hleaves.inBounds, hleaves.text, hholds.ends_iff.mpr rfl⟩

theorem foldlM_appendChar (fresh : Memory) (filter : UInt8 → Bool) (invert : Bool) (bytes : Bytes) (h : b.InBounds) :
    ∃ b', bytes.foldlM (fun filtered c => if filter c ^^ invert then bufferAppendChar fresh filtered c
      else some filtered) b = some b' ∧ b'.InBounds := by
  induction bytes generalizing b with
  | nil => exact ⟨b, rfl, h⟩
  | cons c bytes ih =>
    rw [List.foldlM_cons]
    by_cases hc : (filter c ^^ invert) = true
    · obtain ⟨b₁, text, happ, hleaves, -⟩ := bufferAppendChar_leaves fresh c h
      rw [if_pos hc, happ]
      exact ih hleaves.inBounds
    · rw [if_neg hc]
      exact ih h

theorem bufferRewrite_leaves (fresh fresh' : Memory) (filter : UInt8 → Bool) (invert : Bool) (h : b.InBounds) :
    ∃ b' bytes, bufferRewrite fresh fresh' b filter invert = some b' ∧ Leaves b b' (appended b bytes) := by
  obtain ⟨empty, hnew, hempty, -, -⟩ := bufferNew_inBounds fresh' defaultBufferCapacity (by decide)
  obtain ⟨filtered, hfold, -⟩ := foldlM_appendChar fresh' filter invert b.text hempty
  obtain ⟨b', hset, hleaves⟩ := bufferSet_leaves fresh (filtered.buffer.take filtered.used) h
  refine ⟨b', _, ?_, hleaves⟩
  have hfilter : bufferFilter fresh' b filter invert = some filtered := by
    rw [bufferFilter, bufferNew, hnew]
    exact hfold
  rw [bufferRewrite, hfilter]
  exact hset

/-! ## Changing the mode -/

theorem BufferHolds.setMode_found {text : Bytes} (h : BufferHolds b text rest) (hz : 0 ∈ text) :
    ∃ tail, BufferHolds (bufferSetMode b .cstring) (untilNul text) (0 :: (tail ++ rest)) := by
  obtain ⟨tail, htail⟩ := untilNul_split hz
  refine ⟨tail, ?_, ?_, h.capacity, List.cons_ne_nil _ _⟩
  · show b.buffer = _
    rw [h.buffer]
    conv_lhs => rw [htail]
    rw [List.append_assoc, List.cons_append]
  · show (untilNul b.text).length = _
    rw [h.text_eq]

theorem BufferHolds.setMode_absent {text : Bytes} (h : BufferHolds b text rest) (hz : 0 ∉ text) :
    BufferHolds (bufferSetMode b .cstring) text rest where
  buffer := h.buffer
  used := by
    show (untilNul b.text).length = _
    rw [h.text_eq, untilNul_eq_self hz]
  capacity := h.capacity
  room := h.room

theorem bufferSetMode_inBounds (mode : BufferBehavior) (h : b.InBounds) :
    (bufferSetMode b mode).InBounds := by
  cases mode with
  | bytearray => exact ⟨h.capacity, h.used⟩
  | cstring =>
    by_cases hz : 0 ∈ b.text
    · obtain ⟨tail, hholds⟩ := h.holds.setMode_found hz
      exact hholds.inBounds
    · exact (h.holds.setMode_absent hz).inBounds

/-- The byte that ends the text is in it, or stood behind it before. -/
theorem bufferSetMode_terminated (h : b.InBounds) :
    (bufferSetMode b .cstring).Terminated ↔ 0 ∈ b.text ∨ b.Ends := by
  by_cases hz : 0 ∈ b.text
  · obtain ⟨tail, hholds⟩ := h.holds.setMode_found hz
    refine iff_of_true (fun _ => ⟨hholds.ends_iff.mpr rfl, ?_⟩) (Or.inl hz)
    rw [hholds.text_eq]
    exact not_mem_untilNul _
  · have hholds := h.holds.setMode_absent hz
    have hends := hholds.ends_iff.trans h.holds.ends_iff.symm
    rw [or_iff_right hz, ← hends]
    constructor
    · intro hterm
      exact (hterm rfl).1
    · intro he _
      rw [hholds.text_eq]
      exact ⟨he, hz⟩

/-! ## One operation -/

/-- What an operation relies on for the text to end where the buffer says. -/
def TextKept (b : Buffer) : BufferOp → Prop
  | .setMode .cstring => 0 ∈ b.text ∨ b.Ends
  | .appendF formatted => b.mode = .cstring → 0 ∉ formatted
  | .printf (.text formatted) => b.mode = .cstring → 0 ∉ formatted
  | .printf (.failed written) => b.mode = .cstring → 0 ∉ written.take b.used ∧ written.getD b.used 0 = 0
  | _ => True

theorem bufferPrintf_failed (fresh : Memory) (written : Bytes) (h : b.InBounds) :
    ∃ b', bufferPrintf fresh b (.failed written) = some b' ∧ b'.InBounds ∧
      (b.Terminated → (b'.Terminated ↔ TextKept b (.printf (.failed written)))) := by
  obtain ⟨w, hw⟩ : ∃ w, written.take b.capacity = w := ⟨_, rfl⟩
  have hlen : w.length ≤ b.buffer.length := by
    rw [← hw, List.length_take, h.capacity]
    exact Nat.min_le_left _ _
  have hwritten : bufferPrintf fresh b (.failed written) = some { b with buffer := w ++ b.buffer.drop w.length } := by
    rw [bufferPrintf, hw, Buffer.write, writeAt, Nat.zero_add, if_pos hlen]
    rfl
  have htake : written.take b.used = w.take b.used := by
    rw [← hw, List.take_take, Nat.min_eq_left (Nat.le_of_lt h.used)]
  have hat : written[b.used]? = w[b.used]? := by
    rw [← hw, List.getElem?_take_of_lt h.used]
  refine ⟨_, hwritten, ⟨?_, h.used⟩, fun hterm => forall_congr' fun hc => ?_⟩
  · show b.capacity = _
    rw [List.length_append, List.length_drop, h.capacity]
    omega
  · obtain ⟨hends, hfree⟩ := hterm hc
    rw [Buffer.Ends, Buffer.text, htake, List.getD_eq_getElem?_getD, hat, List.take_append, List.mem_append, and_comm,
      List.getElem?_append]
    have hrest : 0 ∉ (b.buffer.drop w.length).take (b.used - w.length) := by
      intro hz
      rw [← List.drop_take] at hz
      exact hfree (List.mem_of_mem_drop hz)
    rw [or_iff_left hrest]
    refine and_congr_right fun _ => ?_
    by_cases hin : b.used < w.length
    · rw [if_pos hin, List.getElem?_eq_getElem hin]
      simp
    · rw [if_neg hin, List.getElem?_drop, Nat.add_sub_cancel' (Nat.le_of_not_lt hin),
        List.getElem?_eq_none (Nat.le_of_not_lt hin)]
      exact iff_of_true hends rfl

theorem bufferStep_holds (fresh fresh' : Memory) (op : BufferOp) (h : b.InBounds) :
    ∃ b', bufferStep fresh fresh' b op = some b' ∧ b'.InBounds ∧ (b.Terminated → (b'.Terminated ↔ TextKept b op)) := by
  have hkept : ∀ {b' text}, Leaves b b' text → (b.Terminated → b.mode = .cstring → 0 ∉ text) →
      b'.InBounds ∧ (b.Terminated → (b'.Terminated ↔ True)) := fun hleaves htext =>
    ⟨hleaves.inBounds, fun hterm => iff_of_true ((hleaves.terminated_iff hterm).mpr (htext hterm)) trivial⟩
  have happended : ∀ bytes, b.mode = .cstring → 0 ∉ appended b bytes := by
    intro bytes hc
    rw [appended, hc]
    exact not_mem_untilNul bytes
  cases op with
  | set bytes =>
    obtain ⟨b', hset, hleaves⟩ := bufferSet_leaves fresh bytes h
    exact ⟨b', hset, hkept hleaves fun _ hc => happended bytes hc⟩
  | append bytes =>
    obtain ⟨b', happ, hleaves⟩ := bufferAppend_leaves fresh bytes h
    refine ⟨b', happ, hkept hleaves fun hterm hc => ?_⟩
    rw [List.mem_append]
    exact not_or.mpr ⟨(hterm hc).2, happended bytes hc⟩
  | appendString str =>
    obtain ⟨b', happ, hleaves⟩ := bufferAppendString_leaves fresh str h
    refine ⟨b', happ, hkept hleaves fun hterm hc => ?_⟩
    rw [List.mem_append]
    exact not_or.mpr ⟨(hterm hc).2, str.nul_free⟩
  | appendChar byte hbyte =>
    obtain ⟨b', text, happ, hleaves, htext⟩ := bufferAppendChar_leaves fresh byte h
    rw [htext hbyte] at hleaves
    refine ⟨b', happ, hkept hleaves fun hterm hc => ?_⟩
    rw [List.mem_append, List.mem_singleton]
    exact not_or.mpr ⟨(hterm hc).2, Ne.symm hbyte⟩
  | appendF formatted =>
    obtain ⟨b', happ, hleaves⟩ := bufferAppendF_leaves fresh formatted h
    refine ⟨b', happ, hleaves.inBounds, fun hterm => (hleaves.terminated_iff hterm).trans ?_⟩
    refine forall_congr' fun hc => ?_
    rw [List.mem_append, or_iff_right (hterm hc).2]
  | printf printed =>
    cases printed with
    | text formatted =>
      obtain ⟨b', hprint, hleaves⟩ := bufferPrintf_leaves fresh formatted h
      exact ⟨b', hprint, hleaves.inBounds, hleaves.terminated_iff⟩
    | failed written => exact bufferPrintf_failed fresh written h
  | trimToMaxLength max =>
    obtain ⟨b', htrim, hleaves⟩ := bufferTrimToMaxLength_leaves max h
    exact ⟨b', htrim, hkept hleaves fun hterm hc hz => (hterm hc).2 (List.mem_of_mem_take hz)⟩
  | clear =>
    obtain ⟨b', hclear, hleaves⟩ := bufferClear_leaves h
    exact ⟨b', hclear, hkept hleaves fun _ _ => List.not_mem_nil⟩
  | setMode mode =>
    refine ⟨_, rfl, bufferSetMode_inBounds mode h, fun _ => ?_⟩
    cases mode with
    | cstring => exact bufferSetMode_terminated h
    | bytearray => exact iff_of_true (fun hc => nomatch hc) trivial
  | rewrite filter invert =>
    obtain ⟨b', bytes, hrewrite, hleaves⟩ := bufferRewrite_leaves fresh fresh' filter invert h
    exact ⟨b', hrewrite, hkept hleaves fun _ hc => happended bytes hc⟩

/-! ## Runs -/

theorem BufferReaches.inBounds {P : Buffer → BufferOp → Prop} {start : Buffer} (hstart : start.InBounds)
    (h : BufferReaches P start b) : b.InBounds := by
  induction h with
  | start => exact hstart
  | step fresh fresh' op _ _ hstep ih =>
    obtain ⟨b', hb', hin, -⟩ := bufferStep_holds fresh fresh' op ih
    rw [hstep] at hb'
    exact Option.some.inj hb' ▸ hin

theorem BufferReaches.terminated {start : Buffer} (hstart : start.InBounds) (hterm : start.Terminated)
    (h : BufferReaches TextKept start b) : b.Terminated := by
  induction h with
  | start => exact hterm
  | step fresh fresh' op hprev hkept hstep ih =>
    obtain ⟨b', hb', -, hiff⟩ := bufferStep_holds fresh fresh' op (hprev.inBounds hstart)
    rw [hstep] at hb'
    exact Option.some.inj hb' ▸ (hiff ih).mpr hkept

def strlen (data : Bytes) : ℕ := (untilNul data).length

end Libntech.Containers
