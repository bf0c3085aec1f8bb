import Libntech.Containers.BufferMeaning

/-! # Appending a character, with and without spare capacity

`BufferAppendChar` writes the byte itself while there is room for it, and else leaves it to `BufferAppend`, which takes
what it gets for a string in C string mode. So the two agree for every byte but one: a NUL counts on the first way and
ends the string on the second. Which way is taken depends on how much was allocated before.
-/
namespace Libntech.Containers
set_option autoImplicit false

open Libntech.Json (Bytes)

/-! ## What is seen of a buffer -/

/-- `BufferMode`, `BufferSize`, the bytes of that size at `BufferData`, and in C string mode the string there. -/
structure BufferView where
  mode : BufferBehavior
  size : ℕ
  data : Bytes
  string : Option Bytes

def BufferView.of (mode : BufferBehavior) (size : ℕ) (data array : Bytes) : BufferView where
  mode := mode
  size := size
  data := data
  string :=
    match mode with
    | .cstring => some (untilNul array)
    | .bytearray => none

def Buffer.view (b : Buffer) : BufferView := .of b.mode b.used b.text b.buffer

/-- Both return, and the same is seen of the two buffers. -/
def SameView (o o' : Option Buffer) : Prop := ∃ b b', o = some b ∧ o' = some b' ∧ b.view = b'.view

theorem untilNul_append_nul (text tail : Bytes) : untilNul (text ++ 0 :: tail) = untilNul text := by
  induction text with
  | nil => rfl
  | cons c text ih =>
    unfold untilNul at ih ⊢
    rw [List.cons_append, List.takeWhile_cons, List.takeWhile_cons, ih]

variable {b b' : Buffer} {bytes : Bytes}

theorem view_of_ends (h : b.InBounds) (hends : b.mode = .cstring → b.Ends) :
    b.view = .of b.mode b.text.length b.text b.text := by
  have hused := h.holds.used
  unfold Buffer.view BufferView.of
  cases hmode : b.mode with
  | bytearray => rw [← hused]
  | cstring =>
    obtain ⟨tail, htail⟩ := List.head?_eq_some_iff.mp (h.holds.ends_iff.mp (hends hmode))
    have hstring : untilNul b.buffer = untilNul b.text := by
      rw [h.holds.buffer, htail, untilNul_append_nul]
    rw [← hused, hstring]

theorem ends_of_write (h : b.write b.used [0] = some b') : b'.Ends := by
  obtain ⟨data, hdata, hb⟩ := Option.bind_eq_some_iff.mp h
  obtain rfl := Option.some.inj hb
  unfold writeAt at hdata
  split at hdata
  · next hroom =>
    rw [List.length_singleton] at hroom
    obtain rfl := Option.some.inj hdata
    show (_ ++ _ ++ _)[b.used]? = some 0
    rw [List.append_assoc, List.getElem?_append_right (List.length_take_le _ _), List.length_take_of_le (by omega),
      Nat.sub_self]
    rfl
  · cases hdata

/-! ## One character -/

/-- What `BufferAppendChar` takes of the byte. -/
def charAppended (b : Buffer) (byte : UInt8) : Bytes :=
  if b.used < b.capacity - 1 then [byte] else appended b [byte]

/-- What an operation that appends leaves; in C string mode it ends the text itself. -/
structure Appends (b b' : Buffer) (bytes : Bytes) : Prop where
  mode : b'.mode = b.mode
  inBounds : b'.InBounds
  text : b'.text = b.text ++ bytes
  ends : b.mode = .cstring → b'.Ends

theorem Appends.view (h : Appends b b' bytes) :
    b'.view = .of b.mode (b.text ++ bytes).length (b.text ++ bytes) (b.text ++ bytes) := by
  rw [view_of_ends h.inBounds fun hmode => h.ends (h.mode.symm.trans hmode), h.mode, h.text]

theorem bufferAppend_appends (fresh : Memory) (hne : bytes ≠ []) (h : b.InBounds) :
    ∃ b', bufferAppend fresh b bytes = some b' ∧ Appends b b' (appended b bytes) := by
  obtain ⟨b', happ, hleaves⟩ := bufferAppend_leaves fresh bytes h
  refine ⟨b', happ, hleaves.mode, hleaves.inBounds, hleaves.text, fun hmode => ?_⟩
  rw [bufferAppend, if_neg hne, hmode] at happ
  obtain ⟨b₁, -, hnul⟩ := Option.bind_eq_some_iff.mp happ
  exact ends_of_write hnul

theorem bufferAppendChar_appends (fresh : Memory) (byte : UInt8) (h : b.InBounds) :
    ∃ b', bufferAppendChar fresh b byte = some b' ∧ Appends b b' (charAppended b byte) ∧
      (b.used < b.capacity - 1 → b'.capacity = b.capacity) := by
  unfold bufferAppendChar charAppended
  by_cases hroom : b.used < b.capacity - 1
  · have hlen := h.holds.length
    rw [← h.holds.used] at hlen
    obtain ⟨b₁, hext, hholds, hmode⟩ := extend_holds [byte] h.holds (by rw [List.length_singleton]; omega)
    obtain ⟨b₂, hnul, hholds₂, hmode₂⟩ := write_nul hholds
    have hcap : ∀ {b' : Buffer} {text rest : Bytes}, BufferHolds b' text rest → text.length = b.text.length + 1 →
        rest.length = (b.buffer.drop b.used).length - 1 → b'.capacity = b.capacity := by
      intro b' text rest hb' htext hrest
      have hpos := List.length_pos_iff.mpr h.holds.room
      rw [hb'.length, htext, hrest, h.holds.length]
      omega
    have htext : (b.text ++ [byte]).length = b.text.length + 1 := List.length_append
    have hdrop := List.length_drop (i := [byte].length) (l := b.buffer.drop b.used)
    rw [if_pos hroom, if_pos hroom, hext]
    show ∃ b', (match b₁.mode with | .cstring => b₁.write b₁.used [0] | .bytearray => some b₁) = some b' ∧ _
    rw [hmode]
    cases hb : b.mode with
    | cstring =>
      refine ⟨b₂, hnul, ⟨hmode₂.trans hmode, hholds₂.inBounds, hholds₂.text_eq, fun _ => ends_of_write hnul⟩,
        fun _ => hcap hholds₂ htext ?_⟩
      rw [List.length_cons, List.length_tail, hdrop, List.length_singleton]
      have hpos := List.length_pos_iff.mpr hholds.room
      rw [hdrop, List.length_singleton] at hpos
      omega
    | bytearray =>
      refine ⟨b₁, rfl, ⟨hmode, hholds.inBounds, hholds.text_eq, fun hc => ?_⟩, fun _ => hcap hholds htext ?_⟩
      · rw [hb] at hc
        cases hc
      · rw [hdrop, List.length_singleton]
  · obtain ⟨b', happ, happends⟩ := bufferAppend_appends fresh (List.cons_ne_nil byte []) h
    rw [if_neg hroom, if_neg hroom]
    exact ⟨b', happ, happends, fun hlt => absurd hlt hroom⟩

theorem appended_char_iff (b : Buffer) (byte : UInt8) :
    appended b [byte] = [byte] ↔ b.mode = .bytearray ∨ byte ≠ 0 := by
  unfold appended
  cases b.mode with
  | bytearray => exact iff_of_true rfl (.inl rfl)
  | cstring =>
    rw [or_iff_right (by decide)]
    constructor
    · rintro h rfl
      cases h
    · exact fun hbyte => untilNul_eq_self (by simpa using hbyte.symm)

theorem charAppended_of_plain {byte : UInt8} (h : b.mode = .bytearray ∨ byte ≠ 0) :
    charAppended b byte = [byte] := by
  unfold charAppended
  rw [(appended_char_iff b byte).mpr h, ite_self]

theorem sameView_char_iff (fresh : Memory) (byte : UInt8) (h : b.InBounds) :
    SameView (bufferAppendChar fresh b byte) (bufferAppend fresh b [byte]) ↔
      b.mode = .bytearray ∨ byte ≠ 0 ∨ b.capacity ≤ b.used + 1 := by
  obtain ⟨b₁, hchar, happends₁, -⟩ := bufferAppendChar_appends fresh byte h
  obtain ⟨b₂, happ, happends₂⟩ := bufferAppend_appends fresh (List.cons_ne_nil byte []) h
  have hviews : SameView (bufferAppendChar fresh b byte) (bufferAppend fresh b [byte]) ↔
      charAppended b byte = appended b [byte] := by
    rw [hchar, happ]
    constructor
    · rintro ⟨_, _, ⟨⟩, ⟨⟩, hview⟩
      rw [happends₁.view, happends₂.view] at hview
      exact List.append_cancel_left (congrArg BufferView.data hview)
    · intro heq
      exact ⟨b₁, b₂, rfl, rfl, by rw [happends₁.view, happends₂.view, heq]⟩
  rw [hviews, charAppended, ← or_assoc, ← appended_char_iff]
  by_cases hroom : b.used < b.capacity - 1
  · rw [if_pos hroom, or_iff_left (by omega), eq_comm]
  · rw [if_neg hroom]
    have hin := h.used
    exact iff_of_true rfl (.inr (by omega))

/-! ## Runs of appends -/

inductive AppendOp where
  | append (bytes : Bytes)
  | appendChar (byte : UInt8)

def appendStep (fresh : Memory) (b : Buffer) : AppendOp → Option Buffer
  | .append bytes => bufferAppend fresh b bytes
  | .appendChar byte => bufferAppendChar fresh b byte

def appendRun (fresh : Memory) (b : Buffer) (ops : List AppendOp) : Option Buffer := ops.foldlM (appendStep fresh) b

theorem BufferView.mode_congr (h : b.view = b'.view) : b.mode = b'.mode := congrArg BufferView.mode h

theorem BufferView.text_congr (h : b.view = b'.view) : b.text = b'.text := congrArg BufferView.data h

theorem appended_congr (h : b.mode = b'.mode) (bytes : Bytes) : appended b bytes = appended b' bytes := by
  unfold appended
  rw [h]

theorem Appends.view_congr {b₁ b₁' : Buffer} (h : b.view = b'.view) (hb : Appends b b₁ bytes)
    (hb' : Appends b' b₁' bytes) : b₁.view = b₁'.view := by
  rw [hb.view, hb'.view, BufferView.mode_congr h, BufferView.text_congr h]

/-- Where no NUL is appended as a character to a string, a step sees the view only. -/
theorem appendStep_view (fresh fresh' : Memory) {op : AppendOp} (h : b.InBounds) (h' : b'.InBounds)
    (hview : b.view = b'.view) (hop : b.mode = .bytearray ∨ op ≠ .appendChar 0) :
    ∃ b₁ b₁', appendStep fresh b op = some b₁ ∧ appendStep fresh' b' op = some b₁' ∧ b₁.InBounds ∧ b₁'.InBounds ∧
      b₁.view = b₁'.view ∧ b₁.mode = b.mode := by
  have hmode := BufferView.mode_congr hview
  cases op with
  | append bytes =>
    by_cases hnil : bytes = []
    · subst hnil
      exact ⟨b, b', by rw [appendStep, bufferAppend, if_pos rfl], by rw [appendStep, bufferAppend, if_pos rfl], h, h',
        hview, rfl⟩
    · obtain ⟨b₁, happ, happends⟩ := bufferAppend_appends fresh hnil h
      obtain ⟨b₁', happ', happends'⟩ := bufferAppend_appends fresh' hnil h'
      rw [← appended_congr hmode] at happends'
      exact ⟨b₁, b₁', happ, happ', happends.inBounds, happends'.inBounds, happends.view_congr hview happends',
        happends.mode⟩
  | appendChar byte =>
    have hplain : b.mode = .bytearray ∨ byte ≠ 0 := hop.imp_right fun hne heq => hne (heq ▸ rfl)
    obtain ⟨b₁, happ, happends, -⟩ := bufferAppendChar_appends fresh byte h
    obtain ⟨b₁', happ', happends', -⟩ := bufferAppendChar_appends fresh' byte h'
    rw [charAppended_of_plain hplain] at happends
    rw [charAppended_of_plain (hmode ▸ hplain)] at happends'
    exact ⟨b₁, b₁', happ, happ', happends.inBounds, happends'.inBounds, happends.view_congr hview happends',
      happends.mode⟩

theorem appendRun_view (fresh fresh' : Memory) (ops : List AppendOp) (h : b.InBounds) (h' : b'.InBounds)
    (hview : b.view = b'.view) (hops : b.mode = .bytearray ∨ .appendChar 0 ∉ ops) :
    SameView (appendRun fresh b ops) (appendRun fresh' b' ops) := by
  induction ops generalizing b b' with
  | nil => exact ⟨b, b', rfl, rfl, hview⟩
  | cons op ops ih =>
    have hop : b.mode = .bytearray ∨ op ≠ .appendChar 0 :=
      hops.imp_right fun hnot heq => hnot (heq ▸ List.mem_cons_self)
    obtain ⟨b₁, b₁', hstep, hstep', h₁, h₁', hview₁, hmode⟩ := appendStep_view fresh fresh' h h' hview hop
    unfold appendRun
    rw [List.foldlM_cons, List.foldlM_cons, hstep, hstep']
    exact ih h₁ h₁' hview₁ (hmode ▸ hops.imp_right fun hnot hmem => hnot (List.mem_cons_of_mem _ hmem))

/-- Characters appended to a buffer. -/
def charRun (fresh : Memory) (b : Buffer) (cs : Bytes) : Option Buffer := appendRun fresh b (cs.map .appendChar)

theorem charRun_cons (fresh : Memory) (b : Buffer) (c : UInt8) (cs : Bytes) :
    charRun fresh b (c :: cs) = (bufferAppendChar fresh b c).bind (charRun fresh · cs) := rfl

theorem charRun_append (fresh : Memory) (b : Buffer) (cs ds : Bytes) :
    charRun fresh b (cs ++ ds) = (charRun fresh b cs).bind (charRun fresh · ds) := by
  unfold charRun appendRun
  rw [List.map_append, List.foldlM_append]
  rfl

theorem charRun_fits (fresh : Memory) (cs : Bytes) (h : b.InBounds) (hroom : b.used + cs.length < b.capacity) :
    ∃ b', charRun fresh b cs = some b' ∧ b'.InBounds ∧ b'.text = b.text ++ cs ∧ b'.mode = b.mode ∧
      b'.capacity = b.capacity := by
  induction cs generalizing b with
  | nil => exact ⟨b, rfl, h, (List.append_nil _).symm, rfl, rfl⟩
  | cons c cs ih =>
    rw [List.length_cons] at hroom
    obtain ⟨b₁, hchar, happends, hcap⟩ := bufferAppendChar_appends fresh c h
    have htext := happends.text
    rw [charAppended, if_pos (by omega)] at htext
    have hcap₁ := hcap (by omega)
    have hused : b₁.used = b.used + 1 := by
      rw [happends.inBounds.holds.used, htext, List.length_append, h.holds.used]
      rfl
    obtain ⟨b', hrun, hin, htext', hmode, hcap'⟩ := ih happends.inBounds (by omega)
    refine ⟨b', ?_, hin, ?_, hmode.trans happends.mode, hcap'.trans hcap₁⟩
    · rw [charRun_cons, hchar]
      exact hrun
    · rw [htext', htext, List.append_assoc]
      rfl

theorem charRun_length_le (fresh : Memory) (cs : Bytes) (h : b.InBounds) :
    ∃ b', charRun fresh b cs = some b' ∧ b'.text.length ≤ b.text.length + cs.length := by
  induction cs generalizing b with
  | nil => exact ⟨b, rfl, Nat.le_refl _⟩
  | cons c cs ih =>
    obtain ⟨b₁, hchar, happends, -⟩ := bufferAppendChar_appends fresh c h
    obtain ⟨b', hrun, hle⟩ := ih happends.inBounds
    have hone : (charAppended b c).length ≤ 1 := by
      unfold charAppended appended untilNul
      split
      · exact Nat.le_refl _
      · cases b.mode with
        | bytearray => exact Nat.le_refl _
        | cstring => exact List.takeWhile_sublist _ |>.length_le
    refine ⟨b', ?_, ?_⟩
    · rw [charRun_cons, hchar]
      exact hrun
    · rw [happends.text, List.length_append] at hle
      rw [List.length_cons]
      omega

/-! ## New buffers -/

/-- A new buffer of some capacity, in some mode, with characters appended to it. -/
def newWith (fresh : Memory) (capacity : ℕ) (mode : BufferBehavior) (cs : Bytes) : Option Buffer := do
  let b ← bufferNewWithCapacity fresh capacity
  charRun fresh (bufferSetMode b mode) cs

theorem newWith_start (fresh : Memory) {capacity : ℕ} (mode : BufferBehavior) (h : 1 ≤ capacity) :
    ∃ b : Buffer, (∀ cs, newWith fresh capacity mode cs = charRun fresh b cs) ∧ b.InBounds ∧ b.text = [] ∧ b.mode = mode ∧
      b.capacity = capacity ∧ b.Ends := by
  obtain ⟨b, hnew, hin, htext, hends⟩ := bufferNew_inBounds fresh capacity h
  have hcap : b.capacity = capacity := by
    obtain ⟨_, -, hb⟩ := Option.bind_eq_some_iff.mp hnew
    obtain rfl := Option.some.inj hb
    rfl
  have hused : b.used = 0 := by rw [hin.holds.used, htext, List.length_nil]
  have hset : bufferSetMode b mode = { b with mode := mode } := by
    cases mode with
    | bytearray => rfl
    | cstring =>
      unfold bufferSetMode
      rw [hused]
      rfl
  refine ⟨{ b with mode := mode }, fun cs => ?_, ⟨hin.capacity, hin.used⟩, htext, rfl, hcap, hends⟩
  unfold newWith
  rw [hnew, ← hset]
  rfl

theorem newWith_iff (mode : BufferBehavior) (cs : Bytes) :
    (∀ fresh fresh' capacity capacity', 1 ≤ capacity → 1 ≤ capacity' →
      SameView (newWith fresh capacity mode cs) (newWith fresh' capacity' mode cs)) ↔ mode = .bytearray ∨ 0 ∉ cs := by
  constructor
  · intro h
    by_contra hnul
    rw [not_or, not_not] at hnul
    obtain ⟨hmode, hmem⟩ := hnul
    obtain ⟨before, after, rfl⟩ := List.append_of_mem hmem
    -- just enough room for what stands before the NUL, and room for everything
    obtain ⟨b, hrun, hin, htext, hbmode, hcap, -⟩ :=
      newWith_start (fun _ _ => 0) mode (Nat.le_add_left 1 before.length)
    obtain ⟨b', hrun', hin', htext', -, hcap', -⟩ :=
      newWith_start (fun _ _ => 0) mode (Nat.le_add_left 1 (before ++ 0 :: after).length)
    have hused : b.used = 0 := by rw [hin.holds.used, htext, List.length_nil]
    have hused' : b'.used = 0 := by rw [hin'.holds.used, htext', List.length_nil]
    obtain ⟨b₁, hbefore, hin₁, htext₁, hmode₁, hcap₁⟩ := charRun_fits (fun _ _ => 0) before hin (by omega)
    obtain ⟨b₂, hnul, happends, -⟩ := bufferAppendChar_appends (fun _ _ => 0) 0 hin₁
    obtain ⟨b₃, hafter, hle⟩ := charRun_length_le (fun _ _ => 0) after happends.inBounds
    obtain ⟨b₁', hall, -, hall_text, -⟩ := charRun_fits (fun _ _ => 0) (before ++ 0 :: after) hin' (by omega)
    have hfull : ¬ b₁.used < b₁.capacity - 1 := by
      rw [hin₁.holds.used, htext₁, htext, hcap₁, hcap]
      simp
    have hstring : b₁.mode = .cstring := by
      rw [hmode₁, hbmode]
      cases mode with
      | cstring => rfl
      | bytearray => exact absurd rfl hmode
    have hdropped : charAppended b₁ 0 = [] := by
      rw [charAppended, if_neg hfull, appended, hstring]
      rfl
    obtain ⟨_, _, heq, heq', hview⟩ := h (fun _ _ => 0) (fun _ _ => 0) (before.length + 1)
      ((before ++ 0 :: after).length + 1) (Nat.le_add_left 1 _) (Nat.le_add_left 1 _)
    rw [hrun, charRun_append, hbefore, Option.bind_some, charRun_cons, hnul, Option.bind_some, hafter] at heq
    rw [hrun', hall] at heq'
    obtain rfl := Option.some.inj heq
    obtain rfl := Option.some.inj heq'
    have hlen := congrArg List.length (BufferView.text_congr hview)
    rw [hall_text, htext'] at hlen
    rw [happends.text, hdropped, htext₁, htext] at hle
    simp at hlen hle
    omega
  · intro hplain fresh fresh' capacity capacity' hcapacity hcapacity'
    obtain ⟨b, hrun, hin, htext, hmode, -, hends⟩ := newWith_start fresh mode hcapacity
    obtain ⟨b', hrun', hin', htext', hmode', -, hends'⟩ := newWith_start fresh' mode hcapacity'
    rw [hrun, hrun']
    refine appendRun_view fresh fresh' (cs.map .appendChar) hin hin' ?_ ?_
    · rw [view_of_ends hin fun _ => hends, view_of_ends hin' fun _ => hends', hmode, hmode', htext, htext']
    · rw [hmode]
      exact hplain.imp_right fun hnot hmem => hnot (by simpa using hmem)

/-- `BufferAppendChar` does what `BufferAppend` of the one byte does except for a NUL that it has room for in a string.
So what runs of appends leave does not depend on what was allocated, as long as there is no such NUL; and where there
is one among characters that are appended to a new buffer, it does. -/
theorem bufferAppendChar_iff (fresh fresh' : Memory) (b : Buffer) (h : b.InBounds) :
    (∀ byte, SameView (bufferAppendChar fresh b byte) (bufferAppend fresh b [byte]) ↔
      b.mode = .bytearray ∨ byte ≠ 0 ∨ b.capacity ≤ b.used + 1) ∧
    (∀ (b' : Buffer) (ops : List AppendOp), b'.InBounds → b.view = b'.view →
      (b.mode = .bytearray ∨ .appendChar 0 ∉ ops) →
      SameView (appendRun fresh b ops) (appendRun fresh' b' ops)) ∧
    ∀ (mode : BufferBehavior) (cs : Bytes),
      (∀ fresh fresh' capacity capacity', 1 ≤ capacity → 1 ≤ capacity' →
        SameView (newWith fresh capacity mode cs) (newWith fresh' capacity' mode cs)) ↔ mode = .bytearray ∨ 0 ∉ cs :=
  ⟨fun byte => sameView_char_iff fresh byte h,
    fun _ ops h' hview hops => appendRun_view fresh fresh' ops h h' hview hops, newWith_iff⟩

/-- An `a` appended to buffers of two and of four bytes. -/
theorem bufferAppendChar_iff_letter :
    SameView (bufferAppendChar (fun _ _ => 7) ⟨[0, 7], .cstring, 2, 0⟩ 97)
        (bufferAppend (fun _ _ => 7) ⟨[0, 7], .cstring, 2, 0⟩ [97]) ∧
      SameView (appendRun (fun _ _ => 7) ⟨[0, 7], .cstring, 2, 0⟩ [.appendChar 97])
        (appendRun (fun _ _ => 7) ⟨[0, 7, 7, 7], .cstring, 4, 0⟩ [.appendChar 97]) :=
  have hiff := bufferAppendChar_iff (fun _ _ => 7) (fun _ _ => 7) ⟨[0, 7], .cstring, 2, 0⟩ ⟨rfl, by decide⟩
  ⟨(hiff.1 97).mpr (.inr (.inl (by decide))),
    hiff.2.1 ⟨[0, 7, 7, 7], .cstring, 4, 0⟩ [.appendChar 97] ⟨rfl, by decide⟩ rfl (.inr (by simp))⟩

/-- A NUL appended to an empty string with room for it: the size is 1 afterwards, or 0. -/
theorem nul_appended : ¬ SameView (bufferAppendChar (fun _ _ => 7) ⟨[0, 7, 7, 7], .cstring, 4, 0⟩ 0)
    (bufferAppend (fun _ _ => 7) ⟨[0, 7, 7, 7], .cstring, 4, 0⟩ [0]) := by
  rintro ⟨b, b', hb, hb', hview⟩
  obtain rfl := Option.some.inj hb
  obtain rfl := Option.some.inj hb'
  exact absurd (congrArg BufferView.size hview) (by decide)

end Libntech.Containers
