import Libntech.Containers.BufferMeaning
import Libntech.Containers.SearchReplace

/-! # What a search and replace leaves in the buffer

The statement that stores the text of a substitution is also reached when the substitution has failed. What PCRE2 then
says of the block and of the length is about neither a text nor its size, and the buffer is set to it.
-/
namespace Libntech.Containers
set_option autoImplicit false

open Libntech.Json (Bytes CString ascii)

/-! ## What comes back from PCRE2 -/

inductive Outcome where
  | refused
  | unmatched
  | substituted (result : Substitution)

/-- The pattern or the match may be refused, there may be no match, or a substitution is tried. -/
def outcome {Regex : Type} (pcre2 : Pcre2 Regex) (fresh : Memory) (b : Buffer) (pattern substitute options : CString) :
    Option Outcome := do
  let (compileOpts, substOpts) ← parseOptions options.bytes
  match pcre2.compile pattern compileOpts with
  | none => return .refused
  | some regex =>
    match pcre2.search regex b.text with
    | .error => return .refused
    | .noMatch => return .unmatched
    | .found m =>
      let substCopy ← expandCFESpecialReplacements fresh (pcre2.captureCount regex) m substitute
      return .substituted (pcre2.substitution regex b.text substOpts m (substCopy.getD substitute.bytes))

/-- The end of the function. -/
def store (fresh : Memory) (unspecified : ℕ → UInt8) (b : Buffer) : Outcome → Option (Buffer × Option String)
  | .refused => some (b, some replacementErrorMsg)
  | .unmatched => some (b, none)
  | .substituted result => do
    let (ret, block, outSize) ← substituteLoop unspecified result 2 (b.used * 2)
    let bytes ← bytesAt b.mode block outSize
    let b ← bufferSet fresh b bytes
    return (b, if 0 ≤ ret then none else some replacementErrorMsg)

theorem bufferSearchAndReplace_eq {Regex : Type} (pcre2 : Pcre2 Regex) (fresh fresh' : Memory) (unspecified : ℕ → UInt8)
    (b : Buffer) (pattern substitute options : CString) :
    bufferSearchAndReplace pcre2 fresh fresh' unspecified b pattern substitute options =
      (outcome pcre2 fresh' b pattern substitute options).bind (store fresh unspecified b) := by
  unfold bufferSearchAndReplace outcome
  cases parseOptions options.bytes with
  | none => rfl
  | some opts =>
    simp only [Option.bind_eq_bind, Option.bind_some]
    cases pcre2.compile pattern opts.1 with
    | none => rfl
    | some regex =>
      dsimp only [Buffer.text]
      cases pcre2.search regex (b.buffer.take b.used) with
      | error => rfl
      | noMatch => rfl
      | found m =>
        dsimp only
        rw [Option.bind_assoc]
        rfl

/-! ## The substitution -/

/-- The second call has a block of the size that the first one asked for. -/
theorem substituteLoop_text (unspecified : ℕ → UInt8) (count : ℕ) (text : Bytes) (size : ℕ) :
    ∃ block : Bytes, substituteLoop unspecified (.text count text) 2 size = some ((count : ℤ), block, text.length) ∧
      text.length ≤ block.length ∧ block.take text.length = text := by
  have hok : (count : ℤ) ≠ pcre2ErrorNomemory := by unfold pcre2ErrorNomemory; omega
  have henough : ∀ rest : Bytes, text.length ≤ (text ++ rest).length ∧ (text ++ rest).take text.length = text :=
    fun rest => ⟨by simp, by simp⟩
  by_cases hlt : text.length < size
  · refine ⟨_, ?_, henough (0 :: (List.range (size - (text.length + 1))).map unspecified)⟩
    rw [substituteLoop, pcre2Substitute, if_pos hlt]
    exact if_neg hok
  · refine ⟨_, ?_, henough (0 :: (List.range (text.length + 1 - (text.length + 1))).map unspecified)⟩
    rw [substituteLoop, pcre2Substitute, if_neg hlt]
    show (if pcre2ErrorNomemory = pcre2ErrorNomemory then _ else _) = _
    rw [if_pos rfl, substituteLoop, pcre2Substitute, if_pos (Nat.lt_succ_self _)]
    exact if_neg hok

theorem bytesAt_text (mode : BufferBehavior) {block text : Bytes} (hlen : text.length ≤ block.length)
    (htake : block.take text.length = text) : bytesAt mode block text.length = some text := by
  unfold bytesAt
  rw [if_pos hlen, htake]

section Store

variable {b : Buffer} (h : b.InBounds)
include h

theorem store_text (fresh : Memory) (unspecified : ℕ → UInt8) (count : ℕ) (text : Bytes) :
    ∃ b', store fresh unspecified b (.substituted (.text count text)) = some (b', none) ∧ b'.InBounds ∧
      b'.text = appended b text := by
  obtain ⟨block, hloop, hlen, htake⟩ := substituteLoop_text unspecified count text (b.used * 2)
  obtain ⟨b', hset, hleaves⟩ := bufferSet_leaves fresh text h
  refine ⟨b', ?_, hleaves.inBounds, hleaves.text⟩
  have hcount : (0 : ℤ) ≤ count := Int.natCast_nonneg count
  simp [store, hloop, bytesAt_text b.mode hlen htake, hset, hcount]

/-- A failed substitution sets the buffer to what it finds in the block. -/
theorem store_error (fresh : Memory) (unspecified : ℕ → UInt8) {code : ℤ} (length : ℕ) (hneg : code < 0)
    (hother : code ≠ pcre2ErrorNomemory) :
    store fresh unspecified b (.substituted (.error code length hneg hother)) = none ∨
      ∃ b' bytes, store fresh unspecified b (.substituted (.error code length hneg hother)) =
          some (b', some replacementErrorMsg) ∧ b'.InBounds ∧
        bytesAt b.mode ((List.range (b.used * 2)).map unspecified) length = some bytes ∧
        b'.text = appended b bytes := by
  have hloop : substituteLoop unspecified (.error code length hneg hother) 2 (b.used * 2) =
      some (code, (List.range (b.used * 2)).map unspecified, length) := by
    rw [substituteLoop, pcre2Substitute]
    exact if_neg hother
  cases hbytes : bytesAt b.mode ((List.range (b.used * 2)).map unspecified) length with
  | none => exact .inl (by simp [store, hloop, hbytes])
  | some bytes =>
    obtain ⟨b', hset, hleaves⟩ := bufferSet_leaves fresh bytes h
    refine .inr ⟨b', bytes, ?_, hleaves.inBounds, rfl, hleaves.text⟩
    simp [store, hloop, hbytes, hset, hneg]

end Store

/-! ## Failing atomically -/

/-- The buffer has the data and the size that it had. -/
def Unchanged (b b' : Buffer) : Prop := b'.used = b.used ∧ b'.text = b.text

/-- An error string leaves the buffer unchanged, and `NULL` means that it holds the new text or that nothing matches. -/
structure Settles (b : Buffer) (o : Outcome) (b' : Buffer) (err : Option String) : Prop where
  failed : err ≠ none → Unchanged b b'
  replaced : err = none → (o = .unmatched ∧ Unchanged b b') ∨
    ∃ count text, o = .substituted (.text count text) ∧ b'.text = text ∧ b'.used = text.length

/-- The outcomes that the last statements are made for. -/
def Storable (b : Buffer) : Outcome → Prop
  | .refused => True
  | .unmatched => True
  | .substituted (.text _ text) => b.mode = .cstring → 0 ∉ text
  | .substituted (.error _ length _ _) => b.text = [] ∧ length = 0

theorem appended_eq_iff (b : Buffer) (bytes : Bytes) : appended b bytes = bytes ↔ (b.mode = .cstring → 0 ∉ bytes) := by
  unfold appended
  cases b.mode with
  | bytearray => exact iff_of_true rfl nofun
  | cstring =>
    constructor
    · intro heq _ hmem
      rw [← heq] at hmem
      exact not_mem_untilNul bytes hmem
    · exact fun hfree => untilNul_eq_self (hfree rfl)

section Settles

variable {b : Buffer} (h : b.InBounds)
include h

theorem settles_text_iff (count : ℕ) (text : Bytes) :
    (∀ fresh unspecified, ∃ b' err, store fresh unspecified b (.substituted (.text count text)) = some (b', err) ∧
      Settles b (.substituted (.text count text)) b' err) ↔ (b.mode = .cstring → 0 ∉ text) := by
  rw [← appended_eq_iff]
  constructor
  · intro hall
    obtain ⟨b', hstore, -, htext⟩ := store_text h (fun _ _ => 0) (fun _ => 0) count text
    obtain ⟨_, _, heq, hsettles⟩ := hall (fun _ _ => 0) fun _ => 0
    cases hstore.symm.trans heq
    obtain ⟨⟨⟩, -⟩ | ⟨_, _, ⟨⟩, htext', -⟩ := hsettles.replaced rfl
    rw [← htext, htext']
  · intro heq fresh unspecified
    obtain ⟨b', hstore, hin, htext⟩ := store_text h fresh unspecified count text
    rw [heq] at htext
    refine ⟨b', none, hstore, fun hne => absurd rfl hne, fun _ => .inr ⟨count, text, rfl, htext, ?_⟩⟩
    rw [hin.holds.used, htext]

/-- Whatever is in the buffer, there may be something else in the block. -/
theorem exists_block (length : ℕ) (hne : ¬ (b.text = [] ∧ length = 0)) :
    ∃ unspecified : ℕ → UInt8, ∀ bytes,
      bytesAt b.mode ((List.range (b.used * 2)).map unspecified) length = some bytes → appended b bytes ≠ b.text := by
  have hused := h.holds.used
  by_cases hzero : length = 0
  · subst hzero
    refine ⟨fun _ => 0, fun bytes hbytes => ?_⟩
    obtain rfl := Option.some.inj hbytes
    have hnil : appended b [] = [] := by
      unfold appended
      cases b.mode <;> rfl
    rw [List.take_zero, hnil]
    exact fun heq => hne ⟨heq.symm, rfl⟩
  · refine ⟨fun _ => b.text.headD 0 + 1, fun bytes hbytes heq => ?_⟩
    cases htext : b.text with
    | nil =>
      -- an empty buffer has no block
      have hblock : b.used * 2 = 0 := by rw [hused, htext]; rfl
      rw [hblock] at hbytes
      unfold bytesAt at hbytes
      rw [if_neg (by simp; omega)] at hbytes
      cases hmode : b.mode <;> simp [hmode] at hbytes
    | cons c text =>
      rw [htext] at heq hbytes
      have hpos : b.used = text.length + 1 := by rw [hused, htext]; rfl
      have hhead : ∃ rest, bytes = (c + 1) :: rest := by
        obtain ⟨k, rfl⟩ := Nat.exists_eq_succ_of_ne_zero hzero
        have hsucc : b.used * 2 = (2 * text.length + 1) + 1 := by omega
        rw [hsucc, List.range_succ_eq_map, List.map_cons] at hbytes
        unfold bytesAt at hbytes
        split at hbytes
        · exact ⟨_, (Option.some.inj hbytes).symm⟩
        · split at hbytes
          · split at hbytes
            · exact ⟨_, (Option.some.inj hbytes).symm⟩
            · cases hbytes
          · cases hbytes
      obtain ⟨rest, rfl⟩ := hhead
      have hc : c + 1 ≠ c := by
        intro hc
        have := congrArg UInt8.toNat hc
        rw [UInt8.toNat_add] at this
        have hone : (1 : UInt8).toNat = 1 := rfl
        omega
      unfold appended untilNul at heq
      cases hmode : b.mode with
      | bytearray =>
        rw [hmode] at heq
        exact hc (List.cons.inj heq).1
      | cstring =>
        rw [hmode] at heq
        simp only [List.takeWhile_cons] at heq
        split at heq
        · exact hc (List.cons.inj heq).1
        · cases heq

theorem settles_error_iff {code : ℤ} (length : ℕ) (hneg : code < 0) (hother : code ≠ pcre2ErrorNomemory) :
    (∀ fresh unspecified, ∃ b' err,
      store fresh unspecified b (.substituted (.error code length hneg hother)) = some (b', err) ∧
        Settles b (.substituted (.error code length hneg hother)) b' err) ↔ b.text = [] ∧ length = 0 := by
  constructor
  · intro hall
    by_contra hne
    obtain ⟨unspecified, hblock⟩ := exists_block h length hne
    obtain ⟨b', err, hstore, hsettles⟩ := hall (fun _ _ => 0) unspecified
    obtain hnone | ⟨b'', bytes, hstore', -, hbytes, htext⟩ := store_error h (fun _ _ => 0) unspecified length hneg hother
    · rw [hnone] at hstore
      cases hstore
    · cases hstore'.symm.trans hstore
      exact hblock bytes hbytes (htext.symm.trans (hsettles.failed (by simp)).2)
  · rintro ⟨htext, rfl⟩ fresh unspecified
    have hused : b.used = 0 := by rw [h.holds.used, htext]; rfl
    have hbytes : bytesAt b.mode ((List.range (b.used * 2)).map unspecified) 0 = some [] := rfl
    obtain hnone | ⟨b', bytes, hstore, hin, hbytes', htext'⟩ := store_error h fresh unspecified 0 hneg hother
    · exfalso
      obtain ⟨b', hset, -⟩ := bufferSet_leaves fresh [] h
      have hloop : substituteLoop unspecified (.error code 0 hneg hother) 2 (b.used * 2) =
          some (code, (List.range (b.used * 2)).map unspecified, 0) := by
        rw [substituteLoop, pcre2Substitute]
        exact if_neg hother
      simp [store, hloop, hbytes, hset] at hnone
    · cases hbytes.symm.trans hbytes'
      have hnil : b'.text = [] := by
        rw [htext']
        unfold appended
        cases b.mode <;> rfl
      refine ⟨b', _, hstore, fun _ => ⟨?_, by rw [hnil, htext]⟩, fun hnone => nomatch hnone⟩
      rw [hin.holds.used, hnil, hused]
      rfl

theorem settles_iff (o : Outcome) :
    (∀ fresh unspecified, ∃ b' err, store fresh unspecified b o = some (b', err) ∧ Settles b o b' err) ↔
      Storable b o := by
  cases o with
  | refused =>
    exact iff_of_true (fun _ _ => ⟨b, _, rfl, fun _ => ⟨rfl, rfl⟩, fun hnone => nomatch hnone⟩) trivial
  | unmatched =>
    exact iff_of_true (fun _ _ => ⟨b, none, rfl, fun hne => absurd rfl hne, fun _ => .inl ⟨rfl, rfl, rfl⟩⟩) trivial
  | substituted result =>
    cases result with
    | text count text => exact settles_text_iff h count text
    | error code length hneg hother => exact settles_error_iff h length hneg hother

end Settles

/-- An error leaves the buffer as it was and a success leaves the text of the substitution,
exactly where the outcome of PCRE2 is one that can be stored: no error of the substitution, and no NUL in a text for a
C string. -/
theorem bufferSearchAndReplace_settles_iff {Regex : Type} (pcre2 : Pcre2 Regex) (fresh' : Memory) (b : Buffer)
    (pattern substitute options : CString) (h : b.InBounds) :
    (∀ fresh unspecified, ∃ b' err o,
      bufferSearchAndReplace pcre2 fresh fresh' unspecified b pattern substitute options = some (b', err) ∧
        outcome pcre2 fresh' b pattern substitute options = some o ∧ Settles b o b' err) ↔
      ∃ o, outcome pcre2 fresh' b pattern substitute options = some o ∧ Storable b o := by
  cases ho : outcome pcre2 fresh' b pattern substitute options with
  | none =>
    refine iff_of_false (fun hall => ?_) (fun ⟨o, hsome, _⟩ => nomatch hsome)
    obtain ⟨b', err, o, -, hsome, -⟩ := hall (fun _ _ => 0) fun _ => 0
    cases hsome
  | some o =>
    have hstorable : (∃ o', some o = some o' ∧ Storable b o') ↔ Storable b o := by simp
    rw [hstorable, ← settles_iff h o]
    refine forall_congr' fun fresh => forall_congr' fun unspecified => ?_
    rw [bufferSearchAndReplace_eq, ho, Option.bind_some]
    simp

/-- PCRE2 for patterns of letters, found at the start of the subject. A dollar sign that nothing follows is
`PCRE2_ERROR_BADREPLACEMENT`, right behind it. -/
def letterPcre2 : Pcre2 Bytes where
  compile pattern _ := some pattern.bytes
  captureCount _ := 0
  search pattern subject :=
    if h : pattern <+: subject then .found ⟨0, pattern.length, Nat.zero_le _, h.length_le⟩ else .noMatch
  substitution _ subject _ m replacement :=
    if replacement = [dollarSign] then .error (-35) 1 (by decide) (by decide)
    else .text 1 (subject.take m.start ++ replacement ++ subject.drop m.stop)

/-- `a` replaced by `x` in `ab`. -/
theorem bufferSearchAndReplace_settles_letter : ∃ b' err, bufferSearchAndReplace letterPcre2 (fun _ _ => 7) (fun _ _ => 7)
      (fun _ => 7) ⟨[97, 98, 0, 7], .cstring, 4, 2⟩ ⟨[97], by decide⟩ ⟨[120], by decide⟩ ⟨[], by decide⟩ = some (b', err) ∧
    err = none ∧ b'.text = [120, 98] := by
  obtain ⟨b', err, o, hrun, ho, hsettles⟩ := (bufferSearchAndReplace_settles_iff letterPcre2 (fun _ _ => 7)
    ⟨[97, 98, 0, 7], .cstring, 4, 2⟩ ⟨[97], by decide⟩ ⟨[120], by decide⟩ ⟨[], by decide⟩ ⟨rfl, by decide⟩).mpr
      ⟨.substituted (.text 1 [120, 98]), rfl, fun _ => by decide⟩ (fun _ _ => 7) (fun _ => 7)
  obtain rfl : .substituted (.text 1 [120, 98]) = o := Option.some.inj ho
  refine ⟨b', err, hrun, ?_, ?_⟩
  · cases hrun
    rfl
  · cases hrun
    rfl

/-- `a` is to be replaced by a dollar sign alone in `ab`. The call fails, and of `ab` only what PCRE2 left in the block
is there, as long as the offset of the error. -/
theorem failed_replacement_stored : ¬ ∀ fresh unspecified, ∃ b' err o,
    bufferSearchAndReplace letterPcre2 fresh (fun _ _ => 7) unspecified ⟨[97, 98, 0, 7], .cstring, 4, 2⟩
        ⟨[97], by decide⟩ ⟨[36], by decide⟩ ⟨[], by decide⟩ = some (b', err) ∧
      outcome letterPcre2 (fun _ _ => 7) ⟨[97, 98, 0, 7], .cstring, 4, 2⟩ ⟨[97], by decide⟩ ⟨[36], by decide⟩
        ⟨[], by decide⟩ = some o ∧ Settles ⟨[97, 98, 0, 7], .cstring, 4, 2⟩ o b' err := by
  intro h
  obtain ⟨b', err, o, hrun, -, hsettles⟩ := h (fun _ _ => 7) fun _ => 0
  obtain rfl : some replacementErrorMsg = err := congrArg Prod.snd (Option.some.inj hrun)
  have hused := congrArg (fun r => r.1.used) (Option.some.inj hrun)
  exact absurd (hused.trans (hsettles.failed (by simp)).1) (by decide)

end Libntech.Containers
