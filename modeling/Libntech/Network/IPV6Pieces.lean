import Libntech.Network.IPAddressMeaning

/-! # What the IPv6 parser accepts

A text without brackets is read piece by piece, from colon to colon. The groups before `::` stand in their places
(`plainScan`); the ones behind it are kept apart (`packedScan`). From what a colon does to each of the two follows which
lists of pieces are accepted, and what is stored for them (`Accepts`).
-/
namespace Libntech.Network
set_option autoImplicit false

open Libntech.Json (Bytes ascii)

/-! ## Texts as pieces -/

def joined (pieces : List Bytes) : Bytes := [':'.toUInt8].intercalate pieces

theorem joined_singleton (piece : Bytes) : joined [piece] = piece := List.intercalate_singleton

variable {middle pieces : List Bytes} {last piece : Bytes} {address : IPV6Address} {c : UInt8} {s : Scan}
  {groups : List ℕ}

theorem joined_cons (piece : Bytes) (h : pieces ≠ []) :
    joined (piece :: pieces) = piece ++ ':'.toUInt8 :: joined pieces := by
  obtain ⟨next, rest, rfl⟩ := List.exists_cons_of_ne_nil h
  simp [joined]

theorem joined_splitOn (text : Bytes) : joined (text.splitOn ':'.toUInt8) = text := List.intercalate_splitOn _

theorem splitOn_joined (hne : pieces ≠ []) (h : ∀ piece ∈ pieces, ':'.toUInt8 ∉ piece) :
    (joined pieces).splitOn ':'.toUInt8 = pieces := List.splitOn_intercalate _ h hne

theorem mem_joined_of_mem (hpiece : piece ∈ pieces) (hc : c ∈ piece) : c ∈ joined pieces := by
  induction pieces with
  | nil => cases hpiece
  | cons first rest ih =>
    cases rest with
    | nil =>
      rw [joined_singleton, ← List.mem_singleton.mp hpiece]
      exact hc
    | cons next rest =>
      rw [joined_cons first (by simp), List.mem_append, List.mem_cons]
      cases hpiece with
      | head => exact .inl hc
      | tail _ hpiece => exact .inr (.inr (ih hpiece))

theorem not_mem_splitOn {text : Bytes} (h : piece ∈ text.splitOn ':'.toUInt8) : ':'.toUInt8 ∉ piece := by
  induction text generalizing piece with
  | nil => simp_all
  | cons c text ih =>
    rw [List.splitOn_cons_eq_if_modifyHead] at h
    obtain ⟨first, rest, hsplit⟩ := List.exists_cons_of_ne_nil (List.splitOn_ne_nil ':'.toUInt8 text)
    rw [hsplit] at h ih
    by_cases hc : c = ':'.toUInt8
    · simp [hc] at h
      rcases h with rfl | h
      · simp
      · exact ih (by simpa using h)
    · simp [hc] at h
      rcases h with rfl | h
      · simpa [Ne.symm hc] using ih List.mem_cons_self
      · exact ih (List.mem_cons_of_mem _ h)

/-! ## Pieces -/

/-- The number that hex digits stand for. -/
def hexadecimal (piece : Bytes) : ℕ := piece.foldl char2Hex 0

/-- Hex digits in lower case. -/
def LowerHex (piece : Bytes) : Prop := ∀ c ∈ piece, isxdigit c = true ∧ isupper c = false

/-- A piece that is read to its end. -/
structure Legible (piece : Bytes) : Prop where
  lower : LowerHex piece
  bound : hexadecimal piece ≤ 0xFFFF

theorem le_foldl_char2Hex (piece : Bytes) (n : ℕ) : n ≤ piece.foldl char2Hex n := by
  induction piece generalizing n with
  | nil => exact Nat.le_refl n
  | cons c piece ih =>
    have hstep : n ≤ char2Hex n c := by
      simp only [char2Hex]
      split_ifs <;> omega
    exact Nat.le_trans hstep (ih _)

/-- A scan that reads characters. -/
structure Ready (s : Scan) : Prop where
  state : s.state ≤ 7
  settled : s.stateChange = false
  bracket : s.bracketExpected = false
  upper : s.isUpperHexdigit = false
  port : s.port ≤ 65535

/-- The variables behind hex digits. -/
def Scan.read (s : Scan) (piece : Bytes) : Scan :=
  { s with sixteen := piece.foldl char2Hex s.sixteen, charCounter := s.charCounter + piece.length }

theorem Ready.read (h : Ready s) (piece : Bytes) : Ready (s.read piece) :=
  ⟨h.state, h.settled, h.bracket, h.upper, h.port⟩

/-- The rest of a text. -/
def run (s : Scan) (text : Bytes) : Option IPV6Address := (scan s text).bind finish

theorem run_cons (s : Scan) (c : UInt8) (text : Bytes) : run s (c :: text) = (step s c).bind fun s => run s text := by
  rw [run, scan_cons, Option.bind_assoc]
  rfl

theorem run_error (text : Bytes) (h : s.state = 11) : run s text = none := by
  cases text with
  | nil =>
    show finish s = none
    rw [finish, h]
    rfl
  | cons c text =>
    rw [run_cons, step_error c h]
    rfl

section Characters

variable {s : Scan} {c : UInt8}

theorem step_lower (h : Ready s) (hx : isxdigit c = true) (hl : isupper c = false) :
    step s c = if char2Hex s.sixteen c ≤ 0xFFFF then some (s.read [c]) else none := by
  have hopen : c ≠ '['.toUInt8 := by
    rintro rfl
    exact absurd hx (by decide)
  have hnoted : s.noted (upperAfter s.isUpperHexdigit c) = s := by
    have hupper : upperAfter s.isUpperHexdigit c = s.isUpperHexdigit := by simp [upperAfter, hl, h.upper]
    rw [hupper]
    rfl
  have hdigit : s.hexdigit c = { s with sixteen := char2Hex s.sixteen c } := by simp [Scan.hexdigit, h.upper]
  rw [step_eq, hnoted, transition_hexdigit s h.state hx hopen, hdigit, Option.bind_some]
  split
  next hle =>
    have hsettle := settle_eq ({ s with sixteen := char2Hex s.sixteen c } : Scan).counted ⟨hle, h.port⟩
    rw [hsettle]
    exact congrArg some (if_neg (by simp [Scan.counted, h.settled]))
  next hle => exact if_pos (Nat.lt_of_not_le hle)

theorem step_unread {t : Scan} (h : Ready s) (hopen : c ≠ '['.toUInt8) (hcolon : c ≠ ':'.toUInt8)
    (hc : ¬ (isxdigit c = true ∧ isupper c = false)) (hstep : step s c = some t) : t.state = 11 := by
  rw [step_eq, Option.bind_eq_some_iff] at hstep
  obtain ⟨u, hu, hsettle⟩ := hstep
  have hstate : t.state = u.counted.state := settle_state hsettle
  cases hx : isxdigit c with
  | true =>
    have hupper : isupper c = true := by simpa [hx] using hc
    have hdigit : isdigit c = false := by
      simp only [isupper, Bool.and_eq_true, decide_eq_true_eq] at hupper
      simp only [isdigit, Bool.and_eq_false_iff, decide_eq_false_iff_not, UInt8.not_le]
      exact .inr (Nat.lt_of_lt_of_le (by decide) hupper.1)
    have hnoted : upperAfter s.isUpperHexdigit c = true := by simp [upperAfter, hx, hdigit, hupper]
    rw [hnoted, transition_hexdigit (s.noted true) h.state hx hopen] at hu
    rw [hstate, ← Option.some.inj hu]
    rfl
  | false =>
    rw [noted_of_not_isxdigit s hx] at hu
    have herror : transition s c = some s.error := by
      by_cases hclose : c = ']'.toUInt8
      · subst hclose
        rcases state_cases h.state with h0 | h1 | ⟨h2, h6⟩ | h7
        · simp [transition, h0, hx, hopen, hcolon]
        · simp [transition, h1, hx, hcolon]
        · simp [transition_middle _ h2 h6, hx, hcolon, h.bracket]
        · simp [transition, h7, hx, h.bracket]
      · exact transition_other s h.state hx hcolon hopen hclose
    rw [herror] at hu
    rw [hstate, ← Option.some.inj hu]
    rfl

end Characters

theorem run_piece_iff {rest : Bytes} (h : Ready s) (hsixteen : s.sixteen ≤ 0xFFFF) (hopen : '['.toUInt8 ∉ piece)
    (hcolon : ':'.toUInt8 ∉ piece) :
    run s (piece ++ rest) = some address ↔
      LowerHex piece ∧ piece.foldl char2Hex s.sixteen ≤ 0xFFFF ∧ run (s.read piece) rest = some address := by
  induction piece generalizing s with
  | nil => simp [LowerHex, hsixteen, Scan.read]
  | cons c piece ih =>
    rw [List.mem_cons, not_or] at hopen hcolon
    have hlower : LowerHex (c :: piece) ↔ (isxdigit c = true ∧ isupper c = false) ∧ LowerHex piece := by simp [LowerHex]
    have hread : (s.read [c]).read piece = s.read (c :: piece) := by
      simp [Scan.read, Nat.add_assoc, Nat.add_comm 1 piece.length]
    rw [List.cons_append, run_cons, hlower]
    by_cases hc : isxdigit c = true ∧ isupper c = false
    · rw [step_lower h hc.1 hc.2]
      by_cases hle : char2Hex s.sixteen c ≤ 0xFFFF
      · rw [if_pos hle, Option.bind_some, ih (h.read [c]) hle hopen.2 hcolon.2, hread]
        simp [hc, Scan.read]
      · have hgreater := le_foldl_char2Hex piece (char2Hex s.sixteen c)
        simp only [hle, if_false, Option.bind_none, List.foldl_cons, reduceCtorEq, false_iff]
        intro hall
        omega
    · simp only [hc, false_and, iff_false]
      intro hsome
      rw [Option.bind_eq_some_iff] at hsome
      obtain ⟨t, hstep, hrun⟩ := hsome
      rw [run_error _ (step_unread h (Ne.symm hopen.1) (Ne.symm hcolon.1) hc hstep)] at hrun
      cases hrun

/-! ## Between the pieces -/

/-- At the beginning of a group, behind these ones. -/
def plainScan (groups : List ℕ) : Scan where
  address := ⟨groups ++ List.replicate (8 - groups.length) 0, 0⟩
  sixteen := 0
  unsorted := []
  bracketExpected := false
  port := 0
  charCounter := 0
  isUpperHexdigit := false
  zeroCompression := false
  alreadyCompressed := false
  state := groups.length
  stateChange := false

/-- At the beginning of a group, with groups before `::` and groups behind it. Where two groups stand before it, the
second colon is counted as a character. -/
def packedScan (heads pushed : List ℕ) : Scan where
  address := ⟨heads ++ List.replicate (8 - heads.length) 0, 0⟩
  sixteen := 0
  unsorted := pushed
  bracketExpected := false
  port := 0
  charCounter := if pushed = [] ∧ 2 ≤ heads.length then 1 else 0
  isUpperHexdigit := false
  zeroCompression := true
  alreadyCompressed := true
  state := max heads.length 2 + pushed.length
  stateChange := false

theorem plainScan_ready (h : groups.length ≤ 7) : Ready (plainScan groups) :=
  ⟨h, rfl, rfl, rfl, Nat.zero_le _⟩

theorem packedScan_ready {heads pushed : List ℕ} (h : max heads.length 2 + pushed.length ≤ 7) :
    Ready (packedScan heads pushed) :=
  ⟨h, rfl, rfl, rfl, Nat.zero_le _⟩

theorem groups_set (v : ℕ) (h : groups.length ≤ 7) :
    (groups ++ List.replicate (8 - groups.length) 0).set groups.length v =
      (groups ++ [v]) ++ List.replicate (8 - (groups ++ [v]).length) 0 := by
  obtain ⟨k, hk⟩ : ∃ k, 8 - groups.length = k + 1 := ⟨7 - groups.length, by omega⟩
  have hk' : 8 - (groups ++ [v]).length = k := by
    rw [List.length_append, List.length_singleton]
    omega
  rw [hk, hk', List.set_append_right _ _ (Nat.le_refl _), Nat.sub_self, List.replicate_succ, List.set_cons_zero]
  simp

section Colons

variable {s : Scan} {rest : Bytes}

theorem transition_place (h6 : s.state ≤ 6) (hcc : s.state = 0 ∨ s.charCounter ≠ 0) (hz : s.zeroCompression = false) :
    transition s ':'.toUInt8 = some ((s.assign s.state).enter (s.state + 1)) := by
  rcases state_cases (Nat.le_succ_of_le h6) with h0 | h1 | ⟨h2, h6⟩ | h7
  · have hopen : ':'.toUInt8 ≠ '['.toUInt8 := by decide
    simp [transition, h0, isxdigit_colon, hopen]
  · have hcounter : s.charCounter ≠ 0 := hcc.resolve_left (by omega)
    simp [transition, h1, isxdigit_colon, hcounter]
  · have hcounter : s.charCounter ≠ 0 := hcc.resolve_left (by omega)
    simp [transition_middle _ h2 h6, isxdigit_colon, hcounter, hz]
  · omega

theorem run_change {t : Scan} (hx : isxdigit c = false) (h : transition s c = some t)
    (hbounds : t.sixteen ≤ 0xFFFF ∧ t.port ≤ 65535) (hchange : t.stateChange = true) :
    run s (c :: rest) = run t.settled rest := by
  rw [run_cons, step_of_transition hx h hbounds hchange, Option.bind_some]

theorem run_reject (hx : isxdigit c = false) (h : transition s c = some s.error) : run s (c :: rest) = none := by
  rw [run_cons, step_eq, noted_of_not_isxdigit s hx, h, Option.bind_some]
  cases hsettle : s.error.counted.settle with
  | none => rfl
  | some t => exact run_error rest (settle_state hsettle)

variable {groups heads pushed : List ℕ} {piece : Bytes}

theorem plain_colon (h6 : groups.length ≤ 6) (hne : groups = [] ∨ piece ≠ []) (hbound : hexadecimal piece ≤ 0xFFFF) :
    run ((plainScan groups).read piece) (':'.toUInt8 :: rest) = run (plainScan (groups ++ [hexadecimal piece])) rest := by
  have hcounter : groups.length = 0 ∨ 0 + piece.length ≠ 0 := by simpa using hne
  rw [run_change isxdigit_colon (transition_place (s := (plainScan groups).read piece) h6 hcounter rfl)
    ⟨hbound, Nat.zero_le _⟩ rfl]
  have hset := groups_set (hexadecimal piece) (Nat.le_succ_of_le h6)
  have hscan : ((((plainScan groups).read piece).assign groups.length).enter (groups.length + 1)).settled =
      plainScan (groups ++ [hexadecimal piece]) := by
    rw [plainScan, plainScan, ← hset, List.length_append]
    rfl
  exact congrArg (run · rest) hscan

/-- The second colon of the first `::`. -/
theorem plain_double (h1 : 1 ≤ groups.length) (h6 : groups.length ≤ 6) :
    run (plainScan groups) (':'.toUInt8 :: rest) = run (packedScan groups []) rest := by
  by_cases hone : groups.length = 1
  · have htransition : transition (plainScan groups) ':'.toUInt8 = some ((plainScan groups).compress.enter 2) := by
      simp [transition, plainScan, hone, isxdigit_colon]
    rw [run_change isxdigit_colon htransition ⟨Nat.zero_le _, Nat.zero_le _⟩ rfl]
    have hscan : ((plainScan groups).compress.enter 2).settled = packedScan groups [] := by
      simp [plainScan, packedScan, Scan.compress, Scan.enter, Scan.settled, hone]
    rw [hscan]
  · have h2 : 2 ≤ groups.length := by omega
    have htransition : transition (plainScan groups) ':'.toUInt8 = some (plainScan groups).compress := by
      rw [transition_middle (s := plainScan groups) _ h2 h6]
      simp [plainScan, isxdigit_colon]
    have hsettle := settle_eq (plainScan groups).compress.counted ⟨Nat.zero_le _, Nat.zero_le _⟩
    have hscan : (plainScan groups).compress.counted = packedScan groups [] := by
      simp [plainScan, packedScan, Scan.compress, Scan.counted, h2]
    rw [run_cons, step_eq, noted_of_not_isxdigit _ isxdigit_colon, htransition, Option.bind_some, hsettle,
      Option.bind_some, if_neg (by simp [plainScan, Scan.compress, Scan.counted]), hscan]

theorem plain_full (h7 : groups.length = 7) :
    run ((plainScan groups).read piece) (':'.toUInt8 :: rest) = none := by
  refine run_reject isxdigit_colon ?_
  simp [transition, plainScan, Scan.read, h7, isxdigit_colon]

theorem packed_colon (h6 : max heads.length 2 + pushed.length ≤ 6) (hne : piece ≠ [] ∨ pushed = [] ∧ 2 ≤ heads.length)
    (hbound : hexadecimal piece ≤ 0xFFFF) :
    run ((packedScan heads pushed).read piece) (':'.toUInt8 :: rest) =
      run (packedScan heads (pushed ++ [hexadecimal piece])) rest := by
  have h2 : 2 ≤ max heads.length 2 + pushed.length := by omega
  have hcounter : ((packedScan heads pushed).read piece).charCounter ≠ 0 := by
    show (if pushed = [] ∧ 2 ≤ heads.length then 1 else 0) + piece.length ≠ 0
    rcases hne with hne | hne
    · have hpos := List.length_pos_iff.mpr hne
      omega
    · simp [hne]
  have htransition : transition ((packedScan heads pushed).read piece) ':'.toUInt8 =
      some (((packedScan heads pushed).read piece).pushUnsorted.enter (max heads.length 2 + pushed.length + 1)) := by
    rw [transition_middle (s := (packedScan heads pushed).read piece) _ h2 h6, if_neg (by simp [isxdigit_colon]), if_pos rfl,
      if_neg hcounter]
    rfl
  rw [run_change isxdigit_colon htransition ⟨hbound, Nat.zero_le _⟩ rfl]
  have hscan : (((packedScan heads pushed).read piece).pushUnsorted.enter
      (max heads.length 2 + pushed.length + 1)).settled = packedScan heads (pushed ++ [hexadecimal piece]) := by
    simp [packedScan, Scan.read, Scan.pushUnsorted, Scan.enter, Scan.settled, hexadecimal, Nat.add_assoc]
  rw [hscan]

theorem packed_empty (h6 : max heads.length 2 + pushed.length ≤ 6) (h : ¬ (pushed = [] ∧ 2 ≤ heads.length)) :
    run (packedScan heads pushed) (':'.toUInt8 :: rest) = none := by
  have h2 : 2 ≤ max heads.length 2 + pushed.length := by omega
  refine run_reject isxdigit_colon ?_
  rw [transition_middle (s := packedScan heads pushed) _ h2 h6]
  simp [packedScan, h, isxdigit_colon]

theorem packed_full (h7 : max heads.length 2 + pushed.length = 7) :
    run ((packedScan heads pushed).read piece) (':'.toUInt8 :: rest) = none := by
  refine run_reject isxdigit_colon ?_
  simp [transition, packedScan, Scan.read, h7, isxdigit_colon]

/-- The groups that are stored: behind `::` the last ones of the address, or only the last group where the address is
full. -/
def unpacked (heads pushed : List ℕ) (last : ℕ) : List ℕ :=
  if max heads.length 2 + pushed.length ≤ 6 then
    heads ++ List.replicate (7 - heads.length - pushed.length) 0 ++ (pushed ++ [last])
  else heads ++ List.replicate (7 - heads.length) 0 ++ [last]

theorem plain_end (h : groups.length ≤ 7) (hne : groups ≠ []) :
    run ((plainScan groups).read piece) [] =
      if groups.length = 7 ∧ piece ≠ [] then some ⟨groups ++ [hexadecimal piece], 0⟩ else none := by
  show finish _ = _
  have h1 : groups.length ≠ 0 := by simpa using hne
  rcases state_cases h with h0 | h0 | ⟨h2, h6⟩ | h7
  · exact absurd h0 h1
  · simp [finish, Scan.read, plainScan, h0]
  · rw [finish_early (s := (plainScan groups).read piece) h2 h6 _ (Nat.zero_lt_succ _) rfl,
      if_neg (by simp [plainScan, Scan.read]), if_neg (by omega)]
    show (groups ++ List.replicate (8 - groups.length) 0).length = 8
    rw [List.length_append, List.length_replicate]
    omega
  · have hset := groups_set (hexadecimal piece) h
    have hassign : (((plainScan groups).read piece).assign 7).address = ⟨groups ++ [hexadecimal piece], 0⟩ := by
      show IPV6Address.mk ((groups ++ List.replicate (8 - groups.length) 0).set 7 (hexadecimal piece)) 0 = _
      rw [← h7, hset, List.length_append, List.length_singleton, h7]
      simp
    have hstate : ((plainScan groups).read piece).state = 7 := h7
    have hbracket : ((plainScan groups).read piece).bracketExpected = false := rfl
    simp only [finish, hstate, hassign, hbracket]
    simp [h7, plainScan, Scan.read]

theorem packed_end (h6 : heads.length ≤ 6) (h : max heads.length 2 + pushed.length ≤ 7) :
    run ((packedScan heads pushed).read piece) [] =
      if max heads.length 2 + pushed.length = 7 ∧ piece = [] then none
      else some ⟨unpacked heads pushed (hexadecimal piece), 0⟩ := by
  show finish _ = _
  have hlength : (heads ++ List.replicate (8 - heads.length) 0).length = 8 := by
    rw [List.length_append, List.length_replicate]
    omega
  by_cases hlast : max heads.length 2 + pushed.length = 7
  · have hstate : ((packedScan heads pushed).read piece).state = 7 := hlast
    have hpushed : pushed ≠ [] := by
      rintro rfl
      simp at hlast
      omega
    have hcounter : ((packedScan heads pushed).read piece).charCounter = piece.length := by
      simp [packedScan, Scan.read, hpushed]
    have hbracket : ((packedScan heads pushed).read piece).bracketExpected = false := rfl
    have hassign : (((packedScan heads pushed).read piece).assign 7).address =
        ⟨unpacked heads pushed (hexadecimal piece), 0⟩ := by
      show IPV6Address.mk ((heads ++ List.replicate (8 - heads.length) 0).set 7 (hexadecimal piece)) 0 = _
      obtain ⟨k, hk⟩ : ∃ k, 7 - heads.length = k := ⟨_, rfl⟩
      have hk' : 8 - heads.length = k + 1 := by omega
      have hindex : 7 - heads.length = k := by omega
      rw [unpacked, if_neg (by omega), hk, hk', List.set_append_right _ _ (by omega), hindex, List.replicate_succ',
        List.set_append_right _ _ (by simp), List.length_replicate, Nat.sub_self, List.set_cons_zero, List.append_assoc]
    simp only [finish, hstate, hassign, hbracket, hcounter]
    simp [hlast]
  · have h2 : 2 ≤ max heads.length 2 + pushed.length := by omega
    have hle : max heads.length 2 + pushed.length ≤ 6 := by omega
    have hcompression : ((packedScan heads pushed).read piece).zeroCompression = true := rfl
    rw [finish_early (s := (packedScan heads pushed).read piece) h2 hle hlength _ rfl, if_pos hcompression,
      if_neg (by simp [hlast]), unpacked, if_pos hle]
    · show some (IPV6Address.mk
        ((heads ++ List.replicate (8 - heads.length) 0).take (8 - (pushed ++ [hexadecimal piece]).length) ++
          (pushed ++ [hexadecimal piece])) 0) = _
      have htake : 8 - (pushed ++ [hexadecimal piece]).length - heads.length = 7 - heads.length - pushed.length := by
        rw [List.length_append, List.length_singleton]
        omega
      rw [List.take_append, List.take_of_length_le (by rw [List.length_append, List.length_singleton]; omega), htake,
        List.take_replicate, Nat.min_eq_left (by omega)]
    · show pushed.length < 8
      omega

end Colons

/-! ## Lists of pieces -/

/-- A text of these pieces has no brackets, and no other pieces. -/
def Clean (pieces : List Bytes) : Prop := ∀ piece ∈ pieces, '['.toUInt8 ∉ piece ∧ ':'.toUInt8 ∉ piece

/-- Groups of at least one digit. -/
def Numbers (pieces : List Bytes) : Prop := ∀ piece ∈ pieces, Legible piece ∧ piece ≠ []

/-- The pieces behind `::`. -/
structure Behind (lenient : Prop) (state : ℕ) (middle : List Bytes) (last : Bytes) : Prop where
  legible : ∀ piece ∈ middle, Legible piece
  inner : ∀ piece ∈ middle.tail, piece ≠ []
  head : middle.head? = some [] → lenient
  ending : Legible last
  room : state + middle.length ≤ 7
  full : state + middle.length = 7 → last ≠ []

/-- The pieces around `::`. -/
structure Packed (first : Bytes) (front middle : List Bytes) (last : Bytes) : Prop where
  beginning : Legible first
  numbers : Numbers front
  few : front.length ≤ 5
  behind : Behind (front ≠ []) (max (front.length + 1) 2) middle last

/-- The accepted lists of pieces, with what is stored for them. -/
inductive Accepts : List Bytes → List ℕ → Prop where
  | plain {first : Bytes} {rest : List Bytes} : Legible first → Numbers rest → rest.length = 7 →
      Accepts (first :: rest) ((first :: rest).map hexadecimal)
  | packed {first last : Bytes} {front middle : List Bytes} : Packed first front middle last →
      Accepts (first :: (front ++ [] :: (middle ++ [last])))
        (unpacked ((first :: front).map hexadecimal) (middle.map hexadecimal) (hexadecimal last))

theorem legible_nil : Legible [] := ⟨fun _ h => absurd h List.not_mem_nil, Nat.zero_le _⟩

theorem behind_nil {lenient : Prop} {state : ℕ} :
    Behind lenient state [] last ↔ Legible last ∧ state ≤ 7 ∧ (state = 7 → last ≠ []) := by
  constructor
  · intro h
    exact ⟨h.ending, h.room, h.full⟩
  · rintro ⟨hlast, hroom, hfull⟩
    exact ⟨by simp, by simp, by simp, hlast, hroom, hfull⟩

theorem behind_cons {lenient : Prop} {state : ℕ} :
    Behind lenient state (piece :: middle) last ↔
      Legible piece ∧ (piece = [] → lenient) ∧ state ≤ 6 ∧ Behind False (state + 1) middle last := by
  constructor
  · intro h
    have hroom := h.room
    have hfull := h.full
    rw [List.length_cons] at hroom hfull
    refine ⟨h.legible piece List.mem_cons_self, fun hnil => h.head (by rw [hnil]; rfl), by omega,
      fun p hp => h.legible p (List.mem_cons_of_mem _ hp), fun p hp => h.inner p (List.mem_of_mem_tail hp),
      fun hhead => ?_, h.ending, by omega, fun heq => hfull (by omega)⟩
    exact h.inner [] (List.mem_of_mem_head? hhead) rfl
  · rintro ⟨hpiece, hlenient, hstate, h⟩
    have hroom := h.room
    have hfull := h.full
    refine ⟨?_, fun p hp hnil => ?_, fun hhead => hlenient (Option.some.inj hhead), h.ending, ?_, fun heq => hfull ?_⟩
    · intro p hp
      rcases List.mem_cons.mp hp with rfl | hp
      · exact hpiece
      · exact h.legible p hp
    · subst hnil
      cases middle with
      | nil => cases hp
      | cons next middle =>
        rcases List.mem_cons.mp hp with heq | hp
        · exact h.head (by rw [← heq]; rfl)
        · exact h.inner [] hp rfl
    · rw [List.length_cons]
      omega
    · rw [List.length_cons] at heq
      omega

theorem run_group_iff {s : Scan} {piece rest : Bytes} {address : IPV6Address} (h : Ready s) (hzero : s.sixteen = 0)
    (hclean : '['.toUInt8 ∉ piece ∧ ':'.toUInt8 ∉ piece) :
    run s (piece ++ rest) = some address ↔ Legible piece ∧ run (s.read piece) rest = some address := by
  rw [run_piece_iff h (by omega) hclean.1 hclean.2, hzero, ← and_assoc]
  exact and_congr_left' ⟨fun h => ⟨h.1, h.2⟩, fun h => ⟨h.lower, h.bound⟩⟩

theorem run_packed_iff {heads pushed : List ℕ} (hfew : heads.length ≤ 6)
    (hroom : max heads.length 2 + pushed.length ≤ 7) (hclean : Clean (middle ++ [last])) :
    run (packedScan heads pushed) (joined (middle ++ [last])) = some address ↔
      Behind (pushed = [] ∧ 2 ≤ heads.length) (max heads.length 2 + pushed.length) middle last ∧
        address = ⟨unpacked heads (pushed ++ middle.map hexadecimal) (hexadecimal last), 0⟩ := by
  induction middle generalizing pushed with
  | nil =>
    have hlast := @run_group_iff _ _ [] address (packedScan_ready hroom) rfl (hclean last (by simp))
    rw [List.append_nil] at hlast
    rw [List.nil_append, joined_singleton, hlast, packed_end hfew hroom, behind_nil, List.map_nil, List.append_nil]
    by_cases hfull : max heads.length 2 + pushed.length = 7 ∧ last = []
    · simp [hfull]
    · rw [if_neg hfull, Option.some.injEq, eq_comm (b := address)]
      have hstate : max heads.length 2 + pushed.length = 7 → last ≠ [] := fun heq hnil => hfull ⟨heq, hnil⟩
      simp only [hroom, and_true, iff_true_intro hstate]
  | cons piece middle ih =>
    have hpiece := hclean piece (by simp)
    have hrest : Clean (middle ++ [last]) := fun p hp => hclean p (by rw [List.cons_append]; exact List.mem_cons_of_mem _ hp)
    rw [List.cons_append, joined_cons piece (by simp), run_group_iff (packedScan_ready hroom) rfl hpiece, behind_cons,
      and_assoc]
    refine and_congr_right fun hlegible => ?_
    by_cases h7 : max heads.length 2 + pushed.length = 7
    · rw [packed_full h7]
      simp only [reduceCtorEq, false_iff]
      intro h
      omega
    · by_cases hne : piece ≠ [] ∨ pushed = [] ∧ 2 ≤ heads.length
      · have hlenient : piece = [] → pushed = [] ∧ 2 ≤ heads.length := fun hnil => hne.resolve_left fun h => h hnil
        have hstate : max heads.length 2 + pushed.length ≤ 6 := by omega
        rw [packed_colon hstate hne hlegible.bound, ih (by simp; omega) hrest]
        simp [iff_true_intro hlenient, hstate, Nat.add_assoc]
      · rw [not_or, not_not] at hne
        obtain ⟨rfl, hstrict⟩ := hne
        have hread : (packedScan heads pushed).read [] = packedScan heads pushed := by simp [Scan.read]
        rw [hread, packed_empty (by omega) hstrict]
        simp only [reduceCtorEq, false_iff]
        exact fun h => hstrict (h.1.1 trivial)

/-- How a text may go on behind groups that stand in their places. -/
def Continues (groups : List ℕ) (pieces : List Bytes) (result : List ℕ) : Prop :=
  (Numbers pieces ∧ groups.length + pieces.length = 8 ∧ result = groups ++ pieces.map hexadecimal) ∨
    ∃ front middle last, pieces = front ++ [] :: (middle ++ [last]) ∧ Numbers front ∧ groups.length + front.length ≤ 6 ∧
      Behind (2 ≤ groups.length + front.length) (max (groups.length + front.length) 2) middle last ∧
      result = unpacked (groups ++ front.map hexadecimal) (middle.map hexadecimal) (hexadecimal last)

section Continuing

variable {groups result : List ℕ} {piece : Bytes} {pieces : List Bytes}

theorem numbers_cons : Numbers (piece :: pieces) ↔ (Legible piece ∧ piece ≠ []) ∧ Numbers pieces := List.forall_mem_cons

theorem continues_last :
    Continues groups [piece] result ↔
      Legible piece ∧ groups.length = 7 ∧ piece ≠ [] ∧ result = groups ++ [hexadecimal piece] := by
  constructor
  · rintro (⟨hnumbers, hlength, hresult⟩ | ⟨front, middle, last, hpieces, -⟩)
    · have hpiece := hnumbers piece List.mem_cons_self
      exact ⟨hpiece.1, Nat.add_right_cancel hlength, hpiece.2, hresult⟩
    · have hlength := congrArg List.length hpieces
      simp at hlength
      omega
  · rintro ⟨hlegible, hlength, hne, hresult⟩
    refine .inl ⟨fun p hp => ?_, by rw [hlength]; rfl, hresult⟩
    rw [List.mem_singleton.mp hp]
    exact ⟨hlegible, hne⟩

theorem continues_group (hne : piece ≠ []) (hpieces : pieces ≠ []) :
    Continues groups (piece :: pieces) result ↔
      Legible piece ∧ groups.length ≤ 6 ∧ Continues (groups ++ [hexadecimal piece]) pieces result := by
  have hpos := List.length_pos_iff.mpr hpieces
  have hlength : (groups ++ [hexadecimal piece]).length = groups.length + 1 := List.length_append
  constructor
  · rintro (⟨hnumbers, hsum, hresult⟩ | ⟨front, middle, last, hsplit, hnumbers, hsum, hbehind, hresult⟩)
    · rw [List.length_cons] at hsum
      obtain ⟨hpiece, hnumbers⟩ := numbers_cons.mp hnumbers
      exact ⟨hpiece.1, by omega, .inl ⟨hnumbers, by omega, by simp [hresult]⟩⟩
    · cases front with
      | nil => exact absurd (List.cons.inj hsplit).1 hne
      | cons first front =>
        obtain ⟨rfl, hrest⟩ := List.cons.inj hsplit
        obtain ⟨hpiece, hnumbers⟩ := numbers_cons.mp hnumbers
        have hcount : groups.length + (piece :: front).length = (groups ++ [hexadecimal piece]).length + front.length := by
          rw [hlength, List.length_cons]
          omega
        rw [hcount] at hsum hbehind
        exact ⟨hpiece.1, by omega, .inr ⟨front, middle, last, hrest, hnumbers, hsum, hbehind, by simp [hresult]⟩⟩
  · rintro ⟨hpiece, -, ⟨hnumbers, hsum, hresult⟩ | ⟨front, middle, last, hsplit, hnumbers, hsum, hbehind, hresult⟩⟩
    · refine .inl ⟨numbers_cons.mpr ⟨⟨hpiece, hne⟩, hnumbers⟩, ?_, by simp [hresult]⟩
      rw [List.length_cons]
      omega
    · have hcount : (groups ++ [hexadecimal piece]).length + front.length = groups.length + (piece :: front).length := by
        rw [hlength, List.length_cons]
        omega
      rw [hcount] at hsum hbehind
      exact .inr ⟨piece :: front, middle, last, by rw [hsplit]; rfl, numbers_cons.mpr ⟨⟨hpiece, hne⟩, hnumbers⟩, hsum,
        hbehind, by simp [hresult]⟩

theorem continues_double :
    Continues groups ([] :: (middle ++ [last])) result ↔
      groups.length ≤ 6 ∧ Behind (2 ≤ groups.length) (max groups.length 2) middle last ∧
        result = unpacked groups (middle.map hexadecimal) (hexadecimal last) := by
  constructor
  · rintro (⟨hnumbers, -⟩ | ⟨front, middle', last', hsplit, hnumbers, hsum, hbehind, hresult⟩)
    · exact absurd rfl (hnumbers [] List.mem_cons_self).2
    · cases front with
      | nil =>
        obtain ⟨hmiddle, hlast⟩ := List.append_inj' (List.cons.inj hsplit).2 rfl
        obtain rfl := hmiddle
        obtain rfl := (List.cons.inj hlast).1
        exact ⟨hsum, hbehind, by simpa using hresult⟩
      | cons first front =>
        have hfirst := (hnumbers first List.mem_cons_self).2
        exact absurd (List.cons.inj hsplit).1.symm hfirst
  · rintro ⟨hsum, hbehind, hresult⟩
    exact .inr ⟨[], middle, last, rfl, fun p hp => absurd hp List.not_mem_nil, hsum, hbehind, by simpa using hresult⟩

end Continuing

theorem run_plain_iff (hgroups : groups ≠ []) (h7 : groups.length ≤ 7) (hne : pieces ≠ []) (hclean : Clean pieces) :
    run (plainScan groups) (joined pieces) = some address ↔
      address.port = 0 ∧ Continues groups pieces address.sixteen := by
  induction pieces generalizing groups with
  | nil => exact absurd rfl hne
  | cons piece pieces ih =>
    have hpiece := hclean piece List.mem_cons_self
    cases pieces with
    | nil =>
      have hlast := @run_group_iff _ _ [] address (plainScan_ready h7) rfl hpiece
      rw [List.append_nil] at hlast
      rw [joined_singleton, hlast, plain_end h7 hgroups, continues_last]
      by_cases hfull : groups.length = 7 ∧ piece ≠ []
      · obtain ⟨sixteen, port⟩ := address
        rw [if_pos hfull]
        simp only [Option.some.injEq, IPV6Address.mk.injEq, hfull]
        grind
      · rw [if_neg hfull]
        grind
    | cons next rest =>
      have hrest : Clean (next :: rest) := fun p hp => hclean p (List.mem_cons_of_mem _ hp)
      rw [joined_cons piece (List.cons_ne_nil _ _), run_group_iff (plainScan_ready h7) rfl hpiece]
      by_cases hnil : piece = []
      · subst hnil
        obtain ⟨middle, last, hsplit⟩ : ∃ middle last, next :: rest = middle ++ [last] :=
          ⟨_, _, (List.dropLast_append_getLast (List.cons_ne_nil next rest)).symm⟩
        have hread : (plainScan groups).read [] = plainScan groups := by simp [Scan.read]
        have hpos := List.length_pos_iff.mpr hgroups
        rw [hsplit] at hrest
        rw [hsplit, continues_double, and_iff_right legible_nil, hread]
        by_cases h6 : groups.length ≤ 6
        · rw [plain_double hpos h6, run_packed_iff h6 (by simp; omega) hrest]
          obtain ⟨sixteen, port⟩ := address
          simp [h6]
          grind
        · rw [← hread, plain_full (by omega)]
          simp [h6]
      · rw [continues_group hnil (List.cons_ne_nil _ _), and_left_comm]
        refine and_congr_right fun hlegible => ?_
        by_cases h6 : groups.length ≤ 6
        · rw [plain_colon h6 (.inr hnil) hlegible.bound, ih (by simp) (by simp; omega) (List.cons_ne_nil _ _) hrest]
          simp [h6]
        · rw [plain_full (by omega)]
          simp [h6]

theorem accepts_iff {first : Bytes} {rest : List Bytes} {result : List ℕ} :
    Accepts (first :: rest) result ↔ Legible first ∧ Continues [hexadecimal first] rest result := by
  have hlenient (front : List Bytes) : (2 ≤ [hexadecimal first].length + front.length) = (front ≠ []) := by
    rw [← List.length_pos_iff, List.length_singleton]
    exact propext (by omega)
  have hplaces (front : List Bytes) : [hexadecimal first].length + front.length = front.length + 1 := Nat.add_comm ..
  constructor
  · intro h
    generalize hpieces : first :: rest = pieces at h
    cases h with
    | plain hfirst hnumbers hlength =>
      obtain ⟨rfl, rfl⟩ := List.cons.inj hpieces
      exact ⟨hfirst, .inl ⟨hnumbers, by rw [hlength]; rfl, rfl⟩⟩
    | @packed first last front middle h =>
      obtain ⟨rfl, rfl⟩ := List.cons.inj hpieces
      have hfew := h.few
      refine ⟨h.beginning, .inr ⟨front, middle, last, rfl, h.numbers, ?_, ?_, rfl⟩⟩
      · rw [hplaces]
        omega
      · rw [hlenient, hplaces]
        exact h.behind
  · rintro ⟨hfirst, ⟨hnumbers, hlength, rfl⟩ | ⟨front, middle, last, rfl, hnumbers, hsum, hbehind, rfl⟩⟩
    · exact .plain hfirst hnumbers (Nat.add_left_cancel (hlength.trans (Nat.add_comm 7 1)))
    · rw [hlenient, hplaces] at hbehind
      rw [hplaces] at hsum
      exact .packed ⟨hfirst, hnumbers, Nat.le_of_succ_le_succ hsum, hbehind⟩

/-- Which texts without an opening bracket are accepted, and what is stored for them. -/
theorem ipv6Parser_eq_some_iff {text : Bytes} (hopen : '['.toUInt8 ∉ text) :
    ipv6Parser text = some address ↔ address.port = 0 ∧ Accepts (text.splitOn ':'.toUInt8) address.sixteen := by
  obtain ⟨first, rest, hsplit⟩ := List.exists_cons_of_ne_nil (List.splitOn_ne_nil ':'.toUInt8 text)
  have htext := joined_splitOn text
  have hclean : Clean (first :: rest) := by
    rw [← hsplit]
    intro piece hpiece
    refine ⟨fun hmem => hopen ?_, not_mem_splitOn hpiece⟩
    rw [← htext]
    exact mem_joined_of_mem hpiece hmem
  have hready : Ready (plainScan []) := plainScan_ready (Nat.zero_le _)
  have hfirst := hclean first List.mem_cons_self
  rw [hsplit] at htext ⊢
  rw [← htext, accepts_iff]
  show run (plainScan []) (joined (first :: rest)) = some address ↔ _
  cases rest with
  | nil =>
    have hlast := @run_group_iff _ _ [] address hready rfl hfirst
    rw [List.append_nil] at hlast
    rw [joined_singleton, hlast]
    refine iff_of_false (fun h => ?_) fun h => ?_
    · cases h.2
    · obtain ⟨-, -, ⟨-, hlength, -⟩ | ⟨front, middle, last, hpieces, -⟩⟩ := h
      · cases hlength
      · have hlength := congrArg List.length hpieces
        simp at hlength
  | cons next rest =>
    have hrest : Clean (next :: rest) := fun p hp => hclean p (List.mem_cons_of_mem _ hp)
    rw [joined_cons first (List.cons_ne_nil _ _), run_group_iff hready rfl hfirst, and_left_comm]
    refine and_congr_right fun hlegible => ?_
    rw [plain_colon (Nat.zero_le _) (.inl rfl) hlegible.bound,
      run_plain_iff (by simp) (by simp) (List.cons_ne_nil _ _) hrest]
    rfl

end Libntech.Network
