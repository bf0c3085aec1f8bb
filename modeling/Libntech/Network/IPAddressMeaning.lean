import Libntech.Network.IPAddress
import Mathlib.Data.List.DropRight
import Mathlib.Data.List.Induction
import Mathlib.Data.List.TakeWhile

/-! # Brackets and ports around IPv6 addresses

The automaton reads a text in brackets as it reads the text alone (`scan_bracketed`), and what it knows after a text is
known from where the text has its first `::` (`Reads`). The three end states differ in what they do with the groups
behind it: without brackets they go to the end of the address in their order, with brackets in the opposite order, and
with a port they are left out.
-/
namespace Libntech.Network
set_option autoImplicit false

open Libntech.Json (Bytes ascii)

/-! ## The text -/

/-- The text before the first `::` and the text behind it. -/
def splitDouble : Bytes → Option (Bytes × Bytes)
  | c :: d :: rest =>
    if c = ':'.toUInt8 ∧ d = ':'.toUInt8 then some ([], rest)
    else (splitDouble (d :: rest)).map fun parts => (c :: parts.1, parts.2)
  | _ => none

def colons (text : Bytes) : ℕ := text.count ':'.toUInt8

/-- The numbers between the colons of a text. -/
def groupsOf (text : Bytes) : List ℕ :=
  let read := text.foldl (fun read c =>
    if c = ':'.toUInt8 then (read.1 ++ [read.2], 0) else (read.1, char2Hex read.2 c)) (([] : List ℕ), 0)
  read.1 ++ [read.2]

theorem groupsOf_colon (text : Bytes) : groupsOf (text ++ [':'.toUInt8]) = groupsOf text ++ [0] := by
  simp [groupsOf]

variable {s s' t : Scan} {c : UInt8} {before behind digits text : Bytes} {n : ℕ} {l : List ℕ} {address : IPV6Address}

theorem groupsOf_digit {groups : List ℕ} (hc : c ≠ ':'.toUInt8) (h : groupsOf text = groups ++ [n]) :
    groupsOf (text ++ [c]) = groups ++ [char2Hex n c] := by
  rw [groupsOf, List.foldl_append, List.foldl_cons, List.foldl_nil, if_neg hc]
  obtain ⟨hgroups, hn⟩ := List.append_inj' h rfl
  rw [← hgroups, ← (List.cons.inj hn).1]

theorem colons_colon (text : Bytes) : colons (text ++ [':'.toUInt8]) = colons text + 1 := by
  rw [colons, List.count_append, List.count_singleton_self]
  rfl

theorem colons_other (text : Bytes) (hc : c ≠ ':'.toUInt8) : colons (text ++ [c]) = colons text := by
  have hone : [c].count ':'.toUInt8 = 0 := List.count_eq_zero_of_not_mem (by simpa using Ne.symm hc)
  rw [colons, List.count_append, hone]
  rfl

theorem length_groupsOf (text : Bytes) : (groupsOf text).length = colons text + 1 := by
  induction text using List.reverseRecOn with
  | nil => rfl
  | append_singleton text c ih =>
    by_cases hc : c = ':'.toUInt8
    · rw [hc, groupsOf_colon, colons_colon, List.length_append, ih]
      rfl
    · obtain ⟨groups, n, hgroups⟩ : ∃ groups n, groupsOf text = groups ++ [n] := ⟨_, _, rfl⟩
      rw [groupsOf_digit hc hgroups, colons_other text hc, ← ih, hgroups, List.length_append, List.length_append]
      rfl

/-! ## The first `::` -/

theorem splitDouble_cons_other {d : UInt8} (rest : Bytes) (h : ¬ (c = ':'.toUInt8 ∧ d = ':'.toUInt8)) :
    splitDouble (c :: d :: rest) = (splitDouble (d :: rest)).map fun parts => (c :: parts.1, parts.2) := by
  rw [splitDouble, if_neg h]

/-- More text behind the first `::` is more of the text behind it. -/
theorem splitDouble_snoc_some {a y : Bytes} (c : UInt8) (h : splitDouble text = some (a, y)) :
    splitDouble (text ++ [c]) = some (a, y ++ [c]) := by
  induction text generalizing a with
  | nil => cases h
  | cons b text ih =>
    cases text with
    | nil => cases h
    | cons d rest =>
      by_cases hdouble : b = ':'.toUInt8 ∧ d = ':'.toUInt8
      · rw [splitDouble, if_pos hdouble] at h
        cases h
        rw [List.cons_append, List.cons_append, splitDouble, if_pos hdouble]
      · rw [splitDouble_cons_other rest hdouble, Option.map_eq_some_iff] at h
        obtain ⟨⟨a', y'⟩, hsplit, heq⟩ := h
        cases heq
        rw [List.cons_append, List.cons_append, splitDouble_cons_other _ hdouble, ← List.cons_append, ih hsplit]
        rfl

theorem splitDouble_snoc_double (h : splitDouble (text ++ [':'.toUInt8]) = none) :
    splitDouble (text ++ [':'.toUInt8] ++ [':'.toUInt8]) = some (text, []) := by
  induction text with
  | nil => rfl
  | cons b text ih =>
    obtain ⟨d, rest, hcons⟩ : ∃ d rest, text ++ [':'.toUInt8] = d :: rest :=
      List.exists_cons_of_ne_nil (by simp)
    rw [List.cons_append, hcons] at h
    have hdouble : ¬ (b = ':'.toUInt8 ∧ d = ':'.toUInt8) := by
      intro hdouble
      rw [splitDouble, if_pos hdouble] at h
      cases h
    rw [splitDouble_cons_other rest hdouble, Option.map_eq_none_iff, ← hcons] at h
    have hih := ih h
    rw [hcons] at hih
    rw [List.cons_append, hcons, List.cons_append, List.cons_append, splitDouble_cons_other _ hdouble,
      ← List.cons_append, hih]
    rfl

theorem splitDouble_snoc_none (h : splitDouble text = none) (hc : c = ':'.toUInt8 → text.getLast? ≠ some ':'.toUInt8) :
    splitDouble (text ++ [c]) = none := by
  induction text with
  | nil => rfl
  | cons b text ih =>
    cases text with
    | nil =>
      rw [List.cons_append, List.nil_append, splitDouble, if_neg]
      · rfl
      · rintro ⟨hb, hcolon⟩
        exact hc hcolon (by rw [hb]; rfl)
    | cons d rest =>
      have hdouble : ¬ (b = ':'.toUInt8 ∧ d = ':'.toUInt8) := by
        intro hdouble
        rw [splitDouble, if_pos hdouble] at h
        cases h
      rw [splitDouble_cons_other rest hdouble, Option.map_eq_none_iff] at h
      rw [List.cons_append, List.cons_append, splitDouble_cons_other _ hdouble, ← List.cons_append,
        ih h fun hcolon => hc hcolon ∘ fun hlast => by rw [List.getLast?_cons_cons]; exact hlast]
      rfl

/-! ## One turn -/

/-- The variables after a change of the state. -/
def Scan.settled (s : Scan) : Scan :=
  { s with sixteen := 0, port := 0, charCounter := 0, isUpperHexdigit := false, stateChange := false }

/-- What a character other than a bracket does, as long as the state is not the one for errors. -/
inductive Turn (s : Scan) : UInt8 → Scan → Prop where
  | digit {c : UInt8} : isxdigit c = true →
      Turn s c { s with sixteen := char2Hex s.sixteen c, charCounter := s.charCounter + 1, isUpperHexdigit := false }
  | place : s.state ≤ 6 → s.state = 0 ∨ s.charCounter ≠ 0 → s.state ≤ 1 ∨ s.zeroCompression = false →
      Turn s ':'.toUInt8 ((s.assign s.state).enter (s.state + 1)).settled
  | compressFirst : s.state = 1 → s.charCounter = 0 → Turn s ':'.toUInt8 (s.compress.enter 2).settled
  | compress : 2 ≤ s.state → s.state ≤ 6 → s.charCounter = 0 → s.alreadyCompressed = false →
      Turn s ':'.toUInt8 { s.compress with charCounter := 1 }
  | push : 2 ≤ s.state → s.state ≤ 6 → s.zeroCompression = true →
      Turn s ':'.toUInt8 (s.pushUnsorted.enter (s.state + 1)).settled

theorem settle_state (h : s.settle = some s') : s'.state = s.state := by
  unfold Scan.settle at h
  split_ifs at h <;> cases h <;> rfl

theorem settle_change (h : s.settle = some s') (hchange : s.stateChange = true) : s' = s.settled := by
  unfold Scan.settle at h
  rw [if_pos hchange] at h
  split_ifs at h
  exact (Option.some.inj h).symm

theorem settle_same (h : s.settle = some s') (hchange : s.stateChange = false) : s' = s := by
  simp only [Scan.settle, hchange, Bool.false_eq_true, if_false] at h
  split_ifs at h
  exact (Option.some.inj h).symm

theorem isxdigit_colon : isxdigit ':'.toUInt8 = false := by decide

theorem transition_middle (c : UInt8) (h2 : 2 ≤ s.state) (h6 : s.state ≤ 6) :
    transition s c = some (
      if isxdigit c then s.hexdigit c
      else if c = ':'.toUInt8 then
        if s.charCounter = 0 then
          if s.alreadyCompressed then s.error else s.compress
        else if s.zeroCompression then s.pushUnsorted.enter (s.state + 1)
        else (s.assign s.state).enter (s.state + 1)
      else if c = ']'.toUInt8 then
        if s.bracketExpected && s.zeroCompression then
          ({ s with bracketExpected := false } : Scan).pushUnsorted.enter 8
        else s.error
      else s.error) := by
  obtain h | h | h | h | h : s.state = 2 ∨ s.state = 3 ∨ s.state = 4 ∨ s.state = 5 ∨ s.state = 6 := by omega
  all_goals simp only [transition, h]

theorem state_cases (h : n ≤ 7) : n = 0 ∨ n = 1 ∨ (2 ≤ n ∧ n ≤ 6) ∨ n = 7 := by omega

theorem transition_hexdigit (s : Scan) (h : s.state ≤ 7) (hc : isxdigit c = true) (hopen : c ≠ '['.toUInt8) :
    transition s c = some (s.hexdigit c) := by
  rcases state_cases h with h | h | ⟨h2, h6⟩ | h
  · simp only [transition, h, hopen, hc, if_false, if_true]
  · simp only [transition, h, hc, if_true]
  · rw [transition_middle c h2 h6, if_pos hc]
  · simp only [transition, h, hc, if_true]

theorem transition_other (s : Scan) (h : s.state ≤ 7) (hc : isxdigit c = false) (hcolon : c ≠ ':'.toUInt8)
    (hopen : c ≠ '['.toUInt8) (hclose : c ≠ ']'.toUInt8) : transition s c = some s.error := by
  rcases state_cases h with h | h | ⟨h2, h6⟩ | h
  · simp only [transition, h, hopen, hc, hcolon, Bool.false_eq_true, if_false]
  · simp only [transition, h, hc, hcolon, Bool.false_eq_true, if_false]
  · simp only [transition_middle c h2 h6, hc, hcolon, hclose, Bool.false_eq_true, if_false]
  · simp only [transition, h, hc, hclose, Bool.false_eq_true, if_false]

def Scan.counted (s : Scan) : Scan := { s with charCounter := s.charCounter + 1 }

def Scan.noted (s : Scan) (upper : Bool) : Scan := { s with isUpperHexdigit := upper }

/-- A letter is noted to be in upper case or not. -/
def upperAfter (upper : Bool) (c : UInt8) : Bool := if isxdigit c && !isdigit c then isupper c else upper

theorem turn_eq (s : Scan) (c : UInt8) :
    turn s c = (transition (s.noted (upperAfter s.isUpperHexdigit c)) c).map Scan.counted := by
  have hmap : ∀ r : Option Scan, (r.bind fun t => some t.counted) = r.map Scan.counted := by
    intro r
    cases r <;> rfl
  rw [turn, upperAfter, ← hmap]
  split_ifs <;> rfl

theorem step_eq (s : Scan) (c : UInt8) :
    step s c = (transition (s.noted (upperAfter s.isUpperHexdigit c)) c).bind fun t => t.counted.settle := by
  rw [step, turn_eq, Option.bind_map]
  rfl

theorem noted_of_not_isxdigit (s : Scan) (h : isxdigit c = false) :
    s.noted (upperAfter s.isUpperHexdigit c) = s := by
  rw [upperAfter, h]
  rfl

theorem turn_colon (hstate : s.state ≤ 7) (hchange : s.stateChange = false) (h : transition s ':'.toUInt8 = some t)
    (hne : t.state ≠ 11) :
    Turn s ':'.toUInt8 (if t.stateChange then t.settled else t.counted) := by
  rcases state_cases hstate with h0 | h1 | ⟨h2, h6⟩ | h7
  · have ht : (s.assign s.state).enter (s.state + 1) = t := by
      simp only [transition, h0, isxdigit_colon, Bool.false_eq_true, if_false, if_true, Option.some.injEq] at h
      rw [if_neg (by decide)] at h
      rw [h0, h]
    rw [← ht]
    exact Turn.place (by omega) (.inl h0) (.inl (by omega))
  · simp only [transition, h1, isxdigit_colon, Bool.false_eq_true, if_false, if_true, Option.some.injEq] at h
    by_cases hcc : s.charCounter = 0
    · rw [if_pos hcc] at h
      rw [← h]
      exact Turn.compressFirst h1 hcc
    · rw [if_neg hcc] at h
      have ht : (s.assign s.state).enter (s.state + 1) = t := by rw [h1, h]
      rw [← ht]
      exact Turn.place (by omega) (.inr hcc) (.inl (by omega))
  · simp only [transition_middle _ h2 h6, isxdigit_colon, Bool.false_eq_true, if_false, if_true, Option.some.injEq] at h
    by_cases hcc : s.charCounter = 0
    · cases ha : s.alreadyCompressed with
      | true =>
        rw [if_pos hcc, if_pos ha] at h
        exact absurd (h ▸ rfl) hne
      | false =>
        rw [if_pos hcc, if_neg (by rw [ha]; decide)] at h
        have ht : (if t.stateChange then t.settled else t.counted) = { s.compress with charCounter := 1 } := by
          rw [← h, if_neg (by show ¬ s.stateChange = true; rw [hchange]; decide)]
          show { s.compress with charCounter := s.charCounter + 1 } = _
          rw [hcc]
        rw [ht]
        exact Turn.compress h2 h6 hcc ha
    · cases hz : s.zeroCompression with
      | true =>
        rw [if_neg hcc, if_pos hz] at h
        rw [← h]
        exact Turn.push h2 h6 hz
      | false =>
        rw [if_neg hcc, if_neg (by rw [hz]; decide)] at h
        rw [← h]
        exact Turn.place h6 (.inr hcc) (.inr hz)
  · simp only [transition, h7, isxdigit_colon, Bool.false_eq_true, if_false, Option.some.injEq] at h
    rw [if_neg (by decide)] at h
    exact absurd (h ▸ rfl) hne

theorem step_turn (h : step s c = some s') (hne : s'.state ≠ 11) (hstate : s.state ≤ 7)
    (hchange : s.stateChange = false) (hopen : c ≠ '['.toUInt8) (hclose : c ≠ ']'.toUInt8) : Turn s c s' := by
  rw [step_eq, Option.bind_eq_some_iff] at h
  obtain ⟨t, ht, hsettle⟩ := h
  have hstate' : s'.state = t.counted.state := settle_state hsettle
  have hres : s' = if t.stateChange then t.settled else t.counted := by
    cases hc : t.counted.stateChange with
    | true => exact (settle_change hsettle hc).trans (if_pos hc).symm
    | false => exact (settle_same hsettle hc).trans (if_neg (show ¬ t.counted.stateChange by rw [hc]; decide)).symm
  cases hx : isxdigit c with
  | true =>
    rw [transition_hexdigit (s.noted (upperAfter s.isUpperHexdigit c)) hstate hx hopen] at ht
    cases hupper : upperAfter s.isUpperHexdigit c with
    | true =>
      rw [hupper] at ht
      rw [hstate', ← Option.some.inj ht] at hne
      exact absurd rfl hne
    | false =>
      rw [hupper] at ht
      rw [hres, ← Option.some.inj ht]
      show Turn s c (if s.stateChange = true then _ else _)
      rw [if_neg (by rw [hchange]; decide)]
      exact Turn.digit hx
  | false =>
    rw [noted_of_not_isxdigit s hx] at ht
    rw [hstate'] at hne
    by_cases hcolon : c = ':'.toUInt8
    · subst hcolon
      rw [hres]
      exact turn_colon hstate hchange ht hne
    · rw [transition_other s hstate hx hcolon hopen hclose] at ht
      exact absurd (Option.some.inj ht ▸ rfl) hne

/-! ## What is known after a text -/

/-- A text without `::`: each group stands in its place. -/
structure PlainRead (text : Bytes) (s : Scan) : Prop where
  compression : s.zeroCompression = false
  already : s.alreadyCompressed = false
  unsorted : s.unsorted = []
  state : s.state = colons text
  fresh : s.charCounter = 0 → s.sixteen = 0 ∧ (text = [] ∨ text.getLast? = some ':'.toUInt8)
  colon : text.getLast? = some ':'.toUInt8 → s.charCounter = 0
  zeros : s.address.sixteen.drop s.state = List.replicate (8 - s.state) 0

/-- The state in which the groups behind `::` begin. -/
def places (before : Bytes) : ℕ := max (colons before + 1) 2

/-- The groups behind `::` wait for the end of the text. -/
structure CompressedRead (before behind : Bytes) (s : Scan) : Prop where
  compression : s.zeroCompression = true
  already : s.alreadyCompressed = true
  groups : groupsOf behind = s.unsorted ++ [s.sixteen]
  inside : places before ≤ 6
  state : s.state = places before + colons behind
  zeros : s.address.sixteen.drop (colons before + 1) = List.replicate (7 - colons before) 0

/-- What both kinds of texts share. -/
structure Sound (s : Scan) : Prop where
  settled : s.stateChange = false
  bracket : s.bracketExpected = false
  port : s.address.port = 0
  length : s.address.sixteen.length = 8
  state : s.state ≤ 7

structure Reads (text : Bytes) (s : Scan) : Prop extends Sound s where
  plain : splitDouble text = none → PlainRead text s
  compressed : ∀ before behind, splitDouble text = some (before, behind) → CompressedRead before behind s

theorem reads_start : Reads [] .start where
  settled := rfl
  bracket := rfl
  port := rfl
  length := rfl
  state := by decide
  plain _ := ⟨rfl, rfl, rfl, rfl, fun _ => ⟨rfl, .inl rfl⟩, fun _ => rfl, rfl⟩
  compressed _ _ h := nomatch h

theorem getLast?_snoc (text : Bytes) (c : UInt8) : (text ++ [c]).getLast? = some c := List.getLast?_concat

theorem ne_colon_of_isxdigit (h : isxdigit c = true) : c ≠ ':'.toUInt8 := by
  rintro rfl
  rw [isxdigit_colon] at h
  cases h

/-- A colon that ends a text with a colon ends its first `::`. -/
theorem PlainRead.double (h : PlainRead text s) (hnone : splitDouble text = none) (hcc : s.charCounter = 0)
    (hstate : s.state ≠ 0) :
    ∃ before, text = before ++ [':'.toUInt8] ∧ splitDouble (text ++ [':'.toUInt8]) = some (before, []) := by
  rcases (h.fresh hcc).2 with hnil | hlast
  · rw [h.state, hnil] at hstate
    exact absurd rfl hstate
  · obtain ⟨before, hbefore⟩ := List.getLast?_eq_some_iff.mp hlast
    subst hbefore
    exact ⟨before, rfl, splitDouble_snoc_double hnone⟩

/-- A group that ends where no `::` begins. -/
theorem PlainRead.single (h : PlainRead text s) (hnone : splitDouble text = none)
    (hcc : s.state = 0 ∨ s.charCounter ≠ 0) : splitDouble (text ++ [':'.toUInt8]) = none := by
  refine splitDouble_snoc_none hnone fun _ hlast => ?_
  have hzero := h.colon hlast
  rcases hcc with hcc | hcc
  · obtain ⟨before, rfl⟩ := List.getLast?_eq_some_iff.mp hlast
    rw [h.state, colons_colon] at hcc
    exact absurd hcc (Nat.succ_ne_zero _)
  · exact hcc hzero

theorem drop_set_replicate {i : ℕ} (v : ℕ) (h : l.drop i = List.replicate (n + 1) 0) :
    (l.set i v).drop (i + 1) = List.replicate n 0 := by
  rw [List.drop_set_of_lt (Nat.lt_add_one i), ← List.drop_drop, h, List.drop_replicate, Nat.add_sub_cancel]

theorem Sound.plain {text : Bytes} {s : Scan} (h : Sound s) (hnone : splitDouble text = none) (hp : PlainRead text s) :
    Reads text s :=
  ⟨h, fun _ => hp, fun _ _ hsome => by rw [hnone] at hsome; cases hsome⟩

theorem Sound.compressed {text before behind : Bytes} {s : Scan} (h : Sound s)
    (hsome : splitDouble text = some (before, behind)) (hr : CompressedRead before behind s) : Reads text s := by
  refine ⟨h, fun hnone => ?_, fun before' behind' hsome' => ?_⟩
  · rw [hsome] at hnone
    cases hnone
  · rw [hsome] at hsome'
    cases hsome'
    exact hr

theorem Reads.plain_turn (h : Reads text s) (hsplit : splitDouble text = none) (hturn : Turn s c s') :
    Reads (text ++ [c]) s' := by
  have hp := h.plain hsplit
  cases hturn with
  | digit hc =>
    have hcolon := ne_colon_of_isxdigit hc
    refine Sound.plain ⟨h.settled, h.bracket, h.port, h.length, h.state⟩
      (splitDouble_snoc_none hsplit fun heq => absurd heq hcolon)
      ⟨hp.compression, hp.already, hp.unsorted, ?_, fun h0 => absurd h0 (Nat.succ_ne_zero _), ?_, hp.zeros⟩
    · rw [colons_other text hcolon]
      exact hp.state
    · rw [getLast?_snoc]
      exact fun heq => absurd (Option.some.inj heq) hcolon
  | place h6 hcc hz =>
    refine Sound.plain ⟨rfl, h.bracket, h.port, ?_, Nat.succ_le_succ h6⟩ (hp.single hsplit hcc)
      ⟨hp.compression, hp.already, hp.unsorted, ?_, fun _ => ⟨rfl, .inr (getLast?_snoc _ _)⟩, fun _ => rfl, ?_⟩
    · show (s.address.sixteen.set s.state s.sixteen).length = 8
      rw [List.length_set, h.length]
    · show s.state + 1 = _
      rw [colons_colon, hp.state]
    · show (s.address.sixteen.set s.state s.sixteen).drop (s.state + 1) = List.replicate (8 - (s.state + 1)) 0
      refine drop_set_replicate _ ?_
      rw [hp.zeros]
      congr 1
      omega
  | compressFirst h1 hcc =>
    obtain ⟨before, htext, hsome⟩ := hp.double hsplit hcc (by omega)
    have hbefore : colons before = 0 := by
      have hstate := hp.state
      rw [htext, colons_colon, h1] at hstate
      omega
    refine Sound.compressed ⟨rfl, h.bracket, h.port, h.length, by show 2 ≤ 7; omega⟩ hsome ⟨rfl, rfl, ?_, ?_, ?_, ?_⟩
    · show groupsOf [] = s.unsorted ++ [0]
      rw [hp.unsorted]
      rfl
    · rw [places, hbefore]
      decide
    · rw [places, hbefore]
      rfl
    · have hzeros := hp.zeros
      rw [h1] at hzeros
      rw [hbefore]
      exact hzeros
  | compress h2 h6 hcc ha =>
    obtain ⟨before, htext, hsome⟩ := hp.double hsplit hcc (by omega)
    have hbefore : s.state = colons before + 1 := by rw [hp.state, htext, colons_colon]
    refine Sound.compressed ⟨h.settled, h.bracket, h.port, h.length, h.state⟩ hsome ⟨rfl, rfl, ?_, ?_, ?_, ?_⟩
    · show groupsOf [] = s.unsorted ++ [s.sixteen]
      rw [hp.unsorted, (hp.fresh hcc).1]
      rfl
    · show max (colons before + 1) 2 ≤ 6
      omega
    · show s.state = max (colons before + 1) 2 + 0
      omega
    · have hzeros := hp.zeros
      rw [hbefore, Nat.add_comm (colons before) 1, ← Nat.sub_sub, Nat.add_comm 1 (colons before)] at hzeros
      exact hzeros
  | push h2 h6 hz =>
    rw [hp.compression] at hz
    cases hz

theorem Reads.compressed_turn (h : Reads text s) (hsplit : splitDouble text = some (before, behind))
    (hturn : Turn s c s') : Reads (text ++ [c]) s' := by
  have hr := h.compressed before behind hsplit
  have hsome := splitDouble_snoc_some c hsplit
  have hplaces : 2 ≤ places before := Nat.le_max_right _ _
  have hstate := hr.state
  cases hturn with
  | digit hc =>
    have hcolon := ne_colon_of_isxdigit hc
    refine Sound.compressed ⟨h.settled, h.bracket, h.port, h.length, h.state⟩ hsome
      ⟨hr.compression, hr.already, groupsOf_digit hcolon hr.groups, hr.inside, ?_, hr.zeros⟩
    rw [colons_other behind hcolon]
    exact hr.state
  | place h6 hcc hz =>
    rw [hr.compression] at hz
    rcases hz with hz | hz
    · omega
    · cases hz
  | compressFirst h1 hcc => omega
  | compress h2 h6 hcc ha =>
    rw [hr.already] at ha
    cases ha
  | push h2 h6 hz =>
    refine Sound.compressed ⟨rfl, h.bracket, h.port, h.length, Nat.succ_le_succ h6⟩ hsome
      ⟨hr.compression, hr.already, ?_, hr.inside, ?_, hr.zeros⟩
    · rw [groupsOf_colon, hr.groups]
      rfl
    · show s.state + 1 = _
      rw [colons_colon, hr.state]
      rfl

theorem Reads.turn (h : Reads text s) (hturn : Turn s c s') : Reads (text ++ [c]) s' := by
  cases hsplit : splitDouble text with
  | none => exact h.plain_turn hsplit hturn
  | some parts => exact h.compressed_turn hsplit hturn

/-! ## Whole texts -/

theorem scan_cons (s : Scan) (c : UInt8) (text : Bytes) : scan s (c :: text) = (step s c).bind fun s => scan s text := by
  rw [scan, List.foldlM_cons]
  rfl

theorem scan_append (s : Scan) (text rest : Bytes) : scan s (text ++ rest) = (scan s text).bind fun s => scan s rest := by
  rw [scan, List.foldlM_append]
  rfl

theorem scan_snoc (s : Scan) (text : Bytes) (c : UInt8) : scan s (text ++ [c]) = (scan s text).bind fun s => step s c := by
  simp [scan]

theorem step_error (c : UInt8) (h : s.state = 11) : step s c = none := by
  have hstate : (s.noted (upperAfter s.isUpperHexdigit c)).state = 11 := h
  rw [step_eq, transition, hstate]
  rfl

theorem state_of_step (h : step t c = some s) : t.state ≠ 11 := by
  intro herror
  rw [step_error c herror] at h
  cases h

theorem scan_reads (h : scan .start text = some s) (hne : s.state ≠ 11) (hopen : '['.toUInt8 ∉ text)
    (hclose : ']'.toUInt8 ∉ text) : Reads text s := by
  induction text using List.reverseRecOn generalizing s with
  | nil =>
    obtain rfl := Option.some.inj h
    exact reads_start
  | append_singleton text c ih =>
    rw [scan_snoc, Option.bind_eq_some_iff] at h
    obtain ⟨t, ht, hstep⟩ := h
    have hne' := state_of_step hstep
    have hreads := ih ht hne' (fun hmem => hopen (List.mem_append_left _ hmem))
      fun hmem => hclose (List.mem_append_left _ hmem)
    exact hreads.turn (step_turn hstep hne hreads.state hreads.settled (fun heq => hopen (by simp [heq]))
      fun heq => hclose (by simp [heq]))

/-! ## Brackets -/

def Scan.rebracket (s : Scan) (expected : Bool) (counter : ℕ) : Scan :=
  { s with bracketExpected := expected, charCounter := counter }

/-- The same scan behind an opening bracket, which was counted as a character. -/
def Scan.bracketed (s : Scan) : Scan := s.rebracket true (if s.state = 0 then s.charCounter + 1 else s.charCounter)

theorem hexdigit_rebracket (s : Scan) (c : UInt8) (expected : Bool) (n : ℕ) :
    (s.rebracket expected n).hexdigit c = (s.hexdigit c).rebracket expected n := by
  have hupper : (s.rebracket expected n).isUpperHexdigit = s.isUpperHexdigit := rfl
  rw [Scan.hexdigit, Scan.hexdigit, hupper]
  split_ifs <;> rfl

/-- Only a bracket looks at the flag, and in the first state only a bracket looks at the counter. -/
theorem transition_rebracket (expected : Bool) (hstate : s.state ≤ 7) (hn : s.state = 0 ∨ n = s.charCounter)
    (hopen : c ≠ '['.toUInt8) (hclose : c ≠ ']'.toUInt8) :
    transition (s.rebracket expected n) c = (transition s c).map fun t => t.rebracket expected n := by
  have hs : (s.rebracket expected n).state = s.state := rfl
  rcases state_cases hstate with h | h | ⟨h2, h6⟩ | h
  · simp only [transition, hs, h, hopen, hexdigit_rebracket, if_false, Option.map_some]
    split_ifs <;> rfl
  · obtain rfl := hn.resolve_left (by omega)
    simp only [transition, hs, h, hexdigit_rebracket, Option.map_some]
    show some (if _ then _ else if _ then if s.charCounter = 0 then _ else _ else _) = _
    split_ifs <;> rfl
  · obtain rfl := hn.resolve_left (by omega)
    rw [transition_middle c h2 h6, transition_middle c (s := s.rebracket expected _) h2 h6]
    simp only [hclose, hexdigit_rebracket, if_false, Option.map_some]
    show some (if _ then _ else if _ then if s.charCounter = 0 then if s.alreadyCompressed then _ else _
      else if s.zeroCompression then _ else _ else _) = _
    split_ifs <;> rfl
  · simp only [transition, hs, h, hclose, hexdigit_rebracket, if_false, Option.map_some]
    split_ifs <;> rfl

/-- A turn counts one character, or enters a state that is not the first. -/
def Counts (s t : Scan) : Prop :=
  t.charCounter = s.charCounter ∧ (t.stateChange = true ∧ t.state ≠ 0 ∨ t.stateChange = false ∧ t.state = s.state)

theorem transition_counts (h : transition s c = some t) (hstate : s.state ≤ 7) (hchange : s.stateChange = false)
    (hopen : c ≠ '['.toUInt8) : Counts s t := by
  have herror : Counts s s.error := ⟨rfl, .inl ⟨rfl, Nat.succ_ne_zero _⟩⟩
  have hhex : Counts s (s.hexdigit c) := by
    rw [Scan.hexdigit]
    split_ifs
    · exact herror
    · exact ⟨rfl, .inr ⟨hchange, rfl⟩⟩
  rcases state_cases hstate with h0 | h1 | ⟨h2, h6⟩ | h7
  · simp only [transition, h0, hopen, if_false] at h
    split_ifs at h <;> obtain rfl := Option.some.inj h
    · exact hhex
    · exact ⟨rfl, .inl ⟨rfl, Nat.succ_ne_zero _⟩⟩
    · exact herror
  · simp only [transition, h1] at h
    split_ifs at h <;> obtain rfl := Option.some.inj h
    · exact hhex
    · exact ⟨rfl, .inl ⟨rfl, Nat.succ_ne_zero _⟩⟩
    · exact ⟨rfl, .inl ⟨rfl, Nat.succ_ne_zero _⟩⟩
    · exact herror
  · rw [transition_middle c h2 h6] at h
    split_ifs at h <;> obtain rfl := Option.some.inj h
    · exact hhex
    · exact herror
    · exact ⟨rfl, .inr ⟨hchange, rfl⟩⟩
    · exact ⟨rfl, .inl ⟨rfl, Nat.succ_ne_zero _⟩⟩
    · exact ⟨rfl, .inl ⟨rfl, Nat.succ_ne_zero _⟩⟩
    · exact ⟨rfl, .inl ⟨rfl, Nat.succ_ne_zero _⟩⟩
    · exact herror
    · exact herror
  · simp only [transition, h7] at h
    split_ifs at h <;> obtain rfl := Option.some.inj h
    · exact hhex
    · exact ⟨rfl, .inl ⟨rfl, Nat.succ_ne_zero _⟩⟩
    · exact herror
    · exact herror

theorem settle_rebracket (t : Scan) (expected : Bool) (n : ℕ) :
    (t.rebracket expected n).counted.settle =
      t.counted.settle.map fun u => u.rebracket expected (if t.stateChange then 0 else n + 1) := by
  show (if 0xFFFF < t.sixteen then none else if 65535 < t.port then none else if t.stateChange then _ else _) =
    Option.map _ (if 0xFFFF < t.sixteen then none else if 65535 < t.port then none else if t.stateChange then _ else _)
  split_ifs <;> rfl

theorem step_bracketed (h : step s c = some s') (hstate : s.state ≤ 7) (hchange : s.stateChange = false)
    (hopen : c ≠ '['.toUInt8) (hclose : c ≠ ']'.toUInt8) :
    step s.bracketed c = some s'.bracketed := by
  rw [step_eq, Option.bind_eq_some_iff] at h
  obtain ⟨t, ht, hsettle⟩ := h
  obtain ⟨hcounter, heffect⟩ := transition_counts ht hstate hchange hopen
  obtain ⟨n, hn⟩ : ∃ n, n = if s.state = 0 then s.charCounter + 1 else s.charCounter := ⟨_, rfl⟩
  have hor : s.state = 0 ∨ n = s.charCounter := by
    by_cases h0 : s.state = 0
    · exact .inl h0
    · exact .inr (hn.trans (if_neg h0))
  have htransition := transition_rebracket (s := s.noted (upperAfter s.isUpperHexdigit c)) true hstate hor hopen hclose
  rw [Scan.bracketed, ← hn, step_eq]
  show (transition ((s.noted (upperAfter s.isUpperHexdigit c)).rebracket true n) c).bind _ = _
  rw [htransition, ht, Option.map_some, Option.bind_some, settle_rebracket, hsettle, Option.map_some, Scan.bracketed]
  rcases heffect with ⟨hc, hne⟩ | ⟨hc, heq⟩
  · have hs' : s'.state ≠ 0 := by
      rw [settle_state hsettle]
      exact hne
    rw [if_pos hc, if_neg hs', settle_change hsettle hc]
    rfl
  · have hstate' : s'.state = s.state := (settle_state hsettle).trans heq
    have hcounter' : s'.charCounter = s.charCounter + 1 := by
      rw [settle_same hsettle hc]
      exact congrArg (· + 1) hcounter
    rw [if_neg (by rw [hc]; decide), hstate', hcounter', hn]
    split_ifs <;> rfl

theorem scan_bracketed (h : scan .start text = some s) (hne : s.state ≠ 11) (hopen : '['.toUInt8 ∉ text)
    (hclose : ']'.toUInt8 ∉ text) :
    scan .start ('['.toUInt8 :: text) = some s.bracketed := by
  induction text using List.reverseRecOn generalizing s with
  | nil =>
    obtain rfl := Option.some.inj h
    rfl
  | append_singleton text c ih =>
    rw [scan_snoc, Option.bind_eq_some_iff] at h
    obtain ⟨t, ht, hstep⟩ := h
    have hne' := state_of_step hstep
    have hopen' : '['.toUInt8 ∉ text := fun hmem => hopen (List.mem_append_left _ hmem)
    have hclose' : ']'.toUInt8 ∉ text := fun hmem => hclose (List.mem_append_left _ hmem)
    have hreads := scan_reads ht hne' hopen' hclose'
    rw [← List.cons_append, scan_snoc, ih ht hne' hopen' hclose', Option.bind_some]
    exact step_bracketed hstep hreads.state hreads.settled (fun heq => hopen (by simp [heq]))
      fun heq => hclose (by simp [heq])

/-! ## The closing bracket and the port -/

/-- Behind a closing bracket. -/
def Scan.closed (address : IPV6Address) (unsorted : List ℕ) (compression already : Bool) : Scan where
  address := address
  sixteen := 0
  unsorted := unsorted
  bracketExpected := false
  port := 0
  charCounter := 0
  isUpperHexdigit := false
  zeroCompression := compression
  alreadyCompressed := already
  state := 8
  stateChange := false

theorem settle_bounds (h : s.settle = some s') : s'.sixteen ≤ 0xFFFF ∧ s'.port ≤ 65535 := by
  unfold Scan.settle at h
  split_ifs at h <;> obtain rfl := Option.some.inj h
  · exact ⟨Nat.zero_le _, Nat.zero_le _⟩
  · exact ⟨by omega, by omega⟩

theorem scan_bounds (h : scan .start text = some s) : s.sixteen ≤ 0xFFFF ∧ s.port ≤ 65535 := by
  induction text using List.reverseRecOn with
  | nil =>
    obtain rfl := Option.some.inj h
    exact ⟨Nat.zero_le _, Nat.zero_le _⟩
  | append_singleton text c _ =>
    rw [scan_snoc, Option.bind_eq_some_iff] at h
    obtain ⟨t, -, hstep⟩ := h
    rw [step_eq, Option.bind_eq_some_iff] at hstep
    obtain ⟨u, -, hsettle⟩ := hstep
    exact settle_bounds hsettle

theorem settle_eq (s : Scan) (h : s.sixteen ≤ 0xFFFF ∧ s.port ≤ 65535) :
    s.settle = some (if s.stateChange then s.settled else s) := by
  rw [Scan.settle, if_neg (Nat.not_lt.mpr h.1), if_neg (Nat.not_lt.mpr h.2)]
  split_ifs <;> rfl

theorem step_of_transition (hx : isxdigit c = false) (h : transition s c = some t)
    (hbounds : t.sixteen ≤ 0xFFFF ∧ t.port ≤ 65535) (hchange : t.stateChange = true) :
    step s c = some t.settled := by
  rw [step_eq, noted_of_not_isxdigit s hx, h, Option.bind_some, settle_eq t.counted hbounds]
  exact congrArg some (if_pos hchange)

theorem close_early (h2 : 2 ≤ s.state) (h6 : s.state ≤ 6) (hz : s.zeroCompression = true)
    (hbounds : s.sixteen ≤ 0xFFFF ∧ s.port ≤ 65535) :
    step s.bracketed ']'.toUInt8 =
      some (Scan.closed s.address (s.unsorted ++ [s.sixteen]) s.zeroCompression s.alreadyCompressed) := by
  have htransition : transition s.bracketed ']'.toUInt8 =
      some ((({ s.bracketed with bracketExpected := false } : Scan).pushUnsorted).enter 8) := by
    rw [transition_middle (s := s.bracketed) _ h2 h6, if_neg (by decide), if_neg (by decide), if_pos rfl, if_pos]
    show (true && s.zeroCompression) = true
    rw [hz]
    rfl
  exact step_of_transition (by decide) htransition hbounds rfl

theorem close_late (h7 : s.state = 7) (hbounds : s.sixteen ≤ 0xFFFF ∧ s.port ≤ 65535) :
    step s.bracketed ']'.toUInt8 =
      some (Scan.closed (s.assign 7).address s.unsorted s.zeroCompression s.alreadyCompressed) := by
  have h7' : s.bracketed.state = 7 := h7
  have htransition : transition s.bracketed ']'.toUInt8 =
      some ((({ s.bracketed with bracketExpected := false } : Scan).assign 7).enter 8) := by
    simp only [transition, h7']
    rw [if_neg (by decide), if_pos trivial]
    rfl
  exact step_of_transition (by decide) htransition hbounds rfl

/-- The number that digits stand for. -/
def decimal (digits : Bytes) : ℕ := digits.foldl char2Dec 0

theorem le_foldl_char2Dec (h : ∀ c ∈ digits, isdigit c = true) (n : ℕ) : n ≤ digits.foldl char2Dec n := by
  induction digits generalizing n with
  | nil => exact Nat.le_refl n
  | cons c digits ih =>
    have hc : '0'.toNat ≤ c.toNat := by
      have hdigit := h c List.mem_cons_self
      simp only [isdigit, Bool.and_eq_true, decide_eq_true_eq] at hdigit
      exact UInt8.le_iff_toNat_le.mp hdigit.1
    have hstep : n ≤ char2Dec n c := by
      rw [char2Dec]
      omega
    exact Nat.le_trans hstep (ih (fun d hd => h d (List.mem_cons_of_mem _ hd)) _)

theorem step_digit (h9 : s.state = 9) (hchange : s.stateChange = false) (hsixteen : s.sixteen ≤ 0xFFFF)
    (hc : isdigit c = true) (hport : char2Dec s.port c ≤ 65535) :
    step s c = some { s with port := char2Dec s.port c, charCounter := s.charCounter + 1 } := by
  have hnoted : s.noted (upperAfter s.isUpperHexdigit c) = s := by
    rw [upperAfter, hc, Bool.not_true, Bool.and_false]
    rfl
  have htransition : transition s c = some { s with port := char2Dec s.port c } := by
    simp only [transition, h9, hc, if_true]
  have hsettle := settle_eq ({ s with port := char2Dec s.port c } : Scan).counted ⟨hsixteen, hport⟩
  rw [step_eq, hnoted, htransition, Option.bind_some, hsettle]
  exact congrArg some (if_neg (show ¬ s.stateChange = true by rw [hchange]; decide))

theorem scan_digits (h : ∀ c ∈ digits, isdigit c = true) (h9 : s.state = 9) (hchange : s.stateChange = false)
    (hsixteen : s.sixteen ≤ 0xFFFF) (hport : digits.foldl char2Dec s.port ≤ 65535) :
    scan s digits = some { s with port := digits.foldl char2Dec s.port, charCounter := s.charCounter + digits.length } := by
  induction digits generalizing s with
  | nil => rfl
  | cons c digits ih =>
    have hrest : ∀ d ∈ digits, isdigit d = true := fun d hd => h d (List.mem_cons_of_mem _ hd)
    have hle := le_foldl_char2Dec hrest (char2Dec s.port c)
    have hstep := step_digit h9 hchange hsixteen (h c List.mem_cons_self) (Nat.le_trans hle hport)
    have hscan := ih (s := { s with port := char2Dec s.port c, charCounter := s.charCounter + 1 }) hrest h9 hchange
      hsixteen hport
    rw [scan_cons, hstep, Option.bind_some, hscan, List.foldl_cons, List.length_cons,
      Nat.add_right_comm, Nat.add_assoc]

/-! ## The count of the characters -/

theorem hexdigit_charCounter (s : Scan) (c : UInt8) : (s.hexdigit c).charCounter = s.charCounter := by
  rw [Scan.hexdigit]
  split_ifs <;> rfl

theorem transition_charCounter (h : transition s c = some t) : t.charCounter = s.charCounter := by
  unfold transition at h
  split at h
  any_goals split_ifs at h <;> obtain rfl := Option.some.inj h <;> first | rfl | exact hexdigit_charCounter s c
  · obtain rfl := Option.some.inj h
    rfl
  · cases h

theorem turn_charCounter {u : Scan} (h : turn s c = some u) : u.charCounter = s.charCounter + 1 := by
  rw [turn_eq, Option.map_eq_some_iff] at h
  obtain ⟨t, ht, rfl⟩ := h
  have hcount : t.charCounter = (s.noted (upperAfter s.isUpperHexdigit c)).charCounter := transition_charCounter ht
  exact congrArg (· + 1) hcount

theorem settle_charCounter_le (h : s.settle = some s') : s'.charCounter ≤ s.charCounter := by
  unfold Scan.settle at h
  split_ifs at h <;> obtain rfl := Option.some.inj h
  · exact Nat.zero_le _
  · exact Nat.le_refl _

theorem counts_of_short (h : s.charCounter + text.length ≤ 2147483647) : counts s text = true := by
  induction text generalizing s with
  | nil => rfl
  | cons c text ih =>
    rw [List.length_cons] at h
    rw [counts]
    cases hturn : turn s c with
    | none => rfl
    | some t =>
      have hcount := turn_charCounter hturn
      dsimp only
      rw [decide_eq_true (by omega), Bool.true_and]
      cases hsettle : t.settle with
      | none => rfl
      | some s' =>
        have hle := settle_charCounter_le hsettle
        exact ih (by omega)

theorem counts_append {a b : Bytes} (hscan : scan s a = some t) : counts s (a ++ b) = (counts s a && counts t b) := by
  induction a generalizing s with
  | nil =>
    obtain rfl := Option.some.inj hscan
    exact (Bool.true_and _).symm
  | cons c a ih =>
    rw [scan_cons, step] at hscan
    rw [List.cons_append, counts, counts]
    cases hturn : turn s c with
    | none =>
      rw [hturn] at hscan
      cases hscan
    | some u =>
      rw [hturn, Option.bind_some] at hscan
      obtain ⟨s', hsettle, hscan⟩ := Option.bind_eq_some_iff.mp hscan
      dsimp only
      rw [hsettle, Option.elim_some, Option.elim_some, ih hscan, Bool.and_assoc]

theorem counts_single (hstep : step s c = some s') : counts s [c] = decide (s.charCounter < 2147483647) := by
  obtain ⟨u, hturn, hsettle⟩ := Option.bind_eq_some_iff.mp hstep
  simp only [counts, hturn, hsettle, Option.elim_some, Bool.and_true, turn_charCounter hturn, Nat.succ_le_iff]

/-- The characters up to the first colon, with it. -/
def headLength (text : Bytes) : ℕ := min text.length ((text.takeWhile (· ≠ ':'.toUInt8)).length + 1)

/-- The characters behind the last colon. One more is counted behind a `::` with two groups or more before it, which is no
end of a group. -/
def tailLength (text : Bytes) : ℕ :=
  (text.rtakeWhile (· ≠ ':'.toUInt8)).length +
    (splitDouble text).elim 0 fun parts => if colons parts.2 = 0 ∧ colons parts.1 ≠ 0 then 1 else 0

theorem takeWhile_eq_self (h : ':'.toUInt8 ∉ text) : text.takeWhile (· ≠ ':'.toUInt8) = text := by
  rw [List.takeWhile_eq_self_iff]
  exact fun c hc => decide_eq_true fun heq => h (heq ▸ hc)

theorem headLength_eq (h : ':'.toUInt8 ∉ text) : headLength text = text.length := by
  rw [headLength, takeWhile_eq_self h]
  exact Nat.min_eq_left (Nat.le_succ _)

theorem headLength_snoc (h : ':'.toUInt8 ∉ text) (c : UInt8) : headLength (text ++ [c]) = text.length + 1 := by
  rw [headLength, List.takeWhile_append, takeWhile_eq_self h, if_pos rfl]
  simp only [List.length_append, List.length_singleton]
  omega

theorem headLength_snoc_mem (h : ':'.toUInt8 ∈ text) (c : UInt8) : headLength (text ++ [c]) = headLength text := by
  have hsublist := List.takeWhile_sublist (l := text) (· ≠ ':'.toUInt8)
  have hne : (text.takeWhile (· ≠ ':'.toUInt8)).length ≠ text.length := by
    intro hlen
    have hall := List.takeWhile_eq_self_iff.mp (hsublist.eq_of_length hlen)
    exact absurd rfl (of_decide_eq_true (hall _ h))
  have hle := hsublist.length_le
  rw [headLength, headLength, List.takeWhile_append, if_neg hne, List.length_append]
  omega

theorem tailLength_digit (hc : c ≠ ':'.toUInt8) : tailLength (text ++ [c]) = tailLength text + 1 := by
  have hbehind : (splitDouble (text ++ [c])).elim 0 (fun parts => if colons parts.2 = 0 ∧ colons parts.1 ≠ 0 then 1 else 0) =
      (splitDouble text).elim 0 fun parts => if colons parts.2 = 0 ∧ colons parts.1 ≠ 0 then 1 else 0 := by
    cases hsplit : splitDouble text with
    | none => rw [splitDouble_snoc_none hsplit fun heq => absurd heq hc]
    | some parts =>
      rw [splitDouble_snoc_some c hsplit]
      simp only [Option.elim_some, colons_other parts.2 hc]
  rw [tailLength, tailLength, hbehind, List.rtakeWhile_concat, if_pos (decide_eq_true hc), List.length_append,
    List.length_singleton, Nat.add_right_comm]

theorem tailLength_colon (text : Bytes) : tailLength (text ++ [':'.toUInt8]) =
    (splitDouble (text ++ [':'.toUInt8])).elim 0 fun parts =>
      if colons parts.2 = 0 ∧ colons parts.1 ≠ 0 then 1 else 0 := by
  rw [tailLength, List.rtakeWhile_concat_neg _ _ _ (by simp)]
  exact Nat.zero_add _

/-- How far the counter is. -/
structure Tally (text : Bytes) (s : Scan) : Prop where
  first : s.state = 0 → ':'.toUInt8 ∉ text ∧ s.charCounter = text.length
  later : s.state ≠ 0 → ':'.toUInt8 ∈ text
  last : s.charCounter = tailLength text

theorem Reads.tally_turn (h : Reads text s) (ht : Tally text s) (hturn : Turn s c s') : Tally (text ++ [c]) s' := by
  have hcolon : ':'.toUInt8 ∈ text ++ [':'.toUInt8] := List.mem_append_right _ List.mem_cons_self
  cases hturn with
  | digit hc =>
    have hne := ne_colon_of_isxdigit hc
    refine ⟨fun h0 => ⟨?_, ?_⟩, fun hlater => List.mem_append_left _ (ht.later hlater), ?_⟩
    · rw [List.mem_append, List.mem_singleton]
      exact fun hmem => hmem.elim (ht.first h0).1 (Ne.symm hne)
    · rw [List.length_append, ← (ht.first h0).2]
      rfl
    · rw [tailLength_digit hne, ← ht.last]
  | place h6 hcc hz =>
    refine ⟨fun h0 => absurd h0 (Nat.succ_ne_zero _), fun _ => hcolon, ?_⟩
    rw [tailLength_colon]
    cases hsplit : splitDouble text with
    | none =>
      rw [(h.plain hsplit).single hsplit hcc]
      rfl
    | some parts =>
      have hr := h.compressed parts.1 parts.2 hsplit
      have hplaces : 2 ≤ places parts.1 := Nat.le_max_right _ _
      have hstate := hr.state
      rw [hr.compression] at hz
      rcases hz with hz | hz
      · omega
      · cases hz
  | compressFirst h1 hcc =>
    refine ⟨fun h0 => absurd h0 (Nat.succ_ne_zero _), fun _ => hcolon, ?_⟩
    cases hsplit : splitDouble text with
    | none =>
      have hp := h.plain hsplit
      obtain ⟨before, htext, hsome⟩ := hp.double hsplit hcc (by omega)
      have hbefore : colons before = 0 := by
        have hstate := hp.state
        rw [htext, colons_colon, h1] at hstate
        omega
      rw [tailLength_colon, hsome, Option.elim_some, if_neg fun hboth => hboth.2 hbefore]
      rfl
    | some parts =>
      have hstate := (h.compressed parts.1 parts.2 hsplit).state
      have hplaces : 2 ≤ places parts.1 := Nat.le_max_right _ _
      omega
  | compress h2 h6 hcc ha =>
    refine ⟨fun h0 => absurd h0 (by show s.state ≠ 0; omega), fun _ => hcolon, ?_⟩
    cases hsplit : splitDouble text with
    | none =>
      have hp := h.plain hsplit
      obtain ⟨before, htext, hsome⟩ := hp.double hsplit hcc (by omega)
      have hbefore : colons before ≠ 0 := by
        have hstate := hp.state
        rw [htext, colons_colon] at hstate
        omega
      rw [tailLength_colon, hsome, Option.elim_some, if_pos ⟨rfl, hbefore⟩]
    | some parts =>
      rw [(h.compressed parts.1 parts.2 hsplit).already] at ha
      cases ha
  | push h2 h6 hz =>
    refine ⟨fun h0 => absurd h0 (Nat.succ_ne_zero _), fun _ => hcolon, ?_⟩
    cases hsplit : splitDouble text with
    | none =>
      rw [(h.plain hsplit).compression] at hz
      cases hz
    | some parts =>
      rw [tailLength_colon, splitDouble_snoc_some _ hsplit, Option.elim_some, colons_colon,
        if_neg fun hboth => Nat.succ_ne_zero _ hboth.1]
      rfl

theorem scan_tally (h : scan .start text = some s) (hne : s.state ≠ 11) (hopen : '['.toUInt8 ∉ text)
    (hclose : ']'.toUInt8 ∉ text) : Tally text s := by
  induction text using List.reverseRecOn generalizing s with
  | nil =>
    obtain rfl := Option.some.inj h
    exact ⟨fun _ => ⟨List.not_mem_nil, rfl⟩, fun h0 => absurd rfl h0, rfl⟩
  | append_singleton text c ih =>
    rw [scan_snoc, Option.bind_eq_some_iff] at h
    obtain ⟨t, ht, hstep⟩ := h
    have hne' := state_of_step hstep
    have hopen' : '['.toUInt8 ∉ text := fun hmem => hopen (List.mem_append_left _ hmem)
    have hclose' : ']'.toUInt8 ∉ text := fun hmem => hclose (List.mem_append_left _ hmem)
    have hreads := scan_reads ht hne' hopen' hclose'
    exact hreads.tally_turn (ih ht hne' hopen' hclose') (step_turn hstep hne hreads.state hreads.settled
      (fun heq => hopen (by simp [heq])) fun heq => hclose (by simp [heq]))

/-- The opening bracket is counted with the first group. -/
theorem counts_bracketed (h : scan .start text = some s) (hne : s.state ≠ 11) (hopen : '['.toUInt8 ∉ text)
    (hclose : ']'.toUInt8 ∉ text) : counts .start ('['.toUInt8 :: text) = true ↔
      counts .start text = true ∧ headLength text < 2147483647 := by
  induction text using List.reverseRecOn generalizing s with
  | nil => exact iff_of_true rfl ⟨rfl, by decide⟩
  | append_singleton text c ih =>
    rw [scan_snoc, Option.bind_eq_some_iff] at h
    obtain ⟨t, ht, hstep⟩ := h
    have hne' := state_of_step hstep
    have hopen' : '['.toUInt8 ∉ text := fun hmem => hopen (List.mem_append_left _ hmem)
    have hclose' : ']'.toUInt8 ∉ text := fun hmem => hclose (List.mem_append_left _ hmem)
    have hreads := scan_reads ht hne' hopen' hclose'
    have hbracketed := step_bracketed hstep hreads.state hreads.settled (fun heq => hopen (by simp [heq]))
      fun heq => hclose (by simp [heq])
    have htally := scan_tally ht hne' hopen' hclose'
    rw [← List.cons_append, counts_append (scan_bracketed ht hne' hopen' hclose'), counts_single hbracketed,
      counts_append ht, counts_single hstep, Bool.and_eq_true, Bool.and_eq_true, decide_eq_true_iff, decide_eq_true_iff,
      ih ht hne' hopen' hclose']
    by_cases h0 : t.state = 0
    · obtain ⟨hnone, hcount⟩ := htally.first h0
      have hcounter : t.bracketed.charCounter = t.charCounter + 1 := if_pos h0
      rw [headLength_eq hnone, headLength_snoc hnone, hcounter, hcount]
    · have hcounter : t.bracketed.charCounter = t.charCounter := if_neg h0
      rw [headLength_snoc_mem (htally.later h0), hcounter, and_right_comm]

/-! ## The results -/

theorem take_set_last (v : ℕ) (h : n < l.length) : (l.take (n + 1)).set n v = l.take n ++ [v] := by
  have hlen : n < (l.take (n + 1)).length := by
    rw [List.length_take]
    omega
  rw [List.set_eq_take_append_cons_drop, if_pos hlen, List.take_take, Nat.min_eq_left (Nat.le_succ n),
    List.drop_take_self]

theorem placeBackwards_eq {sixteen : List ℕ} (h : sixteen.length = 8) (values : ℕ → ℕ) {count : ℕ} (hcount : count ≤ 8) :
    placeBackwards sixteen count values = sixteen.take (8 - count) ++ ((List.range count).map values).reverse := by
  induction count with
  | zero => simp [placeBackwards, ← h]
  | succ count ih =>
    have hset : placeBackwards sixteen (count + 1) values =
        (placeBackwards sixteen count values).set (7 - count) (values count) := by
      rw [placeBackwards, List.range_succ, List.foldl_append]
      rfl
    have hpos : 8 - count = 7 - count + 1 := by omega
    have hnext : 8 - (count + 1) = 7 - count := by omega
    have hlen : 7 - count < (sixteen.take (7 - count + 1)).length := by
      rw [List.length_take]
      omega
    rw [hset, ih (by omega), hpos, hnext, List.set_append_left _ _ hlen, take_set_last _ (by omega), List.range_succ,
      List.map_append, List.reverse_append, List.append_assoc]
    rfl

theorem map_range_getD (values : List ℕ) : (List.range values.length).map (fun i => values.getD i 0) = values := by
  refine List.ext_getElem (by simp) fun i _ hi => ?_
  rw [List.getElem_map, List.getElem_range, List.getD_eq_getElem?_getD, List.getElem?_eq_getElem hi, Option.getD_some]

theorem map_range_getD_reverse (values : List ℕ) :
    (List.range values.length).map (fun i => values.getD (values.length - i - 1) 0) = values.reverse := by
  refine List.ext_getElem (by simp) fun i _ hi => ?_
  rw [List.length_reverse] at hi
  rw [List.getElem_map, List.getElem_range, List.getElem_reverse, List.getD_eq_getElem?_getD,
    List.getElem?_eq_getElem (by omega), Option.getD_some]
  congr 1
  omega

theorem finish_early (h2 : 2 ≤ s.state) (h6 : s.state ≤ 6) (hlen : s.address.sixteen.length = 8)
    (hcount : s.unsorted.length < 8) (hbracket : s.bracketExpected = false) :
    finish s = if s.zeroCompression then
      some { s.address with sixteen := s.address.sixteen.take (8 - (s.unsorted ++ [s.sixteen]).length) ++
                              (s.unsorted ++ [s.sixteen]) }
    else none := by
  have hcount' : (s.unsorted ++ [s.sixteen]).length ≤ 8 := by
    rw [List.length_append, List.length_singleton]
    omega
  have hplace := placeBackwards_eq hlen
    (fun i => (s.unsorted ++ [s.sixteen]).getD ((s.unsorted ++ [s.sixteen]).length - i - 1) 0) hcount'
  rw [map_range_getD_reverse, List.reverse_reverse] at hplace
  rw [← hplace]
  obtain h | h | h | h | h : s.state = 2 ∨ s.state = 3 ∨ s.state = 4 ∨ s.state = 5 ∨ s.state = 6 := by omega
  all_goals simp only [finish, h, hbracket, Bool.false_eq_true, if_false]

theorem finish_closed (address : IPV6Address) (unsorted : List ℕ) (compression already : Bool)
    (hlen : address.sixteen.length = 8) (hcount : unsorted.length ≤ 8) :
    finish (.closed address unsorted compression already) =
      some (if compression then
        { address with sixteen := address.sixteen.take (8 - unsorted.length) ++ unsorted.reverse } else address) := by
  have hplace := placeBackwards_eq hlen (fun i => unsorted.getD i 0) hcount
  rw [map_range_getD] at hplace
  rw [← hplace, finish]
  cases compression <;> rfl

theorem closed_port (address : IPV6Address) (unsorted : List ℕ) (compression already : Bool) (hne : digits ≠ [])
    (hdigits : ∀ c ∈ digits, isdigit c = true) (hport : decimal digits ≤ 65535) :
    (scan (.closed address unsorted compression already) (':'.toUInt8 :: digits)).bind finish =
      some { address with port := decimal digits } := by
  obtain ⟨s, hs⟩ : ∃ s, s = ((Scan.closed address unsorted compression already).enter 9).settled := ⟨_, rfl⟩
  have hcolon : step (.closed address unsorted compression already) ':'.toUInt8 = some s := by
    rw [hs]
    rfl
  have hscan := scan_digits (s := s) hdigits (by rw [hs]; rfl) (by rw [hs]; rfl) (by rw [hs]; exact Nat.zero_le _)
    (by rw [hs]; exact hport)
  rw [scan_cons, hcolon, Option.bind_some, hscan, Option.bind_some, hs]
  have hpos := List.length_pos_iff.mpr hne
  show (if 0 + digits.length = 0 then none else some _) = _
  rw [if_neg (by omega)]
  rfl

/-- What brackets leave of the groups behind `::`. -/
theorem CompressedRead.lengths (h : CompressedRead before behind s) (hstate : s.state ≤ 7) :
    s.state = places before + s.unsorted.length ∧ s.unsorted.length ≤ 5 ∧ colons before + 1 ≤ 7 - s.unsorted.length := by
  have hlen := length_groupsOf behind
  rw [h.groups, List.length_append, List.length_singleton, Nat.add_right_cancel_iff] at hlen
  have hplaces : 2 ≤ places before ∧ colons before + 1 ≤ places before := ⟨Nat.le_max_right _ _, Nat.le_max_left _ _⟩
  have hs := h.state
  omega

theorem CompressedRead.drop (h : CompressedRead before behind s) (hn : colons before + 1 ≤ n) :
    s.address.sixteen.drop n = List.replicate (8 - n) 0 := by
  obtain ⟨k, rfl⟩ := Nat.exists_eq_add_of_le hn
  rw [← List.drop_drop, h.zeros, List.drop_replicate]
  congr 1
  omega

/-- The groups behind the first `::` are zero; or they fill all places, and only the first and the last, which are the
same, are not zero. -/
def GroupsKept (text : Bytes) : Prop :=
  ∀ before behind, splitDouble text = some (before, behind) →
    (∀ group ∈ groupsOf behind, group = 0) ∨
      places before + colons behind = 7 ∧ ∃ group n, groupsOf behind = group :: (List.replicate n 0 ++ [group])

/-- A text in brackets, and then with a port. -/
def inBrackets (text : Bytes) : Bytes := '['.toUInt8 :: (text ++ [']'.toUInt8])

def withPort (text digits : Bytes) : Bytes := inBrackets text ++ ':'.toUInt8 :: digits

/-- Both bracketed notations are read as the plain one; the port can have leading zeros, but not more digits than an
`int` counts. -/
def NotationsAgree (text : Bytes) (address : IPV6Address) : Prop :=
  ipv6ParserInt (inBrackets text) = some (some { address with port := 0 }) ∧
    ∀ digits, digits ≠ [] → (∀ c ∈ digits, isdigit c = true) → decimal digits ≤ 65535 → digits.length < 2147483647 →
      ipv6ParserInt (withPort text digits) = some (some { address with port := decimal digits })

theorem notationsAgree_iff {closed : IPV6Address} {unsorted : List ℕ} {compression already : Bool}
    (hscan : scan .start ('['.toUInt8 :: text) = some s)
    (hclose : step s ']'.toUInt8 = some (.closed closed unsorted compression already)) (hport : closed.port = 0)
    (hlen : closed.sixteen.length = 8) (hcount : unsorted.length ≤ 8) (hcounts : counts .start (inBrackets text) = true) :
    NotationsAgree text address ↔ address.sixteen = closed.sixteen ∧
      (compression = true → closed.sixteen.drop (8 - unsorted.length) = unsorted.reverse) := by
  have hbrackets : scan .start (inBrackets text) = some (.closed closed unsorted compression already) := by
    rw [inBrackets, ← List.cons_append, scan_snoc, hscan, Option.bind_some, hclose]
  have hplain : ipv6ParserInt (inBrackets text) = some (some (if compression then
      { closed with sixteen := closed.sixteen.take (8 - unsorted.length) ++ unsorted.reverse } else closed)) := by
    rw [ipv6ParserInt, if_pos hcounts, ipv6Parser, hbrackets]
    exact congrArg some (finish_closed closed unsorted compression already hlen hcount)
  have hwith : ∀ digits, digits ≠ [] → (∀ c ∈ digits, isdigit c = true) → decimal digits ≤ 65535 →
      digits.length < 2147483647 →
      ipv6ParserInt (withPort text digits) = some (some { closed with port := decimal digits }) := by
    intro digits hne hdigits hle hfew
    have hbehind : counts (.closed closed unsorted compression already) (':'.toUInt8 :: digits) = true := by
      refine counts_of_short ?_
      show 0 + (digits.length + 1) ≤ 2147483647
      omega
    have hall : counts .start (withPort text digits) = true := by rw [withPort, counts_append hbrackets, hcounts, hbehind]; rfl
    rw [ipv6ParserInt, if_pos hall, ipv6Parser, withPort, scan_append, hbrackets]
    exact congrArg some (closed_port closed unsorted compression already hne hdigits hle)
  have hsame : compression = true → (closed.sixteen.take (8 - unsorted.length) ++ unsorted.reverse = closed.sixteen ↔
      closed.sixteen.drop (8 - unsorted.length) = unsorted.reverse) := by
    intro _
    conv_lhs => rhs; rw [← List.take_append_drop (8 - unsorted.length) closed.sixteen]
    rw [List.append_cancel_left_eq]
    exact eq_comm
  constructor
  · rintro ⟨hzero, hports⟩
    have hsixteen : closed.sixteen = address.sixteen := by
      have hdigit : ∀ c ∈ ['0'.toUInt8], isdigit c = true := fun c hc => by rw [List.mem_singleton.mp hc]; rfl
      have h := hports ['0'.toUInt8] (List.cons_ne_nil _ _) hdigit (by decide) (by decide)
      rw [hwith _ (List.cons_ne_nil _ _) hdigit (by decide) (by decide)] at h
      exact (IPV6Address.mk.inj (Option.some.inj (Option.some.inj h))).1
    refine ⟨hsixteen.symm, fun hz => (hsame hz).mp ?_⟩
    rw [hplain, if_pos hz] at hzero
    exact (IPV6Address.mk.inj (Option.some.inj (Option.some.inj hzero))).1.trans hsixteen.symm
  · rintro ⟨hsixteen, hdrop⟩
    refine ⟨?_, fun digits hne hdigits hle hfew => ?_⟩
    · rw [hplain, hsixteen]
      cases hz : compression with
      | true => rw [if_pos rfl, (hsame hz).mpr (hdrop hz), hport]
      | false => rw [if_neg (by decide), ← hport]
    · rw [hwith digits hne hdigits hle hfew, hsixteen]

/-! ## When they agree -/

theorem eq_replicate_zero : (∀ g ∈ l, g = 0) ↔ l = List.replicate l.length 0 := by
  rw [List.eq_replicate_iff]
  exact (and_iff_right rfl).symm

theorem early_iff (hscan : scan .start text = some s) (hopen : '['.toUInt8 ∉ text) (hclose : ']'.toUInt8 ∉ text)
    (h2 : 2 ≤ s.state) (h6 : s.state ≤ 6) (hreads : Reads text s) (hsplit : splitDouble text = some (before, behind))
    (hfinish : finish s = some address) (hcounts : counts .start (inBrackets text) = true) :
    NotationsAgree text address ↔ GroupsKept text := by
  have hr := hreads.compressed before behind hsplit
  obtain ⟨hstate, hcount, hheads⟩ := hr.lengths hreads.state
  have hplaces : colons before + 1 ≤ places before := Nat.le_max_left _ _
  have hne : s.state ≠ 11 := by omega
  have hlen : (s.unsorted ++ [s.sixteen]).length = s.unsorted.length + 1 := List.length_append
  have haddress : address.sixteen = s.address.sixteen.take (8 - (s.unsorted ++ [s.sixteen]).length) ++
      (s.unsorted ++ [s.sixteen]) := by
    rw [finish_early h2 h6 hreads.length (by omega) hreads.bracket, if_pos hr.compression] at hfinish
    exact (congrArg IPV6Address.sixteen (Option.some.inj hfinish)).symm
  have hdrop : s.address.sixteen.drop (8 - (s.unsorted ++ [s.sixteen]).length) =
      List.replicate (s.unsorted ++ [s.sixteen]).length 0 := by
    rw [hr.drop (by omega)]
    congr 1
    omega
  have hsame : address.sixteen = s.address.sixteen ↔
      s.unsorted ++ [s.sixteen] = List.replicate (s.unsorted ++ [s.sixteen]).length 0 := by
    rw [haddress, ← hdrop]
    conv_lhs => rhs; rw [← List.take_append_drop (8 - (s.unsorted ++ [s.sixteen]).length) s.address.sixteen]
    rw [List.append_cancel_left_eq]
  have hkept : GroupsKept text ↔ ∀ g ∈ s.unsorted ++ [s.sixteen], g = 0 := by
    constructor
    · intro h
      rw [← hr.groups]
      refine (h before behind hsplit).resolve_right fun ⟨hfull, _⟩ => ?_
      have := hr.state
      omega
    · intro h before' behind' hsplit'
      rw [hsplit] at hsplit'
      cases hsplit'
      rw [hr.groups]
      exact .inl h
  rw [notationsAgree_iff (scan_bracketed hscan hne hopen hclose) (close_early h2 h6 hr.compression (scan_bounds hscan))
    hreads.port hreads.length (by omega) hcounts, hkept, eq_replicate_zero, hsame, hdrop]
  refine and_iff_left_of_imp fun hzero _ => ?_
  conv_rhs => rw [hzero]
  rw [List.reverse_replicate]

theorem late_iff (hscan : scan .start text = some s) (hopen : '['.toUInt8 ∉ text) (hclose : ']'.toUInt8 ∉ text)
    (h7 : s.state = 7) (hreads : Reads text s) (hfinish : finish s = some address)
    (hcounts : counts .start (inBrackets text) = true) :
    NotationsAgree text address ↔ GroupsKept text := by
  have haddress : (s.assign 7).address = address := by
    simp only [finish, h7, hreads.bracket] at hfinish
    split_ifs at hfinish
    exact Option.some.inj hfinish
  have hlen : (s.assign 7).address.sixteen.length = 8 := (List.length_set ..).trans hreads.length
  have hne : s.state ≠ 11 := by omega
  have hclosed := close_late h7 (scan_bounds hscan)
  cases hsplit : splitDouble text with
  | none =>
    have hp := hreads.plain hsplit
    have hcount : s.unsorted.length ≤ 8 := by
      rw [hp.unsorted]
      exact Nat.zero_le _
    rw [notationsAgree_iff (scan_bracketed hscan hne hopen hclose) hclosed hreads.port hlen hcount hcounts,
      hp.compression]
    refine iff_of_true ⟨by rw [haddress], fun h => nomatch h⟩ fun before behind hsome => ?_
    rw [hsplit] at hsome
    cases hsome
  | some parts =>
    obtain ⟨before, behind⟩ := parts
    have hr := hreads.compressed before behind hsplit
    obtain ⟨hstate, hcount, hheads⟩ := hr.lengths hreads.state
    have hinside := hr.inside
    have hplaces : colons before + 1 ≤ places before := Nat.le_max_left _ _
    obtain ⟨n, hn⟩ : ∃ n, s.unsorted.length = n + 1 := ⟨s.unsorted.length - 1, by omega⟩
    have hdrop : (s.assign 7).address.sixteen.drop (8 - s.unsorted.length) = List.replicate n 0 ++ [s.sixteen] := by
      have hzeros := hr.drop (n := 8 - s.unsorted.length) (by omega)
      have hwidth : 8 - (8 - s.unsorted.length) = n + 1 := by omega
      have hlast : 7 - (8 - s.unsorted.length) = n := by omega
      show (s.address.sixteen.set 7 s.sixteen).drop (8 - s.unsorted.length) = _
      rw [List.drop_set, if_neg (by omega), hzeros, hwidth, hlast, List.replicate_succ',
        List.set_append_right _ _ (Nat.le_of_eq List.length_replicate), List.length_replicate, Nat.sub_self]
      rfl
    rw [notationsAgree_iff (scan_bracketed hscan hne hopen hclose) hclosed hreads.port hlen (by omega) hcounts, hdrop,
      haddress, and_iff_right rfl, hr.compression]
    constructor
    · intro h before' behind' hsplit'
      rw [hsplit] at hsplit'
      cases hsplit'
      have hunsorted : s.unsorted = s.sixteen :: List.replicate n 0 := by
        rw [← List.reverse_reverse s.unsorted, ← h rfl, List.reverse_append, List.reverse_replicate]
        rfl
      refine .inr ⟨hr.state.symm.trans h7, s.sixteen, n, ?_⟩
      rw [hr.groups, hunsorted]
      rfl
    · intro h _
      have hgroups := h before behind hsplit
      rw [hr.groups] at hgroups
      rcases hgroups with hzero | ⟨_, group, k, hgroups⟩
      · have hunsorted : s.unsorted = List.replicate (n + 1) 0 := by
          rw [← hn]
          exact eq_replicate_zero.mp fun g hg => hzero g (List.mem_append_left _ hg)
        have hlast : s.sixteen = 0 := hzero _ (by simp)
        rw [hunsorted, hlast, List.reverse_replicate, List.replicate_succ']
      · rw [← List.cons_append] at hgroups
        obtain ⟨hunsorted, hlast⟩ := List.append_inj' hgroups rfl
        obtain rfl : k = n := by
          have hk := congrArg List.length hunsorted
          rw [hn, List.length_cons, List.length_replicate] at hk
          omega
        rw [hunsorted, (List.cons.inj hlast).1, List.reverse_cons, List.reverse_replicate]

/-- The characters of the first and of the last group can be counted when they stand next to a bracket. -/
def GroupsCounted (text : Bytes) : Prop := headLength text < 2147483647 ∧ tailLength text < 2147483647

theorem counts_inBrackets {u : Scan} (hscan : scan .start text = some s) (hne : s.state ≠ 11) (hnone : s.state ≠ 0)
    (hopen : '['.toUInt8 ∉ text) (hclose : ']'.toUInt8 ∉ text) (hcounts : counts .start text = true)
    (hclosed : step s.bracketed ']'.toUInt8 = some u) : counts .start (inBrackets text) = true ↔ GroupsCounted text := by
  have hcounter : s.bracketed.charCounter = tailLength text :=
    (if_neg hnone).trans (scan_tally hscan hne hopen hclose).last
  rw [inBrackets, ← List.cons_append, counts_append (scan_bracketed hscan hne hopen hclose), counts_single hclosed,
    Bool.and_eq_true, counts_bracketed hscan hne hopen hclose, hcounter, decide_eq_true_iff, hcounts, GroupsCounted,
    and_iff_right rfl]

theorem NotationsAgree.counts (h : NotationsAgree text address) : counts .start (inBrackets text) = true := by
  have hplain := h.1
  rw [ipv6ParserInt] at hplain
  split_ifs at hplain with hcounts
  exact hcounts

/-- The bracketed notations agree with the plain one exactly for the texts whose groups behind `::` are zero or look the
same from both ends, and whose first and last groups can be counted next to the brackets. -/
theorem notations_agree_iff {text : Bytes} {address : IPV6Address} (hopen : '['.toUInt8 ∉ text)
    (hclose : ']'.toUInt8 ∉ text) (haccepted : ipv6ParserInt text = some (some address)) :
    NotationsAgree text address ↔ GroupsCounted text ∧ GroupsKept text := by
  rw [ipv6ParserInt] at haccepted
  split_ifs at haccepted with hplain
  have hparser : ipv6Parser text = some address := Option.some.inj haccepted
  rw [ipv6Parser, Option.bind_eq_bind, Option.bind_eq_some_iff] at hparser
  obtain ⟨s, hscan, hfinish⟩ := hparser
  have hne : s.state ≠ 11 := by
    intro herror
    rw [finish, herror] at hfinish
    cases hfinish
  have hreads := scan_reads hscan hne hopen hclose
  have hagree : (∃ u, step s.bracketed ']'.toUInt8 = some u) ∧ s.state ≠ 0 ∧
      (Network.counts .start (inBrackets text) = true → (NotationsAgree text address ↔ GroupsKept text)) := by
    rcases state_cases hreads.state with h0 | h1 | ⟨h2, h6⟩ | h7
    · rw [finish, h0] at hfinish
      cases hfinish
    · rw [finish, h1] at hfinish
      cases hfinish
    · cases hsplit : splitDouble text with
      | some parts =>
        have hz := (hreads.compressed parts.1 parts.2 hsplit).compression
        exact ⟨⟨_, close_early h2 h6 hz (scan_bounds hscan)⟩, by omega,
          early_iff hscan hopen hclose h2 h6 hreads hsplit hfinish⟩
      | none =>
        have hp := hreads.plain hsplit
        rw [finish_early h2 h6 hreads.length (by rw [hp.unsorted]; decide) hreads.bracket, hp.compression] at hfinish
        cases hfinish
    · exact ⟨⟨_, close_late h7 (scan_bounds hscan)⟩, by omega, late_iff hscan hopen hclose h7 hreads hfinish⟩
  obtain ⟨⟨u, hclosed⟩, hnone, hagree⟩ := hagree
  rw [← counts_inBrackets hscan hne hnone hopen hclose hplain hclosed]
  exact ⟨fun h => ⟨h.counts, (hagree h.counts).mp h⟩, fun h => (hagree h.1).mpr h.2⟩

/-- An address without `::`. -/
theorem notations_agree_full : ipv6ParserInt (ascii "1:2:3:4:5:6:7:8") = some (some ⟨[1, 2, 3, 4, 5, 6, 7, 8], 0⟩) ∧
    NotationsAgree (ascii "1:2:3:4:5:6:7:8") ⟨[1, 2, 3, 4, 5, 6, 7, 8], 0⟩ := by
  have haccepted : ipv6ParserInt (ascii "1:2:3:4:5:6:7:8") = some (some ⟨[1, 2, 3, 4, 5, 6, 7, 8], 0⟩) := by rfl
  have hsplit : splitDouble (ascii "1:2:3:4:5:6:7:8") = none := by rfl
  refine ⟨haccepted, (notations_agree_iff (by decide) (by decide) haccepted).mpr
    ⟨⟨by decide, by decide⟩, fun before behind hsome => ?_⟩⟩
  rw [hsplit] at hsome
  cases hsome

/-- Two groups behind `::` change places in brackets, and are lost with a port. -/
theorem brackets_disagree : ipv6ParserInt (ascii "1::2:3") = some (some ⟨[1, 0, 0, 0, 0, 0, 2, 3], 0⟩) ∧
    ipv6ParserInt (ascii "[1::2:3]") = some (some ⟨[1, 0, 0, 0, 0, 0, 3, 2], 0⟩) ∧
    ipv6ParserInt (ascii "[1::2:3]:80") = some (some ⟨[1, 0, 0, 0, 0, 0, 0, 0], 80⟩) ∧
    ¬ NotationsAgree (ascii "1::2:3") ⟨[1, 0, 0, 0, 0, 0, 2, 3], 0⟩ := by
  have hbrackets : ipv6ParserInt (ascii "[1::2:3]") = some (some ⟨[1, 0, 0, 0, 0, 0, 3, 2], 0⟩) := by rfl
  refine ⟨by rfl, hbrackets, by rfl, fun h => ?_⟩
  have hplain : ipv6ParserInt (ascii "[1::2:3]") = some (some ⟨[1, 0, 0, 0, 0, 0, 2, 3], 0⟩) := h.1
  rw [hbrackets] at hplain
  revert hplain
  decide

end Libntech.Network
