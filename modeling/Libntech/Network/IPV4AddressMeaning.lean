import Libntech.Network.IPAddressMeaning
import Libntech.Network.IPV4Address

/-! # What the IPv4 parser accepts

A turn of the automaton is told by the numbers that stand in front of it (`octetScan`, `portScan`), so what it knows of a
text is known from the numbers of the text (`Known`). The state 7 is no end state, but it is not asked for: a text that
ends with the character that leads there is accepted (`EndsStray`). The count of the characters overflows in a number
with enough leading zeros (`LongNumber`).
-/
namespace Libntech.Network.IPV4
set_option autoImplicit false

open Libntech.Json (Bytes ascii)

/-! ## Addresses as text -/

/-- A number of at least one digit. -/
structure Numeral (limit : ℕ) (digits : Bytes) : Prop where
  ne_nil : digits ≠ []
  isdigit : ∀ c ∈ digits, isdigit c = true
  value : decimal digits ≤ limit

/-- Numbers with a period behind each. -/
def dotted (groups : List Bytes) : Bytes := groups.flatMap (· ++ ['.'.toUInt8])

/-- `xxx.xxx.xxx.xxx[:ppppp]` -/
inductive Denotes : Bytes → IPV4Address → Prop where
  | plain {groups : List Bytes} {last : Bytes} : groups.length = 3 → (∀ group ∈ groups, Numeral 255 group) →
      Numeral 255 last → Denotes (dotted groups ++ last) ⟨groups.map decimal ++ [decimal last], 0⟩
  | port {groups : List Bytes} {last digits : Bytes} : groups.length = 3 → (∀ group ∈ groups, Numeral 255 group) →
      Numeral 255 last → Numeral 65535 digits →
      Denotes (dotted groups ++ last ++ ':'.toUInt8 :: digits) ⟨groups.map decimal ++ [decimal last], decimal digits⟩

/-- What is to follow a number: a period, and a colon behind the fourth. -/
def separator (n : ℕ) : UInt8 := if n = 3 then ':'.toUInt8 else '.'.toUInt8

/-- At most four numbers, and then one character that is neither a digit nor the separator. -/
def EndsStray (text : Bytes) : Prop :=
  ∃ groups digits c, groups.length ≤ 3 ∧ (∀ group ∈ groups, Numeral 255 group) ∧ Numeral 255 digits ∧
    isdigit c = false ∧ c ≠ separator groups.length ∧ text = dotted groups ++ digits ++ [c]

/-- A number of `INT_MAX` characters or more, with another character behind it, in a text that is an address so far. -/
def LongNumber (text : Bytes) : Prop :=
  (∃ groups digits c after, groups.length ≤ 3 ∧ (∀ group ∈ groups, Numeral 255 group) ∧ Numeral 255 digits ∧
    2147483647 ≤ digits.length ∧ text = dotted groups ++ digits ++ c :: after) ∨
  ∃ groups last digits c after, groups.length = 3 ∧ (∀ group ∈ groups, Numeral 255 group) ∧ Numeral 255 last ∧
    Numeral 65535 digits ∧ 2147483647 ≤ digits.length ∧
      text = dotted groups ++ last ++ ':'.toUInt8 :: digits ++ c :: after

/-! ## The states of the automaton -/

/-- In a number, behind these ones. -/
def octetScan (groups : List Bytes) (digits : Bytes) : Scan where
  address := ⟨groups.map decimal ++ List.replicate (4 - groups.length) 0, 0⟩
  octet := decimal digits
  port := 0
  periodCounter := 0
  portCounter := 0
  charCounter := digits.length
  hasDigit := !digits.isEmpty
  state := groups.length
  stateChange := false

/-- In the port. -/
def portScan (octets : List ℕ) (digits : Bytes) : Scan where
  address := ⟨octets, 0⟩
  octet := 0
  port := decimal digits
  periodCounter := 0
  portCounter := 0
  charCounter := digits.length
  hasDigit := false
  state := 5
  stateChange := false

/-- Behind a character that nothing may follow. -/
def strayScan (octets : List ℕ) : Scan := ⟨⟨octets, 0⟩, 0, 0, 0, 0, 0, false, 7, false⟩

theorem decimal_snoc (digits : Bytes) (c : UInt8) : decimal (digits ++ [c]) = char2Dec (decimal digits) c := by
  simp [decimal]

theorem octets_set (octets : List ℕ) (n v : ℕ) (h : octets.length ≤ 3) (hn : octets.length = n) :
    (octets ++ List.replicate (4 - n) 0).set n v = (octets ++ [v]) ++ List.replicate (4 - (n + 1)) 0 := by
  subst hn
  obtain ⟨k, hk⟩ : ∃ k, 4 - octets.length = k + 1 := ⟨3 - octets.length, by omega⟩
  have hk' : 4 - (octets.length + 1) = k := by omega
  rw [hk, hk', List.set_append_right _ _ (Nat.le_refl _), Nat.sub_self, List.replicate_succ, List.set_cons_zero]
  simp

theorem turn_eq (s : Scan) (c : UInt8) : turn s c = (transition (s.count c) c).map Scan.counted := rfl

theorem step_eq (s : Scan) (c : UInt8) :
    step s c = (transition (s.count c) c).bind fun t => t.counted.settle := by
  rw [step, turn_eq, Option.bind_map]
  rfl

section Steps

variable {groups : List Bytes} {digits : Bytes} {octets : List ℕ} {c : UInt8}

theorem count_digit (s : Scan) (hc : isdigit c = true) : s.count c = s := by
  have hperiod : c ≠ '.'.toUInt8 := by
    rintro rfl
    exact absurd hc (by decide)
  have hcolon : c ≠ ':'.toUInt8 := by
    rintro rfl
    exact absurd hc (by decide)
  simp [Scan.count, hperiod, hcolon]

theorem transition_octet_digit (s : Scan) (h : s.state ≤ 3) (hc : isdigit c = true) :
    transition s c = some { s with octet := char2Dec s.octet c, hasDigit := true } := by
  obtain hs | hs | hs | hs : s.state = 0 ∨ s.state = 1 ∨ s.state = 2 ∨ s.state = 3 := by omega
  all_goals simp [transition, hs, hc]

theorem transition_octet_other (s : Scan) (h : s.state ≤ 3) (hc : isdigit c = false) :
    transition s c = some (if c = separator s.state then s.assign.enter (if s.state = 3 then 5 else s.state + 1)
      else s.enter 7) := by
  obtain hs | hs | hs | hs : s.state = 0 ∨ s.state = 1 ∨ s.state = 2 ∨ s.state = 3 := by omega
  all_goals simp [transition, hs, hc, separator]

theorem step_octet_digit (h : groups.length ≤ 3) (hc : isdigit c = true) :
    step (octetScan groups digits) c =
      if decimal (digits ++ [c]) ≤ 255 then some (octetScan groups (digits ++ [c])) else none := by
  have hstate : (octetScan groups digits).state ≤ 3 := h
  rw [step_eq, count_digit _ hc, transition_octet_digit _ hstate hc, decimal_snoc]
  by_cases hvalue : char2Dec (decimal digits) c ≤ 255
  · simp [octetScan, Scan.counted, Scan.settle, decimal_snoc, hvalue]
  · simp [octetScan, Scan.counted, Scan.settle, hvalue]

theorem count_bounds (s : Scan) (c : UInt8) (hperiod : s.periodCounter = 0) (hport : s.portCounter = 0) :
    (s.count c).periodCounter ≤ 1 ∧ (s.count c).portCounter ≤ 1 := by
  simp only [Scan.count, hperiod, hport]
  split_ifs <;> omega

theorem settle_change (s : Scan) (hoctet : s.octet ≤ 255) (hport : s.port ≤ 65535)
    (hcounters : s.periodCounter ≤ 1 ∧ s.portCounter ≤ 1) (hchange : s.stateChange = true) :
    s.settle = if s.hasDigit then some ⟨s.address, 0, 0, 0, 0, 0, false, s.state, false⟩ else none := by
  have h1 : ¬ 255 < s.octet := by omega
  have h2 : ¬ 65535 < s.port := by omega
  have h3 : ¬ 1 < s.periodCounter := by omega
  have h4 : ¬ 1 < s.portCounter := by omega
  simp only [Scan.settle, h1, h2, h3, h4, hchange, if_false, if_true]
  cases s.hasDigit <;> rfl

theorem settle_digitless (s : Scan) (hchange : s.stateChange = true) (hdigit : s.hasDigit = false) : s.settle = none := by
  simp [Scan.settle, hchange, hdigit]

theorem step_octet_other (h : groups.length ≤ 3) (hvalue : decimal digits ≤ 255) (hc : isdigit c = false) :
    step (octetScan groups digits) c =
      if digits = [] then none
      else if c = separator groups.length then
        some (if groups.length = 3 then portScan ((groups ++ [digits]).map decimal) [] else octetScan (groups ++ [digits]) [])
      else some (strayScan (groups.map decimal ++ List.replicate (4 - groups.length) 0)) := by
  have hcounters := count_bounds (octetScan groups digits) c rfl rfl
  have hlength : (groups.map decimal).length = groups.length := List.length_map ..
  have hassign := octets_set _ _ (decimal digits) (Nat.le_trans (Nat.le_of_eq hlength) h) hlength
  rw [step_eq, transition_octet_other ((octetScan groups digits).count c) h hc, Option.bind_some]
  show (Scan.counted (if c = separator groups.length then _ else _)).settle = _
  cases digits with
  | nil =>
    rw [if_pos rfl]
    split
    · exact settle_digitless _ rfl rfl
    · exact settle_digitless _ rfl rfl
  | cons d digits =>
    rw [if_neg (List.cons_ne_nil d digits)]
    split
    · have hturn := settle_change (((octetScan groups (d :: digits)).count c).assign.enter
        (if groups.length = 3 then 5 else groups.length + 1)).counted hvalue (Nat.zero_le _) hcounters rfl
      refine hturn.trans ?_
      show some (Scan.mk ⟨(groups.map decimal ++ List.replicate (4 - groups.length) 0).set groups.length
        (decimal (d :: digits)), 0⟩ 0 0 0 0 0 false (if groups.length = 3 then 5 else groups.length + 1) false) = _
      rw [hassign]
      split
      next h3 => simp [portScan, h3, decimal]
      next h3 => simp [octetScan, decimal]
    · exact settle_change _ hvalue (Nat.zero_le _) hcounters rfl

theorem step_port (octets : List ℕ) (digits : Bytes) (c : UInt8) :
    step (portScan octets digits) c =
      if isdigit c = true ∧ decimal (digits ++ [c]) ≤ 65535 then some (portScan octets (digits ++ [c])) else none := by
  cases hc : isdigit c with
  | true =>
    have htransition : transition (portScan octets digits) c =
        some { portScan octets digits with port := char2Dec (decimal digits) c } := by
      simp [transition, portScan, hc]
    rw [step_eq, count_digit _ hc, htransition, decimal_snoc]
    by_cases hvalue : char2Dec (decimal digits) c ≤ 65535
    · simp [portScan, Scan.counted, Scan.settle, decimal_snoc, hvalue]
    · simp [portScan, Scan.counted, Scan.settle, hvalue]
  | false =>
    have htransition : transition ((portScan octets digits).count c) c = some (((portScan octets digits).count c).enter 7) := by
      simp [transition, Scan.count, portScan, hc]
    rw [step_eq, htransition, if_neg (by simp), Option.bind_some]
    exact settle_digitless _ rfl rfl

end Steps

/-! ## Whole texts -/

theorem scan_append (s : Scan) (text rest : Bytes) : scan s (text ++ rest) = (scan s text).bind fun s => scan s rest := by
  rw [scan, List.foldlM_append]
  rfl

theorem scan_cons (s : Scan) (c : UInt8) (text : Bytes) : scan s (c :: text) = (step s c).bind fun s => scan s text := by
  rw [scan, List.foldlM_cons]
  rfl

theorem scan_snoc (s : Scan) (text : Bytes) (c : UInt8) : scan s (text ++ [c]) = (scan s text).bind fun s => step s c := by
  simp [scan]

theorem dotted_snoc (groups : List Bytes) (group : Bytes) :
    dotted (groups ++ [group]) = dotted groups ++ group ++ ['.'.toUInt8] := by
  simp [dotted]

variable {s : Scan} {digits text : Bytes} {c : UInt8}

theorem decimal_append_le {more : Bytes} (h : ∀ c ∈ more, isdigit c = true) :
    decimal digits ≤ decimal (digits ++ more) := by
  rw [decimal, decimal, List.foldl_append]
  exact le_foldl_char2Dec h _

theorem isdigit_separator (n : ℕ) : isdigit (separator n) = false := by
  rw [separator]
  split <;> decide

/-- What the automaton knows of a text that it has not rejected. -/
inductive Known : Bytes → Scan → Prop where
  | octet {groups : List Bytes} {digits : Bytes} : groups.length ≤ 3 → (∀ group ∈ groups, Numeral 255 group) →
      (∀ c ∈ digits, isdigit c = true) → decimal digits ≤ 255 → Known (dotted groups ++ digits) (octetScan groups digits)
  | port {groups : List Bytes} {last digits : Bytes} : groups.length = 3 → (∀ group ∈ groups, Numeral 255 group) →
      Numeral 255 last → (∀ c ∈ digits, isdigit c = true) → decimal digits ≤ 65535 →
      Known (dotted groups ++ last ++ ':'.toUInt8 :: digits) (portScan ((groups ++ [last]).map decimal) digits)
  | stray {groups : List Bytes} {digits : Bytes} {c : UInt8} : groups.length ≤ 3 →
      (∀ group ∈ groups, Numeral 255 group) → Numeral 255 digits → isdigit c = false → c ≠ separator groups.length →
      Known (dotted groups ++ digits ++ [c]) (strayScan (groups.map decimal ++ List.replicate (4 - groups.length) 0))

theorem forall_mem_snoc {p : UInt8 → Prop} (h : ∀ d ∈ digits, p d) (hc : p c) : ∀ d ∈ digits ++ [c], p d := by
  intro d hd
  rw [List.mem_append, List.mem_singleton] at hd
  obtain hd | rfl := hd
  · exact h d hd
  · exact hc

theorem Known.next {s' : Scan} (h : Known text s) (hstep : step s c = some s') : Known (text ++ [c]) s' := by
  cases h with
  | octet hlen hgroups hdigits hvalue =>
    rename_i groups digits
    cases hc : isdigit c with
    | true =>
      rw [step_octet_digit hlen hc] at hstep
      split at hstep
      next hle =>
        obtain rfl := Option.some.inj hstep
        rw [List.append_assoc]
        exact .octet hlen hgroups (forall_mem_snoc hdigits hc) hle
      next => cases hstep
    | false =>
      rw [step_octet_other hlen hvalue hc] at hstep
      split at hstep
      next => cases hstep
      next hne =>
        have hnumeral : Numeral 255 digits := ⟨hne, hdigits, hvalue⟩
        split at hstep
        next hsep =>
          obtain rfl := Option.some.inj hstep
          by_cases h3 : groups.length = 3
          · rw [if_pos h3, hsep, separator, if_pos h3]
            exact .port h3 hgroups hnumeral (by simp) (Nat.zero_le _)
          · have hdotted := dotted_snoc groups digits
            rw [if_neg h3, hsep, separator, if_neg h3, ← hdotted, ← List.append_nil (dotted _)]
            refine .octet (by rw [List.length_append, List.length_singleton]; omega) (fun group hgroup => ?_) (by simp)
              (Nat.zero_le _)
            rw [List.mem_append, List.mem_singleton] at hgroup
            obtain hgroup | rfl := hgroup
            · exact hgroups group hgroup
            · exact hnumeral
        next hsep =>
          obtain rfl := Option.some.inj hstep
          exact .stray hlen hgroups hnumeral hc hsep
  | port h3 hgroups hlast hdigits hvalue =>
    rw [step_port] at hstep
    split at hstep
    next hc =>
      obtain rfl := Option.some.inj hstep
      rw [List.append_assoc, List.cons_append]
      exact .port h3 hgroups hlast (forall_mem_snoc hdigits hc.1) hc.2
    next => cases hstep
  | stray => cases hstep

theorem scan_known (h : scan .start text = some s) : Known text s := by
  induction text using List.reverseRecOn generalizing s with
  | nil =>
    obtain rfl := Option.some.inj h
    exact @Known.octet [] [] (by simp) (by simp) (by simp) (by decide)
  | append_singleton text c ih =>
    rw [scan_snoc, Option.bind_eq_some_iff] at h
    obtain ⟨t, ht, hstep⟩ := h
    exact (ih ht).next hstep

/-- Digits are read one by one as long as the number is not too large; `reading` is the scan behind so many of them. -/
theorem scan_digits {reading : Bytes → Scan} {limit : ℕ}
    (hstep : ∀ digits c, isdigit c = true → decimal (digits ++ [c]) ≤ limit →
      step (reading digits) c = some (reading (digits ++ [c])))
    {more : Bytes} (hmore : ∀ c ∈ more, isdigit c = true) (hvalue : decimal (digits ++ more) ≤ limit) :
    scan (reading digits) more = some (reading (digits ++ more)) := by
  induction more generalizing digits with
  | nil => simp [scan]
  | cons c more ih =>
    have hrest : ∀ d ∈ more, isdigit d = true := fun d hd => hmore d (List.mem_cons_of_mem c hd)
    rw [List.append_cons] at hvalue ⊢
    have hle := Nat.le_trans (decimal_append_le hrest) hvalue
    rw [scan_cons, hstep digits c (hmore c List.mem_cons_self) hle, Option.bind_some, ih hrest hvalue]

theorem scan_number {groups : List Bytes} (hlen : groups.length ≤ 3) (h : Numeral 255 digits) :
    scan (octetScan groups []) digits = some (octetScan groups digits) := by
  refine scan_digits (fun digits c hc hle => ?_) h.isdigit h.value
  rw [step_octet_digit hlen hc, if_pos hle]

theorem step_separator {groups : List Bytes} (hlen : groups.length ≤ 3) {digits : Bytes} (h : Numeral 255 digits) :
    step (octetScan groups digits) (separator groups.length) =
      some (if groups.length = 3 then portScan ((groups ++ [digits]).map decimal) []
        else octetScan (groups ++ [digits]) []) := by
  rw [step_octet_other hlen h.value (isdigit_separator _), if_neg h.ne_nil, if_pos rfl]

theorem scan_dotted (groups : List Bytes) (hlen : groups.length ≤ 3) (hgroups : ∀ group ∈ groups, Numeral 255 group) :
    scan .start (dotted groups) = some (octetScan groups []) := by
  induction groups using List.reverseRecOn with
  | nil => rfl
  | append_singleton groups group ih =>
    rw [List.length_append, List.length_singleton] at hlen
    have hgroup := hgroups group (by simp)
    have hsep := @step_separator groups (by omega) _ hgroup
    rw [separator, if_neg (by omega), if_neg (by omega)] at hsep
    rw [dotted_snoc, scan_snoc, scan_append, ih (by omega) fun g hg => hgroups g (List.mem_append_left _ hg),
      Option.bind_some, scan_number (by omega) hgroup, Option.bind_some, hsep]

theorem scan_port (octets : List ℕ) (h : Numeral 65535 digits) :
    scan (portScan octets []) digits = some (portScan octets digits) := by
  refine scan_digits (fun digits c hc hle => ?_) h.isdigit h.value
  rw [step_port, if_pos ⟨hc, hle⟩]

/-! ## What is accepted -/

section Accepted

variable {text : Bytes} {groups : List Bytes} {digits : Bytes} {address : IPV4Address}

theorem finish_last (hlen : groups.length = 3) (hne : digits ≠ []) :
    finish (octetScan groups digits) = some ⟨groups.map decimal ++ [decimal digits], 0⟩ := by
  have hassign := octets_set (groups.map decimal) 3 (decimal digits) (by simp [hlen]) (by simp [hlen])
  have hfinish : finish (octetScan groups digits) = some (octetScan groups digits).assign.address := by
    simp [finish, octetScan, hlen, hne]
  rw [hfinish, Scan.assign, octetScan]
  simp only [hlen, hassign]
  simp

theorem finish_early (hlen : groups.length < 3) : finish (octetScan groups digits) = none := by
  obtain h | h | h : groups.length = 0 ∨ groups.length = 1 ∨ groups.length = 2 := by omega
  all_goals simp [finish, octetScan, h]

theorem finish_numberless (hlen : groups.length = 3) : finish (octetScan groups []) = none := by
  simp [finish, octetScan, hlen]

theorem finish_port (octets : List ℕ) (hne : digits ≠ []) :
    finish (portScan octets digits) = some ⟨octets, decimal digits⟩ := by
  simp [finish, portScan, hne]

theorem ipv4Parser_known : ipv4Parser text = some address ↔ ∃ s, scan .start text = some s ∧ finish s = some address := by
  rw [ipv4Parser, Option.bind_eq_bind, Option.bind_eq_some_iff]

theorem scan_last (hlen : groups.length ≤ 3) (hgroups : ∀ group ∈ groups, Numeral 255 group) (h : Numeral 255 digits) :
    scan .start (dotted groups ++ digits) = some (octetScan groups digits) := by
  rw [scan_append, scan_dotted groups hlen hgroups, Option.bind_some, scan_number hlen h]

theorem scan_last_port {last : Bytes} (hlen : groups.length = 3) (hgroups : ∀ group ∈ groups, Numeral 255 group)
    (hlast : Numeral 255 last) (h : Numeral 65535 digits) :
    scan .start (dotted groups ++ last ++ ':'.toUInt8 :: digits) =
      some (portScan ((groups ++ [last]).map decimal) digits) := by
  have hsep := step_separator (Nat.le_of_eq hlen) hlast
  rw [separator, if_pos hlen, if_pos hlen] at hsep
  rw [scan_append, scan_last (Nat.le_of_eq hlen) hgroups hlast, Option.bind_some, scan_cons, hsep, Option.bind_some,
    scan_port _ h]

theorem ipv4Parser_of_denotes (h : Denotes text address) : ipv4Parser text = some address := by
  rw [ipv4Parser_known]
  cases h with
  | plain hlen hgroups hlast =>
    exact ⟨_, scan_last (Nat.le_of_eq hlen) hgroups hlast, finish_last hlen hlast.ne_nil⟩
  | port hlen hgroups hlast hport =>
    refine ⟨_, scan_last_port hlen hgroups hlast hport, ?_⟩
    rw [finish_port _ hport.ne_nil, List.map_append, List.map_singleton]

/-- A text with a stray character at its end is accepted, and the last number is not stored. -/
theorem ipv4Parser_of_stray (hlen : groups.length ≤ 3) (hgroups : ∀ group ∈ groups, Numeral 255 group)
    (h : Numeral 255 digits) (hc : isdigit c = false) (hsep : c ≠ separator groups.length) :
    scan .start (dotted groups ++ digits ++ [c]) =
        some (strayScan (groups.map decimal ++ List.replicate (4 - groups.length) 0)) ∧
      ipv4Parser (dotted groups ++ digits ++ [c]) = some ⟨groups.map decimal ++ List.replicate (4 - groups.length) 0, 0⟩ := by
  have hscan : scan .start (dotted groups ++ digits ++ [c]) =
      some (strayScan (groups.map decimal ++ List.replicate (4 - groups.length) 0)) := by
    rw [scan_snoc, scan_last hlen hgroups h, Option.bind_some, step_octet_other hlen h.value hc, if_neg h.ne_nil,
      if_neg hsep]
  exact ⟨hscan, ipv4Parser_known.mpr ⟨_, hscan, rfl⟩⟩

theorem denotes_state (h : Denotes text address) (hscan : scan .start text = some s) : s.state ≠ 7 := by
  intro h7
  cases h with
  | plain hlen hgroups hlast =>
    rw [scan_last (Nat.le_of_eq hlen) hgroups hlast, Option.some.injEq] at hscan
    rw [← hscan] at h7
    exact absurd (hlen.symm.trans h7) (by decide)
  | port hlen hgroups hlast hport =>
    rw [scan_last_port hlen hgroups hlast hport, Option.some.injEq] at hscan
    rw [← hscan] at h7
    have h5 : 5 = 7 := h7
    omega

theorem stray_not_denotes (h : EndsStray text) : ¬ Denotes text address := by
  obtain ⟨groups, digits, c, hlen, hgroups, hdigits, hc, hsep, rfl⟩ := h
  exact fun hdenotes => denotes_state hdenotes (ipv4Parser_of_stray hlen hgroups hdigits hc hsep).1 rfl

theorem denotes_of_ipv4Parser (h : ipv4Parser text = some address) (hstray : ¬ EndsStray text) : Denotes text address := by
  obtain ⟨s, hscan, hfinish⟩ := ipv4Parser_known.mp h
  cases scan_known hscan with
  | octet hlen hgroups hdigits hvalue =>
    rename_i groups digits
    obtain hlt | h3 := Nat.lt_or_eq_of_le hlen
    · rw [finish_early hlt] at hfinish
      cases hfinish
    · by_cases hne : digits = []
      · rw [hne, finish_numberless h3] at hfinish
        cases hfinish
      · rw [finish_last h3 hne] at hfinish
        obtain rfl := Option.some.inj hfinish
        exact .plain h3 hgroups ⟨hne, hdigits, hvalue⟩
  | port h3 hgroups hlast hdigits hvalue =>
    rename_i groups last digits
    by_cases hne : digits = []
    · rw [hne] at hfinish
      cases hfinish
    · rw [finish_port _ hne, List.map_append, List.map_singleton] at hfinish
      obtain rfl := Option.some.inj hfinish
      exact .port h3 hgroups hlast ⟨hne, hdigits, hvalue⟩
  | stray hlen hgroups hdigits hc hsep => exact absurd ⟨_, _, _, hlen, hgroups, hdigits, hc, hsep, rfl⟩ hstray

end Accepted

theorem accepts_iff (text : Bytes) :
    (∀ address, ipv4Parser text = some address ↔ Denotes text address) ↔ ¬ EndsStray text := by
  constructor
  · intro h hstray
    obtain ⟨groups, digits, c, hlen, hgroups, hdigits, hc, hsep, htext⟩ := id hstray
    have haccepted := (ipv4Parser_of_stray hlen hgroups hdigits hc hsep).2
    rw [← htext, h] at haccepted
    exact stray_not_denotes hstray haccepted
  · intro hstray address
    exact ⟨fun h => denotes_of_ipv4Parser h hstray, ipv4Parser_of_denotes⟩

/-! ## The count of the characters -/

theorem transition_charCounter {t : Scan} (h : transition s c = some t) : t.charCounter = s.charCounter := by
  unfold transition at h
  split at h
  any_goals split_ifs at h <;> obtain rfl := Option.some.inj h <;> rfl
  · obtain rfl := Option.some.inj h
    rfl
  · cases h

theorem turn_charCounter {u : Scan} (h : turn s c = some u) : u.charCounter = s.charCounter + 1 := by
  rw [turn_eq, Option.map_eq_some_iff] at h
  obtain ⟨t, ht, rfl⟩ := h
  have hcount : t.charCounter = (s.count c).charCounter := transition_charCounter ht
  exact congrArg (· + 1) hcount

theorem turn_octet {groups : List Bytes} (h : groups.length ≤ 3) (digits : Bytes) (c : UInt8) :
    ∃ u, turn (octetScan groups digits) c = some u := by
  have hstate : ((octetScan groups digits).count c).state ≤ 3 := h
  rw [turn_eq]
  cases hc : isdigit c with
  | true => exact ⟨_, by rw [transition_octet_digit _ hstate hc, Option.map_some]⟩
  | false => exact ⟨_, by rw [transition_octet_other _ hstate hc, Option.map_some]⟩

theorem turn_port (octets : List ℕ) (digits : Bytes) (c : UInt8) : ∃ u, turn (portScan octets digits) c = some u := by
  rw [turn_eq]
  cases hc : isdigit c with
  | true => simp [transition, Scan.count, portScan, hc]
  | false => simp [transition, Scan.count, portScan, hc]

theorem counts_false_iff : counts s text = false ↔ ∃ before c after t u,
    text = before ++ c :: after ∧ scan s before = some t ∧ turn t c = some u ∧ 2147483647 ≤ t.charCounter := by
  induction text generalizing s with
  | nil =>
    refine ⟨fun h => (by cases h), ?_⟩
    rintro ⟨before, c, after, t, u, htext, -⟩
    exact absurd htext.symm (by simp)
  | cons c text ih =>
    have hhere : ∀ before d after, c :: text = before ++ d :: after →
        (before = [] ∧ d = c) ∨ ∃ rest, before = c :: rest ∧ text = rest ++ d :: after := by
      intro before d after htext
      cases before with
      | nil => exact .inl ⟨rfl, (List.cons.inj htext).1.symm⟩
      | cons b rest =>
        obtain ⟨rfl, hrest⟩ := List.cons.inj htext
        exact .inr ⟨rest, rfl, hrest⟩
    rw [counts]
    cases hturn : turn s c with
    | none =>
      refine ⟨fun h => (by cases h), ?_⟩
      rintro ⟨before, d, after, t, u, htext, hscan, ht, -⟩
      obtain ⟨rfl, rfl⟩ | ⟨rest, rfl, -⟩ := hhere before d after htext
      · obtain rfl := Option.some.inj hscan
        cases hturn.symm.trans ht
      · rw [scan_cons, step, hturn] at hscan
        cases hscan
    | some v =>
      have hcount := turn_charCounter hturn
      dsimp only
      rw [Bool.and_eq_false_iff, decide_eq_false_iff_not]
      constructor
      · rintro (hlong | hrest)
        · exact ⟨[], c, text, s, v, rfl, rfl, hturn, by omega⟩
        · cases hsettle : v.settle with
          | none =>
            rw [hsettle] at hrest
            cases hrest
          | some s' =>
            rw [hsettle, Option.elim_some, ih] at hrest
            obtain ⟨before, d, after, t, u, rfl, hscan, ht, hlong⟩ := hrest
            refine ⟨c :: before, d, after, t, u, rfl, ?_, ht, hlong⟩
            rw [scan_cons, step, hturn, Option.bind_some, hsettle, Option.bind_some, hscan]
      · rintro ⟨before, d, after, t, u, htext, hscan, ht, hlong⟩
        obtain ⟨rfl, rfl⟩ | ⟨rest, rfl, hrest⟩ := hhere before d after htext
        · obtain rfl := Option.some.inj hscan
          exact .inl (by omega)
        · rw [scan_cons, step, hturn, Option.bind_some] at hscan
          obtain ⟨s', hsettle, hscan⟩ := Option.bind_eq_some_iff.mp hscan
          right
          rw [hsettle, Option.elim_some, ih]
          exact ⟨rest, d, after, t, u, hrest, hscan, ht, hlong⟩

theorem counts_iff (text : Bytes) : counts .start text = true ↔ ¬ LongNumber text := by
  rw [← not_iff_not, Bool.not_eq_true, not_not, counts_false_iff]
  constructor
  · rintro ⟨before, c, after, t, u, rfl, hscan, hturn, hlong⟩
    have hne : ∀ {digits : Bytes}, 2147483647 ≤ digits.length → digits ≠ [] := by
      rintro digits hlen rfl
      exact absurd hlen (by decide)
    cases scan_known hscan with
    | octet hlen hgroups hdigits hvalue =>
      exact .inl ⟨_, _, c, after, hlen, hgroups, ⟨hne hlong, hdigits, hvalue⟩, hlong, rfl⟩
    | port h3 hgroups hlast hdigits hvalue =>
      exact .inr ⟨_, _, _, c, after, h3, hgroups, hlast, ⟨hne hlong, hdigits, hvalue⟩, hlong, rfl⟩
    | stray => cases hturn
  · rintro (⟨groups, digits, c, after, hlen, hgroups, hdigits, hlong, rfl⟩ |
      ⟨groups, last, digits, c, after, h3, hgroups, hlast, hdigits, hlong, rfl⟩)
    · obtain ⟨u, hu⟩ := turn_octet hlen digits c
      exact ⟨_, c, after, _, u, rfl, scan_last hlen hgroups hdigits, hu, hlong⟩
    · obtain ⟨u, hu⟩ := turn_port ((groups ++ [last]).map decimal) digits c
      exact ⟨_, c, after, _, u, rfl, scan_last_port h3 hgroups hlast hdigits, hu, hlong⟩

/-- The parser accepts the addresses with their numbers, and beside these only the texts that end with a stray
character; it reads every text without a number that is too long to count. -/
theorem ipv4Parser_iff (text : Bytes) :
    (∃ result, ipv4ParserInt text = some result ∧ ∀ address, result = some address ↔ Denotes text address) ↔
      ¬ EndsStray text ∧ ¬ LongNumber text := by
  rw [← accepts_iff, ← counts_iff, ipv4ParserInt]
  cases counts .start text with
  | true => simp
  | false => simp

/-- The character behind the last number is not looked at again, and the number is not stored. -/
theorem stray_accepted : ipv4ParserInt (ascii "1.2.3.4x") = some (some ⟨[1, 2, 3, 0], 0⟩) ∧
    ipv4ParserInt (ascii "1x") = some (some ⟨[0, 0, 0, 0], 0⟩) ∧ ∀ address, ¬ Denotes (ascii "1x") address := by
  refine ⟨by decide, by decide, fun address => stray_not_denotes ?_⟩
  refine ⟨[], ascii "1", 'x'.toUInt8, by decide, by simp, ⟨by decide, ?_, by decide⟩, by decide, by decide, by decide⟩
  exact List.all_eq_true.mp (by decide)

end Libntech.Network.IPV4
