import Libntech.Network.IPAddress
import Libntech.Strings.CStrings

/-! # Upper and lower case (`ToUpperStrInplace`, `ToLowerStrInplace`)

The character classes are those of the C locale. `ToUpper` takes everything that is no digit, no punctuation and not in
upper case for a letter in lower case, also what has no graph; a blank becomes the NUL.
-/
namespace Libntech.Strings
set_option autoImplicit false

open Libntech.Json (Bytes CString)
open Libntech.Network (isdigit isupper)

def islower (c : UInt8) : Bool := 'a'.toUInt8 ≤ c && c ≤ 'z'.toUInt8

def isgraph (c : UInt8) : Bool := '!'.toUInt8 ≤ c && c ≤ '~'.toUInt8

def ispunct (c : UInt8) : Bool := isgraph c && !(isdigit c || isupper c || islower c)

def toLower (ch : UInt8) : UInt8 := if isupper ch then ch - 'A'.toUInt8 + 'a'.toUInt8 else ch

def toUpper (ch : UInt8) : UInt8 :=
  if isdigit ch || ispunct ch then ch
  else if isupper ch then ch
  else ch - 'a'.toUInt8 + 'A'.toUInt8

/-- The loop over the characters in front of the NUL. -/
def convertInplace (convert : UInt8 → UInt8) : Bytes → Bytes
  | [] => []
  | c :: str => if c = 0 then c :: str else convert c :: convertInplace convert str

def toUpperStrInplace (str : Bytes) : Bytes := convertInplace toUpper str
def toLowerStrInplace (str : Bytes) : Bytes := convertInplace toLower str

/-! ## One character -/

variable {c : UInt8}

theorem islower_iff : islower c = true ↔ 97 ≤ c.toNat ∧ c.toNat ≤ 122 := by
  simp only [islower, Bool.and_eq_true, decide_eq_true_eq, UInt8.le_iff_toNat_le]
  exact Iff.rfl

theorem isupper_iff : isupper c = true ↔ 65 ≤ c.toNat ∧ c.toNat ≤ 90 := by
  simp only [isupper, Bool.and_eq_true, decide_eq_true_eq, UInt8.le_iff_toNat_le]
  exact Iff.rfl

theorem isdigit_iff : isdigit c = true ↔ 48 ≤ c.toNat ∧ c.toNat ≤ 57 := by
  simp only [isdigit, Bool.and_eq_true, decide_eq_true_eq, UInt8.le_iff_toNat_le]
  exact Iff.rfl

theorem isgraph_iff : isgraph c = true ↔ 33 ≤ c.toNat ∧ c.toNat ≤ 126 := by
  simp only [isgraph, Bool.and_eq_true, decide_eq_true_eq, UInt8.le_iff_toNat_le]
  exact Iff.rfl

theorem toLower_toNat (c : UInt8) : (toLower c).toNat = if isupper c then c.toNat + 32 else c.toNat := by
  rw [toLower]
  split
  next h =>
    rw [isupper_iff] at h
    rw [UInt8.toNat_add, UInt8.toNat_sub]
    change ((2 ^ 8 - 65 + c.toNat) % 2 ^ 8 + 97) % 2 ^ 8 = c.toNat + 32
    omega
  next => rfl

theorem toUpper_toNat (c : UInt8) :
    (toUpper c).toNat = if isgraph c = true ∧ islower c = false then c.toNat else (c.toNat + 224) % 256 := by
  have hletter : (c - 'a'.toUInt8 + 'A'.toUInt8).toNat = (c.toNat + 224) % 256 := by
    rw [UInt8.toNat_add, UInt8.toNat_sub]
    change ((2 ^ 8 - 97 + c.toNat) % 2 ^ 8 + 65) % 2 ^ 8 = _
    omega
  have hgraph : isdigit c = true ∨ isupper c = true → isgraph c = true ∧ islower c = false := by
    rw [isdigit_iff, isupper_iff, isgraph_iff, ← Bool.not_eq_true, islower_iff]
    omega
  rw [toUpper, ispunct]
  cases hdigit : isdigit c with
  | true => rw [if_pos (hgraph (.inl hdigit)), Bool.true_or, if_pos rfl]
  | false =>
    cases hupper : isupper c with
    | true => simp [hgraph (.inr hupper)]
    | false => cases isgraph c <;> cases islower c <;> simp [hletter]

theorem toLower_nonzero (h : c ≠ 0) : toLower c ≠ 0 := by
  have hpos : c.toNat ≠ 0 := fun hzero => h (UInt8.toNat_inj.mp hzero)
  intro hnul
  have hvalue := toLower_toNat c
  rw [hnul, UInt8.toNat_zero] at hvalue
  split at hvalue
  all_goals omega

theorem toLower_changes (h : toLower c ≠ c) : isupper c = true := by
  rw [toLower] at h
  by_contra hupper
  exact h (if_neg hupper)

theorem toLower_toLower (c : UInt8) : toLower (toLower c) = toLower c := by
  rw [toLower, if_neg]
  rw [isupper_iff, toLower_toNat]
  split
  next h =>
    rw [isupper_iff] at h
    omega
  next h => rwa [isupper_iff] at h

theorem toUpper_changes (hgraph : isgraph c = true) (h : toUpper c ≠ c) : islower c = true := by
  by_contra hlower
  refine h (UInt8.toNat_inj.mp ?_)
  rw [toUpper_toNat, if_pos ⟨hgraph, by simpa using hlower⟩]

theorem toUpper_no_graph (hgraph : isgraph c = false) : toUpper c ≠ c := by
  intro h
  have hvalue := toUpper_toNat c
  have hlt := c.toNat_lt
  rw [h, if_neg (by simp [hgraph])] at hvalue
  omega

/-- A character with a graph keeps one, and is in lower case no longer. -/
theorem toUpper_graph (hgraph : isgraph c = true) : isgraph (toUpper c) = true ∧ islower (toUpper c) = false := by
  rw [isgraph_iff, ← Bool.not_eq_true, islower_iff, toUpper_toNat]
  split
  next h =>
    have hlower := h.2
    rw [isgraph_iff] at hgraph
    rw [← Bool.not_eq_true, islower_iff] at hlower
    exact ⟨hgraph, hlower⟩
  next h =>
    have hlower : islower c = true := by simpa [hgraph] using h
    rw [islower_iff] at hlower
    omega

theorem toUpper_nonzero (hgraph : isgraph c = true) : toUpper c ≠ 0 := by
  intro hnul
  have hkept := (toUpper_graph hgraph).1
  rw [hnul] at hkept
  cases hkept

theorem toUpper_toUpper (hgraph : isgraph c = true) : toUpper (toUpper c) = toUpper c := by
  by_contra h
  obtain ⟨hkept, hlower⟩ := toUpper_graph hgraph
  rw [toUpper_changes hkept h] at hlower
  cases hlower

theorem toLower_toUpper (hgraph : isgraph c = true) : toLower (toUpper c) = toLower c := by
  by_cases hsame : toUpper c = c
  · rw [hsame]
  have hlower := toUpper_changes hgraph hsame
  refine UInt8.toNat_inj.mp ?_
  have hvalue : (toUpper c).toNat = (c.toNat + 224) % 256 := by rw [toUpper_toNat, if_neg (by simp [hlower])]
  rw [islower_iff] at hlower
  have hupper : isupper (toUpper c) = true := by
    rw [isupper_iff]
    omega
  have hnone : ¬ isupper c = true := by
    rw [isupper_iff]
    omega
  rw [toLower_toNat, toLower_toNat, if_pos hupper, if_neg hnone]
  omega

/-! ## A string -/

theorem convertInplace_terminated (convert : UInt8 → UInt8) (str : CString) (rest : Bytes) :
    convertInplace convert (str.bytes ++ 0 :: rest) = str.bytes.map convert ++ 0 :: rest := by
  obtain ⟨bytes, hnul⟩ := str
  induction bytes with
  | nil => rfl
  | cons c bytes ih =>
    have hne : c ≠ 0 := fun h => hnul (h ▸ List.mem_cons_self)
    rw [List.cons_append, convertInplace, if_neg hne, ih fun h => hnul (List.mem_cons_of_mem _ h)]
    rfl

/-- What a conversion that makes no NUL does to a string. -/
def converted (str : CString) (convert : UInt8 → UInt8) (h : ∀ c ∈ str.bytes, convert c ≠ 0) : CString where
  bytes := str.bytes.map convert
  nul_free := by
    intro hnul
    obtain ⟨c, hc, hzero⟩ := List.mem_map.mp hnul
    exact h c hc hzero

/-- Only characters that pass the test are different in the converted string. -/
def ChangesOnly (test : UInt8 → Bool) (str result : Bytes) : Prop :=
  ∀ i : ℕ, result[i]? ≠ str[i]? → ∃ c, str[i]? = some c ∧ test c = true

structure ConvertsCase (mem : Bytes) : Prop where
  length_upper : (text (toUpperStrInplace mem)).length = (text mem).length
  length_lower : (text (toLowerStrInplace mem)).length = (text mem).length
  changes_upper : ChangesOnly islower (text mem) (text (toUpperStrInplace mem))
  changes_lower : ChangesOnly isupper (text mem) (text (toLowerStrInplace mem))
  upper_upper : text (toUpperStrInplace (toUpperStrInplace mem)) = text (toUpperStrInplace mem)
  lower_lower : text (toLowerStrInplace (toLowerStrInplace mem)) = text (toLowerStrInplace mem)
  lower_upper : text (toLowerStrInplace (toUpperStrInplace mem)) = text (toLowerStrInplace mem)

theorem changesOnly_map {test : UInt8 → Bool} {convert : UInt8 → UInt8} {str : Bytes}
    (h : ∀ c ∈ str, convert c ≠ c → test c = true) : ChangesOnly test str (str.map convert) := by
  intro i hne
  rw [List.getElem?_map] at hne
  cases hc : str[i]? with
  | none =>
    rw [hc] at hne
    exact absurd rfl hne
  | some c =>
    rw [hc] at hne
    exact ⟨c, rfl, h c (List.mem_of_getElem? hc) fun hsame => hne (congrArg some hsame)⟩

section Conversion

variable {convert : UInt8 → UInt8} {str : CString}

theorem convertInplace_converted (h : ∀ c ∈ str.bytes, convert c ≠ 0) (rest : Bytes) :
    convertInplace convert (str.bytes ++ 0 :: rest) = (converted str convert h).bytes ++ 0 :: rest :=
  convertInplace_terminated convert str rest

theorem text_converted (h : ∀ c ∈ str.bytes, convert c ≠ 0) (rest : Bytes) :
    text (convertInplace convert (str.bytes ++ 0 :: rest)) = str.bytes.map convert := by
  rw [convertInplace_converted h, text_terminated]
  rfl

theorem text_converted_twice (h : ∀ c ∈ str.bytes, convert c ≠ 0) {again : UInt8 → UInt8}
    (hagain : ∀ c ∈ str.bytes, again (convert c) ≠ 0) (rest : Bytes) :
    text (convertInplace again (convertInplace convert (str.bytes ++ 0 :: rest))) = str.bytes.map fun c => again (convert c) := by
  have hnul : ∀ c ∈ (converted str convert h).bytes, again c ≠ 0 := by
    intro c hc
    obtain ⟨d, hd, rfl⟩ := List.mem_map.mp hc
    exact hagain d hd
  rw [convertInplace_converted h, text_converted hnul]
  exact List.map_map

end Conversion

/-- Exactly the strings of characters with a graph are converted as they should be. -/
theorem convertsCase_iff (str : CString) (rest : Bytes) :
    ConvertsCase (str.bytes ++ 0 :: rest) ↔ ∀ c ∈ str.bytes, isgraph c = true := by
  have hlower : ∀ c ∈ str.bytes, toLower c ≠ 0 := fun c hc => toLower_nonzero fun h => str.nul_free (h ▸ hc)
  constructor
  · intro hconverts c hc
    obtain ⟨i, hget⟩ := List.mem_iff_getElem?.mp hc
    by_contra hgraph
    rw [Bool.not_eq_true] at hgraph
    have hchanges := hconverts.changes_upper i
    rw [text_terminated, hget] at hchanges
    obtain ⟨d, hd, hletter⟩ := hchanges fun hsame => by
      have hmapped := getElem?_text hsame
      rw [toUpperStrInplace, convertInplace_terminated, List.getElem?_append_left, List.getElem?_map, hget] at hmapped
      · exact toUpper_no_graph hgraph (Option.some.inj hmapped)
      · rw [List.length_map]
        exact (List.getElem?_eq_some_iff.mp hget).1
    obtain rfl := Option.some.inj hd
    rw [← Bool.not_eq_true, isgraph_iff] at hgraph
    rw [islower_iff] at hletter
    omega
  · intro hgraph
    have hupper : ∀ c ∈ str.bytes, toUpper c ≠ 0 := fun c hc => toUpper_nonzero (hgraph c hc)
    constructor
    all_goals simp only [toUpperStrInplace, toLowerStrInplace, text_terminated, text_converted hupper, text_converted hlower]
    · exact List.length_map _
    · exact List.length_map _
    · exact changesOnly_map fun c hc => toUpper_changes (hgraph c hc)
    · exact changesOnly_map fun c _ => toLower_changes
    · rw [text_converted_twice hupper fun c hc => by rw [toUpper_toUpper (hgraph c hc)]; exact hupper c hc]
      exact List.map_congr_left fun c hc => toUpper_toUpper (hgraph c hc)
    · rw [text_converted_twice hlower fun c hc => by rw [toLower_toLower]; exact hlower c hc]
      exact List.map_congr_left fun c _ => toLower_toLower c
    · rw [text_converted_twice hupper fun c hc => by rw [toLower_toUpper (hgraph c hc)]; exact hlower c hc]
      exact List.map_congr_left fun c hc => toLower_toUpper (hgraph c hc)

/-- The blank becomes the NUL, and cuts the string. -/
theorem blank_cut : ¬ ConvertsCase (Json.ascii "a b" ++ [0]) := by
  intro h
  have hlength := h.length_upper
  revert hlength
  decide

end Libntech.Strings
