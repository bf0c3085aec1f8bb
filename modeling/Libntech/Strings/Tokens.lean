import Libntech.Json.Element
import Libntech.Lib.Runs

/-! # Tokens (`StringCountTokens`, `StringGetToken`)

A pointer is a place in the memory behind the beginning of the string. The tokens are the maximal runs without a
separator: counting them is one pass, and getting one starts again behind each token before it.
-/
namespace Libntech.Strings
set_option autoImplicit false

open Libntech.Json (Bytes CString)
open Libntech.Lib (MaximalRun runs runsFrom runsFrom_cons runsFrom_shift runsFrom_start mem_runs_iff runs_apart)

structure StringRef where
  data : Option ℕ
  len : ℕ
  deriving DecidableEq

def stringRefNull : StringRef := ⟨none, 0⟩

/-- `strchr(seps, c) != NULL`, which finds the terminator too. -/
def isSeparator (seps : Bytes) (c : UInt8) : Bool := seps.contains c || c == 0

/-- The loop of `StringCountTokens`; `inToken` is its flag. -/
def countLoop (seps : Bytes) (inToken : Bool) (numTokens : ℕ) : Bytes → ℕ
  | [] => numTokens
  | c :: rest =>
    if isSeparator seps c then countLoop seps false numTokens rest
    else countLoop seps true (if inToken then numTokens else numTokens + 1) rest

def stringCountTokens (str : Bytes) (len : ℕ) (seps : Bytes) : ℕ := countLoop seps false 0 (str.take len)

/-- The loop of `StringNextToken` over the `len` bytes at `str`; `found` is where the token starts, once it has. -/
def nextLoop (seps : Bytes) (str len i : ℕ) (found : Option ℕ) : Bytes → StringRef
  | [] => found.elim stringRefNull fun start => ⟨some (str + start), len - start⟩
  | c :: rest =>
    if isSeparator seps c then
      found.elim (nextLoop seps str len (i + 1) none rest) fun start => ⟨some (str + start), i - start⟩
    else nextLoop seps str len (i + 1) (some (found.getD i)) rest

def stringNextToken (memory : Bytes) (str len : ℕ) (seps : Bytes) : StringRef :=
  nextLoop seps str len 0 none ((memory.drop str).take len)

/-- The loop of `StringGetToken`, which goes on behind `ref`. -/
def getLoop (memory seps : Bytes) (str len : ℕ) (ref : StringRef) : ℕ → StringRef
  | 0 => ref
  | index + 1 =>
    ref.data.elim ref fun data =>
      let len := len - (data - str + ref.len)
      let str := data + ref.len
      getLoop memory seps str len (stringNextToken memory str len seps) index

def stringGetToken (str : Bytes) (len index : ℕ) (seps : Bytes) : StringRef :=
  getLoop str seps 0 len (stringNextToken str 0 len seps) index

/-! ## One pass -/

theorem countLoop_eq (seps : Bytes) (place numTokens : ℕ) (started : Option ℕ) (text : Bytes) :
    countLoop seps started.isSome (numTokens + started.toList.length) text =
      numTokens + (runsFrom (isSeparator seps) place started text).length := by
  induction text generalizing place numTokens started with
  | nil => simp [countLoop, runsFrom]
  | cons c rest ih =>
    unfold countLoop runsFrom
    split
    · have hrest := ih (place + 1) (numTokens + started.toList.length) none
      rw [Option.isSome_none, Option.toList_none, List.length_nil, Nat.add_zero] at hrest
      rw [hrest, List.length_append, List.length_map, Nat.add_assoc]
    · have hrest := ih (place + 1) numTokens (some (started.getD place))
      rw [Option.isSome_some, Option.toList_some, List.length_singleton] at hrest
      rw [← hrest]
      cases started with
      | none => rfl
      | some start => rfl

/-- A run as a reference, and the null reference for none. -/
def asRef (token : Option (ℕ × ℕ)) : StringRef := token.elim stringRefNull fun token => ⟨some token.1, token.2⟩

theorem nextLoop_eq {seps : Bytes} {str len i : ℕ} {found : Option ℕ} {text : Bytes} (hlen : i + text.length = len) :
    nextLoop seps str len i found text =
      asRef ((runsFrom (isSeparator seps) i found text).map fun r => (str + r.1, r.2)).head? := by
  induction text generalizing i found with
  | nil =>
    obtain rfl : i = len := hlen
    cases found with
    | none => rfl
    | some start => rfl
  | cons c rest ih =>
    have hrest {found : Option ℕ} := @ih (i + 1) found (by rw [List.length_cons] at hlen; omega)
    unfold nextLoop runsFrom
    split
    · cases found with
      | none => exact hrest
      | some start => rfl
    · exact hrest

/-! ## Going on behind a token -/

theorem stringNextToken_eq {memory : Bytes} {str len : ℕ} (seps : Bytes) (hfits : str + len ≤ memory.length) :
    stringNextToken memory str len seps =
      asRef (runsFrom (isSeparator seps) str none ((memory.drop str).take len)).head? := by
  have hlen : 0 + ((memory.drop str).take len).length = len := by
    rw [List.length_take, List.length_drop]
    omega
  have hshift := @runsFrom_shift UInt8 (isSeparator seps) str 0 none ((memory.drop str).take len)
  rw [Option.map_none, Nat.add_zero] at hshift
  rw [stringNextToken, nextLoop_eq hlen, hshift]

theorem getLoop_eq {memory : Bytes} {str len : ℕ} (seps : Bytes) (hfits : str + len ≤ memory.length) (index : ℕ) :
    getLoop memory seps str len (stringNextToken memory str len seps) index =
      asRef (runsFrom (isSeparator seps) str none ((memory.drop str).take len))[index]? := by
  induction index generalizing str len with
  | zero => rw [getLoop, stringNextToken_eq seps hfits, List.head?_eq_getElem?]
  | succ index ih =>
    rw [getLoop, stringNextToken_eq seps hfits]
    cases htokens : runsFrom (isSeparator seps) str none ((memory.drop str).take len) with
    | nil => rfl
    | cons token tail =>
      obtain ⟨start, tokenLen⟩ := token
      have hstart : str ≤ start := by
        have hmem : (start, tokenLen) ∈ runsFrom (isSeparator seps) str none ((memory.drop str).take len) := by
          rw [htokens]
          exact List.mem_cons_self
        obtain hle | hnone := runsFrom_start hmem
        · exact hle
        · cases hnone
      obtain ⟨hbegin, hinside, hrest⟩ := runsFrom_cons (by simp) htokens
      rw [List.length_take, List.length_drop] at hinside
      have hused : start - str + tokenLen = start + tokenLen - str := by omega
      have hend : str + (start + tokenLen - str) = start + tokenLen := by omega
      rw [List.drop_take, List.drop_drop, hend] at hrest
      change getLoop memory seps (start + tokenLen) (len - (start - str + tokenLen))
        (stringNextToken memory (start + tokenLen) (len - (start - str + tokenLen)) seps) index = _
      rw [hused, ih (by omega), hrest, List.getElem?_cons_succ]

/-! ## The tokens -/

/-- `len` bytes in memory, none of them the terminator. -/
structure GivenString where
  memory : Bytes
  len : ℕ
  fits : len ≤ memory.length
  nul_free : 0 ∉ memory.take len

def GivenString.text (str : GivenString) : Bytes := str.memory.take str.len

theorem GivenString.isSeparator_map (str : GivenString) (seps : Bytes) (i : ℕ) :
    str.text[i]?.map (isSeparator seps) = str.text[i]?.map seps.contains := by
  refine Option.map_congr fun c hc => ?_
  have hne : c ≠ 0 := fun h => str.nul_free (h ▸ List.mem_of_getElem? hc)
  rw [isSeparator, beq_eq_false_iff_ne.mpr hne, Bool.or_false]

theorem GivenString.maximalRun_iff (str : GivenString) (seps : Bytes) (start len : ℕ) :
    MaximalRun (isSeparator seps) str.text start len ↔ MaximalRun seps.contains str.text start len := by
  constructor
  · rintro ⟨hpos, hinside, hfree, hbefore, hbehind⟩
    simp only [str.isSeparator_map] at hfree hbefore hbehind
    exact ⟨hpos, hinside, hfree, hbefore, hbehind⟩
  · rintro ⟨hpos, hinside, hfree, hbefore, hbehind⟩
    simp only [← str.isSeparator_map] at hfree hbefore hbehind
    exact ⟨hpos, hinside, hfree, hbefore, hbehind⟩

/-- The tokens, in order and apart from each other, are all the maximal runs without a separator: so none is empty and none
reaches behind `len`. They are as many as are counted, and each index gets its token or the null reference. -/
theorem stringGetToken_tokens (str : GivenString) (seps : CString) :
    ∃ tokens : List (ℕ × ℕ),
      (∀ start len, (start, len) ∈ tokens ↔ MaximalRun seps.bytes.contains str.text start len) ∧
      (tokens.Pairwise fun a b => a.1 + a.2 < b.1) ∧
      stringCountTokens str.memory str.len seps.bytes = tokens.length ∧
      ∀ index, stringGetToken str.memory str.len index seps.bytes =
        if h : index < tokens.length then ⟨some tokens[index].1, tokens[index].2⟩ else stringRefNull := by
  refine ⟨runs (isSeparator seps.bytes) str.text, fun start len => ?_, runs_apart, ?_, fun index => ?_⟩
  · rw [mem_runs_iff, str.maximalRun_iff]
  · have hcount := countLoop_eq seps.bytes 0 0 none str.text
    rw [Option.isSome_none, Option.toList_none, List.length_nil, Nat.zero_add, Nat.zero_add] at hcount
    exact hcount
  · have hfits : 0 + str.len ≤ str.memory.length := by simpa using str.fits
    rw [stringGetToken, getLoop_eq seps.bytes hfits, List.drop_zero]
    change asRef (runs (isSeparator seps.bytes) str.text)[index]? = _
    by_cases h : index < (runs (isSeparator seps.bytes) str.text).length
    · rw [dif_pos h, List.getElem?_eq_getElem h]
      rfl
    · rw [dif_neg h, List.getElem?_eq_none (Nat.le_of_not_lt h)]
      rfl

end Libntech.Strings
