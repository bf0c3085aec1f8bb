import Libntech.Strings.Regex
import Mathlib.Data.List.Basic

/-! # Glob patterns (`libutils/glob_lib.c`)

The build is not for Windows, where `NormalizePath` copies. PCRE2 is a parameter.
-/
namespace Libntech.Glob
set_option autoImplicit false

open Libntech.Json
open Libntech.Strings (Matcher stringMatchFull stringMatchFull_iff)

/-! ## Braces -/

/-- The loop over the pattern: the last opening brace before the first closing one behind it, and that one. -/
def findBraces : Bytes → ℕ → Option ℕ → Option (ℕ × ℕ)
  | [], _, _ => none
  | ch :: rest, i, left =>
    if ch = '\x7b'.toUInt8 then findBraces rest (i + 1) (some i)
    else
      match left with
      | none => findBraces rest (i + 1) none
      | some l => if ch = '\x7d'.toUInt8 then some (l, i) else findBraces rest (i + 1) (some l)

variable {pattern regex str : Bytes}

theorem findBraces_lt {i l r : ℕ} {left : Option ℕ} (hleft : ∀ l, left = some l → l < i)
    (h : findBraces str i left = some (l, r)) : l < r ∧ r < i + str.length := by
  induction str generalizing i left with
  | nil => cases h
  | cons ch rest ih =>
    rw [List.length_cons]
    unfold findBraces at h
    split at h
    · have := ih (fun l hl => Option.some.inj hl ▸ Nat.lt_succ_self i) h
      omega
    · cases left with
      | none =>
        have := ih (fun _ hl => by cases hl) h
        omega
      | some l₀ =>
        have hl₀ := hleft l₀ rfl
        dsimp only at h
        split at h
        · cases h
          omega
        · have := ih (fun l hl => Option.some.inj hl ▸ Nat.lt_succ_of_lt hl₀) h
          omega

theorem findBraces_between {l r : ℕ} (h : findBraces pattern 0 none = some (l, r)) :
    l < r ∧ r < pattern.length := by
  have := findBraces_lt (fun _ hl => by cases hl) h
  omega

theorem length_of_mem_splitOn {sep : UInt8} {piece : Bytes} (h : piece ∈ str.splitOn sep) :
    piece.length ≤ str.length := by
  induction str generalizing piece with
  | nil =>
    obtain rfl := List.mem_singleton.mp h
    exact Nat.le_refl _
  | cons c rest ih =>
    rw [List.splitOn_cons_eq_if_modifyHead] at h
    split at h
    · rcases List.mem_cons.mp h with rfl | hmem
      · exact Nat.zero_le _
      · exact Nat.le_succ_of_le (ih hmem)
    · obtain ⟨first, others, hsplit⟩ := List.exists_cons_of_ne_nil (List.splitOn_ne_nil sep rest)
      rw [hsplit, List.modifyHead_cons] at h
      rcases List.mem_cons.mp h with rfl | hmem
      · exact Nat.succ_le_succ (ih (by rw [hsplit]; exact List.mem_cons_self))
      · exact Nat.le_succ_of_le (ih (by rw [hsplit]; exact List.mem_cons_of_mem _ hmem))

/-- What stands between two braces. -/
def between (pattern : Bytes) (l r : ℕ) : Bytes := (pattern.drop (l + 1)).take (r - (l + 1))

theorem length_between (pattern : Bytes) (l r : ℕ) : (between pattern l r).length ≤ r - (l + 1) :=
  List.length_take_le _ _

/-- `ExpandBraces`. The set is a list here, in which a pattern may occur more than once. -/
def expandBraces (pattern : Bytes) : List Bytes :=
  match h : findBraces pattern 0 none with
  | none => [pattern]
  | some (l, r) =>
    have _hlt := findBraces_between h
    ((between pattern l r).splitOn ','.toUInt8).attach.flatMap fun middle =>
      expandBraces (pattern.take l ++ middle.1 ++ pattern.drop (r + 1))
termination_by pattern.length
decreasing_by
  have hpiece := length_of_mem_splitOn middle.2
  have hbetween := length_between pattern l r
  simp only [List.length_append, List.length_take, List.length_drop]
  omega

theorem expandBraces_of_none (h : findBraces pattern 0 none = none) : expandBraces pattern = [pattern] := by
  unfold expandBraces
  split
  · rfl
  · rename_i heq
    rw [h] at heq
    cases heq

/-! ## Regular expressions -/

/-- `SearchAndReplace`, for one character. -/
def escapeAll (c : UInt8) (str : Bytes) : Bytes := str.flatMap fun d => if d = c then ['\\'.toUInt8, c] else [d]

def isInfixOf (sub str : Bytes) : Bool := (List.range (str.length + 1)).any fun i => sub.isPrefixOf (str.drop i)

/-- The chunks of a set with two hyphens in a row: `StringFind` looks for the next hyphen from `middle` on; `left` is
where the chunk begins. -/
def bracketChunks (stuff : Bytes) : ℕ → ℕ → ℕ → List Bytes
  | 0, left, _ => [stuff.drop left]
  | fuel + 1, left, middle =>
    let gap := ((stuff.drop middle).takeWhile (· ≠ '-'.toUInt8)).length
    if middle + gap < stuff.length then
      (stuff.drop left).take (middle + gap - left) :: bracketChunks stuff fuel (middle + gap + 1) (middle + gap + 3)
    else [stuff.drop left]

/-- `TranslateBracket`, for the text behind the bracket: how much of it is used up, and the regular expression. -/
def translateBracket (pattern : Bytes) : ℕ × Bytes :=
  let right := if pattern.head? = some '!'.toUInt8 then 1 else 0
  let right := if pattern[right]? = some ']'.toUInt8 then right + 1 else right
  let right := right + ((pattern.drop right).takeWhile (· ≠ ']'.toUInt8)).length
  if pattern.length ≤ right then (0, ascii "\\[")
  else
    let stuff := pattern.take right
    let stuff :=
      if isInfixOf (ascii "--") stuff then
        let middle := if pattern.head? = some '!'.toUInt8 then 2 else 1
        List.intercalate (ascii "-") ((bracketChunks stuff stuff.length 0 middle).map fun chunk =>
          escapeAll '-'.toUInt8 (escapeAll '\\'.toUInt8 chunk))
      else escapeAll '\\'.toUInt8 stuff
    let stuff :=
      if stuff.head? = some '!'.toUInt8 then '^'.toUInt8 :: stuff.tail
      else if stuff.head? = some '^'.toUInt8 ∨ stuff.head? = some '['.toUInt8 then '\\'.toUInt8 :: stuff
      else stuff
    (right + 1, '['.toUInt8 :: (stuff ++ ascii "]"))

def specialChars : Bytes := ascii "()[]\x7b\x7d?*+-|^$\\.&~# \t\n\r" ++ [11, 12]

/-- A character that stands for itself. -/
def escapeSpecial (ch : UInt8) : Bytes := if specialChars.contains ch then ['\\'.toUInt8, ch] else [ch]

/-- The loop of `TranslateGlob`; each turn takes a character. Behind a backslash at the end stands the terminator, which
ends the regular expression as well. -/
def translateChars : ℕ → Bytes → Bytes
  | 0, _ => []
  | _ + 1, [] => []
  | fuel + 1, ch :: rest =>
    if ch = '\\'.toUInt8 then ch :: (rest.take 1 ++ translateChars fuel rest.tail)
    else if ch = '*'.toUInt8 then ascii ".*" ++ translateChars fuel rest
    else if ch = '?'.toUInt8 then ascii "." ++ translateChars fuel rest
    else if ch = '['.toUInt8 then
      let bracket := translateBracket rest
      bracket.2 ++ translateChars fuel (rest.drop bracket.1)
    else escapeSpecial ch ++ translateChars fuel rest

/-- `TranslateGlob` -/
def translateGlob (pattern : Bytes) : Bytes := ascii "(?s:" ++ translateChars pattern.length pattern ++ ascii ")\\Z"

/-! ## Matching -/

def isWildcardPattern (str : Bytes) : Bool := str.any fun c => (ascii "*?[]\x7b\x7d").contains c

section

variable {Regex : Type} (pcre2 : Matcher Regex)

def globMatch (pattern filename : Bytes) : Bool :=
  (expandBraces pattern).any fun expanded => stringMatchFull pcre2 (translateGlob expanded) filename

theorem globMatch_braceless (h : findBraces pattern 0 none = none) :
    globMatch pcre2 pattern = stringMatchFull pcre2 (translateGlob pattern) := by
  funext filename
  rw [globMatch, expandBraces_of_none h, List.any_cons, List.any_nil, Bool.or_false]

end

/-! ## Characters that stand for themselves -/

/-- The characters that mean something in a regular expression. -/
def metaCharacters : Bytes := ascii "\\^$.[|()*+?\x7b"

def isAlphanumeric (c : UInt8) : Bool :=
  ('0'.toUInt8 ≤ c && c ≤ '9'.toUInt8) || ('A'.toUInt8 ≤ c && c ≤ 'Z'.toUInt8) || ('a'.toUInt8 ≤ c && c ≤ 'z'.toUInt8)

/-- A regular expression of single characters, each as it is or behind a backslash, and the text that it spells. -/
inductive Spells : Bytes → Bytes → Prop where
  | nil : Spells [] []
  | plain {c : UInt8} {regex text : Bytes} (h : metaCharacters.contains c = false) (rest : Spells regex text) :
    Spells (c :: regex) (c :: text)
  | escaped {c : UInt8} {regex text : Bytes} (h : isAlphanumeric c = false) (rest : Spells regex text) :
    Spells ('\\'.toUInt8 :: c :: regex) (c :: text)

/-- What is documented of these: a character without a meaning stands for itself, and a backslash takes its meaning away
from a character that is neither a letter nor a digit. -/
def MatchesLiterals {Regex : Type} (pcre2 : Matcher Regex) : Prop :=
  ∀ regex text, Spells regex text → ∃ code, pcre2.compileRegex (ascii "(?s:" ++ regex ++ ascii ")\\Z") = some code ∧
    ∀ str, pcre2.pcre2Match code str = some (0, str.length) ↔ str = text

/-- The text that such a regular expression spells. -/
def readLiterals : Bytes → Option Bytes
  | [] => some []
  | [c] => if metaCharacters.contains c then none else some [c]
  | c :: d :: rest =>
    if c = '\\'.toUInt8 then if isAlphanumeric d then none else (readLiterals rest).map (d :: ·)
    else if metaCharacters.contains c then none
    else (readLiterals (d :: rest)).map (c :: ·)

/-- A matcher for these regular expressions only. -/
def matchLiterals : Matcher (Bytes → Bool) := .whole fun regex =>
  let body := (regex.drop 4).take (regex.length - 7)
  if regex = ascii "(?s:" ++ body ++ ascii ")\\Z" then (readLiterals body).map fun text str => str == text else none

theorem readLiterals_plain {c : UInt8} (h : metaCharacters.contains c = false) :
    readLiterals (c :: regex) = (readLiterals regex).map (c :: ·) := by
  cases regex with
  | nil =>
    show (if metaCharacters.contains c = true then none else some [c]) = some [c]
    rw [if_neg (by rw [h]; decide)]
  | cons d rest =>
    have hc : c ≠ '\\'.toUInt8 := fun heq => by
      rw [heq] at h
      cases h
    rw [readLiterals, if_neg hc, if_neg (by rw [h]; decide)]

theorem readLiterals_spells {text : Bytes} (h : Spells regex text) : readLiterals regex = some text := by
  induction h with
  | nil => rfl
  | plain hc _ ih => rw [readLiterals_plain hc, ih]; rfl
  | escaped hc _ ih => rw [readLiterals, if_pos rfl, if_neg (by rw [hc]; decide), ih]; rfl

theorem body_enclosed (regex : Bytes) :
    ((ascii "(?s:" ++ regex ++ ascii ")\\Z").drop 4).take ((ascii "(?s:" ++ regex ++ ascii ")\\Z").length - 7) =
      regex := by
  have hlen : (ascii "(?s:" ++ regex ++ ascii ")\\Z").length - 7 = regex.length := by
    rw [List.length_append, List.length_append]
    show 4 + regex.length + 3 - 7 = regex.length
    omega
  rw [hlen, List.append_assoc]
  exact List.take_left

theorem matchLiterals_literals : MatchesLiterals matchLiterals := by
  intro regex text h
  refine ⟨fun str => str == text, ?_, fun str => ?_⟩
  · show (if _ then _ else none) = _
    rw [body_enclosed, if_pos rfl, readLiterals_spells h, Option.map_some]
  · simp [matchLiterals, Matcher.whole]

theorem escapeSpecial_spells {c : UInt8} {text : Bytes} (h : Spells regex text) :
    Spells (escapeSpecial c ++ regex) (c :: text) := by
  have hspecial : specialChars.all (fun c => !isAlphanumeric c) = true := by decide
  have hmeta : metaCharacters.all (fun c => specialChars.contains c) = true := by decide
  unfold escapeSpecial
  split
  · rename_i hc
    refine .escaped ?_ h
    simpa using List.all_eq_true.mp hspecial c (by simpa using hc)
  · rename_i hc
    refine .plain (Bool.eq_false_iff.mpr fun hmem => hc ?_) h
    exact List.all_eq_true.mp hmeta c (by simpa using hmem)

theorem translateChars_spells {fuel : ℕ} (hfuel : pattern.length ≤ fuel)
    (hplain : ∀ c ∈ pattern, (ascii "\\*?[").contains c = false) : Spells (translateChars fuel pattern) pattern := by
  induction pattern generalizing fuel with
  | nil => cases fuel <;> exact .nil
  | cons c rest ih =>
    obtain ⟨fuel, rfl⟩ : ∃ m, fuel = m + 1 := ⟨fuel - 1, by rw [List.length_cons] at hfuel; omega⟩
    have hc := hplain c List.mem_cons_self
    have hother : ∀ d : UInt8, (ascii "\\*?[").contains d = true → c ≠ d := fun d hd heq => by
      rw [heq, hd] at hc
      cases hc
    rw [translateChars, if_neg (hother _ rfl), if_neg (hother _ rfl), if_neg (hother _ rfl), if_neg (hother _ rfl)]
    refine escapeSpecial_spells (ih (Nat.le_of_succ_le_succ ?_) fun d hd => hplain d (List.mem_cons_of_mem _ hd))
    rwa [List.length_cons] at hfuel

theorem findBraces_plain (h : ∀ c ∈ str, c ≠ '\x7b'.toUInt8) (i : ℕ) : findBraces str i none = none := by
  induction str generalizing i with
  | nil => rfl
  | cons c rest ih =>
    rw [findBraces, if_neg (h c List.mem_cons_self)]
    exact ih (fun d hd => h d (List.mem_cons_of_mem _ hd)) (i + 1)

/-- A component that is no wildcard pattern and has no backslash matches itself only. -/
theorem globMatch_literal {Regex : Type} {pcre2 : Matcher Regex} (hregex : MatchesLiterals pcre2)
    {component : Bytes} (hwild : isWildcardPattern component = false) (hescape : '\\'.toUInt8 ∉ component)
    (name : Bytes) : globMatch pcre2 component name = true ↔ name = component := by
  have hall : ∀ c ∈ component, (ascii "*?[]\x7b\x7d").contains c = false := by
    intro c hc
    exact Bool.eq_false_iff.mpr fun hmem => by
      rw [isWildcardPattern, Bool.eq_false_iff] at hwild
      exact hwild (List.any_eq_true.mpr ⟨c, hc, hmem⟩)
  have hbrace : ∀ c ∈ component, c ≠ '\x7b'.toUInt8 := fun c hc heq => by
    have := hall c hc
    rw [heq] at this
    cases this
  have hplain : ∀ c ∈ component, (ascii "\\*?[").contains c = false := by
    intro c hc
    refine Bool.eq_false_iff.mpr fun hmem => ?_
    have hwhich : c = '\\'.toUInt8 ∨ (ascii "*?[]\x7b\x7d").contains c = true := by
      have hcases : c = '\\'.toUInt8 ∨ c = '*'.toUInt8 ∨ c = '?'.toUInt8 ∨ c = '['.toUInt8 := by
        simpa [ascii] using hmem
      rcases hcases with h | rfl | rfl | rfl
      · exact .inl h
      · exact .inr rfl
      · exact .inr rfl
      · exact .inr rfl
    rcases hwhich with rfl | hwildcard
    · exact hescape hc
    · rw [hall c hc] at hwildcard
      cases hwildcard
  obtain ⟨code, hcompile, hmatch⟩ := hregex _ _ (translateChars_spells (Nat.le_refl _) hplain)
  rw [globMatch_braceless pcre2 (findBraces_plain hbrace 0), translateGlob, stringMatchFull_iff hcompile, hmatch]

end Libntech.Glob
