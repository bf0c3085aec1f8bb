import Libntech.Json.Element
import Libntech.Lib.FirstDifference
import Libntech.Lib.Scanf
import Mathlib.Data.Int.Order.Basic

/-! # Versions (`libutils/version_comparison.c`)

A version is compared by the numbers that `sscanf` reads from it, one, two or three of them. Where one version has no more
numbers the two are equal: `CompareVersion` compares at the first difference (`Below`).
-/
namespace Libntech.Strings
set_option autoImplicit false

open Libntech.Json (Bytes ascii)
open Libntech.Lib (Below Comparable)
open Libntech.Lib.Scanf (Directive sscanf)

inductive VersionComparison where
  | smaller
  | equal
  | greater
  | error
  deriving DecidableEq

inductive BooleanOrError where
  | error
  | false
  | true
  deriving DecidableEq

/-- `"%d.%d.%d"` -/
def versionFormat : List Directive := [.decimal, .literal '.'.toUInt8, .decimal, .literal '.'.toUInt8, .decimal]

/-- The components of a version. -/
def components (version : Bytes) : List ℤ := sscanf versionFormat version

def compareVersion (a b : Bytes) : VersionComparison :=
  let a_num := (components a).length
  let a_major := (components a).getD 0 0
  let a_minor := (components a).getD 1 0
  let a_patch := (components a).getD 2 0
  if a_num < 1 ∨ 3 < a_num then .error
  else
    let b_num := (components b).length
    let b_major := (components b).getD 0 0
    let b_minor := (components b).getD 1 0
    let b_patch := (components b).getD 2 0
    if b_num < 1 ∨ 3 < b_num then .error
    else if b_major < a_major then .greater
    else if a_major < b_major then .smaller
    else if a_num = 1 ∨ b_num = 1 then .equal
    else if a_minor < b_minor then .smaller
    else if b_minor < a_minor then .greater
    else if a_num = 2 ∨ b_num = 2 then .equal
    else if a_patch < b_patch then .smaller
    else if b_patch < a_patch then .greater
    else .equal

/-- A C truth value in the enumeration. -/
def booleanOrError (truth : Bool) : BooleanOrError := if truth then .true else .false

def compareVersionExpression (a operator b : Bytes) : BooleanOrError :=
  let r := compareVersion a b
  if r = .error then .error
  else if operator = ascii "=" ∨ operator = ascii "==" then booleanOrError (r = .equal)
  else if operator = ascii ">" then booleanOrError (r = .greater)
  else if operator = ascii "<" then booleanOrError (r = .smaller)
  else if operator = ascii ">=" then booleanOrError (r = .greater ∨ r = .equal)
  else if operator = ascii "<=" then booleanOrError (r = .smaller ∨ r = .equal)
  else if operator = ascii "!=" then booleanOrError (r ≠ .equal)
  else .error

/-! ## The order -/

section Order

variable {a b c : Bytes}

theorem components_cases (version : Bytes) : components version = [] ∨ (∃ x, components version = [x]) ∨
    (∃ x y, components version = [x, y]) ∨ ∃ x y z, components version = [x, y, z] := by
  have hlen : (components version).length ≤ 3 := Lib.Scanf.length_sscanf_le versionFormat version
  match hc : components version with
  | [] => exact .inl rfl
  | [x] => exact .inr (.inl ⟨x, rfl⟩)
  | [x, y] => exact .inr (.inr (.inl ⟨x, y, rfl⟩))
  | [x, y, z] => exact .inr (.inr (.inr ⟨x, y, z, rfl⟩))
  | _ :: _ :: _ :: _ :: _ =>
    simp only [hc, List.length_cons] at hlen
    omega

/-- The comparison of the components, as long as both versions have some. -/
def compareComponents : List ℤ → List ℤ → VersionComparison
  | x :: as, y :: bs => if x < y then .smaller else if y < x then .greater else compareComponents as bs
  | _, _ => .equal

attribute [local simp] compareComponents

theorem compareComponents_head {x y : ℤ} (as bs : List ℤ) :
    compareComponents (x :: as) (y :: bs) =
      if y < x then .greater else if x < y then .smaller else compareComponents as bs := by
  rcases lt_trichotomy x y with h | rfl | h
  · simp [h, not_lt_of_gt h]
  · simp
  · simp [h, not_lt_of_gt h]

/-- The steps of `CompareVersion` for versions of each length. -/
theorem compareVersion_eq (a b : Bytes) : compareVersion a b =
    if components a = [] ∨ components b = [] then .error else compareComponents (components a) (components b) := by
  rcases components_cases a with ha | ⟨x, ha⟩ | ⟨x, y, ha⟩ | ⟨x, y, z, ha⟩
  · simp [compareVersion, ha]
  all_goals
    rcases components_cases b with hb | ⟨x', hb⟩ | ⟨x', y', hb⟩ | ⟨x', y', z', hb⟩
    · simp [compareVersion, ha, hb]
    all_goals
      rw [ha, hb, if_neg (by simp), compareComponents_head]
      simp [compareVersion, ha, hb]

/-- What a result says about the components. -/
def Says (as bs : List ℤ) : VersionComparison → Prop
  | .smaller => Below as bs
  | .equal => Comparable as bs
  | .greater => Below bs as
  | .error => False

theorem Says.cons (x : ℤ) {as bs : List ℤ} {r : VersionComparison} (h : Says as bs r) : Says (x :: as) (x :: bs) r := by
  cases r with
  | smaller => exact .tail x h
  | equal => exact Lib.comparable_cons.mpr ⟨rfl, h⟩
  | greater => exact .tail x h
  | error => exact h

theorem compareComponents_says (as bs : List ℤ) : Says as bs (compareComponents as bs) := by
  fun_induction compareComponents as bs with
  | case1 x as y bs h => exact .head as bs h
  | case2 x as y bs h h' => exact .head bs as h'
  | case3 x as y bs h h' ih =>
    obtain rfl : x = y := le_antisymm (not_lt.mp h') (not_lt.mp h)
    exact ih.cons x
  | case4 as bs h =>
    cases as with
    | nil => exact Lib.comparable_nil_left bs
    | cons x as =>
      cases bs with
      | nil => exact Lib.comparable_nil_right (x :: as)
      | cons y bs => exact absurd rfl (h x as y bs rfl)

theorem Says.unique {as bs : List ℤ} {r r' : VersionComparison} (h : Says as bs r) (h' : Says as bs r') : r = r' := by
  cases r with
  | smaller =>
    cases r' with
    | smaller => rfl
    | equal => exact absurd h' h.not_comparable
    | greater => exact absurd h' h.asymm
    | error => exact absurd h' id
  | equal =>
    cases r' with
    | smaller => exact absurd h h'.not_comparable
    | equal => rfl
    | greater => exact absurd h.symm h'.not_comparable
    | error => exact absurd h' id
  | greater =>
    cases r' with
    | smaller => exact absurd h h'.asymm
    | equal => exact absurd h'.symm h.not_comparable
    | greater => rfl
    | error => exact absurd h' id
  | error => exact absurd h id

/-- `CompareVersion` compares at the first difference. -/
theorem compareVersion_iff {r : VersionComparison} (hr : r ≠ .error) : compareVersion a b = r ↔
    components a ≠ [] ∧ components b ≠ [] ∧ Says (components a) (components b) r := by
  have hsays := compareComponents_says (components a) (components b)
  rw [compareVersion_eq]
  by_cases hvalid : components a = [] ∨ components b = []
  · rw [if_pos hvalid]
    refine iff_of_false hr.symm fun h => ?_
    exact hvalid.elim h.1 h.2.1
  · rw [if_neg hvalid]
    rw [not_or] at hvalid
    constructor
    · rintro rfl
      exact ⟨hvalid.1, hvalid.2, hsays⟩
    · exact fun h => hsays.unique h.2.2

theorem smaller_iff : compareVersion a b = .smaller ↔ Below (components a) (components b) := by
  rw [compareVersion_iff (by simp)]
  refine ⟨fun h => h.2.2, fun h => ⟨fun ha => ?_, fun hb => ?_, h⟩⟩
  · rw [ha] at h
    exact Lib.not_below_nil_left _ h
  · rw [hb] at h
    exact Lib.not_below_nil_right _ h

theorem greater_iff : compareVersion a b = .greater ↔ Below (components b) (components a) := by
  rw [compareVersion_iff (by simp)]
  refine ⟨fun h => h.2.2, fun h => ⟨fun ha => ?_, fun hb => ?_, h⟩⟩
  · rw [ha] at h
    exact Lib.not_below_nil_right _ h
  · rw [hb] at h
    exact Lib.not_below_nil_left _ h

theorem equal_iff : compareVersion a b = .equal ↔
    components a ≠ [] ∧ components b ≠ [] ∧ Comparable (components a) (components b) :=
  compareVersion_iff (by simp)

end Order

/-! ## The operators -/

/-- Exactly one of `<`, `=` and `>` is true, as `CompareVersion` says, and the others follow from these. -/
structure Operators (a b : Bytes) : Prop where
  smaller : compareVersionExpression a (ascii "<") b = booleanOrError (compareVersion a b = .smaller)
  equal : compareVersionExpression a (ascii "=") b = booleanOrError (compareVersion a b = .equal)
  greater : compareVersionExpression a (ascii ">") b = booleanOrError (compareVersion a b = .greater)
  one : compareVersionExpression a (ascii "<") b = .true ∧ compareVersionExpression a (ascii "=") b = .false ∧
      compareVersionExpression a (ascii ">") b = .false ∨
    compareVersionExpression a (ascii "<") b = .false ∧ compareVersionExpression a (ascii "=") b = .true ∧
      compareVersionExpression a (ascii ">") b = .false ∨
    compareVersionExpression a (ascii "<") b = .false ∧ compareVersionExpression a (ascii "=") b = .false ∧
      compareVersionExpression a (ascii ">") b = .true
  same : compareVersionExpression a (ascii "==") b = compareVersionExpression a (ascii "=") b
  atMost : compareVersionExpression a (ascii "<=") b = booleanOrError
    (compareVersionExpression a (ascii "<") b = .true ∨ compareVersionExpression a (ascii "=") b = .true)
  atLeast : compareVersionExpression a (ascii ">=") b = booleanOrError
    (compareVersionExpression a (ascii ">") b = .true ∨ compareVersionExpression a (ascii "=") b = .true)
  different : compareVersionExpression a (ascii "!=") b = booleanOrError
    (compareVersionExpression a (ascii "=") b = .false)

theorem operators {a b : Bytes} (h : compareVersion a b ≠ .error) : Operators a b := by
  constructor
  all_goals
    simp only [compareVersionExpression]
    revert h
    generalize compareVersion a b = r
    intro h
    cases r with
    | error => exact absurd rfl h
    | smaller => decide
    | equal => decide
    | greater => decide

/-- `CompareVersion` compares at the first difference, a missing component matching anything; it is a strict order for
versions of any number of components, and the operators follow it. -/
theorem compareVersion_consistent :
    (∀ a b, compareVersion a b = .smaller ↔ Below (components a) (components b)) ∧
      (∀ a b, compareVersion a b = .equal ↔
        components a ≠ [] ∧ components b ≠ [] ∧ Comparable (components a) (components b)) ∧
      (∀ a b, compareVersion a b = .smaller ↔ compareVersion b a = .greater) ∧
      (∀ a b, compareVersion a b = .equal ↔ compareVersion b a = .equal) ∧
      (∀ a, compareVersion a a ≠ .smaller) ∧
      (∀ a b c, compareVersion a b = .smaller → compareVersion b c = .smaller → compareVersion a c = .smaller) ∧
      ∀ a b, compareVersion a b ≠ .error → Operators a b := by
  refine ⟨fun a b => smaller_iff, fun a b => equal_iff, fun a b => ?_, fun a b => ?_, fun a => ?_,
    fun a b c hab hbc => ?_, fun a b => operators⟩
  · rw [smaller_iff, greater_iff]
  · rw [equal_iff, equal_iff, Lib.comparable_comm]
    exact and_left_comm
  · rw [Ne, smaller_iff]
    exact Below.irrefl _
  · rw [smaller_iff] at hab hbc ⊢
    exact hab.trans hbc

theorem compareVersion_consistent_ten : compareVersion (ascii "1.9.4") (ascii "1.10") = .smaller ∧
    compareVersion (ascii "1.10") (ascii "1.9.4") = .greater ∧
      compareVersionExpression (ascii "1.9.4") (ascii "<=") (ascii "1.10") = .true := by
  obtain ⟨-, -, hgreater, -, -, -, hoperators⟩ := compareVersion_consistent
  have hsmaller : compareVersion (ascii "1.9.4") (ascii "1.10") = .smaller := by decide
  refine ⟨hsmaller, (hgreater _ _).mp hsmaller, ?_⟩
  have h := hoperators _ _ (by rw [hsmaller]; decide)
  rw [h.atMost, h.smaller, h.equal, hsmaller]
  decide

/-- Being equal is not transitive. -/
example : compareVersion (ascii "1.2") (ascii "1") = .equal ∧ compareVersion (ascii "1") (ascii "1.3") = .equal ∧
    compareVersion (ascii "1.2") (ascii "1.3") = .smaller := by decide

end Libntech.Strings
