import Libntech.Json.ParseMeaning

/-! # Words that the parser does not find

`StringStartsWith` looks for `true`, `false` and `null` in all of the text that is left, whose length it keeps in an
`int`. Where a value should come and a word does, so far in front of the end that this length is negative or too small,
the parser finds no value.
-/
namespace Libntech.Json
set_option autoImplicit false

open Libntech.Strings (Seen)

/-- `StringStartsWith` looks for these. -/
def words : List Bytes := [jsonTrue, jsonFalse, jsonNull]

/-- A value should come here and a word does, which is not found. -/
def Unseen (f : Frame) (r : Bytes) : Prop :=
  (∀ d e, f.value d e ≠ none) ∧ ∃ w r', w ∈ words ∧ r = w ++ r' ∧ ¬ Seen w (w.length + r'.length)

/-- The text is well formed up to a word that is not found. -/
inductive StopsAtWord : Bytes → Prop where
  | blank {c : UInt8} {r : Bytes} : isWhitespace c = true → StopsAtWord r → StopsAtWord (c :: r)
  | whole {w r : Bytes} : w ∈ words → ¬ Seen w (w.length + r.length) → StopsAtWord (w ++ r)
  | container {c : UInt8} {f : Frame} {r : Bytes} : Frame.opened c = some f → Reaches Unseen f r → StopsAtWord (c :: r)

theorem word_short {w : Bytes} (h : w ∈ words) : w.length < 2 ^ 31 := by
  simp only [words, List.mem_cons, List.not_mem_nil, or_false] at h
  rcases h with rfl | rfl | rfl
  all_goals decide

theorem word_scalar {w : Bytes} (h : w ∈ words) : ∃ e, Scalar w e := by
  simp only [words, List.mem_cons, List.not_mem_nil, or_false] at h
  rcases h with rfl | rfl | rfl
  · exact ⟨_, .true⟩
  · exact ⟨_, .false⟩
  · exact ⟨_, .null⟩

theorem word_unique {v w a b : Bytes} (hv : v ∈ words) (hw : w ∈ words) (h : v ++ a = w ++ b) : v = w := by
  have hhead := congrArg List.head? h
  simp only [words, List.mem_cons, List.not_mem_nil, or_false] at hv hw
  rcases hv with rfl | rfl | rfl <;> rcases hw with rfl | rfl | rfl
  all_goals first | rfl | exact absurd hhead (by simp [jsonTrue, jsonFalse, jsonNull, ascii, Char.toUInt8])

section Stops

variable {s : Bytes} (h0 : 0 ∉ s)
include h0

theorem parseScalar_unseen {p : ℕ} {c : UInt8} {w t r : Bytes} (hw : w ∈ words) (h : At s p (w ++ r)) (hc : w = c :: t)
    (hseen : ¬ Seen w (w.length + r.length)) : parseScalar s p c = .ok none := by
  have hnone : ∀ v ∈ words, parseWord s p v = .ok none := by
    intro v hv
    refine parseWord_none h0 h (word_short hv) fun u hu _ hfound => hseen ?_
    obtain rfl := word_unique hw hv hu
    rw [List.append_cancel_left hu]
    exact hfound
  have hnum : ¬ (c = '-'.toUInt8 ∨ c = '0'.toUInt8 ∨ isDigit c = true) := by
    have hw' := hw
    simp only [words, List.mem_cons, List.not_mem_nil, or_false] at hw'
    rcases hw' with rfl | rfl | rfl
    all_goals
      obtain ⟨rfl, -⟩ := List.cons.inj hc
      decide
  rw [parseScalar, if_neg hnum, parseAsBoolean_eq h0 h, hnone _ (by simp [words]), hnone _ (by simp [words])]
  simp only [Outcome.ok_bind, Outcome.pure_eq, Option.map_none, parseAsNull, hnone jsonNull (by simp [words])]

theorem unseen_loop {f : Frame} {r : Bytes} (hr : Reaches Unseen f r) {p fuel : ℕ} (h : At s p r)
    (hfuel : 2 * r.length + 2 ≤ fuel) : f.loop s fuel p = .error .objectBadSymbol := by
  refine reaches_loop h0 (o := .error .objectBadSymbol) (fun _ => rfl) ?_ hr h hfuel
  rintro f r p fuel ⟨hvalue, w, r', hw, rfl, hseen⟩ h
  obtain ⟨e, hscalar⟩ := word_scalar hw
  obtain ⟨c, t, rfl, hkey⟩ := scalar_head hscalar
  obtain ⟨hplain, hws, hne⟩ := plain_of_keyChar f hkey
  rw [loop_item f h0 (r := t ++ r') h hws hne, item_plain_value hplain hvalue, parseScalar_unseen h0 hw h rfl hseen]
  rfl

theorem unseen_parse {r : Bytes} (hr : StopsAtWord r) : ∀ {p fuel : ℕ}, At s p r → r.length < fuel →
    parseWithLookup s fuel p = .error .objectBadSymbol := by
  induction hr with
  | blank hc _ ih =>
    intro p fuel h hfuel
    rw [List.length_cons] at hfuel
    obtain ⟨fuel, rfl⟩ : ∃ k, fuel = k + 1 := ⟨fuel - 1, by omega⟩
    rw [parse_blank h0 h hc]
    exact ih h.next (by omega)
  | @whole w r hw hseen =>
    intro p fuel h hfuel
    obtain ⟨fuel, rfl⟩ : ∃ k, fuel = k + 1 := ⟨fuel - 1, by omega⟩
    obtain ⟨e, hscalar⟩ := word_scalar hw
    obtain ⟨c, t, rfl, hkey⟩ := scalar_head hscalar
    obtain ⟨hplain, hws, _⟩ := plain_of_keyChar (.array 0 []) hkey
    rw [parse_primitive (r := t ++ r) h0 h hws hplain.2.1, primitive_scalar (r := t ++ r) h hplain.1,
      parseScalar_unseen h0 hw h rfl hseen]
    rfl
  | container hopen hreaches =>
    intro p fuel h hfuel
    obtain ⟨fuel, rfl⟩ : ∃ k, fuel = k + 1 := ⟨fuel - 1, by omega⟩
    have hlen := h.length_le
    rw [List.length_cons] at hlen
    rw [parse_container h0 h hopen]
    exact unseen_loop h0 hreaches h.next (by omega)

end Stops

end Libntech.Json
