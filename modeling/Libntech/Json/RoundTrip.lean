import Libntech.Json.Layout
import Libntech.Json.Writable

/-! # Writing an element and parsing the text

`JsonParse` of a written element is `readback` of it, with its members sorted. That is the same element exactly
when its strings, keys and reals survive, the writer takes all of them, and the parser finds every word in the text.
-/
namespace Libntech.Json
set_option autoImplicit false

open Libntech.Strings (Seen seen_of_lt)

/-! ## Members read back -/

theorem length_removeKey {key : Bytes} {children : List (Bytes × JsonElement)} (h : key ∈ children.map Prod.fst) :
    (removeKey key children).length + 1 = children.length := by
  induction children with
  | nil => cases h
  | cons x rest ih =>
    by_cases hx : x.1 = key
    · rw [removeKey, if_pos hx, List.length_cons]
    · have hrest : key ∈ rest.map Prod.fst := by
        rw [List.map_cons, List.mem_cons] at h
        exact h.resolve_left (Ne.symm hx)
      rw [removeKey, if_neg hx, List.length_cons, List.length_cons, ih hrest]

/-- A member as the parser reads it. -/
def readMember (m : Bytes × JsonElement) : Bytes × JsonElement := (unescape (jsonEncodeString m.1), readback m.2)

/-- Unless two keys become one, every member is read back in its place. -/
theorem readbackMembers_spec (ms : List (Bytes × JsonElement)) : ∀ done : List (Bytes × JsonElement),
    (readbackMembers done ms).length ≤ done.length + ms.length ∧
      ((readbackMembers done ms).length = done.length + ms.length →
        readbackMembers done ms = done ++ ms.map readMember) := by
  induction ms with
  | nil => exact fun done => ⟨Nat.le_refl _, fun _ => by simp [readbackMembers]⟩
  | cons m rest ih =>
    intro done
    obtain ⟨key, e⟩ := m
    rw [readbackMembers, List.length_cons]
    obtain ⟨hle, heq⟩ := ih (appendElement done (unescape (jsonEncodeString key)) (readback e))
    by_cases hmem : unescape (jsonEncodeString key) ∈ done.map Prod.fst
    · have hlen := length_removeKey hmem
      simp only [appendElement, List.length_append, List.length_singleton] at hle ⊢
      exact ⟨by omega, fun hbad => absurd hbad (by omega)⟩
    · rw [appendElement, removeKey_of_notMem hmem] at hle heq ⊢
      rw [List.length_append, List.length_singleton] at hle heq
      refine ⟨by omega, fun hlen => ?_⟩
      rw [heq (by omega)]
      simp [readMember]

theorem readbackMembers_nodup {ms : List (Bytes × JsonElement)} : ∀ done : List (Bytes × JsonElement),
    (∀ m ∈ ms, readMember m = m) → ((done ++ ms).map Prod.fst).Nodup → readbackMembers done ms = done ++ ms := by
  induction ms with
  | nil => exact fun done _ _ => by simp [readbackMembers]
  | cons m rest ih =>
    intro done hms hnodup
    have hm : (unescape (jsonEncodeString m.1), readback m.2) = m := hms m List.mem_cons_self
    have hnot : m.1 ∉ done.map Prod.fst := by
      intro hmem
      rw [List.map_append, List.map_cons, List.nodup_append] at hnodup
      exact hnodup.2.2 _ hmem _ List.mem_cons_self rfl
    have hsplit : done ++ m :: rest = done ++ [m] ++ rest := by simp
    obtain ⟨key, e⟩ := m
    obtain ⟨hkey, he⟩ := Prod.mk.inj hm
    rw [readbackMembers, hkey, he, appendElement, removeKey_of_notMem hnot, hsplit]
    exact ih _ (fun x hx => hms x (List.mem_cons_of_mem _ hx)) (hsplit ▸ hnodup)

/-! ## What survives is read back as it was -/

variable {e e' : JsonElement} {w : Blanks} {b : Bytes}

theorem readback_survives (h : Regular e) : survives e = true → readback e = e := by
  induction h with
  | @string v h0 =>
    intro hs
    rw [readback, unescape_encode]
    exact congrArg _ (readString_survives h0 hs)
  | @integer v n hrun _ hdot _ =>
    intro _
    have hno : '.'.toUInt8 ∉ v := by
      intro hmem
      rw [((numberRun_last hrun).2.1).mpr (.inr hmem)] at hdot
      cases hdot
    rw [readback, if_neg hno]
  | @real v n hrun _ _ =>
    intro hs
    have hdot : '.'.toUInt8 ∈ v := by
      simp only [survives, everyPart, primitiveSurvives, realSurvives, Bool.and_eq_true, List.contains_iff_mem] at hs
      exact hs.1
    rw [readback, if_pos hdot]
  | bool b => exact fun _ => rfl
  | null => exact fun _ => rfl
  | @array es _ ih =>
    intro hs
    rw [survives, everyPart, everyElement_iff] at hs
    have helems : ∀ l : List JsonElement, (∀ e ∈ l, readback e = e) → readbackElements l = l := by
      intro l
      induction l with
      | nil => exact fun _ => rfl
      | cons e rest ihl =>
        intro hl
        rw [readbackElements, hl e List.mem_cons_self, ihl fun x hx => hl x (List.mem_cons_of_mem _ hx)]
    rw [readback, helems es fun e he => ih e he (hs e he)]
  | @object ms hnodup _ _ ih =>
    intro hs
    rw [survives, everyPart, everyMember_iff] at hs
    rw [readback, readbackMembers_nodup [] ?_ hnodup]
    · rfl
    · intro m hm
      rw [readMember, unescape_encode, flatMap_spelled (hs m hm).1, ih m hm (hs m hm).2]

/-! ## What is read back as it was has survived -/

theorem total_length_spelled (keys : List Bytes) :
    (keys.map List.length).sum ≤ (keys.map fun k => (k.flatMap spelled).length).sum ∧
      ((∃ k ∈ keys, keySurvives k = false) →
        (keys.map List.length).sum < (keys.map fun k => (k.flatMap spelled).length).sum) := by
  induction keys with
  | nil => exact ⟨Nat.le_refl _, fun ⟨k, hk, _⟩ => absurd hk (by simp)⟩
  | cons k rest ih =>
    obtain ⟨hle, hlt⟩ := length_flatMap_spelled k
    obtain ⟨hle', hlt'⟩ := ih
    rw [List.map_cons, List.map_cons, List.sum_cons, List.sum_cons]
    refine ⟨by omega, ?_⟩
    rintro ⟨x, hx, hbad⟩
    rcases List.mem_cons.mp hx with rfl | hx
    · have := hlt hbad
      omega
    · have := hlt' ⟨x, hx, hbad⟩
      omega

/-- Keys that come back as the same keys, in whatever order, have no byte that is spelled out. -/
theorem keys_survive (keys : List Bytes) (h : keys.Perm (keys.map fun k => k.flatMap spelled)) :
    ∀ k ∈ keys, keySurvives k = true := by
  intro k hk
  by_contra hbad
  have hlt := (total_length_spelled keys).2 ⟨k, hk, by simpa using hbad⟩
  have hsum := (h.map List.length).sum_nat
  rw [List.map_map] at hsum
  exact absurd hsum (Nat.ne_of_lt hlt)

theorem same_primitive {type : JsonPrimitiveType} {value : Bytes} (h : Same (.primitive type value) e) :
    e = .primitive type value := by
  cases h
  rfl

theorem getElem_readbackElements (es : List JsonElement) : ∀ i : ℕ,
    (readbackElements es)[i]? = es[i]?.map readback := by
  induction es with
  | nil => exact fun i => by simp [readbackElements]
  | cons e rest ih =>
    intro i
    cases i with
    | zero => simp [readbackElements]
    | succ i => simpa [readbackElements] using ih i

theorem survives_of_same (h : Regular e) : ∀ {x : JsonElement} {level behind : ℕ},
    readable w level e behind = true → Same x e → Same x (readback e) → survives e = true := by
  induction h with
  | @string v h0 =>
    intro x _ _ _ hs hr
    rw [readback, unescape_encode] at hr
    cases hs
    exact (readString_eq_iff h0).mp (JsonElement.primitive.inj (same_primitive hr)).2
  | integer _ _ _ _ => exact fun _ _ _ => rfl
  | @real v n hrun _ _ =>
    intro x _ _ hp hs hr
    rw [readback] at hr
    have hdot : '.'.toUInt8 ∈ v := by
      by_contra hno
      rw [if_neg hno] at hr
      cases hs
      cases hr
    have hlast : v.getLast? ≠ some '.'.toUInt8 := by simpa [readable, primitiveReadable] using hp
    simp [survives, everyPart, primitiveSurvives, realSurvives, hdot, hlast]
  | bool b => exact fun _ _ _ => rfl
  | null => exact fun _ _ _ => rfl
  | @array es _ ih =>
    intro x _ _ hp hs hr
    rw [readable] at hp
    rw [readback] at hr
    rw [survives, everyPart, everyElement_iff]
    intro e he
    obtain ⟨_, hpe⟩ := elementsReadable_mem hp e he
    obtain ⟨i, hi⟩ := List.getElem?_of_mem he
    cases hs with
    | @array xs _ hlen hall =>
      cases hr with
      | array hlen' hall' =>
        have hlt := (List.getElem?_eq_some_iff.mp hi).1
        have hx : xs[i]? = some (xs[i]) := List.getElem?_eq_getElem (by omega)
        have hback : (readbackElements es)[i]? = some (readback e) := by
          rw [getElem_readbackElements, hi]
          rfl
        exact ih e he hpe (hall i _ e hx hi) (hall' i _ _ hx hback)
  | @object ms hnodup _ _ ih =>
    intro x _ _ hp hs hr
    rw [readable] at hp
    rw [readback] at hr
    cases hs with
    | @object xs _ hperm hall =>
      cases hr with
      | object hperm' hall' =>
        have hkeys := hperm.symm.trans hperm'
        have hlen := hkeys.length_eq
        simp only [List.length_map] at hlen
        -- as many members came back as were written, so none took another's place
        have hback : readbackMembers [] ms = ms.map readMember := by
          rw [(readbackMembers_spec ms []).2 (by rw [← hlen]; simp)]
          rfl
        rw [hback] at hkeys hall'
        have hfst : (ms.map readMember).map Prod.fst = (ms.map Prod.fst).map fun k => k.flatMap spelled := by
          rw [List.map_map, List.map_map]
          exact List.map_congr_left fun m _ => unescape_encode m.1
        have hsurv := keys_survive (ms.map Prod.fst) (hfst ▸ hkeys)
        rw [survives, everyPart, everyMember_iff]
        intro m hm
        have hkey := hsurv m.1 (List.mem_map_of_mem hm)
        refine ⟨hkey, ?_⟩
        obtain ⟨_, hpm⟩ := membersReadable_mem hp m hm
        obtain ⟨a, ha⟩ := get_of_key_mem (hperm.mem_iff.mpr (List.mem_map_of_mem hm))
        have hread : (m.1, readback m.2) ∈ ms.map readMember := by
          refine List.mem_map.mpr ⟨m, hm, ?_⟩
          rw [readMember, unescape_encode, flatMap_spelled hkey]
        exact ih m hm hpm (hall m.1 a m.2 ha (mem_get hnodup hm))
          (hall' m.1 a _ ha (mem_get (hkeys.nodup_iff.mp hnodup) hread))

/-! ## The round trip -/

/-- An element that the create and append functions build. -/
structure BuiltElement where
  element : JsonElement
  built : Built element

/-- The text was written, and it is parsed to the same element. -/
def RoundTrips (e : JsonElement) (text : Option Bytes) : Prop :=
  ∃ t k q, text = some t ∧ jsonParse t = .ok (k, q) ∧ Same e k ∧ jsonCompare e k = some 0

/-- What holds of every part does not depend on the order of members. -/
theorem everyPart_same {primitive : JsonPrimitiveType → Bytes → Bool} {key : Bytes → Bool} (h : Regular e) :
    ∀ {e' : JsonElement}, Same e e' →
    (everyPart primitive key e = true ↔ everyPart primitive key e' = true) := by
  have hprim : ∀ {t : JsonPrimitiveType} {v : Bytes} {e' : JsonElement}, Same (.primitive t v) e' →
      (everyPart primitive key (.primitive t v) = true ↔ everyPart primitive key e' = true) := by
    intro t v e' hs
    rw [same_primitive hs]
  induction h with
  | string _ => exact hprim
  | integer _ _ _ _ => exact hprim
  | real _ _ _ => exact hprim
  | bool _ => exact hprim
  | null => exact hprim
  | @array as _ ih =>
    intro e' hs
    cases hs with
    | @array _ bs hlen hall =>
      rw [everyPart, everyPart, everyElement_iff, everyElement_iff]
      have hsame := Same.array hlen hall
      constructor
      · intro hpart b hb
        obtain ⟨a, ha, hab⟩ := same_element hsame hb
        exact (ih a ha hab).mp (hpart a ha)
      · intro hpart a ha
        obtain ⟨b, hb, hba⟩ := same_element (same_symm hsame) ha
        exact (ih a ha (same_symm hba)).mpr (hpart b hb)
  | @object as hnodup _ _ ih =>
    intro e' hs
    cases hs with
    | @object _ bs hperm hall =>
      rw [everyPart, everyPart, everyMember_iff, everyMember_iff]
      have hsame := Same.object hperm hall
      constructor
      · intro hpart b hb
        obtain ⟨a, ha, hab⟩ := same_member hsame (hperm.nodup_iff.mp hnodup) hb
        exact ⟨(hpart _ ha).1, (ih _ ha hab).mp (hpart _ ha).2⟩
      · intro hpart a ha
        obtain ⟨b, hb, hba⟩ := same_member (same_symm hsame) hnodup ha
        exact ⟨(hpart _ hb).1, (ih a ha (same_symm hba)).mpr (hpart _ hb).2⟩

theorem elementsReadable_of_short {level behind : ℕ} (es : List JsonElement)
    (h : ∀ e ∈ es, ∀ {n}, valueLength w (level + 1) e + n < 2 ^ 31 → readable w (level + 1) e n = true)
    (hshort : elementsLength w level es + behind < 2 ^ 31) : elementsReadable w level es behind = true := by
  induction es with
  | nil => rfl
  | cons e rest ih =>
    rw [elementsLength] at hshort
    rw [elementsReadable, Bool.and_eq_true]
    exact ⟨h e List.mem_cons_self (by omega), ih (fun x hx => h x (List.mem_cons_of_mem _ hx)) (by omega)⟩

theorem membersReadable_of_short {level behind : ℕ} (ms : List (Bytes × JsonElement))
    (h : ∀ m ∈ ms, ∀ {n}, valueLength w (level + 1) m.2 + n < 2 ^ 31 → readable w (level + 1) m.2 n = true)
    (hshort : membersLength w level ms + behind < 2 ^ 31) : membersReadable w level ms behind = true := by
  induction ms with
  | nil => rfl
  | cons m rest ih =>
    obtain ⟨key, e⟩ := m
    rw [membersLength] at hshort
    rw [membersReadable, Bool.and_eq_true]
    refine ⟨h (key, e) List.mem_cons_self ?_, ih (fun x hx => h x (List.mem_cons_of_mem _ hx)) (by omega)⟩
    show valueLength w (level + 1) e + _ < 2 ^ 31
    omega

/-- Every word is found in a text whose length is an `int`. -/
theorem readable_of_short (h : Regular e) : ∀ {level behind : ℕ}, survives e = true →
    valueLength w level e + behind < 2 ^ 31 → readable w level e behind = true := by
  have hword : ∀ {e : JsonElement} {word : Bytes} {level behind : ℕ}, IsWord e word →
      valueLength w level e + behind < 2 ^ 31 → readable w level e behind = true := by
    intro e word level behind hw hshort
    rw [← valueText_length, hw.text] at hshort
    exact (hw.readable_iff w level behind).mpr (seen_of_lt (Nat.le_add_right _ _) hshort)
  induction h with
  | string _ => exact fun _ _ => by rw [readable, primitiveReadable]
  | integer _ _ _ _ => exact fun _ _ => by rw [readable, primitiveReadable]
  | real _ _ _ =>
    intro level behind hs _
    simp only [survives, everyPart, primitiveSurvives, realSurvives, Bool.and_eq_true] at hs
    rw [readable, primitiveReadable]
    exact hs.2
  | bool b => exact fun _ hshort => hword (boolWord b) hshort
  | null => exact fun _ hshort => hword nullWord hshort
  | @array es _ ih =>
    intro level behind hs hshort
    rw [survives, everyPart, everyElement_iff] at hs
    rw [readable]
    cases es with
    | nil => rfl
    | cons e rest =>
      rw [valueLength] at hshort
      exact elementsReadable_of_short _ (fun x hx _ => ih x hx (hs x hx)) (by omega)
  | object _ _ _ ih =>
    intro level behind hs hshort
    rw [survives, everyPart, everyMember_iff] at hs
    rw [valueLength] at hshort
    rw [readable]
    exact membersReadable_of_short _ (fun m hm _ => ih m hm (hs m hm).2) (by omega)

theorem roundTrips_iff (h : Regular e) (h' : Regular e') (hsame : Same e e') (hw : w.Clean) (level : ℕ)
    (hb : ∀ c ∈ b, isWhitespace c = true) :
    RoundTrips e (some (b ++ valueText w level e')) ↔ survives e = true ∧ readable w level e' 0 = true := by
  obtain ⟨hok, herr⟩ := jsonParse_value hw h' level hb
  have hiff : survives e = true ↔ survives e' = true := everyPart_same h hsame
  rw [hiff]
  constructor
  · rintro ⟨t, k, q, ht, hparse, hsk, _⟩
    rw [Option.some.injEq] at ht
    subst ht
    cases hp : readable w level e' 0 with
    | false =>
      obtain ⟨er, her⟩ := herr hp
      rw [her] at hparse
      cases hparse
    | true =>
      obtain ⟨q', hq⟩ := hok hp
      rw [hq, Outcome.ok.injEq, Prod.mk.injEq] at hparse
      exact ⟨survives_of_same h' hp hsame (hparse.1 ▸ hsk), rfl⟩
  · rintro ⟨hs, hp⟩
    obtain ⟨q, hq⟩ := hok hp
    rw [readback_survives h' hs] at hq
    exact ⟨_, e', q, rfl, hq, hsame, compare_of_same h.distinctKeys hsame⟩

/-- A writer that fails on the element, or writes it with the blanks in front. -/
theorem written_iff (h : Regular e) (h' : Regular e') (hsame : Same e e') (hw : w.Clean) (level : ℕ)
    (hb : ∀ c ∈ b, isWhitespace c = true) (fits : Bool) :
    RoundTrips e (if fits = true then some (b ++ valueText w level e') else none) ↔
      survives e = true ∧ fits = true ∧ readable w level e' 0 = true := by
  cases fits with
  | false => exact ⟨fun ⟨t, _, _, ht, _⟩ => absurd ht (by simp), fun hno => absurd hno.2.1 Bool.false_ne_true⟩
  | true =>
    rw [if_pos rfl, roundTrips_iff h h' hsame hw level hb]
    simp

theorem ownIndent_blank (indentLevel : ℕ) (e : JsonElement) : ∀ c ∈ ownIndent indentLevel e, isWhitespace c = true := by
  cases e with
  | primitive type value => exact printIndent_blank indentLevel
  | array children => simp [ownIndent]
  | object children => simp [ownIndent]

/-- A text of either writer whose length is an `int`. -/
theorem short_roundTrips (h : Regular e) (h' : Regular e') (hsame : Same e e') (hw : w.Clean) (level : ℕ)
    (hb : ∀ c ∈ b, isWhitespace c = true) (hshort : (b ++ valueText w level e').length < 2 ^ 31) :
    RoundTrips e (some (b ++ valueText w level e')) ↔ survives e = true := by
  rw [roundTrips_iff h h' hsame hw level hb]
  refine and_iff_left_of_imp fun hs => readable_of_short h' ((everyPart_same h hsame).mp hs) ?_
  rw [List.length_append, valueText_length] at hshort
  omega

/-- Writing and parsing gives the same element, for either writer and every indent, exactly when its strings, keys
and reals survive, no call of the writer fails, and the parser finds the words of the element as it is written. A text
shorter than 2^31 bytes leaves only the first of these. -/
theorem json_round_trip_iff (j : BuiltElement) :
    (∃ written, jsonSorted j.element = some written ∧
      (RoundTrips j.element (jsonWriteCompact j.element) ↔ survives j.element = true ∧
        writable compactBlanks 0 j.element = true ∧ readable compactBlanks 0 written 0 = true) ∧
      ∀ indentLevel, RoundTrips j.element (jsonWrite j.element indentLevel) ↔ survives j.element = true ∧
        prettyWritable indentLevel j.element = true ∧ readable prettyBlanks indentLevel written 0 = true) ∧
    ∀ text, text.length < 2 ^ 31 →
      (jsonWriteCompact j.element = some text ∨ ∃ indentLevel, jsonWrite j.element indentLevel = some text) →
      (RoundTrips j.element (some text) ↔ survives j.element = true) := by
  have h := built_regular j.built
  obtain ⟨e', hsorted, h', hsame⟩ := sorted_spec h
  have hcompact := jsonWriteCompact_eq hsorted
  have hpretty := jsonWrite_eq hsorted
  refine ⟨⟨e', hsorted, ?_, fun level => ?_⟩, fun text hshort hwritten => ?_⟩
  · rw [hcompact, writable_same h.distinctKeys h'.distinctKeys hsame]
    exact written_iff h h' hsame compactBlanks_clean 0 (b := []) (by simp) _
  · rw [hpretty, prettyWritable_same h.distinctKeys h'.distinctKeys hsame]
    exact written_iff h h' hsame prettyBlanks_clean level (ownIndent_blank level e') _
  · rcases hwritten with htext | ⟨level, htext⟩
    · rw [hcompact, Option.ite_none_right_eq_some] at htext
      obtain rfl := Option.some.inj htext.2
      exact short_roundTrips h h' hsame compactBlanks_clean 0 (b := []) (by simp) hshort
    · rw [hpretty, Option.ite_none_right_eq_some] at htext
      obtain rfl := Option.some.inj htext.2
      exact short_roundTrips h h' hsame prettyBlanks_clean level (ownIndent_blank level e') hshort

/-- The string of a backslash and an `n`, which is read back as one line feed. -/
def backslashN : BuiltElement :=
  ⟨jsonStringCreate ⟨['\\'.toUInt8, 'n'.toUInt8], by decide⟩, .string _⟩

theorem backslashN_changes : ¬ RoundTrips backslashN.element (jsonWriteCompact backslashN.element) := by
  have hreg := built_regular backslashN.built
  intro hround
  rw [jsonWriteCompact_eq (a := backslashN.element) rfl] at hround
  have hsurvives := (written_iff hreg hreg (.primitive _ _) compactBlanks_clean 0 (b := []) (by simp) _).mp hround
  exact absurd hsurvives.1 (by decide)

end Libntech.Json
