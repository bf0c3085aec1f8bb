import Libntech.Json.YamlData

/-! # What a YAML stream is read as

A document is a tree, and libyaml reports a tree from left to right. The element built for a tree has the same shape: a
later value of a key replaces an earlier one, and an alias is not among the trees. A collection as a key ends the
process. Every document of the stream is read, and the first one is returned.

The reader asks for no status of libyaml. A stream that breaks off reads like one whose open collections are closed
there.
-/
namespace Libntech.Json
set_option autoImplicit false

/-! ## Documents -/

inductive YamlNode where
  | scalar (event : YamlScalarEvent)
  | sequence (items : List YamlNode)
  | mapping (pairs : List (YamlNode × YamlNode))

mutual

def YamlNode.events : YamlNode → List YamlEvent
  | .scalar event => [.scalar event]
  | .sequence items => .sequenceStart :: (itemEvents items ++ [.sequenceEnd])
  | .mapping pairs => .mappingStart :: (pairEvents pairs ++ [.mappingEnd])

def itemEvents : List YamlNode → List YamlEvent
  | [] => []
  | item :: items => item.events ++ itemEvents items

def pairEvents : List (YamlNode × YamlNode) → List YamlEvent
  | [] => []
  | (key, value) :: pairs => key.events ++ value.events ++ pairEvents pairs

end

def documentEvents (document : YamlNode) : List YamlEvent := .documentStart :: (document.events ++ [.documentEnd])

def streamEvents (documents : List YamlNode) : List YamlEvent :=
  .streamStart :: (documents.flatMap documentEvents ++ [.streamEnd])

/-! ## Their elements -/

def scalarValue (tags : YamlTags) (event : YamlScalarEvent) : JsonElement :=
  match yamlScalar tags event with
  | .ok value => value
  | .error _ => jsonNullCreate

def YamlNode.keyText : YamlNode → Option Bytes
  | .scalar event => some event.value.bytes
  | _ => none

mutual

def YamlNode.value (tags : YamlTags) : YamlNode → JsonElement
  | .scalar event => scalarValue tags event
  | .sequence items => .array (itemValues tags items)
  | .mapping pairs => .object (pairValues tags [] pairs)

def itemValues (tags : YamlTags) : List YamlNode → List JsonElement
  | [] => []
  | item :: items => item.value tags :: itemValues tags items

/-- The members that the pairs are added to. -/
def pairValues (tags : YamlTags) (members : List (Bytes × JsonElement)) : List (YamlNode × YamlNode) →
    List (Bytes × JsonElement)
  | [] => members
  | (key, value) :: pairs => pairValues tags (appendElement members (key.keyText.getD []) (value.value tags)) pairs

end

mutual

/-- No collection is a key, at any depth. -/
def YamlNode.keysAreScalars : YamlNode → Bool
  | .scalar _ => true
  | .sequence items => itemsKeysAreScalars items
  | .mapping pairs => pairsKeysAreScalars pairs

def itemsKeysAreScalars : List YamlNode → Bool
  | [] => true
  | item :: items => item.keysAreScalars && itemsKeysAreScalars items

def pairsKeysAreScalars : List (YamlNode × YamlNode) → Bool
  | [] => true
  | (key, value) :: pairs => key.keyText.isSome && value.keysAreScalars && pairsKeysAreScalars pairs

end

/-! ## Single events -/

section Events

variable {tags : YamlTags}

theorem yamlScalar_eq (tags : YamlTags) (event : YamlScalarEvent) :
    yamlScalar tags event = .ok (scalarValue tags event) := by
  have hread : ∃ value, jsonParseYamlScalarValue tags event = .ok value := by
    cases hnull : yamlIsNull tags event with
    | true => exact ⟨_, by rw [jsonParseYamlScalarValue, hnull]; rfl⟩
    | false =>
      cases hbool : yamlBool tags event with
      | some b => exact ⟨_, by rw [jsonParseYamlScalarValue, hnull, hbool]; rfl⟩
      | none =>
        cases hmay : yamlMayBeNumber tags event with
        | false => exact ⟨_, by rw [jsonParseYamlScalarValue, hnull, hbool, hmay]; rfl⟩
        | true =>
          by_cases hacc : Accepts numberStart (numberText event.value.bytes 0)
          · have hparse := (parseAsNumber_ok_iff event.value (Nat.zero_le _)).mpr ⟨hacc, rfl, rfl⟩
            exact ⟨_, by simp only [jsonParseYamlScalarValue, hnull, hbool, hmay, hparse, if_true, Bool.false_eq_true,
              if_false]; rfl⟩
          · obtain ⟨e, he⟩ := parseAsNumber_refused event.value hacc
            exact ⟨_, by simp only [jsonParseYamlScalarValue, hnull, hbool, hmay, he, if_true, Bool.false_eq_true,
              if_false]; rfl⟩
  obtain ⟨value, hvalue⟩ := hread
  rw [scalarValue, yamlScalar, hvalue]

theorem read_ignored {event : YamlEvent}
    (h : event = .streamStart ∨ event = .documentStart ∨ event = .documentEnd ∨ event = .alias)
    (rest : List YamlEvent) (element : JsonElement) (key : Option Bytes) :
    readYaml tags (event :: rest) element key = readYaml tags rest element key := by
  rw [readYaml_cons]
  rcases h with rfl | rfl | rfl | rfl <;> rfl

theorem read_scalar_key (event : YamlScalarEvent) (rest : List YamlEvent) (children : List (Bytes × JsonElement)) :
    readYaml tags (.scalar event :: rest) (.object children) none =
      readYaml tags rest (.object children) (some event.value.bytes) := by
  rw [readYaml_cons]
  rfl

/-- A collection that takes a value next, and what it is with that value. -/
inductive Awaits : JsonElement → Option Bytes → (JsonElement → JsonElement) → Prop where
  | item (children : List JsonElement) :
      Awaits (.array children) none fun value => .array (children ++ [value])
  | member (children : List (Bytes × JsonElement)) (key : Bytes) :
      Awaits (.object children) (some key) fun value => .object (appendElement children key value)

variable {element : JsonElement} {key : Option Bytes} {place : JsonElement → JsonElement}

theorem read_scalar (h : Awaits element key place) (event : YamlScalarEvent) (rest : List YamlEvent) :
    readYaml tags (.scalar event :: rest) element key = readYaml tags rest (place (scalarValue tags event)) none := by
  cases h with
  | item children =>
    rw [readYaml_cons, yamlTurn, yamlScalar_eq]
    rfl
  | member children key =>
    rw [readYaml_cons, yamlTurn, yamlScalar_eq]
    rfl

theorem read_sequenceStart (h : Awaits element key place) (rest : List YamlEvent) :
    readYaml tags (.sequenceStart :: rest) element key =
      match readYaml tags rest (.array []) none with
      | .error stop => .error stop
      | .ok (value, rest) => readYaml tags rest (place value) none := by
  cases h <;> rw [readYaml_cons] <;> rfl

theorem read_mappingStart (h : Awaits element key place) (rest : List YamlEvent) :
    readYaml tags (.mappingStart :: rest) element key =
      match readYaml tags rest (.object []) none with
      | .error stop => .error stop
      | .ok (value, rest) => readYaml tags rest (place value) none := by
  cases h <;> rw [readYaml_cons] <;> rfl

end Events

/-! ## Whole documents -/

section Documents

variable (tags : YamlTags)

mutual

theorem read_node {element : JsonElement} {key : Option Bytes} {place : JsonElement → JsonElement}
    (h : Awaits element key place) (rest : List YamlEvent) : (node : YamlNode) →
    readYaml tags (node.events ++ rest) element key =
      if node.keysAreScalars then readYaml tags rest (place (node.value tags)) none else .error .programmingError
  | .scalar event => by
    rw [YamlNode.events, YamlNode.keysAreScalars, YamlNode.value, if_pos rfl]
    exact read_scalar h event rest
  | .sequence items => by
    rw [YamlNode.events, YamlNode.keysAreScalars, YamlNode.value, List.cons_append, List.append_assoc,
      read_sequenceStart h, read_items [] items]
    cases itemsKeysAreScalars items with
    | true => rfl
    | false => rfl
  | .mapping pairs => by
    rw [YamlNode.events, YamlNode.keysAreScalars, YamlNode.value, List.cons_append, List.append_assoc,
      read_mappingStart h, read_pairs [] pairs]
    cases pairsKeysAreScalars pairs with
    | true => rfl
    | false => rfl

theorem read_items (children : List JsonElement) (items : List YamlNode) (rest : List YamlEvent) :
    readYaml tags (itemEvents items ++ rest) (.array children) none =
      if itemsKeysAreScalars items then readYaml tags rest (.array (children ++ itemValues tags items)) none
      else .error .programmingError := by
  cases items with
  | nil => rw [itemEvents, itemsKeysAreScalars, itemValues, List.append_nil, if_pos rfl, List.nil_append]
  | cons item items =>
    rw [itemEvents, itemsKeysAreScalars, itemValues, List.append_assoc, read_node (.item children) _ item]
    cases item.keysAreScalars with
    | false => rfl
    | true =>
      rw [if_pos rfl, read_items _ items, Bool.true_and, List.append_assoc]
      rfl

theorem read_pairs (members : List (Bytes × JsonElement)) (pairs : List (YamlNode × YamlNode))
    (rest : List YamlEvent) :
    readYaml tags (pairEvents pairs ++ rest) (.object members) none =
      if pairsKeysAreScalars pairs then readYaml tags rest (.object (pairValues tags members pairs)) none
      else .error .programmingError := by
  cases pairs with
  | nil => rw [pairEvents, pairsKeysAreScalars, pairValues, if_pos rfl, List.nil_append]
  | cons pair pairs =>
    obtain ⟨key, value⟩ := pair
    rw [pairEvents, pairsKeysAreScalars, pairValues, List.append_assoc, List.append_assoc]
    cases key with
    | scalar event =>
      rw [YamlNode.events, List.singleton_append, read_scalar_key, read_node (.member members _) _ value]
      cases value.keysAreScalars with
      | false => rfl
      | true =>
        rw [if_pos rfl, read_pairs _ pairs]
        rfl
    | sequence items =>
      rw [YamlNode.events, List.cons_append, readYaml_cons]
      rfl
    | mapping pairs =>
      rw [YamlNode.events, List.cons_append, readYaml_cons]
      rfl

end

theorem read_documents (children : List JsonElement) (documents : List YamlNode) (rest : List YamlEvent) :
    readYaml tags (documents.flatMap documentEvents ++ rest) (.array children) none =
      if ∀ document ∈ documents, document.keysAreScalars = true then
        readYaml tags rest (.array (children ++ documents.map (YamlNode.value tags))) none
      else .error .programmingError := by
  induction documents generalizing children with
  | nil => simp
  | cons document documents ih =>
    rw [List.flatMap_cons, documentEvents, List.cons_append, List.cons_append, read_ignored (.inr (.inl rfl)),
      List.append_assoc, List.append_assoc, read_node tags (.item children) _ document]
    cases hkeys : document.keysAreScalars with
    | false => simp [hkeys]
    | true =>
      rw [if_pos rfl, List.singleton_append, read_ignored (.inr (.inr (.inl rfl))), ih]
      simp [hkeys]

/-- A stream of documents is read to its end, and the first document's element is copied and returned; if some document
has a collection as a key, the process ends. -/
theorem yaml_stream_read (documents : List YamlNode) :
    jsonParseYamlString tags (streamEvents documents) =
      if ∀ document ∈ documents, document.keysAreScalars = true then
        copyFirst (documents.map (YamlNode.value tags))
      else .stopped .programmingError := by
  have hread : jsonParseYamlData tags ((streamEvents documents).length + 1) (streamEvents documents) (.array []) none =
      readYaml tags (streamEvents documents) (.array []) none := rfl
  rw [jsonParseYamlString, hread, streamEvents, read_ignored (.inl rfl), read_documents]
  by_cases hkeys : ∀ document ∈ documents, document.keysAreScalars = true
  · rw [if_pos hkeys, if_pos hkeys, readYaml_cons]
    rfl
  · rw [if_neg hkeys, if_neg hkeys]

end Documents

/-! ## Streams that break off -/

mutual

/-- The tree of a document's first events, its open collections closed. A key without its value is dropped. -/
def YamlNode.cut : ℕ → YamlNode → Option YamlNode
  | 0, _ => none
  | _ + 1, .scalar event => some (.scalar event)
  | n + 1, .sequence items => some (.sequence (cutItems n items))
  | n + 1, .mapping pairs => some (.mapping (cutPairs n pairs))

def cutItems (n : ℕ) : List YamlNode → List YamlNode
  | [] => []
  | item :: items =>
    match item.cut n with
    | none => []
    | some cut => cut :: cutItems (n - item.events.length) items

def cutPairs (n : ℕ) : List (YamlNode × YamlNode) → List (YamlNode × YamlNode)
  | [] => []
  | (key, value) :: pairs =>
    match value.cut (n - key.events.length) with
    | none => []
    | some cut => (key, cut) :: cutPairs (n - key.events.length - value.events.length) pairs

end

theorem cut_zero (node : YamlNode) : node.cut 0 = none := by
  cases node <;> rw [YamlNode.cut]

theorem eq_zero_of_cut {n : ℕ} {node : YamlNode} (h : node.cut n = none) : n = 0 := by
  cases n with
  | zero => rfl
  | succ n => cases node <;> rw [YamlNode.cut] at h <;> cases h

theorem cutItems_zero (items : List YamlNode) : cutItems 0 items = [] := by
  cases items with
  | nil => rw [cutItems]
  | cons item items => rw [cutItems, cut_zero]

theorem cutPairs_zero (pairs : List (YamlNode × YamlNode)) : cutPairs 0 pairs = [] := by
  cases pairs with
  | nil => rw [cutPairs]
  | cons pair pairs => rw [cutPairs, Nat.zero_sub, cut_zero]

theorem events_pos (node : YamlNode) : 0 < node.events.length := by
  cases node <;> simp [YamlNode.events]

mutual

theorem cut_full {n : ℕ} : (node : YamlNode) → node.events.length ≤ n → node.cut n = some node
  | .scalar event, h => by
    obtain ⟨n, rfl⟩ := Nat.exists_eq_succ_of_ne_zero (Nat.ne_of_gt (Nat.lt_of_lt_of_le (events_pos _) h))
    rw [YamlNode.cut]
  | .sequence items, h => by
    obtain ⟨n, rfl⟩ := Nat.exists_eq_succ_of_ne_zero (Nat.ne_of_gt (Nat.lt_of_lt_of_le (events_pos _) h))
    rw [YamlNode.events, List.length_cons, List.length_append] at h
    rw [YamlNode.cut, cutItems_full items (by omega)]
  | .mapping pairs, h => by
    obtain ⟨n, rfl⟩ := Nat.exists_eq_succ_of_ne_zero (Nat.ne_of_gt (Nat.lt_of_lt_of_le (events_pos _) h))
    rw [YamlNode.events, List.length_cons, List.length_append] at h
    rw [YamlNode.cut, cutPairs_full pairs (by omega)]

theorem cutItems_full {n : ℕ} (items : List YamlNode) (h : (itemEvents items).length ≤ n) :
    cutItems n items = items := by
  cases items with
  | nil => rw [cutItems]
  | cons item items =>
    rw [itemEvents, List.length_append] at h
    rw [cutItems, cut_full item (by omega)]
    simp only
    rw [cutItems_full items (by omega)]

theorem cutPairs_full {n : ℕ} (pairs : List (YamlNode × YamlNode)) (h : (pairEvents pairs).length ≤ n) :
    cutPairs n pairs = pairs := by
  cases pairs with
  | nil => rw [cutPairs]
  | cons pair pairs =>
    obtain ⟨key, value⟩ := pair
    rw [pairEvents, List.length_append, List.length_append] at h
    rw [cutPairs, cut_full value (by omega)]
    simp only
    rw [cutPairs_full pairs (by omega)]

end

section Broken

variable (tags : YamlTags)

mutual

theorem read_cut {element : JsonElement} {key : Option Bytes} {place : JsonElement → JsonElement}
    (h : Awaits element key place) (n : ℕ) : (node : YamlNode) → node.keysAreScalars = true →
    readYaml tags (node.events.take n) element key =
      .ok (((node.cut n).map fun cut => place (cut.value tags)).getD element, [])
  | .scalar event, _ => by
    cases n with
    | zero => rfl
    | succ n =>
      rw [YamlNode.events, YamlNode.cut, List.take_succ_cons, List.take_nil, read_scalar h]
      rfl
  | .sequence items, hkeys => by
    rw [YamlNode.keysAreScalars] at hkeys
    cases n with
    | zero => rfl
    | succ n =>
      rw [YamlNode.events, YamlNode.cut, List.take_succ_cons, read_sequenceStart h, read_cutItems [] n items hkeys]
      rfl
  | .mapping pairs, hkeys => by
    rw [YamlNode.keysAreScalars] at hkeys
    cases n with
    | zero => rfl
    | succ n =>
      rw [YamlNode.events, YamlNode.cut, List.take_succ_cons, read_mappingStart h, read_cutPairs [] n pairs hkeys]
      rfl

theorem read_cutItems (children : List JsonElement) (n : ℕ) (items : List YamlNode)
    (hkeys : itemsKeysAreScalars items = true) :
    readYaml tags (List.take n (itemEvents items ++ [.sequenceEnd])) (.array children) none =
      .ok (.array (children ++ itemValues tags (cutItems n items)), []) := by
  cases items with
  | nil =>
    rw [cutItems, itemValues, List.append_nil, itemEvents, List.nil_append]
    cases n with
    | zero => rfl
    | succ n => rw [List.take_succ_cons, List.take_nil, readYaml_cons]; rfl
  | cons item items =>
    rw [itemsKeysAreScalars, Bool.and_eq_true] at hkeys
    rw [itemEvents, List.append_assoc, List.take_append, cutItems]
    by_cases hn : n < item.events.length
    · rw [Nat.sub_eq_zero_of_le (Nat.le_of_lt hn), List.take_zero, List.append_nil,
        read_cut (.item children) n item hkeys.1, cutItems_zero]
      cases item.cut n with
      | none => simp [itemValues]
      | some cut => simp [itemValues]
    · have hle := Nat.le_of_not_lt hn
      rw [List.take_of_length_le hle, read_node tags (.item children) _ item, if_pos hkeys.1,
        read_cutItems _ _ items hkeys.2, cut_full item hle, itemValues, List.append_assoc]
      rfl

theorem read_cutPairs (members : List (Bytes × JsonElement)) (n : ℕ) (pairs : List (YamlNode × YamlNode))
    (hkeys : pairsKeysAreScalars pairs = true) :
    readYaml tags (List.take n (pairEvents pairs ++ [.mappingEnd])) (.object members) none =
      .ok (.object (pairValues tags members (cutPairs n pairs)), []) := by
  cases pairs with
  | nil =>
    rw [cutPairs, pairValues, pairEvents, List.nil_append]
    cases n with
    | zero => rfl
    | succ n => rw [List.take_succ_cons, List.take_nil, readYaml_cons]; rfl
  | cons pair pairs =>
    obtain ⟨key, value⟩ := pair
    rw [pairsKeysAreScalars, Bool.and_eq_true, Bool.and_eq_true] at hkeys
    obtain ⟨⟨hkey, hvalue⟩, hpairs⟩ := hkeys
    cases n with
    | zero =>
      rw [cutPairs_zero]
      rfl
    | succ n =>
      obtain ⟨event, rfl⟩ : ∃ event, key = .scalar event := by
        cases key with
        | scalar event => exact ⟨event, rfl⟩
        | sequence items => cases hkey
        | mapping pairs => cases hkey
      rw [pairEvents, YamlNode.events, List.append_assoc, List.append_assoc, List.singleton_append,
        List.take_succ_cons, read_scalar_key, List.take_append, cutPairs, YamlNode.events, List.length_singleton,
        Nat.add_sub_cancel]
      by_cases hn : n < value.events.length
      · rw [Nat.sub_eq_zero_of_le (Nat.le_of_lt hn), List.take_zero, List.append_nil,
          read_cut (.member members _) n value hvalue, cutPairs_zero]
        cases value.cut n with
        | none => simp [pairValues]
        | some cut => simp [pairValues, YamlNode.keyText]
      · have hle := Nat.le_of_not_lt hn
        rw [List.take_of_length_le hle, read_node tags (.member members _) _ value, if_pos hvalue,
          read_cutPairs _ _ pairs hpairs, cut_full value hle, pairValues, YamlNode.keyText]
        rfl

end

theorem read_cutDocument (children : List JsonElement) (n : ℕ) {document : YamlNode}
    (hkeys : document.keysAreScalars = true) (rest : List YamlEvent) :
    readYaml tags (List.take n (documentEvents document ++ rest)) (.array children) none =
      readYaml tags (List.take (n - (document.events.length + 2)) rest)
        (.array (children ++ ((document.cut (n - 1)).map (YamlNode.value tags)).toList)) none := by
  cases n with
  | zero => simp [cut_zero]
  | succ n =>
    rw [documentEvents, List.cons_append, List.take_succ_cons, read_ignored (.inr (.inl rfl)), List.append_assoc,
      List.take_append, Nat.add_sub_cancel]
    by_cases hn : n < document.events.length
    · rw [Nat.sub_eq_zero_of_le (Nat.le_of_lt hn), List.take_zero, List.append_nil,
        Nat.sub_eq_zero_of_le (by omega : n + 1 ≤ document.events.length + 2), List.take_zero,
        read_cut tags (.item children) n document hkeys, readYaml_nil]
      cases document.cut n with
      | none => simp
      | some cut => simp
    · have hle := Nat.le_of_not_lt hn
      rw [List.take_of_length_le hle, read_node tags (.item children) _ document, if_pos hkeys, cut_full document hle]
      obtain ⟨k, hk⟩ := Nat.exists_eq_add_of_le hle
      rw [hk, Nat.add_sub_cancel_left, Nat.add_assoc, Nat.add_sub_add_left]
      cases k with
      | zero => rfl
      | succ k =>
        rw [List.singleton_append, List.take_succ_cons, read_ignored (.inr (.inr (.inl rfl))), Nat.add_sub_add_right,
          Nat.add_sub_cancel]
        rfl

theorem read_cutDocuments (children : List JsonElement) (n : ℕ) {documents : List YamlNode}
    (hkeys : ∀ document ∈ documents, document.keysAreScalars = true) :
    ∃ more, readYaml tags (List.take n (documents.flatMap documentEvents ++ [.streamEnd])) (.array children) none =
      .ok (.array (children ++ more), []) := by
  induction documents generalizing children n with
  | nil =>
    refine ⟨[], ?_⟩
    rw [List.append_nil, List.flatMap_nil, List.nil_append]
    cases n with
    | zero => rfl
    | succ n => rw [List.take_succ_cons, List.take_nil, readYaml_cons]; rfl
  | cons document documents ih =>
    have hfirst := hkeys document List.mem_cons_self
    obtain ⟨more, hmore⟩ := ih (children ++ ((document.cut (n - 1)).map (YamlNode.value tags)).toList)
      (n - (document.events.length + 2)) fun d hd => hkeys d (List.mem_cons_of_mem _ hd)
    refine ⟨((document.cut (n - 1)).map (YamlNode.value tags)).toList ++ more, ?_⟩
    rw [List.flatMap_cons, List.append_assoc, read_cutDocument tags children n hfirst, hmore, List.append_assoc]

/-- A stream that ends early, without a word from the reader: what there is of the first document is returned. -/
theorem yaml_stream_broken_off {first : YamlNode} {documents : List YamlNode}
    (hkeys : ∀ document ∈ first :: documents, document.keysAreScalars = true) (n : ℕ) :
    jsonParseYamlString tags ((streamEvents (first :: documents)).take n) =
      copyFirst ((first.cut (n - 2)).map (YamlNode.value tags)).toList := by
  have hread : ∀ events, jsonParseYamlData tags (events.length + 1) events (.array []) none =
      readYaml tags events (.array []) none := fun _ => rfl
  rw [jsonParseYamlString, hread]
  cases n with
  | zero => rw [List.take_zero, readYaml_nil, Nat.zero_sub, cut_zero]; rfl
  | succ n =>
    have hfirst := hkeys first List.mem_cons_self
    rw [streamEvents, List.take_succ_cons, read_ignored (.inl rfl), List.flatMap_cons, List.append_assoc,
      read_cutDocument tags [] n hfirst, List.nil_append, (by omega : n + 1 - 2 = n - 1)]
    cases hcut : first.cut (n - 1) with
    | none =>
      have hnone := eq_zero_of_cut hcut
      rw [Nat.sub_eq_zero_of_le (by omega : n ≤ first.events.length + 2), List.take_zero]
      rfl
    | some cut =>
      obtain ⟨more, hmore⟩ := read_cutDocuments tags [cut.value tags] (n - (first.events.length + 2))
        fun d hd => hkeys d (List.mem_cons_of_mem _ hd)
      rw [Option.map_some, Option.toList_some, hmore]
      rfl

/-- `[1, {a: 2` with the rest missing. -/
def brokenDocument : YamlNode :=
  .sequence [.scalar ⟨none, ⟨ascii "1", by decide⟩, 1, true, false, rfl⟩,
    .mapping [(.scalar ⟨none, ⟨ascii "a", by decide⟩, 1, true, false, rfl⟩,
      .scalar ⟨none, ⟨ascii "2", by decide⟩, 1, true, false, rfl⟩)]]

theorem yaml_stream_broken_off_pair :
    jsonParseYamlString yamlTags ((streamEvents [brokenDocument]).take 7) =
      copyFirst [.array [.primitive .integer (ascii "1"), .object [(ascii "a", .primitive .integer (ascii "2"))]]] :=
  yaml_stream_broken_off yamlTags (fun document h => by rw [List.mem_singleton.mp h]; rfl) 7

end Broken

end Libntech.Json
