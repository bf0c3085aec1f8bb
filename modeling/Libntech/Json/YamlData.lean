import Libntech.Json.Copy
import Libntech.Json.Yaml

/-! # YAML documents (`JsonParseYamlData` and `JsonParseYamlString`, `libutils/json-yaml.c`)

What `yaml_parser_parse` delivers is a list of events. Behind the last one (the end of the stream, or the place where
libyaml found an error) it delivers `NO_EVENT`, as often as it is asked.
-/
namespace Libntech.Json
set_option autoImplicit false

/-! ## The reader -/

inductive YamlEvent where
  | streamStart
  | streamEnd
  | documentStart
  | documentEnd
  | alias
  | scalar (event : YamlScalarEvent)
  | sequenceStart
  | sequenceEnd
  | mappingStart
  | mappingEnd

/-- Why there is no element: `ProgrammingError` ends the process, or a reader of this model gave up. -/
inductive YamlStop where
  | programmingError
  | scalarUnread
  | outOfFuel
  deriving DecidableEq

def yamlScalar (tags : YamlTags) (event : YamlScalarEvent) : Except YamlStop JsonElement :=
  match jsonParseYamlScalarValue tags event with
  | .ok value => .ok value
  | _ => .error .scalarUnread

/-- What the loop does with an event: it goes on, or fills a new collection and puts it into its place first, or returns
to its caller. -/
inductive YamlTurn where
  | next (element : JsonElement) (key : Option Bytes)
  | enter (collection : JsonElement) (place : JsonElement → JsonElement)
  | leave

/-- A collection starts. It is appended to its parent before it is filled, which makes no difference to the parent. -/
def startCollection (element : JsonElement) (key : Option Bytes) (collection : JsonElement) :
    Except YamlStop YamlTurn :=
  match element, key with
  | .object children, some key => .ok (.enter collection fun value => .object (appendElement children key value))
  | .object _, none => .error .programmingError
  | .array children, _ => .ok (.enter collection fun value => .array (children ++ [value]))
  | .primitive _ _, _ => .ok (.next element key)

def yamlTurn (tags : YamlTags) (element : JsonElement) (key : Option Bytes) : YamlEvent → Except YamlStop YamlTurn
  | .scalar event =>
    match element, key with
    | .object _, none => .ok (.next element (some event.value.bytes))
    | .object children, some key => do
      let value ← yamlScalar tags event
      return .next (.object (appendElement children key value)) none
    | .array children, _ => do
      let value ← yamlScalar tags event
      return .next (.array (children ++ [value])) none
    | .primitive _ _, _ => .error .programmingError
  | .sequenceStart => startCollection element key (.array [])
  | .sequenceEnd =>
    match element with
    | .array _ => .ok .leave
    | _ => .error .programmingError
  | .mappingStart => startCollection element key (.object [])
  | .mappingEnd =>
    match element with
    | .object _ => .ok .leave
    | _ => .error .programmingError
  | .streamEnd => .ok .leave
  | .streamStart | .documentStart | .documentEnd | .alias => .ok (.next element key)

/-- The element as it is when the function returns, and the events left then. -/
def jsonParseYamlData (tags : YamlTags) : ℕ → List YamlEvent → JsonElement → Option Bytes →
    Except YamlStop (JsonElement × List YamlEvent)
  | 0, _, _, _ => .error .outOfFuel
  -- `NO_EVENT`
  | _ + 1, [], element, _ => .ok (element, [])
  | fuel + 1, event :: rest, element, key =>
    match yamlTurn tags element key event with
    | .error stop => .error stop
    | .ok .leave => .ok (element, rest)
    | .ok (.next element key) => jsonParseYamlData tags fuel rest element key
    | .ok (.enter collection place) =>
      match jsonParseYamlData tags fuel rest collection none with
      | .error stop => .error stop
      | .ok (value, rest) => jsonParseYamlData tags fuel rest (place value) none

/-- `JsonParseYamlString` on what libyaml makes of the string. Copying the element may end the process, too. -/
inductive YamlReply where
  | parsed (json : JsonElement)
  | noData
  | copyExits
  | stopped (stop : YamlStop)

def copyFirst : List JsonElement → YamlReply
  | [] => .noData
  | first :: _ =>
    match jsonCopy first with
    | some json => .parsed json
    | none => .copyExits

def jsonParseYamlString (tags : YamlTags) (events : List YamlEvent) : YamlReply :=
  match jsonParseYamlData tags (events.length + 1) events (.array []) none with
  | .error stop => .stopped stop
  | .ok (.array children, _) => copyFirst children
  -- The holder stays an array.
  | .ok _ => .noData

/-! ## Fuel for every stream -/

section Fuel

variable {tags : YamlTags} {events rest : List YamlEvent} {element : JsonElement} {key : Option Bytes}

theorem rest_length_le {fuel : ℕ} {e : JsonElement}
    (h : jsonParseYamlData tags fuel events element key = .ok (e, rest)) : rest.length ≤ events.length := by
  induction fuel generalizing events rest element e key with
  | zero => cases h
  | succ fuel ih =>
    cases events with
    | nil =>
      simp only [jsonParseYamlData, Except.ok.injEq, Prod.mk.injEq] at h
      simp [← h.2]
    | cons event events =>
      rw [jsonParseYamlData] at h
      rw [List.length_cons]
      split at h
      · cases h
      · simp only [Except.ok.injEq, Prod.mk.injEq] at h
        simp [← h.2]
      · exact Nat.le_succ_of_le (ih h)
      · split at h
        · cases h
        · rename_i hvalue
          exact Nat.le_succ_of_le (Nat.le_trans (ih h) (ih hvalue))

theorem fuel_irrelevant {fuel fuel' : ℕ} (h : events.length < fuel) (h' : events.length < fuel') :
    jsonParseYamlData tags fuel events element key = jsonParseYamlData tags fuel' events element key := by
  induction fuel generalizing fuel' events element key with
  | zero => cases h
  | succ fuel ih =>
    obtain ⟨fuel', rfl⟩ := Nat.exists_eq_succ_of_ne_zero (Nat.ne_of_gt (Nat.zero_lt_of_lt h'))
    cases events with
    | nil => rfl
    | cons event events =>
      rw [List.length_cons] at h h'
      have hlt := Nat.lt_of_succ_lt_succ h
      have hlt' := Nat.lt_of_succ_lt_succ h'
      simp only [jsonParseYamlData]
      split
      · rfl
      · rfl
      · exact ih hlt hlt'
      · rw [ih hlt hlt']
        split
        · rfl
        · rename_i hvalue
          have hle := rest_length_le hvalue
          exact ih (Nat.lt_of_le_of_lt hle hlt) (Nat.lt_of_le_of_lt hle hlt')

end Fuel

/-! ## The reader without fuel -/

def readYaml (tags : YamlTags) (events : List YamlEvent) (element : JsonElement) (key : Option Bytes) :
    Except YamlStop (JsonElement × List YamlEvent) :=
  jsonParseYamlData tags (events.length + 1) events element key

theorem readYaml_nil (tags : YamlTags) (element : JsonElement) (key : Option Bytes) :
    readYaml tags [] element key = .ok (element, []) := rfl

theorem readYaml_cons (tags : YamlTags) (event : YamlEvent) (rest : List YamlEvent) (element : JsonElement)
    (key : Option Bytes) : readYaml tags (event :: rest) element key =
      match yamlTurn tags element key event with
      | .error stop => .error stop
      | .ok .leave => .ok (element, rest)
      | .ok (.next element key) => readYaml tags rest element key
      | .ok (.enter collection place) =>
        match readYaml tags rest collection none with
        | .error stop => .error stop
        | .ok (value, rest) => readYaml tags rest (place value) none := by
  rw [readYaml, List.length_cons, jsonParseYamlData]
  split
  · rfl
  · rfl
  · rfl
  · rename_i collection place
    rw [readYaml]
    split
    · rfl
    · rename_i hvalue
      have hle := rest_length_le hvalue
      exact fuel_irrelevant (Nat.lt_succ_of_le hle) (Nat.lt_succ_self _)

end Libntech.Json
