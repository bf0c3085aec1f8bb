import Libntech.Json.Copy
import Libntech.Json.Grammar
import Mathlib.Logic.Function.Basic

/-! # JSON objects in memory (`libutils/json.c`)

Elements have an identity here: a container holds pointers to its children, and `JsonObjectGet` returns one.

A removed child is destroyed in the source; here its nodes stay behind, and no caller has a use for them. Elements are
owned by one container at most, which `append` asks for.
-/
namespace Libntech.Json
set_option autoImplicit false

inductive Node where
  | primitive (type : JsonPrimitiveType) (value : Bytes)
  | array (children : List ℕ)
  | object (children : List (Bytes × ℕ))

structure Memory where
  nodes : ℕ → Option Node
  next : ℕ

namespace Memory

def empty : Memory := ⟨fun _ => none, 0⟩

def new (m : Memory) (node : Node) : Memory × ℕ :=
  (⟨Function.update m.nodes m.next (some node), m.next + 1⟩, m.next)

/-- The members of an object; none if it is something else. -/
def members (m : Memory) (object : ℕ) : List (Bytes × ℕ) :=
  match m.nodes object with
  | some (.object children) => children
  | _ => []

/-- The members of the object become others. -/
def setMembers (m : Memory) (object : ℕ) (children : List (Bytes × ℕ)) : Memory :=
  ⟨Function.update m.nodes object (some (.object children)), m.next⟩

end Memory

/-- The first child of a name, as `SeqLookup` finds it. -/
def lookupMember (children : List (Bytes × ℕ)) (key : Bytes) : Option ℕ :=
  (children.find? fun child => child.1 = key).map Prod.snd

def jsonObjectGetIn (m : Memory) (object : ℕ) (key : Bytes) : Option ℕ := lookupMember (m.members object) key

/-- `JsonObjectAppendElement`: a child of that name is removed first. -/
def jsonObjectAppendElement (m : Memory) (object : ℕ) (key : Bytes) (element : ℕ) : Memory :=
  m.setMembers object (((m.members object).eraseP fun child => child.1 = key) ++ [(key, element)])

mutual

/-- Create an element, containers before what is appended to them. -/
def alloc : JsonElement → Memory → Memory × ℕ
  | .primitive type value, m => m.new (.primitive type value)
  | .array children, m =>
    let (m, ids) := allocElements children m
    m.new (.array ids)
  | .object children, m =>
    let (m, object) := m.new (.object [])
    (allocMembers object children m, object)

def allocElements : List JsonElement → Memory → Memory × List ℕ
  | [], m => (m, [])
  | e :: rest, m =>
    let (m, x) := alloc e m
    let (m, ids) := allocElements rest m
    (m, x :: ids)

def allocMembers (object : ℕ) : List (Bytes × JsonElement) → Memory → Memory
  | [], m => m
  | (key, e) :: rest, m =>
    let (m, x) := alloc e m
    allocMembers object rest (jsonObjectAppendElement m object key x)

end

/-- A call of `JsonObjectAppendElement`, or with no element one that takes the child of the name out. -/
structure Call where
  object : ℕ
  key : Bytes
  element : Option ℕ

mutual

/-- The calls that are made when an element is created. -/
def allocCalls : JsonElement → Memory → List Call
  | .primitive _ _, _ => []
  | .array children, m => allocElementsCalls children m
  | .object children, m => allocMembersCalls m.next children (m.new (.object [])).1

def allocElementsCalls : List JsonElement → Memory → List Call
  | [], _ => []
  | e :: rest, m => allocCalls e m ++ allocElementsCalls rest (alloc e m).1

def allocMembersCalls (object : ℕ) : List (Bytes × JsonElement) → Memory → List Call
  | [], _ => []
  | (key, e) :: rest, m =>
    let (m₁, x) := alloc e m
    allocCalls e m ++ ⟨object, key, some x⟩ :: allocMembersCalls object rest (jsonObjectAppendElement m₁ object key x)

end

/-- The element that a pointer stands for. -/
inductive Reads (m : Memory) : ℕ → JsonElement → Prop where
  | primitive {x : ℕ} {type : JsonPrimitiveType} {value : Bytes} : m.nodes x = some (.primitive type value) →
      Reads m x (.primitive type value)
  | array {x : ℕ} {ids : List ℕ} {es : List JsonElement} : m.nodes x = some (.array ids) → ids.length = es.length →
      (∀ (i : ℕ) (a : ℕ) (e : JsonElement), ids[i]? = some a → es[i]? = some e → Reads m a e) → Reads m x (.array es)
  | object {x : ℕ} {children : List (Bytes × ℕ)} {es : List (Bytes × JsonElement)} :
      m.nodes x = some (.object children) → children.map Prod.fst = es.map Prod.fst →
      (∀ (i : ℕ) (a : Bytes × ℕ) (e : Bytes × JsonElement), children[i]? = some a → es[i]? = some e →
        Reads m a.2 e.2) → Reads m x (.object es)

/-- `JsonObjectMergeDeepInplace`, from the given members of `extra` on, with the calls that it makes. -/
inductive DeepMerges : Memory → ℕ → List (Bytes × ℕ) → List Call → Memory → Prop where
  | done {m : Memory} {base : ℕ} : DeepMerges m base [] [] m
  -- both are objects
  | merge {m m₁ m' : Memory} {base extraValue baseValue : ℕ} {key : Bytes} {rest inner extra : List (Bytes × ℕ)}
      {within behind : List Call} :
      jsonObjectGetIn m base key = some baseValue → m.nodes baseValue = some (.object inner) →
      m.nodes extraValue = some (.object extra) → DeepMerges m baseValue extra within m₁ →
      DeepMerges m₁ base rest behind m' → DeepMerges m base ((key, extraValue) :: rest) (within ++ behind) m'
  -- both are arrays: `JsonArrayExtend` with a copy
  | extend {m m₁ m' : Memory} {base extraValue baseValue : ℕ} {key : Bytes} {rest : List (Bytes × ℕ)}
      {inner extra ids : List ℕ} {es copy : List JsonElement} {behind : List Call} :
      jsonObjectGetIn m base key = some baseValue → m.nodes baseValue = some (.array inner) →
      m.nodes extraValue = some (.array extra) → Reads m extraValue (.array es) → jsonArrayCopy [] es = some copy →
      allocElements copy m = (m₁, ids) →
      DeepMerges ⟨Function.update m₁.nodes baseValue (some (.array (inner ++ ids))), m₁.next⟩ base rest behind m' →
      DeepMerges m base ((key, extraValue) :: rest) (allocElementsCalls copy m ++ behind) m'
  -- the name is new, or the value is overwritten
  | put {m m₁ m' : Memory} {base extraValue x : ℕ} {key : Bytes} {rest : List (Bytes × ℕ)} {e copy : JsonElement}
      {behind : List Call} :
      (∀ baseValue, jsonObjectGetIn m base key = some baseValue →
        ¬ (∃ inner extra, m.nodes baseValue = some (.object inner) ∧ m.nodes extraValue = some (.object extra)) ∧
        ¬ ∃ inner extra, m.nodes baseValue = some (.array inner) ∧ m.nodes extraValue = some (.array extra)) →
      Reads m extraValue e → jsonCopy e = some copy → alloc copy m = (m₁, x) →
      DeepMerges (jsonObjectAppendElement m₁ base key x) base rest behind m' →
      DeepMerges m base ((key, extraValue) :: rest) (allocCalls copy m ++ ⟨base, key, some x⟩ :: behind) m'

/-! ## Members in the order of the text -/

namespace Frame

/-- `value` with all members kept, also those of one name. -/
def keepValue : Frame → UInt8 → JsonElement → Option Frame
  | array _ children, last, e => some (.array last (children ++ [e]))
  | object _ ⟨none, _⟩, _, _ => none
  | object _ ⟨some key, children⟩, last, e => some (.object last ⟨none, children ++ [(key, e)]⟩)

/-- `text` with all members kept. -/
def keepText : Frame → Bytes → Option Frame
  | object prev ⟨none, children⟩, t => (object prev ⟨none, children⟩).text t
  | f, t => f.keepValue '"'.toUInt8 (.primitive .string (decodeString t))

end Frame

mutual

/-- `Item` with all members kept. -/
inductive KeptItem : Frame → Bytes → Frame → Bytes → Prop where
  | blank {f : Frame} {c : UInt8} {r : Bytes} : isWhitespace c = true → KeptItem f (c :: r) f r
  | punct {f g : Frame} {c : UInt8} {r : Bytes} : f.punct c = some g → KeptItem f (c :: r) g r
  | text {f g : Frame} {b r : Bytes} : StringBody b → f.keepText (unescape b) = some g →
      KeptItem f ('"'.toUInt8 :: (b ++ '"'.toUInt8 :: r)) g r
  | scalar {f g : Frame} {v r : Bytes} {e : JsonElement} {last : UInt8} : Scalar v e → v.getLast? = some last →
      Ends v r → f.keepValue last e = some g → KeptItem f (v ++ r) g r
  | key {f g : Frame} {w ws r : Bytes} : BareWord w → (∀ x ∈ ws, isWhitespace x = true) → f.key w = some g →
      KeptItem f (w ++ (ws ++ ':'.toUInt8 :: r)) g r
  | nested {f g h : Frame} {c d : UInt8} {r r' : Bytes} {e : JsonElement} : f.nests = true →
      Frame.opened c = some h → KeptCloses h r e d r' → f.keepValue d e = some g → KeptItem f (c :: r) g r'

inductive KeptCloses : Frame → Bytes → JsonElement → UInt8 → Bytes → Prop where
  | here {f : Frame} {e : JsonElement} {r : Bytes} : f.element = some e → KeptCloses f (f.closer :: r) e f.closer r
  | item {f g : Frame} {r r' r'' : Bytes} {e : JsonElement} {d : UInt8} : KeptItem f r g r' →
      KeptCloses g r' e d r'' → KeptCloses f r e d r''

end

mutual

/-- What is left when the members are appended one after the other. -/
def settled : JsonElement → JsonElement
  | .primitive type value => .primitive type value
  | .array children => .array (settledElements children)
  | .object children => .object (settledMembers [] children)

def settledElements : List JsonElement → List JsonElement
  | [] => []
  | e :: rest => settled e :: settledElements rest

def settledMembers (children : List (Bytes × JsonElement)) : List (Bytes × JsonElement) → List (Bytes × JsonElement)
  | [] => children
  | (key, e) :: rest => settledMembers (appendElement children key (settled e)) rest

end

/-! ## Members that are merged -/

end Libntech.Json
