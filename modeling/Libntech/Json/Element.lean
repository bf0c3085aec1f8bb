import Mathlib.Data.List.Basic

/-! # JSON elements (`libutils/json.c`)

Strings are their bytes without the terminating NUL. A child of an object carries its property name, so an
object is a list of named children; the order is the order of the underlying `Seq`.
-/
namespace Libntech.Json
set_option autoImplicit false

abbrev Bytes := List UInt8

/-- The bytes of a C string: no NUL before the terminator. -/
structure CString where
  bytes : Bytes
  nul_free : 0 ∉ bytes

/-- The bytes of an ASCII literal. -/
def ascii (text : String) : Bytes := text.toList.map Char.toUInt8

inductive JsonPrimitiveType where
  | string
  | integer
  | real
  | bool
  | null
  deriving DecidableEq

inductive JsonElement where
  | primitive (type : JsonPrimitiveType) (value : Bytes)
  | array (children : List JsonElement)
  | object (children : List (Bytes × JsonElement))

def jsonTrue : Bytes := ascii "true"
def jsonFalse : Bytes := ascii "false"
def jsonNull : Bytes := ascii "null"

def jsonBoolCreate (value : Bool) : JsonElement := .primitive .bool (if value then jsonTrue else jsonFalse)
def jsonNullCreate : JsonElement := .primitive .null jsonNull

/-- `JsonObjectRemoveKey` on the children: the first child of that name goes. -/
def removeKey (key : Bytes) : List (Bytes × JsonElement) → List (Bytes × JsonElement)
  | [] => []
  | child :: rest => if child.1 = key then rest else child :: removeKey key rest

/-- `JsonObjectAppendElement` on the children. -/
def appendElement (children : List (Bytes × JsonElement)) (key : Bytes) (element : JsonElement) :
    List (Bytes × JsonElement) :=
  removeKey key children ++ [(key, element)]

end Libntech.Json
