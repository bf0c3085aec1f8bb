import Libntech.Containers.RBTreeMeaning

/-! # Iterators, RBTreeCopy and RBTreeEqual (`libutils/rb-tree.c`)

An iterator is the tree and the node it stands on. As in the other operations, `none` stands for a failed
assertion and for a loop that does not end, and in `RBTreeCopy` for an access outside the array as well: `nodes`
is the part of the array that has been written.
-/
namespace Libntech.Containers
open Containers.RBTree
set_option autoImplicit false

variable {K V : Type}

/-! ## Iterators -/

def rbTreeIteratorNew (t : RBTree K V) : Option ℕ := leftmost t t.fresh t.root

def RBTree.pair (t : RBTree K V) (i : ℕ) : Option K × Option V := ((t.heap i).key, (t.heap i).value)

/-- `Peek_` -/
def peek (t : RBTree K V) (curr : ℕ) : Option (Option K × Option V) :=
  if t.size = 0 then none
  else if curr = t.nil then none
  else some (t.pair curr)

/-- `RBTreeIteratorNext` until it returns false. -/
def iterate (t : RBTree K V) : ℕ → ℕ → Option (List (Option K × Option V))
  | 0, _ => none
  | fuel + 1, curr =>
    match peek t curr with
    | none => some []
    | some pair => do
      let curr ← next t curr
      let rest ← iterate t fuel curr
      return pair :: rest

/-- The pairs of a tree, as a new iterator shows them. -/
def rbTreeItems (t : RBTree K V) : Option (List (Option K × Option V)) := do
  let curr ← rbTreeIteratorNew t
  iterate t t.fresh curr

/-! ## RBTreeCopy -/

/-- `RBTreePredicate` with its `user_data`; `none` is `NULL`. -/
abbrev RBTreePredicate (K V : Type) := Option (Option K → Option V → Bool)

def accepts (filter : RBTreePredicate K V) (pair : Option K × Option V) : Bool :=
  match filter with
  | none => true
  | some f => f pair.1 pair.2

/-- The array after the node has been looked at. -/
def collectNode (t : RBTree K V) (filter : RBTreePredicate K V) (curr : ℕ) (nodes : List ℕ) : Option (List ℕ) :=
  if accepts filter (t.pair curr) then
    if nodes.length < t.size then some (nodes ++ [curr]) else none
  else some nodes

/-- The first loop: the array `nodes`, and the pairs that the filter was called with. -/
def collectNodes (t : RBTree K V) (filter : RBTreePredicate K V) :
    ℕ → ℕ → List ℕ → List (Option K × Option V) → Option (List ℕ × List (Option K × Option V))
  | 0, _, _, _ => none
  | fuel + 1, curr, nodes, calls =>
    if curr = t.nil then some (nodes, calls)
    else do
      let calls := if filter.isNone then calls else calls ++ [t.pair curr]
      let nodes ← collectNode t filter curr nodes
      let curr ← next t curr
      collectNodes t filter fuel curr nodes calls

/-- `node = nodes[i]; RBTreePut(copy, node->key, node->value);` -/
def putNode (fns : RBTreeFns K V) (t : RBTree K V) (nodes : List ℕ) (copy : RBTree K V) (i : ℕ) : Option (RBTree K V) := do
  let node ← nodes[i]?
  let (copy, _) ← rbTreePut fns copy (t.heap node).key (t.heap node).value
  return copy

/-- The body of the second loop. -/
def putBoth (fns : RBTreeFns K V) (t : RBTree K V) (nodes : List ℕ) (half : ℕ) (copy : RBTree K V) (i : ℕ) :
    Option (RBTree K V) := do
  let copy ← putNode fns t nodes copy (half + i)
  putNode fns t nodes copy (half - i - 1)

/-- The middle node of an odd count goes first; the count is then one less. -/
def putMiddle (fns : RBTreeFns K V) (t : RBTree K V) (nodes : List ℕ) : Option (RBTree K V × ℕ) :=
  if nodes.length % 2 ≠ 0 then
    (putNode fns t nodes rbTreeNew (nodes.length / 2)).map fun copy => (copy, nodes.length - 1)
  else some (rbTreeNew, nodes.length)

def putAll (fns : RBTreeFns K V) (t : RBTree K V) (nodes : List ℕ) : Option (RBTree K V) := do
  let (copy, nodeCount) ← putMiddle fns t nodes
  if nodeCount % 2 ≠ 0 then none
  else (List.range (nodeCount / 2)).foldlM (putBoth fns t nodes (nodeCount / 2)) copy

/-- The copy, and the pairs that the filter was called with. -/
def rbTreeCopy (fns : RBTreeFns K V) (t : RBTree K V) (filter : RBTreePredicate K V) :
    Option (RBTree K V × List (Option K × Option V)) := do
  let curr ← rbTreeIteratorNew t
  let (nodes, calls) ← collectNodes t filter t.fresh curr [] []
  let copy ← putAll fns t nodes
  if verifyTree copy then return (copy, calls) else none

/-- A pair as a put stores it. -/
def RBTreeFns.copied (fns : RBTreeFns K V) (pair : Option K × Option V) : Option K × Option V :=
  (fns.keyCopy pair.1, fns.valueCopy pair.2)

/-! ## RBTreeEqual -/

def equalLoop (fns : RBTreeFns K V) (valueCompare : Option V → Option V → ℤ) (a b : RBTree K V) :
    ℕ → ℕ → ℕ → Option Bool
  | 0, _, _ => none
  | fuel + 1, currA, currB =>
    match peek a currA with
    | none => some true
    | some (aKey, aVal) => do
      let currA ← next a currA
      match peek b currB with
      | none => some true
      | some (bKey, bVal) => do
        let currB ← next b currB
        if fns.keyCompare aKey bKey ≠ 0 ∨ valueCompare aVal bVal ≠ 0 then some false
        else equalLoop fns valueCompare a b fuel currA currB

/-- Two trees at different addresses with the same functions. -/
def rbTreeEqual (fns : RBTreeFns K V) (valueCompare : Option V → Option V → ℤ) (a b : RBTree K V) : Option Bool := do
  if rbTreeSize a ≠ rbTreeSize b then return false
  let currA ← rbTreeIteratorNew a
  let currB ← rbTreeIteratorNew b
  equalLoop fns valueCompare a b a.fresh currA currB

/-! ## Reachable trees -/

/-- The trees that the interface builds. -/
inductive RBTreeReachable (fns : RBTreeFns K V) : RBTree K V → Prop where
  | new : RBTreeReachable fns rbTreeNew
  | call {t t' : RBTree K V} {reply : RBTreeReply V} (call : RBTreeCall K V) : RBTreeReachable fns t →
      rbTreeStep fns t call = some (t', reply) → RBTreeReachable fns t'
  | copy {t t' : RBTree K V} {calls : List (Option K × Option V)} (filter : RBTreePredicate K V) :
      RBTreeReachable fns t → rbTreeCopy fns t filter = some (t', calls) → RBTreeReachable fns t'

end Libntech.Containers
