import Libntech.Lib.DoublyLinked
import Mathlib.Algebra.Group.Nat.Defs
import Mathlib.Data.Int.Notation

/-! # List (`libutils/list.c`, `libutils/refcount.c`)

Nodes, lists, reference counts and iterators live in one memory and are addressed by numbers; `fresh` is the next
address `xmalloc` gives out, and no address is given out twice. What has been freed is `none`, and an operation
that uses it is `none`, as is one that fails an assertion, counts out of the range of `int` or hands `NULL` to the
comparison function, which may assume that it never gets it.

A payload is an address with the value there. The copy function makes a new element with the same value. What
memory holds before it is written is the parameter `junk`. A comparison is true where the source's function returns
zero. Payloads that a list disposes of are left alone.
-/
namespace Libntech.Containers.LinkedList
open Lib Lib.Chain
set_option autoImplicit false

variable {α : Type}

abbrev Payload (α : Type) := Option (ℕ × α)

structure SharedList where
  nodeCount : ℤ
  state : UInt32
  list : Option ℕ
  first : Option ℕ
  last : Option ℕ
  refCount : ℕ
  iterator : Option ℕ

structure ListIterator where
  current : Option ℕ
  origin : ℕ
  state : UInt32

structure ListMutableIterator where
  valid : Bool
  current : Option ℕ
  origin : ℕ

/-- The functions of a family of lists; `none` and `false` are `NULL`. -/
structure ListFns (α : Type) where
  compare : Option (α → α → Bool)
  copy : Bool

structure Memory (α : Type) where
  nodes : ℕ → Option (Node (Payload α))
  lists : ℕ → Option SharedList
  refCounts : ℕ → Option (List ℕ)
  iterators : ℕ → Option ListIterator
  mutableIterators : ℕ → Option ListMutableIterator
  fresh : ℕ

def Memory.empty : Memory α :=
  { nodes := fun _ => none, lists := fun _ => none, refCounts := fun _ => none, iterators := fun _ => none
    mutableIterators := fun _ => none, fresh := 0 }

namespace Memory

def setList (m : Memory α) (l : ℕ) (list : SharedList) : Memory α :=
  { m with lists := Function.update m.lists l (some list) }

def setIterator (m : Memory α) (i : ℕ) (iterator : ListIterator) : Memory α :=
  { m with iterators := Function.update m.iterators i (some iterator) }

def setMutableIterator (m : Memory α) (i : ℕ) (iterator : ListMutableIterator) : Memory α :=
  { m with mutableIterators := Function.update m.mutableIterators i (some iterator) }

/-- `a->next = v` -/
def storeNext (m : Memory α) (a : ℕ) (v : Option ℕ) : Option (Memory α) := do
  let _ ← m.nodes a
  return { m with nodes := setNext m.nodes a v }

/-- `a->previous = v` -/
def storePrevious (m : Memory α) (a : ℕ) (v : Option ℕ) : Option (Memory α) := do
  let _ ← m.nodes a
  return { m with nodes := setPrevious m.nodes a v }

/-- A new node. -/
def newNode (m : Memory α) (payload : Payload α) (next previous : Option ℕ) : ℕ × Memory α :=
  (m.fresh, { m with nodes := Function.update m.nodes m.fresh (some ⟨payload, next, previous⟩), fresh := m.fresh + 1 })

def freeNode (m : Memory α) (a : ℕ) : Memory α := { m with nodes := Function.update m.nodes a none }

end Memory

/-! ## RefCount -/

/-- `user_count`, an `unsigned int` that is counted up and down with the list of the users. -/
def userCount (users : List ℕ) : ℕ := users.length % 2 ^ 32

def refCountNew (m : Memory α) : ℕ × Memory α :=
  (m.fresh, { m with refCounts := Function.update m.refCounts m.fresh (some []), fresh := m.fresh + 1 })

def refCountAttach (m : Memory α) (ref owner : ℕ) : Option (Memory α) := do
  let users ← m.refCounts ref
  return { m with refCounts := Function.update m.refCounts ref (some (users ++ [owner])) }

def refCountDetach (m : Memory α) (ref owner : ℕ) : Option (Memory α) := do
  let users ← m.refCounts ref
  if userCount users ≤ 1 then some m
  else if owner ∈ users then some { m with refCounts := Function.update m.refCounts ref (some (users.erase owner)) }
  else none

def refCountDestroy (m : Memory α) (ref : ℕ) : Option (Memory α) := do
  let users ← m.refCounts ref
  if userCount users ≤ 1 then some { m with refCounts := Function.update m.refCounts ref none } else none

def refCountIsShared (m : Memory α) (ref : ℕ) : Option Bool :=
  (m.refCounts ref).map fun users => decide (1 < userCount users)

/-! ## ListDetach -/

/-- The copy of a payload for the new node at `a`; `NULL` is not written to it. -/
def copyPayload (junk : ℕ → Payload α) (a : ℕ) : Payload α → Payload α
  | none => junk a
  | some (_, value) => some (a + 1, value)

/-- A new last node, with a copy of the payload. -/
def copyNode (junk : ℕ → Payload α) (m : Memory α) (payload : Payload α) (previous : Option ℕ) : ℕ × Memory α :=
  (m.fresh,
    { m with
      nodes := Function.update m.nodes m.fresh (some ⟨copyPayload junk m.fresh payload, none, previous⟩)
      fresh := m.fresh + 2 })

/-- The loop of `ListDetach`: what is copied so far begins at `newList` and ends at `q`. -/
def detachLoop (junk : ℕ → Payload α) :
    ℕ → Memory α → Option ℕ → Option (ℕ × ℕ) → Option (Memory α × Option (ℕ × ℕ))
  | _, m, none, copied => some (m, copied)
  | 0, _, some _, _ => none
  | fuel + 1, m, some p, some (newList, q) => do
    let node ← m.nodes p
    let (a, m) := copyNode junk m node.payload (some q)
    let m ← m.storeNext q (some a)
    detachLoop junk fuel m node.next (some (newList, a))
  | fuel + 1, m, some p, none => do
    let node ← m.nodes p
    let (a, m) := copyNode junk m node.payload none
    detachLoop junk fuel m node.next (some (a, a))

/-- Detaching a list that shares its nodes. -/
def detachShared (junk : ℕ → Payload α) (m : Memory α) (l : ℕ) (list : SharedList) : Option (Memory α) := do
  let (m, copied) ← detachLoop junk m.fresh m list.list none
  let m ← refCountDetach m list.refCount l
  let (ref, m) := refCountNew m
  let m := m.setList l
    { list with list := copied.map Prod.fst, first := copied.map Prod.fst, last := copied.map Prod.snd, refCount := ref }
  refCountAttach m ref l

def listDetach (junk : ℕ → Payload α) (m : Memory α) (l : ℕ) : Option (Memory α) := do
  let list ← m.lists l
  let shared ← refCountIsShared m list.refCount
  if shared then detachShared junk m l list else some m

/-! ## ListNew, ListDestroy, ListCopy -/

def listNew (m : Memory α) : Option (Memory α × ℕ) := do
  let l := m.fresh
  let (ref, m) := refCountNew { m with fresh := m.fresh + 1 }
  let m := m.setList l
    { nodeCount := 0, state := 0, list := none, first := none, last := none, refCount := ref, iterator := none }
  let m ← refCountAttach m ref l
  return (m, l)

/-- The loop of `ListDestroy`. -/
def freeNodes : ℕ → Memory α → Option ℕ → Option (Memory α)
  | _, m, none => some m
  | 0, _, some _ => none
  | fuel + 1, m, some a => do
    let node ← m.nodes a
    freeNodes fuel (m.freeNode a) node.next

/-- The only user frees the nodes and the count. -/
def destroyOnly (m : Memory α) (list : SharedList) : Option (Memory α) := do
  let m ← freeNodes m.fresh m list.first
  refCountDestroy m list.refCount

def listDestroy (m : Memory α) (l : ℕ) : Option (Memory α) := do
  let list ← m.lists l
  let shared ← refCountIsShared m list.refCount
  let m ← bif shared then refCountDetach m list.refCount l else destroyOnly m list
  return { m with lists := Function.update m.lists l none }

/-- `none` as a list is the result `-1`. -/
def listCopy (fns : ListFns α) (m : Memory α) (l : ℕ) : Option (Memory α × Option ℕ) := do
  let origin ← m.lists l
  if fns.copy then do
    let destination := m.fresh
    let m := { m with fresh := m.fresh + 1 }
    let m ← refCountAttach m origin.refCount destination
    return (m.setList destination { origin with iterator := none }, some destination)
  else return (m, none)

/-! ## ListPrepend, ListAppend -/

/-- `node_count++` -/
def countUp (nodeCount : ℤ) : Option ℤ := if nodeCount < 2147483647 then some (nodeCount + 1) else none

/-- `node_count--` -/
def countDown (nodeCount : ℤ) : Option ℤ := if -2147483648 < nodeCount then some (nodeCount - 1) else none

def listPrepend (junk : ℕ → Payload α) (m : Memory α) (l : ℕ) (payload : Payload α) : Option (Memory α) := do
  let m ← listDetach junk m l
  let list ← m.lists l
  let nodeCount ← countUp list.nodeCount
  let (node, m) := m.newNode payload list.list none
  match list.list with
  | some first => do
    let m ← m.storePrevious first (some node)
    return m.setList l { list with list := some node, first := some node, nodeCount := nodeCount }
  | none =>
    return m.setList l { list with list := some node, first := some node, last := some node, nodeCount := nodeCount }

def listAppend (junk : ℕ → Payload α) (m : Memory α) (l : ℕ) (payload : Payload α) : Option (Memory α) := do
  let m ← listDetach junk m l
  let list ← m.lists l
  let nodeCount ← countUp list.nodeCount
  let (node, m) := m.newNode payload none list.last
  match list.last with
  | some last => do
    let m ← m.storeNext last (some node)
    return m.setList l { list with last := some node, nodeCount := nodeCount }
  | none =>
    return m.setList l { list with list := some node, first := some node, last := some node, nodeCount := nodeCount }

/-! ## ListRemove -/

/-- Whether a payload is the one to remove. -/
def isMatch (fns : ListFns α) (payload : ℕ × α) (p : Payload α) : Option Bool :=
  match fns.compare with
  | some compare => p.map fun q => compare q.2 payload.2
  | none => some (decide (p.map Prod.fst = some payload.1))

def listFindNode (fns : ListFns α) (m : Memory α) (payload : ℕ × α) : ℕ → Option ℕ → Option Bool
  | _, none => some false
  | 0, some _ => none
  | fuel + 1, some a => do
    let node ← m.nodes a
    if node.payload.isNone then listFindNode fns m payload fuel node.next
    else do
      let found ← isMatch fns payload node.payload
      if found then return true else listFindNode fns m payload fuel node.next

/-- The second search, which does not skip `NULL`; there is no node to return at the end of the list. -/
def findAgain (fns : ListFns α) (m : Memory α) (payload : ℕ × α) : ℕ → Option ℕ → Option ℕ
  | _, none => none
  | 0, some _ => none
  | fuel + 1, some a => do
    let node ← m.nodes a
    let found ← isMatch fns payload node.payload
    if found then return a else findAgain fns m payload fuel node.next

/-- Removing a node from the chain of its list. -/
def unlinkNode (m : Memory α) (l : ℕ) (node : Node (Payload α)) : Option (Memory α) := do
  let list ← m.lists l
  match node.next, node.previous with
  | some next, some previous => do
    let m ← m.storePrevious next (some previous)
    m.storeNext previous (some next)
  | some next, none => (m.setList l { list with list := some next, first := some next }).storePrevious next none
  | none, some previous => (m.setList l { list with last := some previous }).storeNext previous none
  | none, none => return m.setList l { list with list := none, first := none, last := none }

def listUpdateListState (m : Memory α) (l : ℕ) : Option (Memory α) := do
  let list ← m.lists l
  let nodeCount ← countDown list.nodeCount
  return m.setList l { list with nodeCount := nodeCount, state := list.state + 1 }

/-- The mutable iterator moves off the node that is removed. -/
def moveIterator (m : Memory α) (list : SharedList) (a : ℕ) (node : Node (Payload α)) : Option (Memory α) :=
  match list.iterator with
  | none => some m
  | some i => do
    let iterator ← m.mutableIterators i
    if iterator.current = some a then
      match node.next, node.previous with
      | some next, _ => return m.setMutableIterator i { iterator with current := some next }
      | none, some previous => return m.setMutableIterator i { iterator with current := some previous }
      | none, none => return m.setMutableIterator i { iterator with valid := false }
    else some m

/-- The rest of `ListRemove`, when the list has nodes of its own. -/
def removeAgain (fns : ListFns α) (m : Memory α) (l : ℕ) (payload : ℕ × α) : Option (Memory α) := do
  let list ← m.lists l
  let a ← findAgain fns m payload m.fresh list.list
  let node ← m.nodes a
  let m ← moveIterator m list a node
  let m ← unlinkNode m l node
  listUpdateListState (m.freeNode a) l

/-- `false` is the result `-1`. -/
def listRemove (fns : ListFns α) (junk : ℕ → Payload α) (m : Memory α) (l : ℕ) (payload : Payload α) :
    Option (Memory α × Bool) :=
  match payload with
  | none => some (m, false)
  | some payload => do
    let list ← m.lists l
    let found ← listFindNode fns m payload m.fresh list.list
    if found then do
      let m ← listDetach junk m l
      let m ← removeAgain fns m l payload
      return (m, true)
    else return (m, false)

/-! ## ListIterator -/

/-- `none` as an iterator is `NULL`. -/
def listIteratorGet (m : Memory α) (l : ℕ) : Option (Memory α × Option ℕ) := do
  let list ← m.lists l
  if list.first.isNone then return (m, none)
  else
    return ({ m.setIterator m.fresh { current := list.list, origin := l, state := list.state } with fresh := m.fresh + 1 },
      some m.fresh)

def listIteratorDestroy (m : Memory α) (i : ℕ) : Memory α :=
  { m with iterators := Function.update m.iterators i none }

inductive End where
  | first
  | last

inductive Way where
  | next
  | previous

def SharedList.atEnd (list : SharedList) : End → Option ℕ
  | .first => list.first
  | .last => list.last

def linkOf (node : Node (Payload α)) : Way → Option ℕ
  | .next => node.next
  | .previous => node.previous

/-- `ListIteratorFirst` and `ListIteratorLast`; `false` is the result `-1`. -/
def iteratorToEnd (e : End) (m : Memory α) (i : ℕ) : Option (Memory α × Bool) := do
  let iterator ← m.iterators i
  let list ← m.lists iterator.origin
  if iterator.state ≠ list.state then return (m, false)
  else return (m.setIterator i { iterator with current := list.atEnd e }, true)

def listIteratorFirst (m : Memory α) (i : ℕ) : Option (Memory α × Bool) := iteratorToEnd .first m i

def listIteratorLast (m : Memory α) (i : ℕ) : Option (Memory α × Bool) := iteratorToEnd .last m i

/-- `ListIteratorNext` and `ListIteratorPrevious` -/
def iteratorGo (w : Way) (m : Memory α) (i : ℕ) : Option (Memory α × Bool) := do
  let iterator ← m.iterators i
  let list ← m.lists iterator.origin
  if iterator.state ≠ list.state then return (m, false)
  else
    match iterator.current with
    | none => return (m, false)
    | some current => do
      let node ← m.nodes current
      if (linkOf node w).isNone then return (m, false)
      else return (m.setIterator i { iterator with current := linkOf node w }, true)

def listIteratorNext (m : Memory α) (i : ℕ) : Option (Memory α × Bool) := iteratorGo .next m i

def listIteratorPrevious (m : Memory α) (i : ℕ) : Option (Memory α × Bool) := iteratorGo .previous m i

/-- What an iterator that is accepted reads of its node; the outer `none` also stands for `iterator->current`
that is `NULL` or freed. -/
def iteratorRead {β : Type} (read : Node (Payload α) → β) (refused : β) (m : Memory α) (i : ℕ) : Option β := do
  let iterator ← m.iterators i
  let list ← m.lists iterator.origin
  if iterator.state ≠ list.state then return refused
  else do
    let current ← iterator.current
    let node ← m.nodes current
    return read node

def listIteratorData (m : Memory α) (i : ℕ) : Option (Payload α) := iteratorRead Node.payload none m i

def listIteratorHasNext (m : Memory α) (i : ℕ) : Option Bool := iteratorRead (fun node => node.next.isSome) false m i

def listIteratorHasPrevious (m : Memory α) (i : ℕ) : Option Bool :=
  iteratorRead (fun node => node.previous.isSome) false m i

/-! ## ListMutableIterator -/

def listMutableIteratorGet (m : Memory α) (l : ℕ) : Option (Memory α × Option ℕ) := do
  let list ← m.lists l
  if list.iterator.isSome || list.first.isNone then return (m, none)
  else
    let m' := m.setMutableIterator m.fresh { valid := true, current := list.first, origin := l }
    return ({ m'.setList l { list with iterator := some m.fresh } with fresh := m.fresh + 1 }, some m.fresh)

def listMutableIteratorRelease (m : Memory α) (i : ℕ) : Option (Memory α) := do
  let iterator ← m.mutableIterators i
  let list ← m.lists iterator.origin
  let m := m.setList iterator.origin { list with iterator := none }
  return { m with mutableIterators := Function.update m.mutableIterators i none }

/-- `ListMutableIteratorFirst` and `ListMutableIteratorLast` -/
def mutableToEnd (e : End) (m : Memory α) (i : ℕ) : Option (Memory α × Bool) := do
  let iterator ← m.mutableIterators i
  if iterator.valid then do
    let list ← m.lists iterator.origin
    return (m.setMutableIterator i { iterator with current := list.atEnd e }, true)
  else return (m, false)

def listMutableIteratorFirst (m : Memory α) (i : ℕ) : Option (Memory α × Bool) := mutableToEnd .first m i

def listMutableIteratorLast (m : Memory α) (i : ℕ) : Option (Memory α × Bool) := mutableToEnd .last m i

/-- `ListMutableIteratorNext` and `ListMutableIteratorPrevious` -/
def mutableGo (w : Way) (m : Memory α) (i : ℕ) : Option (Memory α × Bool) := do
  let iterator ← m.mutableIterators i
  if iterator.valid then do
    let current ← iterator.current
    let node ← m.nodes current
    if (linkOf node w).isNone then return (m, false)
    else return (m.setMutableIterator i { iterator with current := linkOf node w }, true)
  else return (m, false)

def listMutableIteratorNext (m : Memory α) (i : ℕ) : Option (Memory α × Bool) := mutableGo .next m i

def listMutableIteratorPrevious (m : Memory α) (i : ℕ) : Option (Memory α × Bool) := mutableGo .previous m i

def listMutableIteratorData (m : Memory α) (i : ℕ) : Option (Payload α) := do
  let iterator ← m.mutableIterators i
  if iterator.valid then do
    let current ← iterator.current
    let node ← m.nodes current
    return node.payload
  else return none

/-- `ListMutableIteratorHasNext` and `ListMutableIteratorHasPrevious` do not look at `valid`. -/
def mutableHas (w : Way) (m : Memory α) (i : ℕ) : Option Bool := do
  let iterator ← m.mutableIterators i
  let current ← iterator.current
  let node ← m.nodes current
  return (linkOf node w).isSome

def listMutableIteratorHasNext (m : Memory α) (i : ℕ) : Option Bool := mutableHas .next m i

def listMutableIteratorHasPrevious (m : Memory α) (i : ℕ) : Option Bool := mutableHas .previous m i

def listMutableIteratorRemove (junk : ℕ → Payload α) (m : Memory α) (i : ℕ) : Option (Memory α × Bool) := do
  let iterator ← m.mutableIterators i
  if iterator.valid then do
    let m ← listDetach junk m iterator.origin
    let current ← iterator.current
    let node ← m.nodes current
    -- the next node, or the previous one behind the last
    match node.next.or node.previous with
    | none => return (m, false)
    | some target => do
      let m ← unlinkNode m iterator.origin node
      let m := (m.freeNode current).setMutableIterator i { iterator with current := some target }
      let m ← listUpdateListState m iterator.origin
      return (m, true)
  else return (m, false)

def listMutableIteratorPrepend (junk : ℕ → Payload α) (m : Memory α) (i : ℕ) (payload : Payload α) :
    Option (Memory α × Bool) := do
  let iterator ← m.mutableIterators i
  if iterator.valid then do
    let m ← listDetach junk m iterator.origin
    let current ← iterator.current
    let at' ← m.nodes current
    let list ← m.lists iterator.origin
    let nodeCount ← countUp list.nodeCount
    let (node, m) := m.newNode payload (some current) at'.previous
    match at'.previous with
    | some previous => do
      let m ← m.storeNext previous (some node)
      let m ← m.storePrevious current (some node)
      return (m.setList iterator.origin { list with nodeCount := nodeCount }, true)
    | none => do
      let m ← m.storePrevious current (some node)
      return (m.setList iterator.origin
        { list with first := some node, list := some node, nodeCount := nodeCount }, true)
  else return (m, false)

def listMutableIteratorAppend (junk : ℕ → Payload α) (m : Memory α) (i : ℕ) (payload : Payload α) :
    Option (Memory α × Bool) := do
  let iterator ← m.mutableIterators i
  if iterator.valid then do
    let m ← listDetach junk m iterator.origin
    let current ← iterator.current
    let at' ← m.nodes current
    let list ← m.lists iterator.origin
    let nodeCount ← countUp list.nodeCount
    let (node, m) := m.newNode payload at'.next (some current)
    match at'.next with
    | some next => do
      let m ← m.storePrevious next (some node)
      let m ← m.storeNext current (some node)
      return (m.setList iterator.origin { list with nodeCount := nodeCount }, true)
    | none => do
      let m ← m.storeNext current (some node)
      return (m.setList iterator.origin { list with last := some node, nodeCount := nodeCount }, true)
  else return (m, false)

/-! ## Calls -/

inductive Call (α : Type) where
  | new
  | destroy (l : ℕ)
  | copy (l : ℕ)
  | prepend (l : ℕ) (payload : Payload α)
  | append (l : ℕ) (payload : Payload α)
  | remove (l : ℕ) (payload : Payload α)
  | count (l : ℕ)
  | iteratorGet (l : ℕ)
  | iteratorDestroy (i : ℕ)
  | iteratorToEnd (e : End) (i : ℕ)
  | iteratorGo (w : Way) (i : ℕ)
  | iteratorData (i : ℕ)
  | iteratorHas (w : Way) (i : ℕ)
  | mutableGet (l : ℕ)
  | mutableRelease (i : ℕ)
  | mutableToEnd (e : End) (i : ℕ)
  | mutableGo (w : Way) (i : ℕ)
  | mutableData (i : ℕ)
  | mutableHas (w : Way) (i : ℕ)
  | mutableRemove (i : ℕ)
  | mutablePrepend (i : ℕ) (payload : Payload α)
  | mutableAppend (i : ℕ) (payload : Payload α)

/-- `done` stands for the result `0`, or `-1` if it is false. -/
inductive Reply (α : Type) where
  | done (b : Bool)
  | address (a : Option ℕ)
  | count (n : ℤ)
  | payload (p : Payload α)
  | flag (b : Bool)

def step (fns : ListFns α) (junk : ℕ → Payload α) (m : Memory α) : Call α → Option (Memory α × Reply α)
  | .new => (listNew m).map fun r => (r.1, .address (some r.2))
  | .destroy l => (listDestroy m l).map fun m => (m, .done true)
  | .copy l => (listCopy fns m l).map fun r => (r.1, .address r.2)
  | .prepend l payload => (listPrepend junk m l payload).map fun m => (m, .done true)
  | .append l payload => (listAppend junk m l payload).map fun m => (m, .done true)
  | .remove l payload => (listRemove fns junk m l payload).map fun r => (r.1, .done r.2)
  | .count l => (m.lists l).map fun list => (m, .count list.nodeCount)
  | .iteratorGet l => (listIteratorGet m l).map fun r => (r.1, .address r.2)
  | .iteratorDestroy i => some (listIteratorDestroy m i, .done true)
  | .iteratorToEnd e i => (iteratorToEnd e m i).map fun r => (r.1, .done r.2)
  | .iteratorGo w i => (iteratorGo w m i).map fun r => (r.1, .done r.2)
  | .iteratorData i => (listIteratorData m i).map fun p => (m, .payload p)
  | .iteratorHas w i => (iteratorRead (fun node => (linkOf node w).isSome) false m i).map fun b => (m, .flag b)
  | .mutableGet l => (listMutableIteratorGet m l).map fun r => (r.1, .address r.2)
  | .mutableRelease i => (listMutableIteratorRelease m i).map fun m => (m, .done true)
  | .mutableToEnd e i => (mutableToEnd e m i).map fun r => (r.1, .done r.2)
  | .mutableGo w i => (mutableGo w m i).map fun r => (r.1, .done r.2)
  | .mutableData i => (listMutableIteratorData m i).map fun p => (m, .payload p)
  | .mutableHas w i => (mutableHas w m i).map fun b => (m, .flag b)
  | .mutableRemove i => (listMutableIteratorRemove junk m i).map fun r => (r.1, .done r.2)
  | .mutablePrepend i payload => (listMutableIteratorPrepend junk m i payload).map fun r => (r.1, .done r.2)
  | .mutableAppend i payload => (listMutableIteratorAppend junk m i payload).map fun r => (r.1, .done r.2)

/-- The memories that a run reaches whose calls are all permitted. -/
inductive Reaches (fns : ListFns α) (junk : ℕ → Payload α) (Permitted : Memory α → Call α → Prop) : Memory α → Prop where
  | start : Reaches fns junk Permitted Memory.empty
  | step {m m' : Memory α} {reply : Reply α} (call : Call α) : Reaches fns junk Permitted m → Permitted m call →
      step fns junk m call = some (m', reply) → Reaches fns junk Permitted m'

/-- The memory after some calls. -/
def run (fns : ListFns α) (junk : ℕ → Payload α) (m : Memory α) : List (Call α) → Option (Memory α)
  | [] => some m
  | call :: calls => do
    let (m, _) ← step fns junk m call
    run fns junk m calls

theorem Reaches.run {fns : ListFns α} {junk : ℕ → Payload α} {calls : List (Call α)} {m m' : Memory α}
    (h : Reaches fns junk (fun _ _ => True) m) (hrun : run fns junk m calls = some m') :
    Reaches fns junk (fun _ _ => True) m' := by
  induction calls generalizing m with
  | nil =>
    cases hrun
    exact h
  | cons call calls ih =>
    obtain ⟨r, hstep, hrest⟩ := Option.bind_eq_some_iff.mp hrun
    exact ih (.step call h trivial hstep) hrest

/-- Whether a list shares its nodes with another one. -/
def Shared (m : Memory α) (l : ℕ) : Prop :=
  ∃ list users, m.lists l = some list ∧ m.refCounts list.refCount = some users ∧ 1 < users.length

/-! ## What a list shows -/

/-- The nodes and payloads from `o` on. -/
def walk (m : Memory α) : ℕ → Option ℕ → Option (List (ℕ × Payload α))
  | _, none => some []
  | 0, some _ => none
  | fuel + 1, some a => do
    let node ← m.nodes a
    let rest ← walk m fuel node.next
    return (a, node.payload) :: rest

/-- The chain of a list. -/
def chainOf (m : Memory α) (l : ℕ) : Option (List (ℕ × Payload α)) := do
  let list ← m.lists l
  walk m m.fresh list.first

/-- The payloads that a list shows, in their order. -/
def elements (m : Memory α) (l : ℕ) : Option (List (Payload α)) := (chainOf m l).map (List.map Prod.snd)

/-- The values of payloads, wherever they are. -/
def values (items : List (Payload α)) : List (Option α) := items.map (Option.map Prod.snd)

end Libntech.Containers.LinkedList
