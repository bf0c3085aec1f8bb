import Libntech.Threaded.Queue

/-! # ThreadedDeque (`libutils/threaded_deque.c`)

The same reading of locks, waits and replies as for the queue. Here `right` is wrapped after every push,
so a full deque and an empty one both have `left = right` and only `size` tells them apart.
`ThreadedDequeDestroy` is the one operation without the lock; no other thread may use the deque then.
-/
namespace Libntech.Threaded
open Lib
set_option autoImplicit false

variable {α : Type}

structure ThreadedDeque (α : Type) where
  /-- whether `ItemDestroy` is not `NULL` -/
  itemDestroy : Bool
  data : List (Option α)
  left : ℕ
  right : ℕ
  size : ℕ
  capacity : ℕ
  deriving DecidableEq

def threadedDequeNew (initialCapacity : ℕ) (itemDestroy : Bool) : ThreadedDeque α :=
  let capacity := if initialCapacity = 0 then defaultCapacity else initialCapacity
  { itemDestroy, data := List.replicate (cellsOf capacity) none, left := 0, right := 0, size := 0, capacity }

/-- The copying loop of `ThreadedDequePopRightN`: `n` turns from index `i` downwards. -/
def takeRightLoop (capacity : ℕ) : ℕ → List (Option α) → ℕ → List (Option α) × List (Option α) × ℕ
  | 0, data, i => ([], data, i)
  | n + 1, data, i =>
    let j := prevIndex capacity i
    let rest := takeRightLoop capacity n (data.set j none) j
    (data.getD j none :: rest.1, rest.2)

namespace ThreadedDeque

/-- The cells from `left` on, in deque order. -/
def contents (d : ThreadedDeque α) : List (Option α) :=
  (List.range d.size).map fun i => d.data.getD ((d.left + i) % d.capacity) none

def expandIfNecessary (d : ThreadedDeque α) : Option (ThreadedDeque α) :=
  if d.size ≤ d.capacity then
    if d.size = d.capacity then
      let capacity := d.capacity * expandFactor % 2 ^ 64
      let data := realloc d.data (cellsOf capacity)
      if d.right ≤ d.left then
        if d.capacity + cellsOf d.right ≤ data.length then
          some
            { d with
              capacity
              data := memmove data d.capacity 0 (cellsOf d.right)
              right := d.right + d.capacity }
        else none
      else some { d with capacity, data }
    else some d
  else none

/-- `do { ItemDestroy(data[start]); start++; start %= capacity; } while (start != end)` -/
def destroyLoop (d : ThreadedDeque α) (stop : ℕ) : ℕ → ℕ → Option (List (Option α))
  | 0, _ => none
  | fuel + 1, start =>
    let next := (start + 1) % d.capacity
    if next = stop then some [d.data.getD start none]
    else (d.destroyLoop stop fuel next).map (d.data.getD start none :: ·)

def destroyRange (d : ThreadedDeque α) (start stop : ℕ) : Option (List (Option α)) :=
  if start > d.capacity ∨ stop > d.capacity then some []
  else if d.itemDestroy ∧ 0 < d.size then d.destroyLoop stop d.capacity start
  else some []

def pushLeft (d : ThreadedDeque α) (item : α) : Option (Effect (ThreadedDeque α) (Reply α)) :=
  d.expandIfNecessary.bind fun d =>
    let left := prevIndex d.capacity d.left
    if left < d.data.length then
      let d := { d with left, data := d.data.set left (some item), size := d.size + 1 }
      some (.update d (.count d.size))
    else none

def pushRight (d : ThreadedDeque α) (item : α) : Option (Effect (ThreadedDeque α) (Reply α)) :=
  d.expandIfNecessary.bind fun d =>
    if d.right < d.data.length then
      let d :=
        { d with
          data := d.data.set d.right (some item)
          right := (d.right + 1) % d.capacity
          size := d.size + 1 }
      some (.update d (.count d.size))
    else none

def popLeft (d : ThreadedDeque α) (timeout : ℤ) (expired : Bool) :
    Option (Effect (ThreadedDeque α) (Reply α)) :=
  match waitNonEmpty d.size timeout expired with
  | .blocked => none
  | .timedOut => some (.update d (.popped false none))
  | .proceed =>
    if 0 < d.size then
      some (.update
        { d with
          data := d.data.set d.left none
          left := (d.left + 1) % d.capacity
          size := d.size - 1 }
        (.popped true (some (d.data.getD d.left none))))
    else some (.update d (.popped false (some none)))

def popRight (d : ThreadedDeque α) (timeout : ℤ) (expired : Bool) :
    Option (Effect (ThreadedDeque α) (Reply α)) :=
  match waitNonEmpty d.size timeout expired with
  | .blocked => none
  | .timedOut => some (.update d (.popped false none))
  | .proceed =>
    if 0 < d.size then
      let right := prevIndex d.capacity d.right
      some (.update { d with data := d.data.set right none, right, size := d.size - 1 }
        (.popped true (some (d.data.getD right none))))
    else some (.update d (.popped false (some none)))

def popLeftN (d : ThreadedDeque α) (num : ℕ) (timeout : ℤ) (expired : Bool) :
    Option (Effect (ThreadedDeque α) (Reply α)) :=
  match waitNonEmpty d.size timeout expired with
  | .blocked => none
  | .timedOut => some (.update d (.poppedN 0 []))
  | .proceed =>
    let size := if num < d.size then num else d.size
    if 0 < size then
      let r := takeLoop d.capacity size d.data d.left
      some (.update { d with data := r.2.1, left := r.2.2, size := d.size - size } (.poppedN size r.1))
    else some (.update d (.poppedN size []))

def popRightN (d : ThreadedDeque α) (num : ℕ) (timeout : ℤ) (expired : Bool) :
    Option (Effect (ThreadedDeque α) (Reply α)) :=
  match waitNonEmpty d.size timeout expired with
  | .blocked => none
  | .timedOut => some (.update d (.poppedN 0 []))
  | .proceed =>
    let size := if num < d.size then num else d.size
    if 0 < size then
      let r := takeRightLoop d.capacity size d.data d.right
      some (.update { d with data := r.2.1, right := r.2.2, size := d.size - size } (.poppedN size r.1))
    else some (.update d (.poppedN size []))

def count (d : ThreadedDeque α) : Option (Effect (ThreadedDeque α) (Reply α)) :=
  some (.update d (.count d.size))

def copy (d : ThreadedDeque α) : Option (Effect (ThreadedDeque α) (Reply α)) :=
  some { self := some d, spawned := some { d with data := d.data.take (cellsOf d.capacity) }, reply := .copied }

def destroy (d : ThreadedDeque α) : Option (Effect (ThreadedDeque α) (Reply α)) :=
  (d.destroyRange d.left d.right).map fun calls =>
    { self := none, spawned := none, reply := .cleared calls }

end ThreadedDeque

/-- The calls on a deque. -/
inductive DequeCall (α : Type) where
  | pushLeft (item : α)
  | pushRight (item : α)
  | popLeft (timeout : ℤ) (expired : Bool)
  | popRight (timeout : ℤ) (expired : Bool)
  | popLeftN (num : ℕ) (timeout : ℤ) (expired : Bool)
  | popRightN (num : ℕ) (timeout : ℤ) (expired : Bool)
  | copy
  | count
  | destroy

def dequeStep (d : ThreadedDeque α) : DequeCall α → Option (Effect (ThreadedDeque α) (Reply α))
  | .pushLeft item => d.pushLeft item
  | .pushRight item => d.pushRight item
  | .popLeft timeout expired => d.popLeft timeout expired
  | .popRight timeout expired => d.popRight timeout expired
  | .popLeftN num timeout expired => d.popLeftN num timeout expired
  | .popRightN num timeout expired => d.popRightN num timeout expired
  | .copy => d.copy
  | .count => d.count
  | .destroy => d.destroy

end Libntech.Threaded
