import Libntech.Lib.Simulation
import Libntech.Lib.Ring
import Mathlib.Algebra.Group.Nat.Defs

/-! # ThreadedQueue (`libutils/threaded_queue.c`)

Every call holds the queue's lock from its first to its last access, so a call is one atomic step of
the machine `queueStep` and an interleaving of threads is a list of calls. The only place where a call
gives the lock up is `ThreadWait`: a pop on an empty queue with a non-zero timeout stays blocked (the
step is `none`, it does not happen now) until the queue is non-empty, or gives up when the wait expires.
The condition variables carry no data and do not appear.

A step is also `none` when an `assert` of the source fails, when a push writes outside the block of the
cells, or when a loop of the source runs out of fuel. The blocks have the sizes that `size_t` makes of
the products; an allocation that fails ends the process.
`ItemDestroy` is the caller's function; the model lists the cells it is called on, in order.
-/
namespace Libntech.Threaded
open Lib
set_option autoImplicit false

variable {α : Type}

/-! ## Shared by the queue and the deque -/

def expandFactor : ℕ := 2
def defaultCapacity : ℕ := 16

/-- The pointers that there is room for in `sizeof(void *) * n` bytes; the product is a `size_t`. -/
def cellsOf (n : ℕ) : ℕ := 8 * n % 2 ^ 64 / 8

theorem cellsOf_eq {n : ℕ} (h : 8 * n < 2 ^ 64) : cellsOf n = n := by
  rw [cellsOf, Nat.mod_eq_of_lt h]
  omega

/-- How the wait at the head of a pop ends. -/
inductive Wait where
  | proceed
  | timedOut
  | blocked

/-- `if (size == 0 && timeout != 0) do { ThreadWait } while (size == 0)`; `expired` says that
`ThreadWait` returned non-zero. -/
def waitNonEmpty (size : ℕ) (timeout : ℤ) (expired : Bool) : Wait :=
  if size = 0 ∧ timeout ≠ 0 then
    if expired then .timedOut else .blocked
  else .proceed

/-- What a call gives back. `popped` carries `*item`, which a timed out pop leaves unwritten (`none`);
`poppedN` carries the array of an N-item pop; `cleared` lists the calls of `ItemDestroy`. -/
inductive Reply (α : Type) where
  | count (n : ℕ)
  | popped (ret : Bool) (item : Option (Option α))
  | poppedN (n : ℕ) (items : List (Option α))
  | cleared (calls : List (Option α))
  | clearedAndPushed (n : ℕ) (calls : List (Option α))
  | copied
  deriving DecidableEq

/-- The copying loop of the N-item pops: `n` turns from index `i` upwards. -/
def takeLoop (capacity : ℕ) : ℕ → List (Option α) → ℕ → List (Option α) × List (Option α) × ℕ
  | 0, data, i => ([], data, i)
  | n + 1, data, i =>
    let rest := takeLoop capacity n (data.set i none) ((i + 1) % capacity)
    (data.getD i none :: rest.1, rest.2)

/-! ## The queue -/

structure ThreadedQueue (α : Type) where
  /-- whether `ItemDestroy` is not `NULL` -/
  itemDestroy : Bool
  data : List (Option α)
  head : ℕ
  tail : ℕ
  size : ℕ
  capacity : ℕ
  deriving DecidableEq

def threadedQueueNew (initialCapacity : ℕ) (itemDestroy : Bool) : ThreadedQueue α :=
  let capacity := if initialCapacity = 0 then defaultCapacity else initialCapacity
  { itemDestroy, data := List.replicate (cellsOf capacity) none, head := 0, tail := 0, size := 0, capacity }

namespace ThreadedQueue

/-- The cells between `head` and `tail`, in queue order. -/
def contents (q : ThreadedQueue α) : List (Option α) :=
  (List.range q.size).map fun i => q.data.getD ((q.head + i) % q.capacity) none

def expandIfNecessary (q : ThreadedQueue α) : Option (ThreadedQueue α) :=
  if q.size ≤ q.capacity then
    let expanded :=
      if q.size = q.capacity then
        let capacity := q.capacity * expandFactor % 2 ^ 64
        let data := realloc q.data (cellsOf capacity)
        if q.tail ≤ q.head then
          if q.capacity + cellsOf q.tail ≤ data.length then
            some
              { q with
                capacity
                data := memmove data q.capacity 0 (cellsOf q.tail)
                tail := q.tail + q.capacity }
          else none
        else some { q with capacity, data }
      else some q
    expanded.map fun q => { q with tail := q.tail % q.capacity }
  else none

/-- `if (ItemDestroy != NULL) ItemDestroy(data[i])` -/
def destroyCall (q : ThreadedQueue α) (i : ℕ) : List (Option α) :=
  if q.itemDestroy then [q.data.getD i none] else []

/-- `for (; i != end; i++) { i %= capacity; ItemDestroy(data[i]); size--; }`: the size left and the
calls made. -/
def destroyLoop (q : ThreadedQueue α) (stop : ℕ) : ℕ → ℕ → ℕ → Option (ℕ × List (Option α))
  | 0, i, size => if i = stop then some (size, []) else none
  | fuel + 1, i, size =>
    if i = stop then some (size, [])
    else
      (destroyLoop q stop fuel (i % q.capacity + 1) (size - 1)).map fun r =>
        (r.1, q.destroyCall (i % q.capacity) ++ r.2)

def destroyRange (q : ThreadedQueue α) (start stop : ℕ) : Option (ThreadedQueue α × List (Option α)) :=
  if start > q.capacity ∨ stop > q.capacity then some (q, [])
  else if 0 < q.size then
    (q.destroyLoop stop q.capacity (start + 1) (q.size - 1)).map fun r =>
      ({ q with size := r.1 }, q.destroyCall start ++ r.2)
  else some (q, [])

/-- `ExpandIfNecessary(queue); data[tail++] = item; size++`, the body of `Push`, of each turn of
`PushN` and of the second half of `ClearAndPush`. -/
def append (q : ThreadedQueue α) (item : α) : Option (ThreadedQueue α) :=
  q.expandIfNecessary.bind fun q =>
    if q.tail < q.data.length then
      some { q with data := q.data.set q.tail (some item), tail := q.tail + 1, size := q.size + 1 }
    else none

def push (q : ThreadedQueue α) (item : α) : Option (Effect (ThreadedQueue α) (Reply α)) :=
  (q.append item).map fun q => .update q (.count q.size)

def pushN (q : ThreadedQueue α) (items : List α) : Option (Effect (ThreadedQueue α) (Reply α)) :=
  (items.foldlM append q).map fun q => .update q (.count q.size)

def pop (q : ThreadedQueue α) (timeout : ℤ) (expired : Bool) :
    Option (Effect (ThreadedQueue α) (Reply α)) :=
  match waitNonEmpty q.size timeout expired with
  | .blocked => none
  | .timedOut => some (.update q (.popped false none))
  | .proceed =>
    if 0 < q.size then
      some (.update
        { q with
          data := q.data.set q.head none
          head := (q.head + 1) % q.capacity
          size := q.size - 1 }
        (.popped true (some (q.data.getD q.head none))))
    else some (.update q (.popped false (some none)))

/-- `ThreadedQueuePopN` and `ThreadedQueuePopNIntoArray`, which differ only in who owns the array. -/
def popN (q : ThreadedQueue α) (num : ℕ) (timeout : ℤ) (expired : Bool) :
    Option (Effect (ThreadedQueue α) (Reply α)) :=
  match waitNonEmpty q.size timeout expired with
  | .blocked => none
  | .timedOut => some (.update q (.poppedN 0 []))
  | .proceed =>
    let size := if num < q.size then num else q.size
    if 0 < size then
      let r := takeLoop q.capacity size q.data q.head
      some (.update { q with data := r.2.1, head := r.2.2, size := q.size - size } (.poppedN size r.1))
    else some (.update q (.poppedN size []))

def count (q : ThreadedQueue α) : Option (Effect (ThreadedQueue α) (Reply α)) :=
  some (.update q (.count q.size))

def copy (q : ThreadedQueue α) : Option (Effect (ThreadedQueue α) (Reply α)) :=
  some { self := some q, spawned := some { q with data := q.data.take (cellsOf q.capacity) }, reply := .copied }

def clear (q : ThreadedQueue α) : Option (Effect (ThreadedQueue α) (Reply α)) := do
  let (q, calls) ← q.destroyRange q.head q.tail
  if q.size = 0 then some (.update { q with head := 0, tail := 0 } (.cleared calls)) else none

def clearAndPush (q : ThreadedQueue α) (item : α) : Option (Effect (ThreadedQueue α) (Reply α)) := do
  let (q, calls) ← q.destroyRange q.head q.tail
  let q ← { q with head := 0, tail := 0 }.append item
  if q.size = 1 then some (.update q (.clearedAndPushed q.size calls)) else none

def destroy (q : ThreadedQueue α) : Option (Effect (ThreadedQueue α) (Reply α)) := do
  let (_, calls) ← q.destroyRange q.head q.tail
  some { self := none, spawned := none, reply := .cleared calls }

end ThreadedQueue

/-- The calls on a queue. -/
inductive QueueCall (α : Type) where
  | push (item : α)
  | pushN (items : List α)
  | pop (timeout : ℤ) (expired : Bool)
  | popN (num : ℕ) (timeout : ℤ) (expired : Bool)
  | popNIntoArray (num : ℕ) (timeout : ℤ) (expired : Bool)
  | clear
  | clearAndPush (item : α)
  | copy
  | count
  | destroy

def queueStep (q : ThreadedQueue α) : QueueCall α → Option (Effect (ThreadedQueue α) (Reply α))
  | .push item => q.push item
  | .pushN items => q.pushN items
  | .pop timeout expired => q.pop timeout expired
  | .popN num timeout expired => q.popN num timeout expired
  | .popNIntoArray num timeout expired => q.popN num timeout expired
  | .clear => q.clear
  | .clearAndPush item => q.clearAndPush item
  | .copy => q.copy
  | .count => q.count
  | .destroy => q.destroy

end Libntech.Threaded
