import Libntech.Containers.SequenceSearch
import Libntech.Lib.Simulation

/-! # Ownership of items in a `Seq` (`libutils/sequence.c`)

`data` are the `capacity` cells of the array; the first `length` of them are in use, the others keep what was last in them.
An item is a pointer, `none` is `NULL`. Every operation replies with the items that `ItemDestroy` is called on, in order.
`none` as an effect is a failed assertion, an access outside the array, or a call of `ItemDestroy` that is `NULL`.
-/
namespace Libntech.Containers
open Lib
set_option autoImplicit false

variable {α : Type}

structure Seq (α : Type) where
  data : List (Option α)
  length : ℕ
  /-- Whether `ItemDestroy` is not `NULL`. -/
  itemDestroy : Bool

def seqNew (initialCapacity : ℕ) (itemDestroy : Bool) : Seq α :=
  ⟨List.replicate (if initialCapacity ≤ 0 then 1 else initialCapacity) none, 0, itemDestroy⟩

/-- `data[index] = item` -/
def setItem (data : List (Option α)) (index : ℤ) (item : Option α) : Option (List (Option α)) :=
  if 0 ≤ index ∧ index < data.length then some (data.set index.toNat item) else none

/-- `memmove(data + dest, data + origin, count)`, towards the front. -/
def memmoveItems (data : List (Option α)) (dest origin count : ℕ) : Option (List (Option α)) :=
  if origin + count ≤ data.length then
    some (data.take dest ++ (data.drop origin).take count ++ data.drop (dest + count))
  else none

namespace Seq

def capacity (seq : Seq α) : ℕ := seq.data.length

def items (seq : Seq α) : List (Option α) := seq.data.take seq.length

/-- The loop of `DestroyRange` over `count` items from `i` on. -/
def destroyLoop (seq : Seq α) : ℕ → ℕ → Option (List (Option α))
  | 0, _ => some []
  | count + 1, i => do
    let item ← seq.data[i]?
    let rest ← destroyLoop seq count (i + 1)
    return item :: rest

def destroyRange (seq : Seq α) (start stop : ℕ) : Option (List (Option α)) :=
  if seq.itemDestroy then seq.destroyLoop (stop + 1 - start) start else some []

def expandIfNecessary (seq : Seq α) : Option (Seq α) :=
  if seq.capacity < seq.length then none
  else if seq.length = seq.capacity then
    some { seq with data := seq.data ++ List.replicate seq.capacity none }
  else some seq

def append (seq : Seq α) (item : Option α) : Option (Seq α) := do
  let seq ← seq.expandIfNecessary
  let data ← setItem seq.data seq.length item
  return { seq with data, length := seq.length + 1 }

def appendOnce (seq : Seq α) (item : Option α) (Compare : Option α → Option α → ℤ) :
    Option (Effect (Seq α) (List (Option α))) :=
  match seqLookup seq.items item Compare with
  | none => (seq.append item).map (.update · [])
  | some _ => some (.update seq (if seq.itemDestroy then [item] else []))

def set (seq : Seq α) (index : ℕ) (item : Option α) : Option (Effect (Seq α) (List (Option α))) :=
  if index < seq.length then do
    let calls ← seq.destroyRange index index
    let data ← setItem seq.data index item
    return .update { seq with data } calls
  else none

def softRemoveRange (seq : Seq α) (start stop : ℕ) : Option (Seq α) :=
  if stop < seq.length ∧ start ≤ stop then do
    let rest := seq.length - stop - 1
    let data ← if 0 < rest then memmoveItems seq.data start (stop + 1) rest else some seq.data
    return { seq with data, length := seq.length - (stop - start + 1) }
  else none

/-- The same as `SeqSoftRemoveRange`, after `DestroyRange`. -/
def removeRange (seq : Seq α) (start stop : ℕ) : Option (Effect (Seq α) (List (Option α))) :=
  if stop < seq.length ∧ start ≤ stop then do
    let calls ← seq.destroyRange start stop
    let seq ← seq.softRemoveRange start stop
    return .update seq calls
  else none

def remove (seq : Seq α) (index : ℕ) : Option (Effect (Seq α) (List (Option α))) := seq.removeRange index index

def clear (seq : Seq α) : Option (Effect (Seq α) (List (Option α))) :=
  if 0 < seq.length then seq.removeRange 0 (seq.length - 1) else some (.update seq [])

/-- The loop of `SeqReverse` for `count` more turns. -/
def reverseLoop (length : ℕ) : ℕ → ℕ → List (Option α) → Option (List (Option α))
  | 0, _, data => some data
  | count + 1, i, data => do
    let data ← swapItems data i (length - 1 - i : ℕ)
    reverseLoop length count (i + 1) data

def reverse (seq : Seq α) : Option (Seq α) :=
  (reverseLoop seq.length (seq.length / 2) 0 seq.data).map fun data => { seq with data }

/-- The loop of `SeqGetRange` over `count` items from `i` on. -/
def getRangeLoop (seq : Seq α) : ℕ → ℕ → Seq α → Option (Seq α)
  | 0, _, sub => some sub
  | count + 1, i, sub =>
    if i < seq.length then do
      let item ← seq.data[i]?
      let sub ← sub.append item
      getRangeLoop seq count (i + 1) sub
    else none

/-- `SeqGetRange`; the inner `none` is `NULL`. -/
def getRange (seq : Seq α) (start stop : ℕ) : Option (Option (Seq α)) :=
  if stop < start ∨ seq.length ≤ start ∨ seq.length ≤ stop then some none
  else (getRangeLoop seq (stop + 1 - start) start (seqNew (stop - start + 1) seq.itemDestroy)).map some

def split (seq : Seq α) (index : ℕ) : Option (Effect (Seq α) (List (Option α))) :=
  if seq.length < index then none
  else if seq.length ≤ index then some ⟨some seq, some (seqNew 1 seq.itemDestroy), []⟩
  else do
    let ret ← (← seq.getRange index (seq.length - 1))
    let seq ← seq.softRemoveRange index (seq.length - 1)
    return ⟨some seq, some ret, []⟩

/-- The loop of `SeqFilter`, whose counters are of type `int`; `ItemDestroy` is called without a check for `NULL`. -/
def filterLoop (itemDestroy : Bool) (filter : Option α → Bool) (length : ℤ) :
    ℕ → ℤ → ℤ → List (Option α) → List (Option α) → Option (List (Option α) × ℤ × List (Option α))
  | 0, _, _, _, _ => none
  | fuel + 1, origin, dest, data, calls =>
    if origin < length then do
      let item ← itemAt data origin
      if filter item then
        if itemDestroy then filterLoop itemDestroy filter length fuel (origin + 1) dest data (calls ++ [item]) else none
      else do
        let data ← setItem data dest item
        filterLoop itemDestroy filter length fuel (origin + 1) (dest + 1) data calls
    else some (data, dest, calls)

def filter (seq : Seq α) (filter : Option α → Bool) : Option (Effect (Seq α) (List (Option α))) :=
  (filterLoop seq.itemDestroy filter (toInt seq.length) (seq.length + 1) 0 0 seq.data []).map fun r =>
    .update { seq with data := r.1, length := r.2.1.toNat } r.2.2

def filterNullCallback (item : Option α) : Bool := item.isNone

def removeNulls (seq : Seq α) : Option (Effect (Seq α) (List (Option α))) := seq.filter filterNullCallback

def destroy (seq : Seq α) : Option (Effect (Seq α) (List (Option α))) :=
  (if 0 < seq.length then seq.destroyRange 0 (seq.length - 1) else some []).map fun calls => ⟨none, none, calls⟩

end Seq

/-! ## Calls -/

inductive SeqCall (α : Type) where
  | append (item : Option α)
  | appendOnce (item : Option α) (Compare : Option α → Option α → ℤ)
  | set (index : ℕ) (item : Option α)
  | removeRange (start stop : ℕ)
  | remove (index : ℕ)
  | softRemoveRange (start stop : ℕ)
  | filter (filter : Option α → Bool)
  | removeNulls
  | clear
  | split (index : ℕ)
  | reverse
  | destroy

def seqStep (seq : Seq α) : SeqCall α → Option (Effect (Seq α) (List (Option α)))
  | .append item => (seq.append item).map (.update · [])
  | .appendOnce item Compare => seq.appendOnce item Compare
  | .set index item => seq.set index item
  | .removeRange start stop => seq.removeRange start stop
  | .remove index => seq.remove index
  | .softRemoveRange start stop => (seq.softRemoveRange start stop).map (.update · [])
  | .filter filter => seq.filter filter
  | .removeNulls => seq.removeNulls
  | .clear => seq.clear
  | .split index => seq.split index
  | .reverse => seq.reverse.map (.update · [])
  | .destroy => seq.destroy

end Libntech.Containers
