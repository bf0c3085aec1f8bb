import Libntech.Lib.FiniteMap
import Libntech.Lib.Simulation
import Mathlib.Algebra.GroupWithZero.Nat

/-! # ArrayMap, HashMap and Map (`libutils/array_map.c`, `hash_map.c`, `map.c`)

A chain of bucket items is a list of key/value pairs, head of the chain first. The user's functions are
`MapFns`: `hash_fn` with its fixed seed 0, and `equal_fn`, always called with the stored key first.
The destroy functions only dispose of what has left the map and are left out.

`(size_t) size * 0.75` is exact in `double` for the sizes used, all powers of two up to `2^30`.
`0.35` is not, but `7 * 2^j / 20` stays at least `1/5` away from every integer while the error is below
`10^-7`, so the conversion back to `size_t` cuts both to the same integer.
-/
namespace Libntech.Containers
open Lib
set_option autoImplicit false

variable {K V : Type}

structure MapFns (K : Type) where
  hash : K → UInt32
  equal : K → K → Bool

/-! ## ArrayMap -/

def tinyLimit : ℕ := 14

/-- The first `size` cells of the array. -/
structure ArrayMap (K V : Type) where
  values : List (K × V)

def ArrayMap.size (m : ArrayMap K V) : ℕ := m.values.length

/-- 0: full, nothing done; 1: replaced; 2: added. -/
def arrayMapInsert (fns : MapFns K) (m : ArrayMap K V) (key : K) (value : V) : ℕ × ArrayMap K V :=
  if m.size = tinyLimit then (0, m)
  else
    match overwriteFirst (fns.equal · key) key value m.values with
    | some values => (1, ⟨values⟩)
    | none => (2, ⟨m.values ++ [(key, value)]⟩)

def arrayMapRemove (fns : MapFns K) (m : ArrayMap K V) (key : K) : Bool × ArrayMap K V :=
  match dropFirst (fns.equal · key) m.values with
  | some values => (true, ⟨values⟩)
  | none => (false, m)

def arrayMapGet (fns : MapFns K) (m : ArrayMap K V) (key : K) : Option (K × V) :=
  m.values.find? fun kv => fns.equal kv.1 key

def arrayMapClear (_ : ArrayMap K V) : ArrayMap K V := ⟨[]⟩

/-! ## HashMap -/

def maxHashMapBuckets : ℕ := 2 ^ 30
def minHashMapBuckets : ℕ := 2 ^ 5

structure HashMap (K V : Type) where
  buckets : List (List (K × V))
  size : ℕ
  initSize : ℕ
  load : ℕ
  maxThreshold : ℕ
  minThreshold : ℕ

def isPow2 (n : ℕ) : Bool := decide (0 < n) && n &&& (n - 1) == 0

/-- On a 64-bit `size_t`. -/
def upperPowerOfTwo (v : ℕ) : ℕ :=
  let v := (v + (2 ^ 64 - 1)) % 2 ^ 64
  let v := v ||| v >>> 1
  let v := v ||| v >>> 2
  let v := v ||| v >>> 4
  let v := v ||| v >>> 8
  let v := v ||| v >>> 16
  (v + 1) % 2 ^ 64

/-- `size * MAX_LOAD_FACTOR` and `size * MIN_LOAD_FACTOR` -/
def maxThresholdOf (size : ℕ) : ℕ := size * 3 / 4
def minThresholdOf (size : ℕ) : ℕ := size * 7 / 20

def hashMapNew (initSize : ℕ) : HashMap K V :=
  let initSize := min (max initSize minHashMapBuckets) maxHashMapBuckets
  let size := if isPow2 initSize then initSize else upperPowerOfTwo initSize
  { buckets := List.replicate size []
    size
    initSize := size
    load := 0
    maxThreshold := maxThresholdOf size
    minThreshold := minThresholdOf size }

/-- `HashMapGetBucket` for a table of `size` buckets. -/
def bucketOf (fns : MapFns K) (size : ℕ) (key : K) : ℕ := (fns.hash key).toNat &&& (size - 1)

/-- Put an item at the front of its chain. -/
def relink (fns : MapFns K) (size : ℕ) (buckets : List (List (K × V))) (item : K × V) :
    List (List (K × V)) :=
  let bucket := bucketOf fns size item.1
  buckets.set bucket (item :: buckets.getD bucket [])

def hashMapResize (fns : MapFns K) (m : HashMap K V) (newSize : ℕ) : HashMap K V :=
  { m with
    size := newSize
    maxThreshold := maxThresholdOf newSize
    minThreshold := minThresholdOf newSize
    buckets :=
      m.buckets.foldl (fun buckets chain => chain.foldl (relink fns newSize) buckets)
        (List.replicate newSize []) }

def hashMapInsert (fns : MapFns K) (m : HashMap K V) (key : K) (value : V) : Bool × HashMap K V :=
  let bucket := bucketOf fns m.size key
  match overwriteFirst (fns.equal · key) key value (m.buckets.getD bucket []) with
  | some chain => (true, { m with buckets := m.buckets.set bucket chain })
  | none =>
    let m := { m with buckets := relink fns m.size m.buckets (key, value), load := m.load + 1 }
    (false,
      if m.maxThreshold < m.load ∧ m.size < maxHashMapBuckets then hashMapResize fns m (m.size <<< 1)
      else m)

def hashMapRemove (fns : MapFns K) (m : HashMap K V) (key : K) : Bool × HashMap K V :=
  let bucket := bucketOf fns m.size key
  match dropFirst (fns.equal · key) (m.buckets.getD bucket []) with
  | some chain =>
    let m := { m with buckets := m.buckets.set bucket chain, load := m.load - 1 }
    (true,
      if m.load < m.minThreshold ∧ m.initSize < m.size then hashMapResize fns m (m.size >>> 1) else m)
  | none => (false, m)

def hashMapGet (fns : MapFns K) (m : HashMap K V) (key : K) : Option (K × V) :=
  (m.buckets.getD (bucketOf fns m.size key) []).find? fun kv => fns.equal kv.1 key

/-- `FreeBucketListItem` takes one off `load` per item; `none` if `assert(load == 0)` fails. -/
def hashMapClear (m : HashMap K V) : Option (HashMap K V) :=
  let load := m.load - (m.buckets.map List.length).sum
  if load = 0 then some { m with buckets := m.buckets.map fun _ => [], load } else none

/-! ## Map -/

def defaultHashMapInitSize : ℕ := 128

/-- The union of `struct Map_`, with `hash_fn != NULL` as its tag. -/
inductive Map (K V : Type) where
  | arraymap (m : ArrayMap K V)
  | hashmap (m : HashMap K V)

def mapNew : Map K V := .arraymap ⟨[]⟩

def mapSize : Map K V → ℕ
  | .arraymap m => m.size
  | .hashmap m => m.load

def convertToHashMap (fns : MapFns K) (m : ArrayMap K V) : HashMap K V :=
  m.values.foldl (fun h kv => (hashMapInsert fns h kv.1 kv.2).2) (hashMapNew defaultHashMapInitSize)

def mapInsert (fns : MapFns K) (key : K) (value : V) : Map K V → Bool × Map K V
  | .arraymap m =>
    let r := arrayMapInsert fns m key value
    if r.1 ≠ 0 then (r.1 == 1, .arraymap r.2)
    else
      let r := hashMapInsert fns (convertToHashMap fns m) key value
      (r.1, .hashmap r.2)
  | .hashmap m =>
    let r := hashMapInsert fns m key value
    (r.1, .hashmap r.2)

def mapGetRaw (fns : MapFns K) (key : K) : Map K V → Option (K × V)
  | .arraymap m => arrayMapGet fns m key
  | .hashmap m => hashMapGet fns m key

def mapHasKey (fns : MapFns K) (key : K) (m : Map K V) : Bool := (mapGetRaw fns key m).isSome

def mapGet (fns : MapFns K) (key : K) (m : Map K V) : Option V := (mapGetRaw fns key m).map Prod.snd

def mapRemove (fns : MapFns K) (key : K) : Map K V → Bool × Map K V
  | .arraymap m =>
    let r := arrayMapRemove fns m key
    (r.1, .arraymap r.2)
  | .hashmap m =>
    let r := hashMapRemove fns m key
    (r.1, .hashmap r.2)

def mapClear : Map K V → Option (Map K V)
  | .arraymap m => some (.arraymap (arrayMapClear m))
  | .hashmap m => (hashMapClear m).map .hashmap

/-- All entries, in iteration order. -/
def mapEntries : Map K V → List (K × V)
  | .arraymap m => m.values
  | .hashmap m => m.buckets.flatten

/-! ## Calls -/

inductive MapCall (K V : Type) where
  | insert (key : K) (value : V)
  | get (key : K)
  | hasKey (key : K)
  | remove (key : K)
  | clear
  | size

inductive MapReply (V : Type) where
  | flag (b : Bool)
  | value (v : Option V)
  | done
  | count (n : ℕ)

def mapStep (fns : MapFns K) (m : Map K V) : MapCall K V → Option (Map K V × MapReply V)
  | .insert key value => some ((mapInsert fns key value m).2, .flag (mapInsert fns key value m).1)
  | .get key => some (m, .value (mapGet fns key m))
  | .hasKey key => some (m, .flag (mapHasKey fns key m))
  | .remove key => some ((mapRemove fns key m).2, .flag (mapRemove fns key m).1)
  | .clear => (mapClear m).map fun m => (m, .done)
  | .size => some (m, .count (mapSize m))

end Libntech.Containers
