import Libntech.Lib.Iterator
import Libntech.Lib.Ring
import Libntech.Lib.Simulation
import Mathlib.Data.List.ReduceOption
import Mathlib.Data.Multiset.Basic

/-! # Ring buffers (`libutils/ring_buffer.c`)

An item is a pointer, `none` is `NULL`; `none` around a result is a failed assertion or an access outside the array. The
array has no more cells than there is memory for, so no sum of two indices wraps. `historyStep` says what a buffer is for:
of the items appended since it was last cleared it keeps the most recent ones, and disposes of an item when it drops it.
-/
namespace Libntech.Containers
open Lib
set_option autoImplicit false

variable {α : Type}

/-! ## Buffers -/

structure RingBuffer (α : Type) where
  copy : Option (Option α → Option α)
  /-- Whether `destroy` is not `NULL`. -/
  destroy : Bool
  data : List (Option α)
  capacity : ℕ
  endIndex : ℕ
  len : ℕ

def ringBufferNew (capacity : ℕ) (copy : Option (Option α → Option α)) (destroy : Bool) : Option (RingBuffer α) :=
  if 0 < capacity then some ⟨copy, destroy, List.replicate capacity none, max capacity 1, 0, 0⟩ else none

/-- `buf->copy ? buf->copy(item) : item` -/
def copied (copy : Option (Option α → Option α)) (item : Option α) : Option α :=
  match copy with
  | some copy => copy item
  | none => item

/-- The loop of `RingBufferClear` over `count` cells from `i` on. -/
def clearLoop : ℕ → ℕ → List (Option α) → Option (List (Option α) × List α)
  | 0, _, data => some (data, [])
  | count + 1, i, data => do
    match ← data[i]? with
    | none => clearLoop count (i + 1) data
    | some item =>
      let rest ← clearLoop count (i + 1) (data.set i none)
      return (rest.1, item :: rest.2)

namespace RingBuffer

/-- The buffer afterwards, and the items that `destroy` is called on. -/
def append (buf : RingBuffer α) (item : Option α) : Option (RingBuffer α × List α) := do
  let old ← buf.data[buf.endIndex]?
  let calls := if buf.destroy then old.toList else []
  return ({ buf with
    data := buf.data.set buf.endIndex (copied buf.copy item)
    endIndex := (buf.endIndex + 1) % buf.capacity
    len := if buf.len < buf.capacity then buf.len + 1 else buf.len }, calls)

def clear (buf : RingBuffer α) : Option (RingBuffer α × List α) := do
  let (data, calls) ← if buf.destroy then clearLoop buf.capacity 0 buf.data else some (buf.data, [])
  return ({ buf with data, endIndex := 0, len := 0 }, calls)

def length (buf : RingBuffer α) : ℕ := buf.len

def isFull (buf : RingBuffer α) : Bool := buf.len == buf.capacity

def head (buf : RingBuffer α) : Option (Option α) :=
  if buf.length = 0 then some none
  else if buf.endIndex = 0 then buf.data[buf.capacity - 1]?
  else buf.data[buf.endIndex - 1]?

end RingBuffer

structure RingBufferIterator (α : Type) where
  buf : RingBuffer α
  numRead : ℕ

def ringBufferIteratorNew (buf : RingBuffer α) : RingBufferIterator α := ⟨buf, 0⟩

/-- The difference of two unsigned numbers is zero just if they are equal. -/
def ringBufferIteratorNext (iter : RingBufferIterator α) : Option (RingBufferIterator α × Option α) :=
  if iter.buf.len = iter.numRead then some (iter, none)
  else do
    let offset := if iter.buf.isFull then (iter.buf.endIndex + iter.numRead) % iter.buf.capacity else iter.numRead
    let data ← iter.buf.data[offset]?
    return ({ iter with numRead := iter.numRead + 1 }, data)

inductive RingBufferCall (α : Type) where
  | append (item : Option α)
  | clear

/-- The order in which the items of a call are destroyed is left out of its reply. -/
def ringBufferStep (buf : RingBuffer α) : RingBufferCall α → Option (RingBuffer α × Multiset α)
  | .append item => (buf.append item).map fun r => (r.1, r.2)
  | .clear => buf.clear.map fun r => (r.1, r.2)

/-! ## The history -/

/-- The last `capacity` of the items. -/
def recent (capacity : ℕ) (stored : List (Option α)) : List (Option α) := stored.drop (stored.length - capacity)

def disposedOf (destroy : Bool) (lost : List (Option α)) : Multiset α := if destroy then (lost.reduceOption : List α) else 0

/-- The state is the items stored since the last call of `RingBufferClear`. -/
def historyStep (capacity : ℕ) (copy : Option (Option α → Option α)) (destroy : Bool) (stored : List (Option α)) :
    RingBufferCall α → Option (List (Option α) × Multiset α)
  | .append item =>
    some (stored ++ [copied copy item],
      disposedOf destroy (if stored.length < capacity then [] else (recent capacity stored).take 1))
  | .clear => some ([], disposedOf destroy (recent capacity stored))

variable {capacity : ℕ} {stored : List (Option α)}

@[simp] theorem recent_nil (capacity : ℕ) : recent capacity ([] : List (Option α)) = [] := List.drop_nil

theorem recent_length (capacity : ℕ) (stored : List (Option α)) :
    (recent capacity stored).length = min stored.length capacity := by
  rw [recent, List.length_drop]
  omega

theorem recent_append_of_lt (h : stored.length < capacity) (item : Option α) :
    recent capacity (stored ++ [item]) = recent capacity stored ++ [item] := by
  rw [recent, recent, List.length_append, List.length_singleton, Nat.sub_eq_zero_of_le (by omega),
    Nat.sub_eq_zero_of_le (by omega), List.drop_zero, List.drop_zero]

theorem recent_append_of_le (hpos : 0 < capacity) (h : capacity ≤ stored.length) (item : Option α) :
    ∃ oldest rest, recent capacity stored = oldest :: rest ∧ recent capacity (stored ++ [item]) = rest ++ [item] := by
  have hlt : stored.length - capacity < stored.length := by omega
  refine ⟨stored[stored.length - capacity], stored.drop (stored.length - capacity + 1), ?_, ?_⟩
  · rw [recent, List.drop_eq_getElem_cons hlt]
  · rw [recent, List.length_append, List.length_singleton, List.drop_append_of_le_length (by omega)]
    congr 2
    omega

/-! ## What a buffer holds -/

/-- The cell of the oldest item. -/
def RingBuffer.oldest (buf : RingBuffer α) : ℕ := if buf.len < buf.capacity then 0 else buf.endIndex

structure RingBufferHolds (capacity : ℕ) (copy : Option (Option α → Option α)) (destroy : Bool) (buf : RingBuffer α)
    (stored : List (Option α)) : Prop where
  copy_eq : buf.copy = copy
  destroy_eq : buf.destroy = destroy
  capacity_eq : buf.capacity = capacity
  ring : RingHolds (buf.data.map some) capacity buf.oldest (recent capacity stored)
  len_eq : buf.len = (recent capacity stored).length
  end_eq : buf.endIndex = (buf.oldest + buf.len) % capacity
  /-- What was in the other cells has been destroyed. -/
  unused : destroy = true → ∀ i, buf.len ≤ i → i < capacity → buf.data[i]? = some none

section Holds

variable {copy : Option (Option α → Option α)} {destroy : Bool} {buf : RingBuffer α}

theorem ringBufferNew_holds (hpos : 0 < capacity) (copy : Option (Option α → Option α)) (destroy : Bool) :
    ∃ buf, ringBufferNew capacity copy destroy = some buf ∧ RingBufferHolds capacity copy destroy buf [] := by
  have hmax : max capacity 1 = capacity := Nat.max_eq_left hpos
  have holdest : RingBuffer.oldest (⟨copy, destroy, List.replicate capacity none, max capacity 1, 0, 0⟩ : RingBuffer α) = 0 :=
    ite_self 0
  refine ⟨_, if_pos hpos, rfl, rfl, hmax, ?_, ?_, ?_, ?_⟩
  · rw [recent_nil, holdest]
    exact RingHolds.empty (by rw [List.length_map, List.length_replicate]) hpos
  · rw [recent_nil]
    rfl
  · rw [holdest]
    exact (Nat.zero_mod capacity).symm
  · intro _ i _ hi
    exact List.getElem?_replicate_of_lt hi

theorem RingBufferHolds.data_length (h : RingBufferHolds capacity copy destroy buf stored) :
    buf.data.length = capacity := by
  have hlen := h.ring.length_eq
  rwa [List.length_map] at hlen

theorem RingBufferHolds.end_lt (h : RingBufferHolds capacity copy destroy buf stored) : buf.endIndex < capacity := by
  rw [h.end_eq]
  exact Nat.mod_lt _ h.ring.cap_pos

theorem RingBufferHolds.len_le (h : RingBufferHolds capacity copy destroy buf stored) : buf.len ≤ capacity :=
  h.len_eq ▸ h.ring.size_le

theorem RingBufferHolds.item (h : RingBufferHolds capacity copy destroy buf stored) {i : ℕ} (hi : i < buf.len) :
    buf.data[(buf.oldest + i) % capacity]? = (recent capacity stored)[i]? := by
  rw [h.len_eq] at hi
  have hitem := h.ring.item i hi
  have hlt : (buf.oldest + i) % capacity < buf.data.length := by
    rw [h.data_length]
    exact Nat.mod_lt _ h.ring.cap_pos
  rw [List.getD_eq_getElem _ _ (by rwa [List.length_map]), List.getElem_map] at hitem
  rw [List.getElem?_eq_getElem hlt, hitem]

theorem RingBufferHolds.len_lt_iff (h : RingBufferHolds capacity copy destroy buf stored) :
    buf.len < buf.capacity ↔ stored.length < capacity := by
  rw [h.len_eq, h.capacity_eq, recent_length]
  omega

/-! ## Appending and clearing -/

theorem append_room (h : RingBufferHolds capacity copy destroy buf stored) (item : Option α)
    (hroom : stored.length < capacity) :
    ∃ buf', buf.append item = some (buf', []) ∧
      RingBufferHolds capacity copy destroy buf' (stored ++ [copied copy item]) := by
  have hlt := h.len_lt_iff.mpr hroom
  have hlt' : buf.len < capacity := h.capacity_eq ▸ hlt
  have holdest : buf.oldest = 0 := if_pos hlt
  have hend : buf.endIndex = buf.len := by rw [h.end_eq, holdest, Nat.zero_add, Nat.mod_eq_of_lt hlt']
  obtain ⟨old, hold⟩ : ∃ old, buf.data[buf.endIndex]? = some old :=
    ⟨_, List.getElem?_eq_getElem (by rw [h.data_length, hend]; exact hlt')⟩
  have hcalls : (if buf.destroy then old.toList else []) = [] := by
    split
    · rename_i hdestroy
      have hnone := h.unused (h.destroy_eq ▸ hdestroy) buf.len (le_refl _) hlt'
      rw [← hend, hold] at hnone
      rw [Option.some.inj hnone]
      rfl
    · rfl
  have hring := h.ring.push_back (h.len_eq ▸ hlt') (copied copy item)
  rw [← h.len_eq, ← h.end_eq, ← List.map_set, ← recent_append_of_lt hroom, holdest] at hring
  rw [RingBuffer.append, hold]
  simp only [Option.bind_eq_bind, Option.bind_some, hcalls, if_pos hlt, Option.pure_def]
  -- the oldest item stays in the first cell, also when the last cell has been filled
  have holdest' : RingBuffer.oldest { buf with
      data := buf.data.set buf.endIndex (copied buf.copy item)
      endIndex := (buf.endIndex + 1) % buf.capacity
      len := buf.len + 1 } = 0 := by
    rw [RingBuffer.oldest]
    split
    · rfl
    · rename_i hfull
      have heq : buf.endIndex + 1 = buf.capacity := by
        dsimp only at hfull
        omega
      dsimp only
      rw [heq, Nat.mod_self]
  refine ⟨_, rfl, h.copy_eq, h.destroy_eq, h.capacity_eq, ?_, ?_, ?_, ?_⟩
  · rw [holdest', h.copy_eq]
    exact hring
  · rw [recent_append_of_lt hroom, List.length_append, List.length_singleton, h.len_eq]
  · rw [holdest', Nat.zero_add, hend, h.capacity_eq]
  · intro hdestroy i hle hi
    dsimp only at hle ⊢
    rw [List.getElem?_set_ne (by omega)]
    exact h.unused hdestroy i (by omega) hi

theorem append_full (h : RingBufferHolds capacity copy destroy buf stored) (item : Option α)
    (hfull : capacity ≤ stored.length) :
    ∃ buf' oldest rest, recent capacity stored = oldest :: rest ∧
      buf.append item = some (buf', if destroy then oldest.toList else []) ∧
      RingBufferHolds capacity copy destroy buf' (stored ++ [copied copy item]) := by
  have hpos := h.ring.cap_pos
  have hnot : ¬ buf.len < buf.capacity := fun hlt => absurd (h.len_lt_iff.mp hlt) (not_lt.mpr hfull)
  have hlen : buf.len = capacity := le_antisymm h.len_le (not_lt.mp (h.capacity_eq ▸ hnot))
  have holdest : buf.oldest = buf.endIndex := if_neg hnot
  obtain ⟨oldest, rest, hrecent, hrecent'⟩ := recent_append_of_le hpos hfull (copied copy item)
  have hrest : rest.length + 1 = capacity := by
    rw [← hlen, h.len_eq, hrecent, List.length_cons]
  have hold : buf.data[buf.endIndex]? = some oldest := by
    have hitem := h.item (i := 0) (by omega)
    rw [hrecent, holdest, Nat.add_zero, Nat.mod_eq_of_lt h.end_lt] at hitem
    exact hitem
  have hring := h.ring
  rw [hrecent, holdest] at hring
  have hindex : ((buf.endIndex + 1) % capacity + rest.length) % capacity = buf.endIndex := by
    rw [ring_index_advance, hrest, Nat.add_mod_right, Nat.mod_eq_of_lt h.end_lt]
  have hpush := hring.advance.push_back (by omega) (copied copy item)
  rw [hindex, ← List.map_set, ← hrecent'] at hpush
  rw [RingBuffer.append, hold, h.destroy_eq]
  simp only [Option.bind_eq_bind, Option.bind_some, if_neg hnot, Option.pure_def]
  refine ⟨_, oldest, rest, hrecent, rfl, h.copy_eq, rfl, h.capacity_eq, ?_, ?_, ?_, ?_⟩
  · rw [RingBuffer.oldest, if_neg hnot, h.copy_eq, h.capacity_eq]
    exact hpush
  · dsimp only
    rw [hrecent', List.length_append, List.length_singleton, hrest, hlen]
  · rw [RingBuffer.oldest, if_neg hnot]
    dsimp only
    rw [hlen, h.capacity_eq, Nat.add_mod_right, Nat.mod_mod]
  · intro _ i hle hi
    dsimp only at hle
    omega

theorem clearLoop_spec (rest : List (Option α)) : ∀ cleared : List (Option α),
    clearLoop rest.length cleared.length (cleared ++ rest) =
      some (cleared ++ List.replicate rest.length none, rest.reduceOption) := by
  induction rest with
  | nil =>
    intro cleared
    rw [List.length_nil, clearLoop, List.replicate_zero]
    rfl
  | cons item rest ih =>
    intro cleared
    have hnext := ih (cleared ++ [none])
    rw [List.length_append, List.length_singleton, List.append_assoc, List.append_assoc, List.singleton_append,
      List.singleton_append, ← List.replicate_succ] at hnext
    rw [List.length_cons, clearLoop, List.getElem?_append_right (le_refl _), Nat.sub_self, List.getElem?_cons_zero]
    cases item with
    | none =>
      rw [List.reduceOption_cons_of_none]
      exact hnext
    | some x =>
      have hset : (cleared ++ some x :: rest).set cleared.length none = cleared ++ none :: rest := by
        rw [List.set_append_right _ _ (le_refl _), Nat.sub_self, List.set_cons_zero]
      simp only [Option.bind_eq_bind, Option.bind_some, hset, hnext, Option.pure_def, List.reduceOption_cons_of_some]

theorem RingBufferHolds.contents (h : RingBufferHolds capacity copy true buf stored) :
    buf.data.reduceOption.Perm (recent capacity stored).reduceOption := by
  have hring := h.ring
  by_cases hlt : buf.len < capacity
  · have holdest : buf.oldest = 0 := if_pos (h.capacity_eq ▸ hlt)
    rw [holdest] at hring
    have htake := hring.take_eq
    rw [← h.len_eq, ← List.map_take] at htake
    have hdrop : buf.data.drop buf.len = List.replicate (capacity - buf.len) none := by
      rw [List.eq_replicate_iff, List.length_drop, h.data_length]
      refine ⟨rfl, fun x hx => ?_⟩
      obtain ⟨i, hi, rfl⟩ := List.getElem_of_mem hx
      rw [List.length_drop, h.data_length] at hi
      have hnone := h.unused rfl (buf.len + i) (by omega) (by omega)
      rw [List.getElem_drop]
      exact (List.getElem?_eq_some_iff.mp hnone).2
    have hdata : buf.data = recent capacity stored ++ List.replicate (capacity - buf.len) none := by
      rw [← List.map_injective_iff.mpr (Option.some_injective _) htake, ← hdrop, List.take_append_drop]
    rw [hdata, List.reduceOption_append, List.reduceOption_replicate_none, List.append_nil]
  · have hrotate := hring.rotate_eq (by rw [← h.len_eq]; exact le_antisymm h.len_le (not_lt.mp hlt))
    rw [← List.map_rotate] at hrotate
    rw [← List.map_injective_iff.mpr (Option.some_injective _) hrotate]
    exact (List.rotate_perm buf.data buf.oldest).symm.filterMap id

theorem clear_spec (h : RingBufferHolds capacity copy destroy buf stored) :
    ∃ buf' calls, buf.clear = some (buf', calls) ∧
      (calls : Multiset α) = disposedOf destroy (recent capacity stored) ∧
      RingBufferHolds capacity copy destroy buf' [] := by
  have hpos := h.ring.cap_pos
  have hempty : ∀ data : List (Option α), data.length = capacity →
      (destroy = true → ∀ i, i < capacity → data[i]? = some none) →
      RingBufferHolds capacity copy destroy { buf with destroy, data, endIndex := 0, len := 0 } [] := by
    intro data hlen hunused
    have holdest : RingBuffer.oldest { buf with destroy, data, endIndex := 0, len := 0 } = 0 := ite_self 0
    refine ⟨h.copy_eq, rfl, h.capacity_eq, ?_, ?_, ?_, fun hd i _ hi => hunused hd i hi⟩
    · rw [recent_nil, holdest]
      exact RingHolds.empty (by rw [List.length_map, hlen]) hpos
    · rw [recent_nil]
      rfl
    · rw [holdest]
      exact (Nat.zero_mod capacity).symm
  rw [RingBuffer.clear, h.destroy_eq]
  cases destroy with
  | false => exact ⟨_, _, rfl, rfl, hempty buf.data h.data_length fun hd => absurd hd Bool.false_ne_true⟩
  | true =>
    have hloop := clearLoop_spec buf.data []
    rw [h.data_length, ← h.capacity_eq] at hloop
    refine ⟨_, buf.data.reduceOption, ?_, Multiset.coe_eq_coe.mpr h.contents,
      hempty (List.replicate capacity none) (List.length_replicate ..) fun _ i hi => List.getElem?_replicate_of_lt hi⟩
    have hdata : clearLoop buf.capacity 0 buf.data = some (List.replicate capacity none, buf.data.reduceOption) :=
      h.capacity_eq ▸ hloop
    rw [if_pos rfl, hdata]
    rfl

theorem ringBufferStep_matches (h : RingBufferHolds capacity copy destroy buf stored) (call : RingBufferCall α) :
    Matches (RingBufferHolds capacity copy destroy) (ringBufferStep buf call)
      (historyStep capacity copy destroy stored call) := by
  cases call with
  | append item =>
    rw [ringBufferStep, historyStep]
    by_cases hroom : stored.length < capacity
    · obtain ⟨buf', happend, h'⟩ := append_room h item hroom
      rw [happend, if_pos hroom]
      exact ⟨h', (ite_self 0).symm⟩
    · obtain ⟨buf', oldest, rest, hrecent, happend, h'⟩ := append_full h item (not_lt.mp hroom)
      rw [happend, if_neg hroom, hrecent, disposedOf]
      refine ⟨h', ?_⟩
      cases destroy with
      | false => rfl
      | true => cases oldest <;> rfl
  | clear =>
    obtain ⟨buf', calls, hclear, hcalls, h'⟩ := clear_spec h
    rw [ringBufferStep, historyStep, hclear]
    exact ⟨h', hcalls⟩

/-! ## Reading -/

theorem head_spec (h : RingBufferHolds capacity copy destroy buf stored) : buf.head = some stored.getLast?.join := by
  have hpos := h.ring.cap_pos
  have hlen := h.len_eq
  rw [recent_length] at hlen
  rw [RingBuffer.head, RingBuffer.length]
  by_cases hzero : buf.len = 0
  · have hnil : stored = [] := List.length_eq_zero_iff.mp (by omega)
    rw [if_pos hzero, hnil]
    rfl
  · obtain ⟨n, hn⟩ : ∃ n, buf.len = n + 1 := ⟨buf.len - 1, by omega⟩
    have hlast := h.item (i := n) (by omega)
    have hread : (recent capacity stored)[n]? = stored.getLast? := by
      rw [recent, List.getElem?_drop, List.getLast?_eq_getElem?]
      congr 1
      omega
    have hprev : prevIndex capacity buf.endIndex = (buf.oldest + n) % capacity := by
      rw [h.end_eq, hn, prevIndex_end hpos]
    rw [← hprev, hread] at hlast
    have hsome : ∃ x, stored.getLast? = some x := by
      rw [List.getLast?_eq_getElem?]
      exact ⟨_, List.getElem?_eq_getElem (by omega)⟩
    obtain ⟨x, hx⟩ := hsome
    rw [if_neg hzero, ← apply_ite (fun i => buf.data[i]?), h.capacity_eq]
    rw [prevIndex, hx] at hlast
    rw [hlast, hx]
    rfl

theorem iteratorNext_spec (h : RingBufferHolds capacity copy destroy buf stored) {k : ℕ} (hk : k < buf.len) :
    ringBufferIteratorNext ⟨buf, k⟩ = some (⟨buf, k + 1⟩, (recent capacity stored)[k]?.join) := by
  have hitem := h.item hk
  obtain ⟨x, hx⟩ : ∃ x, (recent capacity stored)[k]? = some x := ⟨_, List.getElem?_eq_getElem (h.len_eq ▸ hk)⟩
  have hoffset : (if buf.isFull = true then (buf.endIndex + k) % buf.capacity else k) = (buf.oldest + k) % capacity := by
    have hle := h.len_le
    rw [RingBuffer.isFull, RingBuffer.oldest, h.capacity_eq]
    by_cases hfull : buf.len = capacity
    · rw [hfull, beq_self_eq_true, if_pos rfl, if_neg (lt_irrefl _)]
    · rw [beq_false_of_ne hfull, if_neg Bool.false_ne_true, if_pos (by omega), Nat.zero_add, Nat.mod_eq_of_lt (by omega)]
  rw [ringBufferIteratorNext, if_neg (by dsimp only; omega)]
  dsimp only
  rw [hoffset, hitem, hx]
  rfl

theorem iterator_draws (h : RingBufferHolds capacity copy destroy buf stored) (n : ℕ) : ∀ k ≤ buf.len,
    draws ringBufferIteratorNext n ⟨buf, k⟩ =
      some ((List.range n).map fun i => (recent capacity stored)[k + i]?.join) := by
  induction n with
  | zero => exact fun k _ => rfl
  | succ n ih =>
    intro k hk
    rw [draws, List.range_succ_eq_map, List.map_cons, List.map_map, Nat.add_zero]
    rcases Nat.lt_or_eq_of_le hk with hlt | rfl
    · rw [iteratorNext_spec h hlt, Option.bind_some, ih (k + 1) hlt, Option.map_some]
      refine congrArg some (congrArg _ (List.map_congr_left fun i _ => ?_))
      rw [Function.comp, Nat.succ_eq_add_one, Nat.add_assoc, Nat.add_comm 1 i]
    · have hnone : ∀ i, (recent capacity stored)[buf.len + i]? = none := fun i =>
        List.getElem?_eq_none (by rw [← h.len_eq]; omega)
      rw [ringBufferIteratorNext, if_pos rfl, Option.bind_some, ih buf.len (le_refl _), Option.map_some]
      have hfirst := hnone 0
      rw [Nat.add_zero] at hfirst
      rw [hfirst]
      simp only [hnone]
      rfl

end Holds

/-- Whatever is called on it, a buffer shows the most recent items since it was last cleared, and has destroyed the items
that were overwritten or cleared. -/
theorem ringBuffer_keeps_recent (hpos : 1 ≤ capacity) (copy : Option (Option α → Option α)) (destroy : Bool)
    (calls : List (RingBufferCall α)) :
    ∃ new buf stored destroyed, ringBufferNew capacity copy destroy = some new ∧
      run ringBufferStep new calls = some (buf, destroyed) ∧
      run (historyStep capacity copy destroy) [] calls = some (stored, destroyed) ∧
      buf.length = min stored.length capacity ∧ buf.head = some stored.getLast?.join ∧
      ∀ n, draws ringBufferIteratorNext n (ringBufferIteratorNew buf) =
        some ((List.range n).map fun i => (recent capacity stored)[i]?.join) := by
  obtain ⟨new, hnew, hholds⟩ := ringBufferNew_holds hpos copy destroy
  have hstep := fun (buf : RingBuffer α) stored call (h : RingBufferHolds capacity copy destroy buf stored) =>
    ringBufferStep_matches h call
  have htotal : ∀ (stored : List (Option α)) call, ∃ stored' lost,
      historyStep capacity copy destroy stored call = some (stored', lost) := by
    intro stored call
    cases call with
    | append item => exact ⟨_, _, rfl⟩
    | clear => exact ⟨_, _, rfl⟩
  obtain ⟨buf, stored, destroyed, hrun, hhistory, h⟩ := run_matches_total hstep htotal calls new [] hholds
  refine ⟨new, buf, stored, destroyed, hnew, hrun, hhistory, ?_, head_spec h, fun n => ?_⟩
  · rw [RingBuffer.length, h.len_eq, recent_length]
  · have hdraws := iterator_draws h n 0 (Nat.zero_le _)
    simp only [Nat.zero_add] at hdraws
    exact hdraws

/-- Two cells for four items. -/
theorem ringBuffer_keeps_recent_numbers :
    ∃ new buf, ringBufferNew 2 none true = some new ∧
      run ringBufferStep new [.append (some 1), .append (some 2), .append (some 3), .clear, .append (some 4)] =
        some (buf, [0, 0, {1}, {2, 3}, 0]) ∧
      buf.length = 1 ∧ buf.head = some (some 4) := by
  obtain ⟨new, buf, stored, destroyed, hnew, hrun, hhistory, hlength, hhead, _⟩ :=
    ringBuffer_keeps_recent (by decide : 1 ≤ 2) none true
      [.append (some 1), .append (some 2), .append (some 3), .clear, .append (some 4)]
  cases hhistory
  exact ⟨new, buf, hnew, hrun, hlength, hhead⟩

end Libntech.Containers
