import Libntech.Threaded.Queue

/-! # A ThreadedQueue is a FIFO list

`ItemList` is what the queue is for: the list of the items still queued, oldest first. `fifoStep`
answers every call on that list. `Represents q f` ties the circular array to the list; it carries the index
facts (`head`, `tail`, `size` against `capacity`) that the source relies on. One lemma per operation,
then one simulation over every interleaving of calls on a queue and all its copies.

The sizes of the blocks are products in `size_t`. They are what the source takes them for as long as the
initial capacity is less than `2^61` and no push finds `2^60` items.
-/
namespace Libntech.Threaded
open Lib
set_option autoImplicit false

variable {α : Type}

/-! ## The list a queue stands for -/

structure ItemList (α : Type) where
  itemDestroy : Bool
  items : List α

/-- The calls of `ItemDestroy` that dispose of everything queued: one per item, in order. -/
def ItemList.disposal (f : ItemList α) : List (Option α) := if f.itemDestroy then f.items.map some else []

def ItemList.pop (f : ItemList α) : Effect (ItemList α) (Reply α) :=
  match f.items with
  | [] => .update f (.popped false (some none))
  | x :: rest => .update { f with items := rest } (.popped true (some (some x)))

def ItemList.popN (f : ItemList α) (num : ℕ) : Effect (ItemList α) (Reply α) :=
  .update { f with items := f.items.drop num }
    (.poppedN (min num f.items.length) ((f.items.take num).map some))

/-- A pop waits as the source does, then acts on the list. -/
def ItemList.waiting (f : ItemList α) (timeout : ℤ) (expired : Bool) (onTimeout : Reply α)
    (body : Effect (ItemList α) (Reply α)) : Option (Effect (ItemList α) (Reply α)) :=
  match waitNonEmpty f.items.length timeout expired with
  | .blocked => none
  | .timedOut => some (.update f onTimeout)
  | .proceed => some body

def fifoStep (f : ItemList α) : QueueCall α → Option (Effect (ItemList α) (Reply α))
  | .push item => some (.update { f with items := f.items ++ [item] } (.count (f.items.length + 1)))
  | .pushN items =>
    some (.update { f with items := f.items ++ items } (.count (f.items.length + items.length)))
  | .pop timeout expired => f.waiting timeout expired (.popped false none) f.pop
  | .popN num timeout expired => f.waiting timeout expired (.poppedN 0 []) (f.popN num)
  | .popNIntoArray num timeout expired => f.waiting timeout expired (.poppedN 0 []) (f.popN num)
  | .clear => some (.update { f with items := [] } (.cleared f.disposal))
  | .clearAndPush item => some (.update { f with items := [item] } (.clearedAndPushed 1 f.disposal))
  | .copy => some { self := some f, spawned := some f, reply := .copied }
  | .count => some (.update f (.count f.items.length))
  | .destroy => some { self := none, spawned := none, reply := .cleared f.disposal }

/-! ## The representation invariant -/

/-- The ring from `head` holds the list, and `tail` is where the next item would go: just past the
last item, not wrapped yet. -/
structure Represents (q : ThreadedQueue α) (f : ItemList α) : Prop where
  destroy_eq : q.itemDestroy = f.itemDestroy
  holds : RingHolds q.data q.capacity q.head f.items
  size_eq : q.size = f.items.length
  tail_le : q.tail ≤ q.capacity
  tail_mod : (q.head + q.size) % q.capacity = q.tail % q.capacity
  tail_last : 0 < q.size → q.tail = (q.head + (q.size - 1)) % q.capacity + 1
  fits : 8 * q.capacity < 2 ^ 64

variable {q : ThreadedQueue α} {f : ItemList α} {initialCapacity : ℕ}

theorem capacity_fits (h : 8 * initialCapacity < 2 ^ 64) :
    0 < (if initialCapacity = 0 then defaultCapacity else initialCapacity) ∧
      8 * (if initialCapacity = 0 then defaultCapacity else initialCapacity) < 2 ^ 64 := by
  unfold defaultCapacity
  split <;> omega

theorem threadedQueueNew_represents (hsize : 8 * initialCapacity < 2 ^ 64) (itemDestroy : Bool) :
    Represents (threadedQueueNew initialCapacity itemDestroy : ThreadedQueue α) ⟨itemDestroy, []⟩ := by
  obtain ⟨hpos, hfits⟩ := capacity_fits hsize
  refine ⟨rfl, ?_, rfl, Nat.zero_le _, rfl, ?_, hfits⟩
  · exact RingHolds.empty (by simp [threadedQueueNew, cellsOf_eq hfits]) hpos
  · intro h
    exact absurd h (Nat.lt_irrefl 0)

/-- A full ring is wrapped behind its first item, or begins at the first cell. -/
theorem Represents.full_tail (h : Represents q f) (hfull : q.size = q.capacity) :
    (q.tail = q.head ∧ 0 < q.head) ∨ (q.tail = q.capacity ∧ q.head = 0) := by
  have hhead := h.holds.head_lt
  have hlast := h.tail_last (by omega)
  by_cases hzero : q.head = 0
  · have hidx : (q.head + (q.size - 1)) % q.capacity = q.size - 1 := by
      rw [hzero, Nat.zero_add, Nat.mod_eq_of_lt (by omega)]
    exact .inr ⟨by omega, hzero⟩
  · have hidx : (q.head + (q.size - 1)) % q.capacity = q.head - 1 := by
      rw [show q.head + (q.size - 1) = (q.head - 1) + q.capacity by omega, Nat.add_mod_right,
        Nat.mod_eq_of_lt (by omega)]
    exact .inl ⟨by omega, by omega⟩

/-! ## Growing -/

/-- After `ExpandIfNecessary` there is room, and `tail` is the wrapped index of the first free cell. -/
structure Ready (q : ThreadedQueue α) (f : ItemList α) : Prop where
  destroy_eq : q.itemDestroy = f.itemDestroy
  holds : RingHolds q.data q.capacity q.head f.items
  size_eq : q.size = f.items.length
  room : f.items.length < q.capacity
  tail_eq : q.tail = (q.head + f.items.length) % q.capacity
  fits : 8 * q.capacity < 2 ^ 64

theorem expandIfNecessary_ready (h : Represents q f) (hroom : q.size = q.capacity → q.capacity < 2 ^ 60) :
    ∃ q', q.expandIfNecessary = some q' ∧ Ready q' f := by
  have hle : q.size ≤ q.capacity := h.size_eq ▸ h.holds.size_le
  have hhead := h.holds.head_lt
  have hlen := h.holds.length_eq
  unfold ThreadedQueue.expandIfNecessary
  rw [if_pos hle]
  by_cases hfull : q.size = q.capacity
  · have hs := h.size_eq
    have hsmall := hroom hfull
    have hwrap : q.capacity * expandFactor % 2 ^ 64 = q.capacity * 2 := by
      rw [expandFactor, Nat.mod_eq_of_lt (by omega)]
    have hcells : cellsOf (q.capacity * 2) = q.capacity * 2 := cellsOf_eq (by omega)
    have htail : cellsOf q.tail = q.tail := cellsOf_eq (by have := h.tail_le; omega)
    have hreal : (realloc q.data (q.capacity * 2)).length = q.capacity * 2 := realloc_length _ _
    simp only [if_pos hfull, hwrap, hcells, htail, hreal]
    rcases h.full_tail hfull with ⟨heq, hpos⟩ | ⟨heq, hzero⟩
    · -- the first `tail` cells are the wrapped ones
      rw [if_pos (by omega), if_pos (by omega), Option.map_some]
      refine ⟨_, rfl, h.destroy_eq, h.holds.grow ?_ ?_ ?_, h.size_eq, by simp only; omega, ?_, by simp only; omega⟩
      · rw [memmove_length _ _ _ _ (by omega) (by omega), hreal]
      · intro j _ hj
        rw [memmove_get_below _ _ _ _ _ (by omega) hj, realloc_get _ _ _ (by omega) (by omega)]
      · intro j hj
        rw [memmove_get_moved _ _ _ _ _ (by omega) (by omega) (by omega), Nat.zero_add,
          realloc_get _ _ _ (by omega) (by omega)]
      · simp only
        congr 1
        omega
    · rw [if_neg (by omega), Option.map_some]
      refine ⟨_, rfl, h.destroy_eq, h.holds.grow ?_ ?_ ?_, h.size_eq, by simp only; omega, ?_, by simp only; omega⟩
      · rw [hreal]
      · intro j _ hj
        rw [realloc_get _ _ _ (by omega) (by omega)]
      · intro j hj
        omega
      · simp only
        congr 1
        omega
  · simp only [if_neg hfull, Option.map_some]
    refine ⟨_, rfl, h.destroy_eq, h.holds, h.size_eq, ?_, ?_, h.fits⟩
    · have hs := h.size_eq
      simp only
      omega
    · simp only
      rw [← h.tail_mod, h.size_eq]

theorem append_represents (h : Represents q f) (hroom : q.size = q.capacity → q.capacity < 2 ^ 60) (item : α) :
    ∃ q', q.append item = some q' ∧ Represents q' { f with items := f.items ++ [item] } := by
  obtain ⟨q', hq', hr⟩ := expandIfNecessary_ready h hroom
  have hlt : q'.tail < q'.capacity := by
    rw [hr.tail_eq]
    exact Nat.mod_lt _ hr.holds.cap_pos
  have hinside : q'.tail < q'.data.length := by rwa [hr.holds.length_eq]
  refine ⟨_, by rw [ThreadedQueue.append, hq', Option.bind_some, if_pos hinside], ?_⟩
  refine ⟨hr.destroy_eq, ?_, ?_, hlt, ?_, ?_, hr.fits⟩
  · simp only [hr.tail_eq]
    exact hr.holds.push_back hr.room item
  · simp only [hr.size_eq, List.length_append, List.length_singleton]
  · simp only [hr.tail_eq, hr.size_eq]
    rw [Nat.mod_add_mod, Nat.add_assoc]
  · intro _
    simp only [hr.tail_eq, hr.size_eq, Nat.add_sub_cancel]

/-- A full block of `2^60` cells is exchanged for a smaller one, and the push ends outside it. -/
theorem append_outside (h : Represents q f) (hfull : q.size = q.capacity) (hlarge : 2 ^ 60 ≤ q.capacity) (item : α) :
    q.append item = none := by
  have hfits := h.fits
  have hwrap : q.capacity * expandFactor % 2 ^ 64 = q.capacity * 2 := by
    rw [expandFactor, Nat.mod_eq_of_lt (by omega)]
  have hcells : cellsOf (q.capacity * 2) < q.capacity := by
    unfold cellsOf
    omega
  have hreal : (realloc q.data (cellsOf (q.capacity * 2))).length = cellsOf (q.capacity * 2) := realloc_length _ _
  unfold ThreadedQueue.append ThreadedQueue.expandIfNecessary
  rw [if_pos (Nat.le_of_eq hfull)]
  simp only [if_pos hfull, hwrap, hreal]
  rcases h.full_tail hfull with ⟨heq, hpos⟩ | ⟨heq, hzero⟩
  · rw [if_pos (by omega), if_neg (by omega)]
    rfl
  · have hmod : q.tail % (q.capacity * 2) = q.capacity := by rw [heq, Nat.mod_eq_of_lt (by omega)]
    rw [if_neg (by omega), Option.map_some, Option.bind_some]
    exact if_neg (by simp only [hmod, hreal]; omega)

theorem append_inside {q' : ThreadedQueue α} (h : Represents q f) {item : α} (happend : q.append item = some q') :
    Represents q' { f with items := f.items ++ [item] } := by
  by_cases hroom : q.size = q.capacity → q.capacity < 2 ^ 60
  · obtain ⟨q₁, hq₁, h₁⟩ := append_represents h hroom item
    rw [hq₁, Option.some.injEq] at happend
    exact happend ▸ h₁
  · obtain ⟨hfull, hlarge⟩ := Classical.not_imp.mp hroom
    rw [append_outside h hfull (Nat.le_of_not_lt hlarge)] at happend
    cases happend

theorem foldlM_append_inside (items : List α) {q' : ThreadedQueue α} (h : Represents q f)
    (happend : items.foldlM ThreadedQueue.append q = some q') :
    Represents q' { f with items := f.items ++ items } := by
  induction items generalizing q f with
  | nil =>
    cases happend
    simpa using h
  | cons x items ih =>
    rw [List.foldlM_cons] at happend
    obtain ⟨q₁, hq₁, hrest⟩ := Option.bind_eq_some_iff.mp happend
    have h₂ := ih (append_inside h hq₁) hrest
    rwa [List.append_assoc, List.singleton_append] at h₂

theorem foldlM_append_represents (items : List α) (h : Represents q f) (hfew : f.items.length + items.length ≤ 2 ^ 60) :
    ∃ q', items.foldlM ThreadedQueue.append q = some q' ∧
      Represents q' { f with items := f.items ++ items } := by
  induction items generalizing q f with
  | nil => exact ⟨q, rfl, by simpa using h⟩
  | cons x items ih =>
    rw [List.length_cons] at hfew
    have hs := h.size_eq
    obtain ⟨q₁, hq₁, h₁⟩ := append_represents h (by omega) x
    have hfew₁ : (f.items ++ [x]).length + items.length ≤ 2 ^ 60 := by
      rw [List.length_append, List.length_singleton]
      omega
    obtain ⟨q₂, hq₂, h₂⟩ := ih h₁ hfew₁
    refine ⟨q₂, ?_, ?_⟩
    · rw [List.foldlM_cons, hq₁]
      exact hq₂
    · simpa only [List.append_assoc, List.singleton_append] using h₂

/-! ## Taking items off the front -/

/-- The number of items an N-item pop takes, as the length of what it takes. -/
theorem popN_size (xs : List α) (num : ℕ) :
    (if num < xs.length then num else xs.length) = (xs.take num).length := by
  rw [List.length_take]
  split <;> omega

theorem take_drop_length (xs : List α) (num : ℕ) :
    (xs.take num).length + (xs.drop num).length = xs.length := by
  rw [← List.length_append, List.take_append_drop]

theorem takeLoop_holds (xs ys : List α) {data : List (Option α)} {capacity head : ℕ}
    (h : RingHolds data capacity head (xs ++ ys)) :
    (takeLoop capacity xs.length data head).1 = xs.map some ∧
      (takeLoop capacity xs.length data head).2.2 = (head + xs.length) % capacity ∧
      RingHolds (takeLoop capacity xs.length data head).2.1 capacity
        ((head + xs.length) % capacity) ys := by
  induction xs generalizing data head with
  | nil =>
    have hm := Nat.mod_eq_of_lt h.head_lt
    simp only [List.length_nil, takeLoop, List.map_nil, Nat.add_zero, hm, true_and]
    exact h
  | cons x xs ih =>
    rw [List.cons_append] at h
    obtain ⟨h₁, h₂, h₃⟩ := ih h.pop_front
    rw [ring_index_advance] at h₂ h₃
    simp only [List.length_cons, takeLoop, List.map_cons, h.front]
    exact ⟨by rw [h₁], h₂, h₃⟩

theorem pop_represents (h : Represents q f) (timeout : ℤ) (expired : Bool) :
    EffectMatches Represents (q.pop timeout expired)
      (f.waiting timeout expired (.popped false none) f.pop) := by
  unfold ThreadedQueue.pop ItemList.waiting
  rw [h.size_eq]
  cases waitNonEmpty f.items.length timeout expired with
  | blocked => trivial
  | timedOut => exact ⟨.some h, .none, rfl⟩
  | proceed =>
    obtain ⟨itemDestroy, items⟩ := f
    cases items with
    | nil => exact ⟨.some h, .none, rfl⟩
    | cons x rest =>
      have hsize : q.size = rest.length + 1 := h.size_eq
      have hpop : Represents
          { q with data := q.data.set q.head none, head := (q.head + 1) % q.capacity, size := q.size - 1 }
          { itemDestroy := itemDestroy, items := rest } := by
        refine ⟨h.destroy_eq, h.holds.pop_front, by simp only; omega, h.tail_le, ?_, ?_, h.fits⟩
        · simp only
          rw [ring_index_advance, ← h.tail_mod]
          congr 2
          omega
        · intro hpos
          simp only at hpos ⊢
          rw [h.tail_last (by omega), ring_index_advance]
          congr 3
          omega
      simp only [List.length_cons, Nat.zero_lt_succ, if_true, ItemList.pop]
      rw [h.size_eq] at hpop
      refine ⟨.some hpop, .none, ?_⟩
      simp only [Effect.update, h.holds.front]

/-- The loop on the first `num` items: what it takes and what it leaves are the two parts of the list. -/
theorem takeLoop_take {items : List α} {data : List (Option α)} {capacity head : ℕ}
    (h : RingHolds data capacity head items) (num : ℕ) :
    (takeLoop capacity (items.take num).length data head).1 = (items.take num).map some ∧
      (takeLoop capacity (items.take num).length data head).2.2 = (head + (items.take num).length) % capacity ∧
      RingHolds (takeLoop capacity (items.take num).length data head).2.1 capacity
        ((head + (items.take num).length) % capacity) (items.drop num) := by
  rw [← List.take_append_drop num items] at h
  exact takeLoop_holds _ _ h

theorem drop_of_take_nil {items : List α} {num : ℕ} (h : items.take num = []) : items.drop num = items := by
  have hsplit := List.take_append_drop num items
  rw [h, List.nil_append] at hsplit
  exact hsplit

theorem popN_represents (h : Represents q f) (num : ℕ) (timeout : ℤ) (expired : Bool) :
    EffectMatches Represents (q.popN num timeout expired)
      (f.waiting timeout expired (.poppedN 0 []) (f.popN num)) := by
  unfold ThreadedQueue.popN ItemList.waiting
  rw [h.size_eq]
  cases waitNonEmpty f.items.length timeout expired with
  | blocked => trivial
  | timedOut => exact ⟨.some h, .none, rfl⟩
  | proceed =>
    have hlen := take_drop_length f.items num
    simp only [popN_size, ItemList.popN, ← List.length_take]
    by_cases hpos : 0 < (f.items.take num).length
    · obtain ⟨h₁, h₂, h₃⟩ := takeLoop_take h.holds num
      simp only [if_pos hpos]
      refine ⟨.some ⟨h.destroy_eq, ?_, by simp only; omega, h.tail_le, ?_, ?_, h.fits⟩, .none, ?_⟩
      · simp only [h₂]
        exact h₃
      · simp only [h₂]
        rw [Nat.mod_add_mod, ← h.tail_mod, h.size_eq]
        congr 1
        omega
      · intro hrest
        simp only [h₂] at hrest ⊢
        rw [h.tail_last (by rw [h.size_eq]; omega), Nat.mod_add_mod, h.size_eq]
        congr 2
        omega
      · simp only [Effect.update, h₁]
    · have hnil : f.items.take num = [] := List.eq_nil_of_length_eq_zero (by omega)
      simp only [drop_of_take_nil hnil, hnil]
      exact ⟨.some h, .none, rfl⟩

/-! ## Disposing of everything -/

/-- The loop of `DestroyRange` meets the items left in the ring, one each, and stops at `tail`: the
running index stays unwrapped in `1..capacity`, where `tail` is too, so it cannot stop early. -/
theorem destroyLoop_calls (q : ThreadedQueue α) (xs : List α) :
    ∀ (fuel head : ℕ), xs.length ≤ fuel → xs.length < q.capacity → head < q.capacity →
      RingHolds q.data q.capacity ((head + 1) % q.capacity) xs →
      q.destroyLoop ((head + xs.length) % q.capacity + 1) fuel (head + 1) xs.length =
        some (0, if q.itemDestroy then xs.map some else []) := by
  induction xs with
  | nil =>
    intro fuel head _ _ hh _
    simp only [List.length_nil, Nat.add_zero, Nat.mod_eq_of_lt hh]
    cases fuel <;> simp [ThreadedQueue.destroyLoop]
  | cons x xs ih =>
    intro fuel head hfuel hroom hh hr
    rw [List.length_cons] at hfuel hroom
    obtain ⟨fuel, rfl⟩ : ∃ n, fuel = n + 1 := ⟨fuel - 1, by omega⟩
    have hne : head + 1 ≠ (head + (xs.length + 1)) % q.capacity + 1 := by
      intro heq
      have h0 : (head + 0) % q.capacity = (head + (xs.length + 1)) % q.capacity := by
        rw [Nat.add_zero, Nat.mod_eq_of_lt hh]
        omega
      have := ring_index_inj (by omega) hroom h0
      omega
    have hrest := ih fuel ((head + 1) % q.capacity) (by omega) (by omega) (Nat.mod_lt _ (by omega))
      hr.advance
    rw [ring_index_advance] at hrest
    rw [List.length_cons, ThreadedQueue.destroyLoop, if_neg hne, Nat.add_sub_cancel, hrest,
      Option.map_some]
    simp only [ThreadedQueue.destroyCall, hr.front]
    cases q.itemDestroy <;> simp

theorem destroyRange_disposal (h : Represents q f) :
    q.destroyRange q.head q.tail = some ({ q with size := 0 }, f.disposal) := by
  have hhead := h.holds.head_lt
  have hle := h.holds.size_le
  obtain ⟨itemDestroy, items⟩ := f
  unfold ThreadedQueue.destroyRange
  rw [if_neg (by have := h.tail_le; omega)]
  cases items with
  | nil =>
    have hsize : q.size = 0 := h.size_eq
    rw [if_neg (by omega), ← hsize]
    simp [ItemList.disposal]
  | cons x rest =>
    have hsize : q.size = rest.length + 1 := h.size_eq
    rw [List.length_cons] at hle
    rw [if_pos (by omega), h.tail_last (by omega), hsize, Nat.add_sub_cancel,
      destroyLoop_calls q rest q.capacity q.head (by omega) (by omega) hhead h.holds.advance]
    simp only [Option.map_some, ThreadedQueue.destroyCall, h.holds.front, ItemList.disposal, h.destroy_eq]
    cases itemDestroy <;> simp

theorem reset_represents (h : Represents q f) :
    Represents { q with size := 0, head := 0, tail := 0 } { f with items := [] } :=
  ⟨h.destroy_eq, RingHolds.empty h.holds.length_eq h.holds.cap_pos, rfl, Nat.zero_le _, rfl,
    fun hpos => absurd hpos (Nat.lt_irrefl 0), h.fits⟩

/-! ## One call, then every interleaving -/

/-- No push of the call finds `2^60` items. -/
def ItemList.takes (f : ItemList α) : QueueCall α → Prop
  | .push _ => f.items.length < 2 ^ 60
  | .pushN items => f.items.length + items.length ≤ 2 ^ 60
  | _ => True

theorem queueStep_matches (q : ThreadedQueue α) (f : ItemList α) (call : QueueCall α) (hfew : f.takes call)
    (h : Represents q f) : EffectMatches Represents (queueStep q call) (fifoStep f call) := by
  cases call with
  | push item =>
    have hs := h.size_eq
    have hfew' : f.items.length < 2 ^ 60 := hfew
    obtain ⟨q', hq', hr⟩ := append_represents h (by omega) item
    simp only [queueStep, fifoStep, ThreadedQueue.push, hq', Option.map_some]
    refine ⟨.some hr, .none, ?_⟩
    simp only [Effect.update, hr.size_eq, List.length_append, List.length_singleton]
  | pushN items =>
    obtain ⟨q', hq', hr⟩ := foldlM_append_represents items h hfew
    simp only [queueStep, fifoStep, ThreadedQueue.pushN, hq', Option.map_some]
    refine ⟨.some hr, .none, ?_⟩
    simp only [Effect.update, hr.size_eq, List.length_append]
  | pop timeout expired => exact pop_represents h timeout expired
  | popN num timeout expired => exact popN_represents h num timeout expired
  | popNIntoArray num timeout expired => exact popN_represents h num timeout expired
  | clear =>
    have hreset := reset_represents h
    simp only [queueStep, ThreadedQueue.clear, destroyRange_disposal h]
    exact ⟨.some hreset, .none, rfl⟩
  | clearAndPush item =>
    have hpos := h.holds.cap_pos
    obtain ⟨q', hq', hr⟩ := append_represents (reset_represents h) (fun hfull => by simp only at hfull; omega) item
    have hone : q'.size = 1 := hr.size_eq
    simp only [queueStep, ThreadedQueue.clearAndPush, destroyRange_disposal h, Option.bind_eq_bind,
      Option.bind_some, hq', hone, if_true]
    exact ⟨.some hr, .none, rfl⟩
  | copy =>
    refine ⟨.some h, .some ⟨h.destroy_eq, ?_, h.size_eq, h.tail_le, h.tail_mod, h.tail_last, h.fits⟩, rfl⟩
    simp only [cellsOf_eq h.fits, List.take_of_length_le (Nat.le_of_eq h.holds.length_eq)]
    exact h.holds
  | count =>
    refine ⟨.some h, .none, ?_⟩
    simp only [Effect.update, h.size_eq]
  | destroy =>
    simp only [queueStep, ThreadedQueue.destroy, destroyRange_disposal h]
    exact ⟨.none, .none, rfl⟩

/-- A queue and all its copies after a schedule of calls, with the replies given. -/
def queueWorlds (initialCapacity : ℕ) (itemDestroy : Bool) (calls : List (ℕ × QueueCall α)) :
    Option (List (Option (ThreadedQueue α)) × List (Reply α)) :=
  run (worldStep queueStep) [some (threadedQueueNew initialCapacity itemDestroy)] calls

/-- The same schedule on lists. -/
def fifoWorlds (itemDestroy : Bool) (calls : List (ℕ × QueueCall α)) :
    Option (List (Option (ItemList α)) × List (Reply α)) :=
  run (worldStep fifoStep) [some ⟨itemDestroy, []⟩] calls

/-- No push of the schedule finds `2^60` items in its queue. -/
def FewQueued (itemDestroy : Bool) (calls : List (ℕ × QueueCall α)) : Prop :=
  Along (OnLive ItemList.takes) (worldStep fifoStep) [some ⟨itemDestroy, []⟩] calls

theorem queueWorlds_match (itemDestroy : Bool) {calls : List (ℕ × QueueCall α)} (hsize : 8 * initialCapacity < 2 ^ 64)
    (hfew : FewQueued itemDestroy calls) :
    Matches (WorldRel Represents) (queueWorlds initialCapacity itemDestroy calls)
      (fifoWorlds itemDestroy calls) :=
  run_matches_along (world_matches_on queueStep_matches) calls _ _ hfew
    (.cons (.some (threadedQueueNew_represents hsize itemDestroy)) .nil)

theorem Represents.contents_eq (h : Represents q f) : q.contents = f.items.map some := by
  rw [ThreadedQueue.contents, h.size_eq]
  exact h.holds.read_all

/-- Any schedule of calls on a fresh queue and the copies made of it gets the replies a FIFO list
gives, and in every state it reaches each queue holds its list and keeps its index invariant. -/
theorem threadedQueue_refines_fifo (initialCapacity : ℕ) (itemDestroy : Bool)
    (calls : List (ℕ × QueueCall α)) (hsize : 8 * initialCapacity < 2 ^ 64) (hfew : FewQueued itemDestroy calls) :
    (queueWorlds initialCapacity itemDestroy calls).map Prod.snd =
        (fifoWorlds itemDestroy calls).map Prod.snd ∧
      ∀ queues replies, queueWorlds initialCapacity itemDestroy calls = some (queues, replies) →
        ∃ lists, fifoWorlds itemDestroy calls = some (lists, replies) ∧
          WorldRel (fun q f => q.contents = f.items.map some ∧ q.itemDestroy = f.itemDestroy ∧
            q.head < q.capacity ∧ q.tail ≤ q.capacity ∧ q.size ≤ q.capacity ∧
            (q.head + q.size) % q.capacity = q.tail % q.capacity) queues lists := by
  have hmatch := queueWorlds_match itemDestroy hsize hfew
  refine ⟨hmatch.reply_eq, ?_⟩
  intro queues replies hrun
  rw [hrun] at hmatch
  obtain ⟨lists, hlists, hrel⟩ := hmatch.some_left
  refine ⟨lists, hlists, hrel.mono fun h => ?_⟩
  exact ⟨h.contents_eq, h.destroy_eq, h.holds.head_lt, h.tail_le, h.size_eq ▸ h.holds.size_le, h.tail_mod⟩

/-- A queue of one cell grows for the second item, and its copy is emptied by another thread. -/
theorem threadedQueue_refines_fifo_copied :
    (queueWorlds 1 true [(0, .push 10), (0, .push 20), (0, .copy), (1, .clear), (0, .popN 5 0 false)]).map Prod.snd =
      some [.count 1, .count 2, .copied, .cleared [some 10, some 20], .poppedN 2 [some 10, some 20]] := by
  refine (threadedQueue_refines_fifo 1 true _ (by decide) ?_).1.trans rfl
  refine .cons (.intro rfl ?_) rfl (.cons (.intro rfl ?_) rfl (.cons (.intro rfl trivial) rfl
    (.cons (.intro rfl trivial) rfl (.cons (.intro rfl trivial) rfl trivial))))
  · show 0 < 2 ^ 60
    decide
  · show 1 < 2 ^ 60
    decide

/-- The block of `2^61` cells has no cell: the product of the sizes is zero, and the first push is outside. -/
theorem threadedQueueNew_too_large : ¬ ∀ (initialCapacity : ℕ) (itemDestroy : Bool) (calls : List (ℕ × QueueCall ℕ)),
    (queueWorlds initialCapacity itemDestroy calls).map Prod.snd = (fifoWorlds itemDestroy calls).map Prod.snd := by
  intro h
  have hpush := h (2 ^ 61) false [(0, .push 10)]
  cases hpush

end Libntech.Threaded
