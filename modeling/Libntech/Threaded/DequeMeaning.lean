import Libntech.Threaded.Deque
import Libntech.Threaded.QueueMeaning
import Mathlib.Data.List.Induction

/-! # A ThreadedDeque is a double-ended list

`deListStep` answers every call on the list of the items held, leftmost first. `DequeRepresents` ties
the circular array to it; `right` is always the wrapped index just past the last item. The sizes of the
blocks are limited as for the queue.
-/
namespace Libntech.Threaded
open Lib
set_option autoImplicit false

variable {α : Type}

/-! ## The double-ended list -/

def ItemList.popRight (l : ItemList α) : Effect (ItemList α) (Reply α) :=
  match l.items.getLast? with
  | none => .update l (.popped false (some none))
  | some x => .update { l with items := l.items.dropLast } (.popped true (some (some x)))

/-- The items leave from the right end, so the last one comes first. -/
def ItemList.popRightN (l : ItemList α) (num : ℕ) : Effect (ItemList α) (Reply α) :=
  .update { l with items := l.items.take (l.items.length - num) }
    (.poppedN (min num l.items.length) ((l.items.reverse.take num).map some))

def deListStep (l : ItemList α) : DequeCall α → Option (Effect (ItemList α) (Reply α))
  | .pushLeft item => some (.update { l with items := item :: l.items } (.count (l.items.length + 1)))
  | .pushRight item =>
    some (.update { l with items := l.items ++ [item] } (.count (l.items.length + 1)))
  | .popLeft timeout expired => l.waiting timeout expired (.popped false none) l.pop
  | .popRight timeout expired => l.waiting timeout expired (.popped false none) l.popRight
  | .popLeftN num timeout expired => l.waiting timeout expired (.poppedN 0 []) (l.popN num)
  | .popRightN num timeout expired => l.waiting timeout expired (.poppedN 0 []) (l.popRightN num)
  | .copy => some { self := some l, spawned := some l, reply := .copied }
  | .count => some (.update l (.count l.items.length))
  | .destroy => some { self := none, spawned := none, reply := .cleared l.disposal }

/-! ## The representation invariant -/

structure DequeRepresents (d : ThreadedDeque α) (l : ItemList α) : Prop where
  destroy_eq : d.itemDestroy = l.itemDestroy
  holds : RingHolds d.data d.capacity d.left l.items
  size_eq : d.size = l.items.length
  right_eq : d.right = (d.left + d.size) % d.capacity
  fits : 8 * d.capacity < 2 ^ 64

theorem threadedDequeNew_represents {initialCapacity : ℕ} (hsize : 8 * initialCapacity < 2 ^ 64)
    (itemDestroy : Bool) :
    DequeRepresents (threadedDequeNew initialCapacity itemDestroy : ThreadedDeque α)
      ⟨itemDestroy, []⟩ := by
  obtain ⟨hpos, hfits⟩ := capacity_fits hsize
  refine ⟨rfl, RingHolds.empty (by simp [threadedDequeNew, cellsOf_eq hfits]) hpos, rfl, ?_, hfits⟩
  simp [threadedDequeNew]

variable {d : ThreadedDeque α} {l : ItemList α}

theorem DequeRepresents.right_lt (h : DequeRepresents d l) : d.right < d.capacity := by
  rw [h.right_eq]
  exact Nat.mod_lt _ h.holds.cap_pos

/-! ## Growing and pushing -/

theorem deque_expandIfNecessary_room (h : DequeRepresents d l) (hfew : l.items.length < 2 ^ 60) :
    ∃ d', d.expandIfNecessary = some d' ∧ DequeRepresents d' l ∧ l.items.length < d'.capacity := by
  have hs := h.size_eq
  have hle := h.holds.size_le
  have hleft := h.holds.head_lt
  have hlen := h.holds.length_eq
  unfold ThreadedDeque.expandIfNecessary
  rw [if_pos (by omega)]
  by_cases hfull : d.size = d.capacity
  · -- full: `left = right`, so it is always the first `right` cells that have wrapped
    have hright : d.right = d.left := by
      rw [h.right_eq, hfull, Nat.add_mod_right, Nat.mod_eq_of_lt hleft]
    have hwrap : d.capacity * expandFactor % 2 ^ 64 = d.capacity * 2 := by
      rw [expandFactor, Nat.mod_eq_of_lt (by omega)]
    have hcells : cellsOf (d.capacity * 2) = d.capacity * 2 := cellsOf_eq (by omega)
    have hmoved : cellsOf d.right = d.right := cellsOf_eq (by omega)
    have hreal : (realloc d.data (d.capacity * 2)).length = d.capacity * 2 := realloc_length _ _
    simp only [if_pos hfull, if_pos (Nat.le_of_eq hright), hwrap, hcells, hmoved, hreal]
    rw [if_pos (by omega)]
    refine ⟨_, rfl, ⟨h.destroy_eq, h.holds.grow ?_ ?_ ?_, hs, ?_, by simp only; omega⟩, by simp only; omega⟩
    · rw [memmove_length _ _ _ _ (by omega) (by omega), hreal]
    · intro j _ hj
      rw [memmove_get_below _ _ _ _ _ (by omega) hj, realloc_get _ _ _ (by omega) (by omega)]
    · intro j hj
      rw [memmove_get_moved _ _ _ _ _ (by omega) (by omega) (by omega), Nat.zero_add,
        realloc_get _ _ _ (by omega) (by omega)]
    · simp only
      rw [Nat.mod_eq_of_lt (by omega)]
      omega
  · rw [if_neg hfull]
    exact ⟨d, rfl, h, by omega⟩

theorem pushLeft_represents (h : DequeRepresents d l) (hfew : l.items.length < 2 ^ 60) (item : α) :
    EffectMatches DequeRepresents (d.pushLeft item) (deListStep l (.pushLeft item)) := by
  obtain ⟨d', hd', hr, hroom⟩ := deque_expandIfNecessary_room h hfew
  have hinside : prevIndex d'.capacity d'.left < d'.data.length := by
    rw [hr.holds.length_eq]
    exact prevIndex_lt hr.holds.head_lt
  simp only [ThreadedDeque.pushLeft, hd', Option.bind_some, if_pos hinside, deListStep]
  refine ⟨.some ⟨hr.destroy_eq, hr.holds.push_front hroom item, ?_, ?_, hr.fits⟩, .none, ?_⟩
  · simp only [hr.size_eq, List.length_cons]
  · simp only
    rw [← ring_index_advance, prevIndex_succ hr.holds.head_lt]
    exact hr.right_eq
  · simp only [Effect.update, hr.size_eq]

theorem pushRight_represents (h : DequeRepresents d l) (hfew : l.items.length < 2 ^ 60) (item : α) :
    EffectMatches DequeRepresents (d.pushRight item) (deListStep l (.pushRight item)) := by
  obtain ⟨d', hd', hr, hroom⟩ := deque_expandIfNecessary_room h hfew
  have hinside : d'.right < d'.data.length := by
    rw [hr.holds.length_eq]
    exact hr.right_lt
  simp only [ThreadedDeque.pushRight, hd', Option.bind_some, if_pos hinside, deListStep]
  refine ⟨.some ⟨hr.destroy_eq, ?_, ?_, ?_, hr.fits⟩, .none, ?_⟩
  · simp only [hr.right_eq, hr.size_eq]
    exact hr.holds.push_back hroom item
  · simp only [hr.size_eq, List.length_append, List.length_singleton]
  · simp only [hr.right_eq]
    rw [Nat.mod_add_mod, Nat.add_assoc]
  · simp only [Effect.update, hr.size_eq]

/-! ## Popping -/

theorem popLeft_represents (h : DequeRepresents d l) (timeout : ℤ) (expired : Bool) :
    EffectMatches DequeRepresents (d.popLeft timeout expired)
      (deListStep l (.popLeft timeout expired)) := by
  simp only [ThreadedDeque.popLeft, deListStep, ItemList.waiting, h.size_eq]
  cases waitNonEmpty l.items.length timeout expired with
  | blocked => trivial
  | timedOut => exact ⟨.some h, .none, rfl⟩
  | proceed =>
    obtain ⟨itemDestroy, items⟩ := l
    cases items with
    | nil => exact ⟨.some h, .none, rfl⟩
    | cons x rest =>
      have hsize : d.size = rest.length + 1 := h.size_eq
      simp only [List.length_cons, Nat.zero_lt_succ, if_true, ItemList.pop]
      refine ⟨.some ⟨h.destroy_eq, h.holds.pop_front, by simp only; omega, ?_, h.fits⟩, .none, ?_⟩
      · simp only [Nat.add_sub_cancel]
        rw [ring_index_advance, h.right_eq, hsize]
      · simp only [Effect.update, h.holds.front]

theorem popRight_represents (h : DequeRepresents d l) (timeout : ℤ) (expired : Bool) :
    EffectMatches DequeRepresents (d.popRight timeout expired)
      (deListStep l (.popRight timeout expired)) := by
  simp only [ThreadedDeque.popRight, deListStep, ItemList.waiting, h.size_eq]
  cases waitNonEmpty l.items.length timeout expired with
  | blocked => trivial
  | timedOut => exact ⟨.some h, .none, rfl⟩
  | proceed =>
    obtain ⟨itemDestroy, items⟩ := l
    cases items using List.reverseRecOn with
    | nil => exact ⟨.some h, .none, rfl⟩
    | append_singleton rest x _ =>
      have hsize : d.size = rest.length + 1 := by
        rw [h.size_eq]
        simp
      have hlast : prevIndex d.capacity d.right = (d.left + rest.length) % d.capacity := by
        rw [h.right_eq, hsize, prevIndex_end h.holds.cap_pos]
      simp only [List.length_append, List.length_singleton, Nat.zero_lt_succ, if_true, ItemList.popRight,
        List.getLast?_concat, List.dropLast_concat, hlast, Nat.add_sub_cancel]
      refine ⟨.some ⟨h.destroy_eq, h.holds.pop_back, rfl, rfl, h.fits⟩, .none, ?_⟩
      simp only [Effect.update, h.holds.back]

theorem popLeftN_represents (h : DequeRepresents d l) (num : ℕ) (timeout : ℤ) (expired : Bool) :
    EffectMatches DequeRepresents (d.popLeftN num timeout expired)
      (deListStep l (.popLeftN num timeout expired)) := by
  simp only [ThreadedDeque.popLeftN, deListStep, ItemList.waiting, h.size_eq]
  cases waitNonEmpty l.items.length timeout expired with
  | blocked => trivial
  | timedOut => exact ⟨.some h, .none, rfl⟩
  | proceed =>
    have hlen := take_drop_length l.items num
    simp only [popN_size, ItemList.popN, ← List.length_take]
    by_cases hpos : 0 < (l.items.take num).length
    · obtain ⟨h₁, h₂, h₃⟩ := takeLoop_take h.holds num
      simp only [if_pos hpos]
      refine ⟨.some ⟨h.destroy_eq, ?_, by simp only; omega, ?_, h.fits⟩, .none, ?_⟩
      · simp only [h₂]
        exact h₃
      · simp only [h₂]
        rw [Nat.mod_add_mod, h.right_eq, h.size_eq]
        congr 1
        omega
      · simp only [Effect.update, h₁]
    · have hnil : l.items.take num = [] := List.eq_nil_of_length_eq_zero (by omega)
      simp only [drop_of_take_nil hnil, hnil]
      exact ⟨.some h, .none, rfl⟩

theorem takeRightLoop_holds (xs ys : List α) {data : List (Option α)} {capacity left : ℕ}
    (h : RingHolds data capacity left (ys ++ xs.reverse)) :
    (takeRightLoop capacity xs.length data ((left + (ys.length + xs.length)) % capacity)).1 =
        xs.map some ∧
      (takeRightLoop capacity xs.length data ((left + (ys.length + xs.length)) % capacity)).2.2 =
        (left + ys.length) % capacity ∧
      RingHolds (takeRightLoop capacity xs.length data
        ((left + (ys.length + xs.length)) % capacity)).2.1 capacity left ys := by
  induction xs generalizing data with
  | nil =>
    rw [List.reverse_nil, List.append_nil] at h
    exact ⟨rfl, rfl, h⟩
  | cons x xs ih =>
    rw [List.reverse_cons, ← List.append_assoc] at h
    have hback := h.back
    have hpop := h.pop_back
    rw [List.length_append, List.length_reverse] at hback hpop
    obtain ⟨h₁, h₂, h₃⟩ := ih hpop
    simp only [List.length_cons, takeRightLoop, ← Nat.add_assoc ys.length,
      prevIndex_end h.cap_pos, hback, List.map_cons]
    exact ⟨by rw [h₁], h₂, h₃⟩

theorem popRightN_represents (h : DequeRepresents d l) (num : ℕ) (timeout : ℤ) (expired : Bool) :
    EffectMatches DequeRepresents (d.popRightN num timeout expired)
      (deListStep l (.popRightN num timeout expired)) := by
  simp only [ThreadedDeque.popRightN, deListStep, ItemList.waiting, h.size_eq]
  cases waitNonEmpty l.items.length timeout expired with
  | blocked => trivial
  | timedOut => exact ⟨.some h, .none, rfl⟩
  | proceed =>
    -- the items that leave, in the order they leave
    have hmin := popN_size l.items.reverse num
    rw [List.length_reverse] at hmin
    have hmin' : min num l.items.length = (l.items.reverse.take num).length := by
      rw [List.length_take, List.length_reverse]
    simp only [hmin, ItemList.popRightN, hmin']
    have hsplit : l.items.take (l.items.length - num) ++ (l.items.reverse.take num).reverse = l.items := by
      rw [List.reverse_take, List.length_reverse, List.reverse_reverse, List.take_append_drop]
    have hlen : (l.items.take (l.items.length - num)).length + (l.items.reverse.take num).length =
        l.items.length := by
      rw [List.length_take, List.length_take, List.length_reverse]
      omega
    by_cases hpos : 0 < (l.items.reverse.take num).length
    · have hholds := h.holds
      rw [← hsplit] at hholds
      have hright : d.right = (d.left + ((l.items.take (l.items.length - num)).length +
          (l.items.reverse.take num).length)) % d.capacity := by
        rw [hlen, h.right_eq, h.size_eq]
      obtain ⟨h₁, h₂, h₃⟩ := takeRightLoop_holds _ _ hholds
      rw [← hright] at h₁ h₂ h₃
      simp only [if_pos hpos]
      refine ⟨.some ⟨h.destroy_eq, h₃, by simp only; omega, ?_, h.fits⟩, .none, ?_⟩
      · simp only [h₂]
        congr 2
        omega
      · simp only [Effect.update, h₁]
    · have hnil : l.items.reverse.take num = [] := List.eq_nil_of_length_eq_zero (by omega)
      have hkeep : l.items.take (l.items.length - num) = l.items := by
        rw [hnil, List.reverse_nil, List.append_nil] at hsplit
        exact hsplit
      simp only [hkeep, hnil]
      exact ⟨.some h, .none, rfl⟩

/-! ## Disposing of everything -/

/-- The do-while loop of `DestroyRange` meets every item once, whether or not the ring is full: only
after the last item is the wrapped index back at `right`. -/
theorem dequeDestroyLoop_calls (d : ThreadedDeque α) (xs : List α) (x : α) :
    ∀ (fuel left : ℕ), xs.length < fuel → RingHolds d.data d.capacity left (x :: xs) →
      d.destroyLoop ((left + (xs.length + 1)) % d.capacity) fuel left = some ((x :: xs).map some) := by
  induction xs generalizing x with
  | nil =>
    intro fuel left hfuel hr
    obtain ⟨fuel, rfl⟩ : ∃ n, fuel = n + 1 := ⟨fuel - 1, by omega⟩
    simp only [ThreadedDeque.destroyLoop, List.length_nil, Nat.zero_add, if_true, hr.front,
      List.map_cons, List.map_nil]
  | cons y xs ih =>
    intro fuel left hfuel hr
    rw [List.length_cons] at hfuel
    obtain ⟨fuel, rfl⟩ : ∃ n, fuel = n + 1 := ⟨fuel - 1, by omega⟩
    have hsize := hr.size_le
    simp only [List.length_cons] at hsize
    have hne : (left + 1) % d.capacity ≠ (left + (xs.length + 1 + 1)) % d.capacity := by
      intro heq
      have h0 : (left + 1 + 0) % d.capacity = (left + 1 + (xs.length + 1)) % d.capacity := by
        rw [show left + 1 + (xs.length + 1) = left + (xs.length + 1 + 1) by omega]
        exact heq
      have := ring_index_inj hr.cap_pos (by omega) h0
      omega
    have hrest := ih y fuel ((left + 1) % d.capacity) (by omega) hr.advance
    rw [ring_index_advance] at hrest
    simp only [ThreadedDeque.destroyLoop, List.length_cons, if_neg hne, hrest, Option.map_some,
      hr.front, List.map_cons]

theorem dequeDestroyRange_disposal (h : DequeRepresents d l) :
    d.destroyRange d.left d.right = some l.disposal := by
  have hleft := h.holds.head_lt
  have hright := h.right_lt
  obtain ⟨itemDestroy, items⟩ := l
  unfold ThreadedDeque.destroyRange
  rw [if_neg (by omega), h.destroy_eq, h.size_eq]
  cases items with
  | nil => simp [ItemList.disposal]
  | cons x rest =>
    have hle := h.holds.size_le
    rw [List.length_cons] at hle
    cases itemDestroy with
    | false => simp [ItemList.disposal]
    | true =>
      have hcalls := dequeDestroyLoop_calls d rest x d.capacity d.left (by omega) h.holds
      have hr : d.right = (d.left + (rest.length + 1)) % d.capacity := by
        rw [h.right_eq, h.size_eq, List.length_cons]
      simp only [List.length_cons, Nat.zero_lt_succ, and_self, if_true, hr, hcalls, ItemList.disposal]

/-! ## One call, then every interleaving -/

/-- A push does not find `2^60` items. -/
def ItemList.takesEnd (l : ItemList α) : DequeCall α → Prop
  | .pushLeft _ => l.items.length < 2 ^ 60
  | .pushRight _ => l.items.length < 2 ^ 60
  | _ => True

theorem dequeStep_matches (d : ThreadedDeque α) (l : ItemList α) (call : DequeCall α) (hfew : l.takesEnd call)
    (h : DequeRepresents d l) :
    EffectMatches DequeRepresents (dequeStep d call) (deListStep l call) := by
  cases call with
  | pushLeft item => exact pushLeft_represents h hfew item
  | pushRight item => exact pushRight_represents h hfew item
  | popLeft timeout expired => exact popLeft_represents h timeout expired
  | popRight timeout expired => exact popRight_represents h timeout expired
  | popLeftN num timeout expired => exact popLeftN_represents h num timeout expired
  | popRightN num timeout expired => exact popRightN_represents h num timeout expired
  | copy =>
    refine ⟨.some h, .some ⟨h.destroy_eq, ?_, h.size_eq, h.right_eq, h.fits⟩, rfl⟩
    simp only [cellsOf_eq h.fits, List.take_of_length_le (Nat.le_of_eq h.holds.length_eq)]
    exact h.holds
  | count =>
    refine ⟨.some h, .none, ?_⟩
    simp only [Effect.update, h.size_eq]
  | destroy =>
    simp only [dequeStep, ThreadedDeque.destroy, dequeDestroyRange_disposal h, Option.map_some]
    exact ⟨.none, .none, rfl⟩

/-- A deque and all its copies after a schedule of calls, with the replies given. -/
def dequeWorlds (initialCapacity : ℕ) (itemDestroy : Bool) (calls : List (ℕ × DequeCall α)) :
    Option (List (Option (ThreadedDeque α)) × List (Reply α)) :=
  run (worldStep dequeStep) [some (threadedDequeNew initialCapacity itemDestroy)] calls

/-- The same schedule on lists. -/
def deListWorlds (itemDestroy : Bool) (calls : List (ℕ × DequeCall α)) :
    Option (List (Option (ItemList α)) × List (Reply α)) :=
  run (worldStep deListStep) [some ⟨itemDestroy, []⟩] calls

/-- No push of the schedule finds `2^60` items in its deque. -/
def FewHeld (itemDestroy : Bool) (calls : List (ℕ × DequeCall α)) : Prop :=
  Along (OnLive ItemList.takesEnd) (worldStep deListStep) [some ⟨itemDestroy, []⟩] calls

theorem dequeWorlds_match {initialCapacity : ℕ} (itemDestroy : Bool) {calls : List (ℕ × DequeCall α)}
    (hsize : 8 * initialCapacity < 2 ^ 64) (hfew : FewHeld itemDestroy calls) :
    Matches (WorldRel DequeRepresents) (dequeWorlds initialCapacity itemDestroy calls)
      (deListWorlds itemDestroy calls) :=
  run_matches_along (world_matches_on dequeStep_matches) calls _ _ hfew
    (.cons (.some (threadedDequeNew_represents hsize itemDestroy)) .nil)

theorem DequeRepresents.contents_eq (h : DequeRepresents d l) : d.contents = l.items.map some := by
  rw [ThreadedDeque.contents, h.size_eq]
  exact h.holds.read_all

/-- Any schedule of calls on a fresh deque and the copies made of it gets the replies a double-ended
list gives (the `ItemDestroy` calls of `destroy` among them), and every deque reached holds its list. -/
theorem threadedDeque_refines_list (initialCapacity : ℕ) (itemDestroy : Bool)
    (calls : List (ℕ × DequeCall α)) (hsize : 8 * initialCapacity < 2 ^ 64) (hfew : FewHeld itemDestroy calls) :
    (dequeWorlds initialCapacity itemDestroy calls).map Prod.snd =
        (deListWorlds itemDestroy calls).map Prod.snd ∧
      ∀ deques replies, dequeWorlds initialCapacity itemDestroy calls = some (deques, replies) →
        ∃ lists, deListWorlds itemDestroy calls = some (lists, replies) ∧
          WorldRel (fun d l => d.contents = l.items.map some ∧ d.itemDestroy = l.itemDestroy ∧
            d.left < d.capacity ∧ d.right < d.capacity ∧ d.size ≤ d.capacity ∧
            d.right = (d.left + d.size) % d.capacity) deques lists := by
  have hmatch := dequeWorlds_match itemDestroy hsize hfew
  refine ⟨hmatch.reply_eq, ?_⟩
  intro deques replies hrun
  rw [hrun] at hmatch
  obtain ⟨lists, hlists, hrel⟩ := hmatch.some_left
  refine ⟨lists, hlists, hrel.mono fun h => ?_⟩
  exact ⟨h.contents_eq, h.destroy_eq, h.holds.head_lt, h.right_lt, h.size_eq ▸ h.holds.size_le, h.right_eq⟩

/-- A deque of one cell grows for the second item, and the items leave it from the right. -/
theorem threadedDeque_refines_list_copied :
    (dequeWorlds 1 true [(0, .pushLeft 10), (0, .pushLeft 20), (0, .copy), (1, .destroy),
      (0, .popRightN 5 0 false)]).map Prod.snd =
      some [.count 1, .count 2, .copied, .cleared [some 20, some 10], .poppedN 2 [some 10, some 20]] := by
  refine (threadedDeque_refines_list 1 true _ (by decide) ?_).1.trans rfl
  refine .cons (.intro rfl ?_) rfl (.cons (.intro rfl ?_) rfl (.cons (.intro rfl trivial) rfl
    (.cons (.intro rfl trivial) rfl (.cons (.intro rfl trivial) rfl trivial))))
  · show 0 < 2 ^ 60
    decide
  · show 1 < 2 ^ 60
    decide

/-- The block of `2^61` cells has no cell, and the first push is outside. -/
theorem threadedDequeNew_too_large : ¬ ∀ (initialCapacity : ℕ) (itemDestroy : Bool) (calls : List (ℕ × DequeCall ℕ)),
    (dequeWorlds initialCapacity itemDestroy calls).map Prod.snd =
      (deListWorlds itemDestroy calls).map Prod.snd := by
  intro h
  have hpush := h (2 ^ 61) false [(0, .pushRight 10)]
  cases hpush

end Libntech.Threaded
