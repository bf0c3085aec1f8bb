import Libntech.Threaded.QueueMeaning
import Mathlib.Data.List.Perm.Basic

/-! # Consumers that wait for a ThreadedQueue (`libutils/threaded_queue.c`, `libutils/mutex.c`)

A pop without a time limit that finds the queue empty waits on `cond_non_empty`. `ThreadWait` gives up the lock and puts
the consumer in the waiting set; a signal makes one or more of the waiting consumers runnable; a runnable consumer
takes the lock again at some later time, looks at the size again, and waits again if the queue is empty.

`Push` and `PushN` signal once each. One signal is enough for one item; for a batch it can be too little.
-/
namespace Libntech.Threaded
open Lib
set_option autoImplicit false

variable {α : Type}

/-! ## The waiting set -/

/-- `THREAD_BLOCK_INDEFINITELY` -/
def threadBlockIndefinitely : ℤ := -1

inductive ConsumerCall where
  | pop
  | popN (num : ℕ) (pos : 0 < num)
  deriving DecidableEq

structure Consumer where
  thread : ℕ
  call : ConsumerCall
  deriving DecidableEq

/-- The call, as it goes on when the wait is over or not needed. -/
def ConsumerCall.queueCall : ConsumerCall → QueueCall α
  | .pop => .pop threadBlockIndefinitely false
  | .popN num _ => .popN num threadBlockIndefinitely false

structure WaitState (α : Type) where
  queue : ThreadedQueue α
  waiting : List Consumer
  woken : List Consumer

def waitStart (initialCapacity : ℕ) (itemDestroy : Bool) : WaitState α :=
  ⟨threadedQueueNew initialCapacity itemDestroy, [], []⟩

/-- The consumers of `wakes` become runnable. -/
def WaitState.wake (s : WaitState α) (wakes : List Consumer) : WaitState α :=
  { s with waiting := s.waiting.diff wakes, woken := s.woken ++ wakes }

/-- A consumer has the lock: it waits, or it takes what it came for. -/
def WaitState.attempt (s : WaitState α) (c : Consumer) : WaitState α :=
  match queueStep s.queue c.call.queueCall with
  | none => { s with waiting := s.waiting ++ [c] }
  | some e =>
    match e.self with
    | none => s
    | some queue => { s with queue }

/-- A push, then `pthread_cond_signal`: it wakes at least one of the waiting consumers, if there are any. -/
def WaitState.pushAndSignal (s : WaitState α) (call : QueueCall α) (wakes : List Consumer) : Option (WaitState α) :=
  match queueStep s.queue call with
  | none => none
  | some e =>
    match e.self with
    | none => none
    | some queue =>
      if wakes.Subperm s.waiting ∧ (s.waiting = [] ∨ wakes ≠ []) then some ({ s with queue }.wake wakes) else none

/-- What can happen; the scheduler's choices are part of it. -/
inductive WaitEvent (α : Type) where
  | push (item : α) (wakes : List Consumer)
  | pushN (items : List α) (wakes : List Consumer)
  /-- A consumer makes its call. -/
  | arrive (c : Consumer)
  /-- A consumer that was woken has the lock again. -/
  | resume (c : Consumer)
  /-- A wakeup without a signal. -/
  | spurious (c : Consumer)

def waitStep (s : WaitState α) : WaitEvent α → Option (WaitState α × Unit)
  | .push item wakes => (s.pushAndSignal (.push item) wakes).map fun s => (s, ())
  | .pushN items wakes => (s.pushAndSignal (.pushN items) wakes).map fun s => (s, ())
  | .arrive c => some (s.attempt c, ())
  | .resume c => if c ∈ s.woken then some (({ s with woken := s.woken.erase c }).attempt c, ()) else none
  | .spurious c => if c ∈ s.waiting then some (s.wake [c], ()) else none

/-! ## No lost wakeup -/

/-- While a consumer waits, there is a woken one for every item. -/
def WaitState.NoLostWakeup (s : WaitState α) : Prop :=
  0 < s.queue.size → s.waiting ≠ [] → s.queue.size ≤ s.woken.length

/-- One signal is enough for `n` more items: nobody is left waiting, or enough consumers are on their way. -/
def WaitState.oneSignalIsEnough (s : WaitState α) (n : ℕ) : Bool :=
  s.waiting.length ≤ 1 || s.queue.size + n ≤ s.woken.length + 1

def WaitEvent.enough (s : WaitState α) : WaitEvent α → Bool
  | .pushN items _ => s.oneSignalIsEnough items.length
  | _ => true

/-- The steps in which a batch is pushed only when one signal is enough for it. -/
def enoughStep (s : WaitState α) (e : WaitEvent α) : Option (WaitState α × Unit) :=
  if e.enough s then waitStep s e else none

/-! ## What a step does to the counts -/

variable {s : WaitState α} {wakes : List Consumer}

theorem wake_length (h : wakes.Subperm s.waiting) :
    (s.wake wakes).waiting.length + wakes.length = s.waiting.length := by
  have hperm := List.subperm_append_diff_self_of_count_le fun c _ => h.count_le c
  have hlen := hperm.length_eq
  rw [List.length_append] at hlen
  unfold WaitState.wake
  dsimp only
  omega

/-- The queue of a state stands for a list. -/
def WaitState.Sound (s : WaitState α) : Prop := ∃ f : ItemList α, Represents s.queue f

theorem attempt_sound (h : s.Sound) (c : Consumer) :
    (s.attempt c).Sound ∧
      ((s.queue.size = 0 ∧ (s.attempt c).queue.size = 0 ∧ (s.attempt c).woken = s.woken) ∨
        ((s.attempt c).queue.size < s.queue.size ∧ (s.attempt c).waiting = s.waiting ∧
          (s.attempt c).woken = s.woken)) := by
  obtain ⟨f, hf⟩ := h
  have htakes : f.takes (c.call.queueCall : QueueCall α) := by
    unfold ConsumerCall.queueCall
    split <;> trivial
  have hmatch := queueStep_matches s.queue f c.call.queueCall htakes hf
  obtain ⟨thread, call⟩ := c
  obtain ⟨itemDestroy, items⟩ := f
  have hsize := hf.size_eq
  unfold WaitState.attempt
  cases items with
  | nil =>
    have hblocked : fifoStep (⟨itemDestroy, []⟩ : ItemList α) call.queueCall = none := by
      cases call with
      | pop => rfl
      | popN num pos => rfl
    rw [hblocked] at hmatch
    revert hmatch
    dsimp only
    cases queueStep s.queue call.queueCall with
    | none => exact fun _ => ⟨⟨_, hf⟩, .inl ⟨hsize, hsize, rfl⟩⟩
    | some e => exact fun hmatch => hmatch.elim
  | cons x rest =>
    have htakes : ∃ g : ItemList α, ∃ reply : Reply α, fifoStep ⟨itemDestroy, x :: rest⟩ call.queueCall =
        some (.update g reply) ∧ g.items.length < (x :: rest).length := by
      cases call with
      | pop => exact ⟨_, _, rfl, by simp⟩
      | popN num pos =>
        refine ⟨_, _, rfl, ?_⟩
        dsimp only
        rw [List.length_drop, List.length_cons]
        omega
    obtain ⟨g, reply, hg, hlt⟩ := htakes
    rw [hg] at hmatch
    revert hmatch
    dsimp only
    cases queueStep s.queue call.queueCall with
    | none => exact fun hmatch => hmatch.elim
    | some e =>
      obtain ⟨self, spawned, r⟩ := e
      rintro ⟨hself, _, _⟩
      cases hself with
      | some hrep => exact ⟨⟨g, hrep⟩, .inr ⟨by rw [hrep.size_eq, hsize]; exact hlt, rfl, rfl⟩⟩

/-- The call pushes the items. -/
inductive Pushes : QueueCall α → List α → Prop where
  | push (item : α) : Pushes (.push item) [item]
  | pushN (items : List α) : Pushes (.pushN items) items

/-- A push that stays inside the block adds its items to the list. -/
theorem Pushes.inside {call : QueueCall α} {items : List α} (hcall : Pushes call items) {q : ThreadedQueue α}
    {f : ItemList α} (h : Represents q f) {e : Effect (ThreadedQueue α) (Reply α)} (hstep : queueStep q call = some e) :
    ∃ q', e.self = some q' ∧ Represents q' { f with items := f.items ++ items } := by
  cases hcall with
  | push item =>
    obtain ⟨q', happend, rfl⟩ := Option.map_eq_some_iff.mp hstep
    exact ⟨q', rfl, append_inside h happend⟩
  | pushN items =>
    obtain ⟨q', happend, rfl⟩ := Option.map_eq_some_iff.mp hstep
    exact ⟨q', rfl, foldlM_append_inside items h happend⟩

theorem pushAndSignal_sound {s' : WaitState α} (h : s.Sound) {call : QueueCall α} {items : List α}
    (hcall : Pushes call items) (hs : s.pushAndSignal call wakes = some s') :
    s'.Sound ∧ s'.queue.size = s.queue.size + items.length ∧ s'.woken.length = s.woken.length + wakes.length ∧
      s'.waiting.length + wakes.length = s.waiting.length ∧ (s.waiting = [] ∨ 0 < wakes.length) := by
  obtain ⟨f, hf⟩ := h
  unfold WaitState.pushAndSignal at hs
  cases hstep : queueStep s.queue call with
  | none =>
    rw [hstep] at hs
    cases hs
  | some e =>
    obtain ⟨queue, hself, hrep⟩ := hcall.inside hf hstep
    simp only [hstep, hself] at hs
    split at hs
    · rename_i hvalid
      rw [Option.some.injEq] at hs
      subst hs
      have hlen : _ = s.waiting.length := wake_length (s := { s with queue }) hvalid.1
      have hsize : queue.size = s.queue.size + items.length := by
        rw [hrep.size_eq, hf.size_eq, List.length_append]
      refine ⟨⟨_, hrep⟩, hsize, List.length_append, hlen, ?_⟩
      exact hvalid.2.imp_right fun hne => List.length_pos_of_ne_nil hne
    · cases hs

/-- A batch that is small enough is pushed, whatever the signal wakes. -/
theorem pushN_possible (h : s.Sound) {items : List α} (hfew : s.queue.size + items.length ≤ 2 ^ 60)
    (hvalid : wakes.Subperm s.waiting ∧ (s.waiting = [] ∨ wakes ≠ [])) :
    ∃ s', s.pushAndSignal (.pushN items) wakes = some s' := by
  obtain ⟨f, hf⟩ := h
  rw [hf.size_eq] at hfew
  obtain ⟨queue, hqueue, -⟩ := foldlM_append_represents items hf hfew
  refine ⟨({ s with queue }).wake wakes, ?_⟩
  simp only [WaitState.pushAndSignal, queueStep, ThreadedQueue.pushN, hqueue, Option.map_some, Effect.update,
    if_pos hvalid]

/-! ## One step, then every run -/

/-- A push keeps up with the items if it finds enough consumers woken. -/
theorem pushAndSignal_noLostWakeup {s' : WaitState α} {n wakes : ℕ} (henough : s.oneSignalIsEnough n = true)
    (hsize : s'.queue.size = s.queue.size + n) (hwoken : s'.woken.length = s.woken.length + wakes)
    (hwaiting : s'.waiting.length + wakes = s.waiting.length) (hsignal : s.waiting = [] ∨ 0 < wakes) :
    s'.NoLostWakeup := by
  intro _ hne
  have hpos := List.length_pos_of_ne_nil hne
  have hwakes : 0 < wakes := by
    rcases hsignal with hnil | hpos
    · rw [hnil, List.length_nil] at hwaiting
      omega
    · exact hpos
  unfold WaitState.oneSignalIsEnough at henough
  simp only [Bool.or_eq_true, decide_eq_true_eq] at henough
  omega

theorem NoLostWakeup.one_item (h : s.NoLostWakeup) : s.oneSignalIsEnough 1 = true := by
  unfold WaitState.oneSignalIsEnough
  simp only [Bool.or_eq_true, decide_eq_true_eq]
  by_cases hsize : 0 < s.queue.size
  · by_cases hne : s.waiting = []
    · simp [hne]
    · have := h hsize hne
      omega
  · omega

theorem attempt_keeps (hsound : s.Sound) (c : Consumer)
    (h : 0 < s.queue.size → s.waiting ≠ [] → s.queue.size ≤ s.woken.length + 1) :
    (s.attempt c).Sound ∧ (s.attempt c).NoLostWakeup := by
  obtain ⟨hsound', hcases⟩ := attempt_sound hsound c
  refine ⟨hsound', fun hpos hne => ?_⟩
  rcases hcases with ⟨_, hzero, _⟩ | ⟨hlt, hwaiting, hwoken⟩
  · omega
  · rw [hwaiting] at hne
    rw [hwoken]
    have := h (by omega) hne
    omega

theorem enoughStep_keeps (s : WaitState α) (e : WaitEvent α) (s' : WaitState α) (reply : Unit)
    (hinv : s.Sound ∧ s.NoLostWakeup) (hstep : enoughStep s e = some (s', reply)) : s'.Sound ∧ s'.NoLostWakeup := by
  obtain ⟨hsound, hwake⟩ := hinv
  unfold enoughStep at hstep
  split at hstep
  · rename_i henough
    cases e with
    | push item wakes =>
      obtain ⟨t, ht, heq⟩ := Option.map_eq_some_iff.mp hstep
      obtain ⟨rfl, -⟩ := Prod.mk.inj heq
      obtain ⟨hsound', hsize, hwoken, hwaiting, hsignal⟩ := pushAndSignal_sound hsound (.push item) ht
      exact ⟨hsound', pushAndSignal_noLostWakeup (NoLostWakeup.one_item hwake) hsize hwoken hwaiting hsignal⟩
    | pushN items wakes =>
      obtain ⟨t, ht, heq⟩ := Option.map_eq_some_iff.mp hstep
      obtain ⟨rfl, -⟩ := Prod.mk.inj heq
      obtain ⟨hsound', hsize, hwoken, hwaiting, hsignal⟩ := pushAndSignal_sound hsound (.pushN items) ht
      exact ⟨hsound', pushAndSignal_noLostWakeup henough hsize hwoken hwaiting hsignal⟩
    | arrive c =>
      obtain ⟨rfl, -⟩ := Prod.mk.inj (Option.some.inj hstep)
      exact attempt_keeps hsound c fun hpos hne => Nat.le_succ_of_le (hwake hpos hne)
    | resume c =>
      simp only [waitStep] at hstep
      split at hstep
      · rename_i hmem
        obtain ⟨rfl, -⟩ := Prod.mk.inj (Option.some.inj hstep)
        have hlen := List.length_erase_of_mem hmem
        have hpos := List.length_pos_of_mem hmem
        -- the consumer that leaves the woken ones takes an item with it
        refine attempt_keeps (s := { s with woken := s.woken.erase c }) hsound c fun hsize hne => ?_
        have hle : s.queue.size ≤ s.woken.length := hwake hsize hne
        dsimp only
        omega
      · cases hstep
    | spurious c =>
      simp only [waitStep] at hstep
      split at hstep
      · rename_i hmem
        obtain ⟨rfl, -⟩ := Prod.mk.inj (Option.some.inj hstep)
        refine ⟨hsound, fun hpos hne => ?_⟩
        have hne' : s.waiting ≠ [] := List.ne_nil_of_mem hmem
        have := hwake hpos hne'
        have hlen : (s.wake [c]).woken.length = s.woken.length + 1 := List.length_append
        have hsize : (s.wake [c]).queue.size = s.queue.size := rfl
        omega
      · cases hstep
  · cases hstep

/-- In every run that pushes a batch only when one signal is enough for it, no wakeup is lost. For any other batch that
can be pushed there is a choice of the signal that loses one. -/
theorem no_lost_wakeup_of_enough_signals (initialCapacity : ℕ) (itemDestroy : Bool) (events : List (WaitEvent α))
    (s : WaitState α) (replies : List Unit) (hsize : 8 * initialCapacity < 2 ^ 64)
    (hrun : run enoughStep (waitStart initialCapacity itemDestroy) events = some (s, replies)) :
    s.NoLostWakeup ∧ ∀ items : List α, s.queue.size + items.length ≤ 2 ^ 60 →
      ((∀ wakes s' reply, waitStep s (.pushN items wakes) = some (s', reply) → s'.NoLostWakeup) ↔
        s.oneSignalIsEnough items.length = true) := by
  have hstart : (waitStart initialCapacity itemDestroy : WaitState α).Sound ∧
      (waitStart initialCapacity itemDestroy : WaitState α).NoLostWakeup :=
    ⟨⟨_, threadedQueueNew_represents hsize itemDestroy⟩, fun _ hne => absurd rfl hne⟩
  obtain ⟨hsound, hwake⟩ := run_invariant enoughStep_keeps events _ s replies hstart hrun
  refine ⟨hwake, fun items hfew => ⟨fun hall => ?_, fun henough wakes s' reply hstep => ?_⟩⟩
  · cases hwaiting : s.waiting with
    | nil => simp [WaitState.oneSignalIsEnough, hwaiting]
    | cons c rest =>
      -- the signal wakes the first consumer only
      have hvalid : [c].Subperm s.waiting ∧ (s.waiting = [] ∨ [c] ≠ []) := by
        rw [hwaiting]
        exact ⟨List.singleton_subperm_iff.mpr List.mem_cons_self, .inr (by simp)⟩
      obtain ⟨s', hs'⟩ := pushN_possible hsound hfew hvalid
      obtain ⟨-, hqueue, hwoken, hlen, -⟩ := pushAndSignal_sound hsound (.pushN items) hs'
      have hafter := hall [c] s' () (by rw [waitStep, hs', Option.map_some])
      rw [WaitState.NoLostWakeup, hqueue, hwoken, List.length_singleton] at hafter
      rw [List.length_singleton] at hlen
      unfold WaitState.oneSignalIsEnough
      simp only [Bool.or_eq_true, decide_eq_true_eq]
      by_cases hpos : 0 < s.queue.size + items.length
      · by_cases hone : s.waiting.length ≤ 1
        · exact .inl hone
        · exact .inr (hafter hpos (List.ne_nil_of_length_pos (by omega)))
      · exact .inr (by omega)
  · obtain ⟨t, ht, heq⟩ := Option.map_eq_some_iff.mp hstep
    obtain ⟨rfl, -⟩ := Prod.mk.inj heq
    obtain ⟨_, hqueue, hwoken, hwaiting, hsignal⟩ := pushAndSignal_sound hsound (.pushN items) ht
    exact pushAndSignal_noLostWakeup henough hqueue hwoken hwaiting hsignal

/-- Two consumers wait, and each gets an item and a signal of its own. -/
def singlePushes : List (WaitEvent ℕ) :=
  [.arrive ⟨1, .pop⟩, .arrive ⟨2, .popN 3 (by decide)⟩, .push 10 [⟨1, .pop⟩], .pushN [20] [⟨2, .popN 3 (by decide)⟩]]

def singlePushesEnd : WaitState ℕ :=
  ((run enoughStep (waitStart 2 false) singlePushes).map Prod.fst).getD (waitStart 2 false)

theorem no_lost_wakeup_of_single_pushes :
    run enoughStep (waitStart 2 false) singlePushes = some (singlePushesEnd, [(), (), (), ()]) ∧
      singlePushesEnd.NoLostWakeup :=
  ⟨rfl, (no_lost_wakeup_of_enough_signals 2 false singlePushes singlePushesEnd [(), (), (), ()] (by decide) rfl).1⟩

/-- Two consumers wait, and a batch of two items wakes one of them. -/
def batchPush : List (WaitEvent ℕ) :=
  [.arrive ⟨1, .pop⟩, .arrive ⟨2, .pop⟩, .pushN [10, 20] [⟨1, .pop⟩]]

theorem batch_push_loses_wakeup :
    ∃ s replies, run waitStep (waitStart 2 false) batchPush = some (s, replies) ∧ s.queue.size = 2 ∧
      s.waiting = [⟨2, .pop⟩] ∧ s.woken = [⟨1, .pop⟩] ∧ ¬ s.NoLostWakeup := by
  refine ⟨_, _, rfl, rfl, rfl, rfl, fun h => ?_⟩
  exact absurd (h (by decide) (by decide)) (by decide)

end Libntech.Threaded
