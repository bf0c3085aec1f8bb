import Libntech.Containers.SequenceOwnership

/-! # A `Seq` owns its items like a list

`ownedStep` answers every call on the list of the items held, and replies with those that are disposed of. A `Seq` does the
same but for two operations: `SeqFilter`, which calls an `ItemDestroy` that is `NULL` and counts in `int`, and
`SeqAppendOnce`, which does not see a `NULL` among the items.
-/
namespace Libntech.Containers
open Lib
set_option autoImplicit false

variable {α : Type}

/-! ## The list -/

structure OwnedList (α : Type) where
  items : List (Option α)
  itemDestroy : Bool

namespace OwnedList

/-- The calls of `ItemDestroy` for items that are removed. -/
def disposed (l : OwnedList α) (removed : List (Option α)) : List (Option α) := if l.itemDestroy then removed else []

def range (l : OwnedList α) (start stop : ℕ) : List (Option α) := (l.items.drop start).take (stop + 1 - start)

def cut (l : OwnedList α) (start stop : ℕ) : OwnedList α :=
  { l with items := l.items.take start ++ l.items.drop (stop + 1) }

def removeRange (l : OwnedList α) (start stop : ℕ) : Option (Effect (OwnedList α) (List (Option α))) :=
  if stop < l.items.length ∧ start ≤ stop then some (.update (l.cut start stop) (l.disposed (l.range start stop)))
  else none

def filter (l : OwnedList α) (filter : Option α → Bool) : Effect (OwnedList α) (List (Option α)) :=
  .update { l with items := l.items.filter fun x => !filter x } (l.disposed (l.items.filter filter))

end OwnedList

def ownedStep (l : OwnedList α) : SeqCall α → Option (Effect (OwnedList α) (List (Option α)))
  | .append item => some (.update { l with items := l.items ++ [item] } [])
  | .appendOnce item Compare =>
    if l.items.any fun x => Compare item x == 0 then some (.update l (l.disposed [item]))
    else some (.update { l with items := l.items ++ [item] } [])
  | .set index item =>
    (l.items[index]?).map fun old => .update { l with items := l.items.set index item } (l.disposed [old])
  | .removeRange start stop => l.removeRange start stop
  | .remove index => l.removeRange index index
  | .softRemoveRange start stop =>
    if stop < l.items.length ∧ start ≤ stop then some (.update (l.cut start stop) []) else none
  | .filter filter => some (l.filter filter)
  | .removeNulls => some (l.filter Option.isNone)
  | .clear => some (.update { l with items := [] } (l.disposed l.items))
  | .split index =>
    if l.items.length < index then none
    else some ⟨some { l with items := l.items.take index }, some { l with items := l.items.drop index }, []⟩
  | .reverse => some (.update { l with items := l.items.reverse } [])
  | .destroy => some ⟨none, none, l.disposed l.items⟩

/-! ## The cells -/

/-- The array begins with the items; what is behind them does not matter. -/
structure SeqHolds (seq : Seq α) (l : OwnedList α) : Prop where
  cells : ∃ stale, seq.data = l.items ++ stale
  length_eq : seq.length = l.items.length
  capacity_pos : 0 < seq.capacity
  itemDestroy_eq : seq.itemDestroy = l.itemDestroy

variable {seq : Seq α} {l : OwnedList α}

theorem SeqHolds.items_eq (h : SeqHolds seq l) : seq.items = l.items := by
  obtain ⟨stale, hdata⟩ := h.cells
  rw [Seq.items, hdata, h.length_eq, List.take_left]

theorem SeqHolds.length_le (h : SeqHolds seq l) : l.items.length ≤ seq.data.length := by
  obtain ⟨stale, hdata⟩ := h.cells
  rw [hdata, List.length_append]
  omega

theorem SeqHolds.item (h : SeqHolds seq l) {i : ℕ} (hi : i < l.items.length) : seq.data[i]? = some l.items[i] := by
  obtain ⟨stale, hdata⟩ := h.cells
  rw [hdata, List.getElem?_append_left hi, List.getElem?_eq_getElem hi]

theorem seqNew_holds (initialCapacity : ℕ) (itemDestroy : Bool) :
    SeqHolds (seqNew initialCapacity itemDestroy : Seq α) ⟨[], itemDestroy⟩ := by
  refine ⟨⟨_, rfl⟩, rfl, ?_, rfl⟩
  rw [Seq.capacity, seqNew, List.length_replicate]
  split
  · exact Nat.one_pos
  · omega

theorem setItem_append {data : List (Option α)} {front : List (Option α)} {old : Option α} {back : List (Option α)}
    (h : data = front ++ old :: back) (item : Option α) :
    setItem data front.length item = some (front ++ item :: back) := by
  have hlen : (front.length : ℤ) < data.length := by
    rw [h, List.length_append, List.length_cons]
    omega
  rw [setItem, if_pos ⟨by omega, hlen⟩, Int.toNat_natCast, h, List.set_append_right _ _ (le_refl _), Nat.sub_self]
  rfl

/-! ## Destroying a range -/

theorem destroyLoop_spec (h : SeqHolds seq l) (count : ℕ) : ∀ i, i + count ≤ l.items.length →
    seq.destroyLoop count i = some ((l.items.drop i).take count) := by
  induction count with
  | zero => exact fun i _ => rfl
  | succ count ih =>
    intro i hi
    have hlt : i < l.items.length := by omega
    rw [Seq.destroyLoop, h.item hlt, ih (i + 1) (by omega), List.drop_eq_getElem_cons hlt]
    rfl

theorem destroyRange_spec (h : SeqHolds seq l) {start stop : ℕ} (hstop : stop < l.items.length) (hle : start ≤ stop) :
    seq.destroyRange start stop = some (l.disposed (l.range start stop)) := by
  rw [Seq.destroyRange, OwnedList.disposed, h.itemDestroy_eq, destroyLoop_spec h _ start (by omega)]
  split
  · rfl
  · rfl

/-! ## Adding and replacing -/

theorem expandIfNecessary_spec (h : SeqHolds seq l) : ∃ seq' free stale, seq.expandIfNecessary = some seq' ∧
    seq'.data = l.items ++ free :: stale ∧ seq'.length = seq.length ∧ seq'.itemDestroy = seq.itemDestroy := by
  obtain ⟨stale, hdata⟩ := h.cells
  have hle := h.length_le
  have hlen := h.length_eq
  have hpos := h.capacity_pos
  unfold Seq.expandIfNecessary Seq.capacity at *
  rw [if_neg (by omega)]
  by_cases hfull : seq.length = seq.data.length
  · have hstale : stale = [] := by
      rw [hdata, List.length_append] at hfull
      exact List.length_eq_zero_iff.mp (by omega)
    obtain ⟨n, hn⟩ : ∃ n, seq.data.length = n + 1 := ⟨seq.data.length - 1, by omega⟩
    refine ⟨_, none, List.replicate n none, if_pos hfull, ?_, rfl, rfl⟩
    dsimp only
    rw [hn, List.replicate_succ, hdata, hstale, List.append_nil]
  · obtain ⟨free, stale, rfl⟩ : ∃ free rest, stale = free :: rest := by
      cases stale with
      | nil =>
        rw [hdata, List.append_nil] at hfull
        exact absurd hlen hfull
      | cons free rest => exact ⟨free, rest, rfl⟩
    exact ⟨seq, free, stale, if_neg hfull, hdata, rfl, rfl⟩

theorem append_holds (h : SeqHolds seq l) (item : Option α) :
    ∃ seq', seq.append item = some seq' ∧ SeqHolds seq' { l with items := l.items ++ [item] } := by
  obtain ⟨seq', free, stale, hexpand, hdata, hlen, hdestroy⟩ := expandIfNecessary_spec h
  have hset := setItem_append hdata item
  rw [← h.length_eq, ← hlen] at hset
  refine ⟨{ seq' with data := l.items ++ item :: stale, length := seq'.length + 1 }, ?_, ⟨stale, ?_⟩, ?_, ?_, ?_⟩
  · simp only [Seq.append, hexpand, Option.bind_eq_bind, Option.bind_some, hset, Option.pure_def]
  · rw [List.append_assoc]
    rfl
  · rw [List.length_append, List.length_singleton, hlen, h.length_eq]
  · rw [Seq.capacity, List.length_append, List.length_cons]
    omega
  · exact hdestroy.trans h.itemDestroy_eq

theorem appendOnce_matches (h : SeqHolds seq l) (item : Option α) (Compare : Option α → Option α → ℤ) :
    EffectMatches SeqHolds (seqStep seq (.appendOnce item Compare)) (ownedStep l (.appendOnce item Compare)) ↔
      l.items.find? (fun x => Compare item x == 0) ≠ some none := by
  obtain ⟨seq', happend, h'⟩ := append_holds h item
  rw [seqStep, ownedStep, Seq.appendOnce, seqLookup, h.items_eq]
  cases hfind : l.items.find? fun x => Compare item x == 0 with
  | none =>
    have hany : ¬ (l.items.any fun x => Compare item x == 0) = true := by
      rw [List.any_eq_true]
      rintro ⟨x, hx, hzero⟩
      exact List.find?_eq_none.mp hfind x hx hzero
    rw [if_neg hany]
    simp only [Option.join_none, happend, Option.map_some]
    exact ⟨fun _ hne => absurd hne (Option.some_ne_none none).symm, fun _ => ⟨.some h', .none, rfl⟩⟩
  | some found =>
    have hequal : (Compare item found == 0) = true := by simpa using List.find?_some hfind
    have hany : (l.items.any fun x => Compare item x == 0) = true :=
      List.any_eq_true.mpr ⟨found, List.mem_of_find?_eq_some hfind, hequal⟩
    rw [if_pos hany]
    cases found with
    | none =>
      -- the item is appended although there is one equal to it
      simp only [Option.join_some, happend, Option.map_some]
      refine ⟨fun hmatch _ => ?_, fun hne => absurd rfl hne⟩
      obtain ⟨hself, _, _⟩ := hmatch
      cases hself with
      | some hself =>
        have hlen := hself.length_eq.symm.trans h'.length_eq
        rw [List.length_append, List.length_singleton] at hlen
        omega
    | some x =>
      simp only [Option.join_some]
      refine ⟨fun _ hne => absurd (Option.some.inj hne) (Option.some_ne_none x), fun _ => ⟨.some h, .none, ?_⟩⟩
      rw [OwnedList.disposed, ← h.itemDestroy_eq]
      rfl

theorem set_matches (h : SeqHolds seq l) (index : ℕ) (item : Option α) :
    EffectMatches SeqHolds (seqStep seq (.set index item)) (ownedStep l (.set index item)) := by
  obtain ⟨stale, hdata⟩ := h.cells
  rw [seqStep, ownedStep, Seq.set, h.length_eq]
  by_cases hlt : index < l.items.length
  · obtain ⟨front, back, hitems, hfront⟩ : ∃ front back, l.items = front ++ l.items[index] :: back ∧ front.length = index :=
      ⟨l.items.take index, l.items.drop (index + 1), by rw [← List.drop_eq_getElem_cons hlt, List.take_append_drop],
        List.length_take_of_le hlt.le⟩
    generalize l.items[index] = old at hitems
    have hold : l.items[index]? = some old := by
      rw [hitems, List.getElem?_append_right (by omega), hfront, Nat.sub_self]
      rfl
    have hrange : l.range index index = [old] := by
      rw [OwnedList.range, hitems, List.drop_left' hfront, Nat.add_sub_cancel_left]
      rfl
    have hdata' : seq.data = front ++ old :: (back ++ stale) := by
      rw [hdata, hitems]
      simp
    have hset := setItem_append hdata' item
    rw [hfront] at hset
    rw [if_pos hlt, destroyRange_spec h hlt (le_refl index), hold, hrange]
    simp only [Option.bind_eq_bind, Option.bind_some, hset, Option.pure_def, Option.map_some]
    have hitems' : l.items.set index item = front ++ item :: back := by
      rw [hitems, List.set_append_right _ _ (by omega), hfront, Nat.sub_self]
      rfl
    refine ⟨.some ⟨⟨stale, ?_⟩, ?_, ?_, h.itemDestroy_eq⟩, .none, rfl⟩
    · dsimp only
      rw [hitems']
      simp
    · dsimp only
      rw [List.length_set]
    · rw [Seq.capacity, List.length_append, List.length_cons]
      omega
  · rw [if_neg hlt, List.getElem?_eq_none (by omega)]
    trivial

/-! ## Removing ranges -/

theorem softRemoveRange_holds (h : SeqHolds seq l) {start stop : ℕ} (hstop : stop < l.items.length) (hle : start ≤ stop) :
    ∃ seq', seq.softRemoveRange start stop = some seq' ∧ SeqHolds seq' (l.cut start stop) := by
  obtain ⟨stale, hdata⟩ := h.cells
  have hpos := h.capacity_pos
  have hlen : (l.cut start stop).items.length = seq.length - (stop - start + 1) := by
    rw [OwnedList.cut, List.length_append, List.length_take, List.length_drop, h.length_eq]
    omega
  rw [Seq.softRemoveRange, h.length_eq, if_pos ⟨hstop, hle⟩]
  by_cases hrest : 0 < l.items.length - stop - 1
  · have hroom : stop + 1 + (l.items.length - stop - 1) ≤ seq.data.length := by
      rw [hdata, List.length_append]
      omega
    have htail : (l.items ++ stale).drop (stop + 1) = l.items.drop (stop + 1) ++ stale :=
      List.drop_append_of_le_length (by omega)
    have hmoved : seq.data.take start ++ (seq.data.drop (stop + 1)).take (l.items.length - stop - 1) =
        (l.cut start stop).items := by
      rw [hdata, htail, List.take_append_of_le_length (by omega), List.take_left' (by rw [List.length_drop]; omega)]
      rfl
    have hmove : memmoveItems seq.data start (stop + 1) (l.items.length - stop - 1) =
        some ((l.cut start stop).items ++ seq.data.drop (start + (l.items.length - stop - 1))) := by
      rw [memmoveItems, if_pos hroom, hmoved]
    simp only [if_pos hrest, hmove, Option.bind_eq_bind, Option.bind_some, Option.pure_def]
    refine ⟨_, rfl, ⟨_, rfl⟩, ?_, ?_, h.itemDestroy_eq⟩
    · dsimp only
      rw [hlen, h.length_eq]
    · have hsame : ((l.cut start stop).items ++ seq.data.drop (start + (l.items.length - stop - 1))).length =
          seq.data.length := by
        rw [List.length_append, hlen, List.length_drop, h.length_eq]
        omega
      rw [Seq.capacity, hsame]
      exact hpos
  · -- the range reaches to the end
    have hitems : (l.cut start stop).items = l.items.take start := by
      rw [OwnedList.cut, List.drop_eq_nil_of_le (by omega), List.append_nil]
    simp only [if_neg hrest, Option.bind_eq_bind, Option.bind_some, Option.pure_def]
    refine ⟨_, rfl, ⟨l.items.drop start ++ stale, ?_⟩, ?_, hpos, h.itemDestroy_eq⟩
    · rw [hitems, ← List.append_assoc, List.take_append_drop]
      exact hdata
    · dsimp only
      rw [hlen, h.length_eq]

theorem softRemoveRange_refuses (h : SeqHolds seq l) {start stop : ℕ} (hno : ¬ (stop < l.items.length ∧ start ≤ stop)) :
    seq.softRemoveRange start stop = none := by
  rw [Seq.softRemoveRange, h.length_eq, if_neg hno]

theorem removeRange_matches (h : SeqHolds seq l) (start stop : ℕ) :
    EffectMatches SeqHolds (seq.removeRange start stop) (l.removeRange start stop) := by
  rw [Seq.removeRange, OwnedList.removeRange, h.length_eq]
  by_cases hrange : stop < l.items.length ∧ start ≤ stop
  · obtain ⟨seq', hremove, h'⟩ := softRemoveRange_holds h hrange.1 hrange.2
    rw [if_pos hrange, if_pos hrange, destroyRange_spec h hrange.1 hrange.2]
    simp only [Option.bind_eq_bind, Option.bind_some, hremove, Option.pure_def]
    exact ⟨.some h', .none, rfl⟩
  · rw [if_neg hrange, if_neg hrange]
    trivial

theorem range_all (l : OwnedList α) (hpos : 0 < l.items.length) : l.range 0 (l.items.length - 1) = l.items := by
  rw [OwnedList.range, List.drop_zero, List.take_of_length_le (by omega)]

theorem clear_matches (h : SeqHolds seq l) : EffectMatches SeqHolds (seqStep seq .clear) (ownedStep l .clear) := by
  rw [seqStep, ownedStep, Seq.clear, h.length_eq]
  by_cases hpos : 0 < l.items.length
  · have hcut : l.cut 0 (l.items.length - 1) = { l with items := [] } := by
      rw [OwnedList.cut, List.take_zero, List.drop_eq_nil_of_le (by omega)]
      rfl
    have hmatch := removeRange_matches h 0 (l.items.length - 1)
    rw [OwnedList.removeRange, if_pos ⟨by omega, Nat.zero_le _⟩, range_all l hpos, hcut] at hmatch
    rw [if_pos hpos]
    exact hmatch
  · have hnil : l.items = [] := List.length_eq_zero_iff.mp (by omega)
    have hdisposed : l.disposed l.items = [] := by
      rw [OwnedList.disposed, hnil, ite_self]
    rw [if_neg hpos, hdisposed]
    refine ⟨.some ?_, .none, rfl⟩
    rw [← hnil]
    exact h

theorem destroy_matches (h : SeqHolds seq l) : EffectMatches SeqHolds (seqStep seq .destroy) (ownedStep l .destroy) := by
  rw [seqStep, ownedStep, Seq.destroy, h.length_eq]
  by_cases hpos : 0 < l.items.length
  · rw [if_pos hpos, destroyRange_spec h (by omega) (Nat.zero_le _), range_all l hpos]
    exact ⟨.none, .none, rfl⟩
  · have hnil : l.items = [] := List.length_eq_zero_iff.mp (by omega)
    rw [if_neg hpos, OwnedList.disposed, hnil, ite_self]
    exact ⟨.none, .none, rfl⟩

/-! ## Reversing -/

theorem itemAt_append (front : List (Option α)) (item : Option α) (back : List (Option α)) :
    itemAt (front ++ item :: back) front.length = some item := by
  rw [itemAt, if_pos (by omega), Int.toNat_natCast, List.getElem?_append_right (le_refl _), Nat.sub_self]
  rfl

theorem swapItems_ends (front back : List (Option α)) (middle : List (Option α)) (x y : Option α) :
    swapItems (front ++ x :: (middle ++ y :: back)) front.length (front.length + 1 + middle.length : ℕ) =
      some (front ++ y :: (middle ++ x :: back)) := by
  have hindex : front.length + 1 + middle.length - front.length = middle.length + 1 := by omega
  have hy : itemAt (front ++ x :: (middle ++ y :: back)) (front.length + 1 + middle.length : ℕ) = some y := by
    rw [itemAt, if_pos (by omega), Int.toNat_natCast, List.getElem?_append_right (by omega), hindex,
      List.getElem?_cons_succ, List.getElem?_append_right (le_refl _), Nat.sub_self]
    rfl
  rw [swapItems, itemAt_append, hy]
  simp only [Option.bind_eq_bind, Option.bind_some, Option.pure_def, Int.toNat_natCast]
  rw [List.set_append_right _ _ (le_refl _), Nat.sub_self, List.set_cons_zero, List.set_append_right _ _ (by omega),
    hindex, List.set_cons_succ, List.set_append_right _ _ (le_refl _), Nat.sub_self, List.set_cons_zero]

/-- The ends of what lies between `front` and `back` change places, turn by turn. -/
theorem reverseLoop_spec (length : ℕ) (stale : List (Option α)) (count : ℕ) : ∀ (front middle back : List (Option α)),
    back.length = front.length → length = 2 * front.length + middle.length → count = middle.length / 2 →
    Seq.reverseLoop length count front.length (front ++ middle ++ back ++ stale) =
      some (front ++ middle.reverse ++ back ++ stale) := by
  induction count with
  | zero =>
    intro front middle back _ _ hcount
    have hmiddle : middle.reverse = middle := by
      match middle with
      | [] => rfl
      | [_] => rfl
      | _ :: _ :: _ =>
        rw [List.length_cons, List.length_cons] at hcount
        omega
    rw [Seq.reverseLoop, hmiddle]
  | succ count ih =>
    intro front middle back hback hlen hcount
    obtain ⟨x, inner, y, rfl⟩ : ∃ x inner y, middle = x :: (inner ++ [y]) := by
      cases middle with
      | nil => exact absurd hcount (by simp)
      | cons x rest =>
        have hne : rest ≠ [] := by
          rintro rfl
          exact absurd hcount (by simp)
        exact ⟨x, rest.dropLast, rest.getLast hne, by rw [List.dropLast_append_getLast hne]⟩
    rw [List.length_cons, List.length_append, List.length_singleton] at hlen hcount
    have hswap := swapItems_ends front (back ++ stale) inner x y
    have hindex : length - 1 - front.length = front.length + 1 + inner.length := by omega
    have hnext := ih (front ++ [y]) inner (x :: back) (by simp [hback]) (by simp; omega) (by omega)
    have hcells : front ++ x :: (inner ++ [y]) ++ back ++ stale = front ++ x :: (inner ++ y :: (back ++ stale)) := by simp
    have hcells' : front ++ y :: (inner ++ x :: (back ++ stale)) = front ++ [y] ++ inner ++ (x :: back) ++ stale := by simp
    rw [Seq.reverseLoop, hindex, hcells, hswap]
    simp only [Option.bind_eq_bind, Option.bind_some]
    rw [List.length_append, List.length_singleton] at hnext
    rw [hcells', hnext]
    simp

theorem reverse_matches (h : SeqHolds seq l) : EffectMatches SeqHolds (seqStep seq .reverse) (ownedStep l .reverse) := by
  obtain ⟨stale, hdata⟩ := h.cells
  have hloop := reverseLoop_spec l.items.length stale (l.items.length / 2) [] l.items [] rfl (by simp) rfl
  simp only [List.nil_append, List.append_nil, List.length_nil] at hloop
  rw [seqStep, ownedStep, Seq.reverse, hdata, h.length_eq, hloop]
  refine ⟨.some ⟨⟨stale, rfl⟩, ?_, ?_, h.itemDestroy_eq⟩, .none, rfl⟩
  · dsimp only
    rw [List.length_reverse]
  · have hpos := h.capacity_pos
    rw [Seq.capacity, hdata, List.length_append] at hpos
    rw [Seq.capacity, List.length_append, List.length_reverse]
    exact hpos

/-! ## Splitting -/

theorem getRangeLoop_spec (h : SeqHolds seq l) (count : ℕ) : ∀ (i : ℕ) (sub : Seq α) (l' : OwnedList α),
    i + count ≤ l.items.length → SeqHolds sub l' → ∃ sub', seq.getRangeLoop count i sub = some sub' ∧
      SeqHolds sub' { l' with items := l'.items ++ (l.items.drop i).take count } := by
  induction count with
  | zero =>
    intro i sub l' _ hsub
    refine ⟨sub, rfl, ?_⟩
    rw [List.take_zero, List.append_nil]
    exact hsub
  | succ count ih =>
    intro i sub l' hi hsub
    have hlt : i < l.items.length := by omega
    obtain ⟨sub₁, happend, hsub₁⟩ := append_holds hsub l.items[i]
    obtain ⟨sub', hloop, hsub'⟩ := ih (i + 1) sub₁ _ (by omega) hsub₁
    refine ⟨sub', ?_, ?_⟩
    · rw [Seq.getRangeLoop, h.length_eq, if_pos hlt, h.item hlt]
      simp only [Option.bind_eq_bind, Option.bind_some, happend, hloop]
    · rw [List.drop_eq_getElem_cons hlt, List.take_succ_cons]
      simp only [List.append_assoc, List.singleton_append] at hsub'
      exact hsub'

theorem split_matches (h : SeqHolds seq l) (index : ℕ) :
    EffectMatches SeqHolds (seqStep seq (.split index)) (ownedStep l (.split index)) := by
  rw [seqStep, ownedStep, Seq.split, h.length_eq]
  by_cases hbad : l.items.length < index
  · rw [if_pos hbad, if_pos hbad]
    trivial
  rw [if_neg hbad, if_neg hbad]
  by_cases hall : l.items.length ≤ index
  · have heq : index = l.items.length := by omega
    subst heq
    rw [if_pos (le_refl _), List.take_length, List.drop_length, h.itemDestroy_eq]
    exact ⟨.some h, .some (seqNew_holds 1 l.itemDestroy), rfl⟩
  · obtain ⟨sub, hloop, hsub⟩ := getRangeLoop_spec h (l.items.length - 1 + 1 - index) index _ _ (by omega)
      (seqNew_holds (l.items.length - 1 - index + 1) seq.itemDestroy)
    have hlast : l.items.length - 1 < l.items.length := by omega
    have hindex : index ≤ l.items.length - 1 := by omega
    obtain ⟨seq', hremove, h'⟩ := softRemoveRange_holds h hlast hindex
    have hno : ¬ (l.items.length - 1 < index ∨ l.items.length ≤ index ∨ l.items.length ≤ l.items.length - 1) := by omega
    have hcut : l.cut index (l.items.length - 1) = { l with items := l.items.take index } := by
      rw [OwnedList.cut, List.drop_eq_nil_of_le (by omega), List.append_nil]
    have htail : (l.items.drop index).take (l.items.length - 1 + 1 - index) = l.items.drop index :=
      List.take_of_length_le (by rw [List.length_drop]; omega)
    rw [htail, List.nil_append, h.itemDestroy_eq] at hsub
    rw [hcut] at h'
    rw [if_neg hall, Seq.getRange, h.length_eq, if_neg hno, hloop]
    simp only [Option.map_some, Option.bind_eq_bind, Option.bind_some, hremove, Option.pure_def]
    exact ⟨.some h', .some hsub, rfl⟩

/-! ## Filtering -/

section Filter

variable {itemDestroy : Bool} {filter : Option α → Bool}

/-- The cell of an item that is kept is free, once the item has been copied to the front. -/
theorem setItem_kept (kept gap rest : List (Option α)) (item : Option α) :
    setItem (kept ++ gap ++ item :: rest) kept.length item = some (kept ++ [item] ++ (gap ++ [item]).tail ++ rest) := by
  cases gap with
  | nil =>
    have hset := setItem_append (rfl : kept ++ item :: rest = kept ++ item :: rest) item
    rw [List.append_nil, hset]
    simp
  | cons free gap =>
    have hcells : kept ++ free :: gap ++ item :: rest = kept ++ free :: (gap ++ item :: rest) := by simp
    rw [setItem_append hcells item]
    simp

/-- One turn. The kept items are at the front, then come as many cells as items have been left out, then the items
still to be looked at. -/
theorem filterLoop_turn {length : ℤ} (fuel : ℕ) (kept gap rest : List (Option α)) (item : Option α)
    (calls : List (Option α)) (hlength : ((kept ++ gap).length : ℤ) < length) :
    Seq.filterLoop itemDestroy filter length (fuel + 1) (kept ++ gap).length kept.length (kept ++ gap ++ item :: rest) calls =
      if filter item then
        if itemDestroy then
          Seq.filterLoop itemDestroy filter length fuel (kept ++ (gap ++ [item])).length kept.length
            (kept ++ (gap ++ [item]) ++ rest) (calls ++ [item])
        else none
      else
        Seq.filterLoop itemDestroy filter length fuel (kept ++ [item] ++ (gap ++ [item]).tail).length
          (kept ++ [item]).length (kept ++ [item] ++ (gap ++ [item]).tail ++ rest) calls := by
  have hlen : ((kept ++ (gap ++ [item])).length : ℤ) = (kept ++ gap).length + 1 := by
    simp
    omega
  have hlen' : ((kept ++ [item] ++ (gap ++ [item]).tail).length : ℤ) = (kept ++ gap).length + 1 := by
    simp
    omega
  have hkept : ((kept ++ [item]).length : ℤ) = kept.length + 1 := by simp
  have hcells : kept ++ (gap ++ [item]) ++ rest = kept ++ gap ++ item :: rest := by simp
  rw [hlen, hlen', hkept, hcells, Seq.filterLoop, if_pos hlength, itemAt_append]
  simp only [Option.bind_eq_bind, Option.bind_some, setItem_kept]

/-- Without a function to call the loop gets no further than to the first item that is filtered. -/
theorem filterLoop_crashes (rest : List (Option α)) (h : ∃ x ∈ rest, filter x = true) (length : ℤ) :
    ∀ (kept gap tail calls : List (Option α)) (fuel : ℕ), length = (kept ++ gap ++ rest).length →
      Seq.filterLoop false filter length fuel (kept ++ gap).length kept.length (kept ++ gap ++ (rest ++ tail)) calls =
        none := by
  induction rest with
  | nil =>
    obtain ⟨x, hx, _⟩ := h
    exact absurd hx List.not_mem_nil
  | cons item rest ih =>
    intro kept gap tail calls fuel hlength
    cases fuel with
    | zero => rfl
    | succ fuel =>
      have hmore : ((kept ++ gap).length : ℤ) < length := by
        rw [hlength]
        simp
      rw [List.cons_append, filterLoop_turn fuel kept gap (rest ++ tail) item calls hmore]
      by_cases hfilter : filter item = true
      · rw [if_pos hfilter]
        rfl
      · have hrest : ∃ x ∈ rest, filter x = true := by
          obtain ⟨x, hx, hfx⟩ := h
          rcases List.mem_cons.mp hx with rfl | hx
          · exact absurd hfx hfilter
          · exact ⟨x, hx, hfx⟩
        rw [if_neg hfilter]
        exact ih hrest (kept ++ [item]) (gap ++ [item]).tail tail calls fuel (by rw [hlength]; simp; omega)

theorem filterLoop_spec (rest : List (Option α)) (h : itemDestroy = false → ∀ x ∈ rest, filter x = false)
    (length : ℤ) : ∀ (kept gap tail calls : List (Option α)) (fuel : ℕ), length = (kept ++ gap ++ rest).length →
      rest.length < fuel →
      ∃ gap', gap'.length = gap.length + (rest.filter filter).length ∧
        Seq.filterLoop itemDestroy filter length fuel (kept ++ gap).length kept.length (kept ++ gap ++ (rest ++ tail)) calls =
          some (kept ++ rest.filter (fun x => !filter x) ++ gap' ++ tail,
            ((kept ++ rest.filter fun x => !filter x).length : ℤ), calls ++ rest.filter filter) := by
  induction rest with
  | nil =>
    intro kept gap tail calls fuel hlength hfuel
    obtain ⟨fuel, rfl⟩ : ∃ k, fuel = k + 1 := ⟨fuel - 1, by omega⟩
    refine ⟨gap, rfl, ?_⟩
    rw [List.append_nil] at hlength
    rw [Seq.filterLoop, if_neg (by omega)]
    simp
  | cons item rest ih =>
    intro kept gap tail calls fuel hlength hfuel
    obtain ⟨fuel, rfl⟩ : ∃ k, fuel = k + 1 := ⟨fuel - 1, by omega⟩
    rw [List.length_cons] at hfuel
    have hmore : ((kept ++ gap).length : ℤ) < length := by
      rw [hlength]
      simp
    have hrest : itemDestroy = false → ∀ x ∈ rest, filter x = false := fun hd x hx => h hd x (List.mem_cons_of_mem _ hx)
    rw [List.cons_append, filterLoop_turn fuel kept gap (rest ++ tail) item calls hmore]
    by_cases hfilter : filter item = true
    · have hdestroy : itemDestroy = true := by
        by_contra hno
        have hfalse := h (Bool.eq_false_iff.mpr hno) item List.mem_cons_self
        rw [hfilter] at hfalse
        exact absurd hfalse Bool.true_eq_false.mp
      obtain ⟨gap', hgap', hloop⟩ := ih hrest kept (gap ++ [item]) tail (calls ++ [item]) fuel
        (by rw [hlength]; simp) (by omega)
      refine ⟨gap', ?_, ?_⟩
      · rw [hgap', List.filter_cons_of_pos hfilter, List.length_append, List.length_singleton, List.length_cons]
        omega
      · rw [if_pos hfilter, if_pos hdestroy, hloop, List.filter_cons_of_pos hfilter,
          List.filter_cons_of_neg (by simp [hfilter]), List.append_cons calls item (rest.filter filter)]
    · obtain ⟨gap', hgap', hloop⟩ := ih hrest (kept ++ [item]) (gap ++ [item]).tail tail calls fuel
        (by rw [hlength]; simp; omega) (by omega)
      refine ⟨gap', ?_, ?_⟩
      · rw [hgap', List.filter_cons_of_neg hfilter]
        simp
      · rw [if_neg hfilter, hloop, List.filter_cons_of_neg hfilter, List.filter_cons_of_pos (by simp [hfilter]),
          ← List.append_cons]

/-- The loop from its start, over the first `rest` of the cells. -/
theorem filterLoop_all {length : ℤ} {rest : List (Option α)} (hlength : length = rest.length)
    (h : itemDestroy = false → ∀ x ∈ rest, filter x = false) (tail : List (Option α)) {fuel : ℕ}
    (hfuel : rest.length < fuel) :
    ∃ gap, gap.length = (rest.filter filter).length ∧
      Seq.filterLoop itemDestroy filter length fuel 0 0 (rest ++ tail) [] =
        some (rest.filter (fun x => !filter x) ++ gap ++ tail, ((rest.filter fun x => !filter x).length : ℤ),
          rest.filter filter) := by
  obtain ⟨gap, hgap, hloop⟩ := filterLoop_spec rest h length [] [] tail [] fuel hlength hfuel
  refine ⟨gap, ?_, hloop⟩
  rw [hgap, List.length_nil, Nat.zero_add]

theorem filterLoop_all_crashes {length : ℤ} {rest : List (Option α)} (hlength : length = rest.length)
    (h : ∃ x ∈ rest, filter x = true) (tail : List (Option α)) (fuel : ℕ) :
    Seq.filterLoop false filter length fuel 0 0 (rest ++ tail) [] = none :=
  filterLoop_crashes rest h length [] [] tail [] fuel hlength

end Filter

/-- The items that the counters of type `int` reach, and those behind. -/
def OwnedList.front (l : OwnedList α) : List (Option α) := l.items.take (toInt l.items.length).toNat

def OwnedList.back (l : OwnedList α) : List (Option α) := l.items.drop (toInt l.items.length).toNat

/-- `SeqFilter` reaches all items and can dispose of those it takes out. -/
def OwnedList.CanFilter (l : OwnedList α) (filter : Option α → Bool) : Prop :=
  if l.itemDestroy then l.items.length < 2 ^ 31
  else (∀ x ∈ l.front, filter x = false) ∧ ∀ x ∈ l.back, filter x = true

theorem toInt_toNat_eq_iff (n : ℕ) : (toInt n).toNat = n ↔ n < 2 ^ 31 := by
  constructor
  · intro h
    by_contra hlarge
    have hle := toInt_add_two_le (n := n) (by omega)
    omega
  · intro h
    rw [toInt_of_lt (by omega), Int.toNat_natCast]

theorem filter_reads (h : SeqHolds seq l) : ∃ stale, seq.data = l.front ++ (l.back ++ stale) := by
  obtain ⟨stale, hdata⟩ := h.cells
  refine ⟨stale, ?_⟩
  rw [hdata, OwnedList.front, OwnedList.back, ← List.append_assoc, List.take_append_drop]

theorem front_length (l : OwnedList α) : l.front.length = (toInt l.items.length).toNat := by
  have hle := toInt_le l.items.length
  rw [OwnedList.front, List.length_take_of_le (by omega)]

theorem toInt_eq_front (l : OwnedList α) (h : 0 ≤ toInt l.items.length) : toInt l.items.length = l.front.length := by
  rw [front_length, Int.toNat_of_nonneg h]

theorem front_nil (l : OwnedList α) (h : toInt l.items.length < 0) : l.front = [] := by
  rw [OwnedList.front, Int.toNat_of_nonpos h.le, List.take_zero]

theorem filter_spec (h : SeqHolds seq l) (filter : Option α → Bool)
    (hcall : l.itemDestroy = false → ∀ x ∈ l.front, filter x = false) :
    ∃ seq', seq.filter filter = some (.update seq' (l.front.filter filter)) ∧
      SeqHolds seq' { l with items := l.front.filter fun x => !filter x } := by
  obtain ⟨stale, hdata⟩ := filter_reads h
  have hpos := h.capacity_pos
  rw [Seq.filter, h.length_eq]
  by_cases hneg : toInt l.items.length < 0
  · rw [Seq.filterLoop, if_neg (by omega), front_nil l hneg]
    exact ⟨_, rfl, ⟨seq.data, rfl⟩, rfl, hpos, h.itemDestroy_eq⟩
  · have hcall' : seq.itemDestroy = false → ∀ x ∈ l.front, filter x = false := h.itemDestroy_eq ▸ hcall
    have hfuel : l.front.length < l.items.length + 1 := Nat.lt_succ_of_le (List.length_take_le' _ _)
    obtain ⟨gap, hgap, hloop⟩ := filterLoop_all (toInt_eq_front l (not_lt.mp hneg)) hcall' (l.back ++ stale) hfuel
    have hkept := List.length_eq_length_filter_add (l := l.front) filter
    have hlength := Int.toNat_natCast (l.front.filter fun x => !filter x).length
    rw [hdata, hloop, Option.map_some, hlength]
    refine ⟨_, rfl, ⟨gap ++ (l.back ++ stale), by simp⟩, rfl, ?_, h.itemDestroy_eq⟩
    rw [Seq.capacity, hdata] at hpos
    rw [Seq.capacity]
    simp only [List.length_append] at hpos hgap ⊢
    omega

theorem filter_crashes (h : SeqHolds seq l) (filter : Option α → Bool) (hd : l.itemDestroy = false)
    (hcall : ∃ x ∈ l.front, filter x = true) : seq.filter filter = none := by
  obtain ⟨stale, hdata⟩ := filter_reads h
  have hnonneg : 0 ≤ toInt l.items.length := by
    by_contra hneg
    obtain ⟨x, hx, _⟩ := hcall
    rw [front_nil l (not_le.mp hneg)] at hx
    exact absurd hx List.not_mem_nil
  rw [Seq.filter, h.length_eq, h.itemDestroy_eq, hd, hdata, filterLoop_all_crashes (toInt_eq_front l hnonneg) hcall]
  rfl

theorem update_matches_iff {seq' : Seq α} {items : List (Option α)} {calls : List (Option α)}
    (h : SeqHolds seq' { l with items }) (items' calls' : List (Option α)) :
    EffectMatches SeqHolds (some (.update seq' calls)) (some (.update { l with items := items' } calls')) ↔
      items = items' ∧ calls = calls' := by
  constructor
  · rintro ⟨hself, _, hcalls⟩
    cases hself with
    | some hself => exact ⟨h.items_eq.symm.trans hself.items_eq, hcalls⟩
  · rintro ⟨rfl, hcalls⟩
    exact ⟨.some h, .none, hcalls⟩

theorem filter_matches (h : SeqHolds seq l) (filter : Option α → Bool) :
    EffectMatches SeqHolds (seq.filter filter) (some (l.filter filter)) ↔ l.CanFilter filter := by
  have hsplit : l.items = l.front ++ l.back := (List.take_append_drop _ _).symm
  unfold OwnedList.CanFilter
  by_cases hd : l.itemDestroy = true
  · obtain ⟨seq', hfilter, h'⟩ := filter_spec h filter fun hno => absurd (hd.symm.trans hno) Bool.true_eq_false.mp
    rw [if_pos hd, hfilter, OwnedList.filter, update_matches_iff h', OwnedList.disposed, if_pos hd]
    have hback : l.back = [] ↔ l.items.length < 2 ^ 31 := by
      have hle := toInt_le l.items.length
      rw [← toInt_toNat_eq_iff, OwnedList.back, List.drop_eq_nil_iff]
      omega
    rw [← hback, hsplit, List.filter_append, List.filter_append]
    constructor
    · rintro ⟨hkept, hcalls⟩
      have hnone := List.self_eq_append_right.mp hkept
      have hnone' := List.self_eq_append_right.mp hcalls
      have hcount := List.length_eq_length_filter_add (l := l.back) filter
      rw [hnone, hnone'] at hcount
      exact List.length_eq_zero_iff.mp hcount
    · intro hnil
      rw [hnil]
      simp
  · have hfalse : l.itemDestroy = false := Bool.eq_false_iff.mpr hd
    rw [if_neg hd]
    by_cases hcall : ∀ x ∈ l.front, filter x = false
    · obtain ⟨seq', hfilter, h'⟩ := filter_spec h filter fun _ => hcall
      rw [and_iff_right hcall, hfilter, OwnedList.filter, update_matches_iff h', OwnedList.disposed, if_neg hd]
      have hcalls : l.front.filter filter = [] := List.filter_eq_nil_iff.mpr fun x hx => by simp [hcall x hx]
      rw [and_iff_left hcalls, hsplit, List.filter_append, List.self_eq_append_right, List.filter_eq_nil_iff]
      simp
    · have hsome : ∃ x ∈ l.front, filter x = true := by
        by_contra hno
        exact hcall fun x hx => Bool.eq_false_iff.mpr fun hf => hno ⟨x, hx, hf⟩
      rw [filter_crashes h filter hfalse hsome]
      exact ⟨False.elim, fun hmeets => hcall hmeets.1⟩

/-! ## Runs -/

/-- Where a `Seq` does to its items what the list does. -/
def OwnedList.Meets (l : OwnedList α) : SeqCall α → Prop
  | .appendOnce item Compare => l.items.find? (fun x => Compare item x == 0) ≠ some none
  | .filter filter => l.CanFilter filter
  | .removeNulls => l.CanFilter Option.isNone
  | _ => True

instance (l : OwnedList α) (filter : Option α → Bool) : Decidable (l.CanFilter filter) :=
  inferInstanceAs (Decidable (if l.itemDestroy then _ else _))

instance [DecidableEq α] (l : OwnedList α) : (call : SeqCall α) → Decidable (l.Meets call)
  | .appendOnce _ _ => inferInstanceAs (Decidable (_ ≠ _))
  | .filter _ | .removeNulls => inferInstanceAs (Decidable (l.CanFilter _))
  | .append _ | .set _ _ | .removeRange _ _ | .remove _ | .softRemoveRange _ _ | .clear | .split _ | .reverse | .destroy =>
    inferInstanceAs (Decidable True)

theorem seqStep_matches_iff (h : SeqHolds seq l) (call : SeqCall α) :
    EffectMatches SeqHolds (seqStep seq call) (ownedStep l call) ↔ l.Meets call := by
  cases call with
  | append item =>
    obtain ⟨seq', happend, h'⟩ := append_holds h item
    rw [seqStep, ownedStep, happend]
    exact iff_of_true ⟨.some h', .none, rfl⟩ trivial
  | appendOnce item Compare => exact appendOnce_matches h item Compare
  | set index item => exact iff_of_true (set_matches h index item) trivial
  | removeRange start stop => exact iff_of_true (removeRange_matches h start stop) trivial
  | remove index => exact iff_of_true (removeRange_matches h index index) trivial
  | softRemoveRange start stop =>
    refine iff_of_true ?_ trivial
    rw [seqStep, ownedStep]
    by_cases hrange : stop < l.items.length ∧ start ≤ stop
    · obtain ⟨seq', hremove, h'⟩ := softRemoveRange_holds h hrange.1 hrange.2
      rw [if_pos hrange, hremove]
      exact ⟨.some h', .none, rfl⟩
    · rw [if_neg hrange, softRemoveRange_refuses h hrange]
      trivial
  | filter filter => exact filter_matches h filter
  | removeNulls => exact filter_matches h Option.isNone
  | clear => exact iff_of_true (clear_matches h) trivial
  | split index => exact iff_of_true (split_matches h index) trivial
  | reverse => exact iff_of_true (reverse_matches h) trivial
  | destroy => exact iff_of_true (destroy_matches h) trivial

/-- Calls on one `Seq` and on those that `SeqSplit` takes off. -/
def seqWorlds (initialCapacity : ℕ) (itemDestroy : Bool) (calls : List (ℕ × SeqCall α)) :
    Option (List (Option (Seq α)) × List (List (Option α))) :=
  run (worldStep seqStep) [some (seqNew initialCapacity itemDestroy)] calls

def ownedWorlds (itemDestroy : Bool) (calls : List (ℕ × SeqCall α)) :
    Option (List (Option (OwnedList α)) × List (List (Option α))) :=
  run (worldStep ownedStep) [some ⟨[], itemDestroy⟩] calls

/-- Every call of the run meets the condition on the list it is made on. -/
def MeetsAll (itemDestroy : Bool) (calls : List (ℕ × SeqCall α)) : Prop :=
  Along (OnLive OwnedList.Meets) (worldStep ownedStep) [some (⟨[], itemDestroy⟩ : OwnedList α)] calls

theorem seqWorlds_match (initialCapacity : ℕ) {itemDestroy : Bool} {calls : List (ℕ × SeqCall α)}
    (hmeets : MeetsAll itemDestroy calls) :
    Matches (WorldRel SeqHolds) (seqWorlds initialCapacity itemDestroy calls) (ownedWorlds itemDestroy calls) := by
  have hstep := world_matches_on fun (seq : Seq α) l call hc h => (seqStep_matches_iff h call).mpr hc
  refine run_matches_along (fun w v e hc h => hstep w v e hc h) calls _ _ hmeets ?_
  exact .cons (.some (seqNew_holds initialCapacity itemDestroy)) .nil

/-- The calls of `ItemDestroy` and the items that remain are those of lists. -/
theorem seqs_own_like_lists (initialCapacity : ℕ) (itemDestroy : Bool) (calls : List (ℕ × SeqCall α))
    (hmeets : MeetsAll itemDestroy calls) :
    (seqWorlds initialCapacity itemDestroy calls).map Prod.snd = (ownedWorlds itemDestroy calls).map Prod.snd ∧
      ∀ seqs replies, seqWorlds initialCapacity itemDestroy calls = some (seqs, replies) →
        ∃ lists, ownedWorlds itemDestroy calls = some (lists, replies) ∧
          WorldRel (fun seq l => seq.items = l.items ∧ seq.length = l.items.length ∧ seq.length ≤ seq.capacity ∧
            seq.itemDestroy = l.itemDestroy) seqs lists := by
  have hmatch := seqWorlds_match initialCapacity hmeets
  refine ⟨hmatch.reply_eq, ?_⟩
  intro seqs replies hrun
  rw [hrun] at hmatch
  obtain ⟨lists, hlists, hrel⟩ := hmatch.some_left
  refine ⟨lists, hlists, hrel.mono fun h => ?_⟩
  exact ⟨h.items_eq, h.length_eq, h.length_eq ▸ h.length_le, h.itemDestroy_eq⟩

/-- An item added twice, one filtered, a `NULL` removed, and the rest split off and destroyed. -/
def ownershipCalls : List (ℕ × SeqCall ℕ) :=
  [(0, .append (some 1)), (0, .append (some 2)), (0, .appendOnce (some 2) fun a b => if a = b then 0 else 1),
    (0, .filter fun x => x == some 1), (0, .append none), (0, .removeNulls), (0, .split 0), (1, .destroy)]

theorem ownershipCalls_meet : MeetsAll true ownershipCalls := by
  refine .cons (.intro rfl trivial) rfl (.cons (.intro rfl trivial) rfl ?_)
  refine .cons (.intro rfl (by decide)) rfl ?_
  refine .cons (.intro rfl (by decide)) rfl ?_
  refine .cons (.intro rfl trivial) rfl ?_
  refine .cons (.intro rfl (by decide)) rfl ?_
  exact .cons (.intro rfl trivial) rfl (.cons (.intro rfl trivial) rfl trivial)

theorem seqs_own_like_lists_run : MeetsAll true ownershipCalls ∧
    (seqWorlds 1 true ownershipCalls).map Prod.snd =
      some [[], [], [some 2], [some 1], [], [none], [], [some 2]] := by
  refine ⟨ownershipCalls_meet, (seqs_own_like_lists 1 true ownershipCalls ownershipCalls_meet).1.trans ?_⟩
  rfl

/-- `SeqRemoveNulls` calls the function that `SeqNew` was not given. -/
theorem seqRemoveNulls_calls_null :
    (seqWorlds 1 false [(0, .append (none : Option ℕ)), (0, .removeNulls)]).map Prod.snd = none ∧
      (ownedWorlds false [(0, .append (none : Option ℕ)), (0, .removeNulls)]).map Prod.snd = some [[], []] := by
  decide +kernel

end Libntech.Containers
