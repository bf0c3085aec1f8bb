import Libntech.Containers.MapMeaning
import Libntech.Lib.Iterator

/-! # Iterators of maps and sets (`libutils/array_map.c`, `hash_map.c`, `map.c`, `set.c`)

An iterator of a hash map shows the rest of a chain and then goes on to the next chain that is not empty. `NULL` is
`[]` as the rest of a chain and `none` as a reply; `none` around a reply stands for an access outside the table. Keys are
pointers other than `NULL`. A set is a map from its elements to themselves.
-/
namespace Libntech.Containers
open Lib
set_option autoImplicit false

variable {K V W : Type}

/-! ## Iterators -/

structure ArrayMapIterator (K V : Type) where
  map : ArrayMap K V
  pos : ℕ

def arrayMapIteratorInit (map : ArrayMap K V) : ArrayMapIterator K V := ⟨map, 0⟩

def arrayMapIteratorNext (i : ArrayMapIterator K V) : Option (ArrayMapIterator K V × Option (K × V)) :=
  if i.map.size ≤ i.pos then some (i, none)
  else (i.map.values[i.pos]?).map fun item => ({ i with pos := i.pos + 1 }, some item)

structure HashMapIterator (K V : Type) where
  map : HashMap K V
  cur : List (K × V)
  bucket : ℕ

def hashMapIteratorInit (map : HashMap K V) : Option (HashMapIterator K V) :=
  (map.buckets[0]?).map fun cur => ⟨map, cur, 0⟩

/-- The loop goes round at most once for each bucket. -/
def hashMapIteratorLoop : ℕ → HashMapIterator K V → Option (HashMapIterator K V × Option (K × V))
  | 0, _ => none
  | fuel + 1, i =>
    match i.cur with
    | [] =>
      let i := { i with bucket := i.bucket + 1 }
      if i.map.size ≤ i.bucket then some (i, none)
      else do
        let cur ← i.map.buckets[i.bucket]?
        hashMapIteratorLoop fuel { i with cur }
    | item :: next => some ({ i with cur := next }, some item)

def hashMapIteratorNext (i : HashMapIterator K V) : Option (HashMapIterator K V × Option (K × V)) :=
  hashMapIteratorLoop (i.map.size + 1) i

/-- The union of `struct MapIterator_`, with `is_array` as its tag. -/
inductive MapIterator (K V : Type) where
  | arraymap (i : ArrayMapIterator K V)
  | hashmap (i : HashMapIterator K V)

def mapIteratorInit : Map K V → Option (MapIterator K V)
  | .arraymap m => some (.arraymap (arrayMapIteratorInit m))
  | .hashmap m => (hashMapIteratorInit m).map .hashmap

def mapIteratorNext : MapIterator K V → Option (MapIterator K V × Option (K × V))
  | .arraymap i => (arrayMapIteratorNext i).map fun r => (.arraymap r.1, r.2)
  | .hashmap i => (hashMapIteratorNext i).map fun r => (.hashmap r.1, r.2)

/-! ## MapContainsSameKeys -/

def sameKeysLoop (fns : MapFns K) (map2 : Map K W) : ℕ → MapIterator K V → ℕ → Option Bool
  | 0, _, _ => none
  | fuel + 1, i, count => do
    let (i, item) ← mapIteratorNext i
    match item with
    | none => return count == mapSize map2
    | some item =>
      if !mapHasKey fns item.1 map2 then return false
      sameKeysLoop fns map2 fuel i (count + 1)

def mapContainsSameKeys (fns : MapFns K) (map1 : Map K V) (map2 : Map K W) : Option Bool := do
  let i ← mapIteratorInit map1
  sameKeysLoop fns map2 (mapSize map1 + 1) i 0

/-! ## Sets -/

def setAdd (fns : MapFns K) (set : Map K K) (element : K) : Map K K := (mapInsert fns element element set).2

def setContains (fns : MapFns K) (set : Map K K) (element : K) : Bool := mapHasKey fns element set

def setIsEqual (fns : MapFns K) (set1 set2 : Map K K) : Option Bool := mapContainsSameKeys fns set1 set2

def setIteratorInit (set : Map K K) : Option (MapIterator K K) := mapIteratorInit set

def setIteratorNext (i : MapIterator K K) : Option (MapIterator K K × Option K) :=
  (mapIteratorNext i).map fun r => (r.1, r.2.map Prod.fst)

def joinLoop (fns : MapFns K) (copyFunction : Option (K → K)) : ℕ → MapIterator K K → Map K K → Option (Map K K)
  | 0, _, _ => none
  | fuel + 1, si, set => do
    let (si, ptr) ← setIteratorNext si
    match ptr with
    | none => return set
    | some ptr => joinLoop fns copyFunction fuel si (setAdd fns set (copyFunction.elim ptr (· ptr)))

/-- `SetJoin`; `none` as the other set is the set itself. -/
def setJoin (fns : MapFns K) (copyFunction : Option (K → K)) (set : Map K K) : Option (Map K K) → Option (Map K K)
  | none => some set
  | some otherset => do
    let si ← setIteratorInit otherset
    joinLoop fns copyFunction (mapSize otherset + 1) si set

/-! ## What the iterators show -/

theorem arrayMapIterator_yields (m : ArrayMap K V) (rest : List (K × V)) : ∀ seen : List (K × V),
    m.values = seen ++ rest → Yields arrayMapIteratorNext ⟨m, seen.length⟩ rest := by
  induction rest with
  | nil =>
    intro seen hseen
    refine Yields.stuck ?_
    have hdone : m.size ≤ seen.length := by
      rw [ArrayMap.size, hseen, List.append_nil]
    rw [arrayMapIteratorNext, if_pos hdone]
  | cons e rest ih =>
    intro seen hseen
    have hmore : ¬ m.size ≤ seen.length := by
      rw [ArrayMap.size, hseen, List.length_append, List.length_cons]
      omega
    have hitem : m.values[seen.length]? = some e := by
      rw [hseen, List.getElem?_append_right (le_refl _), Nat.sub_self]
      rfl
    have hnext := ih (seen ++ [e]) (by rw [hseen, List.append_cons])
    rw [List.length_append, List.length_singleton] at hnext
    refine Yields.cons ?_ hnext
    rw [arrayMapIteratorNext, if_neg hmore, hitem]
    rfl

/-- The iterator is behind its chain, and all later chains are empty. -/
def Exhausted (i : HashMapIterator K V) : Prop :=
  i.map.buckets.length = i.map.size ∧ i.cur = [] ∧ ∀ chain ∈ i.map.buckets.drop (i.bucket + 1), chain = []

theorem exhausted_loop (fuel : ℕ) : ∀ {i : HashMapIterator K V}, Exhausted i → 0 < fuel →
    i.map.size ≤ i.bucket + fuel → ∃ i', hashMapIteratorLoop fuel i = some (i', none) ∧ Exhausted i' := by
  induction fuel with
  | zero => exact fun _ hfuel _ => absurd hfuel (lt_irrefl 0)
  | succ fuel ih =>
    rintro ⟨m, cur, bucket⟩ ⟨hlen, hcur, hlater⟩ _ hfuel
    dsimp only at hlen hcur hlater hfuel
    subst hcur
    rw [hashMapIteratorLoop]
    by_cases hend : m.size ≤ bucket + 1
    · have hnone : m.buckets.drop (bucket + 1 + 1) = [] := List.drop_eq_nil_of_le (by omega)
      refine ⟨⟨m, [], bucket + 1⟩, if_pos hend, hlen, rfl, fun chain hchain => ?_⟩
      rw [hnone] at hchain
      exact absurd hchain List.not_mem_nil
    · have hlt : bucket + 1 < m.buckets.length := by omega
      have hdrop : m.buckets.drop (bucket + 1) = m.buckets[bucket + 1] :: m.buckets.drop (bucket + 1 + 1) :=
        List.drop_eq_getElem_cons hlt
      have hempty : m.buckets[bucket + 1] = [] := hlater _ (hdrop ▸ List.mem_cons_self)
      have hnext : Exhausted (⟨m, [], bucket + 1⟩ : HashMapIterator K V) :=
        ⟨hlen, rfl, fun chain hchain => hlater chain (hdrop ▸ List.mem_cons_of_mem _ hchain)⟩
      obtain ⟨i', hloop, hi'⟩ := ih hnext (by omega) (by dsimp only; omega)
      refine ⟨i', ?_, hi'⟩
      simp only [if_neg hend, List.getElem?_eq_getElem hlt, hempty, Option.bind_eq_bind, Option.bind_some, hloop]

theorem next_chain_loop (m : HashMap K V) (hlen : m.buckets.length = m.size) {item : K × V} {items : List (K × V)}
    (after : List (List (K × V))) : ∀ (before : List (List (K × V))) (chain : List (K × V)) (fuel : ℕ),
      m.buckets = before ++ chain :: after → after.flatten = item :: items → after.length < fuel →
      ∃ before' chain' cur' after', hashMapIteratorLoop fuel ⟨m, [], before.length⟩ =
          some (⟨m, cur', List.length before'⟩, some item) ∧ m.buckets = before' ++ chain' :: after' ∧
        items = cur' ++ after'.flatten := by
  induction after with
  | nil =>
    intro before chain fuel _ hitems _
    cases hitems
  | cons next after ih =>
    intro before chain fuel hbuckets hitems hfuel
    obtain ⟨fuel, rfl⟩ : ∃ k, fuel = k + 1 := ⟨fuel - 1, by omega⟩
    rw [List.length_cons] at hfuel
    have hsplit : m.buckets = (before ++ [chain]) ++ next :: after := by rw [hbuckets, List.append_cons]
    have hmore : ¬ m.size ≤ before.length + 1 := by
      rw [← hlen, hbuckets, List.length_append, List.length_cons, List.length_cons]
      omega
    have hnext : m.buckets[before.length + 1]? = some next := by
      rw [hsplit, List.getElem?_append_right (by simp)]
      simp
    have hstep : hashMapIteratorLoop (fuel + 1) ⟨m, [], before.length⟩ =
        hashMapIteratorLoop fuel ⟨m, next, (before ++ [chain]).length⟩ := by
      rw [hashMapIteratorLoop]
      simp only [if_neg hmore, hnext, Option.bind_eq_bind, Option.bind_some, List.length_append, List.length_singleton]
    rw [hstep]
    cases next with
    | nil => exact ih (before ++ [chain]) [] fuel hsplit hitems (by omega)
    | cons e rest =>
      obtain ⟨fuel, rfl⟩ : ∃ k, fuel = k + 1 := ⟨fuel - 1, by omega⟩
      cases hitems
      exact ⟨before ++ [chain], item :: rest, rest, after, rfl, hsplit, rfl⟩

/-- The iterator in the chain between `before` and `after`, with the entries `cur` of it still to come. -/
theorem hashMapIterator_yields (m : HashMap K V) (hlen : m.buckets.length = m.size) (items : List (K × V)) :
    ∀ (before : List (List (K × V))) (chain cur : List (K × V)) (after : List (List (K × V))),
      m.buckets = before ++ chain :: after → items = cur ++ after.flatten →
      Yields hashMapIteratorNext ⟨m, cur, before.length⟩ items := by
  induction items with
  | nil =>
    intro before chain cur after hbuckets hitems
    obtain ⟨hcur, hafter⟩ := List.append_eq_nil_iff.mp hitems.symm
    have hdrop : m.buckets.drop (before.length + 1) = after := by
      rw [hbuckets, List.append_cons, List.drop_left' (by simp)]
    refine Yields.nil (P := Exhausted) (fun i hi => exhausted_loop _ hi (Nat.succ_pos _) (by omega)) ?_
    refine ⟨hlen, hcur, fun later hlater => ?_⟩
    dsimp only at hlater
    rw [hdrop] at hlater
    exact List.flatten_eq_nil_iff.mp hafter later hlater
  | cons item items ih =>
    intro before chain cur after hbuckets hitems
    cases cur with
    | nil =>
      have hfuel : after.length < m.size + 1 := by
        rw [← hlen, hbuckets, List.length_append, List.length_cons]
        omega
      obtain ⟨before', chain', cur', after', hloop, hbuckets', hitems'⟩ :=
        next_chain_loop m hlen after before chain (m.size + 1) hbuckets hitems.symm hfuel
      exact Yields.cons hloop (ih before' chain' cur' after' hbuckets' hitems')
    | cons e cur =>
      cases hitems
      exact Yields.cons rfl (ih before chain cur after hbuckets rfl)

section Meaning
open Classical
variable {fns : MapFns K} (law : fns.Lawful)

variable {m : KeyMap law.setoid V} {x : Map K V} {m₂ : KeyMap law.setoid W}

theorem mapIterator_yields (h : MapTracks law x m) :
    ∃ i, mapIteratorInit x = some i ∧ Yields mapIteratorNext i (mapEntries x) := by
  cases x with
  | arraymap a =>
    have hyields := arrayMapIterator_yields a a.values [] rfl
    exact ⟨_, rfl, hyields.inside MapIterator.arraymap fun _ => rfl⟩
  | hashmap a =>
    have ht : HashTracks law a m := h
    have hpos : 0 < a.buckets.length := by
      rw [ht.table.length_eq]
      exact ht.table.size_pos
    obtain ⟨chain, after, hbuckets⟩ := List.exists_cons_of_ne_nil (List.ne_nil_of_length_pos hpos)
    have hyields := hashMapIterator_yields a ht.table.length_eq a.buckets.flatten [] chain chain after hbuckets
      (by rw [hbuckets, List.flatten_cons])
    refine ⟨.hashmap ⟨a, chain, 0⟩, ?_, hyields.inside MapIterator.hashmap fun _ => rfl⟩
    rw [mapIteratorInit, hashMapIteratorInit, hbuckets]
    rfl

theorem mapHasKey_iff (h : MapTracks law x m) (key : K) :
    mapHasKey fns key x = true ↔ Quotient.mk law.setoid key ∈ m := by
  rw [mapHasKey, ← Finmap.lookup_isSome, ← mapGetRaw_eq law h key, Option.isSome_map]

theorem mapSize_entries (h : MapTracks law x m) : mapSize x = (mapEntries x).length := by
  rw [mapSize_eq law h, (h.tracks law).card_eq]

/-! ## Equal sets of keys -/

theorem sameKeysLoop_spec {map2 : Map K W} (h : MapTracks law map2 m₂) (items : List (K × V)) :
    ∀ (i : MapIterator K V) (fuel count : ℕ), Yields mapIteratorNext i items → items.length < fuel →
      sameKeysLoop fns map2 fuel i count = some (decide ((∀ e ∈ items, Quotient.mk law.setoid e.1 ∈ m₂) ∧
        count + items.length = m₂.keys.card)) := by
  induction items with
  | nil =>
    intro i fuel count hi hfuel
    obtain ⟨fuel, rfl⟩ : ∃ k, fuel = k + 1 := ⟨fuel - 1, by omega⟩
    obtain ⟨i', hnext⟩ := hi.finished
    simp only [sameKeysLoop, hnext, Option.bind_eq_bind, Option.bind_some, Option.pure_def, mapSize_eq law h]
    rw [Option.some.injEq, Bool.eq_iff_iff]
    simp
  | cons e items ih =>
    intro i fuel count hi hfuel
    obtain ⟨fuel, rfl⟩ : ∃ k, fuel = k + 1 := ⟨fuel - 1, by omega⟩
    rw [List.length_cons] at hfuel
    obtain ⟨i', hnext, hi'⟩ := hi.next
    have hrest := ih i' fuel (count + 1) hi' (by omega)
    simp only [sameKeysLoop, hnext, Option.bind_eq_bind, Option.bind_some, Option.pure_def]
    by_cases hkey : mapHasKey fns e.1 map2 = true
    · rw [hkey, hrest]
      have hmem := (mapHasKey_iff law h e.1).mp hkey
      simp [hmem, Nat.add_right_comm, Nat.add_assoc]
    · have hmem : Quotient.mk law.setoid e.1 ∉ m₂ := fun hm => hkey ((mapHasKey_iff law h e.1).mpr hm)
      simp [hkey, hmem]

/-- As many keys, all of them among the other map's, are the other map's. -/
theorem keys_eq_iff {m₁ : KeyMap law.setoid V} {l : List (K × V)} (h : Tracks law.setoid l m₁) :
    ((∀ e ∈ l, Quotient.mk law.setoid e.1 ∈ m₂) ∧ l.length = m₂.keys.card) ↔ ∀ c, c ∈ m₁ ↔ c ∈ m₂ := by
  rw [← h.card_eq]
  constructor
  · rintro ⟨hsub, hcard⟩ c
    have hkeys : m₁.keys ⊆ m₂.keys := by
      intro c hc
      obtain ⟨k, rfl⟩ := Quotient.exists_rep c
      obtain ⟨e, he, hr⟩ := h.mem_iff.mp (Finmap.mem_keys.mp hc)
      rw [← Tracks.class_eq.mpr hr]
      exact Finmap.mem_keys.mpr (hsub e he)
    rw [← Finmap.mem_keys, ← Finmap.mem_keys, Finset.eq_of_subset_of_card_le hkeys hcard.ge]
  · intro hsame
    have hkeys : m₁.keys = m₂.keys := by
      ext c
      rw [Finmap.mem_keys, Finmap.mem_keys]
      exact hsame c
    refine ⟨fun e he => (hsame _).mp (h.mem_iff.mpr ⟨e, he, law.setoid.refl e.1⟩), ?_⟩
    rw [hkeys]

theorem mapContainsSameKeys_spec {x₁ : Map K V} {x₂ : Map K W} {m₁ : KeyMap law.setoid V} (h₁ : MapTracks law x₁ m₁)
    (h₂ : MapTracks law x₂ m₂) :
    mapContainsSameKeys fns x₁ x₂ = some (decide (∀ c, c ∈ m₁ ↔ c ∈ m₂)) := by
  obtain ⟨i, hinit, hyields⟩ := mapIterator_yields law h₁
  have hloop := sameKeysLoop_spec law h₂ (mapEntries x₁) i (mapSize x₁ + 1) 0 hyields
    (by rw [mapSize_entries law h₁]; exact Nat.lt_succ_self _)
  rw [mapContainsSameKeys, hinit, Option.bind_eq_bind, Option.bind_some, hloop, Nat.zero_add]
  rw [Option.some.injEq, decide_eq_decide]
  exact keys_eq_iff law (h₁.tracks law)

/-! ## Union -/

theorem joinLoop_spec (copyFunction : Option (K → K)) (hcopy : ∀ f ∈ copyFunction, ∀ k, fns.equal (f k) k = true)
    (items : List (K × K)) : ∀ (si : MapIterator K K) (fuel : ℕ) (set : Map K K) (m : KeyMap law.setoid K),
      Yields mapIteratorNext si items → items.length < fuel → MapTracks law set m →
      ∃ set' m', joinLoop fns copyFunction fuel si set = some set' ∧ MapTracks law set' m' ∧
        ∀ c, c ∈ m' ↔ c ∈ m ∨ ∃ e ∈ items, Quotient.mk law.setoid e.1 = c := by
  induction items with
  | nil =>
    intro si fuel set m hsi hfuel h
    obtain ⟨fuel, rfl⟩ : ∃ k, fuel = k + 1 := ⟨fuel - 1, by omega⟩
    obtain ⟨si', hnext⟩ := hsi.finished
    refine ⟨set, m, ?_, h, fun c => by simp⟩
    simp only [joinLoop, setIteratorNext, hnext, Option.map_some, Option.map_none, Option.bind_eq_bind, Option.bind_some,
      Option.pure_def]
  | cons e items ih =>
    intro si fuel set m hsi hfuel h
    obtain ⟨fuel, rfl⟩ : ∃ k, fuel = k + 1 := ⟨fuel - 1, by omega⟩
    rw [List.length_cons] at hfuel
    obtain ⟨si', hnext, hsi'⟩ := hsi.next
    have hclass : Quotient.mk law.setoid (copyFunction.elim e.1 (· e.1)) = Quotient.mk law.setoid e.1 := by
      cases copyFunction with
      | none => rfl
      | some f => exact Tracks.class_eq.mpr (hcopy f rfl e.1)
    have hadd := (mapInsert_tracks law h (copyFunction.elim e.1 (· e.1)) (copyFunction.elim e.1 (· e.1))).1
    obtain ⟨set', m', hloop, h', hkeys⟩ := ih si' fuel _ _ hsi' (by omega) hadd
    refine ⟨set', m', ?_, h', fun c => ?_⟩
    · simp only [joinLoop, setIteratorNext, hnext, Option.map_some, Option.bind_eq_bind, Option.bind_some]
      exact hloop
    · rw [hkeys, Finmap.mem_insert, hclass, List.exists_mem_cons_iff, eq_comm (a := c), or_comm (a := _ = c), or_assoc]

theorem setJoin_spec (copyFunction : Option (K → K)) (hcopy : ∀ f ∈ copyFunction, ∀ k, fns.equal (f k) k = true)
    {set otherset : Map K K} {m₁ m₂ : KeyMap law.setoid K} (h₁ : MapTracks law set m₁) (h₂ : MapTracks law otherset m₂) :
    ∃ set' m', setJoin fns copyFunction set (some otherset) = some set' ∧ MapTracks law set' m' ∧
      ∀ c, c ∈ m' ↔ c ∈ m₁ ∨ c ∈ m₂ := by
  obtain ⟨si, hinit, hyields⟩ := mapIterator_yields law h₂
  obtain ⟨set', m', hloop, h', hkeys⟩ := joinLoop_spec law copyFunction hcopy (mapEntries otherset) si
    (mapSize otherset + 1) set m₁ hyields (by rw [mapSize_entries law h₂]; exact Nat.lt_succ_self _) h₁
  refine ⟨set', m', ?_, h', fun c => ?_⟩
  · rw [setJoin, setIteratorInit, hinit, Option.bind_eq_bind, Option.bind_some, hloop]
  · obtain ⟨k, rfl⟩ := Quotient.exists_rep c
    rw [hkeys, (h₂.tracks law).mem_iff]
    simp only [Tracks.class_eq]

/-! ## Reachable maps and sets -/

/-- What some calls have made of a new map, and the finite map of the same calls. -/
def MapBuilt (x : Map K V) (m : KeyMap law.setoid V) : Prop :=
  ∃ calls replies, run (mapStep fns) mapNew calls = some (x, replies) ∧
    run (keyMapStep law.setoid) ∅ calls = some (m, replies)

theorem MapBuilt.tracks (h : MapBuilt law x m) : MapTracks law x m := by
  obtain ⟨calls, replies, hx, hm⟩ := h
  have hmatch := run_matches (mapStep_matches law) calls mapNew ∅ Tracks.nil
  rw [hx, hm] at hmatch
  exact hmatch.1

/-- The elements that an iterator of a set shows: one of each class of the set. -/
theorem setIterator_yields {x : Map K K} {m : KeyMap law.setoid K} (h : MapTracks law x m) :
    ∃ i elements, setIteratorInit x = some i ∧ Yields setIteratorNext i elements ∧
      (elements.Pairwise fun a b => fns.equal a b = false) ∧
      ∀ k, Quotient.mk law.setoid k ∈ m ↔ ∃ a ∈ elements, fns.equal a k = true := by
  obtain ⟨i, hinit, hyields⟩ := mapIterator_yields law h
  refine ⟨i, (mapEntries x).map Prod.fst, hinit, hyields.map Prod.fst, ?_, fun k => ?_⟩
  · rw [List.pairwise_map]
    exact (h.tracks law).distinct.imp fun hne => Bool.eq_false_iff.mpr hne
  · rw [(h.tracks law).mem_iff]
    constructor
    · rintro ⟨e, he, hr⟩
      exact ⟨e.1, List.mem_map_of_mem he, hr⟩
    · rintro ⟨a, ha, hr⟩
      obtain ⟨e, he, rfl⟩ := List.mem_map.mp ha
      exact ⟨e, he, hr⟩

/-- An iterator shows every entry once, in either representation; two maps are found to have the same keys just if they do;
`SetJoin` makes the union, with or without copies of the elements. -/
structure IteratesExactly (V W : Type) (copyFunction : Option (K → K)) : Prop where
  map_shown : ∀ (x : Map K V) (m : KeyMap law.setoid V), MapBuilt law x m → ∃ i entries, mapIteratorInit x = some i ∧
    Yields mapIteratorNext i entries ∧ Tracks law.setoid entries m
  set_shown : ∀ (set : Map K K) (m : KeyMap law.setoid K), MapBuilt law set m → ∃ i elements,
    setIteratorInit set = some i ∧ Yields setIteratorNext i elements ∧
    (elements.Pairwise fun a b => fns.equal a b = false) ∧
    ∀ k, Quotient.mk law.setoid k ∈ m ↔ ∃ a ∈ elements, fns.equal a k = true
  same_keys : ∀ (x₁ : Map K V) (x₂ : Map K W) (m₁ : KeyMap law.setoid V) (m₂ : KeyMap law.setoid W), MapBuilt law x₁ m₁ →
    MapBuilt law x₂ m₂ → mapContainsSameKeys fns x₁ x₂ = some (decide (∀ c, c ∈ m₁ ↔ c ∈ m₂))
  set_equal : ∀ (set otherset : Map K K) (m₁ m₂ : KeyMap law.setoid K), MapBuilt law set m₁ → MapBuilt law otherset m₂ →
    setIsEqual fns set otherset = some (decide (∀ c, c ∈ m₁ ↔ c ∈ m₂))
  joined_self : ∀ set : Map K K, setJoin fns copyFunction set none = some set
  joined : ∀ (set otherset : Map K K) (m₁ m₂ : KeyMap law.setoid K), MapBuilt law set m₁ → MapBuilt law otherset m₂ →
    ∃ set' m', setJoin fns copyFunction set (some otherset) = some set' ∧ MapTracks law set' m' ∧
      (∀ c, c ∈ m' ↔ c ∈ m₁ ∨ c ∈ m₂) ∧
      ∀ k, setContains fns set' k = decide (setContains fns set k = true ∨ setContains fns otherset k = true)

theorem map_iterates_exactly (copyFunction : Option (K → K))
    (hcopy : ∀ f ∈ copyFunction, ∀ k, fns.equal (f k) k = true) : IteratesExactly law V W copyFunction where
  map_shown x m h := by
    obtain ⟨i, hinit, hyields⟩ := mapIterator_yields law (h.tracks law)
    exact ⟨i, _, hinit, hyields, (h.tracks law).tracks law⟩
  set_shown set m h := setIterator_yields law (h.tracks law)
  same_keys x₁ x₂ m₁ m₂ h₁ h₂ := mapContainsSameKeys_spec law (h₁.tracks law) (h₂.tracks law)
  set_equal set otherset m₁ m₂ h₁ h₂ := mapContainsSameKeys_spec law (h₁.tracks law) (h₂.tracks law)
  joined_self set := rfl
  joined set otherset m₁ m₂ h₁ h₂ := by
    obtain ⟨set', m', hjoin, h', hkeys⟩ := setJoin_spec law copyFunction hcopy (h₁.tracks law) (h₂.tracks law)
    refine ⟨set', m', hjoin, h', hkeys, fun k => ?_⟩
    rw [Bool.eq_iff_iff, decide_eq_true_iff, setContains, setContains, setContains, mapHasKey_iff law h',
      mapHasKey_iff law (h₁.tracks law), mapHasKey_iff law (h₂.tracks law)]
    exact hkeys _

theorem map_iterates_exactly_modulo : IteratesExactly moduloFns_lawful ℕ ℕ (some id) := by
  refine map_iterates_exactly moduloFns_lawful (some id) fun f hf k => ?_
  cases hf
  exact moduloFns_lawful.equal_equivalence.refl k

end Meaning

end Libntech.Containers
