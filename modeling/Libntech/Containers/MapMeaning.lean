import Libntech.Containers.Map
import Mathlib.Data.List.GetD

/-! # A Map is a finite map up to `equal_fn`

The reference is `keyMapStep` on Mathlib's finite maps over classes of equal keys. The two
representations are tied to it by `Tracks` on their entries; a hash map moreover keeps every entry in
the bucket of its hash (`Placed`), which is what makes looking at one chain enough. Resizing only
permutes the entries.
-/
namespace Libntech.Containers
open Lib
set_option autoImplicit false

variable {K V : Type}

/-! ## The reference -/

section Reference
open Classical

/-- The reference map of every call. -/
noncomputable def keyMapStep (s : Setoid K) (m : KeyMap s V) :
    MapCall K V → Option (KeyMap s V × MapReply V)
  | .insert key value =>
    some (m.insert (Quotient.mk s key) value, .flag (decide (Quotient.mk s key ∈ m)))
  | .get key => some (m, .value (m.lookup (Quotient.mk s key)))
  | .hasKey key => some (m, .flag (decide (Quotient.mk s key ∈ m)))
  | .remove key => some (m.erase (Quotient.mk s key), .flag (decide (Quotient.mk s key ∈ m)))
  | .clear => some (∅, .done)
  | .size => some (m, .count m.keys.card)

end Reference

/-- What the caller promises about its two functions. -/
structure MapFns.Lawful (fns : MapFns K) : Prop where
  equal_equivalence : Equivalence fun a b => fns.equal a b = true
  hash_eq : ∀ a b, fns.equal a b = true → fns.hash a = fns.hash b

/-- Equality of keys as `equal_fn` decides it. -/
def MapFns.Lawful.setoid {fns : MapFns K} (h : fns.Lawful) : Setoid K := ⟨_, h.equal_equivalence⟩

section Proofs
open Classical
variable {fns : MapFns K} (law : fns.Lawful)

theorem setoid_iff (a b : K) : law.setoid.r a b ↔ fns.equal a b = true := Iff.rfl

variable {m : KeyMap law.setoid V} {size : ℕ} {buckets : List (List (K × V))} {h : HashMap K V} {x : Map K V}
  {l : List (K × V)}

theorem no_hit {key : K} (h : ∀ e ∈ l, fns.equal e.1 key = false) : ∀ e ∈ l, ¬ law.setoid.r e.1 key := by
  intro e he hr
  rw [setoid_iff, h e he] at hr
  exact Bool.false_ne_true hr

/-- What a linear scan over all entries finds is what the map says. -/
theorem find_eq_lookup (h : Tracks law.setoid l m) (key : K) :
    (l.find? fun kv => fns.equal kv.1 key).map Prod.snd = m.lookup (Quotient.mk _ key) := by
  cases hf : l.find? (fun kv => fns.equal kv.1 key) with
  | none =>
    have hno := List.find?_eq_none.mp hf
    rw [h.lookup_absent (no_hit law fun e he => Bool.eq_false_iff.mpr (hno e he))]
    rfl
  | some e =>
    have hhit : fns.equal e.1 key = true := by simpa using List.find?_some hf
    rw [h.lookup_of_mem (List.mem_of_find?_eq_some hf) hhit]
    rfl

/-! ## ArrayMap -/

theorem arrayMapInsert_tracks {a : ArrayMap K V} (h : Tracks law.setoid a.values m) (key : K) (value : V) :
    (arrayMapInsert fns a key value).1 = 0 ∨
      (Tracks law.setoid (arrayMapInsert fns a key value).2.values (m.insert (Quotient.mk _ key) value) ∧
        ((arrayMapInsert fns a key value).1 == 1) = decide (Quotient.mk law.setoid key ∈ m)) := by
  unfold arrayMapInsert
  by_cases hfull : a.size = tinyLimit
  · exact .inl (by rw [if_pos hfull])
  rw [if_neg hfull]
  rcases overwriteFirst_cases (fns.equal · key) key value a.values with
    ⟨l₁, e, l₂, hsplit, hhit, heq⟩ | ⟨hnone, hall⟩
  · rw [heq]
    rw [hsplit] at h
    refine .inr ⟨h.overwrite hhit, ?_⟩
    have hmem : Quotient.mk law.setoid key ∈ m := h.mem_iff.mpr ⟨e, by simp, hhit⟩
    simp [hmem]
  · rw [hnone]
    have hno := no_hit law hall
    have hadd : Tracks law.setoid (a.values ++ [(key, value)]) (m.insert (Quotient.mk _ key) value) :=
      (by rwa [List.append_nil] : Tracks law.setoid (a.values ++ []) m).add
        (by rwa [List.append_nil])
    refine .inr ⟨hadd, ?_⟩
    have hmem : Quotient.mk law.setoid key ∉ m := by
      rw [h.mem_iff]
      rintro ⟨e, he, hr⟩
      exact hno e he hr
    simp [hmem]

theorem dropFirst_tracks (h : Tracks law.setoid l m) (key : K) :
    (∃ l', dropFirst (fns.equal · key) l = some l' ∧ Tracks law.setoid l' (m.erase (Quotient.mk _ key)) ∧
        Quotient.mk law.setoid key ∈ m) ∨
      (dropFirst (fns.equal · key) l = none ∧ m.erase (Quotient.mk law.setoid key) = m ∧
        Quotient.mk law.setoid key ∉ m) := by
  rcases dropFirst_cases (fns.equal · key) l with ⟨l₁, e, l₂, rfl, hhit, heq⟩ | ⟨hnone, hall⟩
  · exact .inl ⟨_, heq, h.drop hhit, h.mem_iff.mpr ⟨e, by simp, hhit⟩⟩
  · have hno := no_hit law hall
    refine .inr ⟨hnone, h.erase_absent hno, ?_⟩
    rw [h.mem_iff]
    rintro ⟨e, he, hr⟩
    exact hno e he hr

/-! ## Buckets -/

/-- Every entry sits in the bucket of its hash. -/
def Placed (fns : MapFns K) (size : ℕ) (buckets : List (List (K × V))) : Prop :=
  ∀ i, ∀ e ∈ buckets.getD i [], bucketOf fns size e.1 = i

theorem bucketOf_lt (fns : MapFns K) (h : 0 < size) (key : K) : bucketOf fns size key < size := by
  have hle : bucketOf fns size key ≤ size - 1 := Nat.and_le_right
  omega

theorem bucket_split {i : ℕ} (hi : i < buckets.length) :
    ∃ pre post, buckets = pre ++ buckets.getD i [] :: post ∧ ∀ c, buckets.set i c = pre ++ c :: post := by
  refine ⟨buckets.take i, buckets.drop (i + 1), ?_, fun c => List.set_eq_take_append_cons_drop.trans (if_pos hi)⟩
  rw [List.getD_eq_getElem _ _ hi, List.cons_getElem_drop_succ, List.take_append_drop]

theorem placed_set {i : ℕ} (h : Placed fns size buckets) (hi : i < buckets.length) {chain : List (K × V)}
    (hc : ∀ e ∈ chain, bucketOf fns size e.1 = i) :
    Placed fns size (buckets.set i chain) := by
  intro j e he
  rw [List.getD_eq_getElem?_getD, List.getElem?_set] at he
  by_cases hij : i = j
  · subst hij
    simp only [if_true, hi, Option.getD_some] at he
    exact hc e he
  · rw [if_neg hij, ← List.getD_eq_getElem?_getD] at he
    exact h j e he

theorem mem_bucket (h : Placed fns size buckets) {e : K × V} (he : e ∈ buckets.flatten) :
    e ∈ buckets.getD (bucketOf fns size e.1) [] := by
  obtain ⟨chain, hchain, hmem⟩ := List.mem_flatten.mp he
  obtain ⟨i, hi, rfl⟩ := List.getElem_of_mem hchain
  have hat : e ∈ buckets.getD i [] := by rwa [List.getD_eq_getElem _ _ hi]
  rwa [h i e hat]

include law in
theorem bucketOf_congr (size : ℕ) {a b : K} (h : fns.equal a b = true) :
    bucketOf fns size a = bucketOf fns size b := by
  rw [bucketOf, bucketOf, law.hash_eq a b h]

/-! ## Relinking -/

/-- The table part of a hash map: right number of buckets, entries where they belong. -/
structure Table (fns : MapFns K) (size : ℕ) (buckets : List (List (K × V))) : Prop where
  length_eq : buckets.length = size
  size_pos : 0 < size
  placed : Placed fns size buckets

theorem Table.index_lt (h : Table fns size buckets) (key : K) : bucketOf fns size key < buckets.length := by
  rw [h.length_eq]
  exact bucketOf_lt fns h.size_pos key

theorem Table.set (h : Table fns size buckets) {key : K} {chain : List (K × V)}
    (hc : ∀ e ∈ chain, bucketOf fns size e.1 = bucketOf fns size key) :
    Table fns size (buckets.set (bucketOf fns size key) chain) :=
  ⟨by rw [List.length_set, h.length_eq], h.size_pos, placed_set h.placed (h.index_lt key) hc⟩

theorem relink_table (h : Table fns size buckets) (item : K × V) : Table fns size (relink fns size buckets item) := by
  refine h.set ?_
  intro e he
  rcases List.mem_cons.mp he with rfl | he
  · rfl
  · exact h.placed _ e he

theorem relink_perm (h : Table fns size buckets) (item : K × V) :
    (relink fns size buckets item).flatten.Perm (item :: buckets.flatten) := by
  obtain ⟨pre, post, hsplit, hset⟩ := bucket_split (h.index_lt item.1)
  unfold relink
  rw [hset, List.flatten_append, List.flatten_cons, List.cons_append]
  conv_rhs => rw [hsplit, List.flatten_append, List.flatten_cons]
  exact List.perm_middle

theorem relink_all (items : List (K × V)) (h : Table fns size buckets) :
    Table fns size (items.foldl (relink fns size) buckets) ∧
      (items.foldl (relink fns size) buckets).flatten.Perm (items ++ buckets.flatten) := by
  induction items generalizing buckets with
  | nil => exact ⟨h, List.Perm.refl _⟩
  | cons item items ih =>
    obtain ⟨ht, hp⟩ := ih (relink_table h item)
    refine ⟨ht, hp.trans ?_⟩
    exact ((relink_perm h item).append_left items).trans List.perm_middle

theorem table_empty (h : 0 < size) : Table fns size (List.replicate size ([] : List (K × V))) := by
  refine ⟨List.length_replicate, h, ?_⟩
  intro i e he
  rw [List.getD_eq_getElem?_getD, List.getElem?_replicate] at he
  by_cases hi : i < size <;> simp [hi] at he

theorem hashMapResize_table (fns : MapFns K) (m : HashMap K V) {newSize : ℕ} (hpos : 0 < newSize) :
    Table fns newSize (hashMapResize fns m newSize).buckets ∧
      (hashMapResize fns m newSize).buckets.flatten.Perm m.buckets.flatten := by
  have hempty : Table fns newSize (List.replicate newSize ([] : List (K × V))) := table_empty hpos
  have hall := relink_all m.buckets.flatten hempty
  rw [List.foldl_flatten, List.flatten_replicate_nil, List.append_nil] at hall
  exact hall

/-! ## HashMap -/

/-- The hash map `h` stands for `m`. -/
structure HashTracks (law : fns.Lawful) (h : HashMap K V) (m : KeyMap law.setoid V) : Prop where
  table : Table fns h.size h.buckets
  tracks : Tracks law.setoid h.buckets.flatten m
  load_eq : h.load = h.buckets.flatten.length
  init_pos : 0 < h.initSize

theorem hashMapNew_tracks {initSize : ℕ} (hpos : 0 < (hashMapNew initSize : HashMap K V).size) :
    HashTracks law (hashMapNew initSize : HashMap K V) ∅ := by
  have hflat : (hashMapNew initSize : HashMap K V).buckets.flatten = [] := List.flatten_replicate_nil
  exact ⟨table_empty hpos, by rw [hflat]; exact Tracks.nil, by rw [hflat]; rfl, hpos⟩

theorem HashTracks.resize (ht : HashTracks law h m) {newSize : ℕ} (hpos : 0 < newSize) :
    HashTracks law (hashMapResize fns h newSize) m := by
  obtain ⟨htable, hperm⟩ := hashMapResize_table fns h hpos
  refine ⟨htable, ht.tracks.perm hperm.symm, ?_, ht.init_pos⟩
  rw [hperm.length_eq]
  exact ht.load_eq

theorem HashTracks.find_eq (ht : HashTracks law h m) (key : K) :
    (∀ e ∈ h.buckets.getD (bucketOf fns h.size key) [], fns.equal e.1 key = false) →
      ∀ e ∈ h.buckets.flatten, fns.equal e.1 key = false := by
  intro hno e he
  by_contra hhit
  rw [Bool.not_eq_false] at hhit
  have hmem := mem_bucket ht.table.placed he
  rw [bucketOf_congr law h.size hhit] at hmem
  rw [hno e hmem] at hhit
  exact Bool.false_ne_true hhit

theorem hashMapInsert_tracks (ht : HashTracks law h m) (key : K) (value : V) :
    HashTracks law (hashMapInsert fns h key value).2 (m.insert (Quotient.mk _ key) value) ∧
      (hashMapInsert fns h key value).1 = decide (Quotient.mk law.setoid key ∈ m) := by
  have hidx := ht.table.index_lt key
  unfold hashMapInsert
  rcases overwriteFirst_cases (fns.equal · key) key value (h.buckets.getD (bucketOf fns h.size key) [])
    with ⟨l₁, e, l₂, hsplit, hhit, heq⟩ | ⟨hnone, hall⟩
  · obtain ⟨pre, post, hbuckets, hset⟩ := bucket_split hidx
    have hflat : h.buckets.flatten = (pre.flatten ++ l₁) ++ e :: (l₂ ++ post.flatten) := by
      rw [hbuckets, hsplit]
      simp
    have htr := ht.tracks
    rw [hflat] at htr
    have hplaced : ∀ e' ∈ l₁ ++ (key, value) :: l₂, bucketOf fns h.size e'.1 = bucketOf fns h.size key := by
      intro e' he'
      have hold := ht.table.placed (bucketOf fns h.size key)
      rw [hsplit] at hold
      rcases List.mem_append.mp he' with he' | he'
      · exact hold e' (by simp [he'])
      · rcases List.mem_cons.mp he' with rfl | he'
        · rfl
        · exact hold e' (by simp [he'])
    have hflat' : (h.buckets.set (bucketOf fns h.size key) (l₁ ++ (key, value) :: l₂)).flatten =
        (pre.flatten ++ l₁) ++ (key, value) :: (l₂ ++ post.flatten) := by
      rw [hset]
      simp
    simp only [heq]
    refine ⟨⟨ht.table.set hplaced, ?_, ?_, ht.init_pos⟩, ?_⟩
    · simp only [hflat']
      exact htr.overwrite hhit
    · simp only [hflat', ht.load_eq, hflat]
      simp
    · rw [eq_comm, decide_eq_true_iff]
      exact htr.mem_iff.mpr ⟨e, by simp, hhit⟩
  · have hno := no_hit law (ht.find_eq law key hall)
    have hperm := relink_perm ht.table (key, value)
    have hadded : HashTracks law
        { h with buckets := relink fns h.size h.buckets (key, value), load := h.load + 1 }
        (m.insert (Quotient.mk _ key) value) := by
      refine ⟨relink_table ht.table _, (ht.tracks.cons_new hno).perm hperm.symm, ?_, ht.init_pos⟩
      simp only [hperm.length_eq, List.length_cons, ht.load_eq]
    simp only [hnone]
    refine ⟨?_, ?_⟩
    · split
      · refine hadded.resize law ?_
        have := ht.table.size_pos
        simp only [Nat.shiftLeft_eq]
        omega
      · exact hadded
    · rw [eq_comm, decide_eq_false_iff_not, ht.tracks.mem_iff]
      rintro ⟨e, he, hr⟩
      exact hno e he hr

theorem hashMapRemove_tracks (ht : HashTracks law h m) (key : K) :
    HashTracks law (hashMapRemove fns h key).2 (m.erase (Quotient.mk _ key)) ∧
      (hashMapRemove fns h key).1 = decide (Quotient.mk law.setoid key ∈ m) := by
  have hidx := ht.table.index_lt key
  unfold hashMapRemove
  rcases dropFirst_cases (fns.equal · key) (h.buckets.getD (bucketOf fns h.size key) [])
    with ⟨l₁, e, l₂, hsplit, hhit, heq⟩ | ⟨hnone, hall⟩
  · obtain ⟨pre, post, hbuckets, hset⟩ := bucket_split hidx
    have hflat : h.buckets.flatten = (pre.flatten ++ l₁) ++ e :: (l₂ ++ post.flatten) := by
      rw [hbuckets, hsplit]
      simp
    have htr := ht.tracks
    rw [hflat] at htr
    have hplaced : ∀ e' ∈ l₁ ++ l₂, bucketOf fns h.size e'.1 = bucketOf fns h.size key := by
      intro e' he'
      have hold := ht.table.placed (bucketOf fns h.size key)
      rw [hsplit] at hold
      rcases List.mem_append.mp he' with he' | he'
      · exact hold e' (by simp [he'])
      · exact hold e' (by simp [he'])
    have hflat' : (h.buckets.set (bucketOf fns h.size key) (l₁ ++ l₂)).flatten =
        (pre.flatten ++ l₁) ++ (l₂ ++ post.flatten) := by
      rw [hset]
      simp
    have hdropped : HashTracks law
        { h with buckets := h.buckets.set (bucketOf fns h.size key) (l₁ ++ l₂), load := h.load - 1 }
        (m.erase (Quotient.mk _ key)) := by
      refine ⟨ht.table.set hplaced, ?_, ?_, ht.init_pos⟩
      · simp only [hflat']
        exact htr.drop hhit
      · simp only [hflat', ht.load_eq, hflat]
        simp
        omega
    simp only [heq]
    refine ⟨?_, ?_⟩
    · split
      · rename_i hshrink
        refine hdropped.resize law ?_
        have := ht.init_pos
        simp only [Nat.shiftRight_one]
        omega
      · exact hdropped
    · rw [eq_comm, decide_eq_true_iff]
      exact htr.mem_iff.mpr ⟨e, by simp, hhit⟩
  · have hno := no_hit law (ht.find_eq law key hall)
    simp only [hnone]
    refine ⟨?_, ?_⟩
    · rw [ht.tracks.erase_absent hno]
      exact ht
    · rw [eq_comm, decide_eq_false_iff_not, ht.tracks.mem_iff]
      rintro ⟨e, he, hr⟩
      exact hno e he hr

theorem hashMapClear_tracks (ht : HashTracks law h m) :
    ∃ h', hashMapClear h = some h' ∧ HashTracks law h' ∅ := by
  have hload : h.load - (h.buckets.map List.length).sum = 0 := by
    rw [ht.load_eq, List.length_flatten, Nat.sub_self]
  have hempty : h.buckets.map (fun _ => ([] : List (K × V))) = List.replicate h.size [] := by
    rw [List.map_const', ht.table.length_eq]
  refine ⟨_, by rw [hashMapClear, if_pos hload], ?_⟩
  simp only [hempty, hload]
  exact ⟨table_empty ht.table.size_pos, by rw [List.flatten_replicate_nil]; exact Tracks.nil,
    by rw [List.flatten_replicate_nil]; rfl, ht.init_pos⟩

/-! ## Map -/

/-- Either representation stands for `m`. -/
def MapTracks (law : fns.Lawful) : Map K V → KeyMap law.setoid V → Prop
  | .arraymap a, m => Tracks law.setoid a.values m
  | .hashmap h, m => HashTracks law h m

theorem MapTracks.tracks (h : MapTracks law x m) : Tracks law.setoid (mapEntries x) m := by
  cases x with
  | arraymap a => exact h
  | hashmap a => exact HashTracks.tracks h

/-- Moving the entries of a full array one by one into a fresh hash map. -/
theorem convertToHashMap_tracks {a : ArrayMap K V} (h : Tracks law.setoid a.values m) :
    HashTracks law (convertToHashMap fns a) m := by
  -- the fold has inserted a prefix `pre` of the array, which `m'` tracks
  have hfold : ∀ (todo pre : List (K × V)) (hm : HashMap K V) (m' : KeyMap law.setoid V),
      HashTracks law hm m' → Tracks law.setoid pre m' → Tracks law.setoid (pre ++ todo) m →
      HashTracks law (todo.foldl (fun hm kv => (hashMapInsert fns hm kv.1 kv.2).2) hm) m := by
    intro todo
    induction todo with
    | nil =>
      intro pre hm m' ht hpre hall
      rw [List.append_nil] at hall
      have hmm : m' = m := by
        apply Finmap.ext_lookup
        intro c
        induction c using Quotient.inductionOn with
        | h k =>
          apply Option.ext
          intro v
          exact (hpre.lookup_iff k v).trans (hall.lookup_iff k v).symm
      exact hmm ▸ ht
    | cons kv todo ih =>
      intro pre hm m' ht hpre hall
      have hnew : ∀ e ∈ pre, ¬ law.setoid.r e.1 kv.1 := by
        intro e he
        have hd := hall.distinct
        rw [List.pairwise_append] at hd
        exact hd.2.2 e he kv List.mem_cons_self
      have hins := (hashMapInsert_tracks law ht kv.1 kv.2).1
      have hpre' : Tracks law.setoid (pre ++ [kv]) (m'.insert (Quotient.mk _ kv.1) kv.2) :=
        (by rwa [List.append_nil] : Tracks law.setoid (pre ++ []) m').add (by rwa [List.append_nil])
      exact ih (pre ++ [kv]) _ _ hins hpre' (by rwa [List.append_assoc, List.singleton_append])
  exact hfold a.values [] _ ∅ (hashMapNew_tracks law (by simp only [hashMapNew]; decide)) Tracks.nil (by rwa [List.nil_append])

theorem mapInsert_tracks (h : MapTracks law x m) (key : K) (value : V) :
    MapTracks law (mapInsert fns key value x).2 (m.insert (Quotient.mk _ key) value) ∧
      (mapInsert fns key value x).1 = decide (Quotient.mk law.setoid key ∈ m) := by
  cases x with
  | arraymap a =>
    unfold mapInsert
    by_cases hfull : (arrayMapInsert fns a key value).1 = 0
    · simp only [hfull, ne_eq, not_true_eq_false, if_false]
      exact hashMapInsert_tracks law (convertToHashMap_tracks law h) key value
    · simp only [ne_eq, hfull, not_false_eq_true, if_true]
      exact (arrayMapInsert_tracks law h key value).resolve_left hfull
  | hashmap a => exact hashMapInsert_tracks law h key value

theorem mapRemove_tracks (h : MapTracks law x m) (key : K) :
    MapTracks law (mapRemove fns key x).2 (m.erase (Quotient.mk _ key)) ∧
      (mapRemove fns key x).1 = decide (Quotient.mk law.setoid key ∈ m) := by
  cases x with
  | arraymap a =>
    simp only [mapRemove, arrayMapRemove]
    rcases dropFirst_tracks law h key with ⟨l', heq, htr, hmem⟩ | ⟨hnone, herase, hmem⟩
    · rw [heq]
      exact ⟨htr, by simp [hmem]⟩
    · rw [hnone, herase]
      exact ⟨h, by simp [hmem]⟩
  | hashmap a => exact hashMapRemove_tracks law h key

theorem mapGetRaw_eq (h : MapTracks law x m) (key : K) :
    (mapGetRaw fns key x).map Prod.snd = m.lookup (Quotient.mk _ key) := by
  cases x with
  | arraymap a => exact find_eq_lookup law h key
  | hashmap a =>
    have ht : HashTracks law a m := h
    simp only [mapGetRaw, hashMapGet]
    cases hf : (a.buckets.getD (bucketOf fns a.size key) []).find? (fun kv => fns.equal kv.1 key) with
    | none =>
      have hno := ht.find_eq law key fun e he => Bool.eq_false_iff.mpr (List.find?_eq_none.mp hf e he)
      rw [ht.tracks.lookup_absent (no_hit law hno)]
      rfl
    | some e =>
      have hhit : fns.equal e.1 key = true := by simpa using List.find?_some hf
      have hchain : a.buckets.getD (bucketOf fns a.size key) [] ∈ a.buckets := by
        rw [List.getD_eq_getElem _ _ (ht.table.index_lt key)]
        exact List.getElem_mem _
      have hmem := List.mem_flatten.mpr ⟨_, hchain, List.mem_of_find?_eq_some hf⟩
      rw [ht.tracks.lookup_of_mem hmem hhit]
      rfl

theorem mapSize_eq (h : MapTracks law x m) : mapSize x = m.keys.card := by
  rw [(h.tracks law).card_eq]
  cases x with
  | arraymap a => rfl
  | hashmap a => exact HashTracks.load_eq h

/-! ## One call, then every sequence of calls -/

theorem mapStep_matches (x : Map K V) (m : KeyMap law.setoid V) (call : MapCall K V)
    (h : MapTracks law x m) :
    Matches (MapTracks law) (mapStep fns x call) (keyMapStep law.setoid m call) := by
  cases call with
  | insert key value =>
    obtain ⟨htr, hret⟩ := mapInsert_tracks law h key value
    exact ⟨htr, by rw [hret]⟩
  | get key =>
    refine ⟨h, ?_⟩
    rw [mapGet, mapGetRaw_eq law h]
  | hasKey key =>
    refine ⟨h, ?_⟩
    have hraw := mapGetRaw_eq law h key
    rw [mapHasKey, MapReply.flag.injEq, Bool.eq_iff_iff, decide_eq_true_iff, ← Finmap.lookup_isSome,
      ← hraw, Option.isSome_map]
  | remove key =>
    obtain ⟨htr, hret⟩ := mapRemove_tracks law h key
    exact ⟨htr, by rw [hret]⟩
  | clear =>
    cases x with
    | arraymap a => exact ⟨Tracks.nil, rfl⟩
    | hashmap a =>
      obtain ⟨h', heq, htr⟩ := hashMapClear_tracks law (h : HashTracks law a m)
      simp only [mapStep, mapClear, heq, Option.map_some, keyMapStep]
      exact ⟨htr, rfl⟩
  | size =>
    refine ⟨h, ?_⟩
    rw [mapSize_eq law h]

/-- Every sequence of calls on a new map runs through and gets the replies of one finite map, and the
entries it ends with are exactly that map's, whichever representation holds them. -/
theorem map_refines_finite_map (calls : List (MapCall K V)) :
    ∃ x m replies, run (mapStep fns) mapNew calls = some (x, replies) ∧
      run (keyMapStep law.setoid) ∅ calls = some (m, replies) ∧ Tracks law.setoid (mapEntries x) m := by
  obtain ⟨x, m, replies, hx, hm, htr⟩ := run_matches_total (mapStep_matches law)
    (fun m call => by cases call <;> exact ⟨_, _, rfl⟩) calls mapNew ∅ Tracks.nil
  exact ⟨x, m, replies, hx, hm, htr.tracks law⟩

/-- Numbers compared as numbers, with a hash that collides. -/
def moduloFns : MapFns ℕ := ⟨fun n => UInt32.ofNat (n % 8), fun a b => a == b⟩

theorem moduloFns_lawful : moduloFns.Lawful where
  equal_equivalence :=
    { refl := fun a => by simp [moduloFns]
      symm := fun h => by simp only [moduloFns, beq_iff_eq] at h ⊢; exact h.symm
      trans := fun h h' => by simp only [moduloFns, beq_iff_eq] at h h' ⊢; exact h.trans h' }
  hash_eq := fun a b h => by
    simp only [moduloFns, beq_iff_eq] at h ⊢
    rw [h]

/-- Enough insertions to leave the array, then a replacement and a removal. -/
theorem map_refines_finite_map_modulo :
    ∃ x m replies,
      run (mapStep moduloFns) mapNew
        ((List.range 20).map (fun n => MapCall.insert n (n * n)) ++ [.insert 3 0, .remove 5, .size]) =
          some (x, replies) ∧
      run (keyMapStep moduloFns_lawful.setoid) ∅
        ((List.range 20).map (fun n => MapCall.insert n (n * n)) ++ [.insert 3 0, .remove 5, .size]) =
          some (m, replies) ∧
      Tracks moduloFns_lawful.setoid (mapEntries x) m :=
  map_refines_finite_map moduloFns_lawful _

end Proofs

end Libntech.Containers
