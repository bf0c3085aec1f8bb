import Libntech.Containers.MapMeaning
import Libntech.Containers.PowerOfTwo

/-! # The size of a HashMap

The table grows when there are more entries than three quarters of its buckets, and shrinks when there are less than 7/20
of them. Half of the buckets have room for the entries then, so the two thresholds do not get in each other's way
(`Sized`). Where the entries are, and that their keys differ, is known from the finite map they stand for.
-/
namespace Libntech.Containers
open Lib
set_option autoImplicit false

variable {K V : Type} {fns : MapFns K}

/-! ## Calls -/

inductive HashMapCall (K V : Type) where
  | insert (key : K) (value : V)
  | remove (key : K)
  | clear

def hashMapStep (fns : MapFns K) (m : HashMap K V) : HashMapCall K V → Option (HashMap K V × MapReply V)
  | .insert key value => some ((hashMapInsert fns m key value).2, .flag (hashMapInsert fns m key value).1)
  | .remove key => some ((hashMapRemove fns m key).2, .flag (hashMapRemove fns m key).1)
  | .clear => (hashMapClear m).map fun m => (m, .done)

/-! ## Sizes -/

/-- The numbers of a hash map that was made for at least `initSize` buckets. -/
structure Sized (initSize : ℕ) (m : HashMap K V) : Prop where
  size : ∃ k, 5 ≤ k ∧ k ≤ 30 ∧ m.size = 2 ^ k
  atFirst : ∃ k, 5 ≤ k ∧ m.initSize = 2 ^ k
  asked : min initSize maxHashMapBuckets ≤ m.initSize
  init_le : m.initSize ≤ m.size
  maxThreshold : m.maxThreshold = maxThresholdOf m.size
  minThreshold : m.minThreshold = minThresholdOf m.size
  fits : m.load ≤ m.maxThreshold ∨ m.size = maxHashMapBuckets

theorem isPow2_iff (n : ℕ) : isPow2 n = true ↔ n.isPowerOfTwo := by
  rw [← Nat.ne_zero_and_sub_one_eq_zero_iff_isPowerOfTwo, isPow2, Bool.and_eq_true, decide_eq_true_eq, beq_iff_eq,
    Nat.pos_iff_ne_zero]

theorem hashMapNew_size (initSize : ℕ) : ∃ k, 5 ≤ k ∧ k ≤ 30 ∧ (hashMapNew initSize : HashMap K V).size = 2 ^ k ∧
    min initSize maxHashMapBuckets ≤ 2 ^ k := by
  generalize hasked : min (max initSize minHashMapBuckets) maxHashMapBuckets = asked
  have hlow : 2 ^ 5 ≤ asked := by rw [← hasked]; simp [minHashMapBuckets, maxHashMapBuckets]
  have hhigh : asked ≤ 2 ^ 30 := hasked ▸ Nat.min_le_right _ _
  have hmin : min initSize maxHashMapBuckets ≤ asked := by
    rw [← hasked]
    exact min_le_min_right _ (Nat.le_max_left _ _)
  have hsize : (hashMapNew initSize : HashMap K V).size = if isPow2 asked then asked else upperPowerOfTwo asked := by
    rw [← hasked]
    rfl
  obtain ⟨k, hk, hle, hmost⟩ : ∃ k, (hashMapNew initSize : HashMap K V).size = 2 ^ k ∧ asked ≤ 2 ^ k ∧ 2 ^ k ≤ 2 ^ 30 := by
    rw [hsize]
    split_ifs with hpow
    · obtain ⟨k, hk⟩ := (isPow2_iff asked).mp hpow
      exact ⟨k, hk, hk.le, hk ▸ hhigh⟩
    · have hleast := (upperPowerOfTwo_isLeast_iff (v := asked) (by omega) (by omega)).mpr (gapFree_of_lt (by omega))
      obtain ⟨⟨k, hk⟩, hle⟩ := hleast.1
      exact ⟨k, hk, hk ▸ hle, hk ▸ hleast.2 ⟨⟨30, rfl⟩, hhigh⟩⟩
  exact ⟨k, (Nat.pow_le_pow_iff_right Nat.one_lt_two).mp (hlow.trans hle),
    (Nat.pow_le_pow_iff_right Nat.one_lt_two).mp hmost, hk, hmin.trans hle⟩

theorem sized_new (initSize : ℕ) : Sized initSize (hashMapNew initSize : HashMap K V) := by
  obtain ⟨k, hlow, hhigh, hsize, hasked⟩ := hashMapNew_size (K := K) (V := V) initSize
  exact ⟨⟨k, hlow, hhigh, hsize⟩, ⟨k, hlow, hsize⟩, hasked.trans_eq hsize.symm, Nat.le_refl _, rfl, rfl,
    .inl (Nat.zero_le _)⟩

variable {initSize : ℕ} {m : HashMap K V}

theorem Sized.size_pos (h : Sized initSize m) : 0 < m.size := by
  obtain ⟨k, -, -, hk⟩ := h.size
  rw [hk]
  exact Nat.two_pow_pos k

theorem Sized.grow (h : Sized initSize m) (hsize : m.size < maxHashMapBuckets)
    (buckets : List (List (K × V))) :
    Sized initSize (hashMapResize fns { m with buckets, load := m.load + 1 } (m.size <<< 1)) := by
  obtain ⟨k, hlow, hhigh, hk⟩ := h.size
  have hdouble : m.size <<< 1 = 2 ^ (k + 1) := by rw [Nat.shiftLeft_eq, hk, Nat.pow_one, Nat.pow_succ]
  have hmore : k < 30 := by
    rw [hk] at hsize
    exact (Nat.pow_lt_pow_iff_right Nat.one_lt_two).mp hsize
  have hpow : 2 ^ 5 ≤ 2 ^ k := Nat.pow_le_pow_right Nat.two_pos hlow
  have hload := h.fits.resolve_right (Nat.ne_of_lt hsize)
  have hinit := h.init_le
  refine ⟨⟨k + 1, by omega, hmore, hdouble⟩, h.atFirst, h.asked, ?_, rfl, rfl, .inl ?_⟩
  · show m.initSize ≤ m.size <<< 1
    rw [Nat.shiftLeft_eq]
    omega
  · show m.load + 1 ≤ maxThresholdOf (m.size <<< 1)
    rw [h.maxThreshold, maxThresholdOf] at hload
    rw [maxThresholdOf, Nat.shiftLeft_eq]
    omega

/-- Half of the buckets have room for the entries, when there are so few. -/
theorem Sized.shrink (h : Sized initSize m) (hfew : m.load - 1 < m.minThreshold) (hsize : m.initSize < m.size)
    (buckets : List (List (K × V))) :
    Sized initSize (hashMapResize fns { m with buckets, load := m.load - 1 } (m.size >>> 1)) := by
  obtain ⟨k, hlow, hhigh, hk⟩ := h.size
  obtain ⟨j, hj, hinit⟩ := h.atFirst
  have hless : j < k := by
    rw [hk, hinit] at hsize
    exact (Nat.pow_lt_pow_iff_right Nat.one_lt_two).mp hsize
  obtain ⟨k, rfl⟩ : ∃ i, k = i + 1 := ⟨k - 1, by omega⟩
  have hhalf : m.size >>> 1 = 2 ^ k := by rw [Nat.shiftRight_one, hk, Nat.pow_succ, Nat.mul_div_cancel _ Nat.two_pos]
  refine ⟨⟨k, by omega, by omega, hhalf⟩, h.atFirst, h.asked, ?_, rfl, rfl, .inl ?_⟩
  · show m.initSize ≤ m.size >>> 1
    rw [hhalf, hinit]
    exact Nat.pow_le_pow_right Nat.two_pos (by omega)
  · show m.load - 1 ≤ maxThresholdOf (m.size >>> 1)
    rw [h.minThreshold, minThresholdOf, hk, Nat.pow_succ] at hfew
    rw [maxThresholdOf, hhalf]
    omega

theorem Sized.insert (h : Sized initSize m) (key : K) (value : V) : Sized initSize (hashMapInsert fns m key value).2 := by
  unfold hashMapInsert
  simp only
  cases overwriteFirst (fns.equal · key) key value (m.buckets.getD (bucketOf fns m.size key) []) with
  | some chain => exact ⟨h.size, h.atFirst, h.asked, h.init_le, h.maxThreshold, h.minThreshold, h.fits⟩
  | none =>
    simp only
    split_ifs with hgrow
    · exact h.grow hgrow.2 _
    · refine ⟨h.size, h.atFirst, h.asked, h.init_le, h.maxThreshold, h.minThreshold, ?_⟩
      obtain ⟨k, -, hhigh, hk⟩ := h.size
      have hmost : m.size ≤ maxHashMapBuckets := hk ▸ Nat.pow_le_pow_right Nat.two_pos hhigh
      show m.load + 1 ≤ m.maxThreshold ∨ m.size = maxHashMapBuckets
      omega

theorem Sized.remove (h : Sized initSize m) (key : K) : Sized initSize (hashMapRemove fns m key).2 := by
  unfold hashMapRemove
  simp only
  cases dropFirst (fns.equal · key) (m.buckets.getD (bucketOf fns m.size key) []) with
  | none => exact h
  | some chain =>
    simp only
    split_ifs with hshrink
    · exact h.shrink hshrink.1 hshrink.2 _
    · refine ⟨h.size, h.atFirst, h.asked, h.init_le, h.maxThreshold, h.minThreshold, ?_⟩
      have hfits := h.fits
      show m.load - 1 ≤ m.maxThreshold ∨ m.size = maxHashMapBuckets
      omega

theorem Sized.clear (h : Sized initSize m) {m' : HashMap K V} (hclear : hashMapClear m = some m') : Sized initSize m' := by
  unfold hashMapClear at hclear
  simp only at hclear
  split_ifs at hclear with hload
  obtain rfl := Option.some.inj hclear
  refine ⟨h.size, h.atFirst, h.asked, h.init_le, h.maxThreshold, h.minThreshold, .inl ?_⟩
  rw [hload]
  exact Nat.zero_le _

/-! ## Every map that can be reached -/

section Reached
open Classical
variable (law : fns.Lawful)

theorem hashMapStep_keeps {m : HashMap K V} {entries : KeyMap law.setoid V} (h : Sized initSize m) (ht : HashTracks law m entries)
    (call : HashMapCall K V) : ∃ m' reply entries', hashMapStep fns m call = some (m', reply) ∧ Sized initSize m' ∧
      HashTracks law m' entries' := by
  cases call with
  | insert key value => exact ⟨_, _, _, rfl, h.insert key value, (hashMapInsert_tracks law ht key value).1⟩
  | remove key => exact ⟨_, _, _, rfl, h.remove key, (hashMapRemove_tracks law ht key).1⟩
  | clear =>
    obtain ⟨m', hclear, htracks⟩ := hashMapClear_tracks law ht
    exact ⟨m', .done, ∅, by rw [hashMapStep, hclear, Option.map_some], h.clear hclear, htracks⟩

theorem hashMap_run_keeps (calls : List (HashMapCall K V)) {m : HashMap K V} {entries : KeyMap law.setoid V}
    (h : Sized initSize m) (ht : HashTracks law m entries) : ∃ m' replies entries',
      run (hashMapStep fns) m calls = some (m', replies) ∧ Sized initSize m' ∧ HashTracks law m' entries' := by
  induction calls generalizing m entries with
  | nil => exact ⟨m, [], entries, rfl, h, ht⟩
  | cons call calls ih =>
    obtain ⟨m₁, reply, entries₁, hstep, h₁, ht₁⟩ := hashMapStep_keeps law h ht call
    obtain ⟨m', replies, entries', hrun, h', ht'⟩ := ih h₁ ht₁
    exact ⟨m', reply :: replies, entries', by rw [run, hstep]; simp only [hrun], h', ht'⟩

end Reached

/-- What holds of a hash map that was made for at least `initSize` buckets. -/
structure WellKept (fns : MapFns K) (initSize : ℕ) (m : HashMap K V) : Prop where
  power : m.size.isPowerOfTwo
  bounds : minHashMapBuckets ≤ m.size ∧ m.size ≤ maxHashMapBuckets
  init : m.initSize ≤ m.size ∧ min initSize maxHashMapBuckets ≤ m.size
  buckets : m.buckets.length = m.size
  load : m.load = (m.buckets.map List.length).sum
  placed : ∀ i, ∀ e ∈ m.buckets.getD i [], (fns.hash e.1).toNat &&& (m.size - 1) = i
  distinct : m.buckets.flatten.Pairwise fun a b => fns.equal a.1 b.1 = false
  thresholds : m.maxThreshold = m.size * 3 / 4 ∧ m.minThreshold = m.size * 7 / 20
  fits : m.load ≤ m.maxThreshold ∨ m.size = maxHashMapBuckets

/-- Every sequence of calls on a new hash map runs through, and leaves it well kept. -/
theorem hashMap_wellKept (law : fns.Lawful) (initSize : ℕ) (calls : List (HashMapCall K V)) :
    ∃ m replies, run (hashMapStep fns) (hashMapNew initSize) calls = some (m, replies) ∧ WellKept fns initSize m := by
  classical
  have hnew : Sized initSize (hashMapNew initSize : HashMap K V) := sized_new initSize
  obtain ⟨m, replies, entries, hrun, h, ht⟩ := hashMap_run_keeps law calls hnew (hashMapNew_tracks law hnew.size_pos)
  obtain ⟨k, hlow, hhigh, hk⟩ := h.size
  refine ⟨m, replies, hrun, ⟨k, hk⟩, ⟨?_, ?_⟩, ⟨h.init_le, h.asked.trans h.init_le⟩, ht.table.length_eq, ?_, ht.table.placed, ?_,
    ⟨h.maxThreshold, h.minThreshold⟩, h.fits⟩
  · rw [hk]
    exact Nat.pow_le_pow_right Nat.two_pos hlow
  · rw [hk]
    exact Nat.pow_le_pow_right Nat.two_pos hhigh
  · rw [ht.load_eq, List.length_flatten]
  · exact ht.tracks.distinct.imp fun hne => Bool.eq_false_iff.mpr hne

/-- Enough entries for the table to grow twice, and then so few that it shrinks. -/
theorem hashMap_wellKept_modulo : ∃ m replies,
    run (hashMapStep moduloFns) (hashMapNew 33)
      ((List.range 200).map (fun n => HashMapCall.insert n n) ++ (List.range 190).map HashMapCall.remove) = some (m, replies) ∧
    WellKept moduloFns 33 m := hashMap_wellKept moduloFns_lawful 33 _

end Libntech.Containers
