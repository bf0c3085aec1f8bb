import Libntech.Network.InetPton

/-! # inet_pton keeps to its memory

Every text is read without an access outside `tmp`: the groups are stored behind each other, and the shift by hand moves
them inside the sixteen bytes.
-/
namespace Libntech.Network
set_option autoImplicit false

open Libntech.Json (Bytes)
open Libntech.Lib (Fault load store)

/-! ## Accesses inside the memory -/

variable {tmp : List UInt8} {i tp : ℕ} {colonp : Option ℕ}

theorem load_ok (mem : List UInt8) (h : i < mem.length) : ∃ c, load mem i = .ok c := by
  rw [load, List.getElem?_eq_getElem h]
  exact ⟨_, rfl⟩

theorem store_ok (mem : List UInt8) (h : i < mem.length) (c : UInt8) :
    ∃ mem', store mem i c = .ok mem' ∧ mem'.length = mem.length := by
  rw [store, if_pos h]
  exact ⟨_, rfl, List.length_set⟩

/-- The read ends with an answer, and what it accepts has so many bytes. -/
def ReadsInside (size : ℕ) (result : Except Fault (Option (List UInt8))) : Prop :=
  ∃ answer, result = .ok answer ∧ ∀ bytes, answer = some bytes → bytes.length = size

theorem readsInside_none (size : ℕ) : ReadsInside size (.ok none) := ⟨none, rfl, fun _ h => by cases h⟩

theorem inetPton4Loop_inside (src : Bytes) {octets : ℕ} {saw_digit : Bool} (hlength : tmp.length = 4) (htp : tp ≤ 3)
    (hoctets : octets = if saw_digit then tp + 1 else tp) :
    ReadsInside 4 (inetPton4Loop src tmp tp saw_digit octets) := by
  induction src generalizing tmp tp octets saw_digit with
  | nil =>
    rw [inetPton4Loop]
    split
    · exact readsInside_none 4
    · exact ⟨some tmp, rfl, fun bytes h => by rw [← Option.some.inj h, hlength]⟩
  | cons ch src ih =>
    rw [inetPton4Loop]
    split
    · rename_i digit _
      obtain ⟨c, hc⟩ := load_ok tmp (i := tp) (by omega)
      rw [hc, Lib.ok_bind]
      simp only
      split
      · exact readsInside_none 4
      · obtain ⟨tmp', htmp', hlength'⟩ := store_ok tmp (i := tp) (by omega) (UInt8.ofNat (c.toNat * 10 + digit))
        rw [htmp', Lib.ok_bind]
        cases saw_digit with
        | false =>
          rw [if_neg (by decide)] at hoctets
          rw [if_pos (by decide), if_neg (by omega)]
          exact ih (hlength'.trans hlength) htp (by rw [hoctets, if_pos rfl])
        | true =>
          rw [if_neg (by decide)]
          exact ih (hlength'.trans hlength) htp hoctets
    · split
      · rename_i hdot
        rw [if_pos hdot.2] at hoctets
        split
        · exact readsInside_none 4
        · obtain ⟨tmp', htmp', hlength'⟩ := store_ok tmp (i := tp + 1) (by omega) 0
          rw [htmp', Lib.ok_bind]
          exact ih (hlength'.trans hlength) (by omega) (by rw [hoctets, if_neg (by decide)])
      · exact readsInside_none 4

theorem inetPton4_inside (src : Bytes) : ReadsInside 4 (inetPton4 src) :=
  inetPton4Loop_inside src rfl (Nat.zero_le 3) rfl

theorem storeVal_ok (tmp : List UInt8) (tp : ℕ) (h : tp + 2 ≤ tmp.length) (val : ℕ) :
    ∃ tmp', storeVal tmp tp val = .ok tmp' ∧ tmp'.length = tmp.length := by
  obtain ⟨tmp₁, h₁, hlength₁⟩ := store_ok tmp (i := tp) (by omega) (UInt8.ofNat (val >>> 8))
  obtain ⟨tmp₂, h₂, hlength₂⟩ := store_ok tmp₁ (i := tp + 1) (by omega) (UInt8.ofNat val)
  refine ⟨tmp₂, ?_, hlength₂.trans hlength₁⟩
  rw [storeVal, h₁, Lib.ok_bind, h₂]

theorem storeOctets_ok (octets tmp : List UInt8) (tp : ℕ) (h : tp + octets.length ≤ tmp.length) :
    ∃ tmp', storeOctets tmp tp octets = .ok tmp' ∧ tmp'.length = tmp.length := by
  induction octets generalizing tmp tp with
  | nil => exact ⟨tmp, rfl, rfl⟩
  | cons octet octets ih =>
    rw [List.length_cons] at h
    obtain ⟨tmp₁, h₁, hlength₁⟩ := store_ok tmp (i := tp) (by omega) octet
    obtain ⟨tmp₂, h₂, hlength₂⟩ := ih tmp₁ (tp + 1) (by omega)
    refine ⟨tmp₂, ?_, hlength₂.trans hlength₁⟩
    rw [storeOctets, h₁, Lib.ok_bind, h₂]

theorem shiftLoop_ok {colonp n : ℕ} (hn : colonp + n ≤ 16) {left : ℕ} (hi : i + left = n + 1) (hpos : 0 < i)
    (hlength : tmp.length = 16) :
    ∃ tmp', shiftLoop colonp n left i tmp = .ok tmp' ∧ tmp'.length = 16 := by
  induction left generalizing i tmp with
  | zero => exact ⟨tmp, rfl, hlength⟩
  | succ left ih =>
    obtain ⟨c, hc⟩ := load_ok tmp (i := colonp + (n - i)) (by omega)
    obtain ⟨tmp₁, h₁, hlength₁⟩ := store_ok tmp (i := nsIn6AddrSz - i)
      (by rw [nsIn6AddrSz]; omega) c
    obtain ⟨tmp₂, h₂, hlength₂⟩ := store_ok tmp₁ (i := colonp + (n - i)) (by omega) 0
    rw [shiftLoop, hc, Lib.ok_bind, h₁, Lib.ok_bind, h₂, Lib.ok_bind]
    exact ih (by omega) (Nat.succ_pos i) (by omega)

theorem shiftToEnd_inside (hlength : tmp.length = 16) (htp : tp ≤ 16) (hcolonp : ∀ k, colonp = some k → k ≤ tp) :
    ReadsInside 16 (shiftToEnd tmp tp colonp) := by
  cases colonp with
  | none =>
    refine ⟨_, rfl, fun bytes h => ?_⟩
    split at h
    · cases h
    · rw [← Option.some.inj h, hlength]
  | some k =>
    have hk := hcolonp k rfl
    obtain ⟨tmp', htmp', hlength'⟩ : ∃ tmp', shiftLoop k (tp - k) (tp - k) 1 tmp = .ok tmp' ∧ tmp'.length = 16 :=
      shiftLoop_ok (by omega) (by omega) Nat.one_pos hlength
    refine ⟨some tmp', ?_, fun bytes h => by rw [← Option.some.inj h, hlength']⟩
    simp only [shiftToEnd, htmp', Lib.ok_bind]
    rfl

theorem inetPton6End_inside (saw_xdigit : Bool) (val : ℕ) (hlength : tmp.length = 16) (htp : tp ≤ 16)
    (hcolonp : ∀ k, colonp = some k → k ≤ tp) :
    ReadsInside 16 (inetPton6End tmp tp colonp saw_xdigit val) := by
  rw [inetPton6End]
  split
  · split
    · exact readsInside_none 16
    · rename_i hroom
      rw [nsIn6AddrSz, nsInt16Sz, Nat.not_lt] at hroom
      obtain ⟨tmp', htmp', hlength'⟩ := storeVal_ok tmp tp (by omega) val
      rw [htmp', Lib.ok_bind]
      exact shiftToEnd_inside (hlength'.trans hlength) hroom
        fun k hk => Nat.le_trans (hcolonp k hk) (Nat.le_add_right tp 2)
  · exact shiftToEnd_inside hlength htp hcolonp

theorem inetPton6Loop_inside (src : Bytes) (curtok : Bytes) (saw_xdigit : Bool) (val : ℕ) (hlength : tmp.length = 16)
    (htp : tp ≤ 16) (hcolonp : ∀ k, colonp = some k → k ≤ tp) :
    ReadsInside 16 (inetPton6Loop src tmp tp colonp curtok saw_xdigit val) := by
  induction src generalizing tmp tp colonp curtok saw_xdigit val with
  | nil => exact inetPton6End_inside saw_xdigit val hlength htp hcolonp
  | cons ch src ih =>
    unfold inetPton6Loop
    split
    · simp only
      split
      · exact readsInside_none 16
      · exact ih _ _ _ hlength htp hcolonp
    · split
      · split
        · split
          · exact readsInside_none 16
          · exact ih _ _ _ hlength htp fun k hk => Nat.le_of_eq (Option.some.inj hk).symm
        · split
          · exact readsInside_none 16
          · rename_i hroom
            rw [nsIn6AddrSz, nsInt16Sz, Nat.not_lt] at hroom
            obtain ⟨tmp', htmp', hlength'⟩ := storeVal_ok tmp tp (by omega) val
            rw [htmp', Lib.ok_bind]
            exact ih _ _ _ (hlength'.trans hlength) hroom
              fun k hk => Nat.le_trans (hcolonp k hk) (Nat.le_add_right tp 2)
      · split
        · rename_i hdot
          obtain ⟨answer, hanswer, hfour⟩ := inetPton4_inside curtok
          have hroom := hdot.2
          rw [nsIn6AddrSz, nsInAddrSz] at hroom
          rw [hanswer, Lib.ok_bind]
          cases answer with
          | none => exact readsInside_none 16
          | some octets =>
            have hoctets := hfour octets rfl
            obtain ⟨tmp', htmp', hlength'⟩ := storeOctets_ok octets tmp tp (by omega)
            simp only [htmp', Lib.ok_bind]
            exact inetPton6End_inside false val (hlength'.trans hlength) hroom
              fun k hk => Nat.le_trans (hcolonp k hk) (Nat.le_add_right tp 4)
        · exact readsInside_none 16

/-- No text makes `inet_pton` leave its memory. -/
theorem inetPton_inside (src : Bytes) : ReadsInside 4 (inetPton4 src) ∧ ReadsInside 16 (inetPton6 src) := by
  have hstart : ∀ src curtok, ReadsInside 16 (inetPton6Loop src (List.replicate nsIn6AddrSz 0) 0 none curtok false 0) :=
    fun src curtok => inetPton6Loop_inside src curtok false 0 rfl (Nat.zero_le 16) fun k hk => by cases hk
  refine ⟨inetPton4_inside src, ?_⟩
  unfold inetPton6
  cases src with
  | nil => exact hstart [] []
  | cons ch rest =>
    simp only
    split
    · split
      · exact hstart rest rest
      · exact readsInside_none 16
    · exact hstart (ch :: rest) (ch :: rest)

end Libntech.Network
