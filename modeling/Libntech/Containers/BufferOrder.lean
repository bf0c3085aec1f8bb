import Libntech.Containers.BufferMeaning
import Mathlib.Data.List.Lex
import Mathlib.Data.Int.Order.Basic
import Mathlib.Algebra.Order.Ring.Int

/-! # Comparing buffers

`BufferCompare` leaves two C strings to `strcmp`, which compares unsigned bytes, and compares all others itself, as
`char`s, which are signed. Each of the two is a total order on texts. They order two texts alike except where the first
bytes that differ lie on different sides of 128.
-/
namespace Libntech.Containers
set_option autoImplicit false

open Libntech.Json (Bytes)

/-! ## BufferCompare -/

/-- A byte as a `char`. -/
def charValue (c : UInt8) : ℤ := c.toInt8.toInt

/-- A byte as an `unsigned char`. -/
def byteValue (c : UInt8) : ℤ := c.toNat

/-- `strcmp`: the difference of the first bytes that differ. No result is a read past the end of an array. -/
def strcmp : Bytes → Bytes → Option ℤ
  | c :: s, d :: t => if c = d then (if c = 0 then some 0 else strcmp s t) else some (byteValue c - byteValue d)
  | _, _ => none

/-- One of the loops over the bytes that both buffers have, and what is returned behind it. -/
def compareLoop (behind : ℤ) : Bytes → Bytes → ℤ
  | c :: s, d :: t =>
    if charValue c < charValue d then -1
    else if charValue d < charValue c then 1
    else compareLoop behind s t
  | _, _ => behind

/-- The three cases by the sizes. They are the same for byte arrays and for buffers of different modes. -/
def compareBytes (buffer1 buffer2 : Buffer) : ℤ :=
  if buffer1.used < buffer2.used then
    compareLoop (-1) (buffer1.buffer.take buffer1.used) (buffer2.buffer.take buffer1.used)
  else if buffer1.used = buffer2.used then
    compareLoop 0 (buffer1.buffer.take buffer1.used) (buffer2.buffer.take buffer1.used)
  else compareLoop 1 (buffer1.buffer.take buffer2.used) (buffer2.buffer.take buffer2.used)

def bufferCompare (buffer1 buffer2 : Buffer) : Option ℤ :=
  if buffer1.mode = buffer2.mode then
    match buffer1.mode with
    | .cstring => do
      let compareResult ← strcmp buffer1.buffer buffer2.buffer
      if compareResult ≠ 0 then return compareResult.tdiv compareResult.natAbs
      else return compareResult
    | .bytearray => some (compareBytes buffer1 buffer2)
  else some (compareBytes buffer1 buffer2)

/-! ## The order of texts -/

section Order

variable (f : UInt8 → ℤ)

/-- The sign of a comparison letter by letter, where the letters are ordered by `f`. -/
def lexSign : Bytes → Bytes → ℤ
  | [], [] => 0
  | [], _ :: _ => -1
  | _ :: _, [] => 1
  | c :: s, d :: t => if f c < f d then -1 else if f d < f c then 1 else lexSign s t

theorem lexSign_flip (s t : Bytes) : lexSign f t s = -lexSign f s t := by
  induction s generalizing t with
  | nil => cases t <;> rfl
  | cons c s ih =>
    cases t with
    | nil => rfl
    | cons d t =>
      unfold lexSign
      rw [ih]
      split_ifs <;> omega

variable {f}

theorem lexSign_lt_iff (s t : Bytes) : lexSign f s t < 0 ↔ s.map f < t.map f := by
  induction s generalizing t with
  | nil => cases t <;> simp [lexSign]
  | cons c s ih =>
    cases t with
    | nil => simp [lexSign]
    | cons d t =>
      rw [List.map_cons, List.map_cons, List.cons_lt_cons_iff, ← ih, lexSign]
      have heq : f c = f d ↔ ¬ f c < f d ∧ ¬ f d < f c := by omega
      split_ifs with h₁ h₂
      · simp [h₁]
      · simp [h₁, heq, h₂]
      · simp [h₁, heq, h₂]

theorem lexSign_le_iff (s t : Bytes) : lexSign f s t ≤ 0 ↔ s.map f ≤ t.map f := by
  have hflip := lexSign_flip f s t
  rw [← not_lt, ← not_lt, ← lexSign_lt_iff t s, hflip]
  exact not_congr (by omega)

theorem lexSign_self (s : Bytes) : lexSign f s s = 0 := by
  have hflip := lexSign_flip f s s
  omega

theorem lexSign_trans {s t u : Bytes} (hst : lexSign f s t ≤ 0) (htu : lexSign f t u ≤ 0) : lexSign f s u ≤ 0 := by
  rw [lexSign_le_iff] at *
  exact le_trans hst htu

theorem eq_of_lexSign (hf : Function.Injective f) {s t : Bytes} (h : lexSign f s t = 0) : s = t := by
  have hle := (lexSign_le_iff s t).mp h.le
  have hge := (lexSign_le_iff t s).mp (by rw [lexSign_flip, h]; exact le_rfl)
  exact List.map_injective_iff.mpr hf (le_antisymm hle hge)

theorem sign_lexSign (s t : Bytes) : (lexSign f s t).sign = lexSign f s t := by
  induction s generalizing t with
  | nil => cases t <;> rfl
  | cons c s ih =>
    cases t with
    | nil => rfl
    | cons d t =>
      unfold lexSign
      split_ifs
      · rfl
      · rfl
      · exact ih t

end Order

theorem charValue_eq (c : UInt8) : charValue c = if c.toNat < 128 then (c.toNat : ℤ) else c.toNat - 256 := by
  have h : charValue c = c.toBitVec.toInt := rfl
  rw [h, BitVec.toInt_eq_toNat_cond]
  show (if 2 * c.toNat < 2 ^ 8 then _ else _) = _
  have hlt := c.toNat_lt
  split_ifs <;> first | rfl | omega

theorem byteValue_injective : Function.Injective byteValue := fun _ _ h => UInt8.toNat_inj.mp (Int.ofNat_inj.mp h)

theorem charValue_injective : Function.Injective charValue := by
  intro c d h
  have hc := c.toNat_lt
  have hd := d.toNat_lt
  rw [charValue_eq, charValue_eq] at h
  apply UInt8.toNat_inj.mp
  split_ifs at h <;> omega

/-- The first bytes that differ are one of 128 or more in the first text and a smaller one in the second. -/
def SplitBySign (s t : Bytes) : Prop :=
  ∃ p c d s' t', s = p ++ c :: s' ∧ t = p ++ d :: t' ∧ d.toNat < 128 ∧ 128 ≤ c.toNat

theorem splitBySign_iff (s t : Bytes) :
    SplitBySign s t ↔ lexSign charValue s t < 0 ∧ 0 < lexSign byteValue s t := by
  induction s generalizing t with
  | nil =>
    refine iff_of_false ?_ ?_
    · rintro ⟨p, c, d, s', t', hs, -⟩
      simp at hs
    · cases t <;> simp [lexSign]
  | cons c s ih =>
    cases t with
    | nil =>
      refine iff_of_false ?_ (by simp [lexSign])
      rintro ⟨p, c, d, s', t', -, ht, -⟩
      simp at ht
    | cons d t =>
      by_cases hcd : c = d
      · subst hcd
        have hskip : SplitBySign (c :: s) (c :: t) ↔ SplitBySign s t := by
          constructor
          · rintro ⟨p, c', d', s', t', hs, ht, hd, hc⟩
            cases p with
            | nil =>
              cases hs
              cases ht
              omega
            | cons e p =>
              cases hs
              cases ht
              exact ⟨p, c', d', s', t', rfl, rfl, hd, hc⟩
          · rintro ⟨p, c', d', s', t', rfl, rfl, hd, hc⟩
            exact ⟨c :: p, c', d', s', t', rfl, rfl, hd, hc⟩
        rw [hskip, ih]
        simp [lexSign]
      · have hne : c.toNat ≠ d.toNat := fun h => hcd (UInt8.toNat_inj.mp h)
        have hhead : SplitBySign (c :: s) (d :: t) ↔ d.toNat < 128 ∧ 128 ≤ c.toNat := by
          constructor
          · rintro ⟨p, c', d', s', t', hs, ht, hd, hc⟩
            cases p with
            | nil =>
              cases hs
              cases ht
              exact ⟨hd, hc⟩
            | cons e p =>
              cases hs
              cases ht
              exact absurd rfl hcd
          · rintro ⟨hd, hc⟩
            exact ⟨[], c, d, s, t, rfl, rfl, hd, hc⟩
        have hc := c.toNat_lt
        have hd := d.toNat_lt
        rw [hhead, lexSign, lexSign, charValue_eq, charValue_eq, byteValue, byteValue]
        split_ifs <;> omega

/-! ## What BufferCompare returns -/

theorem compareLoop_eq (s t : Bytes) {n : ℕ} {behind : ℤ} (hn : n = min s.length t.length)
    (hbehind : behind = if s.length < t.length then -1 else if s.length = t.length then 0 else 1) :
    compareLoop behind (s.take n) (t.take n) = lexSign charValue s t := by
  induction s generalizing t n with
  | nil =>
    obtain rfl : n = 0 := by simp [hn]
    cases t with
    | nil => exact hbehind
    | cons d t => simpa [compareLoop, lexSign] using hbehind
  | cons c s ih =>
    cases t with
    | nil =>
      obtain rfl : n = 0 := by simp [hn]
      simpa [compareLoop, lexSign] using hbehind
    | cons d t =>
      obtain ⟨n, rfl⟩ : ∃ k, n = k + 1 := ⟨min s.length t.length, by simp [hn]⟩
      have hrest := ih t (n := n) (by simp at hn; omega) (by simpa using hbehind)
      rw [List.take_succ_cons, List.take_succ_cons, compareLoop, lexSign, hrest]

theorem compareBytes_eq {a b : Buffer} (ha : a.InBounds) (hb : b.InBounds) :
    compareBytes a b = lexSign charValue a.text b.text := by
  have hused := ha.holds.used
  have hused' := hb.holds.used
  unfold compareBytes
  split_ifs with hlt heq
  · rw [← compareLoop_eq a.text b.text rfl rfl, ← hused, ← hused', if_pos hlt, Nat.min_eq_left hlt.le]
    simp [Buffer.text, List.take_take, Nat.min_eq_left hlt.le]
  · rw [← compareLoop_eq a.text b.text rfl rfl, ← hused, ← hused', if_neg hlt, if_pos heq, heq, Nat.min_self]
    simp [Buffer.text, heq, List.take_take]
  · have hle : b.used ≤ a.used := Nat.le_of_not_lt hlt
    rw [← compareLoop_eq a.text b.text rfl rfl, ← hused, ← hused', if_neg hlt, if_neg heq, Nat.min_eq_right hle]
    simp [Buffer.text, List.take_take, Nat.min_eq_left hle]

theorem strcmp_spec (s t u v : Bytes) (hs : 0 ∉ s) (ht : 0 ∉ t) :
    ∃ r, strcmp (s ++ 0 :: u) (t ++ 0 :: v) = some r ∧ r.sign = lexSign byteValue s t := by
  induction s generalizing t with
  | nil =>
    cases t with
    | nil => exact ⟨0, rfl, rfl⟩
    | cons d t =>
      have hd : d ≠ 0 := fun h => ht (h ▸ List.mem_cons_self)
      refine ⟨byteValue 0 - byteValue d, if_neg (Ne.symm hd), Int.sign_eq_neg_one_of_neg ?_⟩
      have hpos := UInt8.toNat_inj.not.mpr hd
      have hzero : (0 : UInt8).toNat = 0 := rfl
      unfold byteValue
      omega
  | cons c s ih =>
    have hc : c ≠ 0 := fun h => hs (h ▸ List.mem_cons_self)
    cases t with
    | nil =>
      refine ⟨byteValue c - byteValue 0, if_neg hc, Int.sign_eq_one_of_pos ?_⟩
      have hpos := UInt8.toNat_inj.not.mpr hc
      have hzero : (0 : UInt8).toNat = 0 := rfl
      unfold byteValue
      omega
    | cons d t =>
      rw [List.cons_append, List.cons_append, strcmp, lexSign]
      by_cases hcd : c = d
      · obtain ⟨r, hr, hsign⟩ := ih t (fun h => hs (List.mem_cons_of_mem _ h)) fun h => ht (List.mem_cons_of_mem _ h)
        refine ⟨r, ?_, ?_⟩
        · rw [if_pos hcd, if_neg hc]
          exact hr
        · simpa [hcd] using hsign
      · have hne : byteValue c ≠ byteValue d := fun h => hcd (byteValue_injective h)
        refine ⟨byteValue c - byteValue d, if_neg hcd, ?_⟩
        split_ifs with h₁ h₂
        · exact Int.sign_eq_neg_one_of_neg (by omega)
        · exact Int.sign_eq_one_of_pos (by omega)
        · omega

/-- A buffer inside its array, whose text in C string mode ends where its size says. -/
structure ValidBuffer extends Buffer where
  inBounds : toBuffer.InBounds
  terminated : toBuffer.Terminated

/-- The sign by the order that the modes select. -/
def verdict (a b : Buffer) : ℤ :=
  if a.mode = .cstring ∧ b.mode = .cstring then lexSign byteValue a.text b.text else lexSign charValue a.text b.text

theorem bufferCompare_eq (a b : ValidBuffer) :
    bufferCompare a.toBuffer b.toBuffer = some (verdict a.toBuffer b.toBuffer) := by
  have hbytes := compareBytes_eq a.inBounds b.inBounds
  unfold bufferCompare verdict
  cases ha : a.mode with
  | bytearray =>
    rw [if_neg (fun h : _ ∧ _ => nomatch h.1)]
    split_ifs <;> rw [hbytes]
  | cstring =>
    cases hb : b.mode with
    | bytearray => rw [if_neg (by decide), if_neg (by decide), hbytes]
    | cstring =>
      obtain ⟨hends, hfree⟩ := a.terminated ha
      obtain ⟨hends', hfree'⟩ := b.terminated hb
      obtain ⟨u, hu⟩ := List.head?_eq_some_iff.mp (a.inBounds.holds.ends_iff.mp hends)
      obtain ⟨v, hv⟩ := List.head?_eq_some_iff.mp (b.inBounds.holds.ends_iff.mp hends')
      obtain ⟨r, hr, hsign⟩ := strcmp_spec a.text b.text u v hfree hfree'
      rw [← hu, ← hv, ← a.inBounds.holds.buffer, ← b.inBounds.holds.buffer] at hr
      rw [if_pos rfl, if_pos ⟨rfl, rfl⟩, hr, ← hsign, Int.sign_eq_tdiv_abs]
      by_cases hzero : r = 0
      · subst hzero
        rfl
      · exact if_pos hzero

/-! ## One total preorder -/

def ValidBuffer.compare (a b : ValidBuffer) : Option ℤ := bufferCompare a.toBuffer b.toBuffer

/-- On these buffers the comparison is one total preorder, which sees the bytes only. -/
structure TotalPreorderOn (S : Set ValidBuffer) : Prop where
  flip : ∀ a ∈ S, ∀ b ∈ S, ∃ r, a.compare b = some r ∧ b.compare a = some (-r)
  trans : ∀ a ∈ S, ∀ b ∈ S, ∀ c ∈ S, (∃ r ≤ 0, a.compare b = some r) → (∃ r ≤ 0, b.compare c = some r) →
    ∃ r ≤ 0, a.compare c = some r
  same : ∀ a ∈ S, ∀ b ∈ S, a.text = b.text → a.compare b = some 0 ∧
    ∀ c ∈ S, a.compare c = b.compare c ∧ c.compare a = c.compare b

/-- A byte array between two strings that differ first in bytes on different sides of 128, as `char`s go. -/
structure Straddles (x y z : ValidBuffer) : Prop where
  low : x.mode = .cstring
  high : y.mode = .cstring
  between : z.mode = .bytearray
  split : SplitBySign x.text y.text
  above : x.text.map charValue ≤ z.text.map charValue
  below : z.text.map charValue ≤ y.text.map charValue

theorem verdict_flip (a b : Buffer) : verdict b a = -verdict a b := by
  unfold verdict
  simp only [and_comm (a := b.mode = .cstring)]
  split_ifs
  · exact lexSign_flip ..
  · exact lexSign_flip ..

theorem compare_le_iff (a b : ValidBuffer) : (∃ r ≤ 0, a.compare b = some r) ↔ verdict a.toBuffer b.toBuffer ≤ 0 := by
  unfold ValidBuffer.compare
  rw [bufferCompare_eq]
  constructor
  · rintro ⟨r, hr, heq⟩
    exact Option.some.inj heq ▸ hr
  · exact fun h => ⟨_, h, rfl⟩

theorem verdict_strings {a b : Buffer} (ha : a.mode = .cstring) (hb : b.mode = .cstring) :
    verdict a b = lexSign byteValue a.text b.text := if_pos ⟨ha, hb⟩

theorem verdict_left {a b : Buffer} (ha : a.mode = .bytearray) : verdict a b = lexSign charValue a.text b.text := by
  unfold verdict
  simp [ha]

theorem verdict_right {a b : Buffer} (hb : b.mode = .bytearray) : verdict a b = lexSign charValue a.text b.text := by
  unfold verdict
  simp [hb]

theorem Straddles.circle {x y z : ValidBuffer} (h : Straddles x y z) :
    verdict x.toBuffer z.toBuffer ≤ 0 ∧ verdict z.toBuffer y.toBuffer ≤ 0 ∧ 0 < verdict x.toBuffer y.toBuffer := by
  rw [verdict_right h.between, verdict_left h.between, verdict_strings h.low h.high, lexSign_le_iff, lexSign_le_iff]
  exact ⟨h.above, h.below, ((splitBySign_iff _ _).mp h.split).2⟩

section Preorder

variable {S : Set ValidBuffer} (hS : ∀ x ∈ S, ∀ y ∈ S, ∀ z ∈ S, ¬ Straddles x y z)
include hS

/-- Between a string and a byte array that comes before another string, the two orders agree. -/
theorem not_straddled {x y z : ValidBuffer} (hx : x ∈ S) (hy : y ∈ S) (hz : z ∈ S) (hxm : x.mode = .cstring)
    (hym : y.mode = .cstring) (hzm : z.mode = .bytearray) (hxz : lexSign charValue x.text z.text ≤ 0)
    (hzy : lexSign charValue z.text y.text ≤ 0) : lexSign byteValue x.text y.text ≤ 0 := by
  by_contra hxy
  have hchars := lexSign_trans hxz hzy
  have hne : lexSign charValue x.text y.text ≠ 0 := by
    intro hzero
    rw [eq_of_lexSign charValue_injective hzero, lexSign_self] at hxy
    exact hxy le_rfl
  apply hS x hx y hy z hz
  exact ⟨hxm, hym, hzm, (splitBySign_iff _ _).mpr ⟨by omega, by omega⟩, (lexSign_le_iff _ _).mp hxz,
    (lexSign_le_iff _ _).mp hzy⟩

theorem verdict_trans {a b c : ValidBuffer} (ha : a ∈ S) (hb : b ∈ S) (hc : c ∈ S)
    (hab : verdict a.toBuffer b.toBuffer ≤ 0) (hbc : verdict b.toBuffer c.toBuffer ≤ 0) :
    verdict a.toBuffer c.toBuffer ≤ 0 := by
  cases hma : a.mode <;> cases hmb : b.mode <;> cases hmc : c.mode
  · rw [verdict_strings hma hmb] at hab
    rw [verdict_strings hmb hmc] at hbc
    rw [verdict_strings hma hmc]
    exact lexSign_trans hab hbc
  · rw [verdict_strings hma hmb] at hab
    rw [verdict_right hmc] at hbc ⊢
    by_contra hac
    -- `c` stands before `a` and behind `b`
    have hca : lexSign charValue c.text a.text ≤ 0 := by rw [lexSign_flip charValue a.text]; omega
    have hba := not_straddled hS hb ha hc hmb hma hmc hbc hca
    have hsame : lexSign byteValue a.text b.text = 0 := by
      rw [lexSign_flip byteValue a.text] at hba
      omega
    rw [eq_of_lexSign byteValue_injective hsame] at hac
    exact hac hbc
  · rw [verdict_right hmb] at hab
    rw [verdict_left hmb] at hbc
    rw [verdict_strings hma hmc]
    exact not_straddled hS ha hc hb hma hmc hmb hab hbc
  · rw [verdict_right hmb] at hab
    rw [verdict_left hmb] at hbc
    rw [verdict_right hmc]
    exact lexSign_trans hab hbc
  · rw [verdict_left hma] at hab ⊢
    rw [verdict_strings hmb hmc] at hbc
    by_contra hac
    have hca : lexSign charValue c.text a.text ≤ 0 := by rw [lexSign_flip charValue a.text]; omega
    have hcb := not_straddled hS hc hb ha hmc hmb hma hca hab
    have hsame : lexSign byteValue b.text c.text = 0 := by
      rw [lexSign_flip byteValue b.text] at hcb
      omega
    rw [eq_of_lexSign byteValue_injective hsame] at hab
    exact hac hab
  · rw [verdict_left hma] at hab ⊢
    rw [verdict_right hmc] at hbc
    exact lexSign_trans hab hbc
  · rw [verdict_left hma] at hab ⊢
    rw [verdict_left hmb] at hbc
    exact lexSign_trans hab hbc
  · rw [verdict_left hma] at hab ⊢
    rw [verdict_left hmb] at hbc
    exact lexSign_trans hab hbc

theorem verdict_modes {a b c : ValidBuffer} (ha : a ∈ S) (hb : b ∈ S) (hc : c ∈ S) (hma : a.mode = .cstring)
    (hmb : b.mode = .bytearray) (hab : a.text = b.text) :
    verdict a.toBuffer c.toBuffer = verdict b.toBuffer c.toBuffer := by
  rw [verdict_left hmb, ← hab]
  cases hmc : c.mode with
  | bytearray => exact verdict_right hmc
  | cstring =>
    rw [verdict_strings hma hmc]
    have hself : lexSign charValue a.text b.text ≤ 0 := by rw [hab, lexSign_self]
    have hself' : lexSign charValue b.text a.text ≤ 0 := by rw [hab, lexSign_self]
    have hbefore : lexSign charValue a.text c.text ≤ 0 → lexSign byteValue a.text c.text ≤ 0 := fun h =>
      not_straddled hS ha hc hb hma hmc hmb hself (hab ▸ h)
    have hbehind : lexSign charValue c.text a.text ≤ 0 → lexSign byteValue c.text a.text ≤ 0 := fun h =>
      not_straddled hS hc ha hb hmc hma hmb (hab ▸ h) hself'
    rw [lexSign_flip charValue a.text, lexSign_flip byteValue a.text] at hbehind
    have hzero : lexSign charValue a.text c.text = 0 ↔ lexSign byteValue a.text c.text = 0 := by
      constructor
      · intro h
        rw [eq_of_lexSign charValue_injective h, lexSign_self]
      · intro h
        rw [eq_of_lexSign byteValue_injective h, lexSign_self]
    rw [← sign_lexSign (f := byteValue), ← sign_lexSign (f := charValue)]
    obtain hlt | heq | hgt := lt_trichotomy (lexSign charValue a.text c.text) 0
    · rw [Int.sign_eq_neg_one_of_neg hlt, Int.sign_eq_neg_one_of_neg (by omega)]
    · rw [heq, hzero.mp heq]
    · rw [Int.sign_eq_one_of_pos hgt, Int.sign_eq_one_of_pos (by omega)]

theorem verdict_same {a b c : ValidBuffer} (ha : a ∈ S) (hb : b ∈ S) (hc : c ∈ S) (hab : a.text = b.text) :
    verdict a.toBuffer c.toBuffer = verdict b.toBuffer c.toBuffer := by
  cases hma : a.mode <;> cases hmb : b.mode
  · unfold verdict
    rw [hma, hmb, hab]
  · exact verdict_modes hS ha hb hc hma hmb hab
  · exact (verdict_modes hS hb ha hc hmb hma hab.symm).symm
  · rw [verdict_left hma, verdict_left hmb, hab]

end Preorder

/-- On buffers of both modes the comparison is one total preorder exactly where no byte array stands between two strings
that `strcmp` orders the other way round than the loops do. -/
theorem bufferCompare_preorder_iff (S : Set ValidBuffer) :
    TotalPreorderOn S ↔ ∀ x ∈ S, ∀ y ∈ S, ∀ z ∈ S, ¬ Straddles x y z := by
  constructor
  · intro h x hx y hy z hz hstraddles
    obtain ⟨hxz, hzy, hxy⟩ := hstraddles.circle
    have hle := h.trans x hx z hz y hy ((compare_le_iff x z).mpr hxz) ((compare_le_iff z y).mpr hzy)
    exact absurd ((compare_le_iff x y).mp hle) (by omega)
  · intro hS
    refine ⟨fun a _ b _ => ?_, fun a ha b hb c hc hab hbc => ?_, fun a ha b hb hab => ⟨?_, fun c hc => ⟨?_, ?_⟩⟩⟩
    · exact ⟨_, bufferCompare_eq a b, by rw [← verdict_flip]; exact bufferCompare_eq b a⟩
    · rw [compare_le_iff] at *
      exact verdict_trans hS ha hb hc hab hbc
    · rw [ValidBuffer.compare, bufferCompare_eq]
      unfold verdict
      simp [hab, lexSign_self]
    · rw [ValidBuffer.compare, ValidBuffer.compare, bufferCompare_eq, bufferCompare_eq, verdict_same hS ha hb hc hab]
    · rw [ValidBuffer.compare, ValidBuffer.compare, bufferCompare_eq, bufferCompare_eq, verdict_flip a.toBuffer,
        verdict_flip b.toBuffer, verdict_same hS ha hb hc hab]

/-- The string of the byte 128 comes before the byte array `a`, that is equal to the string `a`, and this one comes before
the string of the byte 128. -/
theorem bufferCompare_circle : ¬ TotalPreorderOn Set.univ := by
  let high : ValidBuffer := ⟨⟨[128, 0], .cstring, 2, 1⟩, ⟨rfl, by decide⟩, fun _ => ⟨rfl, by decide⟩⟩
  let array : ValidBuffer := ⟨⟨[97, 0], .bytearray, 2, 1⟩, ⟨rfl, by decide⟩, nofun⟩
  let letter : ValidBuffer := ⟨⟨[97, 0], .cstring, 2, 1⟩, ⟨rfl, by decide⟩, fun _ => ⟨rfl, by decide⟩⟩
  intro h
  obtain ⟨r, hr, heq⟩ := h.trans high trivial array trivial letter trivial ⟨-1, by decide, by decide⟩ ⟨0, le_rfl, by decide⟩
  have hone : high.compare letter = some 1 := by decide
  rw [hone] at heq
  exact absurd (Option.some.inj heq ▸ hr) (by decide)

end Libntech.Containers
