import Libntech.Network.InetNtop
import Mathlib.Data.Nat.Digits.Lemmas
import Mathlib.Tactic.IntervalCases

/-! # How inet_pton reads what is printed

A printed number is read digit by digit; the groups are stored behind each other, and the shift at the end puts the zeroes
of a `::` back.
-/
namespace Libntech.Network
set_option autoImplicit false

open Libntech.Json (Bytes ascii hexChar)
open Libntech.Lib (Fault load store)

/-! ## Digits -/

theorem printed_digits {α : Type} {b : ℕ} (hb : 1 < b) (f : ℕ → α) (n : ℕ) :
    ∃ ds, (if n = 0 then [f 0] else ((Nat.digits b n).map f).reverse) = ds.map f ∧ ds ≠ [] ∧ (∀ d ∈ ds, d < b) ∧
      ds.foldl (fun v d => v * b + d) 0 = n ∧ ∀ k, 0 < k → n < b ^ k → ds.length ≤ k := by
  by_cases hn : n = 0
  · refine ⟨[0], ?_, List.cons_ne_nil _ _, fun d hd => ?_, ?_, fun k hk _ => hk⟩
    · rw [if_pos hn]
      rfl
    · rw [List.mem_singleton.mp hd]
      exact Nat.lt_trans Nat.one_pos hb
    · simp [hn]
  · refine ⟨(Nat.digits b n).reverse, ?_, ?_, fun d hd => Nat.digits_lt_base hb (List.mem_reverse.mp hd), ?_,
      fun k _ hk => ?_⟩
    · rw [if_neg hn, List.map_reverse]
    · rw [Ne, List.reverse_eq_nil_iff]
      exact Nat.digits_ne_nil_iff_ne_zero.mpr hn
    · rw [List.foldl_reverse]
      conv_rhs => rw [← Nat.ofDigits_digits b n]
      induction Nat.digits b n with
      | nil => rfl
      | cons d ds ih => rw [List.foldr_cons, ih, Nat.ofDigits_cons, Nat.mul_comm, Nat.add_comm]
    · rw [List.length_reverse]
      exact (Nat.digits_length_le_iff hb n).mpr hk

theorem le_foldl_digits (b : ℕ) (hb : 0 < b) (ds : List ℕ) (v : ℕ) : v ≤ ds.foldl (fun v d => v * b + d) v := by
  induction ds generalizing v with
  | nil => exact Nat.le_refl v
  | cons d ds ih =>
    have hstep : v ≤ v * b := Nat.le_mul_of_pos_right v hb
    exact Nat.le_trans (by omega) (ih (v * b + d))

variable {ds : List ℕ} {d : ℕ} {done : List UInt8}

theorem foldl_digits_lt {b : ℕ} (h : ∀ d ∈ ds, d < b) (v : ℕ) :
    ds.foldl (fun v d => v * b + d) v < (v + 1) * b ^ ds.length := by
  induction ds generalizing v with
  | nil => simp
  | cons d ds ih =>
    have hd := h d List.mem_cons_self
    have hstep : v * b + d + 1 ≤ (v + 1) * b := by
      rw [Nat.succ_mul]
      omega
    rw [List.foldl_cons, List.length_cons, Nat.pow_succ]
    refine Nat.lt_of_lt_of_le (ih (fun x hx => h x (List.mem_cons_of_mem _ hx)) (v * b + d)) ?_
    calc (v * b + d + 1) * b ^ ds.length ≤ (v + 1) * b * b ^ ds.length := Nat.mul_le_mul_right _ hstep
      _ = (v + 1) * (b ^ ds.length * b) := by rw [Nat.mul_assoc, Nat.mul_comm b]

def decimalChar (d : ℕ) : UInt8 := UInt8.ofNat (48 + d)

theorem strchr_decimal (h : d < 10) : strchr decimalDigits (decimalChar d) = some d := by
  interval_cases d <;> decide

theorem xdigit_decimal (h : d < 10) : xdigit (decimalChar d) = some d := by
  interval_cases d <;> decide

theorem xdigit_hexChar (h : d < 16) : xdigit (hexChar d) = some d := by
  interval_cases d <;> decide

theorem decimal_digits (n : ℕ) :
    ∃ ds, Json.decimal n = ds.map decimalChar ∧ ds ≠ [] ∧ (∀ d ∈ ds, d < 10) ∧
      ds.foldl (fun v d => v * 10 + d) 0 = n ∧ ∀ k, 0 < k → n < 10 ^ k → ds.length ≤ k :=
  printed_digits (by decide) decimalChar n

theorem hexText_digits (n : ℕ) :
    ∃ ds, hexText n = ds.map hexChar ∧ ds ≠ [] ∧ (∀ d ∈ ds, d < 16) ∧
      ds.foldl (fun v d => v * 16 + d) 0 = n ∧ ∀ k, 0 < k → n < 16 ^ k → ds.length ≤ k :=
  printed_digits (by decide) hexChar n

/-! ## Reading an address of version 4 -/

theorem read_decimal (hds : ∀ d ∈ ds, d < 10) {v : ℕ} (hv : ds.foldl (fun v d => v * 10 + d) v ≤ 255) (rest : Bytes)
    (front back : List UInt8) (octets : ℕ) :
    inetPton4Loop (ds.map decimalChar ++ rest) (front ++ UInt8.ofNat v :: back) front.length true octets
      = inetPton4Loop rest (front ++ UInt8.ofNat (ds.foldl (fun v d => v * 10 + d) v) :: back) front.length true octets := by
  induction ds generalizing v with
  | nil => rfl
  | cons d ds ih =>
    have hle : v * 10 + d ≤ 255 := Nat.le_trans (le_foldl_digits 10 (by decide) ds (v * 10 + d)) hv
    have hnat : (UInt8.ofNat v).toNat = v := by
      rw [UInt8.toNat_ofNat']
      omega
    rw [List.map_cons, List.cons_append, inetPton4Loop, strchr_decimal (hds d List.mem_cons_self)]
    simp only
    rw [Lib.load_at front (UInt8.ofNat v) back rfl rfl, Lib.ok_bind, hnat, if_neg (by omega),
      Lib.store_at front (UInt8.ofNat v) back _ rfl rfl, Lib.ok_bind, if_neg (by decide)]
    exact ih (fun x hx => hds x (List.mem_cons_of_mem _ hx)) hv

theorem read_octet (octet : UInt8) (rest : Bytes) (front back : List UInt8) {octets : ℕ} (hoctets : octets < 4) :
    inetPton4Loop (Json.decimal octet.toNat ++ rest) (front ++ 0 :: back) front.length false octets
      = inetPton4Loop rest (front ++ octet :: back) front.length true (octets + 1) := by
  obtain ⟨ds, htext, hne, hds, hvalue, -⟩ := decimal_digits octet.toNat
  obtain ⟨d, ds, rfl⟩ := List.exists_cons_of_ne_nil hne
  have hd : d < 10 := hds d List.mem_cons_self
  have hrest : ds.foldl (fun v d => v * 10 + d) d = octet.toNat := by
    rw [← hvalue, List.foldl_cons, Nat.zero_mul, Nat.zero_add]
  rw [htext, List.map_cons, List.cons_append, inetPton4Loop, strchr_decimal hd]
  simp only
  rw [Lib.load_at front 0 back rfl rfl, Lib.ok_bind, UInt8.toNat_zero, Nat.zero_mul, Nat.zero_add, if_neg (by omega),
    Lib.store_at front 0 back _ rfl rfl, Lib.ok_bind, if_pos (by decide), if_neg (by omega),
    read_decimal (fun x hx => hds x (List.mem_cons_of_mem _ hx)) (by rw [hrest]; exact Nat.le_of_lt_succ octet.toNat_lt),
    hrest, UInt8.ofNat_toNat]

theorem read_dot (rest : Bytes) (front : List UInt8) (octet : UInt8) (c : UInt8) (back : List UInt8) {octets : ℕ}
    (hoctets : octets < 4) :
    inetPton4Loop ('.'.toUInt8 :: rest) (front ++ octet :: c :: back) front.length true octets
      = inetPton4Loop rest ((front ++ [octet]) ++ 0 :: back) (front ++ [octet]).length false octets := by
  have hdot : strchr decimalDigits '.'.toUInt8 = none := by decide
  have hmem : front ++ octet :: c :: back = (front ++ [octet]) ++ c :: back := by simp
  have hplace : front.length + 1 = (front ++ [octet]).length := by simp
  rw [inetPton4Loop, hdot]
  simp only
  rw [if_pos (And.intro trivial trivial), if_neg (by omega), hmem, hplace,
    Lib.store_at (front ++ [octet]) c back 0 rfl rfl, Lib.ok_bind]

/-- The text with dots. -/
def dotted (src : List UInt8) : Bytes := ['.'.toUInt8].intercalate (src.map fun octet => Json.decimal octet.toNat)

theorem dotted_four (a b c d : UInt8) :
    dotted [a, b, c, d] = Json.decimal a.toNat ++ '.'.toUInt8 :: (Json.decimal b.toNat ++ '.'.toUInt8 ::
      (Json.decimal c.toNat ++ '.'.toUInt8 :: (Json.decimal d.toNat ++ []))) := by
  simp [dotted, List.intercalate]

theorem inetPton4_dotted (a b c d : UInt8) : inetPton4 (dotted [a, b, c, d]) = .ok (some [a, b, c, d]) := by
  rw [dotted_four, inetPton4]
  refine (read_octet a _ [] [0, 0, 0] (by decide)).trans ?_
  refine (read_dot _ [] a 0 [0, 0] (by decide)).trans ?_
  refine (read_octet b _ [a] [0, 0] (by decide)).trans ?_
  refine (read_dot _ [a] b 0 [0] (by decide)).trans ?_
  refine (read_octet c _ [a, b] [0] (by decide)).trans ?_
  refine (read_dot _ [a, b] c 0 [] (by decide)).trans ?_
  exact read_octet d [] [a, b, c] [] (by decide)

/-! ## Reading an address of version 6 -/

/-- The memory behind so many stored bytes. -/
def storedCells (done : List UInt8) : List UInt8 := done ++ List.replicate (16 - done.length) 0

/-- The two bytes of a group. -/
def groupBytes (w : ℕ) : List UInt8 := [UInt8.ofNat (w >>> 8), UInt8.ofNat w]

theorem storeOctets_cells (octets done : List UInt8) (h : done.length + octets.length ≤ 16) :
    storeOctets (storedCells done) done.length octets = .ok (storedCells (done ++ octets)) := by
  induction octets generalizing done with
  | nil => rw [storeOctets, List.append_nil]
  | cons octet octets ih =>
    rw [List.length_cons] at h
    have hcells : storedCells done = done ++ 0 :: List.replicate (16 - (done ++ [octet]).length) 0 := by
      rw [storedCells, ← List.replicate_succ, List.length_append, List.length_singleton]
      congr 2
      omega
    have hnext := ih (done ++ [octet]) (by rw [List.length_append, List.length_singleton]; omega)
    rw [List.length_append, List.length_singleton] at hnext
    rw [storeOctets, Lib.store_at done 0 _ octet hcells rfl, Lib.ok_bind]
    rw [storedCells, List.append_assoc, List.singleton_append, List.append_assoc, List.singleton_append] at hnext
    exact hnext

theorem storeVal_cells (w : ℕ) (done : List UInt8) (h : done.length + 2 ≤ 16) :
    storeVal (storedCells done) done.length w = .ok (storedCells (done ++ groupBytes w)) := by
  have hboth := storeOctets_cells (groupBytes w) done h
  simp only [groupBytes, storeOctets] at hboth
  rw [storeVal, groupBytes, ← hboth]
  cases store (storedCells done) done.length (UInt8.ofNat (w >>> 8)) with
  | error e => rfl
  | ok tmp =>
    rw [Lib.ok_bind, Lib.ok_bind]
    cases store tmp (done.length + 1) (UInt8.ofNat w) with
    | error e => rfl
    | ok tmp => rfl

/-- The shift moves what stands behind the `::` to the end, its last byte first. -/
theorem shiftLoop_cells (front : List UInt8) {g n : ℕ} (hg : 0 < g) (rest shifted : List UInt8)
    (hn : n = rest.length + shifted.length) (hlength : front.length + n + g = 16) :
    shiftLoop front.length n rest.length (shifted.length + 1) (front ++ rest ++ List.replicate g 0 ++ shifted)
      = .ok (front ++ List.replicate g 0 ++ (rest ++ shifted)) := by
  induction rest using List.reverseRecOn generalizing shifted with
  | nil => simp [shiftLoop]
  | append_singleton rest c ih =>
    obtain ⟨g, rfl⟩ := Nat.exists_eq_succ_of_ne_zero (Nat.pos_iff_ne_zero.mp hg)
    rw [List.length_append, List.length_singleton] at hn
    have hload : front ++ (rest ++ [c]) ++ List.replicate (g + 1) 0 ++ shifted
        = (front ++ rest) ++ c :: (List.replicate (g + 1) 0 ++ shifted) := by simp
    have hend : front ++ (rest ++ [c]) ++ List.replicate (g + 1) 0 ++ shifted
        = (front ++ rest ++ c :: List.replicate g 0) ++ 0 :: shifted := by
      rw [List.replicate_succ']
      simp
    have hclear : (front ++ rest ++ c :: List.replicate g 0) ++ c :: shifted
        = (front ++ rest) ++ c :: (List.replicate g 0 ++ c :: shifted) := by simp
    have hnext : (front ++ rest) ++ 0 :: (List.replicate g 0 ++ c :: shifted)
        = front ++ rest ++ List.replicate (g + 1) 0 ++ (c :: shifted) := by
      rw [List.replicate_succ]
      simp
    have hfrom : front.length + (n - (shifted.length + 1)) = (front ++ rest).length := by
      rw [List.length_append]
      omega
    have hto : nsIn6AddrSz - (shifted.length + 1) = (front ++ rest ++ c :: List.replicate g 0).length := by
      rw [nsIn6AddrSz, List.length_append, List.length_append, List.length_cons, List.length_replicate]
      omega
    rw [List.length_append, List.length_singleton, shiftLoop, Lib.load_at _ c _ hload hfrom, Lib.ok_bind,
      Lib.store_at _ 0 shifted c hend hto, Lib.ok_bind, Lib.store_at _ c _ 0 hclear hfrom, Lib.ok_bind, hnext]
    have hstep := ih (c :: shifted) (by rw [List.length_cons]; omega)
    rw [List.length_cons] at hstep
    rw [hstep, List.append_assoc rest, List.singleton_append]

theorem shiftToEnd_cells (front behind : List UInt8) (h : front.length + behind.length < 16) :
    shiftToEnd (storedCells (front ++ behind)) (front ++ behind).length (some front.length)
      = .ok (some (front ++ List.replicate (16 - (front ++ behind).length) 0 ++ behind)) := by
  have hshift := shiftLoop_cells front (g := 16 - (front ++ behind).length) (n := behind.length)
    (by rw [List.length_append]; omega) behind [] (by rw [List.length_nil, Nat.add_zero])
    (by rw [List.length_append]; omega)
  have hn : (front ++ behind).length - front.length = behind.length := by
    rw [List.length_append, Nat.add_sub_cancel_left]
  rw [List.length_nil, List.append_nil, List.append_nil] at hshift
  simp only [shiftToEnd, hn, storedCells]
  rw [hshift]
  rfl

/-- Reading on at the start of a token. -/
def readToken (src : Bytes) (done : List UInt8) (colonp : Option ℕ) : Except Fault (Option (List UInt8)) :=
  inetPton6Loop src (storedCells done) done.length colonp src false 0

/-- Digits of a base that is not over 16 are read as hexadecimal ones. -/
theorem read_xdigits {f : ℕ → UInt8} (hf : ∀ d ∈ ds, xdigit (f d) = some d) (hds : ∀ d ∈ ds, d < 16) {v : ℕ}
    (hv : ds.foldl (fun v d => v * 16 + d) v < 65536) (hne : ds ≠ []) (rest : Bytes) (tmp : List UInt8) (tp : ℕ)
    (colonp : Option ℕ) (curtok : Bytes) (saw_xdigit : Bool) :
    inetPton6Loop (ds.map f ++ rest) tmp tp colonp curtok saw_xdigit v
      = inetPton6Loop rest tmp tp colonp curtok true (ds.foldl (fun v d => v * 16 + d) v) := by
  induction ds generalizing v saw_xdigit with
  | nil => exact absurd rfl hne
  | cons d ds ih =>
    have hd := hds d List.mem_cons_self
    have hval : v <<< 4 ||| d = v * 16 + d := by
      rw [← Nat.shiftLeft_add_eq_or_of_lt hd, Nat.shiftLeft_eq]
    have hle : v * 16 + d < 65536 := Nat.lt_of_le_of_lt (le_foldl_digits 16 (by decide) ds (v * 16 + d)) hv
    rw [List.map_cons, List.cons_append]
    conv_lhs => unfold inetPton6Loop
    rw [hf d List.mem_cons_self]
    simp only
    rw [hval, if_neg (by omega), List.foldl_cons]
    cases ds with
    | nil => rfl
    | cons e ds =>
      exact ih (fun x hx => hf x (List.mem_cons_of_mem _ hx)) (fun x hx => hds x (List.mem_cons_of_mem _ hx)) hv
        (List.cons_ne_nil e ds) true

theorem read_hexText {w : ℕ} (hw : w < 65536) (rest : Bytes) (tmp : List UInt8) (tp : ℕ) (colonp : Option ℕ)
    (curtok : Bytes) :
    inetPton6Loop (hexText w ++ rest) tmp tp colonp curtok false 0 = inetPton6Loop rest tmp tp colonp curtok true w := by
  obtain ⟨ds, htext, hne, hds, hvalue, -⟩ := hexText_digits w
  rw [htext, read_xdigits (fun d hd => xdigit_hexChar (hds d hd)) hds (by rw [hvalue]; exact hw) hne, hvalue]

theorem xdigit_colon : xdigit ':'.toUInt8 = none := by decide

theorem readToken_group {w : ℕ} (hw : w < 65536) (rest : Bytes) (h : done.length + 2 ≤ 16) (colonp : Option ℕ) :
    readToken (hexText w ++ ':'.toUInt8 :: rest) done colonp = readToken rest (done ++ groupBytes w) colonp := by
  rw [readToken, read_hexText hw]
  conv_lhs => unfold inetPton6Loop
  rw [xdigit_colon]
  simp only [if_true, Bool.not_true, Bool.false_eq_true, if_false]
  rw [if_neg (by rw [nsIn6AddrSz, nsInt16Sz]; omega), storeVal_cells w done h, Lib.ok_bind, readToken, List.length_append]
  rfl

/-- The second colon of a `::`. -/
theorem readToken_colon (rest : Bytes) (done : List UInt8) :
    readToken (':'.toUInt8 :: rest) done none = readToken rest done (some done.length) := by
  rw [readToken]
  conv_lhs => unfold inetPton6Loop
  rw [xdigit_colon]
  simp only [if_true, Bool.not_false]
  rfl

/-- The groups with a colon between two. -/
def groupsText (ws : List ℕ) : Bytes := [':'.toUInt8].intercalate (ws.map hexText)

theorem groupsText_cons (w w' : ℕ) (ws : List ℕ) :
    groupsText (w :: w' :: ws) = hexText w ++ ':'.toUInt8 :: groupsText (w' :: ws) := by
  simp [groupsText, List.intercalate]

theorem groupsText_eq (w : ℕ) (ws : List ℕ) :
    groupsText (w :: ws) = hexText w ++ ws.flatMap fun w => ':'.toUInt8 :: hexText w := by
  induction ws generalizing w with
  | nil => simp [groupsText, List.intercalate]
  | cons w' ws ih => rw [groupsText_cons, ih, List.flatMap_cons, List.cons_append]

theorem readToken_groupsText {ws : List ℕ} (hws : ∀ w ∈ ws, w < 65536) (done : List UInt8)
    (h : done.length + 2 * ws.length ≤ 16) (colonp : Option ℕ) :
    readToken (groupsText ws) done colonp
      = shiftToEnd (storedCells (done ++ ws.flatMap groupBytes)) (done ++ ws.flatMap groupBytes).length colonp := by
  induction ws generalizing done with
  | nil => simp [groupsText, List.intercalate, readToken, inetPton6Loop, inetPton6End]
  | cons w ws ih =>
    rw [List.length_cons] at h
    have hw := hws w List.mem_cons_self
    cases ws with
    | nil =>
      have htext : groupsText [w] = hexText w ++ [] := by simp [groupsText, List.intercalate]
      rw [htext, readToken, read_hexText hw, inetPton6Loop, inetPton6End, if_pos rfl,
        if_neg (by rw [nsIn6AddrSz, nsInt16Sz]; omega), storeVal_cells w done (by omega), Lib.ok_bind]
      simp [nsInt16Sz, groupBytes]
    | cons w' ws =>
      have hbytes : done ++ groupBytes w ++ (w' :: ws).flatMap groupBytes = done ++ (w :: w' :: ws).flatMap groupBytes := by
        rw [List.append_assoc, ← List.flatMap_cons]
      rw [groupsText_cons, readToken_group hw _ (by omega),
        ih (fun x hx => hws x (List.mem_cons_of_mem _ hx)) _ (by rw [List.length_append]; simp [groupBytes] at h ⊢; omega),
        hbytes]

/-- The groups in front of a `::`, with the first of its colons. -/
theorem readToken_front {ws : List ℕ} (hws : ∀ w ∈ ws, w < 65536) (h : done.length + 2 * ws.length ≤ 16) (rest : Bytes)
    (colonp : Option ℕ) :
    readToken ((ws.flatMap fun w => hexText w ++ [':'.toUInt8]) ++ rest) done colonp
      = readToken rest (done ++ ws.flatMap groupBytes) colonp := by
  induction ws generalizing done with
  | nil => simp
  | cons w ws ih =>
    rw [List.length_cons] at h
    rw [List.flatMap_cons, List.append_assoc, List.append_assoc, List.singleton_append,
      readToken_group (hws w List.mem_cons_self) _ (by omega),
      ih (fun x hx => hws x (List.mem_cons_of_mem _ hx)) (by rw [List.length_append]; simp [groupBytes] at h ⊢; omega),
      List.flatMap_cons, List.append_assoc]

/-- The last four bytes with dots; their first number is read as a group, and then again. -/
theorem readToken_dotted (a b c d : UInt8) (h : done.length + 4 ≤ 16) (colonp : Option ℕ) :
    readToken (dotted [a, b, c, d]) done colonp
      = shiftToEnd (storedCells (done ++ [a, b, c, d])) (done ++ [a, b, c, d]).length colonp := by
  obtain ⟨ds, htext, hne, hds, -, hshort⟩ := decimal_digits a.toNat
  have hlength : ds.length ≤ 3 := hshort 3 (by decide) (Nat.lt_trans a.toNat_lt (by decide))
  have hsmall : ds.foldl (fun v d => v * 16 + d) 0 < 65536 :=
    calc ds.foldl (fun v d => v * 16 + d) 0 < (0 + 1) * 16 ^ ds.length :=
        foldl_digits_lt (fun d hd => Nat.lt_trans (hds d hd) (by decide)) 0
      _ ≤ 16 ^ 3 := by rw [Nat.zero_add, Nat.one_mul]; exact Nat.pow_le_pow_right (by decide) hlength
      _ < 65536 := by decide
  have hdot : xdigit '.'.toUInt8 = none := by decide
  have hfirst : ∀ rest tmp tp curtok, inetPton6Loop (Json.decimal a.toNat ++ rest) tmp tp colonp curtok false 0
      = inetPton6Loop rest tmp tp colonp curtok true (ds.foldl (fun v d => v * 16 + d) 0) := by
    intro rest tmp tp curtok
    rw [htext, read_xdigits (fun d hd => xdigit_decimal (hds d hd)) (fun d hd => Nat.lt_trans (hds d hd) (by decide))
      hsmall hne]
  rw [readToken]
  nth_rewrite 1 [dotted_four]
  rw [hfirst]
  conv_lhs => unfold inetPton6Loop
  rw [hdot]
  simp only
  rw [if_neg (by decide), if_pos ⟨trivial, by rw [nsInAddrSz, nsIn6AddrSz]; omega⟩, inetPton4_dotted, Lib.ok_bind]
  simp only
  rw [storeOctets_cells [a, b, c, d] done h, Lib.ok_bind, inetPton6End, if_neg (by decide), List.length_append]
  rfl

end Libntech.Network
