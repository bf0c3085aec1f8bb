import Libntech.Network.InetPtonMeaning

/-! # What inet_ntop prints, inet_pton reads back

The text of an address of version 6 is the groups in front of the best run, `::`, and the groups behind it, of which the
last two may be printed with dots.
-/
namespace Libntech.Network
set_option autoImplicit false

open Libntech.Json (Bytes hexChar)
open Libntech.Lib (Fault)

/-! ## The words of the address -/

variable {src : List UInt8} {words ws : List ℕ} {best : Option ZeroRun} {l : ℕ}

theorem wordsOf_bytes {n : ℕ} (h : src.length = 2 * n) :
    (wordsOf src).flatMap groupBytes = src ∧ (wordsOf src).length = n ∧ ∀ w ∈ wordsOf src, w < 65536 := by
  induction n generalizing src with
  | zero =>
    rw [List.length_eq_zero_iff.mp h]
    exact ⟨rfl, rfl, fun w hw => by cases hw⟩
  | succ n ih =>
    match src, h with
    | high :: low :: src, h =>
      obtain ⟨hbytes, hlength, hsmall⟩ := @ih src (by simp only [List.length_cons] at h; omega)
      have hlow : low.toNat < 2 ^ 8 := low.toNat_lt
      have hword : high.toNat <<< 8 ||| low.toNat = high.toNat * 256 + low.toNat := by
        rw [← Nat.shiftLeft_add_eq_or_of_lt hlow, Nat.shiftLeft_eq]
      have hhigh := high.toNat_lt
      refine ⟨?_, by rw [wordsOf, List.length_cons, hlength], fun w hw => ?_⟩
      · have hhi : (high.toNat * 256 + low.toNat) >>> 8 = high.toNat := by
          rw [Nat.shiftRight_eq_div_pow]
          omega
        have hlo : UInt8.ofNat (high.toNat * 256 + low.toNat) = low := by
          apply UInt8.toNat_inj.mp
          rw [UInt8.toNat_ofNat']
          omega
        rw [wordsOf, List.flatMap_cons, hbytes, hword, groupBytes, hhi, hlo, UInt8.ofNat_toNat]
        rfl
      · rw [wordsOf, List.mem_cons, hword] at hw
        rcases hw with rfl | hw
        · omega
        · exact hsmall w hw

/-- The run stands in the words. -/
def IsZeroRun (words : List ℕ) (run : ZeroRun) : Prop :=
  ∃ front behind, words = front ++ List.replicate run.len 0 ++ behind ∧ front.length = run.base

theorem betterRun_isZeroRun {cur : Option ZeroRun} (hbest : ∀ r ∈ best, IsZeroRun words r)
    (hcur : ∀ r ∈ cur, IsZeroRun words r) : ∀ r ∈ betterRun best cur, IsZeroRun words r := by
  intro r hr
  cases cur with
  | none => exact hbest r hr
  | some cur =>
    cases best with
    | none => exact hcur r hr
    | some best =>
      rw [betterRun] at hr
      split at hr
      · exact hcur r hr
      · exact hbest r hr

theorem bestRunLoop_isZeroRun {done rest : List ℕ} {cur : Option ZeroRun} (hwords : words = done ++ rest)
    (hbest : ∀ r ∈ best, IsZeroRun words r)
    (hcur : ∀ r ∈ cur, ∃ front, done = front ++ List.replicate r.len 0 ∧ front.length = r.base) :
    ∀ r ∈ bestRunLoop done.length rest best cur, IsZeroRun words r := by
  have hcurrent : ∀ r ∈ cur, IsZeroRun words r := by
    intro r hr
    obtain ⟨front, hdone, hbase⟩ := hcur r hr
    exact ⟨front, rest, by rw [hwords, hdone], hbase⟩
  induction rest generalizing done best cur with
  | nil => exact betterRun_isZeroRun hbest hcurrent
  | cons w rest ih =>
    have hmove : words = (done ++ [w]) ++ rest := by rw [hwords, List.append_assoc, List.singleton_append]
    have hplace : done.length + 1 = (done ++ [w]).length := by simp
    unfold bestRunLoop
    rw [hplace]
    split
    · rename_i hzero
      have hlonger : ∀ r : ZeroRun, (∃ front, done ++ [w] = front ++ List.replicate r.len 0 ∧ front.length = r.base) →
          IsZeroRun words r := by
        intro r ⟨front, hdone, hbase⟩
        exact ⟨front, rest, by rw [hmove, hdone], hbase⟩
      cases cur with
      | none =>
        have hrun : ∀ r ∈ some (ZeroRun.mk done.length 1),
            ∃ front, done ++ [w] = front ++ List.replicate r.len 0 ∧ front.length = r.base := by
          intro r hr
          rw [← Option.some.inj hr, hzero]
          exact ⟨done, rfl, rfl⟩
        exact ih hmove hbest hrun fun r hr => hlonger r (hrun r hr)
      | some cur =>
        obtain ⟨front, hdone, hbase⟩ := hcur cur rfl
        have hrun : ∀ r ∈ some { cur with len := cur.len + 1 },
            ∃ front, done ++ [w] = front ++ List.replicate r.len 0 ∧ front.length = r.base := by
          intro r hr
          rw [← Option.some.inj hr, hzero]
          exact ⟨front, by rw [List.replicate_succ', ← List.append_assoc, ← hdone], hbase⟩
        exact ih hmove hbest hrun fun r hr => hlonger r (hrun r hr)
    · exact ih hmove (betterRun_isZeroRun hbest hcurrent) (fun r hr => by cases hr) fun r hr => by cases hr

theorem bestRun_isZeroRun {r : ZeroRun} (h : bestRun words = some r) : IsZeroRun words r ∧ 2 ≤ r.len := by
  rw [bestRun, Option.filter_eq_some_iff] at h
  exact ⟨bestRunLoop_isZeroRun (show words = [] ++ words from rfl) (fun r hr => by cases hr) (fun r hr => by cases hr) r h.1,
    of_decide_eq_true h.2⟩

/-! ## The printed text -/

/-- Groups that are printed one after the other, none of them the first. -/
theorem format_groups (ws rest : List ℕ) {i : ℕ} (hi : i ≠ 0) (tmp : Bytes)
    (hplain : ∀ j, i ≤ j → j < i + ws.length → insideRun best j = false ∧ encapsulated words best j = false) :
    formatLoop src words best i (ws ++ rest) tmp
      = formatLoop src words best (i + ws.length) rest (tmp ++ ws.flatMap fun w => ':'.toUInt8 :: hexText w) := by
  induction ws generalizing i tmp with
  | nil => simp
  | cons w ws ih =>
    obtain ⟨houtside, hhex⟩ := hplain i (Nat.le_refl i) (by rw [List.length_cons]; omega)
    have hrest : ∀ j, i + 1 ≤ j → j < i + 1 + ws.length → insideRun best j = false ∧ encapsulated words best j = false :=
      fun j hj hlt => hplain j (by omega) (by rw [List.length_cons]; omega)
    rw [List.cons_append, formatLoop, houtside, if_neg (by decide), if_pos hi]
    simp only
    rw [hhex, if_neg (by decide), ih (Nat.succ_ne_zero i) _ hrest, List.length_cons, List.flatMap_cons,
      Nat.succ_add_eq_add_succ, List.append_assoc, List.append_assoc, List.cons_append, List.nil_append, List.cons_append]

theorem format_first (src : List UInt8) (words : List ℕ) (best : Option ZeroRun) (ws rest : List ℕ)
    (hplain : ∀ j, j < ws.length → insideRun best j = false ∧ encapsulated words best j = false) :
    formatLoop src words best 0 (ws ++ rest) [] = formatLoop src words best ws.length rest (groupsText ws) := by
  cases ws with
  | nil => rfl
  | cons w ws =>
    obtain ⟨houtside, hhex⟩ := hplain 0 (Nat.succ_pos ws.length)
    rw [List.cons_append, formatLoop, houtside, if_neg (by decide), if_neg (show ¬(0 ≠ 0) from fun h => h rfl), hhex,
      if_neg (by decide), format_groups ws rest (Nat.succ_ne_zero 0) _ fun j _ hlt => hplain j
        (by rw [List.length_cons]; omega), groupsText_eq, List.length_cons, List.nil_append, Nat.succ_add_eq_add_succ,
      Nat.zero_add]

theorem format_inside {b : ℕ} (n : ℕ) (rest : List ℕ) {k : ℕ} (hk : 0 < k) (hkn : k + n ≤ l) (tmp : Bytes) :
    formatLoop src words (some ⟨b, l⟩) (b + k) (List.replicate n 0 ++ rest) tmp
      = formatLoop src words (some ⟨b, l⟩) (b + k + n) rest tmp := by
  induction n generalizing k with
  | zero => rfl
  | succ n ih =>
    have hinside : insideRun (some ⟨b, l⟩) (b + k) = true := by
      simp only [insideRun, Bool.and_eq_true, decide_eq_true_eq]
      omega
    have hother : ¬(some (ZeroRun.mk b l)).map ZeroRun.base = some (b + k) := by
      rw [Option.map_some, Option.some.injEq]
      show ¬b = b + k
      omega
    rw [List.replicate_succ, List.cons_append, formatLoop, hinside, if_pos rfl, if_neg hother, Nat.add_assoc b k 1,
      ih (Nat.succ_pos k) (by omega)]
    congr 1
    omega

theorem format_run {b : ℕ} (hl : 0 < l) (rest : List ℕ) (tmp : Bytes) :
    formatLoop src words (some ⟨b, l⟩) b (List.replicate l 0 ++ rest) tmp
      = formatLoop src words (some ⟨b, l⟩) (b + l) rest (tmp ++ [':'.toUInt8]) := by
  obtain ⟨l, rfl⟩ := Nat.exists_eq_succ_of_ne_zero (Nat.pos_iff_ne_zero.mp hl)
  have hinside : insideRun (some ⟨b, l + 1⟩) b = true := by
    simp only [insideRun, Bool.and_eq_true, decide_eq_true_eq]
    omega
  have hfirst : (some (ZeroRun.mk b (l + 1))).map ZeroRun.base = some b := rfl
  rw [List.replicate_succ, List.cons_append, formatLoop, hinside, if_pos rfl, if_pos hfirst,
    format_inside l rest Nat.one_pos (by omega)]
  congr 1
  omega

theorem colons_moved (ws : List ℕ) :
    (ws.flatMap fun w => ':'.toUInt8 :: hexText w) ++ [':'.toUInt8]
      = ':'.toUInt8 :: ws.flatMap fun w => hexText w ++ [':'.toUInt8] := by
  induction ws with
  | nil => rfl
  | cons w ws ih => rw [List.flatMap_cons, List.append_assoc, ih, List.flatMap_cons, List.cons_append, List.append_assoc,
      List.singleton_append]

theorem groupsText_front (hws : ws ≠ []) (rest : Bytes) :
    groupsText ws ++ ':'.toUInt8 :: rest = (ws.flatMap fun w => hexText w ++ [':'.toUInt8]) ++ rest := by
  obtain ⟨w, ws, rfl⟩ := List.exists_cons_of_ne_nil hws
  have hmoved := congrArg (hexText w ++ · ++ rest) (colons_moved ws)
  simp only [List.append_assoc, List.nil_append, List.cons_append] at hmoved
  rw [groupsText_eq, List.flatMap_cons, List.append_assoc, hmoved, List.append_assoc, List.append_assoc, List.singleton_append]

/-! ## The text is read back -/

/-- A text that starts with a group is read from the start of a token. -/
theorem inetPton6_group (w : ℕ) (rest : Bytes) : inetPton6 (hexText w ++ rest) = readToken (hexText w ++ rest) [] none := by
  obtain ⟨ds, htext, hne, hds, -, -⟩ := hexText_digits w
  obtain ⟨d, ds, rfl⟩ := List.exists_cons_of_ne_nil hne
  have hdigit : hexChar d ≠ ':'.toUInt8 := by
    intro h
    have hx := xdigit_hexChar (hds d List.mem_cons_self)
    rw [h, xdigit_colon] at hx
    cases hx
  rw [htext, List.map_cons, List.cons_append, inetPton6, if_neg hdigit]
  rfl

/-- The groups in front of a `::`, and the `::`. -/
theorem inetPton6_compressed (front : List ℕ) (hfront : ∀ w ∈ front, w < 65536) (hlength : 2 * front.length ≤ 16)
    (tail : Bytes) :
    inetPton6 (groupsText front ++ ':'.toUInt8 :: ':'.toUInt8 :: tail)
      = readToken tail (front.flatMap groupBytes) (some (front.flatMap groupBytes).length) := by
  rw [← readToken_colon]
  cases front with
  | nil =>
    rw [show groupsText [] = [] from rfl, List.nil_append, inetPton6]
    simp only
    rw [if_pos trivial, List.head?_cons, if_pos rfl]
    rfl
  | cons w ws =>
    rw [groupsText_eq, List.append_assoc, inetPton6_group, ← List.append_assoc, ← groupsText_eq,
      groupsText_front (List.cons_ne_nil w ws), readToken_front hfront (by simpa using hlength), List.nil_append]

theorem groupBytes_length (ws : List ℕ) : (ws.flatMap groupBytes).length = 2 * ws.length := by
  induction ws with
  | nil => rfl
  | cons w ws ih =>
    rw [List.flatMap_cons, List.length_append, ih, List.length_cons, groupBytes, List.length_cons, List.length_singleton]
    omega

theorem groupBytes_zeroes (l : ℕ) : (List.replicate l 0).flatMap groupBytes = List.replicate (2 * l) 0 := by
  induction l with
  | zero => rfl
  | succ l ih => rw [List.replicate_succ, List.flatMap_cons, ih]; rfl

/-- The `::` stands for the run. -/
theorem shift_back (front behind : List UInt8) (hl : 0 < l) (hlength : front.length + 2 * l + behind.length = 16) :
    shiftToEnd (storedCells (front ++ behind)) (front ++ behind).length (some front.length)
      = .ok (some (front ++ List.replicate (2 * l) 0 ++ behind)) := by
  have hzeroes : 16 - (front.length + behind.length) = 2 * l := by omega
  rw [shiftToEnd_cells front behind (by omega), List.length_append, hzeroes]

/-! ## How long the text is -/

theorem hexText_length {w : ℕ} (h : w < 65536) : (hexText w).length ≤ 4 := by
  obtain ⟨ds, htext, -, -, -, hshort⟩ := hexText_digits w
  rw [htext, List.length_map]
  exact hshort 4 (by decide) h

theorem decimal_length (octet : UInt8) : (Json.decimal octet.toNat).length ≤ 3 := by
  obtain ⟨ds, htext, -, -, -, hshort⟩ := decimal_digits octet.toNat
  rw [htext, List.length_map]
  exact hshort 3 (by decide) (Nat.lt_trans octet.toNat_lt (by decide))

theorem groups_length (hws : ∀ w ∈ ws, w < 65536) :
    (ws.flatMap fun w => ':'.toUInt8 :: hexText w).length ≤ 5 * ws.length := by
  induction ws with
  | nil => exact Nat.le_refl 0
  | cons w ws ih =>
    have hw := hexText_length (hws w List.mem_cons_self)
    have hrest := ih fun x hx => hws x (List.mem_cons_of_mem _ hx)
    rw [List.flatMap_cons, List.length_append, List.length_cons, List.length_cons]
    omega

theorem groupsText_length (hws : ∀ w ∈ ws, w < 65536) : (groupsText ws).length ≤ 5 * ws.length := by
  cases ws with
  | nil => exact Nat.le_refl 0
  | cons w ws =>
    have hw := hexText_length (hws w List.mem_cons_self)
    have hrest := groups_length fun x hx => hws x (List.mem_cons_of_mem w hx)
    rw [groupsText_eq, List.length_append, List.length_cons]
    omega

theorem dotted_length (a b c d : UInt8) : (dotted [a, b, c, d]).length < 16 := by
  have ha := decimal_length a
  have hb := decimal_length b
  have hc := decimal_length c
  have hd := decimal_length d
  simp only [dotted_four, List.length_append, List.length_cons, List.length_nil]
  omega

/-! ## The round trip -/

/-- The address has one text, shorter than `limit`: it is written where it fits with its end, and read as the address. -/
def ReadsBack (print : ℕ → Option Bytes) (read : Bytes → Except Fault (Option (List UInt8))) (limit : ℕ)
    (src : List UInt8) : Prop :=
  ∃ text, text.length < limit ∧ (∀ size, print size = if size ≤ text.length then none else some text) ∧
    read text = .ok (some src)

theorem four_bytes (src : List UInt8) (h : src.length = 4) : ∃ a b c d, src = [a, b, c, d] := by
  match src, h with
  | [a, b, c, d], _ => exact ⟨a, b, c, d, rfl⟩

theorem inetNtop4_eq (src : List UInt8) (size : ℕ) :
    inetNtop4 src size = if size ≤ (dotted src).length then none else some (dotted src) := rfl

theorem inetNtop4_readsBack (h : src.length = 4) : ReadsBack (inetNtop4 src) inetPton4 16 src := by
  obtain ⟨a, b, c, d, rfl⟩ := four_bytes _ h
  exact ⟨dotted [a, b, c, d], dotted_length a b c d, inetNtop4_eq [a, b, c, d], inetPton4_dotted a b c d⟩

/-- What is left to show when the loop and the trailing colon give the text. -/
theorem readsBack_of_text (text : Bytes) (htext : text.length < 46)
    (hformat : ∀ size, inetNtop6 src size = if size < text.length + 1 then none else some text)
    (hread : inetPton6 text = .ok (some src)) : ReadsBack (inetNtop6 src) inetPton6 46 src := by
  refine ⟨text, htext, fun size => ?_, hread⟩
  rw [hformat, if_congr Nat.lt_succ_iff rfl rfl]

section
variable {src : List UInt8} (hsrc : src.length = 16)
include hsrc

theorem words_of_src : (wordsOf src).flatMap groupBytes = src ∧ (wordsOf src).length = 8 ∧ ∀ w ∈ wordsOf src, w < 65536 :=
  wordsOf_bytes (n := 8) hsrc

theorem readsBack_plain (hrun : bestRun (wordsOf src) = none) : ReadsBack (inetNtop6 src) inetPton6 46 src := by
  obtain ⟨hbytes, hlength, hsmall⟩ := words_of_src hsrc
  have hformat : formatLoop src (wordsOf src) none 0 (wordsOf src) [] = some (groupsText (wordsOf src)) := by
    have hfirst := format_first src (wordsOf src) none (wordsOf src) [] fun j _ => ⟨rfl, rfl⟩
    rw [List.append_nil] at hfirst
    exact hfirst
  refine readsBack_of_text (groupsText (wordsOf src)) ?_ (fun size => ?_) ?_
  · have hshort := groupsText_length hsmall
    omega
  · rw [inetNtop6]
    simp only [hrun, hformat]
    rfl
  · have hread := readToken_groupsText hsmall [] (by rw [hlength]; decide) none
    rw [List.nil_append, hbytes, hsrc] at hread
    have hgroup : inetPton6 (groupsText (wordsOf src)) = readToken (groupsText (wordsOf src)) [] none := by
      obtain ⟨w, ws, hwords⟩ := List.exists_cons_of_ne_nil (List.ne_nil_of_length_pos (by rw [hlength]; decide))
      rw [hwords, groupsText_eq]
      exact inetPton6_group w _
    rw [hgroup, hread, shiftToEnd, storedCells, hsrc]
    simp [nsIn6AddrSz]

theorem readsBack_run {run : ZeroRun} (hrun : bestRun (wordsOf src) = some run)
    (hhex : encapsulated (wordsOf src) (some run) 6 = false) : ReadsBack (inetNtop6 src) inetPton6 46 src := by
  obtain ⟨hbytes, hlength, hsmall⟩ := words_of_src hsrc
  obtain ⟨⟨front, behind, hwords, hbase⟩, hlong⟩ := bestRun_isZeroRun hrun
  obtain ⟨b, l⟩ := run
  simp only at hwords hbase hlong
  have hcount : front.length + l + behind.length = 8 := by
    rw [← hlength, hwords, List.length_append, List.length_append, List.length_replicate]
  have hfront : ∀ w ∈ front, w < 65536 := fun w hw => hsmall w (by rw [hwords]; simp [hw])
  have hbehind : ∀ w ∈ behind, w < 65536 := fun w hw => hsmall w (by rw [hwords]; simp [hw])
  have hplain : ∀ j, encapsulated (wordsOf src) (some ⟨b, l⟩) j = false := by
    intro j
    by_cases hj : j = 6
    · rw [hj, hhex]
    · simp [encapsulated, hj]
  have houtside : ∀ j, j < b ∨ b + l ≤ j → insideRun (some ⟨b, l⟩) j = false := by
    intro j hj
    simp only [insideRun, Bool.and_eq_false_iff, decide_eq_false_iff_not]
    omega
  -- the loop: the groups in front, the run, the groups behind
  have hformat : formatLoop src (wordsOf src) (some ⟨b, l⟩) 0 (wordsOf src) []
      = some (groupsText front ++ [':'.toUInt8] ++ behind.flatMap fun w => ':'.toUInt8 :: hexText w) := by
    nth_rewrite 2 [hwords]
    rw [List.append_assoc, format_first _ _ _ front _ fun j hj => ⟨houtside j (Or.inl (by omega)), hplain j⟩, hbase,
      format_run (by omega), ← List.append_nil behind,
      format_groups behind [] (by omega) _ fun j hj _ => ⟨houtside j (Or.inr hj), hplain j⟩, List.append_nil]
    rfl
  have htail : (if b + l = 8 then
      groupsText front ++ [':'.toUInt8] ++ (behind.flatMap fun w => ':'.toUInt8 :: hexText w) ++ [':'.toUInt8]
      else groupsText front ++ [':'.toUInt8] ++ behind.flatMap fun w => ':'.toUInt8 :: hexText w)
      = groupsText front ++ ':'.toUInt8 :: ':'.toUInt8 :: groupsText behind := by
    cases behind with
    | nil =>
      rw [if_pos (by rw [List.length_nil] at hcount; omega), List.flatMap_nil, List.append_nil, List.append_assoc]
      rfl
    | cons w ws =>
      rw [if_neg (by rw [List.length_cons] at hcount; omega), List.flatMap_cons, List.cons_append, ← groupsText_eq,
        List.append_assoc, List.singleton_append]
  refine readsBack_of_text (groupsText front ++ ':'.toUInt8 :: ':'.toUInt8 :: groupsText behind) ?_ (fun size => ?_) ?_
  · have hshort := groupsText_length hfront
    have hrest := groupsText_length hbehind
    rw [List.length_append, List.length_cons, List.length_cons]
    omega
  · rw [inetNtop6]
    simp only [hrun, hformat, Option.map_some, Option.some.injEq, Option.bind_eq_bind, Option.bind_some]
    rw [htail]
  · have hzeroes : src = front.flatMap groupBytes ++ List.replicate (2 * l) 0 ++ behind.flatMap groupBytes := by
      rw [← hbytes, hwords, List.flatMap_append, List.flatMap_append, groupBytes_zeroes]
    rw [inetPton6_compressed front hfront (by omega), readToken_groupsText hbehind _ (by rw [groupBytes_length]; omega),
      shift_back _ _ (l := l) (by omega) (by rw [groupBytes_length, groupBytes_length]; omega), ← hzeroes]

theorem readsBack_encapsulated {run : ZeroRun} (hrun : bestRun (wordsOf src) = some run)
    (hdots : encapsulated (wordsOf src) (some run) 6 = true) : ReadsBack (inetNtop6 src) inetPton6 46 src := by
  obtain ⟨hbytes, hlength, hsmall⟩ := words_of_src hsrc
  obtain ⟨⟨front, behind, hwords, hbase⟩, hlong⟩ := bestRun_isZeroRun hrun
  obtain ⟨b, l⟩ := run
  simp only at hwords hbase hlong
  have hshape : b = 0 ∧ l ≤ 6 := by
    simp only [encapsulated, Bool.and_eq_true, beq_iff_eq, Bool.or_eq_true] at hdots
    omega
  obtain ⟨rfl, hl⟩ := hshape
  rw [List.length_eq_zero_iff] at hbase
  subst hbase
  rw [List.nil_append] at hwords
  -- the groups between the run and the dots
  obtain ⟨middle, last, hsplit, hmiddle⟩ : ∃ middle last, behind = middle ++ last ∧ middle.length = 6 - l := by
    refine ⟨behind.take (6 - l), behind.drop (6 - l), (List.take_append_drop _ _).symm, ?_⟩
    rw [hwords, List.length_append, List.length_replicate] at hlength
    rw [List.length_take]
    omega
  have hlast : last.length = 2 := by
    rw [hwords, hsplit, List.length_append, List.length_replicate, List.length_append] at hlength
    omega
  have hsmallMiddle : ∀ w ∈ middle, w < 65536 := fun w hw => hsmall w (by rw [hwords, hsplit]; simp [hw])
  have hsrcSplit : src = List.replicate (2 * l) 0 ++ middle.flatMap groupBytes ++ last.flatMap groupBytes := by
    rw [← hbytes, hwords, hsplit, List.flatMap_append, List.flatMap_append, groupBytes_zeroes, List.append_assoc]
  have hdrop : src.drop 12 = last.flatMap groupBytes := by
    have hfront : (List.replicate (2 * l) 0 ++ middle.flatMap groupBytes).length = 12 := by
      rw [List.length_append, List.length_replicate, groupBytes_length]
      omega
    rw [hsrcSplit, ← hfront, List.drop_left]
  obtain ⟨p, q, r, t, hfour⟩ := four_bytes (src.drop 12) (by rw [List.length_drop, hsrc])
  have hoctets : last.flatMap groupBytes = [p, q, r, t] := hdrop.symm.trans hfour
  have hplain : ∀ j, l ≤ j → j < 6 → insideRun (some ⟨0, l⟩) j = false ∧
      encapsulated (wordsOf src) (some ⟨0, l⟩) j = false := by
    intro j hj hlt
    simp only [insideRun, encapsulated, Bool.and_eq_false_iff, decide_eq_false_iff_not, beq_eq_false_iff_ne]
    omega
  have hmoved := colons_moved middle
  have hgroups := groups_length hsmallMiddle
  have hformat : formatLoop src (wordsOf src) (some ⟨0, l⟩) 0 (wordsOf src) []
      = some (':'.toUInt8 :: ':'.toUInt8 :: ((middle.flatMap fun w => hexText w ++ [':'.toUInt8]) ++ dotted [p, q, r, t])) := by
    obtain ⟨x, xs, rfl⟩ := List.exists_cons_of_ne_nil (List.ne_nil_of_length_pos (by rw [hlast]; decide))
    have hsix : l + middle.length = 6 := by omega
    have hrun6 : insideRun (some ⟨0, l⟩) 6 = false := by
      simp only [insideRun, Bool.and_eq_false_iff, decide_eq_false_iff_not]
      omega
    have hfits : ¬46 - ([':'.toUInt8] ++ (middle.flatMap fun w => ':'.toUInt8 :: hexText w) ++ [':'.toUInt8]).length
        ≤ (dotted [p, q, r, t]).length := by
      have hdotted := dotted_length p q r t
      simp only [List.length_append, List.length_singleton]
      omega
    nth_rewrite 2 [hwords]
    rw [format_run (by omega), Nat.zero_add, hsplit,
      format_groups middle (x :: xs) (by omega) _ fun j hj hlt => hplain j hj (by omega), hsix, formatLoop, hrun6,
      if_neg (by decide), hdots, if_pos rfl, if_pos (show 6 ≠ 0 by decide), hfour, inetNtop4_eq, ntopTmpSize, List.nil_append,
      if_neg hfits, Option.map_some, List.append_assoc [':'.toUInt8], hmoved]
    rfl
  refine readsBack_of_text
    (':'.toUInt8 :: ':'.toUInt8 :: ((middle.flatMap fun w => hexText w ++ [':'.toUInt8]) ++ dotted [p, q, r, t]))
    ?_ (fun size => ?_) ?_
  · have hdotted := dotted_length p q r t
    have hsame := congrArg List.length hmoved
    rw [List.length_append, List.length_singleton, List.length_cons] at hsame
    rw [List.length_cons, List.length_cons, List.length_append]
    omega
  · rw [inetNtop6]
    simp only [hrun, hformat, Option.map_some, Option.some.injEq, Option.bind_eq_bind, Option.bind_some]
    rw [if_neg (show ¬0 + l = 8 by omega)]
  · have hread := inetPton6_compressed [] (fun w hw => by cases hw) (by decide)
      ((middle.flatMap fun w => hexText w ++ [':'.toUInt8]) ++ dotted [p, q, r, t])
    rw [show groupsText [] = [] from rfl, List.nil_append, List.flatMap_nil, readToken_front hsmallMiddle
      (by rw [List.length_nil]; omega), List.nil_append, readToken_dotted p q r t (by rw [groupBytes_length]; omega)] at hread
    have hback := shift_back [] (middle.flatMap groupBytes ++ [p, q, r, t]) (l := l) (by omega)
      (by rw [List.length_append, groupBytes_length]; simp only [List.length_nil, List.length_cons]; omega)
    rw [List.nil_append, List.nil_append] at hback
    rw [hread, hback, ← hoctets, ← List.append_assoc, ← hsrcSplit]

end

/-- Every address of both families is printed, by both functions. -/
theorem addresses_readsBack {src4 src6 : List UInt8} (h4 : src4.length = 4) (h6 : src6.length = 16) :
    ReadsBack (inetNtop4 src4) inetPton4 16 src4 ∧ ReadsBack (inetNtop6 src6) inetPton6 46 src6 := by
  refine ⟨inetNtop4_readsBack h4, ?_⟩
  cases hrun : bestRun (wordsOf src6) with
  | none => exact readsBack_plain h6 hrun
  | some run =>
    cases hdots : encapsulated (wordsOf src6) (some run) 6 with
    | false => exact readsBack_run h6 hrun hdots
    | true => exact readsBack_encapsulated h6 hrun hdots

/-- The text of an address: it is shorter than `limit`, delivered where it fits, and read as `answer`. -/
def Delivered (buildInet6 : Bool) (af : AddressFamily) (limit : ℕ) (src : List UInt8)
    (answer : Option (Except Fault (Option (List UInt8)))) : Prop :=
  ∃ text, text.length < limit ∧ (∀ size, inetNtop af src size = some (if size ≤ text.length then none else some text)) ∧
    inetPton buildInet6 af text = answer

/-- Every address is printed as one text, which is read back as the same address if the build reads the family. -/
theorem inet_readsBack (buildInet6 : Bool) {src4 src6 : List UInt8} (h4 : src4.length = 4) (h6 : src6.length = 16) :
    Delivered buildInet6 .inet 16 src4 (some (.ok (some src4))) ∧
      Delivered buildInet6 .inet6 46 src6 (if buildInet6 then some (.ok (some src6)) else none) := by
  obtain ⟨⟨text4, hshort4, hprint4, hread4⟩, text6, hshort6, hprint6, hread6⟩ := addresses_readsBack h4 h6
  refine ⟨⟨text4, hshort4, fun size => ?_, ?_⟩, text6, hshort6, fun size => ?_, ?_⟩
  · rw [inetNtop, hprint4]
  · rw [inetPton, hread4]
  · rw [inetNtop, hprint6]
  · rw [inetPton, hread6]

theorem inet_readsBack_loopback :
    Delivered true .inet 16 [127, 0, 0, 1] (some (.ok (some [127, 0, 0, 1]))) ∧
      Delivered true .inet6 46 (List.replicate 15 0 ++ [1]) (some (.ok (some (List.replicate 15 0 ++ [1])))) :=
  inet_readsBack true rfl rfl

end Libntech.Network
