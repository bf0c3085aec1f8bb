import Libntech.Json.Numerals
import Libntech.Network.IPAddressNew
import Libntech.Network.IPV4AddressMeaning
import Libntech.Network.IPV6Grammar

/-! # Printed addresses are read back

A printed IPv4 address is a text of the IPv4 grammar. A printed IPv6 address has seven colons, and the IPv4 automaton
takes one at most (`IPV4.Known.colons`); its eight groups are then all that the IPv6 automaton asks for.
-/
namespace Libntech.Network
set_option autoImplicit false

open Libntech.Json (Bytes ascii)

/-! ## Printed numbers -/

theorem char2Dec_numeral {c : UInt8} (h : isdigit c = true) (n : ℕ) : char2Dec n c = 10 * n + (c.toNat - 48) := by
  simp only [isdigit, Bool.and_eq_true, decide_eq_true_eq, UInt8.le_iff_toNat_le] at h
  have h0 : '0'.toUInt8.toNat = 48 := rfl
  have h0' : '0'.toNat = 48 := rfl
  rw [char2Dec]
  omega

theorem isdigit_numeral {c : UInt8} (h : Json.isNumeral c = true) : isdigit c = true := by
  simp only [Json.isNumeral, Json.isDigit, Bool.or_eq_true, Bool.and_eq_true, decide_eq_true_eq, beq_iff_eq] at h
  simp only [isdigit, Bool.and_eq_true, decide_eq_true_eq, UInt8.le_iff_toNat_le] at h ⊢
  have h0 : '0'.toUInt8.toNat = 48 := rfl
  have h1 : '1'.toUInt8.toNat = 49 := rfl
  have h9 : '9'.toUInt8.toNat = 57 := rfl
  rcases h with rfl | h
  · omega
  · omega

theorem decimal_value {digits : Bytes} (h : ∀ c ∈ digits, isdigit c = true) (n : ℕ) :
    digits.foldl char2Dec n = digits.foldl (fun n c => 10 * n + (c.toNat - 48)) n := by
  induction digits generalizing n with
  | nil => rfl
  | cons c digits ih =>
    rw [List.foldl_cons, List.foldl_cons, char2Dec_numeral (h c List.mem_cons_self),
      ih fun d hd => h d (List.mem_cons_of_mem _ hd)]

theorem decimal_decimal (n : ℕ) : decimal (Json.decimal n) = n := by
  rw [decimal, decimal_value fun c hc => isdigit_numeral (Json.decimal_numerals n c hc)]
  exact Json.numeralsValue_decimal n

theorem numeral_decimal (octet : UInt8) : IPV4.Numeral 255 (Json.decimal octet.toNat) := by
  refine ⟨?_, fun c hc => isdigit_numeral (Json.decimal_numerals _ c hc), ?_⟩
  · rcases Json.decimal_head octet.toNat with h | ⟨c, t, h, -⟩
    all_goals simp [h]
  · rw [decimal_decimal]
    have hlt := octet.toNat_lt
    omega

theorem hexChar_lower {d : ℕ} (h : d < 16) : isxdigit (Json.hexChar d) = true ∧ isupper (Json.hexChar d) = false := by
  interval_cases d <;> decide

theorem char2Hex_hexChar {d : ℕ} (h : d < 16) (n : ℕ) : char2Hex n (Json.hexChar d) = n * 16 + d := by
  interval_cases d <;> rfl

theorem hexText_ne_nil (n : ℕ) : hexText n ≠ [] := by
  rw [hexText]
  split
  next => exact List.cons_ne_nil _ _
  next hn => simpa [Nat.digits_eq_nil_iff_eq_zero] using hn

theorem hexText_lower (n : ℕ) : LowerHex (hexText n) := by
  intro c hc
  rw [hexText] at hc
  split at hc
  · rw [List.mem_singleton.mp hc]
    decide
  · rw [List.mem_reverse, List.mem_map] at hc
    obtain ⟨d, hd, rfl⟩ := hc
    exact hexChar_lower (Nat.digits_lt_base (by decide) hd)

theorem hexadecimal_hexText (n : ℕ) : hexadecimal (hexText n) = n := by
  have hdigits (ds : List ℕ) (hds : ∀ d ∈ ds, d < 16) :
      (ds.map Json.hexChar).foldr (fun c n => char2Hex n c) 0 = Nat.ofDigits 16 ds := by
    induction ds with
    | nil => rfl
    | cons d ds ih =>
      rw [List.map_cons, List.foldr_cons, ih fun x hx => hds x (List.mem_cons_of_mem _ hx),
        char2Hex_hexChar (hds d List.mem_cons_self), Nat.ofDigits_cons, Nat.mul_comm, Nat.add_comm]
  rw [hexText, hexadecimal]
  split
  next hn =>
    rw [hn]
    rfl
  next hn =>
    rw [List.foldl_reverse, hdigits _ fun d hd => Nat.digits_lt_base (by decide) hd, Nat.ofDigits_digits]

theorem legible_hexText (sixteen : UInt16) : Legible (hexText sixteen.toNat) := by
  refine ⟨hexText_lower _, ?_⟩
  rw [hexadecimal_hexText]
  have hlt := sixteen.toNat_lt
  omega

/-! ## The two automata -/

theorem IPV4.Known.colons {text : Bytes} {s : IPV4.Scan} (h : IPV4.Known text s) : colons text ≤ 1 := by
  have hdigits {digits : Bytes} (h : ∀ c ∈ digits, isdigit c = true) : Network.colons digits = 0 := by
    refine List.count_eq_zero.mpr fun hmem => ?_
    exact absurd (h _ hmem) (by decide)
  have hdotted {groups : List Bytes} (h : ∀ group ∈ groups, IPV4.Numeral 255 group) :
      Network.colons (IPV4.dotted groups) = 0 := by
    refine List.count_eq_zero.mpr fun hmem => ?_
    rw [IPV4.dotted, List.mem_flatMap] at hmem
    obtain ⟨group, hgroup, hmem⟩ := hmem
    rw [List.mem_append, List.mem_singleton] at hmem
    rcases hmem with hmem | heq
    · exact absurd ((h group hgroup).isdigit _ hmem) (by decide)
    · exact absurd heq (by decide)
  simp only [Network.colons] at *
  cases h with
  | octet _ hgroups hoctet _ => simp [hdotted hgroups, hdigits hoctet]
  | port _ hgroups hlast hport _ => simp [hdotted hgroups, hdigits hlast.isdigit, hdigits hport]
  | @stray _ _ c _ hgroups hlast _ _ =>
    rw [List.count_append, List.count_append, hdotted hgroups, hdigits hlast.isdigit]
    exact (Nat.zero_add _).trans_le (List.count_le_length)

theorem ipv4Parser_colons {text : Bytes} (h : 2 ≤ colons text) : IPV4.ipv4Parser text = none := by
  cases haccepted : IPV4.ipv4Parser text with
  | none => rfl
  | some address =>
    obtain ⟨s, hscan, -⟩ := IPV4.ipv4Parser_known.mp haccepted
    have hle := (IPV4.scan_known hscan).colons
    omega

theorem colons_joined (piece : Bytes) (pieces : List Bytes) : pieces.length ≤ colons (joined (piece :: pieces)) := by
  induction pieces generalizing piece with
  | nil => exact Nat.zero_le _
  | cons next pieces ih =>
    have hrest := ih next
    rw [colons] at hrest
    rw [joined_cons piece (List.cons_ne_nil _ _), colons, List.count_append, List.count_cons_self, List.length_cons]
    omega

/-! ## Reading back -/

theorem dotted_append (groups : List Bytes) (last : Bytes) :
    IPV4.dotted groups ++ last = ['.'.toUInt8].intercalate (groups ++ [last]) := by
  induction groups with
  | nil => simp [IPV4.dotted]
  | cons group groups ih =>
    obtain ⟨next, rest, hrest⟩ : ∃ next rest, groups ++ [last] = next :: rest := List.exists_cons_of_ne_nil (by simp)
    have hdotted : IPV4.dotted (group :: groups) ++ last = group ++ ['.'.toUInt8] ++ (IPV4.dotted groups ++ last) := by
      simp [IPV4.dotted]
    rw [hdotted, ih, List.cons_append, hrest, List.intercalate_cons_cons]

theorem storeIPV4_octets (octets : Vector UInt8 4) (port : ℕ) :
    storeIPV4 ⟨octets.toList.map UInt8.toNat, port⟩ = ⟨octets, UInt16.ofNat port⟩ := by
  rw [storeIPV4, IPV4Memory.mk.injEq]
  refine ⟨Vector.ext fun i hi => ?_, rfl⟩
  have hlength : i < (octets.toList.map UInt8.toNat).length := by simpa using hi
  rw [Vector.getElem_ofFn, List.getD_eq_getElem?_getD, List.getElem?_eq_getElem hlength]
  simp

theorem storeIPV6_sixteen (sixteen : Vector UInt16 8) (port : ℕ) :
    storeIPV6 ⟨sixteen.toList.map UInt16.toNat, port⟩ = ⟨sixteen, UInt16.ofNat port⟩ := by
  rw [storeIPV6, IPV6Memory.mk.injEq]
  refine ⟨Vector.ext fun i hi => ?_, rfl⟩
  have hlength : i < (sixteen.toList.map UInt16.toNat).length := by simpa using hi
  rw [Vector.getElem_ofFn, List.getD_eq_getElem?_getD, List.getElem?_eq_getElem hlength]
  simp

theorem ipAddressNew_ipv4 (address : IPV4Memory) :
    ipAddressNew (ipAddressGetAddress (.ipv4 address)) = some (.ipv4 { address with port := 0 }) := by
  have hlength : address.octets.toList.length = 4 := by simp
  obtain ⟨front, last, hoctets⟩ : ∃ front last, address.octets.toList = front ++ [last] := by
    obtain h | ⟨front, last, h⟩ := List.eq_nil_or_concat address.octets.toList
    · rw [h] at hlength
      cases hlength
    · exact ⟨front, last, by rw [h, List.concat_eq_append]⟩
  have htext : ipAddressGetAddress (.ipv4 address) =
      IPV4.dotted (front.map fun octet => Json.decimal octet.toNat) ++ Json.decimal last.toNat := by
    rw [dotted_append, ipAddressGetAddress, hoctets, List.map_append, List.map_singleton]
  have hdenotes : IPV4.Denotes (ipAddressGetAddress (.ipv4 address)) ⟨address.octets.toList.map UInt8.toNat, 0⟩ := by
    rw [hoctets, List.length_append, List.length_singleton] at hlength
    have hgroups : ∀ group ∈ front.map fun octet => Json.decimal octet.toNat, IPV4.Numeral 255 group := by
      intro group hgroup
      obtain ⟨octet, -, rfl⟩ := List.mem_map.mp hgroup
      exact numeral_decimal octet
    have hplain := IPV4.Denotes.plain (by rw [List.length_map]; omega) hgroups (numeral_decimal last)
    have hvalues : (front.map fun octet => Json.decimal octet.toNat).map decimal = front.map UInt8.toNat := by
      rw [List.map_map]
      exact List.map_congr_left fun octet _ => decimal_decimal _
    rw [hvalues, decimal_decimal] at hplain
    rw [htext, hoctets, List.map_append, List.map_singleton]
    exact hplain
  rw [ipAddressNew, IPV4.ipv4Parser_of_denotes hdenotes]
  show some (IPAddress.ipv4 (storeIPV4 _)) = _
  rw [storeIPV4_octets]
  rfl

theorem ipAddressNew_ipv6 (address : IPV6Memory) :
    ipAddressNew (ipAddressGetAddress (.ipv6 address)) = some (.ipv6 { address with port := 0 }) := by
  have hlength : address.sixteen.toList.length = 8 := by simp
  obtain ⟨pieces, hpieces⟩ : ∃ pieces, pieces = address.sixteen.toList.map fun sixteen => hexText sixteen.toNat := ⟨_, rfl⟩
  have htext : ipAddressGetAddress (.ipv6 address) = joined pieces := by
    rw [hpieces]
    rfl
  have hcount : pieces.length = 8 := by rw [hpieces, List.length_map, hlength]
  have hnumbers : Numbers pieces := by
    intro piece hpiece
    rw [hpieces] at hpiece
    obtain ⟨sixteen, -, rfl⟩ := List.mem_map.mp hpiece
    exact ⟨legible_hexText sixteen, hexText_ne_nil _⟩
  have hvalues : pieces.map hexadecimal = address.sixteen.toList.map UInt16.toNat := by
    rw [hpieces, List.map_map]
    exact List.map_congr_left fun sixteen _ => hexadecimal_hexText _
  have hcolons : 2 ≤ colons (joined pieces) := by
    obtain ⟨first, rest, hsplit⟩ := List.exists_cons_of_length_eq_add_one hcount
    have hjoined := colons_joined first rest
    rw [hsplit, List.length_cons] at hcount
    rw [hsplit]
    omega
  rw [ipAddressNew, htext, ipv4Parser_colons hcolons, ipv6Parser_joined (accepts_full hcount hnumbers), hvalues]
  show some (IPAddress.ipv6 (storeIPV6 _)) = _
  rw [storeIPV6_sixteen]
  rfl

/-- What is printed is read back as an equal address of the same type. -/
theorem ipAddressNew_getAddress (address : IPAddress) :
    ∃ read, ipAddressNew (ipAddressGetAddress address) = some read ∧ ipAddressType read = ipAddressType address ∧
      ipAddressIsEqual read address = 1 := by
  cases address with
  | ipv4 address =>
    refine ⟨_, ipAddressNew_ipv4 address, rfl, ?_⟩
    simp [ipAddressIsEqual, ipv4Compare]
  | ipv6 address =>
    refine ⟨_, ipAddressNew_ipv6 address, rfl, ?_⟩
    simp [ipAddressIsEqual, ipv6Compare]

end Libntech.Network
