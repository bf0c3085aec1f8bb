import Libntech.Json.Write
import Libntech.Lib.Scanf
import Libntech.Network.IPV4Address

/-! # IP addresses (`libutils/ip_address.c`)

`IPAddressNew` and its printed form, and `IPAddressNewHex`. Where an address is built, its fields are stored into memory
that holds anything before. `BIG_ENDIAN` is defined, and not zero, wherever the headers of the system define both orders;
and what is printed fits into a new buffer.
-/
namespace Libntech.Network
set_option autoImplicit false

open Libntech.Json (Bytes)
open Libntech.Lib.Scanf (Directive sscanf)

/-- The memory of a `struct IPV4Address`. -/
structure IPV4Memory where
  octets : Vector UInt8 4
  port : UInt16
  deriving DecidableEq

/-- The memory of a `struct IPV6Address`. -/
structure IPV6Memory where
  sixteen : Vector UInt16 8
  port : UInt16
  deriving DecidableEq

inductive IPAddress where
  | ipv4 (address : IPV4Memory)
  | ipv6 (address : IPV6Memory)
  deriving DecidableEq

inductive IPAddressVersion where
  | ipv4
  | ipv6
  deriving DecidableEq

def ipAddressType : IPAddress → IPAddressVersion
  | .ipv4 _ => .ipv4
  | .ipv6 _ => .ipv6

def ipAddressGetPort : IPAddress → UInt16
  | .ipv4 address => address.port
  | .ipv6 address => address.port

/-! ## Addresses as text -/

def storeIPV4 (address : IPV4.IPV4Address) : IPV4Memory :=
  ⟨.ofFn fun i => UInt8.ofNat (address.octets.getD i 0), UInt16.ofNat address.port⟩

def storeIPV6 (address : IPV6Address) : IPV6Memory :=
  ⟨.ofFn fun i => UInt16.ofNat (address.sixteen.getD i 0), UInt16.ofNat address.port⟩

def ipAddressNew (source : Bytes) : Option IPAddress :=
  match IPV4.ipv4Parser source with
  | some address => some (.ipv4 (storeIPV4 address))
  | none => (ipv6Parser source).map fun address => .ipv6 (storeIPV6 address)

/-- `%x` of a number that is not negative. -/
def hexText (n : ℕ) : Bytes := if n = 0 then ['0'.toUInt8] else ((Nat.digits 16 n).map Json.hexChar).reverse

def ipAddressGetAddress : IPAddress → Bytes
  | .ipv4 address => ['.'.toUInt8].intercalate (address.octets.toList.map fun octet => Json.decimal octet.toNat)
  | .ipv6 address => [':'.toUInt8].intercalate (address.sixteen.toList.map fun sixteen => hexText sixteen.toNat)

def ipv4Compare (a b : IPV4Memory) : ℤ := if ∀ i : Fin 4, a.octets[i] = b.octets[i] then 1 else 0

def ipv6Compare (a b : IPV6Memory) : ℤ := if ∀ i : Fin 8, a.sixteen[i] = b.sixteen[i] then 1 else 0

def ipAddressIsEqual : IPAddress → IPAddress → ℤ
  | .ipv4 a, .ipv4 b => ipv4Compare a b
  | .ipv6 a, .ipv6 b => ipv6Compare a b
  | _, _ => -1

/-! ## Addresses as hex digits -/

/-- `%2x%2x%2x%2x` and `%4x%4x%4x%4x%4x%4x%4x%4x` -/
def ipv4Format : List Directive := .replicate 4 (.hex 2)

def ipv6Format : List Directive := .replicate 8 (.hex 4)

/-- `:%4x` -/
def portFormat : List Directive := [.literal ':'.toUInt8, .hex 4]

/-- The numbers are `unsigned int`, and what is stored is cut to the field. -/
def hexOctets (numbers : List ℤ) : Vector UInt8 4 := .ofFn fun i => UInt8.ofInt (numbers.getD (3 - i) 0)

def hexSixteen (numbers : List ℤ) : Vector UInt16 8 := .ofFn fun i => UInt16.ofInt (numbers.getD i 0)

def ipv4HexParser (source : Bytes) (address : IPV4Memory) : Option IPV4Memory :=
  let numbers := sscanf ipv4Format source
  if source.length = 8 ∧ numbers.length = 4 then some { address with octets := hexOctets numbers, port := 0 }
  else
    let numbers := sscanf (ipv4Format ++ portFormat) source
    if source.length = 8 + 1 + 4 ∧ numbers.length = 5 then
      some { address with octets := hexOctets numbers, port := UInt16.ofInt (numbers.getD 4 0) }
    else none

/-- The first form leaves the port as it was. -/
def ipv6HexParser (source : Bytes) (address : IPV6Memory) : Option IPV6Memory :=
  let numbers := sscanf ipv6Format source
  if source.length = 32 ∧ numbers.length = 8 then some { address with sixteen := hexSixteen numbers }
  else
    let numbers := sscanf (ipv6Format ++ portFormat) source
    if source.length = 32 + 1 + 4 ∧ numbers.length = 9 then
      some { address with sixteen := hexSixteen numbers, port := UInt16.ofInt (numbers.getD 8 0) }
    else none

/-- With what the memory from `xmalloc` held. -/
def ipAddressNewHex (ipv4 : IPV4Memory) (ipv6 : IPV6Memory) (source : Bytes) : Option IPAddress :=
  match ipv4HexParser source ipv4 with
  | some address => some (.ipv4 address)
  | none => (ipv6HexParser source ipv6).map .ipv6

end Libntech.Network
