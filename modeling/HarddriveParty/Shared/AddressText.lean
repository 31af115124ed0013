import HarddriveParty.Shared.AnnounceAddress

/-!
# Socket addresses as text

`Display` of the addresses of `std::net`: dotted decimals for IPv4, and for IPv6 hexadecimal
groups of which the first longest run of at least two zeros is left out, or the dotted form of
an address that an IPv4 address is mapped to.
-/

namespace HarddriveParty

/-- `Ipv4Addr::octets`. -/
def octets (ip : UInt32) : List Nat :=
  [ip.toNat / 2 ^ 24, ip.toNat / 2 ^ 16 % 256, ip.toNat / 2 ^ 8 % 256, ip.toNat % 256]

/-- `Ipv6Addr::segments`. -/
def segments (ip : BitVec 128) : List Nat :=
  (List.range 8).map fun i ↦ ip.toNat / 2 ^ (112 - 16 * i) % 65536

/-- A number in hexadecimal digits. -/
def hexText (n : Nat) : String := String.ofList (Nat.toDigits 16 n)

/-- `Display` of `Ipv4Addr`. -/
def ipv4Text (ip : UInt32) : String := String.intercalate "." ((octets ip).map toString)

/-- A run of zero segments. -/
structure Span where
  start : Nat
  len : Nat
  deriving DecidableEq, Repr

/-- The first longest run of zeros among the segments from the `i`-th on. -/
def zeroSpan (i : Nat) (current longest : Span) : List Nat → Span
  | [] => longest
  | segment :: rest =>
    if segment = 0 then
      let current : Span := ⟨if current.len = 0 then i else current.start, current.len + 1⟩
      zeroSpan (i + 1) current (if longest.len < current.len then current else longest) rest
    else zeroSpan (i + 1) ⟨0, 0⟩ longest rest

/-- A colon-separated part of the address. -/
def subsliceText (chunk : List Nat) : String := String.intercalate ":" (chunk.map hexText)

/-- `Ipv6Addr::to_ipv4_mapped`. -/
def toIpv4Mapped (ip : BitVec 128) : Option UInt32 :=
  if (segments ip).take 6 = [0, 0, 0, 0, 0, 0xffff] then some (UInt32.ofNat ip.toNat) else none

/-- `Display` of `Ipv6Addr`. -/
def ipv6Text (ip : BitVec 128) : String :=
  match toIpv4Mapped ip with
  | some ipv4 => "::ffff:" ++ ipv4Text ipv4
  | none =>
    let zeroes := zeroSpan 0 ⟨0, 0⟩ ⟨0, 0⟩ (segments ip)
    if 1 < zeroes.len then
      subsliceText ((segments ip).take zeroes.start) ++ "::" ++
        subsliceText ((segments ip).drop (zeroes.start + zeroes.len))
    else subsliceText (segments ip)

/-- The scope id after a percent sign; no scope is not shown. -/
def scopeText (scopeId : UInt32) : String :=
  if scopeId = 0 then "" else "%" ++ toString scopeId.toNat

/-- `Display` of `SocketAddr`. The flow label is not shown. -/
def SocketAddr.text : SocketAddr → String
  | v4 ip port => ipv4Text ip ++ ":" ++ toString port.toNat
  | v6 ip port _ scopeId =>
    "[" ++ ipv6Text ip ++ scopeText scopeId ++ "]:" ++ toString port.toNat

end HarddriveParty
