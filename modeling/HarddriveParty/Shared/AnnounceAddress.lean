import HarddriveParty.Base.Base64
import HarddriveParty.Base.Outcome
import Mathlib.Tactic.IntervalCases

/-!
# Announce addresses and their text form

Models `shared/src/announce_address.rs`: the name, then the base64 of port and IP bytes,
then one digit for NAT type and IP version, with no separator. Parsing works backwards
from the digit, which fixes the length of the base64 part. The base64 engine is a crate
outside the repository and is a parameter, `Base64.NoPadCodec`.
-/

namespace HarddriveParty

/-- `std::net::IpAddr`, as address bits. -/
inductive IpAddr where
  | v4 (bits : UInt32)
  | v6 (bits : BitVec 128)
  deriving DecidableEq, Repr

/-- `std::net::SocketAddr`; the IPv6 form also has a flow label and a scope id. -/
inductive SocketAddr where
  | v4 (ip : UInt32) (port : UInt16)
  | v6 (ip : BitVec 128) (port : UInt16) (flowinfo scopeId : UInt32)
  deriving DecidableEq, Repr

namespace SocketAddr

/-- `SocketAddr::ip`. -/
def ip : SocketAddr → IpAddr
  | v4 bits _ => .v4 bits
  | v6 bits _ _ _ => .v6 bits

/-- `SocketAddr::port`. -/
def port : SocketAddr → UInt16
  | v4 _ port => port
  | v6 _ port _ _ => port

/-- `SocketAddr::is_ipv4`. -/
def isIpv4 : SocketAddr → Bool
  | v4 _ _ => true
  | v6 _ _ _ _ => false

/-- The address has no flow label and no scope id (vacuous for IPv4). -/
def Unscoped : SocketAddr → Prop
  | v4 _ _ => True
  | v6 _ _ flowinfo scopeId => flowinfo = 0 ∧ scopeId = 0

end SocketAddr

/-- `PeerConnectionDetails`, `shared/src/announce_address.rs:190`. -/
inductive PeerConnectionDetails where
  | noNat (addr : SocketAddr)
  | asymmetric (addr : SocketAddr)
  | symmetric (ip : IpAddr)
  deriving DecidableEq, Repr

namespace PeerConnectionDetails

/-- `PeerConnectionDetails::ip`, `shared/src/announce_address.rs:198`. -/
def ip : PeerConnectionDetails → IpAddr
  | noNat addr => addr.ip
  | asymmetric addr => addr.ip
  | symmetric ip => ip

/-- `PeerConnectionDetails::port`, `shared/src/announce_address.rs:206`. -/
def port : PeerConnectionDetails → Option UInt16
  | noNat addr => some addr.port
  | asymmetric addr => some addr.port
  | symmetric _ => none

/-- Every socket address in the details is without flow label and scope id. -/
def Unscoped : PeerConnectionDetails → Prop
  | noNat addr => addr.Unscoped
  | asymmetric addr => addr.Unscoped
  | symmetric _ => True

end PeerConnectionDetails

/-- `AnnounceAddress`, `shared/src/announce_address.rs:7`. -/
structure AnnounceAddress where
  connectionDetails : PeerConnectionDetails
  name : String
  deriving DecidableEq, Repr

/-- `AnnounceAddressDecodeError`, `shared/src/announce_address.rs:170`. -/
inductive AnnounceAddressDecodeError where
  | badLength
  | unrecognizedTypeValue
  | parseInt
  | base64 (text : String)
  | noPort
  deriving DecidableEq, Repr

namespace AnnounceAddress

/-! ### Writing -/

/-- `Ipv4Addr::to_bits().to_be_bytes()` and the IPv6 counterpart. -/
def ipBytes : IpAddr → Bytes
  | .v4 bits => Bytes.toBe 4 bits.toNat
  | .v6 bits => Bytes.toBe 16 bits.toNat

/-- The `port` bytes of `fmt`; none without a port. -/
def portBytes : Option UInt16 → Bytes
  | some port => Bytes.toBe 2 port.toNat
  | none => []

/-- The bytes that `fmt` encodes: the port, then the IP address. -/
def detailsBytes (details : PeerConnectionDetails) : Bytes :=
  portBytes details.port ++ ipBytes details.ip

/-- What `fmt` adds to the type value: three for IPv6. -/
def versionOffset : IpAddr → Nat
  | .v4 _ => 0
  | .v6 _ => 3

/-- The type digit of `fmt`: the NAT type, and three more for IPv6. -/
def typeValue (details : PeerConnectionDetails) : Nat :=
  (match details with
    | .noNat _ => 0
    | .symmetric _ => 1
    | .asymmetric _ => 2) + versionOffset details.ip

/-- `impl Display for AnnounceAddress`, `shared/src/announce_address.rs:128`. -/
def toText (engine : Base64.NoPadCodec) (a : AnnounceAddress) : String :=
  a.name ++ engine.encode (detailsBytes a.connectionDetails) ++
    String.singleton (Nat.digitChar (typeValue a.connectionDetails))

/-! ### Reading -/

/-- `str::parse::<u8>` on a one-character string: a decimal digit, nothing else. -/
def parseU8 (c : Char) : Option Nat :=
  if '0' ≤ c ∧ c ≤ '9' then some (c.toNat - '0'.toNat) else none

/-- `suffux_length_bytes` of `from_string`; the catch-all arm panics. -/
def suffixLengthBytes : Nat → Option Nat
  | 0 => some (4 + 2)
  | 1 => some 4
  | 2 => some (4 + 2)
  | 3 => some (16 + 2)
  | 4 => some 16
  | 5 => some (16 + 2)
  | _ => none

/-- `(suffux_length_bytes * 8usize).div_ceil(6)`. -/
def suffixLengthChars (suffixBytes : Nat) : Nat := (suffixBytes * 8 + 5) / 6

/-- Subtraction of `usize`; `none` stands for the panic below zero. Without overflow checks
the wrapped offset makes the following slice panic instead. -/
def usizeSub (a b : Nat) : Option Nat := if b ≤ a then some (a - b) else none

/-- The last `n` bytes before offset `stop`, as a big-endian number, when there are that many. -/
def beBytesBefore (input : Bytes) (stop n : Nat) : Option Nat :=
  if n ≤ stop then some (Bytes.ofBe ((input.take stop).drop (stop - n))) else none

/-- The port before offset `stop` of the decoded bytes; a symmetric NAT (type value 1) has none. -/
def readPort (natType : Nat) (input : Bytes) (stop : Nat) :
    Outcome AnnounceAddressDecodeError (Option UInt16) :=
  if natType = 1 then .ok none
  else do
    let port ← Outcome.okOr .badLength (beBytesBefore input stop 2)
    pure (some (UInt16.ofNat port))

/-- The NAT type value, IP address and port that the two branches of `from_string` read from
the end of the decoded bytes. -/
def readIpAndPort (typeValue : Nat) (input : Bytes) :
    Outcome AnnounceAddressDecodeError (Nat × IpAddr × Option UInt16) :=
  if 2 < typeValue then do
    let bits ← Outcome.okOr .badLength (beBytesBefore input input.length 16)
    let port ← readPort (typeValue - 3) input (input.length - 16)
    pure (typeValue - 3, .v6 (BitVec.ofNat 128 bits), port)
  else do
    let bits ← Outcome.okOr .badLength (beBytesBefore input input.length 4)
    let port ← readPort typeValue input (input.length - 4)
    pure (typeValue, .v4 (UInt32.ofNat bits), port)

/-- The socket address that `from_string` builds; IPv6 gets flow label and scope id zero. -/
def socketAddrOf (ip : IpAddr) (port : UInt16) : SocketAddr :=
  match ip with
  | .v4 bits => .v4 bits port
  | .v6 bits => .v6 bits port 0 0

/-- The last `match` of `from_string`. -/
def connectionDetailsOf (typeValue : Nat) (ip : IpAddr) (port : Option UInt16) :
    Outcome AnnounceAddressDecodeError PeerConnectionDetails :=
  match typeValue with
  | 0 => do
    let port ← Outcome.okOr .noPort port
    pure (.noNat (socketAddrOf ip port))
  | 1 => pure (.symmetric ip)
  | 2 => do
    let port ← Outcome.okOr .noPort port
    pure (.asymmetric (socketAddrOf ip port))
  | _ => throw (.error .unrecognizedTypeValue)

/-- The decoded base64 part; a refusal is kept as its text. -/
def decodeSuffix (engine : Base64.NoPadCodec) (truncated : String) :
    Outcome AnnounceAddressDecodeError Bytes :=
  match engine.decode truncated with
  | .ok input => .ok input
  | .error text => .error (.error (.base64 text))

/-- `AnnounceAddress::from_string`, `shared/src/announce_address.rs:16`. -/
def fromString (engine : Base64.NoPadCodec) (inputString : String) :
    Outcome AnnounceAddressDecodeError AnnounceAddress := do
  let last ← Outcome.okOr .badLength inputString.toList.getLast?
  let typeValue ← Outcome.okOr .parseInt (parseU8 last)
  let suffixBytes ← Outcome.orPanic "Bad type value" (suffixLengthBytes typeValue)
  let stop ← Outcome.orPanic "attempt to subtract with overflow"
    (usizeSub inputString.utf8ByteSize 1)
  let cut ← Outcome.orPanic "attempt to subtract with overflow"
    (usizeSub stop (suffixLengthChars suffixBytes))
  let truncated ← Outcome.orPanic "byte index is not a char boundary"
    (Utf8.slice inputString cut stop)
  let input ← decodeSuffix engine truncated
  let name ← Outcome.orPanic "byte index is not a char boundary" (Utf8.slice inputString 0 cut)
  let (natType, ip, port) ← readIpAndPort typeValue input
  let connectionDetails ← connectionDetailsOf natType ip port
  pure { connectionDetails, name }

/-! ### Panics -/

/-- The cut that `from_string` makes exists: the last character is no decimal digit, or it
is a digit below six and the string is long enough for its suffix, which starts at the
start of a character. -/
def CutsCleanly (s : String) : Prop :=
  ∀ last t, s.toList.getLast? = some last → parseU8 last = some t →
    ∃ n, suffixLengthBytes t = some n ∧ suffixLengthChars n + 1 ≤ s.utf8ByteSize ∧
      Utf8.IsBoundary s (s.utf8ByteSize - 1 - suffixLengthChars n)

private theorem parseU8_digit {c : Char} {t : Nat} (h : parseU8 c = some t) :
    t < 10 ∧ c = Nat.digitChar t := by
  unfold parseU8 at h
  split at h
  · next hc =>
    cases h
    obtain ⟨hlo, hhi⟩ := hc
    have hlo' : 48 ≤ c.toNat := hlo
    have hhi' : c.toNat ≤ 57 := hhi
    have ht : c.toNat - '0'.toNat = c.toNat - 48 := rfl
    rw [ht]
    refine ⟨by omega, ?_⟩
    have hc : c = Char.ofNat c.toNat := (Char.ofNat_toNat c).symm
    generalize c.toNat = n at hlo' hhi' hc
    interval_cases n <;> exact hc
  · cases h

private theorem digitChar_spec : ∀ t : Fin 10,
    parseU8 (Nat.digitChar t) = some t.val ∧ (Nat.digitChar t).utf8Size = 1 := by
  decide +kernel

private theorem append_last {s : String} {c : Char} (h : s.toList.getLast? = some c) :
    ∃ x, s = x ++ String.singleton c := by
  obtain ⟨l, hl⟩ := List.getLast?_eq_some_iff.mp h
  refine ⟨String.ofList l, ?_⟩
  apply String.ext
  simp [hl]

private theorem stop_boundary {s : String} {last : Char} {t : Nat}
    (hl : s.toList.getLast? = some last) (ht : parseU8 last = some t) :
    1 ≤ s.utf8ByteSize ∧ Utf8.IsBoundary s (s.utf8ByteSize - 1) := by
  obtain ⟨hlt, rfl⟩ := parseU8_digit ht
  obtain ⟨x, rfl⟩ := append_last hl
  have hsize := (digitChar_spec ⟨t, hlt⟩).2
  rw [String.utf8ByteSize_append, String.utf8ByteSize_singleton, hsize]
  refine ⟨by omega, Utf8.isBoundary_iff_split.mpr ⟨x, _, rfl, ?_⟩⟩
  rw [Utf8.length_encode, Nat.add_sub_cancel]

private theorem not_panicked_readPort (t : Nat) (input : Bytes) (stop : Nat) :
    ¬ Outcome.Panicked (readPort t input stop) := by
  unfold readPort
  split
  · exact Outcome.not_panicked_ok _
  · rw [Outcome.panicked_bind_iff]
    rintro (h | ⟨port, -, h⟩)
    · exact Outcome.not_panicked_okOr _ _ h
    · exact Outcome.not_panicked_ok _ h

private theorem not_panicked_readIpAndPort (t : Nat) (input : Bytes) :
    ¬ Outcome.Panicked (readIpAndPort t input) := by
  unfold readIpAndPort
  split
  all_goals
    rw [Outcome.panicked_bind_iff]
    rintro (h | ⟨bits, -, h⟩)
    · exact Outcome.not_panicked_okOr _ _ h
    rw [Outcome.panicked_bind_iff] at h
    obtain h | ⟨port, -, h⟩ := h
    · exact not_panicked_readPort _ _ _ h
    · exact Outcome.not_panicked_ok _ h

private theorem not_panicked_connectionDetailsOf (t : Nat) (ip : IpAddr) (port : Option UInt16) :
    ¬ Outcome.Panicked (connectionDetailsOf t ip port) := by
  unfold connectionDetailsOf
  split
  · rw [Outcome.panicked_bind_iff]
    rintro (h | ⟨p, -, h⟩)
    · exact Outcome.not_panicked_okOr _ _ h
    · exact Outcome.not_panicked_ok _ h
  · exact Outcome.not_panicked_ok _
  · rw [Outcome.panicked_bind_iff]
    rintro (h | ⟨p, -, h⟩)
    · exact Outcome.not_panicked_okOr _ _ h
    · exact Outcome.not_panicked_ok _ h
  · exact Outcome.not_panicked_error _

private theorem not_panicked_decodeSuffix (engine : Base64.NoPadCodec) (t : String) :
    ¬ Outcome.Panicked (decodeSuffix engine t) := by
  unfold decodeSuffix
  split
  · exact Outcome.not_panicked_ok _
  · exact Outcome.not_panicked_error _

/-- Parsing returns `Ok` or `Err` exactly when its cut exists; otherwise it panics. -/
theorem fromString_returns_iff (engine : Base64.NoPadCodec) (s : String) :
    ¬ Outcome.Panicked (fromString engine s) ↔ CutsCleanly s := by
  unfold fromString
  simp only [Outcome.panicked_bind_iff, Outcome.not_panicked_okOr, Outcome.okOr_eq_ok_iff,
    Outcome.panicked_orPanic, Outcome.orPanic_eq_ok_iff, not_panicked_decodeSuffix,
    not_panicked_readIpAndPort, not_panicked_connectionDetailsOf, false_or]
  constructor
  · intro hp last t hl ht
    obtain ⟨hpos, hstop⟩ := stop_boundary hl ht
    cases hn : suffixLengthBytes t with
    | none => exact False.elim (hp ⟨last, hl, t, ht, Or.inl hn⟩)
    | some n =>
      have hone : usizeSub s.utf8ByteSize 1 = some (s.utf8ByteSize - 1) := by
        simp [usizeSub, hpos]
      by_cases hlen : suffixLengthChars n ≤ s.utf8ByteSize - 1
      · have hcut : usizeSub (s.utf8ByteSize - 1) (suffixLengthChars n) =
            some (s.utf8ByteSize - 1 - suffixLengthChars n) := by
          simp [usizeSub, hlen]
        refine ⟨n, rfl, by omega, ?_⟩
        by_contra hb
        have hs : Utf8.slice s (s.utf8ByteSize - 1 - suffixLengthChars n)
            (s.utf8ByteSize - 1) = none := by
          simp [Utf8.slice, hb]
        exact hp ⟨last, hl, t, ht, Or.inr ⟨n, hn, Or.inr ⟨_, hone, Or.inr ⟨_, hcut, Or.inl hs⟩⟩⟩⟩
      · have hcut : usizeSub (s.utf8ByteSize - 1) (suffixLengthChars n) = none := by
          simp [usizeSub, hlen]
        exact False.elim
          (hp ⟨last, hl, t, ht, Or.inr ⟨n, hn, Or.inr ⟨_, hone, Or.inl hcut⟩⟩⟩)
  · rintro hc ⟨last, hl, t, ht, hrest⟩
    obtain ⟨n, hn, hlen, hb⟩ := hc last t hl ht
    obtain ⟨hpos, hstop⟩ := stop_boundary hl ht
    have hzero : Utf8.IsBoundary s 0 :=
      Utf8.isBoundary_iff_split.mpr ⟨"", s, by simp, rfl⟩
    rcases hrest with h | ⟨n', hn', h⟩
    · simp [hn] at h
    obtain rfl : n = n' := Option.some.inj (hn.symm.trans hn')
    rcases h with h | ⟨stop, hs, h⟩
    · simp [usizeSub, hpos] at h
    obtain rfl : s.utf8ByteSize - 1 = stop := by simpa [usizeSub, hpos] using hs
    rcases h with h | ⟨cut, hcut, h⟩
    · simp [usizeSub] at h
      omega
    have hle : suffixLengthChars n ≤ s.utf8ByteSize - 1 := by omega
    obtain rfl : s.utf8ByteSize - 1 - suffixLengthChars n = cut := by
      simpa [usizeSub, hle] using hcut
    rcases h with h | ⟨truncated, htr, input, hin, h⟩
    · have := Utf8.slice_isSome_iff.mpr ⟨Nat.sub_le _ _, hb, hstop⟩
      simp [h] at this
    rcases h with h | ⟨name, hname, ⟨natType, ip, port⟩, hread, details, hd, h⟩
    · have := Utf8.slice_isSome_iff.mpr ⟨Nat.zero_le _, hzero, hb⟩
      simp [h] at this
    · exact Outcome.not_panicked_ok _ h

/-- The text `6` panics instead of being refused as an unrecognised type value. -/
theorem fromString_six_panics :
    ¬ ∀ (engine : Base64.NoPadCodec) (s : String), ¬ Outcome.Panicked (fromString engine s) := by
  intro h
  exact h Base64.standard "6" ⟨"Bad type value", rfl⟩

/-! ### Round trips -/

private theorem typeValue_lt (details : PeerConnectionDetails) : typeValue details < 10 := by
  rcases details with (_ | _) | (_ | _) | (_ | _) <;>
    simp [typeValue, versionOffset, PeerConnectionDetails.ip, SocketAddr.ip]

/-- The digit of some details stands for exactly the number of bytes that are encoded. -/
theorem suffixLengthBytes_typeValue (details : PeerConnectionDetails) :
    suffixLengthBytes (typeValue details) = some (detailsBytes details).length := by
  rcases details with (_ | _) | (_ | _) | (_ | _) <;>
    simp [suffixLengthBytes, typeValue, versionOffset, detailsBytes, portBytes,
      PeerConnectionDetails.port, PeerConnectionDetails.ip, SocketAddr.ip, ipBytes]

private theorem beBytesBefore_tail (x y z : Bytes) (n : Nat) (hn : y.length = n) :
    beBytesBefore (x ++ (y ++ z)) ((x ++ (y ++ z)).length - z.length) n =
      some (Bytes.ofBe y) := by
  subst hn
  have hstop : (x ++ (y ++ z)).length - z.length = x.length + y.length := by
    simp only [List.length_append]
    omega
  rw [hstop, beBytesBefore, if_pos (Nat.le_add_left _ _), Nat.add_sub_cancel,
    ← List.append_assoc, ← List.length_append, List.take_left, List.drop_left]

private theorem beBytesBefore_last (x y : Bytes) (n : Nat) (hn : y.length = n) :
    beBytesBefore (x ++ y) (x ++ y).length n = some (Bytes.ofBe y) := by
  simpa using beBytesBefore_tail x y [] n hn

private theorem readPort_portBytes (natType : Nat) (port : Option UInt16) (tail : Bytes)
    (h : natType = 1 ↔ port = none) :
    readPort natType (portBytes port ++ tail) ((portBytes port ++ tail).length - tail.length) =
      .ok port := by
  cases port with
  | none => rw [readPort, if_pos (h.mpr rfl)]
  | some port =>
    have hne : natType ≠ 1 := fun he ↦ by cases h.mp he
    have hb := beBytesBefore_tail [] (Bytes.toBe 2 port.toNat) tail 2 (Bytes.length_toBe 2 _)
    rw [List.nil_append] at hb
    rw [readPort, if_neg hne, portBytes, hb, Bytes.ofBe_toBe 2 _ port.toNat_lt]
    simp [Outcome.okOr, bind, Except.bind, pure, Except.pure]

private theorem readIpAndPort_v4 (t : Nat) (bits : UInt32) (port : Option UInt16)
    (ht : t ≤ 2) (h : t = 1 ↔ port = none) :
    readIpAndPort t (portBytes port ++ ipBytes (.v4 bits)) = .ok (t, .v4 bits, port) := by
  have hl : (ipBytes (.v4 bits)).length = 4 := Bytes.length_toBe 4 _
  have hp := readPort_portBytes t port (ipBytes (.v4 bits)) h
  rw [hl] at hp
  rw [readIpAndPort, if_neg (by omega), beBytesBefore_last _ _ 4 hl, hp, ipBytes,
    Bytes.ofBe_toBe 4 _ bits.toNat_lt]
  simp [Outcome.okOr, bind, Except.bind, pure, Except.pure]

private theorem readIpAndPort_v6 (t : Nat) (bits : BitVec 128) (port : Option UInt16)
    (ht : 2 < t) (h : t - 3 = 1 ↔ port = none) :
    readIpAndPort t (portBytes port ++ ipBytes (.v6 bits)) = .ok (t - 3, .v6 bits, port) := by
  have hl : (ipBytes (.v6 bits)).length = 16 := Bytes.length_toBe 16 _
  have hp := readPort_portBytes (t - 3) port (ipBytes (.v6 bits)) h
  rw [hl] at hp
  rw [readIpAndPort, if_pos ht, beBytesBefore_last _ _ 16 hl, hp, ipBytes,
    Bytes.ofBe_toBe 16 _ bits.isLt]
  simp [Outcome.okOr, bind, Except.bind, pure, Except.pure]

/-- Reading the written bytes under the written digit gives the details back. -/
theorem read_detailsBytes (details : PeerConnectionDetails) (h : details.Unscoped) :
    ∃ natType ip port,
      readIpAndPort (typeValue details) (detailsBytes details) = .ok (natType, ip, port) ∧
        connectionDetailsOf natType ip port = .ok details := by
  rcases details with (⟨ip, port⟩ | ⟨ip, port, flow, scope⟩) |
    (⟨ip, port⟩ | ⟨ip, port, flow, scope⟩) | (ip | ip)
  · exact ⟨_, _, _, readIpAndPort_v4 0 ip (some port) (by decide) (by simp), rfl⟩
  · obtain ⟨rfl, rfl⟩ := h
    exact ⟨_, _, _, readIpAndPort_v6 3 ip (some port) (by decide) (by simp), rfl⟩
  · exact ⟨_, _, _, readIpAndPort_v4 2 ip (some port) (by decide) (by simp), rfl⟩
  · obtain ⟨rfl, rfl⟩ := h
    exact ⟨_, _, _, readIpAndPort_v6 5 ip (some port) (by decide) (by simp), rfl⟩
  · exact ⟨_, _, _, readIpAndPort_v4 1 ip none (by decide) (by simp), rfl⟩
  · exact ⟨_, _, _, readIpAndPort_v6 4 ip none (by decide) (by simp), rfl⟩

private theorem portBytes_read (x : Bytes) (h : x.length = 2) :
    portBytes (some (UInt16.ofNat (Bytes.ofBe x))) = x := by
  have hlt : Bytes.ofBe x < 2 ^ 16 := by
    have := Bytes.ofBe_lt x
    rwa [h] at this
  rw [portBytes, UInt16.toNat_ofNat', Nat.mod_eq_of_lt hlt, ← h, Bytes.toBe_ofBe]

private theorem ipBytes_v4_read (x : Bytes) (h : x.length = 4) :
    ipBytes (.v4 (UInt32.ofNat (Bytes.ofBe x))) = x := by
  have hlt : Bytes.ofBe x < 2 ^ 32 := by
    have := Bytes.ofBe_lt x
    rwa [h] at this
  rw [ipBytes, UInt32.toNat_ofNat', Nat.mod_eq_of_lt hlt, ← h, Bytes.toBe_ofBe]

private theorem ipBytes_v6_read (x : Bytes) (h : x.length = 16) :
    ipBytes (.v6 (BitVec.ofNat 128 (Bytes.ofBe x))) = x := by
  have hlt : Bytes.ofBe x < 2 ^ 128 := by
    have := Bytes.ofBe_lt x
    rwa [h] at this
  rw [ipBytes, BitVec.toNat_ofNat, Nat.mod_eq_of_lt hlt, ← h, Bytes.toBe_ofBe]

private theorem readPort_ok {natType stop : Nat} {input : Bytes} {port : Option UInt16}
    (hs : stop ≤ input.length) (hstop : stop = if natType = 1 then 0 else 2)
    (hr : readPort natType input stop = .ok port) :
    portBytes port = input.take stop ∧ (natType = 1 ↔ port = none) := by
  unfold readPort at hr
  split at hr
  · next h =>
    cases hr
    simp [portBytes, hstop, h]
  · next h =>
    rw [if_neg h] at hstop
    subst hstop
    obtain ⟨p, hp, hr⟩ := Outcome.bind_eq_ok_iff.mp hr
    cases hr
    rw [Outcome.okOr_eq_ok_iff, beBytesBefore, if_pos (Nat.le_refl 2)] at hp
    cases hp
    refine ⟨?_, by simp [h]⟩
    rw [Nat.sub_self, List.drop_zero]
    exact portBytes_read _ (by rw [List.length_take]; omega)

private theorem beBytesBefore_length {input : Bytes} {n v : Nat}
    (h : beBytesBefore input input.length n = some v) :
    n ≤ input.length ∧ v = Bytes.ofBe (input.drop (input.length - n)) := by
  unfold beBytesBefore at h
  split at h
  · next hn =>
    cases h
    exact ⟨hn, by rw [List.take_length]⟩
  · cases h

/-- Accepted bytes of the right length are the bytes of the port and IP address read. -/
theorem readIpAndPort_ok {t natType : Nat} {input : Bytes} {ip : IpAddr} {port : Option UInt16}
    (hlen : suffixLengthBytes t = some input.length)
    (hr : readIpAndPort t input = .ok (natType, ip, port)) :
    portBytes port ++ ipBytes ip = input ∧ (natType = 1 ↔ port = none) ∧
      t = natType + versionOffset ip := by
  unfold readIpAndPort at hr
  split at hr
  · next ht =>
    obtain ⟨bits, hb, hr⟩ := Outcome.bind_eq_ok_iff.mp hr
    obtain ⟨p, hp, hr⟩ := Outcome.bind_eq_ok_iff.mp hr
    cases hr
    obtain ⟨hn, rfl⟩ := beBytesBefore_length ((Outcome.okOr_eq_ok_iff _ _ _).mp hb)
    have hstop : input.length - 16 = if t - 3 = 1 then 0 else 2 := by
      unfold suffixLengthBytes at hlen
      split at hlen <;> simp_all <;> omega
    obtain ⟨hport, hnone⟩ := readPort_ok (Nat.sub_le _ _) hstop hp
    rw [hport, ipBytes_v6_read _ (by rw [List.length_drop]; omega), List.take_append_drop]
    exact ⟨rfl, hnone, by rw [versionOffset]; omega⟩
  · next ht =>
    obtain ⟨bits, hb, hr⟩ := Outcome.bind_eq_ok_iff.mp hr
    obtain ⟨p, hp, hr⟩ := Outcome.bind_eq_ok_iff.mp hr
    cases hr
    obtain ⟨hn, rfl⟩ := beBytesBefore_length ((Outcome.okOr_eq_ok_iff _ _ _).mp hb)
    have hstop : input.length - 4 = if t = 1 then 0 else 2 := by
      unfold suffixLengthBytes at hlen
      split at hlen <;> simp_all <;> omega
    obtain ⟨hport, hnone⟩ := readPort_ok (Nat.sub_le _ _) hstop hp
    rw [hport, ipBytes_v4_read _ (by rw [List.length_drop]; omega), List.take_append_drop]
    exact ⟨rfl, hnone, rfl⟩

private theorem socketAddrOf_spec (ip : IpAddr) (port : UInt16) :
    (socketAddrOf ip port).ip = ip ∧ (socketAddrOf ip port).port = port := by
  cases ip <;> exact ⟨rfl, rfl⟩

/-- The details built from an IP address and port are written as these. -/
theorem connectionDetailsOf_ok {natType : Nat} {ip : IpAddr} {port : Option UInt16}
    {details : PeerConnectionDetails} (hp : natType = 1 ↔ port = none)
    (hd : connectionDetailsOf natType ip port = .ok details) :
    detailsBytes details = portBytes port ++ ipBytes ip ∧
      typeValue details = natType + versionOffset ip := by
  unfold connectionDetailsOf at hd
  split at hd
  · obtain ⟨p, hport, hd⟩ := Outcome.bind_eq_ok_iff.mp hd
    rw [Outcome.okOr_eq_ok_iff] at hport
    cases hd
    obtain ⟨hip, hpo⟩ := socketAddrOf_spec ip p
    simp only [detailsBytes, typeValue, PeerConnectionDetails.ip, PeerConnectionDetails.port, hip,
      hpo, hport, true_and]
  · cases hd
    simp only [detailsBytes, typeValue, PeerConnectionDetails.ip, PeerConnectionDetails.port,
      hp.mp rfl, true_and]
  · obtain ⟨p, hport, hd⟩ := Outcome.bind_eq_ok_iff.mp hd
    rw [Outcome.okOr_eq_ok_iff] at hport
    cases hd
    obtain ⟨hip, hpo⟩ := socketAddrOf_spec ip p
    simp only [detailsBytes, typeValue, PeerConnectionDetails.ip, PeerConnectionDetails.port, hip,
      hpo, hport, true_and]
  · cases hd

private theorem getLast?_append_singleton (x : String) (c : Char) :
    (x ++ String.singleton c).toList.getLast? = some c := by
  simp

/-- Parsing a text form gives the announce address back, whatever its name. -/
theorem fromString_toText (engine : Base64.NoPadCodec) (a : AnnounceAddress)
    (h : a.connectionDetails.Unscoped) : fromString engine (toText engine a) = .ok a := by
  obtain ⟨details, name⟩ := a
  obtain ⟨natType, ip, port, hread, hdetails⟩ := read_detailsBytes details h
  obtain ⟨hparse, hsize⟩ := digitChar_spec ⟨typeValue details, typeValue_lt details⟩
  let encoded := engine.encode (detailsBytes details)
  let digit := String.singleton (Nat.digitChar (typeValue details))
  have henc : suffixLengthChars (detailsBytes details).length = (Utf8.encode encoded).length :=
    (engine.length_encode _).symm
  have hstop : usizeSub (name ++ encoded ++ digit).utf8ByteSize 1 =
      some ((Utf8.encode name).length + (Utf8.encode encoded).length) := by
    have hd : digit.utf8ByteSize = 1 := by rw [String.utf8ByteSize_singleton, hsize]
    simp [usizeSub, String.utf8ByteSize_append, Utf8.length_encode, hd]
  have hcut : usizeSub ((Utf8.encode name).length + (Utf8.encode encoded).length)
      (suffixLengthChars (detailsBytes details).length) = some (Utf8.encode name).length := by
    rw [henc]
    simp [usizeSub]
  have hname : Utf8.slice (name ++ encoded ++ digit) 0 (Utf8.encode name).length = some name := by
    rw [String.append_assoc]
    exact Utf8.slice_left name _
  have hdecode : decodeSuffix engine encoded = .ok (detailsBytes details) := by
    rw [decodeSuffix, engine.decode_encode]
  simp only [fromString, toText, Outcome.bind_eq_ok_iff, Outcome.okOr_eq_ok_iff,
    Outcome.orPanic_eq_ok_iff]
  exact ⟨_, getLast?_append_singleton _ _, _, hparse, _, suffixLengthBytes_typeValue details,
    _, hstop, _, hcut, _, Utf8.slice_middle name encoded digit, _, hdecode, _, hname,
    ⟨natType, ip, port⟩, hread, _, hdetails, rfl⟩

/-- An accepted text is the text form of what it was parsed to. -/
theorem toText_of_fromString (engine : Base64.NoPadCodec) (s : String) (a : AnnounceAddress)
    (h : fromString engine s = .ok a) : toText engine a = s := by
  simp only [fromString, Outcome.bind_eq_ok_iff, Outcome.okOr_eq_ok_iff,
    Outcome.orPanic_eq_ok_iff] at h
  obtain ⟨last, hlast, t, hparse, n, hn, stop, hstop, cut, hcut, truncated, htr, input, hin,
    name, hname, ⟨natType, ip, port⟩, hread, details, hdetails, h⟩ := h
  cases h
  obtain ⟨hlt, rfl⟩ := parseU8_digit hparse
  obtain ⟨x, rfl⟩ := append_last hlast
  have hdigit := (digitChar_spec ⟨t, hlt⟩).2
  obtain ⟨hstop', rfl⟩ : (Utf8.encode x).length = stop ∧ stop - suffixLengthChars n = cut := by
    simp only [usizeSub, String.utf8ByteSize_append, String.utf8ByteSize_singleton, hdigit,
      Nat.add_sub_cancel] at hstop hcut
    split at hstop
    · cases hstop
      split at hcut
      · cases hcut
        exact ⟨Utf8.length_encode x, rfl⟩
      · cases hcut
    · cases hstop
  subst hstop'
  have hchars : suffixLengthChars n ≤ (Utf8.encode x).length := by
    unfold usizeSub at hcut
    split at hcut
    · assumption
    · cases hcut
  -- Name and base64 part are the two pieces of everything before the digit.
  have hbname := Utf8.encode_slice hname
  have hbtr := Utf8.encode_slice htr
  rw [Utf8.encode_append, List.drop_zero, Nat.sub_zero, List.take_append_of_le_length
    (Nat.sub_le _ _)] at hbname
  rw [Utf8.encode_append, List.drop_append_of_le_length (Nat.sub_le _ _),
    List.take_append_of_le_length (by rw [List.length_drop]), ← List.length_drop,
    List.take_length] at hbtr
  have hx : name ++ truncated = x := by
    apply Utf8.encode_inj.mp
    rw [Utf8.encode_append, hbname, hbtr, List.take_append_drop]
  have henc : engine.encode input = truncated := by
    unfold decodeSuffix at hin
    split at hin
    · next he =>
      cases hin
      exact engine.encode_of_decode _ _ he
    · cases hin
  have hlen : n = input.length := by
    have hl := engine.length_encode input
    rw [henc, hbtr, List.length_drop] at hl
    unfold suffixLengthChars at hl hchars
    omega
  subst hlen
  obtain ⟨hinput, hnone, ht⟩ := readIpAndPort_ok hn hread
  obtain ⟨hbytes, htype⟩ := connectionDetailsOf_ok hnone hdetails
  rw [toText, hbytes, hinput, henc, htype, ← ht, hx]

/-- Writing and parsing are mutually inverse on all names, NAT types and unscoped addresses,
and no two texts are parsed to one announce address. -/
theorem text_form_inverse (engine : Base64.NoPadCodec) :
    (∀ a : AnnounceAddress, a.connectionDetails.Unscoped →
      fromString engine (toText engine a) = .ok a) ∧
    (∀ s a, fromString engine s = .ok a → toText engine a = s) ∧
    (∀ s t a, fromString engine s = .ok a → fromString engine t = .ok a → s = t) := by
  refine ⟨fromString_toText engine, toText_of_fromString engine, ?_⟩
  intro s t a hs ht
  rw [← toText_of_fromString engine s a hs, toText_of_fromString engine t a ht]

/-- The standard engine on an IPv6 address without NAT, both ways. -/
theorem text_form_inverse_foobar :
    fromString Base64.standard (toText Base64.standard
      ⟨.noNat (.v6 0x20010db885a3000000008a2e03707334 443 0 0), "foobar"⟩) =
        .ok ⟨.noNat (.v6 0x20010db885a3000000008a2e03707334 443 0 0), "foobar"⟩ ∧
    toText Base64.standard ⟨.noNat (.v4 0x593a0d94 51080), "bathypelagicKomodoDragon"⟩ =
      "bathypelagicKomodoDragonx4hZOg2U0" :=
  ⟨(text_form_inverse Base64.standard).1 _ ⟨rfl, rfl⟩,
    (text_form_inverse Base64.standard).2.1 _ _ (by rfl)⟩

end AnnounceAddress

end HarddriveParty
