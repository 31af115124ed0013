import HarddriveParty.Base.Bincode
import HarddriveParty.Shared.UiMessages
import HarddriveParty.Shared.WireMessages

/-!
# The binary form of the messages

The formats behind `serialize` and `deserialize` of `shared/src/codec.rs` for the messages
between nodes and the streamed answers to the UI. The tag of a variant is its place in the
source's declaration.
-/

namespace HarddriveParty

open Bincode

namespace Codec

/-! ### Answers to index queries -/

/-- `Entry`. -/
def entry : Format Entry :=
  (Format.string.seq (Format.u64.seq Format.bool)).iso
    (fun p ↦ ⟨p.1, p.2.1, p.2.2⟩) (fun e ↦ (e.name, e.size, e.isDir)) (fun _ ↦ rfl)

theorem entry_pos (e : Entry) : 0 < (entry.write e).length := by
  simp only [entry, Format.iso, Format.seq, List.length_append, Format.length_string_write]
  omega

/-- `LsResponseError`. -/
def lsResponseError : Format LsResponseError :=
  ((Variants.cons .unit (.cons .unit (.last .string))).format (by decide)).iso
    (fun
      | .inl _ => .dbError
      | .inr (.inl _) => .pathNotFound
      | .inr (.inr message) => .internalServer message)
    (fun
      | .dbError => .inl ()
      | .pathNotFound => .inr (.inl ())
      | .internalServer message => .inr (.inr message))
    (fun e ↦ by cases e <;> rfl)

/-- `LsResponse`. -/
def lsResponse : Format LsResponse :=
  ((Variants.cons (.list entry entry_pos) (.last lsResponseError)).format (by decide)).iso
    (fun
      | .inl entries => .success entries
      | .inr e => .err e)
    (fun
      | .success entries => .inl entries
      | .err e => .inr e)
    (fun r ↦ by cases r <;> rfl)

/-! ### Results for the UI -/

/-- `AnnounceAddressDecodeError`. -/
def announceAddressDecodeError : Format AnnounceAddressDecodeError :=
  ((Variants.cons .unit (.cons .unit (.cons .unit (.cons .string (.last .unit))))).format
      (by decide)).iso
    (fun
      | .inl _ => .badLength
      | .inr (.inl _) => .unrecognizedTypeValue
      | .inr (.inr (.inl _)) => .parseInt
      | .inr (.inr (.inr (.inl text))) => .base64 text
      | .inr (.inr (.inr (.inr _))) => .noPort)
    (fun
      | .badLength => .inl ()
      | .unrecognizedTypeValue => .inr (.inl ())
      | .parseInt => .inr (.inr (.inl ()))
      | .base64 text => .inr (.inr (.inr (.inl text)))
      | .noPort => .inr (.inr (.inr (.inr ()))))
    (fun e ↦ by cases e <;> rfl)

/-- `UiServerError`. -/
def uiServerError : Format UiServerError :=
  ((Variants.cons .string (.cons .string (.cons .string (.cons .string (.cons .string
      (.cons .unit (.cons .string (.cons .string
        (.last announceAddressDecodeError))))))))).format (by decide)).iso
    (fun
      | .inl message => .connectionError message
      | .inr (.inl message) => .requestError message
      | .inr (.inr (.inl message)) => .shareError message
      | .inr (.inr (.inr (.inl message))) => .serialization message
      | .inr (.inr (.inr (.inr (.inl message)))) => .peerDiscovery message
      | .inr (.inr (.inr (.inr (.inr (.inl _))))) => .poison
      | .inr (.inr (.inr (.inr (.inr (.inr (.inl message)))))) => .db message
      | .inr (.inr (.inr (.inr (.inr (.inr (.inr (.inl message))))))) => .addShare message
      | .inr (.inr (.inr (.inr (.inr (.inr (.inr (.inr e))))))) => .announceAddressDecode e)
    (fun
      | .connectionError message => .inl message
      | .requestError message => .inr (.inl message)
      | .shareError message => .inr (.inr (.inl message))
      | .serialization message => .inr (.inr (.inr (.inl message)))
      | .peerDiscovery message => .inr (.inr (.inr (.inr (.inl message))))
      | .poison => .inr (.inr (.inr (.inr (.inr (.inl ())))))
      | .db message => .inr (.inr (.inr (.inr (.inr (.inr (.inl message))))))
      | .addShare message => .inr (.inr (.inr (.inr (.inr (.inr (.inr (.inl message)))))))
      | .announceAddressDecode e => .inr (.inr (.inr (.inr (.inr (.inr (.inr (.inr e))))))))
    (fun e ↦ by cases e <;> rfl)

/-- `Result<T, UiServerError>`. -/
def uiResult {α : Type} (format : Format α) : Format (Except UiServerError α) :=
  ((Variants.cons format (.last uiServerError)).format (by
      simp only [Variants.cons, Variants.last]
      decide)).iso
    (fun
      | .inl a => .ok a
      | .inr e => .error e)
    (fun
      | .ok a => .inl a
      | .error e => .inr e)
    (fun r ↦ by cases r <;> rfl)

/-! ### Requests -/

/-- `IndexQuery`. -/
def indexQuery : Format IndexQuery :=
  ((Format.option .string).seq ((Format.option .string).seq .bool)).iso
    (fun p ↦ ⟨p.1, p.2.1, p.2.2⟩) (fun q ↦ (q.path, q.searchterm, q.recursive)) (fun _ ↦ rfl)

/-- `ReadQuery`. -/
def readQuery : Format ReadQuery :=
  (Format.string.seq ((Format.option .u64).seq (.option .u64))).iso
    (fun p ↦ ⟨p.1, p.2.1, p.2.2⟩) (fun q ↦ (q.path, q.start, q.endOffset)) (fun _ ↦ rfl)

/-- `IpAddr`: the octets behind a tag. -/
def ipAddr : Format IpAddr :=
  ((Variants.cons
      (.fixed 4 (fun bits : UInt32 ↦ Bytes.toBe 4 bits.toNat)
        (fun b ↦ UInt32.ofNat (Bytes.ofBe b)) (fun _ ↦ Bytes.length_toBe 4 _) (by
          intro bits
          have hbits : bits.toNat < 256 ^ 4 := bits.toNat_lt
          rw [Bytes.ofBe_toBe 4 _ hbits, UInt32.ofNat_toNat]))
      (.last (.fixed 16 (fun bits : BitVec 128 ↦ Bytes.toBe 16 bits.toNat)
        (fun b ↦ BitVec.ofNat 128 (Bytes.ofBe b)) (fun _ ↦ Bytes.length_toBe 16 _) (by
          intro bits
          have hbits : bits.toNat < 256 ^ 16 := bits.isLt
          rw [Bytes.ofBe_toBe 16 _ hbits, BitVec.ofNat_toNat, BitVec.setWidth_eq])))).format
      (by decide)).iso
    (fun
      | .inl bits => .v4 bits
      | .inr bits => .v6 bits)
    (fun
      | .v4 bits => .inl bits
      | .v6 bits => .inr bits)
    (fun a ↦ by cases a <;> rfl)

/-- `SocketAddr`: its IP address and port. The flow label and the scope id are not written. -/
def socketAddr : Format (IpAddr × UInt16) := ipAddr.seq .u16

/-- `AnnounceAddress` as it is written: one of the three kinds of details, and the name. -/
def announceAddress :
    Format (((IpAddr × UInt16) ⊕ (IpAddr × UInt16) ⊕ IpAddr) × String) :=
  ((Variants.cons socketAddr (.cons socketAddr (.last ipAddr))).format (by decide)).seq .string

/-- `Request` as it is written. -/
def request : Format (IndexQuery ⊕ ReadQuery ⊕
    (((IpAddr × UInt16) ⊕ (IpAddr × UInt16) ⊕ IpAddr) × String)) :=
  (Variants.cons indexQuery (.cons readQuery (.last announceAddress))).format (by decide)

end Codec

/-- A socket address that has been read. -/
def SocketAddr.ofIpPort : IpAddr × UInt16 → SocketAddr
  | (.v4 bits, port) => .v4 bits port
  | (.v6 bits, port) => .v6 bits port 0 0

namespace Request

/-- `serialize` of a request. -/
def serialize (r : Request) : Bytes :=
  Codec.request.write (match r with
    | ls query => .inl query
    | read query => .inr (.inl query)
    | announcePeer ⟨⟨details, name⟩⟩ => .inr (.inr (match details with
      | .noNat addr => .inl (addr.ip, addr.port)
      | .asymmetric addr => .inr (.inl (addr.ip, addr.port))
      | .symmetric ip => .inr (.inr ip), name)))

/-- `deserialize` to a request. The text of an error is the binary decoder's. -/
def deserialize (errorText : Bytes → String) (b : Bytes) : Except String Request :=
  ((Codec.request.codec errorText).deserialize b).map fun
    | .inl query => ls query
    | .inr (.inl query) => read query
    | .inr (.inr (details, name)) => announcePeer ⟨⟨match details with
      | .inl addr => .noNat (SocketAddr.ofIpPort addr)
      | .inr (.inl addr) => .asymmetric (SocketAddr.ofIpPort addr)
      | .inr (.inr ip) => .symmetric ip, name⟩⟩

end Request

end HarddriveParty
