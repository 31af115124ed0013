import HarddriveParty.Connections.Model
import HarddriveParty.Streams.LsResponses

/-!
# The size of requests

Model of how a node sends a request, and of how `accept_incoming_request`
(`src/connections/mod.rs`) reads it at the other end. A message above the limit ends the loop
over the requests of the connection, so the length of a path decides whether it can be asked
for.
-/

namespace HarddriveParty

open Bincode

/-! ### The asking node -/

/-- The message of `make_read_request` (`src/peer.rs:349`). -/
def Peer.makeReadRequest (requestedFile : RequestedFile) (start : Option UInt64) : Bytes :=
  Request.serialize (.read ⟨requestedFile.path, start, none⟩)

/-- The message of the query in `SharedState::download` (`src/lib.rs:239`). -/
def SharedState.lsRequest (peerPath : PeerPath) : Bytes :=
  Request.serialize (.ls ⟨some peerPath.path, none, true⟩)

/-! ### The serving node -/

/-- The maximum number of bytes a request message may be (`src/connections/mod.rs:45`). -/
def maxRequestSize : Nat := 1024

/-- `read_to_end`: all bytes up to the end of the stream, if they are not too many. -/
def Quinn.RecvStream.readToEnd (sizeLimit : Nat) (s : Quinn.RecvStream) : Except String Bytes :=
  if sizeLimit < s.received.length then .error "stream too long"
  else if s.lost then .error "read error"
  else .ok s.received

/-- Accept an incoming request on a QUIC connection, and read the request message
(`src/connections/mod.rs:688`). The argument is what `accept_bi` gives. -/
def acceptIncomingRequest (accepted : Except String Quinn.RecvStream) : Except String Bytes :=
  accepted.bind (Quinn.RecvStream.readToEnd maxRequestSize)

/-- A message that arrives in full is accepted unless it is too long. -/
theorem acceptIncomingRequest_ok (pieces : List Bytes) :
    acceptIncomingRequest (.ok ⟨pieces, false⟩) =
      if pieces.flatten.length ≤ maxRequestSize then .ok pieces.flatten
      else .error "stream too long" := by
  rw [acceptIncomingRequest, Except.bind, Quinn.RecvStream.readToEnd]
  by_cases hlen : pieces.flatten.length ≤ maxRequestSize
  · rw [if_pos hlen]
    exact if_neg (Nat.not_lt.mpr hlen)
  · rw [if_neg hlen]
    exact if_pos (Nat.not_le.mp hlen)

namespace HandleConnection

/-- What a pass of the request loop (`src/connections/mod.rs:486`) means for the connection: an
error ends the loop, and of the requests only an announcement changes the node. -/
def incomingRequest (errorText : Bytes → String) (accepted : Except String Quinn.RecvStream) :
    Answer :=
  match acceptIncomingRequest accepted with
  | .error err => .acceptError err
  | .ok buf =>
    match Request.deserialize errorText buf with
    | .ok (.announcePeer announce) => .announcePeer announce.announceAddress
    | .ok (.ls _) | .ok (.read _) => .ok
    | .error _ => .ok -- Cannot decode wire message

/-- A message that arrives in full keeps the loop going exactly when it is not too long. -/
theorem next_incomingRequest (h : HandleConnection) (node : NodeState)
    (errorText : Bytes → String) (pieces : List Bytes) :
    (h.next node (incomingRequest errorText (.ok ⟨pieces, false⟩)) .accept).2 =
      if pieces.flatten.length ≤ maxRequestSize then .accept else .cleanUp "stream too long" := by
  rw [incomingRequest, acceptIncomingRequest_ok]
  by_cases hlen : pieces.flatten.length ≤ maxRequestSize
  · rw [if_pos hlen, if_pos hlen]
    simp only
    split
    · next announce _ =>
      rw [next, accept]
      split <;> rfl
    · rfl
    · rfl
    · rfl
  · rw [if_neg hlen, if_neg hlen]
    rfl

end HandleConnection

/-! ### Which paths can be asked for -/

/-- The message is within the limit, so that the serving node accepts it, however it arrives,
and keeps the connection. -/
def Acceptable (message : Bytes) : Prop :=
  message.length ≤ maxRequestSize ∧
    ∀ (h : HandleConnection) (node : NodeState) (errorText : Bytes → String)
      (pieces : List Bytes), pieces.flatten = message →
      acceptIncomingRequest (.ok ⟨pieces, false⟩) = .ok message ∧
      (h.next node (HandleConnection.incomingRequest errorText (.ok ⟨pieces, false⟩))
        .accept).2 = .accept

/-- The limit alone decides. -/
theorem acceptable_iff (message : Bytes) :
    Acceptable message ↔ message.length ≤ maxRequestSize := by
  constructor
  · exact And.left
  · intro hlen
    refine ⟨hlen, ?_⟩
    rintro h node errorText pieces rfl
    constructor
    · rw [acceptIncomingRequest_ok, if_pos hlen]
    · rw [HandleConnection.next_incomingRequest, if_pos hlen]

/-- A read request is 14 bytes longer than its path, and eight more with a start offset. -/
theorem length_makeReadRequest (requestedFile : RequestedFile) (start : Option UInt64) :
    (Peer.makeReadRequest requestedFile start).length =
      (Utf8.encode requestedFile.path).length + 14 + if start.isSome then 8 else 0 := by
  cases start with
  | none =>
    simp [Peer.makeReadRequest, Request.serialize, Codec.request, Codec.readQuery,
      Variants.format, Variants.cons, Format.iso, Format.seq, Format.option]
    omega
  | some offset =>
    simp [Peer.makeReadRequest, Request.serialize, Codec.request, Codec.readQuery,
      Variants.format, Variants.cons, Format.iso, Format.seq, Format.option, Format.u64]
    omega

/-- The query of a download is 15 bytes longer than its path. -/
theorem length_lsRequest (peerPath : PeerPath) :
    (SharedState.lsRequest peerPath).length = (Utf8.encode peerPath.path).length + 15 := by
  simp [SharedState.lsRequest, Request.serialize, Codec.request, Codec.indexQuery,
    Variants.format, Variants.cons, Format.iso, Format.seq, Format.option, Format.bool]
  omega

/-- Both requests for a path are acceptable exactly when the path is at most 1009 bytes long,
or at most 1002 bytes for a download that is resumed. -/
theorem acceptable_requests_iff (requestedFile : RequestedFile) (start : Option UInt64)
    (peerName : String) :
    Acceptable (Peer.makeReadRequest requestedFile start) ∧
        Acceptable (SharedState.lsRequest ⟨peerName, requestedFile.path⟩) ↔
      (Utf8.encode requestedFile.path).length ≤ if start.isSome then 1002 else 1009 := by
  rw [acceptable_iff, acceptable_iff, length_makeReadRequest, length_lsRequest, maxRequestSize]
  cases start with
  | none =>
    simp only [Option.isSome_none, Bool.false_eq_true, if_false]
    omega
  | some offset =>
    simp only [Option.isSome_some, if_true]
    omega

/-- A peer can list the path: an answer with an entry of this name is within the limit for the
messages of an answer. -/
def Listable (path : String) : Prop :=
  path ≠ "" ∧ ∃ entries, (∃ entry ∈ entries, entry.name = path) ∧
    (Codec.lsResponse.write (.success entries)).length ≤ maxLengthPrefixMessageSize

/-- The path of a file in so many directories within each other. -/
def nestedPath : Nat → String
  | 0 => "f"
  | depth + 1 => "directory/" ++ nestedPath depth

private theorem length_nestedPath (depth : Nat) :
    (Utf8.encode (nestedPath depth)).length = 10 * depth + 1 := by
  induction depth with
  | zero => rfl
  | succ depth ih =>
    have hdirectory : (Utf8.encode "directory/").length = 10 := by decide
    rw [nestedPath, Utf8.encode_append, List.length_append, ih, hdirectory]
    omega

/-- A file in 101 directories can be listed, and cannot be asked for. -/
theorem not_acceptable_nestedPath :
    ¬ ∀ (requestedFile : RequestedFile) (start : Option UInt64) (peerName : String),
      Listable requestedFile.path →
      Acceptable (Peer.makeReadRequest requestedFile start) ∧
        Acceptable (SharedState.lsRequest ⟨peerName, requestedFile.path⟩) := by
  intro hall
  obtain ⟨path, hlen⟩ : ∃ path, (Utf8.encode path).length = 1011 :=
    ⟨nestedPath 101, length_nestedPath 101⟩
  have hlistable : Listable path := by
    refine ⟨?_, [⟨path, 0, false⟩], ⟨_, List.mem_cons_self, rfl⟩, ?_⟩
    · intro h
      rw [h, Utf8.encode_empty] at hlen
      cases hlen
    · simp [Codec.lsResponse, Codec.entry, Variants.format, Variants.cons, Format.iso, Format.seq,
        Format.list, Format.u64, Format.bool, hlen, maxLengthPrefixMessageSize]
  have h := hall ⟨path, 0, 0, false⟩ none "n" hlistable
  have hread := (acceptable_iff _).mp h.1
  rw [length_makeReadRequest, hlen] at hread
  exact absurd hread (by decide)

end HarddriveParty
