import HarddriveParty.Base.Frames
import HarddriveParty.Base.Polling
import HarddriveParty.Shared.Codec
import HarddriveParty.Shares.Query
import HarddriveParty.Transfer.Upload

/-!
# Answers to index queries between nodes

Model of both ends of an index query: what `Rpc::ls` (`src/connections/rpc.rs`) writes on the
stream, and `process_length_prefix` (`src/lib.rs`), which reads the stream of the peer. The
pieces in which bytes arrive, and how the stream stops, are inputs.
-/

namespace HarddriveParty

open Bincode Polling

/-! ### The answering node -/

/-- The message of an `RpcError`. -/
def RpcError.text : RpcError → String
  | dbError => "Db error"
  | pathNotFound => "Path not found"
  | badOffset => "Bad offset"
  | readError => "Read error"
  | writeError => "Write error"
  | serializeError => "serialize error"
  | channelClosed => "Channel closed"
  | u64ConvertError => "Cannot convert to u64"
  | closedStream => "Attempted to close an already closed stream"

namespace Rpc

variable (codec : Codec LsResponse)

/-- The loop of `Rpc::ls` (`src/connections/rpc.rs:202`): the bytes that it writes for the
responses of a query, and how it ends. The writes to the stream succeed. -/
def writeResponses : List LsResponse → Bytes × Except RpcError Unit
  | [] => ([], .ok ())
  | res :: rest =>
    let buf := codec.serialize res
    if buf.length < 2 ^ 32 then
      -- Write the length prefix
      let (written, outcome) := writeResponses rest
      (Bytes.beU32 (UInt32.ofNat buf.length) ++ buf ++ written, outcome)
    else ([], .error .u64ConvertError)

/-- Send an error response to an LS query (`src/connections/rpc.rs:420`). -/
def sendLsError (error : RpcError) : Bytes × Except RpcError Unit :=
  match writeResponses codec [.err (.internalServer error.text)] with
  | (written, .ok _) => (written, .error error)
  | (written, .error e) => (written, .error e)

/-- Query the filepath index (`src/connections/rpc.rs:193`). -/
def ls (toLowercase : String → String) (shares : Shares) (path searchterm : Option String)
    (recursive : Bool) : Bytes × Except RpcError Unit :=
  match shares.query toLowercase path searchterm recursive with
  | .ok responses => writeResponses codec responses
  | .error .pathNotFound => sendLsError codec .pathNotFound

/-- Responses that fit their length prefix are written as frames. -/
theorem writeResponses_eq {responses : List LsResponse}
    (hfits : ∀ r ∈ responses, Frames.Fits (codec.serialize r)) :
    writeResponses codec responses =
      (Frames.stream (responses.map codec.serialize), .ok ()) := by
  induction responses with
  | nil => rfl
  | cons r rest ih =>
    have hr : (codec.serialize r).length < 2 ^ 32 := hfits r (by simp)
    rw [writeResponses, if_pos hr, ih fun q hq ↦ hfits q (by simp [hq])]
    rfl

end Rpc

/-! ### The asking node -/

namespace Quinn

/-- Why a read of a fixed number of bytes fails. -/
inductive ReadExactError where
  | finishedEarly
  | readError
  deriving DecidableEq, Repr

/-- The receiving end of a stream: the pieces in which bytes arrive, and whether the stream is
lost after them instead of finished. -/
structure RecvStream where
  pieces : List Bytes
  lost : Bool

namespace RecvStream

/-- The bytes that arrive. -/
def received (s : RecvStream) : Bytes := s.pieces.flatten

/-- Take so many bytes from the pieces, if there are as many. -/
def takePieces : Nat → List Bytes → Option (Bytes × List Bytes)
  | 0, pieces => some ([], pieces)
  | _ + 1, [] => none
  | n + 1, piece :: rest =>
    if n + 1 ≤ piece.length then some (piece.take (n + 1), piece.drop (n + 1) :: rest)
    else (takePieces (n + 1 - piece.length) rest).map fun p ↦ (piece ++ p.1, p.2)

/-- `read_exact` with a buffer of `n` bytes. -/
def readExact (n : Nat) (s : RecvStream) : Except ReadExactError (Bytes × RecvStream) :=
  match takePieces n s.pieces with
  | some (buf, pieces) => .ok (buf, { s with pieces := pieces })
  | none => .error (if s.lost then .readError else .finishedEarly)

private theorem takePieces_spec (n : Nat) (pieces : List Bytes) :
    if n ≤ pieces.flatten.length then
      ∃ rest, takePieces n pieces = some (pieces.flatten.take n, rest) ∧
        rest.flatten = pieces.flatten.drop n
    else takePieces n pieces = none := by
  induction pieces generalizing n with
  | nil =>
    cases n with
    | zero => exact ⟨[], rfl, rfl⟩
    | succ n => rfl
  | cons piece rest ih =>
    cases n with
    | zero =>
      rw [if_pos (Nat.zero_le _)]
      exact ⟨piece :: rest, rfl, rfl⟩
    | succ n =>
      rw [takePieces, List.flatten_cons, List.length_append]
      by_cases hpiece : n + 1 ≤ piece.length
      · rw [if_pos (by omega), if_pos hpiece]
        refine ⟨piece.drop (n + 1) :: rest, ?_, ?_⟩
        · rw [List.take_append_of_le_length hpiece]
        · rw [List.flatten_cons, List.drop_append_of_le_length hpiece]
      · have hsub : n + 1 = piece.length + (n + 1 - piece.length) := by omega
        rw [if_neg hpiece]
        have hrest := ih (n + 1 - piece.length)
        by_cases hle : n + 1 - piece.length ≤ rest.flatten.length
        · rw [if_pos hle] at hrest
          obtain ⟨tail, htake, hdrop⟩ := hrest
          rw [if_pos (by omega)]
          refine ⟨tail, ?_, ?_⟩
          · rw [htake, Option.map_some]
            conv_rhs => rw [hsub, List.take_length_add_append]
          · conv_rhs => rw [hsub, List.drop_length_add_append]
            exact hdrop
        · rw [if_neg hle] at hrest
          rw [if_neg (by omega), hrest, Option.map_none]

/-- With enough bytes the next ones are read. -/
theorem readExact_of_le {n : Nat} {s : RecvStream} (h : n ≤ s.received.length) :
    ∃ rest, s.readExact n = .ok (s.received.take n, rest) ∧
      rest.received = s.received.drop n := by
  have hspec := takePieces_spec n s.pieces
  rw [if_pos (show n ≤ s.pieces.flatten.length from h)] at hspec
  obtain ⟨pieces, htake, hdrop⟩ := hspec
  exact ⟨{ s with pieces := pieces }, by rw [readExact, htake]; rfl, hdrop⟩

/-- With too few bytes the read fails. -/
theorem readExact_of_lt {n : Nat} {s : RecvStream} (h : s.received.length < n) :
    ∃ e, s.readExact n = .error e := by
  have hspec := takePieces_spec n s.pieces
  rw [if_neg (show ¬ n ≤ s.pieces.flatten.length from Nat.not_le.mpr h)] at hspec
  exact ⟨_, by rw [readExact, hspec]⟩

end RecvStream

end Quinn

/-- Maximum allowed payload size for a single length-prefixed peer message
(`src/lib.rs:45`). -/
def maxLengthPrefixMessageSize : Nat := 1024 * 1024

/-- The stream that `process_length_prefix` returns: the stream it reads, unless it has
ended. -/
structure LsResponseStream where
  recv : Quinn.RecvStream
  done : Bool

/-- Process responses from a remote peer that are prefixed with their length in bytes
(`src/lib.rs:347`). -/
def processLengthPrefix (recv : Quinn.RecvStream) : LsResponseStream := ⟨recv, false⟩

namespace LsResponseStream

variable (codec : Codec LsResponse)

/-- The error about a message that is too large. -/
def tooLarge (length : Nat) : String :=
  "Message too large: " ++ toString length ++ " > " ++ toString maxLengthPrefixMessageSize

/-- The next item: one pass of the loop of `process_length_prefix`. An error is an item and
the last one. -/
def next (s : LsResponseStream) : Option (Except String LsResponse) × LsResponseStream :=
  if s.done then (none, s)
  else
    let ended := { s with done := true }
    match s.recv.readExact 4 with
    | .error _ => (none, ended)
    | .ok (lengthBuf, recv) =>
      let length := Bytes.ofBe lengthBuf
      if maxLengthPrefixMessageSize < length then (some (.error (tooLarge length)), ended)
      else
        -- Read a message
        match recv.readExact length with
        | .ok (msgBuf, recv) =>
          match codec.deserialize msgBuf with
          | .ok lsResponse => (some (.ok lsResponse), ⟨recv, false⟩)
          | .error err => (some (.error err), ended)
        | .error _ => (none, ended) -- Bad prefix / read error

/-- `poll_next`; the waits for the stream of the peer are left out. -/
def pollNext (s : LsResponseStream) : Poll (Except String LsResponse) × LsResponseStream :=
  (.ready (s.next codec).1, (s.next codec).2)

variable {s : LsResponseStream}

/-! ### One item -/

/-- Too little has arrived for a length, or for the message that an allowed length announces. -/
def Stops (b : Bytes) : Prop :=
  b.length < 4 ∨ Frames.announced b ≤ maxLengthPrefixMessageSize ∧ b.length < 4 + Frames.announced b

/-- What has arrived then is no complete message. -/
theorem Stops.splitFirst_eq_none {b : Bytes} (h : Stops b) : Frames.splitFirst b = none := by
  rw [Frames.splitFirst, if_neg]
  rintro ⟨hfour, hlong⟩
  rcases h with hshort | ⟨-, hshort⟩ <;> omega

/-- With no complete message the stream ends. -/
theorem next_of_stops (hdone : s.done = false) (h : Stops s.recv.received) :
    (s.next codec).1 = none := by
  rw [next, if_neg (by simp [hdone])]
  rcases h with hshort | ⟨hmax, hshort⟩
  · obtain ⟨e, he⟩ := Quinn.RecvStream.readExact_of_lt hshort
    simp only [he]
  · by_cases hfour : 4 ≤ s.recv.received.length
    · obtain ⟨recv, hread, hrest⟩ := Quinn.RecvStream.readExact_of_le hfour
      have hlt : recv.received.length < Frames.announced s.recv.received := by
        rw [hrest, List.length_drop]
        omega
      obtain ⟨e, he⟩ := Quinn.RecvStream.readExact_of_lt hlt
      have hle : ¬ maxLengthPrefixMessageSize < Bytes.ofBe (s.recv.received.take 4) :=
        Nat.not_lt.mpr hmax
      have he' : recv.readExact (Bytes.ofBe (s.recv.received.take 4)) = .error e := he
      simp only [hread, if_neg hle, he']
    · obtain ⟨e, he⟩ := Quinn.RecvStream.readExact_of_lt (Nat.not_le.mp hfour)
      simp only [he]

/-- A length above the limit is an error, behind which the stream ends. -/
theorem next_of_tooLarge (hdone : s.done = false) (hfour : 4 ≤ s.recv.received.length)
    (h : maxLengthPrefixMessageSize < Frames.announced s.recv.received) :
    s.next codec =
      (some (.error (tooLarge (Frames.announced s.recv.received))), { s with done := true }) := by
  obtain ⟨recv, hread, -⟩ := Quinn.RecvStream.readExact_of_le hfour
  rw [next, if_neg (by simp [hdone])]
  simp only [hread]
  exact if_pos h

/-- A complete message is read, and the stream goes on behind it when it can be decoded. -/
theorem next_of_splitFirst (hdone : s.done = false) {msg rest : Bytes}
    (h : Frames.splitFirst s.recv.received = some (msg, rest))
    (hmax : msg.length ≤ maxLengthPrefixMessageSize) :
    ∃ recv, recv.received = rest ∧
      s.next codec = match codec.deserialize msg with
        | .ok lsResponse => (some (.ok lsResponse), ⟨recv, false⟩)
        | .error err => (some (.error err), { s with done := true }) := by
  obtain ⟨hbytes, hfits⟩ := Frames.eq_of_splitFirst h
  have hannounced : Bytes.ofBe (s.recv.received.take 4) = msg.length := by
    have ha := Frames.announced_frame hfits rest
    rwa [← hbytes] at ha
  have hdrop : s.recv.received.drop 4 = msg ++ rest := by
    rw [hbytes, Frames.frame, List.append_assoc, List.drop_left' (Bytes.length_beU32 _)]
  have hfour : 4 ≤ s.recv.received.length := by
    rw [hbytes, List.length_append, Frames.length_frame]
    omega
  obtain ⟨recv, hread, hrecv⟩ := Quinn.RecvStream.readExact_of_le hfour
  have hmsg : msg.length ≤ recv.received.length := by
    rw [hrecv, hdrop, List.length_append]
    omega
  obtain ⟨recv', hread', hrecv'⟩ := Quinn.RecvStream.readExact_of_le hmsg
  rw [hrecv, hdrop, List.take_left] at hread'
  rw [hrecv, hdrop, List.drop_left] at hrecv'
  refine ⟨recv', hrecv', ?_⟩
  rw [next, if_neg (by simp [hdone])]
  simp only [hread, hannounced, hread']
  rw [if_neg (Nat.not_lt.mpr hmax)]

/-- Behind its last item the stream has ended. -/
theorem gives_of_done (hdone : s.done = true) : Gives (pollNext codec) s [] := by
  apply Gives.ended
  rw [pollNext, next, if_pos hdone]

/-- With no complete message there are no more items. -/
theorem gives_of_stops (hdone : s.done = false) (h : Stops s.recv.received) :
    Gives (pollNext codec) s [] := by
  apply Gives.ended
  rw [pollNext, next_of_stops codec hdone h]

/-- A length above the limit gives one error and no more. -/
theorem gives_of_tooLarge (hdone : s.done = false) (hfour : 4 ≤ s.recv.received.length)
    (h : maxLengthPrefixMessageSize < Frames.announced s.recv.received) :
    Gives (pollNext codec) s [.error (tooLarge (Frames.announced s.recv.received))] := by
  have hnext := next_of_tooLarge codec hdone hfour h
  apply Gives.item
  · rw [pollNext, hnext]
  · rw [pollNext, hnext]
    exact gives_of_done codec rfl

/-! ### Whole messages -/

/-- The messages in front are given as they were written, and behind them what follows. -/
theorem gives_of_messages {responses : List LsResponse} {tail : Bytes}
    {items : List (Except String LsResponse)}
    (hsize : ∀ r ∈ responses, (codec.serialize r).length ≤ maxLengthPrefixMessageSize)
    (htail : ∀ s : LsResponseStream, s.done = false → s.recv.received = tail →
      Gives (pollNext codec) s items)
    (hdone : s.done = false)
    (h : s.recv.received = Frames.stream (responses.map codec.serialize) ++ tail) :
    Gives (pollNext codec) s (responses.map .ok ++ items) := by
  induction responses generalizing s with
  | nil => exact htail s hdone h
  | cons r rest ih =>
    have hr := hsize r (by simp)
    have hmax : maxLengthPrefixMessageSize < 2 ^ 32 := by decide
    have hfits : Frames.Fits (codec.serialize r) := Nat.lt_of_le_of_lt hr hmax
    rw [List.map_cons, Frames.stream_cons, List.append_assoc] at h
    have hsplit : Frames.splitFirst s.recv.received =
        some (codec.serialize r, Frames.stream (rest.map codec.serialize) ++ tail) := by
      rw [h, Frames.splitFirst_frame hfits]
    obtain ⟨recv, hrecv, hnext⟩ := next_of_splitFirst codec hdone hsplit hr
    have hbound : (codec.serialize r).length < 2 ^ 64 := Nat.lt_trans hfits (by decide)
    rw [codec.deserialize_serialize r hbound] at hnext
    apply Gives.item
    · rw [pollNext, hnext]
    · rw [pollNext, hnext]
      exact ih (fun q hq ↦ hsize q (by simp [hq])) rfl hrecv

/-! ### Both ends -/

/-- The responses whose messages lie within the first bytes of what was written: those of the
longest beginning of the responses that is written within these bytes. -/
def WhollyContained (responses : List LsResponse) (b : Bytes)
    (contained : List LsResponse) : Prop :=
  contained <+: responses ∧ (Rpc.writeResponses codec contained).1 <+: b ∧
    ∀ more, more <+: responses → (Rpc.writeResponses codec more).1 <+: b → more <+: contained

variable {codec}

private theorem fits_of_size {responses : List LsResponse}
    (hsize : ∀ r ∈ responses, (codec.serialize r).length ≤ maxLengthPrefixMessageSize) :
    ∀ r ∈ responses, Frames.Fits (codec.serialize r) :=
  fun r hr ↦ Nat.lt_of_le_of_lt (hsize r hr) (by decide)

private theorem written_eq {responses more : List LsResponse}
    (hsize : ∀ r ∈ responses, (codec.serialize r).length ≤ maxLengthPrefixMessageSize)
    (hmore : more <+: responses) :
    (Rpc.writeResponses codec more).1 = Frames.stream (more.map codec.serialize) := by
  rw [Rpc.writeResponses_eq codec fun r hr ↦ fits_of_size hsize r (hmore.subset hr)]

/-- A strict beginning of a frame that may be read gives no item. -/
private theorem stops_of_prefix {payload tail : Bytes}
    (hsize : payload.length ≤ maxLengthPrefixMessageSize) (h : tail <+: Frames.frame payload)
    (hne : tail ≠ Frames.frame payload) : Stops tail := by
  have hfits : Frames.Fits payload := Nat.lt_of_le_of_lt hsize (by decide)
  obtain ⟨hnone, hannounced⟩ := Frames.splitFirst_of_prefix hfits h hne
  by_cases hfour : 4 ≤ tail.length
  · right
    have ha := hannounced hfour
    refine ⟨ha ▸ hsize, ?_⟩
    by_contra hlong
    rw [Frames.splitFirst, if_pos ⟨hfour, Nat.not_lt.mp hlong⟩] at hnone
    cases hnone
  · exact Or.inl (Nat.not_le.mp hfour)

/-- Of a beginning of what was written, the messages within it are given. -/
theorem gives_of_prefix {responses : List LsResponse}
    (hsize : ∀ r ∈ responses, (codec.serialize r).length ≤ maxLengthPrefixMessageSize)
    (hdone : s.done = false)
    (h : s.recv.received <+: Frames.stream (responses.map codec.serialize)) :
    ∃ contained, WhollyContained codec responses s.recv.received contained ∧
      Gives (pollNext codec) s (contained.map .ok) := by
  obtain ⟨ps, qs, tail, hsplit, hbytes, htail⟩ := Frames.exists_of_prefix_stream h
  obtain ⟨contained, rest, rfl, rfl, rfl⟩ := List.map_eq_append_iff.mp hsplit
  have hcontained : contained <+: contained ++ rest := List.prefix_append _ _
  have hstops : Stops tail := by
    rcases htail with rfl | ⟨p, qs, hqs, hprefix, hne⟩
    · exact Or.inl (by decide)
    · obtain ⟨r, rest, rfl, rfl, rfl⟩ := List.map_eq_cons_iff.mp hqs
      exact stops_of_prefix (hsize r (by simp)) hprefix hne
  refine ⟨contained, ⟨hcontained, ?_, ?_⟩, ?_⟩
  · rw [written_eq hsize hcontained, hbytes]
    exact List.prefix_append _ _
  · intro more hmore hwritten
    rw [written_eq hsize hmore, hbytes] at hwritten
    rcases List.prefix_or_prefix_of_prefix hmore hcontained with hle | ⟨extra, rfl⟩
    · exact hle
    · -- a message more would be a frame at the start of the tail
      cases extra with
      | nil => rw [List.append_nil]
      | cons r extra =>
        rw [List.map_append, Frames.stream_append, List.prefix_append_right_inj, List.map_cons,
          Frames.stream_cons] at hwritten
        obtain ⟨tail', rfl⟩ := hwritten
        have hfits := fits_of_size hsize r (hmore.subset (by simp))
        have hnone := hstops.splitFirst_eq_none
        rw [List.append_assoc, Frames.splitFirst_frame hfits] at hnone
        cases hnone
  · have hgives : Gives (pollNext codec) s (contained.map .ok ++ []) :=
      gives_of_messages codec (fun r hr ↦ hsize r (hcontained.subset hr))
        (fun s hs htail ↦ gives_of_stops codec hs (htail ▸ hstops)) hdone hbytes
    rwa [List.append_nil] at hgives

private theorem gives_of_written_tooLarge {responses : List LsResponse}
    (hsize : ∀ r ∈ responses, (codec.serialize r).length ≤ maxLengthPrefixMessageSize)
    {length : UInt32} (hlength : maxLengthPrefixMessageSize < length.toNat) {rest : Bytes}
    (hdone : s.done = false)
    (h : s.recv.received =
      Frames.stream (responses.map codec.serialize) ++ (Bytes.beU32 length ++ rest)) :
    Gives (pollNext codec) s (responses.map .ok ++ [.error (tooLarge length.toNat)]) := by
  have hannounced : Frames.announced (Bytes.beU32 length ++ rest) = length.toNat := by
    rw [Frames.announced, List.take_left' (Bytes.length_beU32 _), Bytes.beU32,
      Bytes.ofBe_toBe 4 _ length.toNat_lt]
  apply gives_of_messages codec hsize _ hdone h
  intro s hs htail
  rw [← htail] at hannounced
  rw [← hannounced] at hlength ⊢
  apply gives_of_tooLarge codec hs _ hlength
  rw [htail, List.length_append, Bytes.length_beU32]
  omega

/-- However the stream delivers what `Rpc::ls` writes for responses within the size limit, the
reader gives these responses and ends. Of a beginning of it, behind which the stream finishes
or is lost, it gives the messages wholly contained and ends without an error. Behind a length
above the limit it gives one error and ends. -/
theorem gives_writeResponses (codec : Codec LsResponse) (responses : List LsResponse)
    (hsize : ∀ r ∈ responses, (codec.serialize r).length ≤ maxLengthPrefixMessageSize)
    (pieces : List Bytes) (lost : Bool) :
    let written := (Rpc.writeResponses codec responses).1
    let stream := processLengthPrefix ⟨pieces, lost⟩
    (pieces.flatten = written → Gives (pollNext codec) stream (responses.map .ok)) ∧
    (pieces.flatten <+: written → pieces.flatten ≠ written →
      ∃ contained, WhollyContained codec responses pieces.flatten contained ∧
        Gives (pollNext codec) stream (contained.map .ok)) ∧
    (∀ (length : UInt32) (rest : Bytes), maxLengthPrefixMessageSize < length.toNat →
      pieces.flatten = written ++ (Bytes.beU32 length ++ rest) →
      Gives (pollNext codec) stream
        (responses.map .ok ++ [.error (tooLarge length.toNat)])) := by
  intro written stream
  have hwritten : written = Frames.stream (responses.map codec.serialize) :=
    written_eq hsize (List.prefix_refl _)
  rw [hwritten]
  refine ⟨fun hall ↦ ?_, fun hprefix _ ↦ ?_, fun length rest hlength hlong ↦ ?_⟩
  · have hstops : Stops [] := Or.inl (by decide)
    have hgives : Gives (pollNext codec) stream (responses.map .ok ++ []) :=
      gives_of_messages codec hsize
        (fun s hs htail ↦ gives_of_stops codec hs (htail ▸ hstops)) rfl
        (hall.trans (List.append_nil _).symm)
    rwa [List.append_nil] at hgives
  · exact gives_of_prefix (s := stream) hsize rfl hprefix
  · exact gives_of_written_tooLarge hsize hlength rfl hlong

/-- The codec of the answers to index queries. -/
def exampleCodec : Codec LsResponse := Codec.lsResponse.codec fun _ ↦ "UnexpectedEnd"

/-- Two answers of which the second does not arrive in full, in pieces of which one is
empty. -/
theorem gives_writeResponses_cut :
    let first := LsResponse.success [⟨"a", 1, false⟩]
    let written := (Rpc.writeResponses exampleCodec [first, .err .pathNotFound]).1
    ∃ contained,
      WhollyContained exampleCodec [first, .err .pathNotFound] (written.take 39) contained ∧
      Gives (pollNext exampleCodec)
        (processLengthPrefix ⟨[written.take 2, [], (written.take 39).drop 2], true⟩)
        (contained.map .ok) := by
  intro first written
  have hsize : ∀ r ∈ [first, .err .pathNotFound],
      (exampleCodec.serialize r).length ≤ maxLengthPrefixMessageSize := by decide
  have hpieces : [written.take 2, [], (written.take 39).drop 2].flatten = written.take 39 := by
    decide
  have h := (gives_writeResponses exampleCodec [first, .err .pathNotFound] hsize
    [written.take 2, [], (written.take 39).drop 2] true).2.1
  rw [hpieces] at h
  exact h (List.take_prefix _ _) (by decide)

end LsResponseStream

end HarddriveParty
