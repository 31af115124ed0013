import HarddriveParty.Node.AnswersEnd
import HarddriveParty.Node.UploadOrder

/-!
# Queries of a remote index

A query that one node sends to another, from the request message to the items that the caller of
`process_length_prefix` gets. Whatever else the answering node does, the caller is given what the
query yields there, or if not everything arrives a beginning of it.
-/

namespace HarddriveParty

open Answers Bincode Polling Runs

namespace Request

/-- An index query that was sent is read back. -/
theorem deserialize_serialize_ls (errorText : Bytes → String) (query : IndexQuery)
    (h : (serialize (.ls query)).length < 2 ^ 64) :
    deserialize errorText (serialize (.ls query)) = .ok (.ls query) := by
  rw [deserialize, serialize]
  have hread := (Codec.request.codec errorText).deserialize_serialize (.inl query) h
  exact congrArg (Except.map _) hread

end Request

namespace Served

/-- The messages that answer an index query. -/
def lsResponses (served : Served) (query : IndexQuery) : List LsResponse :=
  match served.shares.query served.toLowercase query.path query.searchterm query.recursive with
  | .ok responses => responses
  | .error .pathNotFound => [.err (.internalServer RpcError.pathNotFound.text)]

/-- What is written for a query is written for these messages. -/
theorem lsAnswer_eq (served : Served) (query : IndexQuery)
    (hfits : ∀ response ∈ served.lsResponses query,
      Frames.Fits (served.codec.serialize response)) :
    served.lsAnswer query =
      Frames.stream ((served.lsResponses query).map served.codec.serialize) := by
  rw [lsAnswer, Rpc.ls]
  unfold lsResponses at hfits ⊢
  cases hquery : served.shares.query served.toLowercase query.path query.searchterm
      query.recursive with
  | ok responses =>
    rw [hquery] at hfits
    exact congrArg Prod.fst (Rpc.writeResponses_eq served.codec hfits)
  | error err =>
    cases err
    rw [hquery] at hfits
    show (Rpc.sendLsError served.codec .pathNotFound).1 = _
    rw [Rpc.sendLsError, Rpc.writeResponses_eq served.codec hfits]

end Served

namespace Serving

/-- In every state of every run of a node, and however the bytes arrive that were written for an
index query: the caller is given the messages that the query yields on this node, as far as they
arrived in full, and nothing else. All of them are given when the answer was finished and all of
it arrived. -/
theorem remote_query_exact (served : Served) (query : IndexQuery)
    (hlength : (Request.serialize (.ls query)).length ≤ maxRequestSize)
    (hsize : ∀ response ∈ served.lsResponses query,
      (served.codec.serialize response).length ≤ maxLengthPrefixMessageSize)
    (as : List Action) :
    EachState (step served) (fun r ↦
      ∀ (output : Nat) (response : Response IncomingRequest UInt8),
        r.responses[output]? = some response →
        response.request.message = Request.serialize (.ls query) →
        ∀ (pieces : List Bytes) (lost : Bool), pieces.flatten <+: response.written →
          ∃ given, given <+: served.lsResponses query ∧
            Gives (LsResponseStream.pollNext served.codec) (processLengthPrefix ⟨pieces, lost⟩)
              (given.map .ok) ∧
            (response.progress = .finished → pieces.flatten = response.written →
              given = served.lsResponses query)) start as := by
  have hfits : ∀ response ∈ served.lsResponses query,
      Frames.Fits (served.codec.serialize response) :=
    fun response hmem ↦ Nat.lt_of_le_of_lt (hsize response hmem) (by decide)
  refine (eachState_soundBut served as).mono fun r h ↦ ?_
  intro output response hresponse hmessage pieces lost hpieces
  obtain ⟨hwritten, hfinished⟩ := h.stopped output response hresponse
  have hquery :
      Request.deserialize served.errorText response.request.message = .ok (.ls query) := by
    rw [hmessage]
    exact Request.deserialize_serialize_ls _ _ (Nat.lt_of_le_of_lt hlength (by decide))
  -- only answers to read requests are cut short
  have hwhole (hdone : response.progress = .finished) :
      response.written = served.answer response.request := by
    refine (hfinished hdone).resolve_right ?_
    rintro ⟨response', hresponse', hread⟩
    obtain rfl := Option.some.inj (hresponse.symm.trans hresponse')
    rw [Served.isRead_ls hquery] at hread
    cases hread
  have hanswer : served.answer response.request =
      Frames.stream ((served.lsResponses query).map served.codec.serialize) := by
    rw [Served.answer_ls hquery]
    exact served.lsAnswer_eq query hfits
  rw [hanswer] at hwritten hwhole
  obtain ⟨given, hgiven, hgives⟩ := LsResponseStream.gives_of_prefix
    (s := processLengthPrefix ⟨pieces, lost⟩) hsize rfl (hpieces.trans hwritten)
  refine ⟨given, hgiven.1, hgives, fun hdone hall ↦ ?_⟩
  -- everything that was written is a beginning of what arrived
  have hlast : served.lsResponses query <+: given := by
    refine hgiven.2.2 _ List.prefix_rfl ?_
    rw [Rpc.writeResponses_eq served.codec hfits]
    show _ <+: pieces.flatten
    rw [hall, hwhole hdone]
  exact hgiven.1.eq_of_length_le hlast.length_le

/-- A peer asks for the files of a share. -/
def musicQuery : IndexQuery := ⟨some "second - Music", none, true⟩

/-- The listing of a share is sent in two parts. -/
def musicListed : List Action :=
  [.connect "peer", .accept 0 (.ok ⟨[Request.serialize (.ls musicQuery)], false⟩),
    .write 0 30, .write 0 300, .endAnswer 0 false]

/-- The listing of a share that is sent in two parts. -/
theorem remote_query_exact_music :
    ∃ given, given <+: twoMusicServed.lsResponses musicQuery ∧
      Gives (LsResponseStream.pollNext twoMusicServed.codec)
        (processLengthPrefix ⟨[twoMusicServed.lsAnswer musicQuery], false⟩) (given.map .ok) := by
  have hanswered : (finalState (step twoMusicServed) start musicListed).responses[0]? =
      some ⟨⟨0, Request.serialize (.ls musicQuery)⟩, twoMusicServed.lsAnswer musicQuery,
        .finished⟩ := by decide +kernel
  obtain ⟨given, hgiven, hgives, -⟩ := (remote_query_exact twoMusicServed musicQuery
    (by decide +kernel) (by decide +kernel) musicListed).final 0 _ hanswered rfl
      [twoMusicServed.lsAnswer musicQuery] false (by simp)
  exact ⟨given, hgiven, hgives⟩

end Serving

end HarddriveParty
