import HarddriveParty.Base.Answers
import HarddriveParty.Base.Runs
import HarddriveParty.Connections.RequestSize
import HarddriveParty.Transfer.RangedRead

/-!
# The requests of the peers

Model of how a node answers its peers (`src/connections/rpc.rs`, and the loop over the incoming
requests in `src/connections/mod.rs:486`). Every connection has a loop that accepts one request
after the other. An index query is answered by the loop itself; a read request is put into a
queue of bounded size, from which one uploader for all connections takes one after the other.
Loops and uploader go on in any order. A step is what a task does between two points at which it
waits; how much of an answer a stream takes at once, and which writes fail, are inputs.

The index and the shared files do not change meanwhile. What an announcement changes on the node
is left to the model of the connections.
-/

namespace HarddriveParty

open Answers

/-- What the answers of a node are made from: its share index, its file system, the codec of the
answers, the texts of decoding errors, and `str::to_lowercase`. -/
structure Served where
  shares : Shares
  fs : UnixFs.Fs
  codec : Bincode.Codec LsResponse
  errorText : Bytes → String
  toLowercase : String → String

/-- A request message that a connection has accepted. -/
structure IncomingRequest where
  connection : Nat
  message : Bytes
  deriving DecidableEq, Repr

/-- `ReadRequest` (`src/connections/rpc.rs:46`). The stream for the response is a number. -/
structure ReadRequest where
  query : ReadQuery
  output : Nat
  requesterName : String
  deriving DecidableEq, Repr

namespace Served

variable (served : Served)

/-- The bytes that answer an index query. -/
def lsAnswer (query : IndexQuery) : Bytes :=
  (Rpc.ls served.codec served.toLowercase served.shares query.path query.searchterm
    query.recursive).1

/-- The portion of a shared file that is read. -/
def filePortion (query : ReadQuery) : Except RpcError (Bytes × UInt64) :=
  Uploader.getFilePortion served.fs (served.shares.resolvePath query.path).toOption query.start
    query.endOffset

/-- The bytes that answer a read request. -/
def readAnswer (query : ReadQuery) : Bytes :=
  match served.filePortion query with
  | .ok (bytes, _) => bytes
  | .error _ => [0]

/-- The bytes that answer a request message. -/
def answer (request : IncomingRequest) : Bytes :=
  match Request.deserialize served.errorText request.message with
  | .ok (.ls query) => served.lsAnswer query
  | .ok (.read query) => served.readAnswer query
  | .ok (.announcePeer _) | .error _ => []

variable {served : Served} {request : IncomingRequest}

theorem answer_ls {query : IndexQuery}
    (h : Request.deserialize served.errorText request.message = .ok (.ls query)) :
    served.answer request = served.lsAnswer query := by
  rw [answer, h]

theorem answer_read {query : ReadQuery}
    (h : Request.deserialize served.errorText request.message = .ok (.read query)) :
    served.answer request = served.readAnswer query := by
  rw [answer, h]

theorem answer_announcePeer {announce : AnnouncePeer}
    (h : Request.deserialize served.errorText request.message = .ok (.announcePeer announce)) :
    served.answer request = [] := by
  rw [answer, h]

theorem answer_error {err : String}
    (h : Request.deserialize served.errorText request.message = .error err) :
    served.answer request = [] := by
  rw [answer, h]

end Served

/-- Where the loop over the requests of a connection is. It accepts requests, writes the answer to
an index query, waits for room in the queue of the uploader, or has ended. -/
inductive RequestLoop.Stage where
  | accepting
  | answering (output : Nat) (left : Bytes)
  | queueing (readRequest : ReadRequest)
  | ended (error : String)
  deriving DecidableEq, Repr

/-- The loop over the requests of a connection. -/
structure RequestLoop where
  peerName : String
  stage : RequestLoop.Stage
  deriving DecidableEq, Repr

namespace Uploader

/-- Where the uploader is. It waits for a read request, uploads a portion of which `left` is not
read and `buf` not written, or writes the answer for an error. -/
inductive Stage where
  | waiting
  | uploading (readRequest : ReadRequest) (size : UInt64) (left buf : Bytes)
      (bytesRead sinceLastUiUpdate : UInt64)
  | refusing (readRequest : ReadRequest) (left : Bytes)
  deriving DecidableEq, Repr

/-- Upload progress is due (`src/connections/rpc.rs:314`). -/
def updateDue (sinceLastUiUpdate : UInt64) (elapsed : Nat) : Bool :=
  (decide (minUploadUiUpdateBytes ≤ sinceLastUiUpdate) &&
    decide (minUploadUiUpdateInterval ≤ elapsed)) ||
      decide (maxUploadUiUpdateInterval ≤ elapsed)

/-- The event about the progress of an upload. -/
def progressEvent (readRequest : ReadRequest) (size bytesRead : UInt64) (speed : Nat) : UiEvent :=
  .uploaded ⟨readRequest.query.path, bytesRead, size, speed, readRequest.requesterName⟩

end Uploader

/-- The number of read requests that can wait for the uploader (`src/connections/rpc.rs:74`). -/
def uploadQueueSize : Nat := 65536

/-- What a node does for its peers: the loops of the connections, the responses to all requests
accepted so far, the queue of the uploader, the uploader, and the events that were sent. -/
structure Serving where
  loops : List RequestLoop
  responses : List (Response IncomingRequest UInt8)
  uploadQueue : List ReadRequest
  uploader : Uploader.Stage
  events : List UiEvent
  deriving DecidableEq, Repr

namespace Serving

/-- No peer is connected. -/
def start : Serving := ⟨[], [], [], .waiting, []⟩

/-- Replace a loop. -/
def setLoop (r : Serving) (c : Nat) (loop : RequestLoop) : Serving :=
  { r with loops := r.loops.set c loop }

/-- Change a response. -/
def setResponse (r : Serving) (output : Nat)
    (f : Response IncomingRequest UInt8 → Response IncomingRequest UInt8) : Serving :=
  { r with responses := r.responses.modify output f }

/-- A request arrives and is handled (`src/connections/rpc.rs:103`). -/
def accept (served : Served) (r : Serving) (c : Nat) (loop : RequestLoop)
    (accepted : Except String Quinn.RecvStream) : Serving :=
  match loop.stage with
  | .accepting =>
    match acceptIncomingRequest accepted with
    | .error err => r.setLoop c { loop with stage := .ended err }
    | .ok buf =>
      let output := r.responses.length
      let r : Serving := { r with responses := r.responses ++ [.start ⟨c, buf⟩] }
      match Request.deserialize served.errorText buf with
      | .ok (.ls query) =>
        r.setLoop c { loop with stage := .answering output (served.lsAnswer query) }
      | .ok (.read query) =>
        r.setLoop c { loop with stage := .queueing ⟨query, output, loop.peerName⟩ }
      | .ok (.announcePeer _) => r.setResponse output (·.stop .finished)
      | .error _ => r.setResponse output (·.stop .finished) -- Cannot decode wire message
  | _ => r

/-- The stream takes so many bytes of the answer to an index query. -/
def write (r : Serving) (c : Nat) (loop : RequestLoop) (n : Nat) : Serving :=
  match loop.stage with
  | .answering output left =>
    (r.setResponse output (·.write (left.take n))).setLoop c
      { loop with stage := .answering output (left.drop n) }
  | _ => r

/-- The answer to an index query is written, or cannot be written. -/
def endAnswer (r : Serving) (c : Nat) (loop : RequestLoop) (failed : Bool) : Serving :=
  match loop.stage with
  | .answering output left =>
    if failed then
      (r.setResponse output (·.stop .brokenOff)).setLoop c { loop with stage := .accepting }
    else if left.isEmpty then
      (r.setResponse output (·.stop .finished)).setLoop c { loop with stage := .accepting }
    else r
  | _ => r

/-- A read request is put into the queue of the uploader if there is room for it
(`src/connections/rpc.rs:246`). -/
def send (r : Serving) (c : Nat) (loop : RequestLoop) : Serving :=
  match loop.stage with
  | .queueing readRequest =>
    if r.uploadQueue.length < uploadQueueSize then
      { r with uploadQueue := r.uploadQueue ++ [readRequest] }.setLoop c
        { loop with stage := .accepting }
    else r
  | _ => r

/-- The uploader takes the next read request and opens the file (`src/connections/rpc.rs:274`). -/
def receive (served : Served) (r : Serving) : Serving :=
  match r.uploader, r.uploadQueue with
  | .waiting, readRequest :: rest =>
    match served.filePortion readRequest.query with
    | .ok (bytes, size) =>
      { r with
        uploadQueue := rest
        uploader := .uploading readRequest size bytes [] (readRequest.query.start.getD 0) 0 }
    | .error _ => { r with uploadQueue := rest, uploader := .refusing readRequest [0] }
  | _, _ => r

/-- The next block of the file is read (`src/connections/rpc.rs:306`). -/
def read (r : Serving) (n elapsed speed : Nat) : Serving :=
  match r.uploader with
  | .uploading readRequest size left [] bytesRead sinceLastUiUpdate =>
    let buf := left.take (min n Uploader.uploadBlockSize)
    if buf.isEmpty then r
    else
      let bytesRead := bytesRead + UInt64.ofNat buf.length
      let sinceLastUiUpdate := sinceLastUiUpdate + UInt64.ofNat buf.length
      let due := Uploader.updateDue sinceLastUiUpdate elapsed
      { r with
        uploader := .uploading readRequest size (left.drop (min n Uploader.uploadBlockSize)) buf
          bytesRead (if due then 0 else sinceLastUiUpdate)
        events := r.events ++
          if due then [Uploader.progressEvent readRequest size bytesRead speed] else [] }
  | _ => r

/-- The stream takes so many bytes of what the uploader has to write. -/
def upload (r : Serving) (n : Nat) : Serving :=
  match r.uploader with
  | .uploading readRequest size left buf bytesRead sinceLastUiUpdate =>
    { r.setResponse readRequest.output (·.write (buf.take n)) with
      uploader := .uploading readRequest size left (buf.drop n) bytesRead sinceLastUiUpdate }
  | .refusing readRequest left =>
    { r.setResponse readRequest.output (·.write (left.take n)) with
      uploader := .refusing readRequest (left.drop n) }
  | .waiting => r

/-- The uploader cannot write to the stream. -/
def uploadError (r : Serving) : Serving :=
  match r.uploader with
  | .uploading readRequest _ _ (_ :: _) _ _ | .refusing readRequest (_ :: _) =>
    { r.setResponse readRequest.output (·.stop .brokenOff) with uploader := .waiting }
  | _ => r

/-- The read of the file gives nothing more: its end is reached, or it fails, which ends the loop
over the blocks as well (`src/connections/rpc.rs:306`). Either way the stream is finished. -/
def uploadEnd (r : Serving) (failed : Bool) (finalSpeed : Nat) : Serving :=
  match r.uploader with
  | .uploading readRequest size left [] bytesRead _ =>
    if left.isEmpty || failed then
      { r.setResponse readRequest.output (·.stop .finished) with
        uploader := .waiting
        events := r.events ++ [Uploader.progressEvent readRequest size bytesRead finalSpeed] }
    else r
  | .refusing readRequest [] =>
    { r.setResponse readRequest.output (·.stop .finished) with uploader := .waiting }
  | _ => r

/-- What can happen next: a peer connects, a loop goes on, or the uploader goes on. -/
inductive Action where
  | connect (peerName : String)
  | accept (c : Nat) (accepted : Except String Quinn.RecvStream)
  | write (c n : Nat)
  | endAnswer (c : Nat) (failed : Bool)
  | send (c : Nat)
  | receive
  | read (n elapsed speed : Nat)
  | upload (n : Nat)
  | uploadError
  | uploadEnd (failed : Bool) (finalSpeed : Nat)

/-- What a loop does when it goes on, if it is there. -/
def onLoop (r : Serving) (c : Nat) (run : RequestLoop → Serving) : Serving :=
  match r.loops[c]? with
  | some loop => run loop
  | none => r

/-- One step of the node. -/
def step (served : Served) (r : Serving) : Action → Serving
  | .connect peerName => { r with loops := r.loops ++ [⟨peerName, .accepting⟩] }
  | .accept c accepted => r.onLoop c fun loop ↦ r.accept served c loop accepted
  | .write c n => r.onLoop c fun loop ↦ r.write c loop n
  | .endAnswer c failed => r.onLoop c fun loop ↦ r.endAnswer c loop failed
  | .send c => r.onLoop c fun loop ↦ r.send c loop
  | .receive => r.receive served
  | .read n elapsed speed => r.read n elapsed speed
  | .upload n => r.upload n
  | .uploadError => r.uploadError
  | .uploadEnd failed finalSpeed => r.uploadEnd failed finalSpeed

/-- What arrives ends the loop exactly when it ends the loop in the model of the connections, and
with the same error. -/
theorem accept_ends_iff (served : Served) {r : Serving} {c : Nat} {loop : RequestLoop}
    (hc : r.loops[c]? = some loop) (haccepting : loop.stage = .accepting) (h : HandleConnection)
    (node : NodeState) (accepted : Except String Quinn.RecvStream) (err : String) :
    (r.accept served c loop accepted).loops[c]? = some { loop with stage := .ended err } ↔
      (h.next node (HandleConnection.incomingRequest served.errorText accepted) .accept).2 =
        .cleanUp err := by
  have hlt := (List.getElem?_eq_some_iff.mp hc).1
  have hne : loop ≠ { loop with stage := .ended err } := fun heq ↦ by
    have hstage := congrArg RequestLoop.stage heq
    rw [haccepting] at hstage
    cases hstage
  rw [accept, haccepting, HandleConnection.incomingRequest]
  cases acceptIncomingRequest accepted with
  | error err' =>
    simp only [setLoop, List.getElem?_set_self hlt, HandleConnection.next,
      HandleConnection.accept, Option.some.injEq, RequestLoop.mk.injEq, true_and,
      RequestLoop.Stage.ended.injEq, HandleConnection.Stage.cleanUp.injEq]
  | ok buf =>
    dsimp only
    cases Request.deserialize served.errorText buf with
    | error text =>
      simp [setResponse, hc, hne, HandleConnection.next, HandleConnection.accept]
    | ok request =>
      cases request with
      | ls query =>
        simp [setLoop, List.getElem?_set_self hlt, HandleConnection.next, HandleConnection.accept]
      | read query =>
        simp [setLoop, List.getElem?_set_self hlt, HandleConnection.next, HandleConnection.accept]
      | announcePeer announce =>
        simp only [setResponse, hc, Option.some.injEq, hne, false_iff, HandleConnection.next,
          HandleConnection.accept]
        split <;> simp

end Serving

end HarddriveParty
