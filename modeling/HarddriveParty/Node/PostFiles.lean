import HarddriveParty.Base.LruCache
import HarddriveParty.Base.Runs
import HarddriveParty.Streams.LsResponses
import HarddriveParty.Streams.ResponseBody
import Mathlib.Data.List.AList

/-!
# Queries of the UI to peers

Model of `post_files` (`src/ui_server/api.rs`), which answers a query from the index cache of a
peer or asks the peer. Each call, and each task that collects an answer, is cut where it takes
a lock or awaits, and their steps interleave in any order. What peers answer, how much of it
arrives, and whether the UI still listens are inputs.
-/

namespace HarddriveParty

open Bincode

/-- The number of records which will be cached when doing index (`Ls`) queries to a remote peer
(`src/peer.rs:46`). -/
def cacheSize : Nat := 64

/-- The cache for index requests (`src/peer.rs:49`). -/
abbrev IndexCache := LruCache Request (List (List Entry)) cacheSize

/-- What a peer puts on the stream in answer to a query, whole frames and what may follow them,
and the beginning of it that arrives. -/
structure LsAnswer where
  payloads : List Bytes
  rest : Bytes
  recv : Quinn.RecvStream
  fits : ∀ p ∈ payloads, Frames.Fits p
  incomplete : Frames.splitFirst rest = none
  delivered : recv.received <+: Frames.stream payloads ++ rest

/-- The chunks of entries in the frames of an answer. -/
def successChunks (codec : Codec LsResponse) (payloads : List Bytes) : List (List Entry) :=
  payloads.filterMap fun p ↦
    match codec.deserialize p with
    | .ok (.success entries) => some entries
    | _ => none

/-- A list of chunks with the name of the peer and the request that it answers. -/
structure Listing where
  peerName : String
  request : Request
  chunks : List (List Entry)
  deriving DecidableEq, Repr

/-- What the calls share: the connected peers, each with the number of its connection, the
index caches of all connections, and the bodies of the responses. The two lists of listings
record what peers sent and what was served from caches. -/
structure FilesNode where
  peers : AList fun _ : String ↦ Nat
  connections : Nat
  indexCache : String → Nat → IndexCache
  bodies : Nat → List Bytes
  sent : List Listing
  served : List Listing

namespace FilesNode

/-- Change the index cache of a connection. -/
def setCache (node : FilesNode) (peerName : String) (connection : Nat) (cache : IndexCache) :
    FilesNode :=
  { node with
      indexCache := Function.update node.indexCache peerName
        (Function.update (node.indexCache peerName) connection cache) }

/-- One index cache is changed, and no other. -/
theorem setCache_indexCache (node : FilesNode) (peerName name : String)
    (connection connection' : Nat) (cache : IndexCache) :
    (node.setCache peerName connection cache).indexCache name connection' =
      if name = peerName ∧ connection' = connection then cache
      else node.indexCache name connection' := by
  simp only [setCache, Function.update_apply]
  by_cases hname : name = peerName
  · subst hname
    simp [Function.update_apply]
  · rw [if_neg hname, if_neg fun h ↦ hname h.1]

/-- Send a framed message on the channel of a response. -/
def send (uiCodec : Codec (Except UiServerError (LsResponse × String))) (node : FilesNode)
    (channel : Nat) (lsResponse : LsResponse) (peerName : String) : FilesNode :=
  { node with
      bodies := Function.update node.bodies channel (node.bodies channel ++
        [createLengthPrefixedMessage (uiCodec.serialize (.ok (lsResponse, peerName)))]) }

end FilesNode

/-- How an attempt to serialize a response and to send it to the UI goes. -/
inductive SendOutcome where
  | sent
  | closed
  | notSerialized
  deriving DecidableEq, Repr

/-- What a step gets from outside. -/
inductive FilesInput where
  | lock
  | send (outcome : SendOutcome)
  | answer (answer : Except String LsAnswer)

/-! ### The task that collects an answer -/

/-- What the task of an answer keeps (`src/ui_server/api.rs:121`). -/
structure Collector where
  channel : Nat
  request : Request
  peerName : String

namespace Collector

/-- Where the task is. `unread` are the frames of the answer that it has not read. -/
inductive Stage where
  | collect (stream : LsResponseStream) (unread : List Bytes) (cachedEntries : List (List Entry))
    (cacheFull : Bool)
  | write (unread : List Bytes) (cachedEntries : List (List Entry)) (cacheFull : Bool)
  | finished

variable (codec : Codec LsResponse) (uiCodec : Codec (Except UiServerError (LsResponse × String)))
variable (c : Collector) (node : FilesNode)

/-- Add a response to the entries for the cache, unless it is an error or there are too many
already. -/
def cacheResponse (cachedEntries : List (List Entry)) (cacheFull : Bool) :
    LsResponse → List (List Entry) × Bool
  | .success entries =>
    if 65536 < cachedEntries.length then (cachedEntries, true)
    else (cachedEntries ++ [entries], cacheFull)
  | .err _ => (cachedEntries, cacheFull)

/-- A pass of the loop over the responses (`src/ui_server/api.rs:127`). -/
def collect (input : FilesInput) (stream : LsResponseStream) (unread : List Bytes)
    (cachedEntries : List (List Entry)) (cacheFull : Bool) : FilesNode × Stage :=
  match stream.next codec with
  | (some (.ok lsResponse), stream) =>
    let cached := cacheResponse cachedEntries cacheFull lsResponse
    match input with
    | .send .sent =>
      (node.send uiCodec c.channel lsResponse c.peerName,
        .collect stream unread.tail cached.1 cached.2)
    | _ => (node, .write unread.tail cached.1 cached.2)
  | (some (.error _), _) | (none, _) => (node, .write unread cachedEntries cacheFull)

/-- Write the entries to the index cache of the peer (`src/ui_server/api.rs:155`). -/
def write (cachedEntries : List (List Entry)) (cacheFull : Bool) : FilesNode :=
  if cachedEntries ≠ [] ∧ cacheFull = false then
    match node.peers.lookup c.peerName with
    | some connection =>
      node.setCache c.peerName connection
        ((node.indexCache c.peerName connection).put c.request cachedEntries)
    | none => node
  else node

/-- Run the task to its next lock or await. -/
def next (input : FilesInput) : Stage → FilesNode × Stage
  | .collect stream unread cachedEntries cacheFull =>
    c.collect codec uiCodec node input stream unread cachedEntries cacheFull
  | .write _ cachedEntries cacheFull => (c.write node cachedEntries cacheFull, .finished)
  | .finished => (node, .finished)

end Collector

/-! ### The handler -/

namespace PostFiles

/-- Where a call of `post_files` (`src/ui_server/api.rs:56`) is. -/
inductive Stage where
  | start (filesQuery : FilesQuery)
  | next (requests : List (Request × String))
  | readCache (request : Request) (peerName : String) (connection : Nat)
    (rest : List (Request × String))
  | serve (peerName : String) (responses : List (List Entry)) (rest : List (Request × String))
  | ask (request : Request) (peerName : String) (rest : List (Request × String))
  | returned (result : Except UiServerError Unit)

variable (uiCodec : Codec (Except UiServerError (LsResponse × String)))
variable (codec : Codec LsResponse) (node : FilesNode)

/-- Look the request up in the index cache of a connection (`src/ui_server/api.rs:90`). -/
def readCache (request : Request) (peerName : String) (connection : Nat)
    (rest : List (Request × String)) : FilesNode × Stage :=
  let read := (node.indexCache peerName connection).get request
  let node := node.setCache peerName connection read.2
  match read.1 with
  | some responses =>
    ({ node with served := node.served ++ [⟨peerName, request, responses⟩] },
      .serve peerName responses rest)
  | none => (node, .ask request peerName rest)

/-- Ask the peer, and collect its answer in a task of its own (`src/ui_server/api.rs:116`). -/
def ask (channel : Nat) (request : Request) (peerName : String)
    (rest : List (Request × String)) (input : FilesInput) :
    FilesNode × Stage × Option (Collector × Collector.Stage) :=
  match node.peers.lookup peerName with
  | none => (node, .returned (.error (.requestError "Peer not found")), none)
  | some _ =>
    match input with
    | .answer (.ok answer) =>
      ({ node with
          sent := node.sent ++ [⟨peerName, request, successChunks codec answer.payloads⟩] },
        .next rest,
        some (⟨channel, request, peerName⟩,
          .collect (processLengthPrefix answer.recv) answer.payloads [] false))
    | .answer (.error err) => (node, .returned (.error (.requestError err)), none)
    | _ => (node, .ask request peerName rest, none)

/-- Run the call to its next lock or await. -/
def step (channel : Nat) (input : FilesInput) :
    Stage → FilesNode × Stage × Option (Collector × Collector.Stage)
  | .start ⟨some name, query⟩ => (node, .next [(.ls query, name)], none)
  | .start ⟨none, query⟩ =>
    (node, .next (node.peers.keys.map fun peerName ↦ (.ls query, peerName)), none)
  | .next [] => (node, .returned (.ok ()), none)
  | .next ((request, peerName) :: rest) =>
    match node.peers.lookup peerName with
    | none => (node, .returned (.error (.requestError "Peer not found")), none)
    | some connection => (node, .readCache request peerName connection rest, none)
  | .readCache request peerName connection rest =>
    let (node, stage) := readCache node request peerName connection rest
    (node, stage, none)
  | .serve _ [] rest => (node, .next rest, none)
  | .serve peerName (entries :: responses) rest =>
    match input with
    | .send .sent =>
      (node.send uiCodec channel (.success entries) peerName, .serve peerName responses rest,
        none)
    | _ => (node, .next rest, none)
  | .ask request peerName rest => ask codec node channel request peerName rest input
  | .returned result => (node, .returned result, none)

end PostFiles

/-! ### Runs -/

/-- A call of `post_files` with the channel of its response, or the task of an answer. -/
inductive FilesTask where
  | postFiles (channel : Nat) (stage : PostFiles.Stage)
  | collector (c : Collector) (stage : Collector.Stage)

/-- The shared state and the tasks. -/
structure FilesRuntime where
  node : FilesNode
  tasks : List FilesTask

namespace FilesRuntime

/-- What can happen next: a peer connects or disconnects, the UI queries, or a task runs. -/
inductive Action where
  | connect (peerName : String)
  | disconnect (peerName : String)
  | query (filesQuery : FilesQuery)
  | run (i : Nat) (input : FilesInput)

variable (codec : Codec LsResponse) (uiCodec : Codec (Except UiServerError (LsResponse × String)))

/-- No peers and no calls. -/
def initial : FilesRuntime :=
  ⟨⟨∅, 0, fun _ _ ↦ LruCache.empty, fun _ ↦ [], [], []⟩, []⟩

/-- Run the task with index `i` to its next lock or await. -/
def runTask (r : FilesRuntime) (i : Nat) (input : FilesInput) : FilesRuntime :=
  match r.tasks[i]? with
  | none => r
  | some (.postFiles channel stage) =>
    let (node, stage, spawned) := PostFiles.step uiCodec codec r.node channel input stage
    ⟨node, r.tasks.set i (.postFiles channel stage) ++
      (spawned.map fun task ↦ FilesTask.collector task.1 task.2).toList⟩
  | some (.collector c stage) =>
    let (node, stage) := c.next codec uiCodec r.node input stage
    ⟨node, r.tasks.set i (.collector c stage)⟩

/-- The state after an action. -/
def step (r : FilesRuntime) : Action → FilesRuntime
  | .connect peerName =>
    { r with
        node := { r.node with
          peers := r.node.peers.insert peerName r.node.connections
          connections := r.node.connections + 1 } }
  | .disconnect peerName =>
    { r with node := { r.node with peers := r.node.peers.erase peerName } }
  | .query filesQuery =>
    { r with tasks := r.tasks ++ [.postFiles r.tasks.length (.start filesQuery)] }
  | .run i input => r.runTask codec uiCodec i input

end FilesRuntime

end HarddriveParty
