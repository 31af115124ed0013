import HarddriveParty.Node.PostFiles

/-!
# What the index cache serves

A listing that is served from an index cache was sent by the peer, in full, in answer to an
earlier request for the same query, as long as the collectors write to the caches only what
they have read to the last chunk. A collector does not see why it left its loop: when the UI
goes away, a frame is bad or the stream is cut, it writes what it has.
-/

namespace HarddriveParty

open Bincode

variable {codec : Codec LsResponse} {uiCodec : Codec (Except UiServerError (LsResponse × String))}

/-! ### The unread part of an answer -/

/-- What has not been read of an answer begins with these frames, as far as it arrives. -/
def Unread (stream : LsResponseStream) (unread : List Bytes) : Prop :=
  (∀ p ∈ unread, Frames.Fits p) ∧
    ∃ rest, Frames.splitFirst rest = none ∧
      stream.recv.received <+: Frames.stream unread ++ rest

/-- Nothing of a fresh answer has been read. -/
theorem LsAnswer.unread (answer : LsAnswer) :
    Unread (processLengthPrefix answer.recv) answer.payloads :=
  ⟨answer.fits, answer.rest, answer.incomplete, answer.delivered⟩

namespace LsResponseStream

/-- An item that is a response is the first frame of what has arrived. -/
theorem next_eq_ok {s s' : LsResponseStream} {r : LsResponse}
    (h : s.next codec = (some (.ok r), s')) :
    ∃ msg, Frames.splitFirst s.recv.received = some (msg, s'.recv.received) ∧
      codec.deserialize msg = .ok r := by
  by_cases hdone : s.done = true
  · rw [next, if_pos hdone] at h
    cases h
  · have hopen : s.done = false := Bool.eq_false_iff.mpr hdone
    by_cases hstops : Stops s.recv.received
    · have hnone := next_of_stops codec hopen hstops
      rw [h] at hnone
      cases hnone
    · by_cases hlarge : maxLengthPrefixMessageSize < Frames.announced s.recv.received
      · have hfour : 4 ≤ s.recv.received.length := by
          by_contra hshort
          exact hstops (Or.inl (Nat.not_le.mp hshort))
        rw [next_of_tooLarge codec hopen hfour hlarge] at h
        cases h
      · -- a whole message has arrived
        have hall : 4 ≤ s.recv.received.length ∧
            4 + Frames.announced s.recv.received ≤ s.recv.received.length := by
          unfold Stops at hstops
          omega
        obtain ⟨msg, rest, hsplit, hlen⟩ := Frames.exists_splitFirst hall.1 hall.2
        obtain ⟨recv, hrecv, hnext⟩ :=
          next_of_splitFirst codec hopen hsplit (hlen ▸ Nat.not_lt.mp hlarge)
        rw [h] at hnext
        cases hmsg : codec.deserialize msg with
        | error e => rw [hmsg] at hnext; cases hnext
        | ok r' =>
          rw [hmsg] at hnext
          cases hnext
          exact ⟨msg, by rw [hsplit, hrecv], hmsg⟩

end LsResponseStream

/-- A response that is read is the first unread frame. -/
theorem Unread.next {s s' : LsResponseStream} {unread : List Bytes} {r : LsResponse}
    (h : Unread s unread) (hnext : s.next codec = (some (.ok r), s')) :
    ∃ msg rest, unread = msg :: rest ∧ codec.deserialize msg = .ok r ∧ Unread s' rest := by
  obtain ⟨hfits, tail, htail, c, hbytes⟩ := h
  obtain ⟨msg, hsplit, hmsg⟩ := LsResponseStream.next_eq_ok hnext
  have hfirst := Frames.splitFirst_append hsplit c
  rw [hbytes] at hfirst
  cases unread with
  | nil =>
    rw [Frames.stream_nil, List.nil_append, htail] at hfirst
    cases hfirst
  | cons p rest =>
    rw [Frames.stream_cons, List.append_assoc, Frames.splitFirst_frame (hfits p (by simp))]
      at hfirst
    injection hfirst with hpair
    injection hpair with hp hrest
    subst hp
    exact ⟨p, rest, rfl, hmsg, fun q hq ↦ hfits q (by simp [hq]), tail, htail, c, hrest.symm⟩

/-! ### What a collector has read -/

/-- The chunks of a response. -/
def LsResponse.chunks : LsResponse → List (List Entry)
  | .success entries => [entries]
  | .err _ => []

/-- A frame that holds a response has the chunks of the response. -/
theorem successChunks_cons {msg : Bytes} {r : LsResponse} (h : codec.deserialize msg = .ok r)
    (rest : List Bytes) :
    successChunks codec (msg :: rest) = r.chunks ++ successChunks codec rest := by
  cases r <;> simp [successChunks, h, LsResponse.chunks]

/-- While the entries for the cache are not too many, the chunks of a response are added. -/
theorem Collector.cacheResponse_of_not_full {cachedEntries : List (List Entry)}
    {cacheFull : Bool} {r : LsResponse}
    (h : (cacheResponse cachedEntries cacheFull r).2 = false) :
    cacheFull = false ∧
      (cacheResponse cachedEntries cacheFull r).1 = cachedEntries ++ r.chunks := by
  cases r with
  | success entries =>
    rw [cacheResponse] at h ⊢
    split at h
    · cases h
    · next hlen =>
      rw [if_neg hlen]
      exact ⟨h, rfl⟩
  | err e => exact ⟨h, (List.append_nil _).symm⟩

/-- The entries that a collector keeps for the cache are the chunks of its answer up to the
unread ones, unless it keeps them no longer. -/
def Collector.Stage.Collected (codec : Codec LsResponse) (chunks : List (List Entry)) :
    Collector.Stage → Prop
  | .collect stream unread cachedEntries cacheFull =>
    Unread stream unread ∧
      (cacheFull = false → cachedEntries ++ successChunks codec unread = chunks)
  | .write unread cachedEntries cacheFull =>
    cacheFull = false → cachedEntries ++ successChunks codec unread = chunks
  | .finished => True

/-- A pass of the loop keeps account of what has been read. -/
theorem Collector.collected_next (c : Collector) (node : FilesNode) (input : FilesInput)
    {stage : Stage} {chunks : List (List Entry)} (h : stage.Collected codec chunks) :
    (c.next codec uiCodec node input stage).2.Collected codec chunks := by
  cases stage with
  | write unread cachedEntries cacheFull => exact trivial
  | finished => exact trivial
  | collect stream unread cachedEntries cacheFull =>
    obtain ⟨hunread, hchunks⟩ := h
    show (c.collect codec uiCodec node input stream unread cachedEntries
      cacheFull).2.Collected codec chunks
    unfold collect
    split
    · next lsResponse stream' hnext =>
      obtain ⟨msg, rest, rfl, hmsg, hrest⟩ := hunread.next hnext
      rw [successChunks_cons hmsg] at hchunks
      have hcached : (cacheResponse cachedEntries cacheFull lsResponse).2 = false →
          (cacheResponse cachedEntries cacheFull lsResponse).1 ++ successChunks codec rest =
            chunks := by
        intro hfull
        obtain ⟨hbefore, hadded⟩ := cacheResponse_of_not_full hfull
        rw [hadded, List.append_assoc]
        exact hchunks hbefore
      split
      · exact ⟨hrest, hcached⟩
      · exact hcached
    · exact hchunks
    · exact hchunks

/-! ### The invariant -/

/-- The peer sent the listing, in full, in answer to one request. -/
def FilesNode.Sent (node : FilesNode) (l : Listing) : Prop := l ∈ node.sent

/-- Everything in the index caches was sent by the peer, as was everything served from them. -/
structure FilesNode.Sound (node : FilesNode) : Prop where
  cached : ∀ name connection, ∀ e ∈ (node.indexCache name connection).entries,
    node.Sent ⟨name, e.1, e.2⟩
  served : ∀ l ∈ node.served, node.Sent l

/-- Every listing that was served from an index cache is the complete list of chunks that the
peer sent in answer to one request for the same query. -/
def ServesComplete (r : FilesRuntime) : Prop := ∀ l ∈ r.node.served, r.node.Sent l

/-- What a task may write next is complete: a collector that is about to write its entries to
the cache of a connected peer has left no chunk of the answer unread. -/
def WriteComplete (codec : Codec LsResponse) (node : FilesNode) : Option FilesTask → Prop
  | some (.collector c (.write unread cachedEntries cacheFull)) =>
    cachedEntries = [] ∨ cacheFull = true ∨ node.peers.lookup c.peerName = none ∨
      successChunks codec unread = []
  | _ => True

instance (codec : Codec LsResponse) (node : FilesNode) (task : Option FilesTask) :
    Decidable (WriteComplete codec node task) :=
  match task with
  | some (.collector c (.write unread cachedEntries cacheFull)) =>
    inferInstanceAs (Decidable (cachedEntries = [] ∨ cacheFull = true ∨
      node.peers.lookup c.peerName = none ∨ successChunks codec unread = []))
  | some (.collector _ (.collect _ _ _ _)) => isTrue trivial
  | some (.collector _ .finished) => isTrue trivial
  | some (.postFiles _ _) => isTrue trivial
  | none => isTrue trivial

/-- What an action writes to an index cache is complete. -/
def WritesComplete (codec : Codec LsResponse) (r : FilesRuntime) : FilesRuntime.Action → Prop
  | .run i _ => WriteComplete codec r.node r.tasks[i]?
  | .connect _ | .disconnect _ | .query _ => True

instance (codec : Codec LsResponse) (r : FilesRuntime) (a : FilesRuntime.Action) :
    Decidable (WritesComplete codec r a) :=
  match a with
  | .run i _ => inferInstanceAs (Decidable (WriteComplete codec r.node r.tasks[i]?))
  | .connect _ => isTrue trivial
  | .disconnect _ => isTrue trivial
  | .query _ => isTrue trivial

/-- The invariant of the runs in which all writes are complete. -/
structure FilesRuntime.Sound (codec : Codec LsResponse) (r : FilesRuntime) : Prop where
  node : r.node.Sound
  collectors : ∀ c stage, FilesTask.collector c stage ∈ r.tasks →
    ∃ chunks, r.node.Sent ⟨c.peerName, c.request, chunks⟩ ∧ stage.Collected codec chunks

namespace FilesNode

variable {node : FilesNode}

/-- A cache whose entries were all sent can be put in place. -/
theorem Sound.setCache (h : node.Sound) {name : String} (connection : Nat) {cache : IndexCache}
    (hcache : ∀ e ∈ cache.entries, node.Sent ⟨name, e.1, e.2⟩) :
    (node.setCache name connection cache).Sound := by
  refine ⟨fun name' connection' e he ↦ ?_, h.served⟩
  rw [setCache_indexCache] at he
  split at he
  · next heq =>
    rw [heq.1]
    exact hcache e he
  · exact h.cached name' connection' e he

/-- Sending to the UI leaves the caches sound. -/
theorem Sound.send (uiCodec : Codec (Except UiServerError (LsResponse × String)))
    (h : node.Sound) (channel : Nat) (lsResponse : LsResponse) (peerName : String) :
    (node.send uiCodec channel lsResponse peerName).Sound :=
  ⟨h.cached, h.served⟩

/-- What a peer sends leaves the caches sound. -/
theorem Sound.sent (h : node.Sound) (l : Listing) :
    Sound { node with sent := node.sent ++ [l] } :=
  ⟨fun name connection e he ↦ List.mem_append_left _ (h.cached name connection e he),
    fun l' hl ↦ List.mem_append_left _ (h.served l' hl)⟩

end FilesNode

/-- A write of a complete listing keeps the caches sound. -/
theorem Collector.sound_write {c : Collector} {node : FilesNode} {unread : List Bytes}
    {cachedEntries : List (List Entry)} {cacheFull : Bool} {chunks : List (List Entry)}
    (h : node.Sound) (hsent : node.Sent ⟨c.peerName, c.request, chunks⟩)
    (hchunks : cacheFull = false → cachedEntries ++ successChunks codec unread = chunks)
    (hcomplete : cachedEntries = [] ∨ cacheFull = true ∨
      node.peers.lookup c.peerName = none ∨ successChunks codec unread = []) :
    (c.write node cachedEntries cacheFull).Sound := by
  unfold write
  split
  · next hwrite =>
    split
    · next connection hpeer =>
      have hunread : successChunks codec unread = [] := by
        rcases hcomplete with hnil | hfull | hgone | hread
        · exact absurd hnil hwrite.1
        · rw [hfull] at hwrite
          cases hwrite.2
        · rw [hpeer] at hgone
          cases hgone
        · exact hread
      have hall : cachedEntries = chunks := by
        rw [← hchunks hwrite.2, hunread, List.append_nil]
      apply h.setCache
      intro e he
      rcases LruCache.mem_put he with rfl | he
      · rw [hall]
        exact hsent
      · exact h.cached c.peerName connection e he
    · exact h
  · exact h

/-- A look into the cache keeps it sound, and what is found was sent. -/
theorem PostFiles.sound_readCache {node : FilesNode} (h : node.Sound) (request : Request)
    (peerName : String) (connection : Nat) (rest : List (Request × String)) :
    (readCache node request peerName connection rest).1.Sound := by
  have hset := h.setCache connection
    (fun e he ↦ h.cached peerName connection e (LruCache.mem_get (k := request) he))
  unfold readCache
  simp only
  split
  · next responses hget =>
    refine ⟨hset.cached, fun l hl ↦ ?_⟩
    rcases List.mem_append.mp hl with hl | hl
    · exact h.served l hl
    · rw [List.mem_singleton.mp hl]
      exact h.cached peerName connection _ (LruCache.mem_of_get hget)
  · exact hset

/-! ### Steps -/

/-- A step of a call keeps the caches sound and forgets nothing that was sent, and if it starts
to collect an answer then with all of it unread. -/
structure PostFiles.Keeps (codec : Codec LsResponse) (node : FilesNode)
    (r : FilesNode × Stage × Option (Collector × Collector.Stage)) : Prop where
  sound : r.1.Sound
  sent : node.sent ⊆ r.1.sent
  collects : ∀ task ∈ r.2.2, ∃ chunks,
    r.1.Sent ⟨task.1.peerName, task.1.request, chunks⟩ ∧ task.2.Collected codec chunks

namespace PostFiles

variable {node node' : FilesNode}

private theorem Keeps.of_sent_eq (node : FilesNode) (h : node'.Sound)
    (hsent : node'.sent = node.sent) (stage : Stage) : Keeps codec node (node', stage, none) :=
  ⟨h, hsent ▸ List.Subset.refl _, fun task htask ↦ by cases htask⟩

private theorem readCache_sent (request : Request) (peerName : String) (connection : Nat)
    (rest : List (Request × String)) :
    (readCache node request peerName connection rest).1.sent = node.sent := by
  unfold readCache
  simp only
  split <;> rfl

private theorem keeps_ask (h : node.Sound) (channel : Nat) (request : Request)
    (peerName : String) (rest : List (Request × String)) (input : FilesInput) :
    Keeps codec node (ask codec node channel request peerName rest input) := by
  unfold ask
  split
  · exact .of_sent_eq node h rfl _
  · cases input with
    | lock => exact .of_sent_eq node h rfl _
    | send outcome => exact .of_sent_eq node h rfl _
    | answer answer =>
      cases answer with
      | error err => exact .of_sent_eq node h rfl _
      | ok answer =>
        refine ⟨h.sent _, List.subset_append_left _ _, fun task htask ↦ ?_⟩
        cases htask
        exact ⟨_, List.mem_append_right _ (List.mem_singleton.mpr rfl), answer.unread,
          fun _ ↦ List.nil_append _⟩

/-- Every step of a call does. -/
theorem keeps_step (codec : Codec LsResponse)
    (uiCodec : Codec (Except UiServerError (LsResponse × String))) (h : node.Sound)
    (channel : Nat) (input : FilesInput) (stage : Stage) :
    Keeps codec node (step uiCodec codec node channel input stage) := by
  cases stage with
  | start filesQuery =>
    obtain ⟨name, query⟩ := filesQuery
    cases name <;> exact .of_sent_eq node h rfl _
  | next requests =>
    cases requests with
    | nil => exact .of_sent_eq node h rfl _
    | cons request rest =>
      rw [step]
      split <;> exact .of_sent_eq node h rfl _
  | readCache request peerName connection rest =>
    exact .of_sent_eq node (sound_readCache h request peerName connection rest)
      (readCache_sent request peerName connection rest) _
  | serve peerName responses rest =>
    cases responses with
    | nil => exact .of_sent_eq node h rfl _
    | cons entries responses =>
      cases input with
      | lock => exact .of_sent_eq node h rfl _
      | answer answer => exact .of_sent_eq node h rfl _
      | send outcome =>
        cases outcome with
        | sent => exact .of_sent_eq node (h.send uiCodec channel (.success entries) peerName) rfl _
        | closed => exact .of_sent_eq node h rfl _
        | notSerialized => exact .of_sent_eq node h rfl _
  | ask request peerName rest => exact keeps_ask h channel request peerName rest input
  | returned result => exact .of_sent_eq node h rfl _

end PostFiles

namespace Collector

variable {c : Collector} {node : FilesNode}

private theorem collect_sent (input : FilesInput) (stream : LsResponseStream)
    (unread : List Bytes) (cachedEntries : List (List Entry)) (cacheFull : Bool)
    (h : node.Sound) :
    (c.collect codec uiCodec node input stream unread cachedEntries cacheFull).1.Sound ∧
      (c.collect codec uiCodec node input stream unread cachedEntries cacheFull).1.sent =
        node.sent := by
  unfold collect
  split
  · split
    · exact ⟨h.send uiCodec _ _ _, rfl⟩
    · exact ⟨h, rfl⟩
  · exact ⟨h, rfl⟩
  · exact ⟨h, rfl⟩

private theorem write_sent (cachedEntries : List (List Entry)) (cacheFull : Bool) :
    (c.write node cachedEntries cacheFull).sent = node.sent := by
  unfold write
  split
  · split <;> rfl
  · rfl

/-- A step of the task of an answer keeps the caches sound, if what it writes is complete. -/
theorem sound_next (uiCodec : Codec (Except UiServerError (LsResponse × String)))
    {stage : Stage} {chunks : List (List Entry)} (h : node.Sound)
    (hsent : node.Sent ⟨c.peerName, c.request, chunks⟩) (hstage : stage.Collected codec chunks)
    (hcomplete : ∀ unread cachedEntries cacheFull,
      stage = .write unread cachedEntries cacheFull →
      cachedEntries = [] ∨ cacheFull = true ∨ node.peers.lookup c.peerName = none ∨
        successChunks codec unread = []) (input : FilesInput) :
    (c.next codec uiCodec node input stage).1.Sound ∧
      (c.next codec uiCodec node input stage).1.sent = node.sent := by
  cases stage with
  | collect stream unread cachedEntries cacheFull =>
    exact collect_sent input stream unread cachedEntries cacheFull h
  | write unread cachedEntries cacheFull =>
    exact ⟨sound_write h hsent hstage (hcomplete _ _ _ rfl), write_sent cachedEntries cacheFull⟩
  | finished => exact ⟨h, rfl⟩

end Collector

namespace FilesRuntime

variable {r : FilesRuntime}

private theorem Sound.postFiles (h : r.Sound codec) (i channel : Nat) (input : FilesInput)
    (stage : PostFiles.Stage) :
    Sound codec
      ⟨(PostFiles.step uiCodec codec r.node channel input stage).1,
        r.tasks.set i (.postFiles channel
            (PostFiles.step uiCodec codec r.node channel input stage).2.1) ++
          ((PostFiles.step uiCodec codec r.node channel input stage).2.2.map
            fun task ↦ FilesTask.collector task.1 task.2).toList⟩ := by
  have hkeeps := PostFiles.keeps_step codec uiCodec h.node channel input stage
  refine ⟨hkeeps.sound, fun c stage' hmem ↦ ?_⟩
  rcases List.mem_append.mp hmem with hmem | hmem
  · have hold : FilesTask.collector c stage' ∈ r.tasks :=
      (List.mem_or_eq_of_mem_set hmem).resolve_right (fun heq ↦ by cases heq)
    obtain ⟨chunks, hsent, hstage⟩ := h.collectors c stage' hold
    exact ⟨chunks, hkeeps.sent hsent, hstage⟩
  · obtain ⟨task, htask, heq⟩ := Option.map_eq_some_iff.mp (Option.mem_toList.mp hmem)
    cases heq
    exact hkeeps.collects task htask

private theorem Sound.collector (h : r.Sound codec) {i : Nat} {c : Collector}
    {stage : Collector.Stage} (htask : r.tasks[i]? = some (.collector c stage))
    (ha : WriteComplete codec r.node (some (.collector c stage))) (input : FilesInput) :
    Sound codec
      ⟨(c.next codec uiCodec r.node input stage).1,
        r.tasks.set i (.collector c (c.next codec uiCodec r.node input stage).2)⟩ := by
  obtain ⟨chunks, hsent, hstage⟩ := h.collectors c stage (List.mem_of_getElem? htask)
  have hcomplete : ∀ unread cachedEntries cacheFull,
      stage = .write unread cachedEntries cacheFull →
      cachedEntries = [] ∨ cacheFull = true ∨ r.node.peers.lookup c.peerName = none ∨
        successChunks codec unread = [] := by
    rintro unread cachedEntries cacheFull rfl
    exact ha
  obtain ⟨hsound, hsame⟩ := Collector.sound_next uiCodec h.node hsent hstage hcomplete input
  have hkept (l : Listing) (hl : r.node.Sent l) :
      (c.next codec uiCodec r.node input stage).1.Sent l := by
    rw [FilesNode.Sent, hsame]
    exact hl
  refine ⟨hsound, fun c' stage' hmem ↦ ?_⟩
  rcases List.mem_or_eq_of_mem_set hmem with hmem | heq
  · obtain ⟨chunks', hsent', hstage'⟩ := h.collectors c' stage' hmem
    exact ⟨chunks', hkept _ hsent', hstage'⟩
  · cases heq
    exact ⟨chunks, hkept _ hsent, c.collected_next r.node input hstage⟩

/-- A step in which all writes are complete keeps the invariant. -/
theorem Sound.step (h : r.Sound codec) {a : Action} (ha : WritesComplete codec r a) :
    (r.step codec uiCodec a).Sound codec := by
  cases a with
  | connect peerName => exact ⟨⟨h.node.cached, h.node.served⟩, h.collectors⟩
  | disconnect peerName => exact ⟨⟨h.node.cached, h.node.served⟩, h.collectors⟩
  | query filesQuery =>
    refine ⟨h.node, fun c stage hmem ↦ h.collectors c stage ?_⟩
    rcases List.mem_append.mp hmem with hmem | hmem
    · exact hmem
    · cases List.mem_singleton.mp hmem
  | run i input =>
    show (r.runTask codec uiCodec i input).Sound codec
    replace ha : WriteComplete codec r.node r.tasks[i]? := ha
    unfold runTask
    split
    · exact h
    · next channel stage htask => exact h.postFiles i channel input stage
    · next c stage htask =>
      rw [htask] at ha
      exact h.collector htask ha input

/-- At first nothing is cached or served. -/
theorem sound_initial : initial.Sound codec := by
  refine ⟨⟨fun name connection e he ↦ ?_, fun l hl ↦ ?_⟩, fun c stage hmem ↦ ?_⟩
  · exact absurd he LruCache.not_mem_empty
  · cases hl
  · cases hmem

/-- In every run in which all writes to the index caches are complete, only complete listings
are served from them, however calls, answers, connects and disconnects interleave. -/
theorem serves_complete (codec : Codec LsResponse)
    (uiCodec : Codec (Except UiServerError (LsResponse × String))) (actions : List Action)
    (h : Runs.EachStep (step codec uiCodec) (WritesComplete codec) initial actions) :
    Runs.EachState (step codec uiCodec) ServesComplete initial actions := by
  have hsound : Runs.EachState (step codec uiCodec) (Sound codec) initial actions :=
    Runs.eachState_of_invariant sound_initial h fun r a hr ha ↦ hr.step ha
  exact hsound.mono fun r hr ↦ hr.node.served

/-! ### Runs with a complete and an incomplete write -/

/-- An answer of two chunks without entries, of which so many bytes arrive. -/
def exampleAnswer (arrived : Nat) : LsAnswer where
  payloads := [LsResponseStream.exampleCodec.serialize (.success []),
    LsResponseStream.exampleCodec.serialize (.success [])]
  rest := []
  recv := ⟨[(Frames.stream [LsResponseStream.exampleCodec.serialize (.success []),
    LsResponseStream.exampleCodec.serialize (.success [])]).take arrived], false⟩
  fits := by
    unfold Frames.Fits
    decide
  incomplete := rfl
  delivered := by
    rw [List.append_nil, Quinn.RecvStream.received, List.flatten_singleton]
    exact List.take_prefix _ _

/-- A query is asked, its answer is collected as the inputs say, and the query is asked
again. -/
def exampleRun (answer : LsAnswer) (inputs : List FilesInput) : List Action :=
  let query := FilesQuery.mk (some "n") ⟨none, none, true⟩
  [.connect "n", .query query, .run 0 .lock, .run 0 .lock, .run 0 .lock,
    .run 0 (.answer (.ok answer))] ++ inputs.map (.run 1) ++
  [.query query, .run 2 .lock, .run 2 .lock, .run 2 .lock]

/-- When the UI stays until the end of the answer, both chunks are served later. -/
theorem serves_complete_two_chunks :
    Runs.EachState (step LsResponseStream.exampleCodec LengthPrefixedStream.exampleCodec)
      ServesComplete initial
      (exampleRun (exampleAnswer 32) [.send .sent, .send .sent, .lock, .lock]) :=
  serves_complete _ _ _ (by decide)

/-- When the UI goes away after the first of two chunks, this chunk alone is served later. -/
theorem not_serves_complete :
    ¬ ∀ actions, Runs.EachState
      (step LsResponseStream.exampleCodec LengthPrefixedStream.exampleCodec) ServesComplete initial
      actions := by
  intro h
  have hfinal := (h (exampleRun (exampleAnswer 32) [.send .closed, .lock])).final
  have hserved := hfinal ⟨"n", .ls ⟨none, none, true⟩, [[]]⟩ (by decide)
  revert hserved
  unfold FilesNode.Sent
  decide

end FilesRuntime

end HarddriveParty
