import HarddriveParty.Node.Channels
import HarddriveParty.Node.IndexCache

/-!
# Queries to all peers of which some fail

A query without a peer name goes to all connected peers, one after the other. The first peer
that is gone, or to which no request can be opened, ends the call, and with it the channel to
which the answers of the other peers are sent.
-/

namespace HarddriveParty

open Bincode Polling

variable {codec : Codec LsResponse} {uiCodec : Codec (Except UiServerError (LsResponse × String))}

/-- A stream of responses still gives these ones, and then the end or an error. -/
def Remaining (codec : Codec LsResponse) (stream : LsResponseStream)
    (responses : List LsResponse) : Prop :=
  ∃ err : Option String,
    Gives (LsResponseStream.pollNext codec) stream
      (responses.map .ok ++ err.toList.map .error)

/-- The next of the remaining responses is read first. -/
theorem Remaining.next {stream : LsResponseStream} {lsResponse : LsResponse}
    {responses : List LsResponse} (h : Remaining codec stream (lsResponse :: responses)) :
    ∃ stream', stream.next codec = (some (.ok lsResponse), stream') ∧
      Remaining codec stream' responses := by
  obtain ⟨err, hgives⟩ := h
  cases hgives with
  | item hitem hrest =>
    injection hitem with hitem
    exact ⟨(stream.next codec).2, Prod.ext hitem rfl, err, hrest⟩
  | pending hpending _ => cases hpending

/-- What the peers answer to a query, as far as their requests succeed. -/
abbrev Fates := String → Option (List LsResponse)

namespace PostFiles

/-- A peer that is asked turns out as its fate says: it is gone, or the request fails, or its
answer gives these responses. -/
def AskFollows (codec : Codec LsResponse) (fates : Fates) (peerName : String) :
    Option Nat → FilesInput → Prop
  | none, _ | some _, .answer (.error _) => fates peerName = none
  | some _, .answer (.ok answer) => ∃ responses, fates peerName = some responses ∧
    Remaining codec (processLengthPrefix answer.recv) responses
  | some _, .lock | some _, .send _ => True

/-- A peer turns out as its fate says, and what is found in its cache is its answer. The UI
listens. -/
def Follows (codec : Codec LsResponse) (fates : Fates) (node : FilesNode) (input : FilesInput) :
    Stage → Prop
  | .next ((_, peerName) :: _) => node.peers.lookup peerName = none → fates peerName = none
  | .readCache request peerName connection _ => ∀ responses,
    ((node.indexCache peerName connection).get request).1 = some responses →
      fates peerName = some (responses.map .success)
  | .serve _ (_ :: _) _ => input = .send .sent
  | .ask _ peerName _ => AskFollows codec fates peerName (node.peers.lookup peerName) input
  | _ => True

end PostFiles

namespace FilesRuntime

/-- The call has failed. -/
def Failed (r : FilesRuntime) (i : Nat) : Prop :=
  ∃ err, r.stageOf i = some (.returned (.error err))

/-- A step of the call goes as the fates say, and its tasks can send unless it has failed. -/
def FollowsTask (codec : Codec LsResponse) (fates : Fates) (i : Nat) (r : FilesRuntime)
    (input : FilesInput) : Option FilesTask → Prop
  | some (.postFiles channel stage) =>
    channel = i → PostFiles.Follows codec fates r.node input stage
  | some (.collector c (.collect _ _ _ _)) =>
    c.channel = i → r.Failed i ∨ input = .send .sent
  | _ => True

/-- The steps for the call go as the fates of the peers say. -/
def Follows (codec : Codec LsResponse) (fates : Fates) (i : Nat) (r : FilesRuntime) :
    Action → Prop
  | .run k input => r.FollowsTask codec fates i input r.tasks[k]?
  | .connect _ | .disconnect _ | .query _ => True

/-- A task of the call reads these responses of the peer. -/
def Reads (codec : Codec LsResponse) (i : Nat) (peerName : String) (left : List LsResponse)
    (task : FilesTask) : Prop :=
  ∃ c stream unread cachedEntries cacheFull,
    task = .collector c (.collect stream unread cachedEntries cacheFull) ∧
      c.channel = i ∧ c.peerName = peerName ∧ Remaining codec stream left

/-- The responses of a peer are in the channel, up to those that a task of the call still
reads. -/
def Delivers (codec : Codec LsResponse)
    (uiCodec : Codec (Except UiServerError (LsResponse × String))) (i : Nat) (peerName : String)
    (responses : List LsResponse) (r : FilesRuntime) : Prop :=
  ∃ sent left, responses = sent ++ left ∧
    (sent.map (FilesNode.message uiCodec peerName)).Sublist (r.node.bodies i) ∧
    (left = [] ∨ ∃ (k : Nat) (task : FilesTask), r.tasks[k]? = some task ∧
      Reads codec i peerName left task)

/-- The request to the peer succeeded, and its answer is on its way. -/
def Served (codec : Codec LsResponse)
    (uiCodec : Codec (Except UiServerError (LsResponse × String))) (fates : Fates) (i : Nat)
    (r : FilesRuntime) (peerName : String) : Prop :=
  ∃ responses, fates peerName = some responses ∧
    Delivers codec uiCodec i peerName responses r

/-- How far a call has come with the listed peers. -/
def Progress (codec : Codec LsResponse)
    (uiCodec : Codec (Except UiServerError (LsResponse × String))) (fates : Fates)
    (listed : List String) (i : Nat) (r : FilesRuntime) : PostFiles.Stage → Prop
  | .start _ => False
  | .next requests => ∃ done, listed = done ++ requests.map Prod.snd ∧
    ∀ p ∈ done, r.Served codec uiCodec fates i p
  | .readCache _ peerName _ rest | .ask _ peerName rest =>
    ∃ done, listed = done ++ peerName :: rest.map Prod.snd ∧
      ∀ p ∈ done, r.Served codec uiCodec fates i p
  | .serve peerName responses rest =>
    ∃ done, listed = done ++ peerName :: rest.map Prod.snd ∧
      (∀ p ∈ done, r.Served codec uiCodec fates i p) ∧
      ∃ sent, fates peerName = some (sent ++ responses.map .success) ∧
        (sent.map (FilesNode.message uiCodec peerName)).Sublist (r.node.bodies i)
  | .returned (.ok ()) => ∀ p ∈ listed, r.Served codec uiCodec fates i p
  | .returned (.error _) => ∃ p ∈ listed, fates p = none

variable {r : FilesRuntime} {i k : Nat} {input : FilesInput} {fates : Fates}

/-- A response that is read is sent. -/
private theorem delivers_runTask {c : Collector} {stream : LsResponseStream}
    {unread : List Bytes} {cachedEntries : List (List Entry)} {cacheFull : Bool}
    {sent left : List LsResponse}
    (htask : r.tasks[k]? = some (.collector c (.collect stream unread cachedEntries cacheFull)))
    (hsent : (sent.map (FilesNode.message uiCodec c.peerName)).Sublist
      (r.node.bodies c.channel)) (hleft : Remaining codec stream left) :
    (r.runTask codec uiCodec k (.send .sent)).Delivers codec uiCodec c.channel c.peerName
      (sent ++ left) := by
  cases left with
  | nil =>
    have hkept := (r.bodies_kept codec uiCodec (.run k (.send .sent)) c.channel).sublist
    exact ⟨sent, [], rfl, hsent.trans hkept, Or.inl rfl⟩
  | cons lsResponse left =>
    obtain ⟨stream', hnext, hrest⟩ := hleft.next
    have hlt : k < r.tasks.length := (List.getElem?_eq_some_iff.mp htask).1
    refine ⟨sent ++ [lsResponse], left, by rw [List.append_assoc]; rfl, ?_, Or.inr ⟨k, ?_⟩⟩
    · rw [runTask_collector htask, Collector.next, Collector.collect_of_sent hnext]
      rw [FilesNode.send_bodies, List.map_append]
      exact hsent.append (List.Sublist.refl _)
    · rw [runTask_collector htask, Collector.next, Collector.collect_of_sent hnext]
      exact ⟨_, List.getElem?_set_self hlt, c, stream', _, _, _, rfl, rfl, rfl, hrest⟩

/-- A step that goes as the fates say loses nothing that is on its way. -/
theorem Delivers.step {peerName : String} {responses : List LsResponse}
    (h : r.Delivers codec uiCodec i peerName responses) (hnot : ¬ r.Failed i) {a : Action}
    (ha : r.Follows codec fates i a) :
    (r.step codec uiCodec a).Delivers codec uiCodec i peerName responses := by
  obtain ⟨sent, left, rfl, hsent, hleft⟩ := h
  have hkept := hsent.trans (r.bodies_kept codec uiCodec a i).sublist
  rcases hleft with rfl | ⟨k, task, htask, hreads⟩
  · exact ⟨sent, [], rfl, hkept, Or.inl rfl⟩
  · have hlt : k < r.tasks.length := (List.getElem?_eq_some_iff.mp htask).1
    cases a with
    | connect name => exact ⟨sent, left, rfl, hkept, Or.inr ⟨k, task, htask, hreads⟩⟩
    | disconnect name => exact ⟨sent, left, rfl, hkept, Or.inr ⟨k, task, htask, hreads⟩⟩
    | query filesQuery =>
      have hsame : (r.step codec uiCodec (.query filesQuery)).tasks[k]? = some task :=
        (List.getElem?_append_left hlt).trans htask
      exact ⟨sent, left, rfl, hkept, Or.inr ⟨k, task, hsame, hreads⟩⟩
    | run m input =>
      by_cases hne : k = m
      · -- the task reads the next response
        subst hne
        obtain ⟨c, stream, unread, cachedEntries, cacheFull, rfl, rfl, rfl, hrest⟩ := hreads
        replace ha : r.FollowsTask codec fates c.channel input r.tasks[k]? := ha
        rw [htask] at ha
        obtain rfl := (ha rfl).resolve_left hnot
        exact delivers_runTask htask hsent hrest
      · exact ⟨sent, left, rfl, hkept, Or.inr ⟨k, task, task_runTask_of_ne hne htask, hreads⟩⟩

/-- When the tasks of the call have finished, everything has been delivered. -/
theorem Delivers.complete {peerName : String} {responses : List LsResponse}
    (h : r.Delivers codec uiCodec i peerName responses)
    (hfinished : ∀ c stage, FilesTask.collector c stage ∈ r.tasks → c.channel = i →
      stage = .finished) :
    (responses.map (FilesNode.message uiCodec peerName)).Sublist (r.node.bodies i) := by
  obtain ⟨sent, left, rfl, hsent, rfl | ⟨k, task, htask, hreads⟩⟩ := h
  · rwa [List.append_nil]
  · obtain ⟨c, stream, unread, cachedEntries, cacheFull, rfl, hchannel, -, -⟩ := hreads
    cases hfinished c _ (List.mem_of_getElem? htask) hchannel

/-- What has been reached stays reached. -/
private theorem Progress.mono {r' : FilesRuntime} {listed : List String}
    {stage : PostFiles.Stage} (h : r.Progress codec uiCodec fates listed i stage)
    (hserved : ∀ p, r.Served codec uiCodec fates i p → r'.Served codec uiCodec fates i p)
    (hkept : r.node.bodies i <+: r'.node.bodies i) :
    r'.Progress codec uiCodec fates listed i stage := by
  cases stage with
  | start filesQuery => exact h
  | next requests =>
    obtain ⟨done, hlisted, hdone⟩ := h
    exact ⟨done, hlisted, fun p hp ↦ hserved p (hdone p hp)⟩
  | readCache request peerName connection rest =>
    obtain ⟨done, hlisted, hdone⟩ := h
    exact ⟨done, hlisted, fun p hp ↦ hserved p (hdone p hp)⟩
  | ask request peerName rest =>
    obtain ⟨done, hlisted, hdone⟩ := h
    exact ⟨done, hlisted, fun p hp ↦ hserved p (hdone p hp)⟩
  | serve peerName responses rest =>
    obtain ⟨done, hlisted, hdone, sent, hfate, hsent⟩ := h
    exact ⟨done, hlisted, fun p hp ↦ hserved p (hdone p hp), sent, hfate,
      hsent.trans hkept.sublist⟩
  | returned result =>
    cases result with
    | ok u => exact fun p hp ↦ hserved p (h p hp)
    | error err => exact h

end FilesRuntime

end HarddriveParty
