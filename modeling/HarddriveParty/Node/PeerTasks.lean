import HarddriveParty.Base.Watch
import HarddriveParty.Transfer.FinalProgress
import HarddriveParty.Wishlist.Completion

/-!
# The download tasks of the peers

Model of `process_requests` in `src/peer.rs` and of the stream `requests_for_peer` in
`src/wishlist.rs`. Every connection to a peer has a task that downloads the files that are
requested from this peer one after the other. The tasks and the requests of the UI share the
wishlist and the file system, and their steps come in any order.

A step of a task is what it does between two points at which it waits, with two exceptions. An
operation of the wishlist is one step, although it makes several calls of the database and is no
transaction: it writes to the tree by peer at most once, for a request that it read before, so
what another thread does between its calls may as well come before or after all of them, as far
as this tree goes. The start of a download is one step, although `setup_download` waits at each
of its calls of the file system: meanwhile the others only add directories, files and bytes, and
it takes a directory that is made under its hands as its own, so it opens the file and sees the
length that it would if it did all at the moment of its last call. The read request after it
touches nothing that is shared.

The database buffers so many writes for each subscription, and a write waits while the buffer of
a subscription to its key is full. It need not report a write that changes nothing.
-/

namespace HarddriveParty

open UnixPath UnixFs RequestedFile Watch

namespace Peer

/-- One pass of the download loop (`src/peer.rs:218`), without what follows it. -/
def downloadPass (event : UInt64 → UInt64 → UInt32 → UiEvent) (file : List Name) (p : Progress)
    (pass : Pass) : Progress :=
  let sinceLastUiUpdate := p.sinceLastUiUpdate + UInt64.ofNat pass.block.length
  let fs := p.fs.append file (pass.block.take pass.stored)
  if pass.accepted = false then
    { p with fs := fs, sinceLastUiUpdate := sinceLastUiUpdate }
  else
    if updateDue sinceLastUiUpdate pass.elapsed then
      let bytesRead := p.bytesRead + sinceLastUiUpdate
      let totalBytesRead := p.totalBytesRead + sinceLastUiUpdate
      { p with
        fs := fs
        bytesRead := bytesRead
        totalBytesRead := totalBytesRead
        sinceLastUiUpdate := 0
        events := p.events ++ [event bytesRead totalBytesRead pass.speed] }
    else { p with fs := fs, sinceLastUiUpdate := sinceLastUiUpdate }

/-- The end of the stream, or an error on it, counts the bytes since the last update. -/
def downloadEnd (finalSpeed : UInt32) (p : Progress) : Progress :=
  { p with bytesRead := p.bytesRead + p.sinceLastUiUpdate, finalSpeed := finalSpeed }

end Peer

/-- The write that an operation makes to the tree of the outstanding files by peer. -/
def WishList.Operation.byPeerWrite (w : WishList) :
    WishList.Operation → Option (Write Bytes Bytes)
  | addRequest _ => none
  | addRequestedFile f =>
    match w.getRequest f.requestId with
    | .ok r => some (.insert (peerKey r.peerPublicKey r.timestamp f.path)
        (peerValue f.requestId f.size))
    | .error _ => none
  | fileCompleted f =>
    if f.downloaded = false then none
    else
      match w.getRequest f.requestId with
      | .ok r => some (.remove (peerKey r.peerPublicKey r.timestamp f.path))
      | .error _ => none

/-- What `process_requests` records of a file that was downloaded (`src/peer.rs:139`). -/
def WishList.completion (f : RequestedFile) : WishList.Operation :=
  .fileCompleted { f with downloaded := true }

/-- Subscribe to requested files for a particular peer (`src/wishlist.rs:421`). -/
def WishList.requestsForPeer (w : WishList) (peerPublicKey : PublicKey) :
    Subscription Bytes Bytes compare :=
  .subscribe w.requestedFilesByPeer fun key ↦ peerPublicKey.val.isPrefixOf key

/-- Where `process_requests` is. It waits for a request, is about to set up its download,
receives a file, is through with receiving, or has ended. -/
inductive RequestTask.Stage where
  | waiting
  | starting (request : RequestedFile) (progress : UInt64) (associatedRequest : DownloadRequest)
  | receiving (request : RequestedFile) (associatedRequest : DownloadRequest) (file : List Name)
      (p : Peer.Progress)
  | received (request : RequestedFile) (associatedRequest : DownloadRequest) (p : Peer.Progress)
  | ended (result : Outcome DbError Unit)

/-- A task of `process_requests` (`src/peer.rs:103`), with the stream of its requests, whether
its connection is closed, and the downloads of which it has logged that they failed or were
successful. -/
structure RequestTask where
  publicKey : PublicKey
  peerName : String
  requestStream : Subscription Bytes Bytes compare
  closed : Bool
  failed : List RequestedFile
  succeeded : List RequestedFile
  stage : RequestTask.Stage

namespace RequestTask

/-- The task has ended and dropped its subscription. -/
def hasEnded (t : RequestTask) : Bool :=
  match t.stage with
  | .ended _ => true
  | _ => false

/-- A write to the tree of the outstanding files, if there is one and it is reported, reaches the
subscription of the task. -/
def observe (t : RequestTask) (write : Option (Write Bytes Bytes)) (told : Bool) : RequestTask :=
  match write with
  | some w =>
    if told && !t.hasEnded then { t with requestStream := t.requestStream.deliver w } else t
  | none => t

/-- A request arrives (`src/peer.rs:115`). -/
def take (t : RequestTask) (wishlist : WishList) (request : RequestedFile) : RequestTask :=
  if t.closed then { t with stage := .ended (.ok ()) }
  else
    let progress := (wishlist.getDownloadProgressForRequest request.requestId).toOption.getD 0
    match wishlist.getRequest request.requestId with
    | .error e => { t with stage := .ended (.error e) }
    | .ok associatedRequest => { t with stage := .starting request progress associatedRequest }

/-- The stream goes on by one entry or write; `reread` tells whether the scan sees the tree as it
is now. Records that cannot be decoded are left out. -/
def next (t : RequestTask) (wishlist : WishList) (reread : Bool) : RequestTask :=
  match t.stage with
  | .waiting =>
    let stream :=
      if reread then t.requestStream.refresh wishlist.requestedFilesByPeer else t.requestStream
    let polled := stream.poll
    let t := { t with requestStream := polled.2 }
    match polled.1.bind fun kv ↦ (fromDbKeyValue kv.1 kv.2).toOption with
    | none => t
    | some request => t.take wishlist request
  | _ => t

/-- The download has failed (`src/peer.rs:165`). -/
def fail (t : RequestTask) (request : RequestedFile) : RequestTask :=
  { t with
    failed := t.failed ++ [request]
    stage := if t.closed then .ended (.ok ()) else .waiting }

/-- The download was successful (`src/peer.rs:137`). -/
def succeed (t : RequestTask) (request : RequestedFile) : RequestTask :=
  { t with
    succeeded := t.succeeded ++ [request]
    stage := .waiting }

end RequestTask

/-- The wishlist, the file system, the events that were sent, and the tasks of all connections
to peers. -/
structure Downloads where
  wishlist : WishList
  fs : Fs
  events : List UiEvent
  tasks : List RequestTask

namespace Downloads

/-- Replace a task. -/
def setTask (d : Downloads) (i : Nat) (t : RequestTask) : Downloads :=
  { d with tasks := d.tasks.set i t }

/-- Run an operation of the wishlist; `told` tells whether its write to the tree of the
outstanding files reaches the subscriptions. -/
def perform (d : Downloads) (op : WishList.Operation) (told : Bool) : Downloads :=
  { d with
    wishlist := op.run d.wishlist
    tasks := d.tasks.map (·.observe (op.byPeerWrite d.wishlist) told) }

/-- The start of `download` (`src/peer.rs:182`): the target is set up, and a read request is sent
unless the file is there. `answer` tells whether the request can be sent. -/
def setUp (d : Downloads) (downloadDir : Bytes) (i : Nat) (t : RequestTask)
    (answer : Except TransferError Unit) : Downloads :=
  match t.stage with
  | .starting request progress associatedRequest =>
    match setupDownload d.fs downloadDir request.path request.size with
    | (fs, .error _) => { d with fs := fs }.setTask i (t.fail request)
    | (fs, .ok (file, startOffset)) =>
      let start : Peer.Progress := ⟨fs, startOffset.getD 0, progress, 0, 0, []⟩
      if Peer.alreadyDownloaded startOffset request.size then
        { d with fs := fs }.setTask i { t with stage := .received request associatedRequest start }
      else
        match answer with
        | .error _ => { d with fs := fs }.setTask i (t.fail request)
        | .ok () =>
          { d with fs := fs }.setTask i
            { t with stage := .receiving request associatedRequest file start }
  | _ => d

/-- A block arrives. A failed write ends the loop. -/
def receive (d : Downloads) (i : Nat) (t : RequestTask) (pass : Peer.Pass) : Downloads :=
  match t.stage with
  | .receiving request associatedRequest file p =>
    let p := Peer.downloadPass (Peer.progressEvent request t.peerName associatedRequest) file
      { p with fs := d.fs, events := [] } pass
    let d := { d with fs := p.fs, events := d.events ++ p.events }
    d.setTask i { t with
      stage := if pass.accepted = false then .received request associatedRequest p
        else .receiving request associatedRequest file p }
  | _ => d

/-- The stream of the peer ends. -/
def streamEnd (d : Downloads) (i : Nat) (t : RequestTask) (finalSpeed : UInt32) : Downloads :=
  match t.stage with
  | .receiving request associatedRequest _ p =>
    d.setTask i { t with
      stage := .received request associatedRequest (Peer.downloadEnd finalSpeed p) }
  | _ => d

/-- The end of `download`, and what `process_requests` does with its result at the given second
(`src/peer.rs:137`). -/
def conclude (d : Downloads) (i : Nat) (t : RequestTask) (told : Bool) (now : UInt64) :
    Downloads :=
  match t.stage with
  | .received request associatedRequest p =>
    let event := Peer.progressEvent request t.peerName associatedRequest p.bytesRead
      p.totalBytesRead p.finalSpeed
    let d := { d with events := d.events ++ [event] }
    if p.bytesRead < request.size then d.setTask i (t.fail request)
    else
      let result := (d.wishlist.fileCompleted { request with downloaded := true }).2
      let d := (d.setTask i (t.succeed request)).perform (WishList.completion request) told
      { d with
        events := d.events ++ WishList.completedEvents
          ⟨request.requestId, associatedRequest.path, t.peerName, .completed now⟩ result }
  | _ => d

/-- What can happen next: a download handler of the UI records a request or a file, a peer
connects or its connection closes, or a task goes on. -/
inductive Action where
  | record (op : WishList.Operation) (told : Bool)
  | connect (publicKey : PublicKey) (peerName : String)
  | close (i : Nat)
  | next (i : Nat) (reread : Bool)
  | setUp (i : Nat) (answer : Except TransferError Unit)
  | receive (i : Nat) (pass : Peer.Pass)
  | streamEnd (i : Nat) (finalSpeed : UInt32)
  | conclude (i : Nat) (told : Bool) (now : UInt64)

/-- What a task does when it goes on, if it is there. -/
def onTask (d : Downloads) (i : Nat) (run : RequestTask → Downloads) : Downloads :=
  match d.tasks[i]? with
  | some t => run t
  | none => d

/-- One step of the node. -/
def step (downloadDir : Bytes) (d : Downloads) : Action → Downloads
  | .record op told => d.perform op told
  | .connect publicKey peerName =>
    { d with tasks := d.tasks ++
        [⟨publicKey, peerName, d.wishlist.requestsForPeer publicKey, false, [], [], .waiting⟩] }
  | .close i => d.onTask i fun t ↦ d.setTask i { t with closed := true }
  | .next i reread => d.onTask i fun t ↦ d.setTask i (t.next d.wishlist reread)
  | .setUp i answer => d.onTask i fun t ↦ d.setUp downloadDir i t answer
  | .receive i pass => d.onTask i fun t ↦ d.receive i t pass
  | .streamEnd i finalSpeed => d.onTask i fun t ↦ d.streamEnd i t finalSpeed
  | .conclude i told now => d.onTask i fun t ↦ d.conclude i t told now

/-- There is room for a write in the buffer of every subscription to its key. -/
def Room (capacity : Nat) (d : Downloads) (w : Write Bytes Bytes) : Prop :=
  ∀ t ∈ d.tasks, t.hasEnded = false → t.requestStream.selects w.key = true →
    t.requestStream.buffer.length < capacity

/-- An operation can be run: its write does not wait, and is reported unless it changes
nothing. -/
def CanPerform (capacity : Nat) (d : Downloads) (op : WishList.Operation) (told : Bool) : Prop :=
  ∀ w, op.byPeerWrite d.wishlist = some w → d.Room capacity w ∧
    (told = false → w.apply d.wishlist.requestedFilesByPeer = d.wishlist.requestedFilesByPeer)

/-- What a download handler records (`src/lib.rs:266`): requests with the current second, as
`DownloadRequest::new` makes them, and files that are not downloaded. A listing that repeats the
requested path makes it record its request again, and two requests may have got the same id. -/
def Recordable : WishList.Operation → Prop
  | .addRequest r => r.timestamp.nanos = 0
  | .addRequestedFile f => f.downloaded = false
  | .fileCompleted _ => False

/-- The step does not have to wait for the database. -/
def Enabled (capacity : Nat) (d : Downloads) : Action → Prop
  | .record op told => Recordable op ∧ d.CanPerform capacity op told
  | .conclude i told _ => ∀ t request associatedRequest p, d.tasks[i]? = some t →
      t.stage = .received request associatedRequest p → ¬p.bytesRead < request.size →
        d.CanPerform capacity (WishList.completion request) told
  | _ => True

end Downloads

/-! ### What one step changes -/

namespace WishList

variable {w : WishList}

/-- An operation changes the tree by peer by its write, if it makes one. -/
theorem requestedFilesByPeer_run (op : Operation) :
    (op.run w).requestedFilesByPeer =
      (op.byPeerWrite w).elim w.requestedFilesByPeer (·.apply w.requestedFilesByPeer) := by
  cases op with
  | addRequest r => rfl
  | addRequestedFile f =>
    simp only [Operation.run, Operation.byPeerWrite]
    cases hr : w.getRequest f.requestId with
    | error e =>
      rw [addRequestedFile_error hr]
      rfl
    | ok r =>
      rw [addRequestedFile_eq hr]
      rfl
  | fileCompleted f =>
    simp only [Operation.run, Operation.byPeerWrite, WishList.fileCompleted]
    split
    · rfl
    · cases hr : w.getRequest f.requestId with
      | error e => rfl
      | ok r =>
        dsimp only
        split
        · rfl
        · rfl

end WishList

namespace RequestTask

variable {t : RequestTask} {write : Option (Write Bytes Bytes)} {told : Bool}

/-- A write changes nothing of a task but its stream. -/
theorem observe_eq (t : RequestTask) (write : Option (Write Bytes Bytes)) (told : Bool) :
    t.observe write told =
      { t with requestStream := (t.observe write told).requestStream } := by
  unfold observe
  split
  · split <;> rfl
  · rfl

theorem hasEnded_observe : (t.observe write told).hasEnded = t.hasEnded := by
  rw [observe_eq]
  rfl

end RequestTask

namespace Downloads

/-- The write to the tree of the outstanding files that a step makes, if it makes one. -/
def write (d : Downloads) : Action → Option (Write Bytes Bytes)
  | .record op _ => op.byPeerWrite d.wishlist
  | .conclude i _ _ => d.tasks[i]?.bind fun t ↦
    match t.stage with
    | .received request _ p =>
      if p.bytesRead < request.size then none
      else (WishList.completion request).byPeerWrite d.wishlist
    | _ => none
  | _ => none

/-- The task that goes on with a step, or whose connection is closed. -/
def Action.task : Action → Option Nat
  | .record _ _ | .connect _ _ => none
  | .close i | .next i _ | .setUp i _ | .receive i _ | .streamEnd i _ | .conclude i _ _ => some i

/-- The write of a step is reported to the subscriptions. -/
def Action.told : Action → Bool
  | .record _ told | .conclude _ told _ => told
  | _ => false

variable {d : Downloads} {a : Action} {capacity : Nat}

/-- A step that need not wait has room for its write, and reports it unless it changes nothing. -/
theorem Enabled.write (h : d.Enabled capacity a) {w : Write Bytes Bytes}
    (hw : d.write a = some w) : d.Room capacity w ∧
      (a.told = false →
        w.apply d.wishlist.requestedFilesByPeer = d.wishlist.requestedFilesByPeer) := by
  cases a with
  | record op told => exact h.2 w hw
  | conclude i told now =>
    simp only [Downloads.write] at hw
    obtain ⟨t, ht, hw⟩ := Option.bind_eq_some_iff.mp hw
    split at hw
    · next request associatedRequest p hstage =>
      split at hw
      · cases hw
      · next hreached => exact h t request associatedRequest p ht hstage hreached w hw
    · cases hw
  | connect | close | next | setUp | receive | streamEnd => cases hw

end Downloads

/-- The task has the same stream, has not started again, and forgets no failed download. -/
structure RequestTask.Keeps (t t' : RequestTask) : Prop where
  publicKey : t'.publicKey = t.publicKey
  requestStream : t'.requestStream = t.requestStream
  live : t'.hasEnded = false → t.hasEnded = false
  failed : t.failed <+: t'.failed

theorem RequestTask.keeps_self (t : RequestTask) : t.Keeps t := ⟨rfl, rfl, id, List.prefix_rfl⟩

/-- A task that is live keeps its stream when it goes on to another stage. -/
theorem RequestTask.keeps_stage (t : RequestTask) (h : t.hasEnded = false)
    (stage : RequestTask.Stage) : t.Keeps { t with stage := stage } :=
  ⟨rfl, rfl, fun _ ↦ h, List.prefix_rfl⟩

theorem RequestTask.keeps_fail (t : RequestTask) (h : t.hasEnded = false)
    (request : RequestedFile) : t.Keeps (t.fail request) :=
  ⟨rfl, rfl, fun _ ↦ h, List.prefix_append _ _⟩

theorem RequestTask.keeps_succeed (t : RequestTask) (h : t.hasEnded = false)
    (request : RequestedFile) : t.Keeps (t.succeed request) :=
  ⟨rfl, rfl, fun _ ↦ h, List.prefix_rfl⟩

namespace Downloads

variable {d : Downloads} {t : RequestTask} {i : Nat} {downloadDir : Bytes}

private theorem set_own_task (h : d.tasks[i]? = some t) : d.tasks.set i t = d.tasks := by
  obtain ⟨hlt, rfl⟩ := List.getElem?_eq_some_iff.mp h
  exact List.set_getElem_self hlt

/-- Setting up a download changes the task, and nothing of its stream or of the wishlist. -/
theorem setUp_tasks (h : d.tasks[i]? = some t) (answer : Except TransferError Unit) :
    (d.setUp downloadDir i t answer).wishlist = d.wishlist ∧
      ∃ t', (d.setUp downloadDir i t answer).tasks = d.tasks.set i t' ∧ t.Keeps t' := by
  unfold setUp
  split
  · next request progress associatedRequest hstage =>
    have hlive : t.hasEnded = false := by rw [RequestTask.hasEnded, hstage]
    split
    · exact ⟨rfl, _, rfl, t.keeps_fail hlive _⟩
    · dsimp only
      split
      · exact ⟨rfl, _, rfl, t.keeps_stage hlive _⟩
      · split
        · exact ⟨rfl, _, rfl, t.keeps_fail hlive _⟩
        · exact ⟨rfl, _, rfl, t.keeps_stage hlive _⟩
  · exact ⟨rfl, t, (set_own_task h).symm, t.keeps_self⟩

/-- A block that arrives changes the task, and nothing of its stream or of the wishlist. -/
theorem receive_tasks (h : d.tasks[i]? = some t) (pass : Peer.Pass) :
    (d.receive i t pass).wishlist = d.wishlist ∧
      ∃ t', (d.receive i t pass).tasks = d.tasks.set i t' ∧ t.Keeps t' := by
  unfold receive
  split
  · next request associatedRequest file p hstage =>
    have hlive : t.hasEnded = false := by rw [RequestTask.hasEnded, hstage]
    exact ⟨rfl, _, rfl, t.keeps_stage hlive _⟩
  · exact ⟨rfl, t, (set_own_task h).symm, t.keeps_self⟩

/-- The end of the stream changes the task, and nothing of its stream or of the wishlist. -/
theorem streamEnd_tasks (h : d.tasks[i]? = some t) (finalSpeed : UInt32) :
    (d.streamEnd i t finalSpeed).wishlist = d.wishlist ∧
      ∃ t', (d.streamEnd i t finalSpeed).tasks = d.tasks.set i t' ∧ t.Keeps t' := by
  unfold streamEnd
  split
  · next request associatedRequest file p hstage =>
    have hlive : t.hasEnded = false := by rw [RequestTask.hasEnded, hstage]
    exact ⟨rfl, _, rfl, t.keeps_stage hlive _⟩
  · exact ⟨rfl, t, (set_own_task h).symm, t.keeps_self⟩

/-- The end of a download changes the task, and if it reports success the wishlist. -/
theorem conclude_tasks (h : d.tasks[i]? = some t) (told : Bool) (now : UInt64) :
    ∃ t', t.Keeps t' ∧
      ((d.write (.conclude i told now) = none ∧ (d.conclude i t told now).wishlist = d.wishlist ∧
          (d.conclude i t told now).tasks = d.tasks.set i t') ∨
        ∃ request associatedRequest p, t.stage = .received request associatedRequest p ∧
          ¬p.bytesRead < request.size ∧
          d.write (.conclude i told now) = (WishList.completion request).byPeerWrite d.wishlist ∧
          (d.conclude i t told now).wishlist = (WishList.completion request).run d.wishlist ∧
          (d.conclude i t told now).tasks = (d.tasks.set i t').map
            (·.observe (d.write (.conclude i told now)) told)) := by
  have hwrite : d.write (.conclude i told now) =
      match t.stage with
      | .received request _ p =>
        if p.bytesRead < request.size then none
        else (WishList.completion request).byPeerWrite d.wishlist
      | _ => none := by
    rw [write, h]
    rfl
  rw [hwrite]
  unfold conclude
  cases hstage : t.stage with
  | received request associatedRequest p =>
    have hlive : t.hasEnded = false := by rw [RequestTask.hasEnded, hstage]
    dsimp only
    split
    · exact ⟨t.fail request, t.keeps_fail hlive _, Or.inl ⟨rfl, rfl, rfl⟩⟩
    · next hreached =>
      exact ⟨t.succeed request, t.keeps_succeed hlive _,
        Or.inr ⟨request, associatedRequest, p, rfl, hreached, rfl, rfl, rfl⟩⟩
  | waiting | starting | receiving | ended =>
    exact ⟨t, t.keeps_self, Or.inl ⟨rfl, rfl, (set_own_task h).symm⟩⟩

theorem onTask_of_none {run : RequestTask → Downloads} (h : d.tasks[i]? = none) :
    d.onTask i run = d := by
  rw [onTask, h]

theorem onTask_of_some {run : RequestTask → Downloads} (h : d.tasks[i]? = some t) :
    d.onTask i run = run t := by
  rw [onTask, h]

theorem getElem?_setTask (h : d.tasks[i]? = some t) (t' : RequestTask) :
    (d.setTask i t').tasks[i]? = some t' :=
  List.getElem?_set_self (List.getElem?_eq_some_iff.mp h).1

variable {j : Nat}

private theorem getElem?_set_task (h : d.tasks[i]? = some t) {tj t' : RequestTask}
    (hj : d.tasks[j]? = some tj) (hkeeps : tj.Keeps t') :
    ∃ t₁, (d.tasks.set j t')[i]? = some t₁ ∧ t.Keeps t₁ ∧ (some j ≠ some i → t₁ = t) := by
  by_cases hij : j = i
  · subst hij
    obtain rfl : tj = t := Option.some.inj (hj.symm.trans h)
    exact ⟨t', by rw [List.getElem?_set_self' , h]; rfl, hkeeps, fun hne ↦ absurd rfl hne⟩
  · exact ⟨t, by rw [List.getElem?_set_ne hij, h], t.keeps_self, fun _ ↦ rfl⟩

/-- A task takes the next request from its stream, or it keeps its stream and sees the write of
the step, if there is one. The step of another task changes nothing else. -/
theorem task_step (downloadDir : Bytes) (h : d.tasks[i]? = some t) (a : Action) :
    ∃ t', (d.step downloadDir a).tasks[i]? = some t' ∧
      ((∃ reread, a = .next i reread ∧ t' = t.next d.wishlist reread) ∨
        (∀ reread, a ≠ .next i reread) ∧
          ∃ t₁, t.Keeps t₁ ∧ (a.task ≠ some i → t₁ = t) ∧
            t' = t₁.observe (d.write a) a.told) := by
  have hself := t.keeps_self
  -- a step of the task `j` that keeps its stream and writes nothing
  have quiet (j : Nat) (run : RequestTask → Downloads) (hrun : ∀ tj, d.tasks[j]? = some tj →
      ∃ t', (run tj).tasks = d.tasks.set j t' ∧ tj.Keeps t') :
      ∃ t', (d.onTask j run).tasks[i]? = some t' ∧ t.Keeps t' ∧
        (some j ≠ some i → t' = t) := by
    cases hj : d.tasks[j]? with
    | none =>
      rw [onTask_of_none hj]
      exact ⟨t, h, hself, fun _ ↦ rfl⟩
    | some tj =>
      obtain ⟨t', htasks, hkeeps⟩ := hrun tj hj
      rw [onTask_of_some hj, htasks]
      exact getElem?_set_task h hj hkeeps
  cases a with
  | record op told =>
    refine ⟨t.observe (op.byPeerWrite d.wishlist) told, ?_, Or.inr ⟨(fun _ heq ↦ by cases heq),
      t, hself, fun _ ↦ rfl, rfl⟩⟩
    simp only [step, perform, List.getElem?_map, h, Option.map_some]
  | connect publicKey peerName =>
    refine ⟨t, ?_, Or.inr ⟨(fun _ heq ↦ by cases heq), t, hself, fun _ ↦ rfl, rfl⟩⟩
    have hlt : i < d.tasks.length := (List.getElem?_eq_some_iff.mp h).1
    simp only [step, List.getElem?_append_left hlt, h]
  | close j =>
    obtain ⟨t', ht', hkeeps, hsame⟩ := quiet j (fun t ↦ d.setTask j { t with closed := true })
      fun tj _ ↦ ⟨{ tj with closed := true }, rfl, rfl, rfl, id, List.prefix_rfl⟩
    exact ⟨t', ht', Or.inr ⟨(fun _ heq ↦ by cases heq), t', hkeeps, hsame, rfl⟩⟩
  | next j reread =>
    by_cases hij : j = i
    · subst hij
      refine ⟨t.next d.wishlist reread, ?_, Or.inl ⟨reread, rfl, rfl⟩⟩
      rw [step, onTask_of_some h, getElem?_setTask h]
    · refine ⟨t, ?_, Or.inr ⟨(fun _ heq ↦ by cases heq; exact hij rfl), t, hself,
        fun _ ↦ rfl, rfl⟩⟩
      rw [step]
      cases hj : d.tasks[j]? with
      | none => rw [onTask_of_none hj, h]
      | some tj =>
        rw [onTask_of_some hj, setTask]
        simp only [List.getElem?_set_ne hij, h]
  | setUp j answer =>
    obtain ⟨t', ht', hkeeps, hsame⟩ := quiet j _ fun tj hj ↦ (setUp_tasks hj answer).2
    exact ⟨t', ht', Or.inr ⟨(fun _ heq ↦ by cases heq), t', hkeeps, hsame, rfl⟩⟩
  | receive j pass =>
    obtain ⟨t', ht', hkeeps, hsame⟩ := quiet j _ fun tj hj ↦ (receive_tasks hj pass).2
    exact ⟨t', ht', Or.inr ⟨(fun _ heq ↦ by cases heq), t', hkeeps, hsame, rfl⟩⟩
  | streamEnd j finalSpeed =>
    obtain ⟨t', ht', hkeeps, hsame⟩ := quiet j _ fun tj hj ↦ (streamEnd_tasks hj finalSpeed).2
    exact ⟨t', ht', Or.inr ⟨(fun _ heq ↦ by cases heq), t', hkeeps, hsame, rfl⟩⟩
  | conclude j told now =>
    rw [step]
    cases hj : d.tasks[j]? with
    | none =>
      rw [onTask_of_none hj]
      refine ⟨t, h, Or.inr ⟨(fun _ heq ↦ by cases heq), t, hself, fun _ ↦ rfl, ?_⟩⟩
      rw [write, hj]
      rfl
    | some tj =>
      rw [onTask_of_some hj]
      obtain ⟨t', hkeeps, ⟨hwrite, -, htasks⟩ | ⟨_, _, _, _, _, _, _, htasks⟩⟩ :=
        conclude_tasks hj told now
      · obtain ⟨t₁, ht₁, hkeeps₁, hsame⟩ := getElem?_set_task h hj hkeeps
        rw [htasks, hwrite]
        exact ⟨t₁, ht₁, Or.inr ⟨(fun _ heq ↦ by cases heq), t₁, hkeeps₁, hsame, rfl⟩⟩
      · obtain ⟨t₁, ht₁, hkeeps₁, hsame⟩ := getElem?_set_task h hj hkeeps
        rw [htasks, List.getElem?_map, ht₁]
        exact ⟨_, rfl, Or.inr ⟨(fun _ heq ↦ by cases heq), t₁, hkeeps₁, hsame, rfl⟩⟩

/-- A step changes the tree of the outstanding files by its write, if it makes one. -/
theorem requestedFilesByPeer_step (d : Downloads) (a : Action) :
    (d.step downloadDir a).wishlist.requestedFilesByPeer =
      (d.write a).elim d.wishlist.requestedFilesByPeer
        (·.apply d.wishlist.requestedFilesByPeer) := by
  have quiet (j : Nat) (run : RequestTask → Downloads)
      (hrun : ∀ tj, d.tasks[j]? = some tj → (run tj).wishlist = d.wishlist) :
      (d.onTask j run).wishlist = d.wishlist := by
    cases hj : d.tasks[j]? with
    | none => rw [onTask_of_none hj]
    | some tj => rw [onTask_of_some hj, hrun tj hj]
  cases a with
  | record op told => exact WishList.requestedFilesByPeer_run op
  | connect publicKey peerName => rfl
  | close j => exact congrArg WishList.requestedFilesByPeer (quiet j _ fun _ _ ↦ rfl)
  | next j reread => exact congrArg WishList.requestedFilesByPeer (quiet j _ fun _ _ ↦ rfl)
  | setUp j answer =>
    exact congrArg WishList.requestedFilesByPeer
      (quiet j _ fun tj hj ↦ (setUp_tasks hj answer).1)
  | receive j pass =>
    exact congrArg WishList.requestedFilesByPeer
      (quiet j _ fun tj hj ↦ (receive_tasks hj pass).1)
  | streamEnd j finalSpeed =>
    exact congrArg WishList.requestedFilesByPeer
      (quiet j _ fun tj hj ↦ (streamEnd_tasks hj finalSpeed).1)
  | conclude j told now =>
    rw [step]
    cases hj : d.tasks[j]? with
    | none =>
      rw [onTask_of_none hj, write, hj]
      rfl
    | some tj =>
      rw [onTask_of_some hj]
      obtain ⟨t', -, ⟨hwrite, hwishlist, -⟩ | ⟨f, _, _, _, _, hwrite, hwishlist, -⟩⟩ :=
        conclude_tasks hj told now
      · rw [hwrite, hwishlist]
        rfl
      · rw [hwrite, hwishlist]
        exact WishList.requestedFilesByPeer_run (WishList.completion f)

end Downloads

end HarddriveParty
