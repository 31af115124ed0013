import HarddriveParty.Node.RequestOrder

/-!
# A backlog longer than the buffer

While a task scans the files that are outstanding for its peer, it takes nothing from the buffer
of its subscription, and the removal of each file that it completes goes there. A backlog longer
than the buffer is therefore never downloaded without a failure: once the buffer is full the task
waits for room that only the task itself could make. This rests on that the removal is one of a
record of the same peer, and for the scan on that it is the one of the very record: a request that
is recorded again under its id must keep its peer, or its keys.
-/

namespace HarddriveParty

open OrderedTree RequestedFile Watch Runs

namespace WishList

variable {w : WishList}

variable {β : Type} {common : DownloadRequest → β} {publicKey : PublicKey}

/-- Every entry that a subscription for a peer selects is read as an outstanding file. -/
private theorem Readable.decode (h : w.Readable common) {kv : Bytes × Bytes}
    (hkv : kv ∈ selected w.requestedFilesByPeer fun key ↦ publicKey.val.isPrefixOf key) :
    ∃ f, (fromDbKeyValue kv.1 kv.2).toOption = some f := by
  obtain ⟨hget, hsel⟩ := Subscription.mem_selected.mp hkv
  obtain ⟨f, hf⟩ := h.fileRecord hget hsel
  exact ⟨f, by rw [hf.decode]; rfl⟩

/-- In a readable wishlist every record of a peer is the one of an outstanding file. -/
theorem Readable.length_existingRequests (h : w.Readable common) (publicKey : PublicKey) :
    (w.existingRequests publicKey).length =
      (selected w.requestedFilesByPeer fun key ↦ publicKey.val.isPrefixOf key).length := by
  rw [existingRequests, List.length_filterMap_eq_countP]
  refine List.countP_eq_length.mpr fun kv hkv ↦ ?_
  obtain ⟨f, hf⟩ := h.decode hkv
  rw [hf]
  rfl

/-- The files whose records are still there are still outstanding. -/
theorem Readable.length_still (h : w.Readable common) (w' : WishList) (publicKey : PublicKey) :
    ((selected w.requestedFilesByPeer fun key ↦ publicKey.val.isPrefixOf key).filter
        fun kv ↦ w'.requestedFilesByPeer[kv.1]? = some kv.2).length ≤
      ((w.existingRequests publicKey).filter
        fun f ↦ f ∈ w'.existingRequests publicKey).length := by
  have hfiles : w.existingRequests publicKey =
      (selected w.requestedFilesByPeer fun key ↦ publicKey.val.isPrefixOf key).filterMap
        fun kv ↦ (fromDbKeyValue kv.1 kv.2).toOption := rfl
  rw [hfiles, List.filter_filterMap, List.length_filterMap_eq_countP,
    ← List.countP_eq_length_filter]
  refine List.countP_mono_left fun kv hkv hstill ↦ ?_
  obtain ⟨f, hf⟩ := h.decode hkv
  have hmem : f ∈ w'.existingRequests publicKey := by
    refine List.mem_filterMap.mpr ⟨kv, mem_scanPrefix.mpr ⟨of_decide_eq_true hstill, ?_⟩, hf⟩
    exact List.isPrefixOf_iff_prefix.mp (Subscription.mem_selected.mp hkv).2
  simp [hf, Option.filter, hmem]

end WishList

namespace RequestTask

variable {t : RequestTask} {w : WishList}

/-- Taking a request, a task stays with its peer and forgets no failed download. -/
theorem next_fields (t : RequestTask) (w : WishList) (reread : Bool) :
    (t.next w reread).publicKey = t.publicKey ∧ (t.next w reread).failed = t.failed := by
  have htake (t : RequestTask) (f : RequestedFile) :
      (t.take w f).publicKey = t.publicKey ∧ (t.take w f).failed = t.failed := by
    unfold take
    split
    · exact ⟨rfl, rfl⟩
    · dsimp only
      split <;> exact ⟨rfl, rfl⟩
  unfold next
  split
  · dsimp only
    split
    · exact ⟨rfl, rfl⟩
    · exact htake _ _
  · exact ⟨rfl, rfl⟩

/-- The buffer of a live task is not longer than it may be, and unless a download has failed the
task still scans its backlog, which is longer. -/
structure ScansOn (capacity : Nat) (start : Tree) (w : WishList) (t : RequestTask) : Prop where
  room : t.hasEnded = false → t.requestStream.buffer.length ≤ capacity
  long : capacity < (selected start t.requestStream.selects).length
  backlog : t.hasEnded = false → t.failed = [] →
    t.requestStream.Backlog start w.requestedFilesByPeer

/-- The task takes its next request, and the scan does not come to its end. -/
theorem ScansOn.next {capacity : Nat} {start : Tree} (h : t.ScansOn capacity start w)
    (hsound : t.Sound DownloadRequest.recordedAt w) (reread : Bool) :
    (t.next w reread).ScansOn capacity start w := by
  by_cases hwaiting : t.stage = .waiting
  · have hlive : t.hasEnded = false := by rw [hasEnded, hwaiting]
    have hroom := h.room hlive
    obtain ⟨stream, hstream, hbuffer, hselects⟩ : ∃ stream, stream = (if reread then
        t.requestStream.refresh w.requestedFilesByPeer else t.requestStream) ∧
          stream.buffer = t.requestStream.buffer ∧
          stream.selects = t.requestStream.selects := by
      refine ⟨_, rfl, ?_⟩
      split <;> exact ⟨rfl, rfl⟩
    refine ⟨fun _ ↦ ?_, ?_, fun _ hfailed ↦ ?_⟩
    · rw [(next_of_waiting hwaiting reread).1, ← hstream]
      exact (Subscription.length_buffer_poll_le stream).trans (by rw [hbuffer]; exact hroom)
    · rw [(next_of_waiting hwaiting reread).1, ← hstream, Subscription.selects_poll, hselects]
      exact h.long
    · rw [(next_fields t w reread).2] at hfailed
      -- what the task has tried so far is not outstanding any more
      have hcovers : t.requestStream.Covers w.requestedFilesByPeer fun _ ↦ False := by
        refine (hsound.covers hlive).mono fun k v _ _ hhanded ↦ ?_
        obtain ⟨f, -, htried⟩ := hhanded
        rcases done_of_waiting hwaiting htried with hmem | ⟨hmoves, -⟩
        · rw [hfailed] at hmem
          cases hmem
        · exact hmoves fixesKeys_recordedAt
      have hbacklog := h.backlog hlive hfailed
      have hready : stream.Backlog start w.requestedFilesByPeer ∧
          stream.Covers w.requestedFilesByPeer fun _ ↦ False := by
        rw [hstream]
        split
        · exact ⟨hbacklog.refresh _, hcovers.refresh⟩
        · exact ⟨hbacklog, hcovers⟩
      rw [(next_of_waiting hwaiting reread).1, ← hstream]
      refine hready.1.poll hready.2 ?_
      rw [hbuffer, hselects]
      exact Nat.lt_of_le_of_lt hroom h.long
  · rw [(next_of_not_waiting hwaiting reread).1]
    exact h

end RequestTask

namespace Downloads

variable {d : Downloads} {t : RequestTask} {i capacity : Nat} {downloadDir : Bytes}
  {publicKey : PublicKey} {a : Action} {start : Tree}

/-! ### A long backlog -/

/-- The task `i` works for this peer and scans its backlog, the records of the peer at the
start. -/
def TaskScansOn (capacity : Nat) (start : Tree) (i : Nat) (publicKey : PublicKey)
    (d : Downloads) : Prop :=
  ∃ t, d.tasks[i]? = some t ∧ t.publicKey = publicKey ∧ t.ScansOn capacity start d.wishlist

/-- A write that is not reported, and a step that writes nothing, leave the outstanding files. -/
private theorem byPeer_of_quiet (ha : d.Enabled capacity a)
    (hquiet : a.told = false ∨ d.write a = none) :
    (d.step downloadDir a).wishlist.requestedFilesByPeer = d.wishlist.requestedFilesByPeer := by
  rw [requestedFilesByPeer_step]
  cases hw : d.write a with
  | none => rfl
  | some w =>
    rcases hquiet with hsilent | hnone
    · exact (ha.write hw).2 hsilent
    · rw [hw] at hnone
      cases hnone

/-- Whatever happens next, the task does not come to the end of its scan. -/
theorem TaskScansOn.step (h : TaskScansOn capacity start i publicKey d)
    (hd : d.Sound DownloadRequest.recordedAt) (ha : d.Enabled capacity a) :
    TaskScansOn capacity start i publicKey (d.step downloadDir a) := by
  obtain ⟨t, hi, hpeer, hscans⟩ := h
  have hmem : t ∈ d.tasks := List.mem_of_getElem? hi
  obtain ⟨t', hi', ⟨reread, rfl, rfl⟩ | ⟨-, t₁, hkeeps, -, rfl⟩⟩ :=
    task_step downloadDir hi a
  · have hsame : (d.step downloadDir (.next i reread)).wishlist = d.wishlist := by
      rw [Downloads.step, onTask_of_some hi]
      rfl
    refine ⟨_, hi', (RequestTask.next_fields t _ reread).1.trans hpeer, ?_⟩
    rw [hsame]
    exact hscans.next (hd.tasks t hmem) reread
  · -- what the task had before the write of the step
    have hlive {told : Bool} (h : (t₁.observe (d.write a) told).hasEnded = false) :
        t.hasEnded = false := hkeeps.live (RequestTask.hasEnded_observe ▸ h)
    have hroom (h : t.hasEnded = false) : t₁.requestStream.buffer.length ≤ capacity := by
      rw [hkeeps.requestStream]
      exact hscans.room h
    have hbacklog (h : t.hasEnded = false) (hfailed : t₁.failed = []) :
        t₁.requestStream.Backlog start d.wishlist.requestedFilesByPeer := by
      rw [hkeeps.requestStream]
      refine hscans.backlog h (List.prefix_nil.mp ?_)
      rw [← hfailed]
      exact hkeeps.failed
    have hlong : capacity < (selected start t₁.requestStream.selects).length := by
      rw [hkeeps.requestStream]
      exact hscans.long
    refine ⟨_, hi', ?_, ?_⟩
    · rw [RequestTask.observe_eq]
      exact hkeeps.publicKey.trans hpeer
    · rcases RequestTask.requestStream_observe t₁ (d.write a) a.told with
        ⟨hsame, hreason⟩ | ⟨w, hw, -, hlive₁, hstream⟩
      · refine ⟨fun hl ↦ ?_, by rw [hsame]; exact hlong, fun hl hfailed ↦ ?_⟩
        · rw [hsame]
          exact hroom (hlive hl)
        · rw [RequestTask.hasEnded_observe] at hl
          rw [RequestTask.observe_eq] at hfailed
          rw [hsame, byPeer_of_quiet ha (hreason.resolve_left (by simp [hl]))]
          exact hbacklog (hkeeps.live hl) hfailed
      · have hl := hkeeps.live hlive₁
        refine ⟨fun _ ↦ ?_, by rw [hstream, Subscription.selects_deliver]; exact hlong,
          fun _ hfailed ↦ ?_⟩
        · rw [hstream, Subscription.buffer_deliver]
          split
          · next hsel =>
            rw [hkeeps.requestStream] at hsel ⊢
            rw [List.length_append]
            exact (ha.write hw).1 t hmem hl hsel
          · exact hroom hl
        · rw [RequestTask.observe_eq] at hfailed
          rw [hstream, requestedFilesByPeer_step, hw]
          exact (hbacklog hl hfailed).write w

/-- When a peer connects from which more files are outstanding than writes fit into the buffer,
its task does not get through them without a failure: as long as it runs and no download has
failed, it has not come to the end of its scan, and all of these files stay outstanding but as
many as fit into the buffer. Requests that are recorded again keep their peer and their second. -/
theorem long_backlog_stays (hread : d.wishlist.Readable DownloadRequest.recordedAt)
    (hnone : d.tasks = []) {before after : List Action} {peerName : String}
    (hrun : EachStep (step downloadDir) (Enabled capacity) d
      (before ++ .connect publicKey peerName :: after))
    (hagain : EachStep (step downloadDir) (Again DownloadRequest.recordedAt) d
      (before ++ .connect publicKey peerName :: after))
    (hlong : capacity <
      ((finalState (step downloadDir) d before).wishlist.existingRequests publicKey).length) :
    let connecting := finalState (step downloadDir) d before
    let backlog := connecting.wishlist.existingRequests publicKey
    EachState (step downloadDir) (fun d' ↦ ∀ t, d'.tasks[connecting.tasks.length]? = some t →
      t.hasEnded = false → t.failed = [] → t.requestStream.scan ≠ none ∧ backlog.length ≤
        (backlog.filter fun f ↦ f ∈ d'.wishlist.existingRequests publicKey).length + capacity)
      (connecting.step downloadDir (.connect publicKey peerName)) after := by
  intro connecting backlog
  obtain ⟨hbefore, hconnect, hafter⟩ := eachStep_append.mp hrun
  obtain ⟨hbefore', hconnect', hafter'⟩ := eachStep_append.mp hagain
  have hsound : connecting.Sound DownloadRequest.recordedAt :=
    (eachState_sound hread hnone hbefore hbefore').final
  have hlength := hsound.readable.length_existingRequests publicKey
  have hstart : TaskScansOn capacity connecting.wishlist.requestedFilesByPeer
      connecting.tasks.length publicKey
      (connecting.step downloadDir (.connect publicKey peerName)) :=
    ⟨_, List.getElem?_concat_length, rfl, fun _ ↦ Nat.zero_le _, hlength ▸ hlong,
      fun _ _ ↦ Subscription.backlog_subscribe _ _⟩
  refine (eachState_of_invariant (I := fun d' ↦ d'.Sound DownloadRequest.recordedAt ∧
      TaskScansOn capacity connecting.wishlist.requestedFilesByPeer connecting.tasks.length
        publicKey d') ⟨hsound.step hconnect hconnect', hstart⟩ (hafter.and hafter')
    fun d' a h ha ↦ ⟨h.1.step ha.1 ha.2, h.2.step h.1 ha.1⟩).mono ?_
  rintro d' ⟨hd', t, hi, hpeer, hscans⟩ t' hi' hlive hfailed
  obtain rfl : t' = t := Option.some.inj (hi'.symm.trans hi)
  have hbacklog := hscans.backlog hlive hfailed
  refine ⟨hbacklog.scanning, ?_⟩
  have hcount := hbacklog.length_le
  rw [(hd'.tasks t' (List.mem_of_getElem? hi)).selects, hpeer, ← hlength] at hcount
  exact hcount.trans (Nat.add_le_add (hsound.readable.length_still d'.wishlist publicKey)
    (hscans.room hlive))

/-! ### A full buffer -/

/-- The task is through with receiving the whole file of a request, and its buffer is full. -/
def isBlocked (capacity : Nat) (t : RequestTask) : Bool :=
  match t.stage with
  | .received request _ p =>
    decide (¬p.bytesRead < request.size) && decide (capacity ≤ t.requestStream.buffer.length)
  | _ => false

/-- The same as a structure. -/
structure Blocked (capacity : Nat) (t : RequestTask) (request : RequestedFile)
    (associatedRequest : DownloadRequest) (p : Peer.Progress) : Prop where
  stage : t.stage = .received request associatedRequest p
  reached : ¬p.bytesRead < request.size
  full : capacity ≤ t.requestStream.buffer.length

/-- A blocked task has a request that it was going to report as complete. -/
private theorem exists_blocked (h : isBlocked capacity t = true) :
    ∃ request associatedRequest p, Blocked capacity t request associatedRequest p := by
  unfold isBlocked at h
  split at h
  · next request associatedRequest p hstage =>
    rw [Bool.and_eq_true, decide_eq_true_eq, decide_eq_true_eq] at h
    exact ⟨request, associatedRequest, p, hstage, h.1, h.2⟩
  · cases h

variable {request : RequestedFile} {associatedRequest : DownloadRequest} {p : Peer.Progress}

/-- The record that the completion of a task's file removes is one of its peer. -/
private theorem byPeerWrite_completion (hd : d.Sound DownloadRequest.peerPublicKey)
    (ht : t ∈ d.tasks)
    (hcurrent : t.current = some (request, associatedRequest)) :
    ∃ w, (WishList.completion request).byPeerWrite d.wishlist = some w ∧
      t.requestStream.selects w.key = true := by
  obtain ⟨r, hr, hpeer⟩ :=
    ((hd.tasks t ht).working _ _ hcurrent).peer_recorded fixesPeer_peerPublicKey
  refine ⟨.remove (peerKey r.peerPublicKey r.timestamp request.path), ?_, ?_⟩
  · simp [WishList.completion, WishList.Operation.byPeerWrite, hr]
  · rw [(hd.tasks t ht).selects]
    exact WishList.isPrefixOf_peerKey.mpr hpeer

/-- While a buffer is full, no step writes to a record of its peer. -/
private theorem not_selects_of_full (ht : t ∈ d.tasks) (hlive : t.hasEnded = false)
    (hfull : capacity ≤ t.requestStream.buffer.length) (ha : d.Enabled capacity a)
    {w : Write Bytes Bytes} (hw : d.write a = some w) : t.requestStream.selects w.key = false := by
  by_contra hsel
  have hroom := (ha.write hw).1 t ht hlive (by simpa using hsel)
  omega

/-- A step that does not write to a record of a peer leaves its outstanding files. -/
private theorem existingRequests_step (hkeeps : ∀ w, d.write a = some w →
      publicKey.val.isPrefixOf w.key = false) :
    (d.step downloadDir a).wishlist.existingRequests publicKey =
      d.wishlist.existingRequests publicKey := by
  rw [WishList.existingRequests, WishList.existingRequests, requestedFilesByPeer_step]
  cases hw : d.write a with
  | none => rfl
  | some w =>
    have hsame : scanPrefix (w.apply d.wishlist.requestedFilesByPeer) publicKey.val =
        scanPrefix d.wishlist.requestedFilesByPeer publicKey.val := by
      refine scanPrefix_congr fun k hk ↦ ?_
      rw [Write.getElem?_apply, if_neg]
      rintro rfl
      have hnot := hkeeps w hw
      rw [List.isPrefixOf_iff_prefix.mpr hk] at hnot
      cases hnot
    exact congrArg _ hsame

/-- A blocked task stays where it is, whatever happens next. -/
private theorem Blocked.step (h : Blocked capacity t request associatedRequest p)
    (hd : d.Sound DownloadRequest.peerPublicKey) (hi : d.tasks[i]? = some t)
    (ha : d.Enabled capacity a) :
    (∃ t', (d.step downloadDir a).tasks[i]? = some t' ∧ t'.publicKey = t.publicKey ∧
        t'.stage = t.stage ∧ t'.requestStream = t.requestStream) ∧
      (d.step downloadDir a).wishlist.existingRequests t.publicKey =
        d.wishlist.existingRequests t.publicKey := by
  have ht : t ∈ d.tasks := List.mem_of_getElem? hi
  have hlive : t.hasEnded = false := by rw [RequestTask.hasEnded, h.stage]
  have hnot {w : Write Bytes Bytes} (hw : d.write a = some w) :=
    not_selects_of_full ht hlive h.full ha hw
  refine ⟨?_, existingRequests_step fun w hw ↦ ?_⟩
  · by_cases htask : a.task = some i
    · -- only closing its connection changes a blocked task
      have hsame {run : RequestTask → Downloads} (hrun : run t = d) : d.onTask i run = d :=
        (onTask_of_some hi).trans hrun
      cases a with
      | record | connect => cases htask
      | close j =>
        cases htask
        refine ⟨{ t with closed := true }, ?_, rfl, rfl, rfl⟩
        rw [Downloads.step, onTask_of_some hi, getElem?_setTask hi]
      | next j reread =>
        cases htask
        have hnext : t.next d.wishlist reread = t := by rw [RequestTask.next, h.stage]
        refine ⟨t, ?_, rfl, rfl, rfl⟩
        rw [Downloads.step, onTask_of_some hi, hnext, getElem?_setTask hi]
      | setUp j answer =>
        cases htask
        refine ⟨t, ?_, rfl, rfl, rfl⟩
        rw [Downloads.step, hsame (by rw [Downloads.setUp, h.stage]), hi]
      | receive j pass =>
        cases htask
        refine ⟨t, ?_, rfl, rfl, rfl⟩
        rw [Downloads.step, hsame (by rw [Downloads.receive, h.stage]), hi]
      | streamEnd j finalSpeed =>
        cases htask
        refine ⟨t, ?_, rfl, rfl, rfl⟩
        rw [Downloads.step, hsame (by rw [Downloads.streamEnd, h.stage]), hi]
      | conclude j told now =>
        -- its completion waits for room in its own buffer
        cases htask
        exfalso
        obtain ⟨w, hw, hsel⟩ := byPeerWrite_completion hd ht (by rw [RequestTask.current, h.stage])
        have hroom := (ha t _ _ _ hi h.stage h.reached w hw).1 t ht hlive hsel
        have hfull := h.full
        omega
    · obtain ⟨t', hi', ⟨reread, rfl, -⟩ | ⟨-, t₁, -, hsame, rfl⟩⟩ :=
        task_step downloadDir hi a
      · exact absurd rfl htask
      · obtain rfl := hsame htask
        refine ⟨_, hi', by rw [RequestTask.observe_eq], by rw [RequestTask.observe_eq], ?_⟩
        rcases RequestTask.requestStream_observe t₁ (d.write a) a.told with
          ⟨hsame, -⟩ | ⟨w, hw, -, -, hstream⟩
        · exact hsame
        · rw [hstream, Subscription.deliver, if_neg (by simp [hnot hw])]
  · have hsel := hnot hw
    rw [(hd.tasks t ht).selects] at hsel
    exact hsel

/-- A task that has received the whole of a file while its buffer is full never goes on, whatever
happens next, and no file is completed or recorded for its peer any more. Requests that are
recorded again keep their peer. -/
theorem full_buffer_blocks (hread : d.wishlist.Readable DownloadRequest.peerPublicKey)
    (hnone : d.tasks = []) {before after : List Action}
    (hrun : EachStep (step downloadDir) (Enabled capacity) d (before ++ after))
    (hagain : EachStep (step downloadDir) (Again DownloadRequest.peerPublicKey) d
      (before ++ after))
    (hi : (finalState (step downloadDir) d before).tasks[i]? = some t)
    (hblocked : isBlocked capacity t = true) :
    let full := finalState (step downloadDir) d before
    EachState (step downloadDir) (fun d' ↦
      (∃ t', d'.tasks[i]? = some t' ∧ t'.stage = t.stage ∧
        t'.requestStream = t.requestStream) ∧
      d'.wishlist.existingRequests t.publicKey = full.wishlist.existingRequests t.publicKey)
      full after := by
  intro full
  obtain ⟨request, associatedRequest, p, hblocked⟩ := exists_blocked hblocked
  obtain ⟨hbefore, hafter⟩ := eachStep_append.mp hrun
  obtain ⟨hbefore', hafter'⟩ := eachStep_append.mp hagain
  have hsound : full.Sound DownloadRequest.peerPublicKey :=
    (eachState_sound hread hnone hbefore hbefore').final
  refine (eachState_of_invariant (I := fun d' ↦ d'.Sound DownloadRequest.peerPublicKey ∧
      (∃ t', d'.tasks[i]? = some t' ∧ t'.publicKey = t.publicKey ∧ t'.stage = t.stage ∧
        t'.requestStream = t.requestStream) ∧
      d'.wishlist.existingRequests t.publicKey = full.wishlist.existingRequests t.publicKey)
    ⟨hsound, ⟨t, hi, rfl, rfl, rfl⟩, rfl⟩ (hafter.and hafter') ?_).mono ?_
  · rintro d' a ⟨hd', ⟨t', hi', hpeer, hstage, hstream⟩, hsame⟩ ⟨ha, hagain⟩
    have hstill : Blocked capacity t' request associatedRequest p :=
      ⟨hstage.trans hblocked.stage, hblocked.reached, hstream ▸ hblocked.full⟩
    obtain ⟨⟨t'', hi'', hpeer'', hstage'', hstream''⟩, hsame''⟩ := hstill.step hd' hi' ha
    refine ⟨hd'.step ha hagain, ⟨t'', hi'', hpeer''.trans hpeer, hstage''.trans hstage,
      hstream''.trans hstream⟩, ?_⟩
    rw [← hpeer, hsame'', hpeer, hsame]
  · rintro d' ⟨-, ⟨t', hi', -, hstage, hstream⟩, hsame⟩
    exact ⟨⟨t', hi', hstage, hstream⟩, hsame⟩

section Example

open WishList Attempt

/-- The request for a directory with two files is recorded. -/
def twoFiles : List Action :=
  [.record (.addRequest musicRequest) true,
    .record (.addRequestedFile ⟨"music/one.mp3", 3, 1, false⟩) true,
    .record (.addRequestedFile ⟨"music/two.mp3", 2, 1, false⟩) true]

/-- The whole of a file is received by the task of the only peer. -/
def receiveAll (content : Bytes) : List Action :=
  [.next 0 false, .setUp 0 (.ok ()), .receive 0 ⟨content, content.length, true, 0, 0⟩,
    .streamEnd 0 0]

/-- The peer connects, and sends both files; the first one is completed. -/
def twoDownloads : List Action :=
  receiveAll [1, 2, 3] ++ .conclude 0 true 0 :: receiveAll [4, 5]

/-- With room for one write every step can be made until both files are received. -/
theorem twoDownloads_enabled : EachStep (step exampleJob.downloadDir) (Enabled 1) idleNode
    (twoFiles ++ .connect exampleKey "peer" :: twoDownloads) :=
  ⟨⟨rfl, canPerform_of_no_tasks rfl _⟩, ⟨rfl, canPerform_of_no_tasks rfl _⟩,
    ⟨rfl, canPerform_of_no_tasks rfl _⟩, trivial, trivial, trivial, trivial, trivial,
    enabled_conclude (by decide +kernel), trivial, trivial, trivial, trivial, trivial⟩

/-- The request is recorded once. -/
private theorem twoDownloads_again {β : Type} (common : DownloadRequest → β) :
    EachStep (step exampleJob.downloadDir) (Again common) idleNode
      (twoFiles ++ .connect exampleKey "peer" :: twoDownloads) := by
  refine ⟨fun r hr ↦ ?_, trivial, trivial, trivial, trivial, trivial, trivial, trivial, trivial,
    trivial, trivial, trivial, trivial, trivial⟩
  cases hr

/-- More files are outstanding than writes fit into the buffer, so one of them stays. -/
theorem long_backlog_stays_twoFiles :
    let connecting := finalState (step exampleJob.downloadDir) idleNode twoFiles
    let backlog := connecting.wishlist.existingRequests exampleKey
    backlog.length = 2 ∧
    EachState (step exampleJob.downloadDir) (fun d' ↦ ∀ t, d'.tasks[0]? = some t →
      t.hasEnded = false → t.failed = [] → t.requestStream.scan ≠ none ∧ backlog.length ≤
        (backlog.filter fun f ↦ f ∈ d'.wishlist.existingRequests exampleKey).length + 1)
      (connecting.step exampleJob.downloadDir (.connect exampleKey "peer")) twoDownloads :=
  ⟨by decide +kernel, long_backlog_stays (readable_idleNode _) rfl twoDownloads_enabled
    (twoDownloads_again _) (by decide +kernel)⟩

/-- After one download the buffer is full, so the task does not get over the second one. -/
theorem full_buffer_blocks_twoFiles :
    ∃ t, (finalState (step exampleJob.downloadDir) idleNode
      (twoFiles ++ .connect exampleKey "peer" :: twoDownloads)).tasks[0]? = some t ∧
    EachState (step exampleJob.downloadDir) (fun d' ↦
      (∃ t', d'.tasks[0]? = some t' ∧ t'.stage = t.stage ∧ t'.requestStream = t.requestStream) ∧
      d'.wishlist.existingRequests t.publicKey =
        (finalState (step exampleJob.downloadDir) idleNode
          (twoFiles ++ .connect exampleKey "peer" :: twoDownloads)).wishlist.existingRequests
            t.publicKey)
      (finalState (step exampleJob.downloadDir) idleNode
        (twoFiles ++ .connect exampleKey "peer" :: twoDownloads))
      [.next 0 true, .connect exampleKey "peer", .close 0, .streamEnd 0 0] := by
  have hblocked : (finalState (step exampleJob.downloadDir) idleNode
      (twoFiles ++ .connect exampleKey "peer" :: twoDownloads)).tasks[0]?.any
        (isBlocked 1) = true := by
    decide +kernel
  obtain ⟨t, hi, hblocked⟩ := (Option.any_eq_true _ _).mp hblocked
  refine ⟨t, hi, full_buffer_blocks (readable_idleNode _) rfl ?_ ?_ hi hblocked⟩
  · exact eachStep_append.mpr ⟨twoDownloads_enabled, trivial, trivial, trivial, trivial, trivial⟩
  · exact eachStep_append.mpr ⟨twoDownloads_again _, trivial, trivial, trivial, trivial, trivial⟩

end Example

end Downloads

end HarddriveParty
