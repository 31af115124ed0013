import HarddriveParty.Node.PeerTasks

/-!
# What the download tasks leave outstanding

Nothing outstanding is passed over between the records that a task finds when its peer connects
and the ones that are added later, in whatever order the tasks and the download handlers make
their steps. A task that waits with nothing more to take has tried every file that is still
outstanding for its peer.

A request may be recorded again under its id, in another second when a listing repeats the
requested path, and for another peer when two requests got the same id. The files of the request
then get new keys, while the records under the old ones stay where they are. What a run says
about them depends on what such a request has in common with the one before it.
-/

namespace HarddriveParty

open OrderedTree RequestedFile Watch Runs

/-- What the keys of the files of a request are made of, apart from their paths. -/
def DownloadRequest.recordedAt (r : DownloadRequest) : PublicKey × UInt64 :=
  (r.peerPublicKey, r.timestamp.secs)

section Common

variable {β : Type}

/-- Requests that have this in common have the same peer. -/
def FixesPeer (common : DownloadRequest → β) : Prop :=
  ∀ r r', common r = common r' → r.peerPublicKey = r'.peerPublicKey

/-- Requests that have this in common have the same keys for their files. -/
def FixesKeys (common : DownloadRequest → β) : Prop :=
  ∀ r r', common r = common r' → r.recordedAt = r'.recordedAt

theorem fixesPeer_peerPublicKey : FixesPeer DownloadRequest.peerPublicKey := fun _ _ h ↦ h

theorem fixesKeys_recordedAt : FixesKeys DownloadRequest.recordedAt := fun _ _ h ↦ h

end Common

namespace WishList

section Records

variable {β : Type} (common : DownloadRequest → β)

/-- The entry of the tree by peer is a record of this file, requested from this peer. Its request
is recorded, perhaps not the same as when the entry was made, but one that has this in common
with it. -/
def FileRecord (w : WishList) (peerPublicKey : PublicKey) (kv : Bytes × Bytes) (f : RequestedFile) :
    Prop :=
  ∃ r r', w.getRequest f.requestId = .ok r' ∧ common r = common r' ∧
    r.peerPublicKey = peerPublicKey ∧
    kv = (peerKey r.peerPublicKey r.timestamp f.path, peerValue f.requestId f.size) ∧
    f.downloaded = false

/-- Every entry of the tree by peer is a record of a file. -/
def Readable (w : WishList) : Prop :=
  ∀ k v, w.requestedFilesByPeer[k]? = some v →
    ∃ peerPublicKey f, w.FileRecord common peerPublicKey (k, v) f

/-- A request that is recorded under the id of another one has this in common with it. -/
def Operation.Again (w : WishList) : Operation → Prop
  | addRequest r => ∀ r', w.getRequest r.requestId = .ok r' → common r' = common r
  | addRequestedFile _ | fileCompleted _ => True

/-- The requests stay recorded, perhaps as others that have this in common with them. -/
def KeepsRequests (w w' : WishList) : Prop :=
  ∀ id r, w.getRequest id = .ok r → ∃ r', w'.getRequest id = .ok r' ∧ common r = common r'

end Records

variable {β : Type} {common : DownloadRequest → β} {w w' : WishList} {peerPublicKey : PublicKey}
  {kv : Bytes × Bytes} {f : RequestedFile} {op : Operation}

/-- A wishlist in which no request was recorded again is readable. -/
theorem Valid.readable (h : Valid w) : w.Readable common := by
  intro k v hkv
  obtain ⟨r, path, size, hr, rfl, rfl⟩ := h.byPeer k v hkv
  exact ⟨r.peerPublicKey, ⟨path, size, r.requestId, false⟩, r, r, hr, rfl, rfl, rfl, rfl⟩

/-- The key of a peer starts exactly the keys of its own files. -/
theorem isPrefixOf_peerKey {r : DownloadRequest} {path : String} :
    peerPublicKey.val.isPrefixOf (peerKey r.peerPublicKey r.timestamp path) = true ↔
      r.peerPublicKey = peerPublicKey := by
  rw [List.isPrefixOf_iff_prefix]
  constructor
  · rintro ⟨rest, hrest⟩
    obtain ⟨hkey, -⟩ := List.append_inj hrest (by rw [peerPublicKey.property,
      r.peerPublicKey.property])
    exact (Subtype.ext hkey).symm
  · rintro rfl
    exact List.prefix_append _ _

/-- The record of a file is read as the file. -/
theorem FileRecord.decode (h : w.FileRecord common peerPublicKey kv f) :
    fromDbKeyValue kv.1 kv.2 = .ok f := by
  obtain ⟨path, size, requestId, downloaded⟩ := f
  obtain ⟨r, r', -, -, -, rfl, hdownloaded⟩ := h
  cases hdownloaded
  exact fromDbKeyValue_peerKey _ _ _ _ _

/-- A record stays one as long as its request is found. -/
theorem FileRecord.mono (h : w.FileRecord common peerPublicKey kv f)
    (hkeep : KeepsRequests common w w') : w'.FileRecord common peerPublicKey kv f := by
  obtain ⟨r, r', hr', hcommon, hrest⟩ := h
  obtain ⟨r'', hr'', hcommon'⟩ := hkeep _ r' hr'
  exact ⟨r, r'', hr'', hcommon.trans hcommon', hrest⟩

/-- In a readable wishlist the entries that a subscription for a peer selects are the records of
its files. -/
theorem Readable.fileRecord (h : w.Readable common) {k v : Bytes}
    (hkv : w.requestedFilesByPeer[k]? = some v) (hsel : peerPublicKey.val.isPrefixOf k = true) :
    ∃ f, w.FileRecord common peerPublicKey (k, v) f := by
  obtain ⟨_, f, r, r', hr', hcommon, -, hentry, hdownloaded⟩ := h k v hkv
  obtain ⟨rfl, rfl⟩ := Prod.mk.inj hentry
  exact ⟨f, r, r', hr', hcommon, isPrefixOf_peerKey.mp hsel, rfl, hdownloaded⟩

/-- What a download handler or a task does keeps the requests. -/
theorem keepsRequests_run (hnanos : ∀ r, op = .addRequest r → r.timestamp.nanos = 0)
    (hagain : op.Again common w) : KeepsRequests common w (op.run w) := by
  intro id r hr
  cases op with
  | addRequest r' =>
    rw [Operation.run, getRequest_addRequest (hnanos r' rfl)]
    split
    · next hid =>
      exact ⟨r', rfl, hagain r (hid ▸ hr)⟩
    · exact ⟨r, hr, rfl⟩
  | addRequestedFile f =>
    refine ⟨r, ?_, rfl⟩
    rw [Operation.run]
    cases hf : w.getRequest f.requestId with
    | error e =>
      rw [addRequestedFile_error hf]
      exact hr
    | ok r' =>
      rw [addRequestedFile_eq hf]
      exact hr
  | fileCompleted f =>
    refine ⟨r, ?_, rfl⟩
    rw [Operation.run, WishList.fileCompleted]
    split
    · exact hr
    · cases hf : w.getRequest f.requestId with
      | error e => exact hr
      | ok r' =>
        dsimp only
        split
        · exact hr
        · exact hr

/-- What an operation inserts is a record of a file. -/
theorem fileRecord_of_inserted {write : Write Bytes Bytes}
    (hwrite : op.byPeerWrite w = some write) (hinserted : write.inserted = some kv) :
    ∃ peerPublicKey f, w.FileRecord common peerPublicKey kv f := by
  cases op with
  | addRequest r => cases hwrite
  | addRequestedFile f =>
    simp only [Operation.byPeerWrite] at hwrite
    split at hwrite
    · next r hr =>
      cases hwrite
      cases hinserted
      exact ⟨r.peerPublicKey, { f with downloaded := false }, r, r, hr, rfl, rfl, rfl, rfl⟩
    · cases hwrite
  | fileCompleted f =>
    simp only [Operation.byPeerWrite] at hwrite
    split at hwrite
    · cases hwrite
    · split at hwrite
      · cases hwrite
        cases hinserted
      · cases hwrite

/-- The wishlist stays readable. -/
theorem Readable.run (h : w.Readable common) (hkeep : KeepsRequests common w (op.run w)) :
    (op.run w).Readable common := by
  intro k v hkv
  have hold (h : ∃ peerPublicKey f, w.FileRecord common peerPublicKey (k, v) f) :
      ∃ peerPublicKey f, (op.run w).FileRecord common peerPublicKey (k, v) f := by
    obtain ⟨peerPublicKey, f, hf⟩ := h
    exact ⟨peerPublicKey, f, hf.mono hkeep⟩
  rw [requestedFilesByPeer_run] at hkv
  cases hwrite : op.byPeerWrite w with
  | none =>
    rw [hwrite] at hkv
    exact hold (h k v hkv)
  | some write =>
    rw [hwrite] at hkv
    rcases Write.of_getElem?_apply hkv with hbefore | hinserted
    · exact hold (h k v hbefore)
    · exact hold (fileRecord_of_inserted hwrite hinserted)

variable (common) in
/-- Completing a file keeps the requests. -/
theorem keepsRequests_completion (w : WishList) (f : RequestedFile) :
    KeepsRequests common w ((completion f).run w) :=
  keepsRequests_run (fun r heq ↦ by cases heq) trivial

/-- Once a file is completed no record of it is outstanding, if its keys do not change. -/
theorem FileRecord.gone (hfixes : FixesKeys common)
    (h : ((completion f).run w).FileRecord common peerPublicKey kv f)
    (hrecorded : ∃ r, w.getRequest f.requestId = .ok r) :
    ((completion f).run w).requestedFilesByPeer[kv.1]? = none := by
  obtain ⟨r₀, r', hr', hcommon, -, rfl, -⟩ := h
  obtain ⟨r, hr⟩ := hrecorded
  obtain ⟨r'', hr'', hcommon'⟩ := keepsRequests_completion common w f _ r hr
  obtain rfl : r'' = r' := Except.ok.inj (hr''.symm.trans hr')
  obtain ⟨hpeer, hsecs⟩ := Prod.mk.inj (hfixes r₀ r (hcommon.trans hcommon'.symm))
  have hkey : peerKey r₀.peerPublicKey r₀.timestamp f.path =
      peerKey r.peerPublicKey r.timestamp f.path := peerKey_inj.mpr ⟨hpeer, hsecs, rfl⟩
  have hwrite : (completion f).byPeerWrite w =
      some (.remove (peerKey r.peerPublicKey r.timestamp f.path)) := by
    simp [completion, Operation.byPeerWrite, hr]
  rw [requestedFilesByPeer_run, hwrite, hkey]
  exact (getElem?_erase _ _ _).trans (if_pos rfl)

end WishList

/-! ### What one task has tried -/

namespace RequestTask

/-- The task waits for a request. -/
def isWaiting (t : RequestTask) : Bool :=
  match t.stage with
  | .waiting => true
  | _ => false

/-- The request that the task works on, with the download request it belongs to. -/
def current (t : RequestTask) : Option (RequestedFile × DownloadRequest) :=
  match t.stage with
  | .starting request _ associatedRequest
  | .receiving request associatedRequest _ _
  | .received request associatedRequest _ => some (request, associatedRequest)
  | .waiting | .ended _ => none

section Invariant

variable {β : Type} (common : DownloadRequest → β)

/-- The entry is the record of a file with this property. -/
def HandedOut (w : WishList) (t : RequestTask) (tried : RequestedFile → Prop)
    (kv : Bytes × Bytes) : Prop :=
  ∃ f, w.FileRecord common t.publicKey kv f ∧ tried f

/-- The download of the file has failed, or it was successful and a record of the file may have
stayed under another key. -/
def Done (t : RequestTask) (f : RequestedFile) : Prop :=
  f ∈ t.failed ∨ ¬FixesKeys common ∧ f ∈ t.succeeded

/-- The task is through with the file, or it is at it. -/
def Tried (t : RequestTask) (f : RequestedFile) : Prop :=
  Done common t f ∨ ∃ r, t.current = some (f, r)

/-- The stream of the task is a subscription to the files of its peer, which hands out their
records only. -/
structure Subscribed (w : WishList) (t : RequestTask) : Prop where
  selects : t.requestStream.selects = fun key ↦ t.publicKey.val.isPrefixOf key
  pending : ∀ kv, t.requestStream.Pending kv → ∃ f, w.FileRecord common t.publicKey kv f

/-- The file that the task works on has a request that is recorded. Unless its id is used for
different peers, the one that the task has read and the one that is recorded are to its peer. -/
structure Working (w : WishList) (t : RequestTask) (f : RequestedFile) (r : DownloadRequest) :
    Prop where
  recorded : ∃ r', w.getRequest f.requestId = .ok r' ∧ common r = common r'
  peer : FixesPeer common → r.peerPublicKey = t.publicKey
  outstanding : f.downloaded = false

/-- What holds of a task: its subscription misses no outstanding file that was not tried, it works
on a recorded file of its peer, and it has ended only after its connection was closed. -/
structure Sound (w : WishList) (t : RequestTask) : Prop extends Subscribed common w t where
  covers : t.hasEnded = false →
    t.requestStream.Covers w.requestedFilesByPeer (HandedOut common w t (Tried common t))
  working : ∀ f r, t.current = some (f, r) → Working common w t f r
  ended : ∀ result, t.stage = .ended result → result = .ok () ∧ t.closed = true

end Invariant

variable {β : Type} {common : DownloadRequest → β} {w w' : WishList} {t : RequestTask}

/-- The request of the file that a task works on is recorded, and is to its peer. -/
theorem Working.peer_recorded {f : RequestedFile} {r : DownloadRequest}
    (h : Working common w t f r) (hfixes : FixesPeer common) :
    ∃ r', w.getRequest f.requestId = .ok r' ∧ r'.peerPublicKey = t.publicKey := by
  obtain ⟨r', hr', hcommon⟩ := h.recorded
  exact ⟨r', hr', (hfixes r r' hcommon).symm.trans (h.peer hfixes)⟩

/-- A task that just started has tried nothing, and its scan will come to every file. -/
theorem sound_start (h : w.Readable common) (publicKey : PublicKey) (peerName : String) :
    Sound common w
      ⟨publicKey, peerName, w.requestsForPeer publicKey, false, [], [], .waiting⟩ where
  selects := rfl
  pending := by
    rintro ⟨k, v⟩ hp
    obtain ⟨hsel, hkv⟩ := hp.of_subscribe
    exact h.fileRecord hkv hsel
  covers := fun _ ↦ Subscription.covers_subscribe _ _
  working := fun f r hcurrent ↦ by cases hcurrent
  ended := fun result hended ↦ by cases hended

/-- What the subscription will hand out next is the record of a file. -/
theorem Subscribed.refresh (h : Subscribed common w t) (hw : w.Readable common) :
    Subscribed common w
      { t with requestStream := t.requestStream.refresh w.requestedFilesByPeer } where
  selects := h.selects
  pending := by
    rintro ⟨k, v⟩ hp
    rcases hp.of_refresh with hold | ⟨hsel, hkv⟩
    · exact h.pending _ hold
    · rw [h.selects] at hsel
      exact hw.fileRecord hkv hsel

theorem Subscribed.poll (h : Subscribed common w t) :
    Subscribed common w { t with requestStream := t.requestStream.poll.2 } where
  selects := by
    show t.requestStream.poll.2.selects = _
    rw [Subscription.selects_poll, h.selects]
  pending := fun kv hp ↦ h.pending kv hp.of_poll

/-- Taking a request of the peer, the task is at it, or ends because its connection is closed. -/
theorem sound_take {f : RequestedFile} {kv : Bytes × Bytes} (h : Subscribed common w t)
    (hf : w.FileRecord common t.publicKey kv f)
    (hcovers : t.requestStream.Covers w.requestedFilesByPeer
      (HandedOut common w t fun g ↦ Done common t g ∨ g = f)) : Sound common w (t.take w f) := by
  obtain ⟨r₀, r, hr, hcommon, hpeer, -, hdownloaded⟩ := hf
  unfold take
  split
  · next hclosed =>
    exact
      { selects := h.selects
        pending := h.pending
        covers := fun hlive ↦ by cases hlive
        working := fun g r' hcurrent ↦ by cases hcurrent
        ended := fun result hended ↦ by
          cases hended
          exact ⟨rfl, hclosed⟩ }
  · rw [hr]
    exact
      { selects := h.selects
        pending := h.pending
        covers := fun _ ↦ hcovers.mono fun k v _ _ hhanded ↦ by
          obtain ⟨g, hg, htried⟩ := hhanded
          refine ⟨g, hg, htried.imp_right ?_⟩
          rintro rfl
          exact ⟨r, rfl⟩
        working := fun g r' hcurrent ↦ by
          cases hcurrent
          exact ⟨⟨r, hr, rfl⟩, fun hfixes ↦ (hfixes r₀ r hcommon).symm.trans hpeer, hdownloaded⟩
        ended := fun result hended ↦ by cases hended }

/-- A task that waits is through with what it has tried. -/
theorem done_of_waiting (h : t.stage = .waiting) {f : RequestedFile} (hf : Tried common t f) :
    Done common t f := by
  rcases hf with hdone | ⟨r, hr⟩
  · exact hdone
  · rw [current, h] at hr
    cases hr

/-- The stream of a waiting task goes on. -/
theorem Sound.next (h : Sound common w t) (hw : w.Readable common) (reread : Bool) :
    Sound common w (t.next w reread) := by
  unfold RequestTask.next
  split
  case h_2 => exact h
  case h_1 hwaiting =>
    have hlive : t.hasEnded = false := by rw [hasEnded, hwaiting]
    have hcovers : t.requestStream.Covers w.requestedFilesByPeer
        (HandedOut common w t (Done common t)) := by
      refine (h.covers hlive).mono fun k v _ _ hhanded ↦ ?_
      obtain ⟨g, hg, htried⟩ := hhanded
      exact ⟨g, hg, done_of_waiting hwaiting htried⟩
    -- the stream before it is polled
    obtain ⟨stream, hstream, hsub, hcovers⟩ : ∃ stream, stream = (if reread then
          t.requestStream.refresh w.requestedFilesByPeer else t.requestStream) ∧
        Subscribed common w { t with requestStream := stream } ∧
        stream.Covers w.requestedFilesByPeer (HandedOut common w t (Done common t)) := by
      refine ⟨_, rfl, ?_⟩
      split
      · exact ⟨h.toSubscribed.refresh hw, hcovers.refresh⟩
      · exact ⟨h.toSubscribed, hcovers⟩
    rw [← hstream]
    dsimp only
    have hpolled := hsub.poll
    cases hkv : stream.poll.1 with
    | none =>
      rw [Option.bind_none]
      exact
        { selects := hpolled.selects
          pending := hpolled.pending
          covers := fun _ ↦ hcovers.poll fun e he ↦ by
            rcases he with ⟨g, hg, hdone⟩ | hnow
            · exact ⟨g, hg, Or.inl hdone⟩
            · rw [hkv] at hnow
              cases hnow
          working := fun g r hcurrent ↦ by
            rw [current, hwaiting] at hcurrent
            cases hcurrent
          ended := fun result hended ↦ by
            rw [hwaiting] at hended
            cases hended }
    | some kv =>
      obtain ⟨f, hf⟩ := hsub.pending kv (Subscription.pending_of_poll hkv)
      have hdecode : (fromDbKeyValue kv.1 kv.2).toOption = some f := by
        rw [hf.decode]
        rfl
      rw [Option.bind_some, hdecode]
      refine sound_take hpolled hf (hcovers.poll fun e he ↦ ?_)
      rcases he with ⟨g, hg, hdone⟩ | hnow
      · exact ⟨g, hg, Or.inl hdone⟩
      · obtain rfl := Option.some.inj (hkv.symm.trans hnow)
        exact ⟨f, hf, Or.inr rfl⟩

/-- A task that works on a request has not ended. -/
theorem live_of_current {f : RequestedFile} {r : DownloadRequest} (h : t.current = some (f, r)) :
    t.hasEnded = false := by
  unfold current at h
  unfold hasEnded
  split at h <;> simp_all

/-- The task goes on with the request it works on. -/
theorem Sound.goOn (h : Sound common w t) {f : RequestedFile} {r : DownloadRequest} {stage : Stage}
    (hcurrent : t.current = some (f, r))
    (hstage : ({ t with stage := stage } : RequestTask).current = some (f, r)) :
    Sound common w { t with stage := stage } where
  selects := h.selects
  pending := h.pending
  covers := fun _ ↦ (h.covers (live_of_current hcurrent)).mono fun k v _ _ hhanded ↦ by
    obtain ⟨g, hg, htried⟩ := hhanded
    refine ⟨g, hg, htried.imp_right fun hwork ↦ ?_⟩
    rw [hstage, ← hcurrent]
    exact hwork
  working := by
    rw [hstage, ← hcurrent]
    intro g r' hwork
    obtain ⟨hrecorded, hpeer, hout⟩ := h.working g r' hwork
    exact ⟨hrecorded, hpeer, hout⟩
  ended := by
    rintro result rfl
    cases hstage

/-- The task gives up the request it works on. -/
theorem Sound.fail (h : Sound common w t) {f : RequestedFile} {r : DownloadRequest}
    (hcurrent : t.current = some (f, r)) : Sound common w (t.fail f) where
  selects := h.selects
  pending := h.pending
  covers := fun _ ↦ (h.covers (live_of_current hcurrent)).mono fun k v _ _ hhanded ↦ by
    obtain ⟨g, hg, (hfailed | hsucceeded) | ⟨r', hr'⟩⟩ := hhanded
    · exact ⟨g, hg, Or.inl (Or.inl (List.mem_append_left _ hfailed))⟩
    · exact ⟨g, hg, Or.inl (Or.inr hsucceeded)⟩
    · obtain ⟨rfl, -⟩ := Prod.mk.inj (Option.some.inj (hr'.symm.trans hcurrent))
      exact ⟨g, hg, Or.inl (Or.inl (List.mem_append_right _ (List.mem_singleton.mpr rfl)))⟩
  working := by
    intro g r' hnone
    unfold current RequestTask.fail at hnone
    cases hclosed : t.closed <;> simp [hclosed] at hnone
  ended := by
    intro result hended
    unfold RequestTask.fail at hended
    cases hclosed : t.closed with
    | false => simp [hclosed] at hended
    | true =>
      simp only [hclosed, if_true, Stage.ended.injEq] at hended
      exact ⟨hended.symm, hclosed⟩

/-- The connection of the task is closed. -/
theorem Sound.close (h : Sound common w t) : Sound common w { t with closed := true } where
  selects := h.selects
  pending := h.pending
  covers := h.covers
  working := fun f r hcurrent ↦ by
    obtain ⟨hrecorded, hpeer, hout⟩ := h.working f r hcurrent
    exact ⟨hrecorded, hpeer, hout⟩
  ended := fun result hended ↦ ⟨(h.ended result hended).1, rfl⟩

section Observe

variable {write : Option (Write Bytes Bytes)} {told : Bool}

theorem current_observe : (t.observe write told).current = t.current := by
  rw [observe_eq]
  rfl

/-- A task that has ended does not see a write, and one that has not ended sees it if it is
reported. -/
theorem requestStream_observe (t : RequestTask) (write : Option (Write Bytes Bytes))
    (told : Bool) :
    (t.observe write told).requestStream = t.requestStream ∧
        (t.hasEnded = true ∨ told = false ∨ write = none) ∨
      ∃ w, write = some w ∧ told = true ∧ t.hasEnded = false ∧
        (t.observe write told).requestStream = t.requestStream.deliver w := by
  unfold observe
  cases write with
  | none => exact Or.inl ⟨rfl, Or.inr (Or.inr rfl)⟩
  | some w =>
    cases told with
    | false => exact Or.inl ⟨rfl, Or.inr (Or.inl rfl)⟩
    | true =>
      cases hended : t.hasEnded with
      | true => exact Or.inl ⟨by simp, Or.inl rfl⟩
      | false => exact Or.inr ⟨w, rfl, rfl, rfl, by simp⟩

/-- An operation of the wishlist, by this task or another one, leaves no file out. -/
theorem Sound.observe (h : Sound common w t) {op : WishList.Operation}
    (hread : (op.run w).Readable common) (hkeep : WishList.KeepsRequests common w (op.run w))
    (htold : ∀ write, op.byPeerWrite w = some write → told = false →
      write.apply w.requestedFilesByPeer = w.requestedFilesByPeer) :
    Sound common (op.run w) (t.observe (op.byPeerWrite w) told) := by
  have hhanded : ∀ kv, HandedOut common w t (Tried common t) kv →
      HandedOut common (op.run w) (t.observe (op.byPeerWrite w) told)
        (Tried common (t.observe (op.byPeerWrite w) told)) kv := by
    rintro kv ⟨g, hg, htried⟩
    rw [observe_eq]
    exact ⟨g, hg.mono hkeep, htried⟩
  refine
    { selects := ?_
      pending := ?_
      covers := ?_
      working := ?_
      ended := ?_ }
  · rcases requestStream_observe t (op.byPeerWrite w) told with
      ⟨hsame, -⟩ | ⟨write, -, -, -, hstream⟩
    · rw [hsame, h.selects, observe_eq]
    · rw [hstream, Subscription.selects_deliver, h.selects, observe_eq]
  · intro kv hp
    have hpublic : (t.observe (op.byPeerWrite w) told).publicKey = t.publicKey := by
      rw [observe_eq]
    rw [hpublic]
    rcases requestStream_observe t (op.byPeerWrite w) told with
      ⟨hsame, -⟩ | ⟨write, hwrite, -, -, hstream⟩
    · rw [hsame] at hp
      obtain ⟨f, hf⟩ := h.pending kv hp
      exact ⟨f, hf.mono hkeep⟩
    · rw [hstream] at hp
      rcases hp.of_deliver with hold | ⟨hsel, hinserted⟩
      · obtain ⟨f, hf⟩ := h.pending kv hold
        exact ⟨f, hf.mono hkeep⟩
      · -- what was inserted is a record of the tree after the operation
        rw [h.selects] at hsel
        refine hread.fileRecord ?_ hsel
        rw [WishList.requestedFilesByPeer_run, hwrite]
        exact Write.getElem?_inserted hinserted
  · intro hlive
    rw [hasEnded_observe] at hlive
    have hcovers := h.covers hlive
    rw [WishList.requestedFilesByPeer_run]
    rcases requestStream_observe t (op.byPeerWrite w) told with
      ⟨hsame, hended | hsilent | hnone⟩ | ⟨write, hwrite, -, -, hstream⟩
    · rw [hlive] at hended
      cases hended
    · rw [hsame]
      have htree : (op.byPeerWrite w).elim w.requestedFilesByPeer
          (·.apply w.requestedFilesByPeer) = w.requestedFilesByPeer := by
        cases hwrite : op.byPeerWrite w with
        | none => rfl
        | some write => exact htold write hwrite hsilent
      rw [htree]
      exact hcovers.mono fun k v _ _ ↦ hhanded (k, v)
    · rw [hsame, hnone]
      rw [hnone] at hhanded
      exact hcovers.mono fun k v _ _ ↦ hhanded (k, v)
    · rw [hstream, hwrite]
      rw [hwrite] at hhanded
      exact (hcovers.write write).mono fun k v _ _ ↦ hhanded (k, v)
  · intro f r hcurrent
    rw [current_observe] at hcurrent
    obtain ⟨⟨r', hr', hcommon⟩, hpeer, hout⟩ := h.working f r hcurrent
    obtain ⟨r'', hr'', hcommon'⟩ := hkeep _ r' hr'
    refine ⟨⟨r'', hr'', hcommon.trans hcommon'⟩, ?_, hout⟩
    rw [observe_eq]
    exact hpeer
  · intro result hended
    rw [observe_eq] at hended ⊢
    exact h.ended result hended

end Observe

/-- A task waits again after a success. Where the keys do not change, the file that it worked on
is not outstanding any more. -/
theorem Sound.succeed (h : Sound common w t) {f : RequestedFile} {r : DownloadRequest}
    (hcurrent : t.current = some (f, r))
    (hgone : FixesKeys common → ∀ kv, w.FileRecord common t.publicKey kv f →
      w.requestedFilesByPeer[kv.1]? = none) :
    Sound common w (t.succeed f) where
  selects := h.selects
  pending := h.pending
  covers := fun _ ↦ (h.covers (live_of_current hcurrent)).mono fun k v hv _ hhanded ↦ by
    obtain ⟨g, hg, (hfailed | ⟨hmoves, hsucceeded⟩) | ⟨r', hr'⟩⟩ := hhanded
    · exact ⟨g, hg, Or.inl (Or.inl hfailed)⟩
    · exact ⟨g, hg, Or.inl (Or.inr ⟨hmoves, List.mem_append_left _ hsucceeded⟩)⟩
    · obtain ⟨rfl, -⟩ := Prod.mk.inj (Option.some.inj (hr'.symm.trans hcurrent))
      by_cases hfixes : FixesKeys common
      · rw [hgone hfixes _ hg] at hv
        cases hv
      · exact ⟨g, hg, Or.inl (Or.inr ⟨hfixes,
          List.mem_append_right _ (List.mem_singleton.mpr rfl)⟩)⟩
  working := fun g r' hnone ↦ by cases hnone
  ended := fun result hended ↦ by cases hended

/-- A task that completes its file waits again. -/
theorem Sound.complete (h : Sound common w t) (hw : w.Readable common) {f : RequestedFile}
    {r : DownloadRequest} (hcurrent : t.current = some (f, r)) {told : Bool}
    (htold : ∀ write, (WishList.completion f).byPeerWrite w = some write → told = false →
      write.apply w.requestedFilesByPeer = w.requestedFilesByPeer) :
    Sound common ((WishList.completion f).run w)
      ((t.succeed f).observe ((WishList.completion f).byPeerWrite w) told) := by
  have hkeep := WishList.keepsRequests_completion common w f
  have hobserved := h.observe (hw.run hkeep) hkeep htold
  have hlive := live_of_current hcurrent
  -- whether the task waits before or after it sees its own write makes no difference
  have hcomm (write : Option (Write Bytes Bytes)) :
      (t.succeed f).observe write told = (t.observe write told).succeed f := by
    unfold RequestTask.observe
    cases write with
    | none => rfl
    | some write =>
      rw [hlive]
      cases told with
      | true => rfl
      | false => rfl
  rw [hcomm]
  refine hobserved.succeed (current_observe.trans hcurrent) fun hfixes kv hkv ↦ ?_
  obtain ⟨r', hr', -⟩ := (h.working f r hcurrent).recorded
  exact hkv.gone hfixes ⟨r', hr'⟩

end RequestTask

/-! ### What all tasks have tried -/

namespace Downloads

section Invariant

variable {β : Type} (common : DownloadRequest → β)

/-- The wishlist is readable, and every task is sound. -/
structure Sound (d : Downloads) : Prop where
  readable : d.wishlist.Readable common
  tasks : ∀ t ∈ d.tasks, t.Sound common d.wishlist

/-- If the step records a request under the id of another one, it has this in common with it. -/
def Again (d : Downloads) : Action → Prop
  | .record op _ => op.Again common d.wishlist
  | .connect _ _ | .close _ | .next _ _ | .setUp _ _ | .receive _ _ | .streamEnd _ _
  | .conclude _ _ _ => True

end Invariant

variable {β : Type} {common : DownloadRequest → β} {d : Downloads} {t : RequestTask} {i : Nat}
  {capacity : Nat} {downloadDir : Bytes}

/-- A step that changes one task and not the wishlist. -/
theorem Sound.setTask (h : d.Sound common) {d' : Downloads} (hwishlist : d'.wishlist = d.wishlist)
    (htasks : d'.tasks = d.tasks.set i t) (ht : t.Sound common d.wishlist) : d'.Sound common := by
  refine ⟨by rw [hwishlist]; exact h.readable, fun t' ht' ↦ ?_⟩
  rw [htasks] at ht'
  rw [hwishlist]
  rcases List.mem_or_eq_of_mem_set ht' with hold | rfl
  · exact h.tasks t' hold
  · exact ht

theorem Sound.perform (h : d.Sound common) {op : WishList.Operation}
    (hkeep : WishList.KeepsRequests common d.wishlist (op.run d.wishlist)) {told : Bool}
    (hcan : d.CanPerform capacity op told) : (d.perform op told).Sound common where
  readable := h.readable.run hkeep
  tasks := fun t ht ↦ by
    obtain ⟨t', ht', rfl⟩ := List.mem_map.mp ht
    exact (h.tasks t' ht').observe (h.readable.run hkeep) hkeep
      fun write hwrite ↦ (hcan write hwrite).2

theorem Sound.setUp (h : d.Sound common) (ht : t.Sound common d.wishlist) (downloadDir : Bytes)
    (i : Nat) (answer : Except TransferError Unit) :
    (d.setUp downloadDir i t answer).Sound common := by
  unfold Downloads.setUp
  split
  · next request progress associatedRequest hstage =>
    have hcurrent : t.current = some (request, associatedRequest) := by
      rw [RequestTask.current, hstage]
    split
    · exact h.setTask rfl rfl (ht.fail hcurrent)
    · next fs file startOffset hsetup =>
      dsimp only
      split
      · refine h.setTask rfl rfl (ht.goOn hcurrent ?_)
        rfl
      · split
        · exact h.setTask rfl rfl (ht.fail hcurrent)
        · refine h.setTask rfl rfl (ht.goOn hcurrent ?_)
          rfl
  · exact h

theorem Sound.receive (h : d.Sound common) (ht : t.Sound common d.wishlist) (i : Nat)
    (pass : Peer.Pass) : (d.receive i t pass).Sound common := by
  unfold Downloads.receive
  split
  · next request associatedRequest file p hstage =>
    have hcurrent : t.current = some (request, associatedRequest) := by
      rw [RequestTask.current, hstage]
    refine h.setTask rfl rfl (ht.goOn hcurrent ?_)
    split
    · rfl
    · rfl
  · exact h

theorem Sound.streamEnd (h : d.Sound common) (ht : t.Sound common d.wishlist) (i : Nat)
    (finalSpeed : UInt32) : (d.streamEnd i t finalSpeed).Sound common := by
  unfold Downloads.streamEnd
  split
  · next request associatedRequest file p hstage =>
    have hcurrent : t.current = some (request, associatedRequest) := by
      rw [RequestTask.current, hstage]
    refine h.setTask rfl rfl (ht.goOn hcurrent ?_)
    rfl
  · exact h

theorem Sound.conclude (h : d.Sound common) (ht : t ∈ d.tasks) (hi : d.tasks[i]? = some t)
    {told : Bool} {now : UInt64} (hcan : d.Enabled capacity (.conclude i told now)) :
    (d.conclude i t told now).Sound common := by
  unfold Downloads.conclude
  split
  · next request associatedRequest p hstage =>
    have hsound := h.tasks t ht
    have hcurrent : t.current = some (request, associatedRequest) := by
      rw [RequestTask.current, hstage]
    dsimp only
    split
    · exact h.setTask rfl rfl (hsound.fail hcurrent)
    · next hreached =>
      have hcan' := hcan t request associatedRequest p hi hstage hreached
      have htold := fun write hwrite ↦ (hcan' write hwrite).2
      have hkeep := WishList.keepsRequests_completion common d.wishlist request
      refine ⟨h.readable.run hkeep, fun t' ht' ↦ ?_⟩
      obtain ⟨t₀, ht₀, rfl⟩ := List.mem_map.mp ht'
      rcases List.mem_or_eq_of_mem_set ht₀ with hold | rfl
      · exact (h.tasks t₀ hold).observe (h.readable.run hkeep) hkeep htold
      · exact hsound.complete h.readable hcurrent htold
  · exact h

/-- What a download handler does keeps the requests. -/
theorem keepsRequests_record {op : WishList.Operation} {told : Bool} (hop : Recordable op)
    (hagain : d.Again common (.record op told)) :
    WishList.KeepsRequests common d.wishlist (op.run d.wishlist) := by
  refine WishList.keepsRequests_run (fun r heq ↦ ?_) hagain
  rw [heq] at hop
  exact hop

/-- Whatever happens next, the tasks stay sound. -/
theorem Sound.step (h : d.Sound common) {a : Action} (ha : d.Enabled capacity a)
    (hagain : d.Again common a) : (d.step downloadDir a).Sound common := by
  have onTask {i : Nat} {run : RequestTask → Downloads}
      (hrun : ∀ t, d.tasks[i]? = some t → t ∈ d.tasks → (run t).Sound common) :
      (d.onTask i run).Sound common := by
    unfold Downloads.onTask
    split
    · next t hi => exact hrun t hi (List.mem_of_getElem? hi)
    · exact h
  cases a with
  | record op told => exact h.perform (keepsRequests_record ha.1 hagain) ha.2
  | connect publicKey peerName =>
    refine ⟨h.readable, fun t ht ↦ ?_⟩
    rcases List.mem_append.mp ht with hold | hnew
    · exact h.tasks t hold
    · rw [List.mem_singleton.mp hnew]
      exact RequestTask.sound_start h.readable publicKey peerName
  | close i => exact onTask fun t _ ht ↦ h.setTask rfl rfl (h.tasks t ht).close
  | next i reread =>
    exact onTask fun t _ ht ↦ h.setTask rfl rfl ((h.tasks t ht).next h.readable reread)
  | setUp i answer => exact onTask fun t _ ht ↦ h.setUp (h.tasks t ht) downloadDir i answer
  | receive i pass => exact onTask fun t _ ht ↦ h.receive (h.tasks t ht) i pass
  | streamEnd i finalSpeed => exact onTask fun t _ ht ↦ h.streamEnd (h.tasks t ht) i finalSpeed
  | conclude i told now => exact onTask fun t hi ht ↦ h.conclude ht hi ha

/-- In a run that starts without tasks they are sound in every state. -/
theorem eachState_sound (hread : d.wishlist.Readable common) (hnone : d.tasks = [])
    {actions : List Action}
    (hrun : EachStep (step downloadDir) (Enabled capacity) d actions)
    (hagain : EachStep (step downloadDir) (Again common) d actions) :
    EachState (step downloadDir) (Sound common) d actions := by
  refine eachState_of_invariant ⟨hread, fun t ht ↦ ?_⟩ (hrun.and hagain)
    fun d a hd ha ↦ hd.step ha.1 ha.2
  rw [hnone] at ht
  cases ht

/-- Requests have nothing in common that a run would have to keep. -/
theorem again_unit (d : Downloads) (actions : List Action) :
    EachStep (step downloadDir) (Again fun _ ↦ ()) d actions := by
  have hany {d : Downloads} (a : Action) : Again (fun _ ↦ ()) d a := by
    cases a with
    | record op told =>
      cases op with
      | addRequest r => exact fun _ _ ↦ rfl
      | addRequestedFile f | fileCompleted f => trivial
    | connect | close | next | setUp | receive | streamEnd | conclude => trivial
  exact eachStep_of_invariant (I := fun _ ↦ True) trivial
    (eachStep_of_forall (B := fun _ ↦ True) fun _ _ ↦ trivial) (fun _ _ _ _ ↦ trivial)
    fun _ a _ _ ↦ hany a

/-- A task that waits, with nothing more to take. -/
def Rests (t : RequestTask) : Prop := t.stage = .waiting ∧ t.requestStream.Idle

private theorem rests_iff {t : RequestTask} :
    (t.isWaiting = true ∧ t.requestStream.scan.isNone = true ∧ t.requestStream.buffer = []) ↔
      Rests t := by
  rw [Rests, Subscription.Idle, Option.isNone_iff_eq_none, RequestTask.isWaiting]
  refine and_congr_left fun _ ↦ ?_
  cases t.stage <;> simp

instance (t : RequestTask) : Decidable (Rests t) := decidable_of_iff _ rests_iff

/-- A sound task that rests is through with every file that is outstanding for its peer. -/
theorem Sound.done_of_rests (hd : d.Sound common) (ht : t ∈ d.tasks) (hrests : Rests t)
    {f : RequestedFile} (hf : f ∈ d.wishlist.existingRequests t.publicKey) :
    RequestTask.Done common t f := by
  obtain ⟨hwaiting, hidle⟩ := hrests
  have hsound := hd.tasks t ht
  have hlive : t.hasEnded = false := by rw [RequestTask.hasEnded, hwaiting]
  rw [WishList.existingRequests, List.mem_filterMap] at hf
  obtain ⟨⟨k, v⟩, hkv, hdecode⟩ := hf
  obtain ⟨hget, hprefix⟩ := mem_scanPrefix.mp hkv
  have hsel : t.requestStream.selects k = true := by
    rw [hsound.selects]
    exact List.isPrefixOf_iff_prefix.mpr hprefix
  obtain ⟨g, hg, htried⟩ := (hsound.covers hlive).of_idle hidle hget hsel
  have hsame : g = f := by
    rw [hg.decode] at hdecode
    exact Option.some.inj hdecode
  rw [← hsame]
  exact RequestTask.done_of_waiting hwaiting htried

/-- In every state of a run, a task that waits with nothing more to take has tried every file that
is outstanding for its peer, and is through with it. If requests that are recorded again keep
their peer and their second, each of these downloads has failed. -/
theorem resting_task_has_tried (hread : d.wishlist.Readable fun _ ↦ ()) (hnone : d.tasks = [])
    {actions : List Action}
    (hrun : EachStep (step downloadDir) (Enabled capacity) d actions) :
    EachState (step downloadDir) (fun d ↦ ∀ t ∈ d.tasks, Rests t →
        ∀ f ∈ d.wishlist.existingRequests t.publicKey, f ∈ t.failed ∨ f ∈ t.succeeded)
      d actions ∧
    (d.wishlist.Readable DownloadRequest.recordedAt →
      EachStep (step downloadDir) (Again DownloadRequest.recordedAt) d actions →
        EachState (step downloadDir) (fun d ↦ ∀ t ∈ d.tasks, Rests t →
          ∀ f ∈ d.wishlist.existingRequests t.publicKey, f ∈ t.failed) d actions) := by
  constructor
  · refine (eachState_sound hread hnone hrun (again_unit d actions)).mono ?_
    intro d hd t ht hrests f hf
    exact (hd.done_of_rests ht hrests hf).imp_right And.right
  · intro hread' hagain
    refine (eachState_sound hread' hnone hrun hagain).mono ?_
    intro d hd t ht hrests f hf
    refine (hd.done_of_rests ht hrests hf).resolve_right ?_
    rintro ⟨hmoves, -⟩
    exact hmoves fixesKeys_recordedAt

/-- In every state of a run, a task works on files of recorded requests, and has ended only
without an error and after its connection was closed. If requests that are recorded again keep
their peer, the requests are to the peer of the task. -/
theorem tasks_keep_to_their_peer (hread : d.wishlist.Readable fun _ ↦ ()) (hnone : d.tasks = [])
    {actions : List Action}
    (hrun : EachStep (step downloadDir) (Enabled capacity) d actions) :
    EachState (step downloadDir) (fun d ↦ ∀ t ∈ d.tasks,
        (∀ f r, t.current = some (f, r) → ∃ r', d.wishlist.getRequest f.requestId = .ok r') ∧
        ∀ result, t.stage = .ended result → result = .ok () ∧ t.closed = true) d actions ∧
    (d.wishlist.Readable DownloadRequest.peerPublicKey →
      EachStep (step downloadDir) (Again DownloadRequest.peerPublicKey) d actions →
        EachState (step downloadDir) (fun d ↦ ∀ t ∈ d.tasks, ∀ f r, t.current = some (f, r) →
          r.peerPublicKey = t.publicKey ∧ ∃ r', d.wishlist.getRequest f.requestId = .ok r' ∧
            r'.peerPublicKey = t.publicKey) d actions) := by
  constructor
  · refine (eachState_sound hread hnone hrun (again_unit d actions)).mono fun d hd t ht ↦ ⟨?_, ?_⟩
    · intro f r hcurrent
      obtain ⟨r', hr', -⟩ := ((hd.tasks t ht).working f r hcurrent).recorded
      exact ⟨r', hr'⟩
    · exact (hd.tasks t ht).ended
  · intro hread' hagain
    refine (eachState_sound hread' hnone hrun hagain).mono fun d hd t ht f r hcurrent ↦ ?_
    have hworking := (hd.tasks t ht).working f r hcurrent
    exact ⟨hworking.peer fixesPeer_peerPublicKey,
      hworking.peer_recorded fixesPeer_peerPublicKey⟩

section Example

open WishList Attempt

/-- A node without requests and without peers. -/
def idleNode : Downloads := ⟨.empty, exampleFs, [], []⟩

theorem readable_idleNode {β : Type} (common : DownloadRequest → β) :
    idleNode.wishlist.Readable common := valid_empty.readable

/-- A completion is reported while no buffer is full. -/
theorem enabled_conclude {now : UInt64}
    (h : (d.tasks.all fun t ↦ decide (t.requestStream.buffer.length < capacity)) = true) :
    d.Enabled capacity (.conclude i true now) := by
  intro _ _ _ _ _ _ _ w _
  refine ⟨fun t ht _ _ ↦ ?_, fun hsilent ↦ by cases hsilent⟩
  exact of_decide_eq_true (List.all_eq_true.mp h t ht)

/-- Nobody is subscribed, so nothing has to wait. -/
theorem canPerform_of_no_tasks (h : d.tasks = []) (op : WishList.Operation) :
    d.CanPerform capacity op true := by
  intro w _
  refine ⟨fun t ht ↦ ?_, fun hsilent ↦ by cases hsilent⟩
  rw [h] at ht
  cases ht

/-- A file is requested, and its peer connects but does not send it. -/
def failedDownload : List Action :=
  [.record (.addRequest musicRequest) true,
    .record (.addRequestedFile ⟨"music/one.mp3", 5, 1, false⟩) true, .connect exampleKey "peer",
    .next 0 false, .setUp 0 (.error (.message "connection lost")), .next 0 false]

/-- The first two steps only write to the database, when nobody is subscribed. -/
theorem failedDownload_enabled (capacity : Nat) (downloadDir : Bytes) :
    EachStep (step downloadDir) (Enabled capacity) idleNode failedDownload :=
  ⟨⟨rfl, canPerform_of_no_tasks rfl _⟩, ⟨rfl, canPerform_of_no_tasks rfl _⟩, trivial, trivial,
    trivial, trivial, trivial⟩

/-- The request is new. -/
private theorem failedDownload_again {β : Type} (common : DownloadRequest → β)
    (downloadDir : Bytes) :
    EachStep (step downloadDir) (Again common) idleNode failedDownload := by
  refine ⟨fun r hr ↦ ?_, trivial, trivial, trivial, trivial, trivial, trivial⟩
  cases hr

/-- The request for the same file, made again in the next second. -/
def songRequestAgain : DownloadRequest := .create 1700000001 "music/one.mp3" 1 2 exampleKey false

/-- The listing of a peer names the requested file in two responses, a second apart. Then the
peer sends the file. -/
def repeatedListing : List Action :=
  [.record (.addRequest songRequest) true,
    .record (.addRequestedFile ⟨"music/one.mp3", 1, 2, false⟩) true,
    .record (.addRequest songRequestAgain) true,
    .record (.addRequestedFile ⟨"music/one.mp3", 1, 2, false⟩) true, .connect exampleKey "peer",
    .next 0 false, .setUp 0 (.ok ()), .receive 0 ⟨[7], 1, true, 0, 0⟩, .streamEnd 0 0,
    .conclude 0 true 0, .next 0 true, .next 0 false]

theorem repeatedListing_enabled :
    EachStep (step exampleJob.downloadDir) (Enabled 1) idleNode repeatedListing :=
  ⟨⟨rfl, canPerform_of_no_tasks rfl _⟩, ⟨rfl, canPerform_of_no_tasks rfl _⟩,
    ⟨rfl, canPerform_of_no_tasks rfl _⟩, ⟨rfl, canPerform_of_no_tasks rfl _⟩, trivial, trivial,
    trivial, trivial, trivial, enabled_conclude (by decide +kernel), trivial, trivial, trivial⟩

/-- Both requests are to the same peer. -/
private theorem repeatedListing_again :
    EachStep (step exampleJob.downloadDir) (Again DownloadRequest.peerPublicKey) idleNode
      repeatedListing := by
  refine ⟨fun r hr ↦ ?_, trivial, fun r hr ↦ ?_, trivial, trivial, trivial, trivial, trivial,
    trivial, trivial, trivial, trivial, trivial⟩
  · cases hr
  · have hsong : ((WishList.empty.addRequest songRequest).addRequestedFile
        ⟨"music/one.mp3", 1, 2, false⟩).1.getRequest 2 = .ok songRequest := by
      decide
    obtain rfl : songRequest = r := Except.ok.inj (hsong.symm.trans hr)
    rfl

/-- The file of the repeated listing keeps its first record when it is completed: its task rests
without a failed download, and the file is among the successful ones. The file of a request that
is recorded once is among those that have failed. -/
theorem resting_task_has_tried_repeated :
    let repeated := finalState (step exampleJob.downloadDir) idleNode repeatedListing
    let once := finalState (step exampleJob.downloadDir) idleNode failedDownload
    (∃ t ∈ repeated.tasks, Rests t ∧ t.failed = [] ∧
      ∃ f ∈ repeated.wishlist.existingRequests t.publicKey, f ∈ t.succeeded) ∧
    ∃ t ∈ once.tasks, Rests t ∧
      ∃ f ∈ once.wishlist.existingRequests t.publicKey, f ∈ t.failed := by
  intro repeated once
  constructor
  · have hrests : ∃ t ∈ repeated.tasks, Rests t ∧ t.failed = [] ∧
        ⟨"music/one.mp3", 1, 2, false⟩ ∈ repeated.wishlist.existingRequests t.publicKey := by
      decide +kernel
    obtain ⟨t, ht, hrests, hfailed, hf⟩ := hrests
    have htried := (resting_task_has_tried (readable_idleNode _) rfl
      repeatedListing_enabled).1.final t ht hrests _ hf
    rw [hfailed] at htried
    exact ⟨t, ht, hrests, hfailed, _, hf, htried.resolve_left List.not_mem_nil⟩
  · have hrests : ∃ t ∈ once.tasks, Rests t ∧
        ⟨"music/one.mp3", 5, 1, false⟩ ∈ once.wishlist.existingRequests t.publicKey := by
      decide +kernel
    obtain ⟨t, ht, hrests, hf⟩ := hrests
    exact ⟨t, ht, hrests, _, hf, ((resting_task_has_tried (readable_idleNode _) rfl
      (failedDownload_enabled 1 _)).2 (readable_idleNode _)
      (failedDownload_again _ _)).final t ht hrests _ hf⟩

/-- The task works for the peer from which the file is requested, also when the request is recorded
twice. -/
theorem tasks_keep_to_their_peer_repeated :
    EachState (step exampleJob.downloadDir) (fun d ↦ ∀ t ∈ d.tasks, ∀ f r,
      t.current = some (f, r) →
        r.peerPublicKey = t.publicKey ∧ ∃ r', d.wishlist.getRequest f.requestId = .ok r' ∧
          r'.peerPublicKey = t.publicKey) idleNode repeatedListing :=
  (tasks_keep_to_their_peer (readable_idleNode _) rfl repeatedListing_enabled).2
    (readable_idleNode _) repeatedListing_again

end Example

end Downloads

end HarddriveParty
