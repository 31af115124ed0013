import HarddriveParty.Base.Runs
import HarddriveParty.Wishlist.Indexes

/-!
# When the two file indexes agree

The key of a file in the tree by peer has no request id, so two requests to one peer made
in the same second share the keys of their common paths. An operation keeps the indexes in
agreement exactly when it meets no outstanding file of another request under its key.
-/

namespace HarddriveParty

open OrderedTree RequestedFile Runs

namespace WishList

/-- An operation on the wishlist. -/
inductive Operation where
  | addRequest (downloadRequest : DownloadRequest)
  | addRequestedFile (requestedFile : RequestedFile)
  | fileCompleted (requestedFile : RequestedFile)

/-- The wishlist after an operation. -/
def Operation.run (w : WishList) : Operation → WishList
  | addRequest downloadRequest => w.addRequest downloadRequest
  | addRequestedFile requestedFile => (w.addRequestedFile requestedFile).1
  | fileCompleted requestedFile => (w.fileCompleted requestedFile).1

/-- How the operations are called: requests have new ids and whole seconds, files are added
to requests that exist, and completed files are marked as downloaded. -/
def Operation.Allowed (w : WishList) : Operation → Prop
  | addRequest r => r.timestamp.nanos = 0 ∧
      w.requestsByRequestId[DownloadRequest.idKey r.requestId]? = none
  | addRequestedFile f => ∃ r, w.getRequest f.requestId = .ok r
  | fileCompleted f => f.downloaded = true

/-- The listing of each request and the outstanding files of its peer show the same files
of the request as not downloaded. -/
def IndexesAgree (w : WishList) : Prop :=
  ∀ (r : DownloadRequest) (path : String) (size : UInt64), w.getRequest r.requestId = .ok r →
    (⟨path, size, r.requestId, false⟩ ∈ (w.requestedFiles r.requestId).flatten ↔
      ⟨path, size, r.requestId, false⟩ ∈ w.existingRequests r.peerPublicKey)

/-- No other request to the same peer in the same second has this path outstanding. -/
def NoClash (w : WishList) (f : RequestedFile) : Prop :=
  ∀ r other : DownloadRequest, w.getRequest f.requestId = .ok r →
    w.getRequest other.requestId = .ok other → other.requestId ≠ f.requestId →
      other.peerPublicKey = r.peerPublicKey → other.timestamp.secs = r.timestamp.secs →
        ∀ size, ⟨f.path, size, other.requestId, false⟩ ∉
          (w.requestedFiles other.requestId).flatten

/-- The operation does not disturb the files of another request. -/
def Operation.Clean (w : WishList) : Operation → Prop
  | addRequest _ => True
  | addRequestedFile f => f.downloaded = false ∧ NoClash w f
  | fileCompleted f => NoClash w f

variable {w : WishList}

private theorem indexesAgree_iff (h : Valid w) :
    IndexesAgree w ↔ ∀ (r : DownloadRequest) (path : String) (size : UInt64),
      w.getRequest r.requestId = .ok r →
        (w.requestedFilesByRequestId[requestKey r.requestId path]? =
            some (requestValue size false) ↔
          w.requestedFilesByPeer[peerKey r.peerPublicKey r.timestamp path]? =
            some (peerValue r.requestId size)) := by
  apply forall_congr'
  intro r
  apply forall_congr'
  intro path
  apply forall_congr'
  intro size
  apply forall_congr'
  intro hr
  rw [h.mem_requestedFiles, h.mem_existingRequests hr]

private theorem getRequest_new {r : DownloadRequest} {id : UInt32}
    (hnew : w.requestsByRequestId[DownloadRequest.idKey r.requestId]? = none)
    {r' : DownloadRequest} (hr' : w.getRequest id = .ok r') : id ≠ r.requestId := by
  rintro rfl
  rw [getRequest, hnew] at hr'
  cases hr'

/-- Recording a new request keeps the wishlist valid. -/
theorem Valid.addRequest (h : Valid w) {r : DownloadRequest} (hn : r.timestamp.nanos = 0)
    (hnew : w.requestsByRequestId[DownloadRequest.idKey r.requestId]? = none) :
    Valid (w.addRequest r) := by
  have hkeep : ∀ r', w.getRequest r'.requestId = .ok r' →
      (w.addRequest r).getRequest r'.requestId = .ok r' := by
    intro r' hr'
    rw [getRequest_addRequest hn, if_neg (getRequest_new hnew hr')]
    exact hr'
  refine ⟨fun k b hb ↦ ?_, h.progress, fun k b hb ↦ ?_, fun k b hb ↦ ?_⟩
  · rw [WishList.addRequest] at hb
    simp only [getElem?_insert] at hb
    split at hb
    · next hk =>
      cases hb
      exact ⟨r, hn, by rw [hk]⟩
    · exact h.requests k b hb
  · obtain ⟨r', path, size, hr', hk, hv⟩ := h.byPeer k b hb
    exact ⟨r', path, size, hkeep r' hr', hk, hv⟩
  · obtain ⟨r', path, size, downloaded, hr', hk, hv⟩ := h.byRequest k b hb
    exact ⟨r', path, size, downloaded, hkeep r' hr', hk, hv⟩

private theorem agree_addRequest (h : Valid w) (ha : IndexesAgree w) {r : DownloadRequest}
    (hn : r.timestamp.nanos = 0)
    (hnew : w.requestsByRequestId[DownloadRequest.idKey r.requestId]? = none) :
    IndexesAgree (w.addRequest r) := by
  rw [indexesAgree_iff (h.addRequest hn hnew)]
  rw [indexesAgree_iff h] at ha
  intro r' path size hr'
  rw [getRequest_addRequest hn] at hr'
  split at hr'
  · next hid =>
    -- a new request has no file records in either tree
    cases hr'
    constructor
    · intro hb
      obtain ⟨r'', path', size', downloaded, hr'', hk, -⟩ := h.byRequest _ _ hb
      exact absurd (requestKey_inj.mp hk).1.symm (getRequest_new hnew hr'')
    · intro hb
      obtain ⟨r'', path', size', hr'', -, hv⟩ := h.byPeer _ _ hb
      exact absurd (peerValue_inj.mp hv).1.symm (getRequest_new hnew hr'')
  · exact ha r' path size hr'

/-- Adding a file to a recorded request keeps the wishlist valid. -/
theorem Valid.addRequestedFile (h : Valid w) {f : RequestedFile} {r : DownloadRequest}
    (hr : w.getRequest f.requestId = .ok r) : Valid (w.addRequestedFile f).1 := by
  have hid := (h.getRequest_ok hr).1
  have hr' : w.getRequest r.requestId = .ok r := by rw [hid, hr]
  rw [addRequestedFile_eq hr]
  refine ⟨h.requests, h.progress, fun k b hb ↦ ?_, fun k b hb ↦ ?_⟩
  · simp only [getElem?_insert] at hb
    split at hb
    · next hk =>
      cases hb
      exact ⟨r, f.path, f.size, hr', hk, by rw [hid]⟩
    · exact h.byPeer k b hb
  · simp only [getElem?_insert] at hb
    split at hb
    · next hk =>
      cases hb
      exact ⟨r, f.path, f.size, f.downloaded, hr', by rw [hid]; exact hk, rfl⟩
    · exact h.byRequest k b hb

/-- Completing a file keeps the wishlist valid. -/
theorem Valid.fileCompleted (h : Valid w) {f : RequestedFile} (hd : f.downloaded = true) :
    Valid (w.fileCompleted f).1 := by
  cases hr : w.getRequest f.requestId with
  | error e =>
    rw [fileCompleted_error hd hr]
    exact h
  | ok r =>
    have hid := (h.getRequest_ok hr).1
    have hr' : w.getRequest r.requestId = .ok r := by rw [hid, hr]
    obtain ⟨progress, hp⟩ := h.progress_ok f.requestId
    have hrun := fileCompleted_eq hd hr hp
    rw [hrun]
    refine ⟨h.requests, fun k b hb ↦ ?_, fun k b hb ↦ ?_, fun k b hb ↦ ?_⟩
    · simp only [getElem?_insert] at hb
      split at hb
      · cases hb
        simp
      · exact h.progress k b hb
    · simp only [getElem?_erase] at hb
      split at hb
      · cases hb
      · exact h.byPeer k b hb
    · simp only [getElem?_insert] at hb
      split at hb
      · next hk =>
        cases hb
        exact ⟨r, f.path, f.size, true, hr', by rw [hid]; exact hk, rfl⟩
      · exact h.byRequest k b hb

section Clash

variable {f : RequestedFile} {r : DownloadRequest} {w' : WishList} {own : Option Bytes}
  {downloaded : Bool}

/-- If the indexes agree after a write, no other request had the key. -/
private theorem noClash_of_agree (h : Valid w) (hr : w.getRequest f.requestId = .ok r)
    (hpeer : ∀ k, w'.requestedFilesByPeer[k]? =
      if k = peerKey r.peerPublicKey r.timestamp f.path then own
      else w.requestedFilesByPeer[k]?)
    (hrequest : ∀ k, w'.requestedFilesByRequestId[k]? =
      if k = requestKey f.requestId f.path then some (requestValue f.size downloaded)
      else w.requestedFilesByRequestId[k]?)
    (hown : own = none ∨ own = some (peerValue f.requestId f.size))
    (hall : ∀ (r : DownloadRequest) (path : String) (size : UInt64),
      w.getRequest r.requestId = .ok r →
        (w'.requestedFilesByRequestId[requestKey r.requestId path]? =
            some (requestValue size false) ↔
          w'.requestedFilesByPeer[peerKey r.peerPublicKey r.timestamp path]? =
            some (peerValue r.requestId size))) : NoClash w f := by
  intro r₁ other hr₁ hother hne hkey hsecs size hmem
  rw [hr] at hr₁
  cases hr₁
  rw [h.mem_requestedFiles] at hmem
  have hclash := hall other f.path size hother
  have hnot : ¬ requestKey other.requestId f.path = requestKey f.requestId f.path :=
    fun he ↦ hne (requestKey_inj.mp he).1
  have hsame : peerKey other.peerPublicKey other.timestamp f.path =
      peerKey r.peerPublicKey r.timestamp f.path :=
    peerKey_inj.mpr ⟨hkey, hsecs, rfl⟩
  rw [hrequest, hpeer, if_neg hnot, if_pos hsame] at hclash
  have hval := hclash.mp hmem
  rcases hown with rfl | rfl
  · cases hval
  · exact hne (peerValue_inj.mp (Option.some.inj hval)).1.symm

/-- What the two file operations have in common: the key of a file in the tree by peer gets
a new value `own`, its key in the tree by request is set, and the rest stays. When the two
new values agree with each other, all that can go wrong is a clash. -/
private theorem agree_write_iff (own : Option Bytes) (downloaded : Bool) (h : Valid w)
    (ha : IndexesAgree w) (h' : Valid w')
    (hr : w.getRequest f.requestId = .ok r) (hget : w'.getRequest = w.getRequest)
    (hpeer : ∀ k, w'.requestedFilesByPeer[k]? =
      if k = peerKey r.peerPublicKey r.timestamp f.path then own
      else w.requestedFilesByPeer[k]?)
    (hrequest : ∀ k, w'.requestedFilesByRequestId[k]? =
      if k = requestKey f.requestId f.path then some (requestValue f.size downloaded)
      else w.requestedFilesByRequestId[k]?)
    (hown : own = none ∨ own = some (peerValue f.requestId f.size)) :
    IndexesAgree w' ↔ (downloaded = own.isNone) ∧ NoClash w f := by
  have hid := (h.getRequest_ok hr).1
  have hr' : w.getRequest r.requestId = .ok r := by rw [hid, hr]
  have ha' := (indexesAgree_iff h).mp ha
  rw [indexesAgree_iff h', hget]
  constructor
  · intro hall
    refine ⟨?_, noClash_of_agree h hr hpeer hrequest hown hall⟩
    have hself := hall r f.path f.size hr'
    rw [hrequest, hpeer, hid, if_pos rfl, if_pos rfl, Option.some.injEq, requestValue_inj,
      and_iff_right rfl] at hself
    rcases hown with rfl | rfl
    · simpa using hself
    · simpa using hself
  · rintro ⟨hflag, hno⟩ other path size hother
    rw [hrequest, hpeer]
    by_cases hrk : requestKey other.requestId path = requestKey f.requestId f.path
    · -- the file itself
      obtain ⟨hoid, rfl⟩ := requestKey_inj.mp hrk
      rw [hoid, hr] at hother
      cases hother
      rw [if_pos hrk, if_pos rfl, hoid, Option.some.injEq, requestValue_inj, hflag]
      rcases hown with rfl | rfl
      · simp
      · simp [peerValue_inj]
    · rw [if_neg hrk]
      by_cases hpk : peerKey other.peerPublicKey other.timestamp path =
          peerKey r.peerPublicKey r.timestamp f.path
      · -- another request under the same key
        obtain ⟨hkey, hsecs, rfl⟩ := peerKey_inj.mp hpk
        have hne : other.requestId ≠ f.requestId := fun he ↦ hrk (by rw [he])
        rw [if_pos hpk]
        constructor
        · intro hb
          exact absurd (h.mem_requestedFiles.mpr hb) (hno r other hr hother hne hkey hsecs size)
        · intro hb
          rcases hown with rfl | rfl
          · cases hb
          · exact absurd (peerValue_inj.mp (Option.some.inj hb)).1.symm hne
      · rw [if_neg hpk]
        exact ha' other path size hother

end Clash

private theorem agree_addRequestedFile_iff (h : Valid w) (ha : IndexesAgree w)
    {f : RequestedFile} {r : DownloadRequest} (hr : w.getRequest f.requestId = .ok r) :
    IndexesAgree (w.addRequestedFile f).1 ↔ f.downloaded = false ∧ NoClash w f := by
  have h' := h.addRequestedFile hr
  rw [addRequestedFile_eq hr] at h' ⊢
  apply agree_write_iff (some (peerValue f.requestId f.size)) f.downloaded h ha h' hr rfl
  · intro k
    exact getElem?_insert ..
  · intro k
    exact getElem?_insert ..
  · exact Or.inr rfl

private theorem agree_fileCompleted_iff (h : Valid w) (ha : IndexesAgree w) {f : RequestedFile}
    (hd : f.downloaded = true) : IndexesAgree (w.fileCompleted f).1 ↔ NoClash w f := by
  cases hr : w.getRequest f.requestId with
  | error e =>
    rw [fileCompleted_error hd hr]
    refine ⟨fun _ r _ hr' ↦ ?_, fun _ ↦ ha⟩
    rw [hr] at hr'
    cases hr'
  | ok r =>
    have h' := h.fileCompleted hd
    obtain ⟨progress, hp⟩ := h.progress_ok f.requestId
    have hrun := fileCompleted_eq hd hr hp
    rw [hrun] at h' ⊢
    have hwrite := agree_write_iff none true h ha h' hr rfl (fun k ↦ getElem?_erase ..)
      (fun k ↦ getElem?_insert ..) (Or.inl rfl)
    simpa using hwrite

/-- An allowed operation keeps the wishlist valid. -/
theorem Valid.run (h : Valid w) {op : Operation} (hop : op.Allowed w) : Valid (op.run w) := by
  cases op with
  | addRequest r => exact h.addRequest hop.1 hop.2
  | addRequestedFile f =>
    obtain ⟨r, hr⟩ := hop
    exact h.addRequestedFile hr
  | fileCompleted f => exact h.fileCompleted hop

/-- An allowed operation keeps the indexes in agreement exactly when it is clean. -/
theorem indexesAgree_run_iff (h : Valid w) (ha : IndexesAgree w) {op : Operation}
    (hop : op.Allowed w) : IndexesAgree (op.run w) ↔ op.Clean w := by
  cases op with
  | addRequest r => exact iff_of_true (agree_addRequest h ha hop.1 hop.2) trivial
  | addRequestedFile f =>
    obtain ⟨r, hr⟩ := hop
    exact agree_addRequestedFile_iff h ha hr
  | fileCompleted f => exact agree_fileCompleted_iff h ha hop

/-- Along every run of the wishlist the two file indexes agree in every state exactly when
no step meets an outstanding file of another request under its key. -/
theorem indexes_agree_iff (ops : List Operation)
    (h : EachStep Operation.run (fun w op ↦ op.Allowed w) empty ops) :
    EachState Operation.run IndexesAgree empty ops ↔
      EachStep Operation.run (fun w op ↦ op.Clean w) empty ops := by
  have hempty : IndexesAgree empty := by
    intro r path size hr
    rw [getRequest] at hr
    simp [empty] at hr
  rw [eachState_iff, and_iff_right hempty]
  apply eachStep_iff (I := fun w ↦ Valid w ∧ IndexesAgree w) ⟨valid_empty, hempty⟩ h
  · intro w op hw hop
    exact indexesAgree_run_iff hw.1 hw.2 hop
  · intro w op hw hop hnext
    exact ⟨hw.1.run hop, hnext⟩

/-- A public key for the examples. -/
def exampleKey : PublicKey := ⟨List.replicate 32 7, rfl⟩

/-- A request for a directory. -/
def musicRequest : DownloadRequest := .create 1700000000 "music" 5 1 exampleKey true

/-- A request for a file of that directory, to the same peer in the same second. -/
def songRequest : DownloadRequest := .create 1700000000 "music/one.mp3" 5 2 exampleKey false

/-- The request for the directory, whose file is then completed. -/
def singleRequest : List Operation :=
  [.addRequest musicRequest, .addRequestedFile ⟨"music/one.mp3", 5, 1, false⟩,
    .fileCompleted ⟨"music/one.mp3", 5, 1, true⟩]

/-- Both requests, each with its file. -/
def overlappingRequests : List Operation :=
  [.addRequest musicRequest, .addRequestedFile ⟨"music/one.mp3", 5, 1, false⟩,
    .addRequest songRequest, .addRequestedFile ⟨"music/one.mp3", 5, 2, false⟩]

private theorem singleRequest_allowed :
    EachStep Operation.run (fun w op ↦ op.Allowed w) empty singleRequest :=
  ⟨⟨rfl, by decide⟩, ⟨musicRequest, getRequest_of_record (r := musicRequest) rfl (by decide)⟩,
    rfl, trivial⟩

/-- One request alone keeps the indexes in agreement exactly as its steps are clean. -/
theorem indexes_agree_single_request :
    EachState Operation.run IndexesAgree empty singleRequest ↔
      EachStep Operation.run (fun w op ↦ op.Clean w) empty singleRequest :=
  indexes_agree_iff singleRequest singleRequest_allowed

/-- After the second request the file of the first one is no longer outstanding. -/
theorem overlapping_requests_disagree :
    EachStep Operation.run (fun w op ↦ op.Allowed w) empty overlappingRequests ∧
      ¬ EachState Operation.run IndexesAgree empty overlappingRequests := by
  constructor
  · exact ⟨⟨rfl, by decide⟩,
      ⟨musicRequest, getRequest_of_record (r := musicRequest) rfl (by decide)⟩,
      ⟨rfl, by decide⟩,
      ⟨songRequest, getRequest_of_record (r := songRequest) rfl (by decide)⟩, trivial⟩
  · rintro ⟨-, -, -, -, hagree⟩
    have hfirst := hagree musicRequest "music/one.mp3" 5
      (getRequest_of_record rfl (by decide))
    exact absurd (hfirst.mp (by decide)) (by decide)

end WishList

end HarddriveParty
