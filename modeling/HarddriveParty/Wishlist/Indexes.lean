import HarddriveParty.Wishlist.Model

/-!
# The two file indexes

What the keys of the wishlist determine, and what each tree can hold after any sequence of
operations: every file record belongs to a recorded request. Under this invariant the two
listings read the records of the two trees back.
-/

namespace HarddriveParty

open OrderedTree

/-- Four big-endian bytes determine the number. -/
theorem beU32_inj {x y : UInt32} : Bytes.beU32 x = Bytes.beU32 y ↔ x = y := by
  constructor
  · intro h
    have hr := congrArg Bytes.readBeU32 h
    simpa using hr
  · exact congrArg Bytes.beU32

/-- Eight big-endian bytes determine the number. -/
theorem beU64_inj {x y : UInt64} : Bytes.beU64 x = Bytes.beU64 y ↔ x = y := by
  constructor
  · intro h
    have hr := congrArg Bytes.readBeU64 h
    simpa using hr
  · exact congrArg Bytes.beU64

namespace RequestedFile

/-- A key of the tree by peer determines the peer, the second and the path. -/
theorem peerKey_inj {k k' : PublicKey} {t t' : Duration} {path path' : String} :
    peerKey k t path = peerKey k' t' path' ↔ k = k' ∧ t.secs = t'.secs ∧ path = path' := by
  constructor
  · intro h
    obtain ⟨hk, h⟩ := List.append_inj h (by rw [k.property, k'.property])
    obtain ⟨ht, hp⟩ := List.append_inj h (by rw [Bytes.length_beU64, Bytes.length_beU64])
    exact ⟨Subtype.ext hk, beU64_inj.mp ht, Utf8.encode_inj.mp hp⟩
  · rintro ⟨rfl, ht, rfl⟩
    rw [peerKey, peerKey, ht]

/-- A value of the tree by peer determines the request and the size. -/
theorem peerValue_inj {requestId requestId' : UInt32} {size size' : UInt64} :
    peerValue requestId size = peerValue requestId' size' ↔
      requestId = requestId' ∧ size = size' := by
  constructor
  · intro h
    obtain ⟨hi, hs⟩ := List.append_inj h (by rw [Bytes.length_beU32, Bytes.length_beU32])
    exact ⟨beU32_inj.mp hi, beU64_inj.mp hs⟩
  · rintro ⟨rfl, rfl⟩
    rfl

/-- A key of the tree by request determines the request and the path. -/
theorem requestKey_inj {requestId requestId' : UInt32} {path path' : String} :
    requestKey requestId path = requestKey requestId' path' ↔
      requestId = requestId' ∧ path = path' := by
  constructor
  · intro h
    obtain ⟨hi, hp⟩ := List.append_inj h (by rw [Bytes.length_beU32, Bytes.length_beU32])
    exact ⟨beU32_inj.mp hi, Utf8.encode_inj.mp hp⟩
  · rintro ⟨rfl, rfl⟩
    rfl

/-- A value of the tree by request determines the size and the flag. -/
theorem requestValue_inj {size size' : UInt64} {downloaded downloaded' : Bool} :
    requestValue size downloaded = requestValue size' downloaded' ↔
      size = size' ∧ downloaded = downloaded' := by
  constructor
  · intro h
    obtain ⟨hs, hd⟩ := List.append_inj h (by rw [Bytes.length_beU64, Bytes.length_beU64])
    refine ⟨beU64_inj.mp hs, ?_⟩
    revert hd
    cases downloaded <;> cases downloaded' <;> decide
  · rintro ⟨rfl, rfl⟩
    rfl

/-- A request id starts exactly the keys of its own files. -/
theorem beU32_prefix_requestKey {requestId requestId' : UInt32} {path : String} :
    Bytes.beU32 requestId <+: requestKey requestId' path ↔ requestId = requestId' := by
  constructor
  · rintro ⟨t, ht⟩
    obtain ⟨hi, -⟩ := List.append_inj ht (by rw [Bytes.length_beU32, Bytes.length_beU32])
    exact beU32_inj.mp hi
  · rintro rfl
    exact List.prefix_append _ _

end RequestedFile

open RequestedFile

namespace WishList

/-- Every record of the wishlist is a written one, and every file record belongs to a
recorded request. -/
structure Valid (w : WishList) : Prop where
  requests : ∀ k b : Bytes, w.requestsByRequestId[k]? = some b →
    ∃ r : DownloadRequest, r.timestamp.nanos = 0 ∧ r.toDbKeyValue.1 = (k, b)
  progress : ∀ k b : Bytes, w.bytesDownloadedByRequestId[k]? = some b → (Bytes.readBeU64 b).isSome
  byPeer : ∀ k b : Bytes, w.requestedFilesByPeer[k]? = some b →
    ∃ (r : DownloadRequest) (path : String) (size : UInt64),
      w.getRequest r.requestId = .ok r ∧ k = peerKey r.peerPublicKey r.timestamp path ∧
        b = peerValue r.requestId size
  byRequest : ∀ k b : Bytes, w.requestedFilesByRequestId[k]? = some b →
    ∃ (r : DownloadRequest) (path : String) (size : UInt64) (downloaded : Bool),
      w.getRequest r.requestId = .ok r ∧ k = requestKey r.requestId path ∧
        b = requestValue size downloaded

/-- The empty wishlist is valid. -/
theorem valid_empty : Valid empty := by
  constructor <;> simp [empty]

private theorem timestamp_eq {t : Duration} (h : t.nanos = 0) : Duration.fromSecs t.secs = t := by
  obtain ⟨secs, nanos⟩ := t
  cases h
  rfl

variable {w : WishList}

/-- A recorded request is found under its id. -/
theorem getRequest_of_record {r : DownloadRequest} (hn : r.timestamp.nanos = 0)
    (h : w.requestsByRequestId[r.toDbKeyValue.1.1]? = some r.toDbKeyValue.1.2) :
    w.getRequest r.requestId = .ok r := by
  have hd := DownloadRequest.fromDbKeyValue_toDbKeyValue r
  rw [timestamp_eq hn] at hd
  have hkey : DownloadRequest.idKey r.requestId = r.toDbKeyValue.1.1 := rfl
  rw [getRequest, hkey, h]
  exact hd

/-- Recording a request changes what is found under its id only. -/
theorem getRequest_addRequest {r : DownloadRequest} (hn : r.timestamp.nanos = 0)
    (id : UInt32) :
    (w.addRequest r).getRequest id = if id = r.requestId then .ok r else w.getRequest id := by
  by_cases hid : id = r.requestId
  · subst hid
    rw [if_pos rfl]
    apply getRequest_of_record hn
    simp [addRequest]
  · have hkey : DownloadRequest.idKey id ≠ r.toDbKeyValue.1.1 := fun he ↦ hid (beU32_inj.mp he)
    rw [if_neg hid, getRequest, getRequest, addRequest]
    simp only [getElem?_insert, if_neg hkey]

/-- A file of a recorded request is written to both file trees. -/
theorem addRequestedFile_eq {f : RequestedFile} {r : DownloadRequest}
    (hr : w.getRequest f.requestId = .ok r) :
    (w.addRequestedFile f).1 =
      { w with
        requestedFilesByPeer := w.requestedFilesByPeer.insert
          (peerKey r.peerPublicKey r.timestamp f.path) (peerValue f.requestId f.size)
        requestedFilesByRequestId := w.requestedFilesByRequestId.insert
          (requestKey f.requestId f.path) (requestValue f.size f.downloaded) } := by
  rw [addRequestedFile, hr]
  rfl

/-- A file of a request that is not recorded is not added. -/
theorem addRequestedFile_error {f : RequestedFile} {e : Fault DbError}
    (hr : w.getRequest f.requestId = .error e) : w.addRequestedFile f = (w, .error e) := by
  rw [addRequestedFile, hr]

/-- A completed file of a recorded request is taken off the outstanding files, added to the
progress and marked. -/
theorem fileCompleted_eq {f : RequestedFile} (hd : f.downloaded = true) {r : DownloadRequest}
    (hr : w.getRequest f.requestId = .ok r) {progress : UInt64}
    (hp : w.getDownloadProgressForRequest f.requestId = .ok progress) :
    w.fileCompleted f =
      ({ w with
         requestedFilesByPeer := w.requestedFilesByPeer.erase
           (peerKey r.peerPublicKey r.timestamp f.path)
         bytesDownloadedByRequestId := w.bytesDownloadedByRequestId.insert
           (DownloadRequest.idKey f.requestId) (Bytes.beU64 (progress + f.size))
         requestedFilesByRequestId := w.requestedFilesByRequestId.insert
           (requestKey f.requestId f.path) (requestValue f.size true) },
        .ok (progress + f.size == r.totalSize)) := by
  have hp' : ∀ t, ({ w with requestedFilesByPeer := t } : WishList).getDownloadProgressForRequest
      f.requestId = .ok progress := fun _ ↦ hp
  rw [fileCompleted, if_neg (by simp [hd]), hr]
  simp only [toDbKeyValue, hd, hp']

/-- Writing the progress of one request changes what is read for that request only. -/
theorem getDownloadProgress_insert (w : WishList) (id id' : UInt32) (bytes : UInt64)
    (byPeer byRequest : Tree) :
    ({ w with
       requestedFilesByPeer := byPeer
       bytesDownloadedByRequestId := w.bytesDownloadedByRequestId.insert
         (DownloadRequest.idKey id) (Bytes.beU64 bytes)
       requestedFilesByRequestId := byRequest } : WishList).getDownloadProgressForRequest id' =
      if id' = id then .ok bytes else w.getDownloadProgressForRequest id' := by
  have hkey : DownloadRequest.idKey id' = DownloadRequest.idKey id ↔ id' = id := beU32_inj
  simp only [getDownloadProgressForRequest, getElem?_insert, hkey]
  by_cases hid : id' = id
  · simp only [if_pos hid, Bytes.readBeU64_beU64]
    rfl
  · simp only [if_neg hid]

/-- A completed file of a request that is not recorded changes nothing. -/
theorem fileCompleted_error {f : RequestedFile} (hd : f.downloaded = true)
    {e : Fault DbError} (hr : w.getRequest f.requestId = .error e) :
    w.fileCompleted f = (w, .error e) := by
  rw [fileCompleted, if_neg (by simp [hd]), hr]

/-- In a valid wishlist what is found under an id is the recorded request with that id. -/
theorem Valid.getRequest_ok (h : Valid w) {id : UInt32} {r : DownloadRequest}
    (hr : w.getRequest id = .ok r) :
    r.requestId = id ∧ r.timestamp.nanos = 0 ∧
      w.requestsByRequestId[DownloadRequest.idKey id]? = some r.toDbKeyValue.1.2 := by
  cases hb : w.requestsByRequestId[DownloadRequest.idKey id]? with
  | none =>
    rw [getRequest, hb] at hr
    cases hr
  | some b =>
    obtain ⟨r', hn, hkv⟩ := h.requests _ b hb
    obtain ⟨hkey, hval⟩ := Prod.mk.inj hkv
    have hid : r'.requestId = id := beU32_inj.mp hkey
    have hr' : w.getRequest r'.requestId = .ok r' := by
      apply getRequest_of_record hn
      rw [hkv]
      exact hb
    rw [hid, hr] at hr'
    cases hr'
    exact ⟨hid, hn, congrArg some hval.symm⟩

/-- In a valid wishlist the progress of every request can be read. -/
theorem Valid.progress_ok (h : Valid w) (id : UInt32) :
    ∃ progress, w.getDownloadProgressForRequest id = .ok progress := by
  unfold getDownloadProgressForRequest
  split
  · next b hb =>
    obtain ⟨progress, hp⟩ := Option.isSome_iff_exists.mp (h.progress _ b hb)
    exact ⟨progress, by rw [hp]; rfl⟩
  · exact ⟨0, rfl⟩

/-- The listing of a request shows exactly the records of its files. -/
theorem Valid.mem_requestedFiles (h : Valid w) {id : UInt32} {path : String} {size : UInt64}
    {downloaded : Bool} :
    ⟨path, size, id, downloaded⟩ ∈ (w.requestedFiles id).flatten ↔
      w.requestedFilesByRequestId[requestKey id path]? = some (requestValue size downloaded) := by
  rw [requestedFiles, chunker_flatten (by decide), List.mem_filterMap]
  constructor
  · rintro ⟨⟨k, b⟩, hmem, hdec⟩
    obtain ⟨hget, hpre⟩ := mem_scanPrefix.mp hmem
    obtain ⟨r, path', size', downloaded', -, rfl, rfl⟩ := h.byRequest k b hget
    rw [fromDbByRequestId_requestKey, Outcome.toOption_ok, Option.map_some] at hdec
    cases hdec
    exact hget
  · intro hget
    refine ⟨_, mem_scanPrefix.mpr ⟨hget, List.prefix_append _ _⟩, ?_⟩
    rw [fromDbByRequestId_requestKey]
    rfl

/-- A subscription for a peer first yields exactly the records of its outstanding files. -/
theorem Valid.mem_existingRequests (h : Valid w) {r : DownloadRequest} {path : String}
    {size : UInt64} (hr : w.getRequest r.requestId = .ok r) :
    ⟨path, size, r.requestId, false⟩ ∈ w.existingRequests r.peerPublicKey ↔
      w.requestedFilesByPeer[peerKey r.peerPublicKey r.timestamp path]? =
        some (peerValue r.requestId size) := by
  rw [existingRequests, List.mem_filterMap]
  constructor
  · rintro ⟨⟨k, b⟩, hmem, hdec⟩
    obtain ⟨hget, -⟩ := mem_scanPrefix.mp hmem
    obtain ⟨r', path', size', hr', rfl, rfl⟩ := h.byPeer k b hget
    rw [fromDbKeyValue_peerKey, Outcome.toOption_ok, Option.some.injEq,
      RequestedFile.mk.injEq] at hdec
    obtain ⟨rfl, rfl, hid, -⟩ := hdec
    rw [hid, hr] at hr'
    cases hr'
    exact hget
  · intro hget
    refine ⟨_, mem_scanPrefix.mpr ⟨hget, List.prefix_append _ _⟩, ?_⟩
    rw [fromDbKeyValue_peerKey]
    rfl

/-- What the listing of a request shows, for any wishlist. -/
theorem mem_requestedFiles_iff {id : UInt32} {f : UiRequestedFile} :
    f ∈ (w.requestedFiles id).flatten ↔ f.requestId = id ∧ ∃ b g,
      w.requestedFilesByRequestId[requestKey id f.path]? = some b ∧
        fromDbByRequestIdKeyValue (requestKey id f.path) b = .ok g ∧
          g.intoUiRequestedFile = f := by
  rw [requestedFiles, chunker_flatten (by decide), List.mem_filterMap]
  constructor
  · rintro ⟨⟨k, b⟩, hmem, hdec⟩
    obtain ⟨hget, hpre⟩ := mem_scanPrefix.mp hmem
    cases hg : fromDbByRequestIdKeyValue k b with
    | error e =>
      simp only [hg] at hdec
      cases hdec
    | ok g =>
      simp only [hg] at hdec
      cases hdec
      have hkey := eq_requestKey hg
      subst hkey
      cases beU32_prefix_requestKey.mp hpre
      exact ⟨rfl, b, g, hget, hg, rfl⟩
  · rintro ⟨-, b, g, hget, hdec, rfl⟩
    refine ⟨_, mem_scanPrefix.mpr ⟨hget, List.prefix_append _ _⟩, ?_⟩
    simp only [hdec]
    rfl

/-- The listing of a request depends on the records under its id only. -/
theorem requestedFiles_congr {w w' : WishList} {id : UInt32}
    (h : ∀ k, Bytes.beU32 id <+: k →
      w'.requestedFilesByRequestId[k]? = w.requestedFilesByRequestId[k]?) :
    w'.requestedFiles id = w.requestedFiles id := by
  rw [requestedFiles, requestedFiles, scanPrefix_congr h]

/-- What the listing of all requests shows is recorded under its id. -/
theorem mem_requested {keyToName : PublicKey → String} {u : UiDownloadRequest}
    (h : u ∈ (w.requested keyToName).flatten) :
    ∃ r progress, w.getRequest u.requestId = .ok r ∧
      w.getDownloadProgressForRequest u.requestId = .ok progress ∧
        u = r.intoUiDownloadRequest keyToName progress := by
  rw [requested, chunker_flatten (by decide), List.mem_filterMap] at h
  obtain ⟨⟨k, b⟩, -, hu⟩ := h
  simp only [Option.bind_eq_bind, Option.bind_eq_some_iff, Option.pure_def,
    Option.some.injEq] at hu
  obtain ⟨details, hdetails, r, hr, id, hid, progress, hprogress, rfl⟩ := hu
  obtain rfl := Bytes.eq_beU32_of_readBeU32 hid
  rw [Outcome.toOption_eq_some_iff] at hr hprogress
  have hrid : r.requestId = id := DownloadRequest.requestId_of_fromDbKeyValue hr
  subst hrid
  refine ⟨r, progress, ?_, hprogress, rfl⟩
  show w.getRequest r.requestId = .ok r
  rw [getRequest, show w.requestsByRequestId[DownloadRequest.idKey r.requestId]? = some details
    from hdetails]
  exact hr

/-- The listing of a request shows every path once. -/
theorem nodup_requestedFiles (w : WishList) (id : UInt32) :
    ((w.requestedFiles id).flatten.map UiRequestedFile.path).Nodup := by
  rw [requestedFiles, chunker_flatten (by decide), List.Nodup, List.pairwise_map]
  have hkeys : (scanPrefix w.requestedFilesByRequestId (Bytes.beU32 id)).Pairwise
      fun a b ↦ a.1 ≠ b.1 := by
    have hk := (nodup_keys w.requestedFilesByRequestId)
    rw [List.Nodup, List.pairwise_map] at hk
    exact hk.filter _
  rw [List.pairwise_filterMap]
  apply hkeys.imp_of_mem
  rintro ⟨k, b⟩ ⟨k', b'⟩ hmem hmem' hne f hf f' hf' he
  have hkey : ∀ {k b : Bytes} {f : UiRequestedFile},
      (k, b) ∈ scanPrefix w.requestedFilesByRequestId (Bytes.beU32 id) →
        (fromDbByRequestIdKeyValue k b).toOption.map intoUiRequestedFile = some f →
          k = requestKey id f.path := by
    intro k b f hmem hf
    cases hg : fromDbByRequestIdKeyValue k b with
    | error e =>
      rw [hg] at hf
      cases hf
    | ok g =>
      rw [hg] at hf
      cases hf
      have hk := eq_requestKey hg
      subst hk
      cases beU32_prefix_requestKey.mp (mem_scanPrefix.mp hmem).2
      rfl
  exact hne (by rw [hkey hmem hf, hkey hmem' hf', he])

end WishList

end HarddriveParty
