import HarddriveParty.Wishlist.Agreement

/-!
# The list of all requests

The list of all requests walks a tree whose key is the time of the request alone. Whatever
is listed is listed once, in the order of time and with its recorded progress. All requests
are listed exactly when no two of them were made in the same second.
-/

namespace HarddriveParty

open OrderedTree Runs

namespace WishList

/-- The requests that a sequence of operations adds. -/
def addedRequests (ops : List Operation) : List DownloadRequest :=
  ops.filterMap fun
    | .addRequest downloadRequest => some downloadRequest
    | _ => none

/-- The listing shows every request once, as it was made and with its recorded progress, in
the order of time and in messages of 1 to 64 entries. -/
structure RequestedComplete (keyToName : PublicKey → String) (w : WishList)
    (requests : List DownloadRequest) : Prop where
  chunks : ∀ chunk ∈ w.requested keyToName, 1 ≤ chunk.length ∧ chunk.length ≤ 64
  ordered : (w.requested keyToName).flatten.Pairwise fun a b ↦
    a.timestamp.secs ≤ b.timestamp.secs
  entries : ∃ progress : UInt32 → UInt64,
    (∀ id, w.getDownloadProgressForRequest id = .ok (progress id)) ∧
      (w.requested keyToName).flatten.Perm
        (requests.map fun r ↦ r.intoUiDownloadRequest keyToName (progress r.requestId))

/-- What the trees hold after the given requests were added: every request under its id, and
under each of their seconds one of them. -/
structure Records (w : WishList) (requests : List DownloadRequest) : Prop where
  byId : ∀ r ∈ requests, w.getRequest r.requestId = .ok r
  byTime : ∀ k v : Bytes, w.requestsByTimestamp[k]? = some v →
    ∃ r ∈ requests, k = Bytes.beU64 r.timestamp.secs ∧ v = Bytes.beU32 r.requestId
  covered : ∀ r ∈ requests, (w.requestsByTimestamp[Bytes.beU64 r.timestamp.secs]?).isSome
  progress : ∀ id, ∃ bytes, w.getDownloadProgressForRequest id = .ok bytes

variable {w : WishList} {requests : List DownloadRequest}

private theorem records_empty : Records empty [] := by
  constructor
  · simp
  · simp [empty]
  · simp
  · exact fun id ↦ ⟨0, by simp [getDownloadProgressForRequest, empty]⟩

private theorem Records.addRequest (h : Records w requests) {r : DownloadRequest}
    (hn : r.timestamp.nanos = 0) (hnew : r.requestId ∉ requests.map (·.requestId)) :
    Records (w.addRequest r) (requests ++ [r]) := by
  constructor
  · intro r' hr'
    rw [getRequest_addRequest hn]
    rcases List.mem_append.mp hr' with hold | hlast
    · have hne : r'.requestId ≠ r.requestId :=
        fun he ↦ hnew (he ▸ List.mem_map_of_mem hold)
      rw [if_neg hne]
      exact h.byId r' hold
    · rw [List.mem_singleton.mp hlast, if_pos rfl]
  · intro k v hv
    rw [WishList.addRequest] at hv
    simp only [getElem?_insert] at hv
    split at hv
    · next hk =>
      cases hv
      exact ⟨r, by simp, hk, rfl⟩
    · obtain ⟨r', hr', hk, hv'⟩ := h.byTime k v hv
      exact ⟨r', by simp [hr'], hk, hv'⟩
  · intro r' hr'
    rw [WishList.addRequest]
    simp only [getElem?_insert]
    split
    · rfl
    · next hk =>
      rcases List.mem_append.mp hr' with hold | hlast
      · exact h.covered r' hold
      · rw [List.mem_singleton.mp hlast] at hk
        exact absurd rfl hk
  · exact h.progress

/-- The file operations leave the requests alone. -/
private theorem Records.congr {w' : WishList} (h : Records w requests)
    (hid : w'.requestsByRequestId = w.requestsByRequestId)
    (htime : w'.requestsByTimestamp = w.requestsByTimestamp)
    (hprogress : ∀ id, ∃ bytes, w'.getDownloadProgressForRequest id = .ok bytes) :
    Records w' requests := by
  constructor
  · intro r hr
    rw [getRequest, hid]
    exact h.byId r hr
  · rw [htime]
    exact h.byTime
  · rw [htime]
    exact h.covered
  · exact hprogress

private theorem Records.addRequestedFile (h : Records w requests) (f : RequestedFile) :
    Records (w.addRequestedFile f).1 requests := by
  cases hr : w.getRequest f.requestId with
  | error e =>
    rw [addRequestedFile_error hr]
    exact h
  | ok r =>
    rw [addRequestedFile_eq hr]
    exact h.congr rfl rfl h.progress

private theorem Records.fileCompleted (h : Records w requests) (f : RequestedFile) :
    Records (w.fileCompleted f).1 requests := by
  cases hd : f.downloaded with
  | false =>
    rw [WishList.fileCompleted, if_pos hd]
    exact h
  | true =>
    cases hr : w.getRequest f.requestId with
    | error e =>
      rw [fileCompleted_error hd hr]
      exact h
    | ok r =>
      obtain ⟨progress, hp⟩ := h.progress f.requestId
      rw [fileCompleted_eq hd hr hp]
      apply h.congr
      · rfl
      · rfl
      · intro id
        rw [getDownloadProgress_insert]
        split
        · exact ⟨_, rfl⟩
        · exact h.progress id

private theorem records_run (h : Records w requests) (ops : List Operation)
    (hids : ((requests ++ addedRequests ops).map (·.requestId)).Nodup)
    (hsecs : ∀ r ∈ addedRequests ops, r.timestamp.nanos = 0) :
    Records (finalState Operation.run w ops) (requests ++ addedRequests ops) := by
  induction ops generalizing w requests with
  | nil => simpa [addedRequests, finalState] using h
  | cons op ops ih =>
    cases op with
    | addRequest r =>
      have hadded : addedRequests (.addRequest r :: ops) = r :: addedRequests ops := rfl
      rw [hadded] at hids hsecs ⊢
      rw [List.append_cons] at hids ⊢
      apply ih
      · apply h.addRequest
        · exact hsecs r (by simp)
        · rw [List.map_append, List.map_append, List.nodup_append, List.nodup_append] at hids
          intro hmem
          exact hids.1.2.2 _ hmem _ (by simp) rfl
      · exact hids
      · exact fun r' hr' ↦ hsecs r' (by simp [hr'])
    | addRequestedFile f => exact ih (h.addRequestedFile f) hids hsecs
    | fileCompleted f => exact ih (h.fileCompleted f) hids hsecs

section Listing

variable (keyToName : PublicKey → String)

/-- How the listing joins an entry of the tree by time with the other trees. -/
private def joined (w : WishList) (kv : KeyValue) : Option UiDownloadRequest := do
  let requestDetails ← w.requestsByRequestId[kv.2]?
  let downloadRequest ← (DownloadRequest.fromDbKeyValue kv.2 requestDetails).toOption
  let requestId ← Bytes.readBeU32 kv.2
  let progress ← (w.getDownloadProgressForRequest requestId).toOption
  return downloadRequest.intoUiDownloadRequest keyToName progress

private theorem flatten_requested (w : WishList) :
    (w.requested keyToName).flatten = w.requestsByTimestamp.toList.filterMap (joined keyToName w) :=
  chunker_flatten (by decide) _

private theorem joined_eq {r : DownloadRequest} (hr : w.getRequest r.requestId = .ok r)
    {progress : UInt64} (hp : w.getDownloadProgressForRequest r.requestId = .ok progress)
    (k : Bytes) : joined keyToName w (k, Bytes.beU32 r.requestId) =
      some (r.intoUiDownloadRequest keyToName progress) := by
  unfold getRequest at hr
  split at hr
  · cases hr
  · next details hdetails =>
    have hdetails' : w.requestsByRequestId[Bytes.beU32 r.requestId]? = some details := hdetails
    have hr' : DownloadRequest.fromDbKeyValue (Bytes.beU32 r.requestId) details = .ok r := hr
    simp [joined, hdetails', hr', hp]

/-- Every entry of the tree by time is listed, under the second of its key. -/
private theorem Records.map_requested (h : Records w requests) :
    (w.requested keyToName).flatten.map (fun u ↦ Bytes.beU64 u.timestamp.secs) =
      w.requestsByTimestamp.toList.map Prod.fst := by
  rw [flatten_requested, List.map_filterMap]
  apply List.filterMap_eq_map_iff_forall_eq_some.mpr
  rintro ⟨k, v⟩ hkv
  obtain ⟨r, hr, rfl, rfl⟩ :=
    h.byTime k v (Std.ExtTreeMap.mem_toList_iff_getElem?_eq_some.mp hkv)
  obtain ⟨progress, hp⟩ := h.progress r.requestId
  rw [joined_eq keyToName (h.byId r hr) hp]
  rfl

/-- The listing shows nothing but added requests, in the order of time. -/
private theorem Records.ordered (h : Records w requests) :
    (w.requested keyToName).flatten.Pairwise fun a b ↦ a.timestamp.secs ≤ b.timestamp.secs := by
  have hkeys : (w.requestsByTimestamp.toList.map Prod.fst).Pairwise
      fun a b ↦ compare a b = .lt := by
    rw [List.pairwise_map]
    exact w.requestsByTimestamp.ordered_keys_toList
  rw [← h.map_requested keyToName, List.pairwise_map] at hkeys
  apply hkeys.imp
  intro a b hab
  have hlen : (Bytes.beU64 a.timestamp.secs).length = (Bytes.beU64 b.timestamp.secs).length := by
    rw [Bytes.length_beU64, Bytes.length_beU64]
  have hlt := ofBe_lt_of_compare hlen hab
  rw [Bytes.ofBe_beU64, Bytes.ofBe_beU64] at hlt
  exact Nat.le_of_lt hlt

private theorem Records.nodup_requested (h : Records w requests) :
    ((w.requested keyToName).flatten.map fun u ↦ Bytes.beU64 u.timestamp.secs).Nodup := by
  rw [h.map_requested keyToName]
  exact nodup_keys _

/-- When no two requests were made in the same second, each has an entry of its own. -/
private theorem Records.byTime_eq (h : Records w requests)
    (htimes : (requests.map (·.timestamp.secs)).Nodup) {r : DownloadRequest}
    (hr : r ∈ requests) :
    w.requestsByTimestamp[Bytes.beU64 r.timestamp.secs]? = some (Bytes.beU32 r.requestId) := by
  obtain ⟨v, hv⟩ := Option.isSome_iff_exists.mp (h.covered r hr)
  obtain ⟨r', hr', hk, rfl⟩ := h.byTime _ v hv
  have hsame : r = r' := List.inj_on_of_nodup_map htimes hr hr' (beU64_inj.mp hk)
  rw [hv, hsame]

private theorem Records.mem_requested_iff (h : Records w requests)
    (htimes : (requests.map (·.timestamp.secs)).Nodup) {progress : UInt32 → UInt64}
    (hp : ∀ id, w.getDownloadProgressForRequest id = .ok (progress id)) {u : UiDownloadRequest} :
    u ∈ (w.requested keyToName).flatten ↔
      u ∈ requests.map fun r ↦ r.intoUiDownloadRequest keyToName (progress r.requestId) := by
  rw [flatten_requested, List.mem_filterMap, List.mem_map]
  constructor
  · rintro ⟨⟨k, v⟩, hkv, hu⟩
    obtain ⟨r, hr, rfl, rfl⟩ :=
      h.byTime k v (Std.ExtTreeMap.mem_toList_iff_getElem?_eq_some.mp hkv)
    rw [joined_eq keyToName (h.byId r hr) (hp _)] at hu
    exact ⟨r, hr, Option.some.inj hu⟩
  · rintro ⟨r, hr, rfl⟩
    refine ⟨_, Std.ExtTreeMap.mem_toList_iff_getElem?_eq_some.mpr (h.byTime_eq htimes hr), ?_⟩
    exact joined_eq keyToName (h.byId r hr) (hp _) _

/-- All requests are listed exactly when no two were made in the same second. -/
private theorem Records.complete_iff (h : Records w requests)
    (hids : (requests.map (·.requestId)).Nodup) :
    RequestedComplete keyToName w requests ↔ (requests.map (·.timestamp.secs)).Nodup := by
  constructor
  · intro hall
    obtain ⟨progress, -, hperm⟩ := hall.entries
    have hnodup := h.nodup_requested keyToName
    rw [(hperm.map _).nodup_iff, List.map_map] at hnodup
    have hbytes : (requests.map fun r ↦ Bytes.beU64 r.timestamp.secs).Nodup := hnodup
    have hmap : (requests.map fun r ↦ Bytes.beU64 r.timestamp.secs) =
        (requests.map (·.timestamp.secs)).map Bytes.beU64 := by
      rw [List.map_map]
      rfl
    rw [hmap] at hbytes
    exact hbytes.of_map _
  · intro htimes
    choose progress hp using h.progress
    constructor
    · intro chunk hchunk
      have hlen := length_of_mem_chunker (by decide) hchunk
      exact ⟨List.length_pos_iff.mpr hlen.1, hlen.2⟩
    · exact h.ordered keyToName
    · refine ⟨progress, hp, ?_⟩
      rw [List.perm_ext_iff_of_nodup]
      · exact fun u ↦ h.mem_requested_iff keyToName htimes hp
      · exact (h.nodup_requested keyToName).of_map _
      · have hids' : ((requests.map fun r ↦ r.intoUiDownloadRequest keyToName
            (progress r.requestId)).map (·.requestId)).Nodup := by
          rw [List.map_map]
          exact hids
        exact hids'.of_map _

/-- After any run that adds requests with pairwise distinct ids and whole seconds, the
listing is complete exactly when no two of them were made in the same second. -/
theorem requested_complete_iff (ops : List Operation)
    (hids : ((addedRequests ops).map (·.requestId)).Nodup)
    (hsecs : ∀ r ∈ addedRequests ops, r.timestamp.nanos = 0) :
    RequestedComplete keyToName (finalState Operation.run empty ops) (addedRequests ops) ↔
      ((addedRequests ops).map (·.timestamp.secs)).Nodup := by
  have hrecords := records_run records_empty ops hids hsecs
  rw [List.nil_append] at hrecords
  exact hrecords.complete_iff keyToName hids

end Listing

/-- The directory, and its file a second later. -/
def laterRequests : List Operation :=
  [.addRequest musicRequest,
    .addRequest (.create 1700000001 "music/one.mp3" 5 2 exampleKey false)]

/-- Two requests that were made in different seconds are both listed. -/
theorem requested_complete_later :
    RequestedComplete (fun _ ↦ "alice") (finalState Operation.run empty laterRequests)
      (addedRequests laterRequests) :=
  (requested_complete_iff (fun _ ↦ "alice") laterRequests (by decide) (by decide)).mpr (by decide)

/-- The directory and its file, in the same second. -/
def sameSecondRequests : List Operation := [.addRequest musicRequest, .addRequest songRequest]

/-- Of two requests that were made in the same second only the second one is listed. -/
theorem same_second_listed_once :
    ((addedRequests sameSecondRequests).map (·.requestId)).Nodup ∧
      (∀ r ∈ addedRequests sameSecondRequests, r.timestamp.nanos = 0) ∧
        ¬ RequestedComplete (fun _ ↦ "alice")
          (finalState Operation.run empty sameSecondRequests)
          (addedRequests sameSecondRequests) := by
  refine ⟨by decide, by decide, fun h ↦ ?_⟩
  obtain ⟨progress, -, hperm⟩ := h.entries
  have hlen := hperm.length_eq
  have hone : ((finalState Operation.run empty sameSecondRequests).requested
      fun _ ↦ "alice").flatten.length = 1 := by decide
  rw [hone, List.length_map] at hlen
  exact absurd hlen (by decide)

end WishList

end HarddriveParty
