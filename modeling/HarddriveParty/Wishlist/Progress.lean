import HarddriveParty.Wishlist.Agreement

/-!
# Download progress

The progress of a request is a counter beside the flags of its files. A completed file is
added to the counter whether or not it was counted before, and adding a file again clears
its flag but not the counter. The two agree exactly as long as no operation does either.
-/

namespace HarddriveParty

open OrderedTree RequestedFile Runs

namespace WishList

/-- The sizes of those files of a request that are marked as downloaded. -/
def downloadedSize (w : WishList) (id : UInt32) : Nat :=
  (((w.requestedFiles id).flatten.filter (·.downloaded)).map (·.size.toNat)).sum

/-- The sizes of all files of a request. -/
def filesSize (w : WishList) (id : UInt32) : Nat :=
  ((w.requestedFiles id).flatten.map (·.size.toNat)).sum

/-- The progress of every request is the size of its downloaded files, and so at most the
size of its files. -/
def ProgressExact (w : WishList) : Prop :=
  ∀ id, ∃ progress, w.getDownloadProgressForRequest id = .ok progress ∧
    progress.toNat = w.downloadedSize id ∧ progress.toNat ≤ w.filesSize id

/-- What a listed file counts for: its size, once it is marked as downloaded. -/
def countedSize (f : UiRequestedFile) : Nat := if f.downloaded then f.size.toNat else 0

/-- What an entry of the tree by request counts for. -/
def entrySize (key value : Bytes) : Nat :=
  match fromDbByRequestIdKeyValue key value with
  | .ok f => countedSize f.intoUiRequestedFile
  | .error _ => 0

/-- What the record of a file of a request counts for, if there is one. -/
def recordedSize (w : WishList) (id : UInt32) (path : String) : Nat :=
  w.requestedFilesByRequestId[requestKey id path]?.elim 0 (entrySize (requestKey id path))

/-- An added file counts for what its record counted for before. A completed file did not
count yet, and its size fits into the counter. -/
def Operation.CountsOnce (w : WishList) : Operation → Prop
  | addRequest _ => True
  | addRequestedFile f => ∀ r, w.getRequest f.requestId = .ok r →
      w.recordedSize f.requestId f.path = countedSize f.intoUiRequestedFile
  | fileCompleted f => f.downloaded = true → ∀ r, w.getRequest f.requestId = .ok r →
      w.recordedSize f.requestId f.path = 0 ∧
        w.downloadedSize f.requestId + f.size.toNat < 2 ^ 64

variable {w : WishList}

/-- What an entry of the tree by request adds to the downloaded size of a request. -/
private def shareOf (id : UInt32) (key value : Bytes) : Nat :=
  if (Bytes.beU32 id).isPrefixOf key then entrySize key value else 0

private theorem sum_filterMap_downloaded (g : Bytes × Bytes → Option UiRequestedFile)
    (l : List (Bytes × Bytes)) :
    (((l.filterMap g).filter (·.downloaded)).map (·.size.toNat)).sum =
      (l.map fun kv ↦ (g kv).elim 0 countedSize).sum := by
  induction l with
  | nil => rfl
  | cons kv l ih =>
    rw [List.map_cons, List.sum_cons, ← ih, List.filterMap_cons]
    cases g kv with
    | none => simp
    | some f => cases hd : f.downloaded <;> simp [countedSize, hd]

private theorem entrySize_eq (key value : Bytes) :
    ((fromDbByRequestIdKeyValue key value).toOption.map intoUiRequestedFile).elim 0 countedSize =
      entrySize key value := by
  unfold entrySize
  cases fromDbByRequestIdKeyValue key value with
  | ok f => rfl
  | error e => rfl

private theorem downloadedSize_eq (w : WishList) (id : UInt32) :
    w.downloadedSize id = weight w.requestedFilesByRequestId (shareOf id) := by
  rw [downloadedSize, requestedFiles, chunker_flatten (by decide), sum_filterMap_downloaded]
  simp only [entrySize_eq]
  exact (weight_ite w.requestedFilesByRequestId (fun k ↦ (Bytes.beU32 id).isPrefixOf k)
    entrySize).symm

private theorem shareOf_requestKey (id id' : UInt32) (path : String) (value : Bytes) :
    shareOf id (requestKey id' path) value =
      if id = id' then entrySize (requestKey id' path) value else 0 := by
  simp only [shareOf, List.isPrefixOf_iff_prefix, beU32_prefix_requestKey]

/-- Writing the record of a file changes the downloaded size of its request by the new
record minus the record it replaces, and no other. -/
private theorem downloadedSize_insert {w' : WishList} {f : RequestedFile}
    (h : w'.requestedFilesByRequestId = w.requestedFilesByRequestId.insert
      (requestKey f.requestId f.path) (requestValue f.size f.downloaded)) (id : UInt32) :
    w'.downloadedSize id + (if id = f.requestId then w.recordedSize f.requestId f.path else 0) =
      w.downloadedSize id +
        (if id = f.requestId then countedSize f.intoUiRequestedFile else 0) := by
  have hinsert := weight_insert_add w.requestedFilesByRequestId (shareOf id)
    (requestKey f.requestId f.path) (requestValue f.size f.downloaded)
  have hnew : shareOf id (requestKey f.requestId f.path) (requestValue f.size f.downloaded) =
      if id = f.requestId then countedSize f.intoUiRequestedFile else 0 := by
    rw [shareOf_requestKey, entrySize, fromDbByRequestId_requestKey]
  have hold : w.requestedFilesByRequestId[requestKey f.requestId f.path]?.elim 0
      (shareOf id (requestKey f.requestId f.path)) =
        if id = f.requestId then w.recordedSize f.requestId f.path else 0 := by
    unfold recordedSize
    cases w.requestedFilesByRequestId[requestKey f.requestId f.path]? with
    | none => simp
    | some value => exact shareOf_requestKey ..
  rw [hold, hnew] at hinsert
  rw [downloadedSize_eq w', downloadedSize_eq w, h]
  exact hinsert

private theorem recordedSize_lt (w : WishList) (id : UInt32) (path : String) :
    w.recordedSize id path < 2 ^ 64 := by
  unfold recordedSize
  cases w.requestedFilesByRequestId[requestKey id path]? with
  | none => exact Nat.two_pow_pos 64
  | some value =>
    show entrySize (requestKey id path) value < 2 ^ 64
    unfold entrySize countedSize
    split
    · next f _ =>
      split
      · exact f.size.toNat_lt
      · decide
    · decide

private theorem downloadedSize_le (w : WishList) (id : UInt32) :
    w.downloadedSize id ≤ w.filesSize id := by
  apply List.Sublist.sum_le_sum
  · exact List.Sublist.map _ List.filter_sublist
  · exact fun _ _ ↦ Nat.zero_le _

private theorem progressExact_iff : ProgressExact w ↔ ∀ id, ∃ progress,
    w.getDownloadProgressForRequest id = .ok progress ∧
      progress.toNat = w.downloadedSize id := by
  constructor
  · intro h id
    obtain ⟨progress, hp, he, -⟩ := h id
    exact ⟨progress, hp, he⟩
  · intro h id
    obtain ⟨progress, hp, he⟩ := h id
    refine ⟨progress, hp, he, ?_⟩
    rw [he]
    exact downloadedSize_le w id

private theorem progressExact_addRequestedFile_iff (h : ProgressExact w) (f : RequestedFile) :
    ProgressExact (w.addRequestedFile f).1 ↔ (Operation.addRequestedFile f).CountsOnce w := by
  cases hr : w.getRequest f.requestId with
  | error e =>
    rw [addRequestedFile_error hr]
    refine iff_of_true h fun r hr' ↦ ?_
    rw [hr] at hr'
    cases hr'
  | ok r =>
    have hsize : ∀ id, (w.addRequestedFile f).1.downloadedSize id + _ = _ :=
      downloadedSize_insert (f := f) (by rw [addRequestedFile_eq hr])
    have hprogress : (w.addRequestedFile f).1.getDownloadProgressForRequest =
        w.getDownloadProgressForRequest := by rw [addRequestedFile_eq hr]; rfl
    rw [progressExact_iff, hprogress]
    constructor
    · intro hnext r' _
      obtain ⟨progress, hp, he, -⟩ := h f.requestId
      obtain ⟨progress', hp', he'⟩ := hnext f.requestId
      rw [hp] at hp'
      cases hp'
      have hown := hsize f.requestId
      rw [if_pos rfl, if_pos rfl] at hown
      omega
    · intro hcounts id
      obtain ⟨progress, hp, he, -⟩ := h id
      refine ⟨progress, hp, ?_⟩
      have hid := hsize id
      rw [hcounts r hr] at hid
      omega

private theorem progressExact_fileCompleted_iff (h : ProgressExact w) (f : RequestedFile) :
    ProgressExact (w.fileCompleted f).1 ↔ (Operation.fileCompleted f).CountsOnce w := by
  cases hd : f.downloaded with
  | false =>
    rw [fileCompleted, if_pos hd]
    refine iff_of_true h fun hd' ↦ ?_
    rw [hd] at hd'
    cases hd'
  | true =>
    cases hr : w.getRequest f.requestId with
    | error e =>
      rw [fileCompleted_error hd hr]
      refine iff_of_true h fun _ r hr' ↦ ?_
      rw [hr] at hr'
      cases hr'
    | ok r =>
      obtain ⟨progress, hp, he, -⟩ := h f.requestId
      have hrun := fileCompleted_eq hd hr hp
      have hsize : ∀ id, (w.fileCompleted f).1.downloadedSize id + _ = _ :=
        downloadedSize_insert (f := f) (by rw [hrun, hd])
      have hcount : countedSize f.intoUiRequestedFile = f.size.toNat := if_pos hd
      have hprogress : ∀ id, (w.fileCompleted f).1.getDownloadProgressForRequest id =
          if id = f.requestId then .ok (progress + f.size)
          else w.getDownloadProgressForRequest id := by
        rw [hrun]
        exact fun id ↦ getDownloadProgress_insert ..
      have hown := hsize f.requestId
      rw [if_pos rfl, if_pos rfl, hcount] at hown
      rw [progressExact_iff]
      constructor
      · -- the counter is the old one plus the size, up to a wrap below the old record's size
        intro hnext _ _ _
        obtain ⟨progress', hp', he'⟩ := hnext f.requestId
        rw [hprogress, if_pos rfl] at hp'
        cases hp'
        rw [UInt64.toNat_add] at he'
        have hold := recordedSize_lt w f.requestId f.path
        have hbytes := progress.toNat_lt
        have hfile := f.size.toNat_lt
        rw [he] at hbytes
        omega
      · intro hcounts id
        obtain ⟨hzero, hfits⟩ := hcounts hd r hr
        by_cases hid : id = f.requestId
        · subst hid
          refine ⟨progress + f.size, by rw [hprogress, if_pos rfl], ?_⟩
          rw [UInt64.toNat_add, he, Nat.mod_eq_of_lt hfits]
          omega
        · obtain ⟨other, ho, heo, -⟩ := h id
          have hother := hsize id
          rw [if_neg hid, if_neg hid] at hother
          refine ⟨other, by rw [hprogress, if_neg hid, ho], ?_⟩
          rw [heo]
          exact hother.symm

/-- An operation keeps the progress exact exactly when it counts every file once. -/
theorem progressExact_run_iff (h : ProgressExact w) (op : Operation) :
    ProgressExact (op.run w) ↔ op.CountsOnce w := by
  cases op with
  | addRequest r => exact iff_of_true h trivial
  | addRequestedFile f => exact progressExact_addRequestedFile_iff h f
  | fileCompleted f => exact progressExact_fileCompleted_iff h f

/-- Along every run of the wishlist the progress of every request is exact in every state
exactly when every step counts its file once. -/
theorem progress_exact_iff (ops : List Operation) :
    EachState Operation.run ProgressExact empty ops ↔
      EachStep Operation.run (fun w op ↦ op.CountsOnce w) empty ops := by
  apply eachState_iff_eachStep
  · rw [progressExact_iff]
    intro id
    refine ⟨0, by simp [getDownloadProgressForRequest, empty], ?_⟩
    rw [downloadedSize_eq, weight_eq_zero]
    · rfl
    · intro k v hv
      simp [empty] at hv
  · exact fun w op h ↦ progressExact_run_iff h op

/-- The file of the request is delivered twice and completed twice. -/
def completedTwice : List Operation :=
  [.addRequest musicRequest, .addRequestedFile ⟨"music/one.mp3", 5, 1, false⟩,
    .fileCompleted ⟨"music/one.mp3", 5, 1, true⟩, .fileCompleted ⟨"music/one.mp3", 5, 1, true⟩]

/-- After the second completion the progress is twice the size of the request. -/
theorem completed_twice_counts_twice :
    ¬ EachState Operation.run ProgressExact empty completedTwice := by
  intro h
  obtain ⟨progress, hp, -, hle⟩ := h.final 1
  have hprogress : (finalState Operation.run empty completedTwice).getDownloadProgressForRequest 1 =
      .ok 10 := by decide
  have hfiles : (finalState Operation.run empty completedTwice).filesSize 1 = 5 := by decide
  rw [hprogress] at hp
  cases hp
  rw [hfiles] at hle
  exact absurd hle (by decide)

end WishList

end HarddriveParty
