import HarddriveParty.Base.Resume
import HarddriveParty.Transfer.Download
import HarddriveParty.Transfer.Upload

/-!
# One attempt at a download

A download attempt as both ends of it: the peer answers the read request from its copy of
the file or with an error, the network delivers a beginning of that answer, and the writes
to the local file succeed. On the local file this is an attempt at a resumed copy.
-/

namespace HarddriveParty

open UnixPath UnixFs

/-- How the reads of the remote file go: the blocks come in order and may stop early. The stream
may accept the zero byte of an error or not. -/
structure FileReads where
  split : Bytes → List Uploader.Pass
  errorWritten : Bool
  inOrder : ∀ b, (split b).flatMap Uploader.Pass.block <+: b

/-- What the network and the local disk do: a beginning of the answer arrives, in blocks, and
is written in full. -/
structure Delivery where
  deliver : Bytes → Peer.RecvStream
  inOrder : ∀ b, (deliver b).received <+: b
  stored : ∀ b, Peer.StoredInFull (deliver b).passes

/-- An attempt: whether the read request can be sent, the error that the peer answers with if
it does not stream the file, and everything else that may differ from attempt to attempt. -/
structure Attempt where
  connects : Bool
  failure : Option RpcError
  reads : FileReads
  uploadSpeed : Nat
  delivery : Delivery
  progress : UInt64

/-- The file that is downloaded, where to, and for which request. -/
structure Job where
  downloadDir : Bytes
  requestedFile : RequestedFile
  associatedRequest : DownloadRequest
  peerName : String
  requesterName : String

namespace Attempt

/-- What the peer puts on the stream for a read request from its content of the file. -/
def answerBytes (a : Attempt) (job : Job) (remote : Bytes) (query : ReadQuery) : Bytes :=
  let portion := match a.failure with
    | none => .ok (remote.drop (query.start.getD 0).toNat, job.requestedFile.size)
    | some e => .error e
  (Uploader.doRead portion query.path job.requesterName query.start a.reads.split
    a.reads.errorWritten a.uploadSpeed).bytes

/-- What comes back for a read request. -/
def answer (a : Attempt) (job : Job) (remote : Bytes) (query : ReadQuery) :
    Except TransferError Peer.RecvStream :=
  if a.connects then .ok (a.delivery.deliver (a.answerBytes job remote query))
  else .error (.message "connection lost")

/-- The file system after the attempt, and what `download` returned. -/
def run (a : Attempt) (job : Job) (remote : Bytes) (fs : Fs) : Fs × Except TransferError Unit :=
  let r := Peer.download fs job.requestedFile (a.answer job remote) job.downloadDir job.peerName
    a.progress job.associatedRequest
  (r.1, r.2.2)

/-- The request for a file of which `n` bytes are there. -/
def queryFrom (job : Job) (n : Nat) : ReadQuery :=
  ⟨job.requestedFile.path, if n = 0 then none else some (UInt64.ofNat n), none⟩

/-- The bytes that arrive for a file of which `n` bytes are there. -/
def arriving (a : Attempt) (job : Job) (remote : Bytes) (n : Nat) : Option Bytes :=
  if a.connects then
    some (a.delivery.deliver (a.answerBytes job remote (queryFrom job n))).received
  else none

variable {a : Attempt} {job : Job} {remote : Bytes} {fs : Fs}

private theorem queryFrom_start (job : Job) {n : Nat} (hn : n < 2 ^ 64) :
    ((queryFrom job n).start.getD 0).toNat = n := by
  rw [queryFrom]
  split
  · next hzero => simp [hzero]
  · simpa using hn

/-- A peer that streams the file serves it. -/
theorem serves (job : Job) (remote : Bytes) (hfailure : a.failure = none) {n : Nat}
    (hn : n < 2 ^ 64) :
    Resume.Serves remote (a.arriving job remote) n := by
  intro b hb
  unfold arriving at hb
  split at hb
  · cases hb
    apply (a.delivery.inOrder _).trans
    rw [answerBytes, hfailure, queryFrom_start job hn]
    exact Uploader.doRead_ok a.reads.inOrder _ _ _ _ _ _
  · cases hb

/-- An error is answered with a zero byte, where the stream takes it. -/
theorem answerBytes_of_failure (job : Job) (remote : Bytes) {e : RpcError}
    (hfailure : a.failure = some e) (query : ReadQuery) :
    a.answerBytes job remote query = if a.reads.errorWritten then [0] else [] := by
  rw [answerBytes, hfailure]
  exact Uploader.doRead_error e _ _ _ _ _ _

/-- Of an error at most one zero byte arrives. -/
theorem arriving_error {e : RpcError} (hfailure : a.failure = some e) {n : Nat} {b : Bytes}
    (hb : a.arriving job remote n = some b) : b = [] ∨ b = [0] := by
  unfold arriving at hb
  split at hb
  · cases hb
    have horder := a.delivery.inOrder (a.answerBytes job remote (queryFrom job n))
    have hanswer : a.answerBytes job remote (queryFrom job n) <+: [0] := by
      rw [answerBytes_of_failure job remote hfailure]
      split
      · exact List.prefix_rfl
      · exact List.nil_prefix
    rcases List.prefix_cons_iff.mp (horder.trans hanswer) with h | ⟨t, h, ht⟩
    · exact Or.inl h
    · rw [List.prefix_nil.mp ht] at h
      exact Or.inr h
  · cases hb

section Refine

private theorem startOffset_skip {n : Nat} {size : UInt64} (hn : n < 2 ^ 64) (hpos : n ≠ 0)
    (hsize : size.toNat ≤ n) : ∃ offset, startOffset (UInt64.ofNat n) size = some offset ∧
      Peer.alreadyDownloaded (some offset) size = true := by
  have hdone := (Peer.alreadyDownloaded_iff hn size).mpr ⟨hpos, hsize⟩
  cases hoffset : startOffset (UInt64.ofNat n) size with
  | none =>
    rw [hoffset] at hdone
    cases hdone
  | some offset =>
    rw [hoffset] at hdone
    exact ⟨offset, rfl, hdone⟩

private theorem startOffset_request {n : Nat} {size : UInt64} (hn : n < 2 ^ 64)
    (hskip : ¬ (n ≠ 0 ∧ size.toNat ≤ n)) :
    startOffset (UInt64.ofNat n) size = (if n = 0 then none else some (UInt64.ofNat n)) ∧
      Peer.alreadyDownloaded (startOffset (UInt64.ofNat n) size) size = false := by
  have hto : (UInt64.ofNat n).toNat = n := by simpa using hn
  have hnot : ¬ size < UInt64.ofNat n := by
    rw [UInt64.lt_iff_toNat_lt]
    omega
  have hzero : UInt64.ofNat n = 0 ↔ n = 0 := by
    rw [← UInt64.toNat_inj, hto]
    rfl
  constructor
  · unfold startOffset
    simp only [if_neg hnot, hzero]
  · rw [← Bool.not_eq_true]
    exact mt (Peer.alreadyDownloaded_iff hn size).mp hskip

/-- The bytes of the local file. -/
def localBytes (job : Job) (fs : Fs) : Bytes :=
  (localFile fs job.downloadDir job.requestedFile.path).getD []

/-- On a target that can be set up, `download` is an attempt at a resumed copy. -/
theorem run_of_canSetUp (h : CanSetUp fs job.downloadDir job.requestedFile.path)
    (a : Attempt) (remote : Bytes) (hlen : (localBytes job fs).length < 2 ^ 64)
    (hfits : ¬ (localBytes job fs ≠ [] ∧
        job.requestedFile.size.toNat ≤ (localBytes job fs).length) →
      ∀ b, a.arriving job remote (localBytes job fs).length = some b →
        (localBytes job fs).length + b.length < 2 ^ 64) :
    localFile (a.run job remote fs).1 job.downloadDir job.requestedFile.path =
        some (Resume.attempt job.requestedFile.size.toNat (a.arriving job remote)
          (localBytes job fs)).1 ∧
      ((a.run job remote fs).2 = .ok () ↔
        (Resume.attempt job.requestedFile.size.toNat (a.arriving job remote)
          (localBytes job fs)).2 = true) ∧
      CanSetUp (a.run job remote fs).1 job.downloadDir job.requestedFile.path := by
  obtain ⟨C, ns, n, hpath, hu⟩ := h
  obtain ⟨fs₁, hsetup, hfile, hu₁⟩ := setupDownload_of_usable hu hpath job.requestedFile.size
  have hcontent : fs.content (C ++ ns ++ [n]) = localBytes job fs := hu.content hpath
  rw [hcontent] at hsetup hfile
  generalize localBytes job fs = c at *
  have hlocal : ∀ {fs' : Fs} {c' : Bytes}, fs₁.Grows fs' →
      fs'.node (C ++ ns ++ [n]) = some (.file c') →
        localFile fs' job.downloadDir job.requestedFile.path = some c' ∧
          CanSetUp fs' job.downloadDir job.requestedFile.path := by
    intro fs' c' hg hc
    have hu' := hu₁.grows hg hc
    refine ⟨?_, C, ns, n, hpath, hu'⟩
    rw [hu'.localFile hpath, hc]
  unfold run
  by_cases hskip : c ≠ [] ∧ job.requestedFile.size.toNat ≤ c.length
  · obtain ⟨offset, hoffset, hdone⟩ :=
      startOffset_skip hlen (fun h0 ↦ hskip.1 (List.length_eq_zero_iff.mp h0)) hskip.2
    rw [hoffset] at hsetup
    obtain ⟨hfs, hok⟩ := Peer.download_skip hsetup hdone (a.answer job remote)
      job.peerName a.progress job.associatedRequest
    obtain ⟨hsame, hcan⟩ := hlocal (Fs.Grows.refl fs₁) hfile
    rw [Resume.attempt, if_pos hskip, hfs]
    exact ⟨hsame, iff_of_true hok rfl, hcan⟩
  · have hskip' : ¬ (c.length ≠ 0 ∧ job.requestedFile.size.toNat ≤ c.length) := by
      rwa [ne_eq, List.length_eq_zero_iff]
    obtain ⟨hoffset, hrequest⟩ := startOffset_request hlen hskip'
    rw [hoffset] at hsetup hrequest
    rw [Resume.attempt, if_neg hskip]
    cases hconnects : a.connects with
    | false =>
      have hanswer : a.answer job remote (queryFrom job c.length) =
          .error (.message "connection lost") := by simp [answer, hconnects]
      have hnone : a.arriving job remote c.length = none := by simp [arriving, hconnects]
      obtain ⟨hsame, hcan⟩ := hlocal (Fs.Grows.refl fs₁) hfile
      rw [Peer.download_unsent hsetup hrequest hanswer, hnone]
      exact ⟨hsame, by simp, hcan⟩
    | true =>
      have hanswer : a.answer job remote (queryFrom job c.length) =
          .ok (a.delivery.deliver (a.answerBytes job remote (queryFrom job c.length))) := by
        simp [answer, hconnects]
      have hsome : a.arriving job remote c.length = some
          (a.delivery.deliver (a.answerBytes job remote (queryFrom job c.length))).received := by
        simp [arriving, hconnects]
      obtain ⟨hgrows, hnode, hok⟩ := Peer.download_received hsetup hrequest hanswer
        (a.delivery.stored _) hfile job.peerName a.progress job.associatedRequest
      obtain ⟨hsame, hcan⟩ := hlocal hgrows hnode
      have hsum := hfits hskip _ hsome
      rw [hsome]
      refine ⟨hsame, hok.trans ?_, hcan⟩
      have hstart : ((if c.length = 0 then none else some (UInt64.ofNat c.length)).getD
          (0 : UInt64)).toNat = c.length := queryFrom_start job hlen
      rw [UInt64.lt_iff_toNat_lt, decide_eq_true_eq, not_lt, UInt64.toNat_add, hstart,
        UInt64.toNat_ofNat', Nat.mod_eq_of_lt (a := List.length _) (by omega),
        Nat.mod_eq_of_lt hsum]

/-- An attempt adds directories and the target at most. -/
theorem grows_run (a : Attempt) (job : Job) (remote : Bytes) (fs : Fs) :
    fs.Grows (a.run job remote fs).1 := Peer.grows_download _ _ _ _ _ _ _

/-- The file system once the download directory is there. -/
def rooted (job : Job) (fs : Fs) : Fs := withDownloadRoot fs job.downloadDir

/-- A target that can be set up is set up from where the download directory is there, and the
download directory stays. -/
theorem run_rooted (h : CanSetUp (rooted job fs) job.downloadDir job.requestedFile.path)
    (a : Attempt) (remote : Bytes) :
    a.run job remote fs = a.run job remote (rooted job fs) ∧
      rooted job (a.run job remote fs).1 = (a.run job remote fs).1 := by
  have hsetup := setupDownload_of_canSetUp_root h job.requestedFile.size
  have hrun : a.run job remote fs = a.run job remote (rooted job fs) := by
    rw [run, run, Peer.download, Peer.download, hsetup]
    rfl
  obtain ⟨C, ns, n, -, husable⟩ := h
  refine ⟨hrun, withDownloadRoot_of_dir ?_⟩
  rw [hrun]
  exact Fs.symlinkMetadata_grows husable.root (grows_run a job remote _)

/-- A target that cannot be set up is an error, and its local file stays as it is. -/
theorem run_of_not_canSetUp
    (h : ¬ CanSetUp (rooted job fs) job.downloadDir job.requestedFile.path) (a : Attempt)
    (remote : Bytes) :
    (a.run job remote fs).2 ≠ .ok () ∧
      (∀ c, localFile (a.run job remote fs).1 job.downloadDir job.requestedFile.path = some c →
        localFile (rooted job fs) job.downloadDir job.requestedFile.path = some c) ∧
      localFile (rooted job (a.run job remote fs).1) job.downloadDir job.requestedFile.path =
        localFile (rooted job fs) job.downloadDir job.requestedFile.path := by
  obtain ⟨fs', e, hsetup, hlocal, hrooted⟩ :=
    setupDownload_of_not_canSetUp_root h job.requestedFile.size
  rw [run, Peer.download_no_target hsetup]
  exact ⟨by simp, hlocal, hrooted⟩

end Refine

end Attempt

end HarddriveParty
