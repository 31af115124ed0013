import HarddriveParty.Transfer.Integrity

/-!
# Downloads of one path from several peers

The local file of a download depends on the remote path alone, so files with one path at
several peers share it. A download that succeeds is true to its peer exactly if it found a
beginning of that peer's file.
-/

namespace HarddriveParty

open UnixPath UnixFs Runs

namespace Attempt

variable {ι : Type}

/-- The step of a run of attempts at one path from several peers. -/
def peerStep (job : ι → Job) (content : ι → Bytes) (fs : Fs) (x : ι × Attempt) : Fs :=
  (x.2.run (job x.1) (content x.1) fs).1

/-- If the attempt succeeds, the local file is the file of its peer. -/
def TrueToPeer (job : ι → Job) (content : ι → Bytes) (fs : Fs) (x : ι × Attempt) : Prop :=
  (x.2.run (job x.1) (content x.1) fs).2 = .ok () →
    localFile (peerStep job content fs x) (job x.1).downloadDir (job x.1).requestedFile.path =
      some (content x.1)

/-- The local file is large enough, or all that it lacks arrives. -/
def GetsAll (job : Job) (remote : Bytes) (fs : Fs) (a : Attempt) : Prop :=
  (localBytes job fs ≠ [] ∧ remote.length ≤ (localBytes job fs).length) ∨
    ∃ b, a.arriving job remote (localBytes job fs).length = some b ∧
      remote.length ≤ (localBytes job fs).length + b.length

/-- An attempt that gets all the bytes it asks for finds a beginning of its peer's file. -/
def FindsOwnBeginning (job : ι → Job) (content : ι → Bytes) (fs : Fs) (x : ι × Attempt) : Prop :=
  CanSetUp (rooted (job x.1) fs) (job x.1).downloadDir (job x.1).requestedFile.path →
    GetsAll (job x.1) (content x.1) (rooted (job x.1) fs) x.2 →
      localBytes (job x.1) (rooted (job x.1) fs) <+: content x.1

section TrueToPeer

variable {job : ι → Job} {content : ι → Bytes} {fs : Fs} {x : ι × Attempt}

private theorem fits_of_serves {a : Attempt} {job : Job} {remote : Bytes}
    (hfailure : a.failure = none) (hsize : remote.length = job.requestedFile.size.toNat)
    (hlen : (localBytes job fs).length < 2 ^ 64) :
    ∀ b, a.arriving job remote (localBytes job fs).length = some b →
      (localBytes job fs).length + b.length < 2 ^ 64 := by
  intro b hb
  have hbound := (serves job remote hfailure hlen b hb).length_le
  have hlt := job.requestedFile.size.toNat_lt
  rw [List.length_drop] at hbound
  omega

/-- One attempt is true to its peer exactly if it finds a beginning of the peer's file. -/
theorem trueToPeer_iff (hsize : (content x.1).length = (job x.1).requestedFile.size.toNat)
    (hfailure : x.2.failure = none)
    (hlen : (localBytes (job x.1) (rooted (job x.1) fs)).length < 2 ^ 64) :
    TrueToPeer job content fs x ↔ FindsOwnBeginning job content fs x := by
  by_cases hcan : CanSetUp (rooted (job x.1) fs) (job x.1).downloadDir (job x.1).requestedFile.path
  · obtain ⟨hfile, hok, -⟩ := run_of_canSetUp hcan x.2 (content x.1) hlen
      fun _ ↦ fits_of_serves hfailure hsize hlen
    have hdone := Resume.attempt_done_iff (content x.1).length
      (x.2.arriving (job x.1) (content x.1)) (localBytes (job x.1) (rooted (job x.1) fs))
    have hserves := serves (job x.1) (content x.1) hfailure hlen
    unfold TrueToPeer FindsOwnBeginning GetsAll peerStep
    rw [(run_rooted hcan x.2 (content x.1)).1, hfile, hok, ← hsize, ← hdone, Option.some.injEq,
      forall_prop_of_true hcan]
    exact forall_congr' fun hdone ↦ Resume.attempt_eq_iff hserves hdone
  · obtain ⟨hfail, -⟩ := run_of_not_canSetUp hcan x.2 (content x.1)
    exact iff_of_true (fun hok ↦ absurd hok hfail) fun h ↦ absurd h hcan

private theorem length_localBytes_peerStep
    (hsize : (content x.1).length = (job x.1).requestedFile.size.toNat)
    (hfailure : x.2.failure = none)
    (hlen : (localBytes (job x.1) (rooted (job x.1) fs)).length < 2 ^ 64) :
    (localBytes (job x.1) (rooted (job x.1) (peerStep job content fs x))).length < 2 ^ 64 := by
  by_cases hcan : CanSetUp (rooted (job x.1) fs) (job x.1).downloadDir (job x.1).requestedFile.path
  · obtain ⟨hfile, -, -⟩ := run_of_canSetUp hcan x.2 (content x.1) hlen
      fun _ ↦ fits_of_serves hfailure hsize hlen
    obtain ⟨hrun, hroot⟩ := run_rooted hcan x.2 (content x.1)
    rw [localBytes, peerStep, hroot, hrun, hfile, Option.getD_some]
    rcases Resume.attempt_fst (job x.1).requestedFile.size.toNat
        (x.2.arriving (job x.1) (content x.1))
        (localBytes (job x.1) (rooted (job x.1) fs)) with h | ⟨b, hb, h⟩
    · rw [h]
      exact hlen
    · rw [h, List.length_append]
      exact fits_of_serves hfailure hsize hlen b hb
  · obtain ⟨-, -, hsame⟩ := run_of_not_canSetUp hcan x.2 (content x.1)
    rw [localBytes, peerStep, hsame]
    exact hlen

end TrueToPeer

/-- In a run of honest downloads of one path from any peers, every attempt that succeeds is true
to its peer exactly if every attempt that gets all it asks for finds a beginning of the
peer's file. -/
theorem downloads_true_iff {job : ι → Job} {content : ι → Bytes} {downloadDir : Bytes}
    {path : String} (hdownloadDir : ∀ i, (job i).downloadDir = downloadDir)
    (hpath : ∀ i, (job i).requestedFile.path = path)
    (hsize : ∀ i, (content i).length = (job i).requestedFile.size.toNat) {fs : Fs}
    (hlen : ∀ c, localFile (withDownloadRoot fs downloadDir) downloadDir path = some c →
      c.length < 2 ^ 64)
    (attempts : List (ι × Attempt)) (hserved : ∀ x ∈ attempts, x.2.failure = none) :
    EachStep (peerStep job content) (TrueToPeer job content) fs attempts ↔
      EachStep (peerStep job content) (FindsOwnBeginning job content) fs attempts := by
  let Good (fs : Fs) : Prop :=
    ((localFile (withDownloadRoot fs downloadDir) downloadDir path).getD []).length < 2 ^ 64
  have hgood_iff : ∀ (fs : Fs) i,
      Good fs ↔ (localBytes (job i) (rooted (job i) fs)).length < 2 ^ 64 := by
    intro fs i
    rw [localBytes, rooted, hdownloadDir i, hpath i]
  have hstart : Good fs := by
    show ((localFile (withDownloadRoot fs downloadDir) downloadDir path).getD []).length < 2 ^ 64
    cases hc : localFile (withDownloadRoot fs downloadDir) downloadDir path with
    | none => decide
    | some c => exact hlen c hc
  apply eachStep_iff hstart (eachStep_of_forall hserved)
  · intro fs x hgood hfailure
    exact trueToPeer_iff (hsize x.1) hfailure ((hgood_iff fs x.1).mp hgood)
  · intro fs x hgood hfailure _
    rw [hgood_iff _ x.1]
    exact length_localBytes_peerStep (hsize x.1) hfailure ((hgood_iff fs x.1).mp hgood)

/-- One download of a path from each of two peers, whose files differ. -/
def crossedAttempts : List (Bool × Attempt) :=
  [(true, exampleAttempt none), (false, exampleAttempt none)]

/-- The files of the two peers. -/
def crossedContent (i : Bool) : Bytes := if i then [1] else [2]

private theorem exampleFs_new : localFile exampleFs exampleJob.downloadDir "a" = none := by
  decide

private theorem rootOnly_new :
    localFile (withDownloadRoot Fs.rootOnly exampleJob.downloadDir) exampleJob.downloadDir "a" =
      none := by
  decide

/-- With both peers and a download directory that is missing at first, the second download
succeeds exactly as it should if it finds its own beginning. -/
theorem downloads_true_crossed :
    EachStep (peerStep (fun _ ↦ exampleJob) crossedContent)
        (TrueToPeer (fun _ ↦ exampleJob) crossedContent) Fs.rootOnly crossedAttempts ↔
      EachStep (peerStep (fun _ ↦ exampleJob) crossedContent)
        (FindsOwnBeginning (fun _ ↦ exampleJob) crossedContent) Fs.rootOnly crossedAttempts := by
  apply downloads_true_iff (fun _ ↦ rfl) (fun _ ↦ rfl)
  · decide
  · intro c hc
    rw [show (exampleJob.requestedFile.path) = "a" from rfl, rootOnly_new] at hc
    cases hc
  · simp [crossedAttempts, exampleAttempt]

/-- The second download succeeds without a byte of its peer's file. -/
theorem crossed_downloads_mix :
    exampleFs.metadata exampleJob.downloadDir = .ok .dir ∧
      localFile exampleFs exampleJob.downloadDir "a" = none ∧
      (∀ x ∈ crossedAttempts, x.2.failure = none) ∧
      ¬ EachStep (peerStep (fun _ ↦ exampleJob) crossedContent)
        (TrueToPeer (fun _ ↦ exampleJob) crossedContent) exampleFs crossedAttempts := by
  refine ⟨by decide, exampleFs_new, by simp [crossedAttempts, exampleAttempt], ?_⟩
  rintro ⟨-, hsecond, -⟩
  exact absurd (hsecond rfl) (by decide)

end Attempt

end HarddriveParty
