import HarddriveParty.Base.Runs
import HarddriveParty.Transfer.Attempt

/-!
# When a resumed download is true to the source

The local file of a download stays a beginning of the remote one, and is equal to it once an
attempt succeeds, as long as no error byte gets into it that is not the next byte of the
remote file. An answer that is an error cannot be told from content.
-/

namespace HarddriveParty

open UnixPath UnixFs Runs

namespace Attempt

/-- The step of a run of attempts at one file. -/
def step (job : Job) (remote : Bytes) (fs : Fs) (a : Attempt) : Fs := (a.run job remote fs).1

/-- After the attempt the local file, if there is one, is a beginning of the remote one, and if
the attempt succeeded, equal to it. -/
def Intact (job : Job) (remote : Bytes) (fs : Fs) (a : Attempt) : Prop :=
  (∀ c, localFile (a.run job remote fs).1 job.downloadDir job.requestedFile.path = some c →
    c <+: remote) ∧
  ((a.run job remote fs).2 = .ok () →
    localFile (a.run job remote fs).1 job.downloadDir job.requestedFile.path = some remote)

/-- The peer answers the request of this attempt with an error, and the error byte arrives. -/
def ErrorByteArrives (a : Attempt) : Prop :=
  a.connects = true ∧ a.failure ≠ none ∧ a.reads.errorWritten = true ∧
    (a.delivery.deliver [0]).received = [0]

/-- If the peer answers the request of this attempt with an error, and the error byte arrives,
then a zero byte is what comes next in the remote file. -/
def ErrorByteFits (job : Job) (remote : Bytes) (fs : Fs) (a : Attempt) : Prop :=
  CanSetUp (rooted job fs) job.downloadDir job.requestedFile.path →
    ¬ (localBytes job (rooted job fs) ≠ [] ∧
        job.requestedFile.size.toNat ≤ (localBytes job (rooted job fs)).length) →
      a.ErrorByteArrives → remote[(localBytes job (rooted job fs)).length]? = some 0

section Intact

variable {a : Attempt} {job : Job} {remote : Bytes} {fs : Fs}

private theorem arriving_of_failure (job : Job) (remote : Bytes) {e : RpcError}
    (hfailure : a.failure = some e) (hconnects : a.connects = true) (n : Nat) :
    a.arriving job remote n =
      some (a.delivery.deliver (if a.reads.errorWritten then [0] else [])).received := by
  rw [arriving, if_pos hconnects, answerBytes_of_failure job remote hfailure]

private theorem arriving_fits (hsize : remote.length = job.requestedFile.size.toNat) {c : Bytes}
    (hlocal : c <+: remote) (hskip : ¬ (c ≠ [] ∧ job.requestedFile.size.toNat ≤ c.length))
    {b : Bytes} (hb : a.arriving job remote c.length = some b) :
    c.length + b.length < 2 ^ 64 := by
  have hle := hlocal.length_le
  have hlt := job.requestedFile.size.toNat_lt
  cases hfailure : a.failure with
  | none =>
    have hbound := (serves job remote hfailure (by omega) b hb).length_le
    rw [List.length_drop] at hbound
    omega
  | some e =>
    rw [not_and_or, not_not, ← List.length_eq_zero_iff] at hskip
    rcases arriving_error hfailure hb with rfl | rfl
    · rw [List.length_nil]
      omega
    · rw [List.length_singleton]
      omega

private theorem serves_unless_error {n : Nat} (hn : n < 2 ^ 64)
    (herror : ¬ a.ErrorByteArrives) : Resume.Serves remote (a.arriving job remote) n := by
  cases hfailure : a.failure with
  | none => exact serves job remote hfailure hn
  | some e =>
    intro b hb
    rcases arriving_error hfailure hb with rfl | rfl
    · exact List.nil_prefix
    · exfalso
      apply herror
      have hconnects : a.connects = true := by
        by_contra hoff
        rw [arriving, if_neg hoff] at hb
        cases hb
      rw [arriving_of_failure job remote hfailure hconnects] at hb
      have hreceived := Option.some.inj hb
      have hwritten : a.reads.errorWritten = true := by
        by_contra hnot
        rw [if_neg hnot] at hreceived
        have hnil := List.prefix_nil.mp (a.delivery.inOrder [])
        rw [hreceived] at hnil
        cases hnil
      rw [if_pos hwritten] at hreceived
      exact ⟨hconnects, by simp [hfailure], hwritten, hreceived⟩

/-- From a beginning of the remote file, an attempt on a target that can be set up is intact
exactly if its error byte fits. -/
theorem intact_iff_of_canSetUp (hsize : remote.length = job.requestedFile.size.toNat)
    (hlocal : localBytes job (rooted job fs) <+: remote)
    (h : CanSetUp (rooted job fs) job.downloadDir job.requestedFile.path) :
    Intact job remote fs a ↔ ErrorByteFits job remote fs a := by
  have hle := hlocal.length_le
  have hlt := job.requestedFile.size.toNat_lt
  have hlen : (localBytes job (rooted job fs)).length < 2 ^ 64 := by omega
  obtain ⟨hfile, hok, -⟩ := run_of_canSetUp h a remote hlen
    fun hskip b hb ↦ arriving_fits hsize hlocal hskip hb
  unfold Intact ErrorByteFits
  rw [(run_rooted h a remote).1, hfile, hok, ← hsize]
  simp only [Option.some.injEq, forall_eq', forall_const, h]
  generalize localBytes job (rooted job fs) = c at *
  by_cases hskip : c ≠ [] ∧ remote.length ≤ c.length
  · rw [Resume.attempt_of_large hskip]
    have heq := hlocal.eq_of_length_le hskip.2
    exact iff_of_true ⟨hlocal, fun _ ↦ heq⟩ fun hnot ↦ absurd hskip hnot
  · rw [forall_prop_of_true hskip]
    by_cases herror : a.ErrorByteArrives
    · obtain ⟨hconnects, hfailure, hwritten, hbyte⟩ := herror
      obtain ⟨e, he⟩ := Option.ne_none_iff_exists'.mp hfailure
      have harrive := arriving_of_failure job remote he hconnects c.length
      rw [if_pos hwritten, hbyte] at harrive
      rw [Resume.attempt_singleton_iff hlocal hskip harrive]
      exact ⟨fun h _ ↦ h, fun h ↦ h ⟨hconnects, hfailure, hwritten, hbyte⟩⟩
    · exact iff_of_true (Resume.attempt_intact hlocal (serves_unless_error hlen herror))
        fun h ↦ absurd h herror

end Intact

/-- From a target that does not exist yet, every attempt of a run is intact exactly if every
error byte that arrives is the zero byte that comes next in the remote file. -/
theorem transfer_intact_iff {job : Job} {remote : Bytes}
    (hsize : remote.length = job.requestedFile.size.toNat) {fs : Fs}
    (hnew : localFile (rooted job fs) job.downloadDir job.requestedFile.path = none)
    (attempts : List Attempt) :
    EachStep (step job remote) (Intact job remote) fs attempts ↔
      EachStep (step job remote) (ErrorByteFits job remote) fs attempts := by
  let Good (fs : Fs) : Prop :=
    ∀ c, localFile (rooted job fs) job.downloadDir job.requestedFile.path = some c → c <+: remote
  have hstart : Good fs := by
    intro c hc
    rw [hnew] at hc
    cases hc
  apply eachStep_iff hstart (eachStep_of_forall fun a _ ↦ trivial)
  · intro fs a hgood _
    have hlocal : localBytes job (rooted job fs) <+: remote := by
      unfold localBytes
      cases hc : localFile (rooted job fs) job.downloadDir job.requestedFile.path with
      | none => exact List.nil_prefix
      | some c => exact hgood c hc
    by_cases hcan : CanSetUp (rooted job fs) job.downloadDir job.requestedFile.path
    · exact intact_iff_of_canSetUp hsize hlocal hcan
    · obtain ⟨hfail, hsame, -⟩ := run_of_not_canSetUp hcan a remote
      refine iff_of_true ⟨fun c hc ↦ ?_, fun hok ↦ absurd hok hfail⟩ fun h ↦ absurd h hcan
      exact hgood c (hsame c hc)
  · intro fs a hgood _ hintact c hc
    by_cases hcan : CanSetUp (rooted job fs) job.downloadDir job.requestedFile.path
    · rw [step, (run_rooted hcan a remote).2] at hc
      exact hintact.1 c hc
    · obtain ⟨-, -, hsame⟩ := run_of_not_canSetUp hcan a remote
      rw [step, hsame] at hc
      exact hgood c hc

/-- A file system with the directory `/downloads`. -/
def exampleFs : Fs := Fs.rootOnly.put [⟨Utf8.encode "downloads", by decide⟩] .dir

/-- A download of the file `a` of one byte. -/
def exampleJob : Job where
  downloadDir := Utf8.encode "/downloads"
  requestedFile := ⟨"a", 1, 7, false⟩
  associatedRequest := .create 1700000000 "a" 1 7 ⟨List.replicate 32 1, rfl⟩ false
  peerName := "peer"
  requesterName := "me"

/-- An attempt whose whole answer arrives at once. -/
def exampleAttempt (failure : Option RpcError) : Attempt where
  connects := true
  failure := failure
  reads := ⟨fun b ↦ [⟨b, 0, 0, true⟩], true, fun b ↦ by simp⟩
  uploadSpeed := 0
  delivery := ⟨fun b ↦ ⟨[⟨b, b.length, true, 0, 0⟩], 0⟩, fun b ↦ by simp [Peer.RecvStream.received],
    fun b ↦ by simp [Peer.StoredInFull]⟩
  progress := 0

/-- A remote file that starts with a zero byte, an error first and then an answer, and a download
directory that is missing at first. -/
theorem transfer_intact_zero_byte :
    EachStep (step exampleJob [0]) (Intact exampleJob [0]) Fs.rootOnly
        [exampleAttempt (some .badOffset), exampleAttempt none] ↔
      EachStep (step exampleJob [0]) (ErrorByteFits exampleJob [0]) Fs.rootOnly
        [exampleAttempt (some .badOffset), exampleAttempt none] :=
  transfer_intact_iff (by decide) (by decide) _

/-- One error in place of the byte 1: the attempt succeeds with the wrong byte. -/
theorem error_byte_counts_as_content :
    exampleFs.metadata exampleJob.downloadDir = .ok .dir ∧
      localFile exampleFs exampleJob.downloadDir exampleJob.requestedFile.path = none ∧
      ((exampleAttempt (some .pathNotFound)).run exampleJob [1] exampleFs).2 = .ok () ∧
      localFile (step exampleJob [1] exampleFs (exampleAttempt (some .pathNotFound)))
        exampleJob.downloadDir exampleJob.requestedFile.path = some [0] ∧
      ¬ EachStep (step exampleJob [1]) (Intact exampleJob [1]) exampleFs
        [exampleAttempt (some .pathNotFound)] := by
  have hfile : localFile (step exampleJob [1] exampleFs (exampleAttempt (some .pathNotFound)))
      exampleJob.downloadDir exampleJob.requestedFile.path = some [0] := by decide
  refine ⟨by decide, by decide, by rfl, hfile, ?_⟩
  rintro ⟨⟨hbegin, -⟩, -⟩
  exact absurd (hbegin [0] hfile) (by decide)

end Attempt

end HarddriveParty
