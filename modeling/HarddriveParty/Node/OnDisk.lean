import HarddriveParty.Base.Runs
import HarddriveParty.Node.FullBuffer
import HarddriveParty.Transfer.Confinement

/-!
# What the download tasks write to the disk

Over a whole run of all tasks, whatever the peers call their files: outside the download
directory nothing changes, inside it every file keeps its bytes, and a file that the wishlist
shows as downloaded has at least its size, if the file system takes every write in full.
-/

namespace HarddriveParty

open UnixPath UnixFs RequestedFile OrderedTree Runs

/-- The file at this location is the local file of the remote path. -/
structure Target (fs : Fs) (downloadDir : Bytes) (remotePath : String) (file : List Name) :
    Prop where
  usable : ∃ C ns n, safeRemoteRelativePath remotePath = .ok (joinNames (ns ++ [n])) ∧
    Usable fs downloadDir C ns n ∧ file = C ++ ns ++ [n]
  regular : ∃ c, fs.node file = some (.file c)

/-- The local file of the remote path has at least so many bytes. -/
def OnDisk (fs : Fs) (downloadDir : Bytes) (remotePath : String) (size : Nat) : Prop :=
  ∃ c, localFile fs downloadDir remotePath = some c ∧ size ≤ c.length

section Target

variable {fs fs' : Fs} {downloadDir : Bytes} {remotePath : String} {file : List Name} {size : Nat}
  {P : List Name → Prop}

/-- A target stays one while files are written. -/
theorem Target.grows (h : Target fs downloadDir remotePath file) (hg : fs.Grows fs') :
    Target fs' downloadDir remotePath file := by
  obtain ⟨⟨C, ns, n, hpath, husable, rfl⟩, c, hc⟩ := h
  obtain ⟨c', hc'⟩ := hg.file _ c hc
  exact ⟨⟨C, ns, n, hpath, husable.grows hg hc', rfl⟩, c', hc'⟩

/-- The local file has the bytes of the target. -/
theorem Target.localFile (h : Target fs downloadDir remotePath file) :
    localFile fs downloadDir remotePath = some (fs.content file) := by
  obtain ⟨⟨C, ns, n, hpath, husable, rfl⟩, c, hc⟩ := h
  rw [husable.localFile hpath, Fs.content, hc]

theorem Target.onDisk (h : Target fs downloadDir remotePath file)
    (hsize : size ≤ (fs.content file).length) : OnDisk fs downloadDir remotePath size :=
  ⟨_, h.localFile, hsize⟩

/-- A target lies in the download directory. -/
theorem Target.inside (h : Target fs downloadDir remotePath file) :
    InDownloadDir fs downloadDir file := by
  obtain ⟨⟨C, ns, n, -, husable, rfl⟩, -⟩ := h
  refine Or.inr ⟨C, husable.leads, ?_, ?_⟩
  · rw [List.append_assoc]
    exact List.prefix_append _ _
  · simp

/-- What lies in the download directory stays there. -/
theorem InDownloadDir.grows {q : List Name} (h : InDownloadDir fs downloadDir q)
    (hg : fs.Grows fs') : InDownloadDir fs' downloadDir q := by
  rcases h with h | ⟨C, hC, hbelow⟩
  · exact Or.inl (h.grows hg)
  · exact Or.inr ⟨C, hC.grows hg, hbelow⟩

/-- A local file stays and does not get shorter. -/
theorem OnDisk.extends (h : OnDisk fs downloadDir remotePath size)
    (hext : fs.Extends P fs') : OnDisk fs' downloadDir remotePath size := by
  obtain ⟨c, hc, hsize⟩ := h
  unfold HarddriveParty.localFile at hc
  split at hc
  · cases hc
  · next filePath hpath =>
    cases hread : fs.read filePath with
    | error e =>
      rw [hread] at hc
      cases hc
    | ok b =>
      rw [hread] at hc
      cases hc
      obtain ⟨c', hread', hprefix⟩ := hext.read hread
      refine ⟨c', ?_, hsize.trans hprefix.length_le⟩
      rw [HarddriveParty.localFile, hpath]
      simp only [hread']
      rfl

/-- A download that was set up has the target of its path open, and goes on behind its end. -/
theorem setupDownload_target {requestSize : UInt64} {offset : Option UInt64}
    (h : setupDownload fs downloadDir remotePath requestSize = (fs', .ok (file, offset))) :
    Target fs' downloadDir remotePath file ∧
      offset = startOffset (UInt64.ofNat (fs'.content file).length) requestSize := by
  rcases setupDownload_cases fs downloadDir remotePath requestSize with
    ⟨_, _, hrun, -⟩ | ⟨fs₁, ms, m, -, hroot, -, hrun⟩
  · rw [hrun] at h
    cases h
  · rw [hrun] at h
    obtain ⟨D, hD⟩ := Fs.exists_leads_of_symlinkMetadata hroot
    have hdir : fs₁.metadata downloadDir = .ok .dir := by
      rw [Fs.metadata, hD.1]
      exact Fs.nodeAt_eq_ok_iff.mpr hD.2
    have hcan : CanSetUp fs₁ downloadDir remotePath := by
      by_contra hnot
      obtain ⟨_, _, herr, -⟩ := setupDownload_of_not_canSetUp hdir hnot requestSize
      rw [herr] at h
      cases h
    obtain ⟨C, ns, n, hpath, husable⟩ := hcan
    obtain ⟨fs₂, hok, hnode, husable'⟩ := setupDownload_of_usable husable hpath requestSize
    rw [hok] at h
    cases h
    refine ⟨⟨⟨C, ns, n, hpath, husable', rfl⟩, _, hnode⟩, ?_⟩
    have hsame : fs'.content (C ++ ns ++ [n]) = fs₁.content (C ++ ns ++ [n]) := by
      rw [Fs.content, hnode]
    rw [hsame]

end Target

/-! ### The stages of the tasks -/

namespace Downloads

variable {d : Downloads} {t : RequestTask} {i : Nat} {downloadDir : Bytes} {a : Action}

/-- How a task comes to its stage at a step: it keeps it, or has no file open, or one step of its
download is made. -/
inductive StageStep (downloadDir : Bytes) (d : Downloads) : Action → RequestTask.Stage → Prop
  | kept {a : Action} {t : RequestTask} (h : t ∈ d.tasks) : StageStep downloadDir d a t.stage
  | waiting {a : Action} : StageStep downloadDir d a .waiting
  | starting {a : Action} {request : RequestedFile} {progress : UInt64}
      {associatedRequest : DownloadRequest} :
      StageStep downloadDir d a (.starting request progress associatedRequest)
  | ended {a : Action} {result : Outcome DbError Unit} : StageStep downloadDir d a (.ended result)
  | there {i : Nat} {answer : Except TransferError Unit} {request : RequestedFile} {fs : Fs}
      {file : List Name} {offset : Option UInt64} {p : Peer.Progress}
      {associatedRequest : DownloadRequest}
      (hrun : setupDownload d.fs downloadDir request.path request.size = (fs, .ok (file, offset)))
      (hfs : (d.step downloadDir (.setUp i answer)).fs = fs)
      (hread : p.bytesRead = offset.getD 0) :
      StageStep downloadDir d (.setUp i answer) (.received request associatedRequest p)
  | opened {i : Nat} {answer : Except TransferError Unit} {request : RequestedFile} {fs : Fs}
      {file : List Name} {offset : Option UInt64} {p : Peer.Progress}
      {associatedRequest : DownloadRequest}
      (hrun : setupDownload d.fs downloadDir request.path request.size = (fs, .ok (file, offset)))
      (hfs : (d.step downloadDir (.setUp i answer)).fs = fs)
      (hread : p.bytesRead = offset.getD 0) (hsince : p.sinceLastUiUpdate = 0) :
      StageStep downloadDir d (.setUp i answer) (.receiving request associatedRequest file p)
  | received {i : Nat} {t : RequestTask} {pass : Peer.Pass} {request : RequestedFile}
      {associatedRequest : DownloadRequest} {file : List Name} {p p' : Peer.Progress}
      (h : t ∈ d.tasks) (hstage : t.stage = .receiving request associatedRequest file p)
      (hfs : (d.step downloadDir (.receive i pass)).fs =
        d.fs.append file (pass.block.take pass.stored))
      (hpass : p' = Peer.downloadPass (Peer.progressEvent request t.peerName associatedRequest)
        file { p with fs := d.fs, events := [] } pass) :
      StageStep downloadDir d (.receive i pass)
        (if pass.accepted = false then .received request associatedRequest p'
          else .receiving request associatedRequest file p')
  | atEnd {i : Nat} {t : RequestTask} {finalSpeed : UInt32} {request : RequestedFile}
      {associatedRequest : DownloadRequest} {file : List Name} {p : Peer.Progress}
      (h : t ∈ d.tasks) (hstage : t.stage = .receiving request associatedRequest file p) :
      StageStep downloadDir d (.streamEnd i finalSpeed)
        (.received request associatedRequest (Peer.downloadEnd finalSpeed p))

/-- A block that arrives is appended to the file, as far as it is stored. -/
theorem fs_downloadPass (event : UInt64 → UInt64 → UInt32 → UiEvent) (file : List Name)
    (p : Peer.Progress) (pass : Peer.Pass) :
    (Peer.downloadPass event file p pass).fs =
      p.fs.append file (pass.block.take pass.stored) := by
  unfold Peer.downloadPass
  dsimp only
  split
  · rfl
  · split
    · rfl
    · rfl

private theorem StageStep.fail (t : RequestTask) (request : RequestedFile) :
    StageStep downloadDir d a (t.fail request).stage := by
  unfold RequestTask.fail
  dsimp only
  split
  · exact .ended
  · exact .waiting

private theorem StageStep.take (t : RequestTask) (w : WishList) (request : RequestedFile) :
    StageStep downloadDir d a (t.take w request).stage := by
  unfold RequestTask.take
  split
  · exact .ended
  · dsimp only
    split
    · exact .ended
    · exact .starting

private theorem mem_set_task {t' t₁ : RequestTask} (h : t' ∈ d.tasks.set i t₁) :
    t' ∈ d.tasks ∨ t' = t₁ :=
  List.mem_or_eq_of_mem_set h

/-- Every task comes to its stage in one of these ways. -/
theorem stage_step {t' : RequestTask} (h : t' ∈ (d.step downloadDir a).tasks) :
    StageStep downloadDir d a t'.stage := by
  have observed {tasks : List RequestTask} {write : Option (Watch.Write Bytes Bytes)}
      {told : Bool} (h : t' ∈ tasks.map (·.observe write told)) :
      ∃ t ∈ tasks, t'.stage = t.stage := by
    obtain ⟨t, ht, rfl⟩ := List.mem_map.mp h
    exact ⟨t, ht, by rw [RequestTask.observe_eq]⟩
  -- a step of the task `i`, if it is there
  have onTask {run : RequestTask → Downloads} (i : Nat)
      (hstep : d.step downloadDir a = d.onTask i run)
      (hrun : ∀ t, d.tasks[i]? = some t → t ∈ d.tasks → t' ∈ (run t).tasks →
        StageStep downloadDir d a t'.stage) : StageStep downloadDir d a t'.stage := by
    rw [hstep] at h
    cases hi : d.tasks[i]? with
    | none =>
      rw [onTask_of_none hi] at h
      exact .kept h
    | some t =>
      rw [onTask_of_some hi] at h
      exact hrun t hi (List.mem_of_getElem? hi) h
  cases a with
  | record op told =>
    obtain ⟨t, ht, hstage⟩ := observed h
    rw [hstage]
    exact .kept ht
  | connect publicKey peerName =>
    rcases List.mem_append.mp h with hold | hnew
    · exact .kept hold
    · rw [List.mem_singleton.mp hnew]
      exact .waiting
  | close i =>
    refine onTask i rfl fun t _ ht hmem ↦ ?_
    rcases mem_set_task hmem with hold | rfl
    · exact .kept hold
    · exact .kept (t := t) ht
  | next i reread =>
    refine onTask i rfl fun t _ ht hmem ↦ ?_
    rcases mem_set_task hmem with hold | rfl
    · exact .kept hold
    · unfold RequestTask.next
      split
      · dsimp only
        split
        · exact .kept (t := t) ht
        · exact .take _ _ _
      · exact .kept ht
  | setUp i answer =>
    refine onTask i rfl fun t hi ht hmem ↦ ?_
    have hfs : (d.step downloadDir (.setUp i answer)).fs = (d.setUp downloadDir i t answer).fs := by
      rw [Downloads.step, onTask_of_some hi]
    revert hmem hfs
    unfold Downloads.setUp
    split
    · split
      · intro hmem _
        rcases mem_set_task hmem with hold | rfl
        · exact .kept hold
        · exact .fail t _
      · next hrun =>
        dsimp only
        split
        · intro hmem hfs
          rcases mem_set_task hmem with hold | rfl
          · exact .kept hold
          · exact .there hrun hfs rfl
        · split
          · intro hmem _
            rcases mem_set_task hmem with hold | rfl
            · exact .kept hold
            · exact .fail t _
          · intro hmem hfs
            rcases mem_set_task hmem with hold | rfl
            · exact .kept hold
            · exact .opened hrun hfs rfl rfl
    · intro hmem _
      exact .kept hmem
  | receive i pass =>
    refine onTask i rfl fun t hi ht hmem ↦ ?_
    have hfs : (d.step downloadDir (.receive i pass)).fs = (d.receive i t pass).fs := by
      rw [Downloads.step, onTask_of_some hi]
    revert hmem hfs
    unfold Downloads.receive
    split
    · next hstage =>
      intro hmem hfs
      rcases mem_set_task hmem with hold | rfl
      · exact .kept hold
      · exact .received ht hstage (hfs.trans (fs_downloadPass _ _ _ _)) rfl
    · intro hmem _
      exact .kept hmem
  | streamEnd i finalSpeed =>
    refine onTask i rfl fun t hi ht hmem ↦ ?_
    revert hmem
    unfold Downloads.streamEnd
    split
    · next hstage =>
      intro hmem
      rcases mem_set_task hmem with hold | rfl
      · exact .kept hold
      · exact .atEnd ht hstage
    · exact .kept
  | conclude i told now =>
    refine onTask i rfl fun t hi ht hmem ↦ ?_
    revert hmem
    unfold Downloads.conclude
    split
    · dsimp only
      split
      · intro hmem
        rcases mem_set_task hmem with hold | rfl
        · exact .kept hold
        · exact .fail t _
      · intro hmem
        obtain ⟨t₁, ht₁, hstage⟩ := observed hmem
        rw [hstage]
        rcases mem_set_task ht₁ with hold | rfl
        · exact .kept hold
        · exact .waiting
    · exact .kept

/-! ### Nothing is written outside the download directory -/

/-- A file that is being received is the local file of its request. -/
def Aims (downloadDir : Bytes) (d : Downloads) : Prop :=
  ∀ t ∈ d.tasks, ∀ request associatedRequest file p,
    t.stage = .receiving request associatedRequest file p →
      Target d.fs downloadDir request.path file

/-- A step makes files longer and adds entries, in the download directory only. -/
theorem extends_step (h : d.Aims downloadDir) (a : Action) :
    d.fs.Extends (InDownloadDir (d.step downloadDir a).fs downloadDir)
      (d.step downloadDir a).fs := by
  have onTask {run : RequestTask → Downloads} (i : Nat)
      (hstep : d.step downloadDir a = d.onTask i run)
      (hrun : ∀ t ∈ d.tasks, d.fs.Extends (InDownloadDir (run t).fs downloadDir) (run t).fs) :
      d.fs.Extends (InDownloadDir (d.step downloadDir a).fs downloadDir)
        (d.step downloadDir a).fs := by
    rw [hstep]
    cases hi : d.tasks[i]? with
    | none =>
      rw [onTask_of_none hi]
      exact Fs.Extends.refl _ _
    | some t =>
      rw [onTask_of_some hi]
      exact hrun t (List.mem_of_getElem? hi)
  cases a with
  | record op told => exact Fs.Extends.refl _ _
  | connect publicKey peerName => exact Fs.Extends.refl _ _
  | close i => exact onTask i rfl fun t _ ↦ Fs.Extends.refl _ _
  | next i reread => exact onTask i rfl fun t _ ↦ Fs.Extends.refl _ _
  | setUp i answer =>
    refine onTask i rfl fun t _ ↦ ?_
    unfold Downloads.setUp
    split
    · next request _ _ _ =>
      have hadds := (setupDownload_safe d.fs downloadDir request.path request.size).1.extends
      split
      · next hrun =>
        rw [hrun] at hadds
        exact hadds
      · next hrun =>
        rw [hrun] at hadds
        dsimp only
        split
        · exact hadds
        · split
          · exact hadds
          · exact hadds
    · exact Fs.Extends.refl _ _
  | receive i pass =>
    refine onTask i rfl fun t ht ↦ ?_
    unfold Downloads.receive
    split
    · next request associatedRequest file p hstage =>
      have htarget := h t ht _ _ _ _ hstage
      obtain ⟨c, hc⟩ := htarget.regular
      have happend := Fs.extends_append hc (pass.block.take pass.stored)
      show d.fs.Extends (InDownloadDir (Peer.downloadPass _ file _ pass).fs downloadDir)
        (Peer.downloadPass _ file _ pass).fs
      rw [fs_downloadPass]
      refine ⟨happend.grows, happend.content, fun q hq ↦ ?_⟩
      obtain rfl := happend.changed q hq
      exact (htarget.grows happend.grows).inside
    · exact Fs.Extends.refl _ _
  | streamEnd i finalSpeed =>
    refine onTask i rfl fun t _ ↦ ?_
    unfold Downloads.streamEnd
    split <;> exact Fs.Extends.refl _ _
  | conclude i told now =>
    refine onTask i rfl fun t _ ↦ ?_
    unfold Downloads.conclude
    split
    · dsimp only
      split <;> exact Fs.Extends.refl _ _
    · exact Fs.Extends.refl _ _

/-- Whatever happens next, the files that are being received are the ones that were requested. -/
theorem Aims.step (h : d.Aims downloadDir) (a : Action) :
    (d.step downloadDir a).Aims downloadDir := by
  intro t' ht' request associatedRequest file p hstage
  have hgrows := (extends_step h a).grows
  have hcame := stage_step ht'
  rw [hstage] at hcame
  generalize hs : RequestTask.Stage.receiving request associatedRequest file p = stage at hcame
  cases hcame with
  | kept ht => exact (h _ ht _ _ _ _ hs.symm).grows hgrows
  | waiting | starting | ended | there | atEnd => cases hs
  | opened hrun hfs =>
    cases hs
    rw [hfs]
    exact (setupDownload_target hrun).1
  | received ht hold =>
    split at hs
    · cases hs
    · cases hs
      exact (h _ ht _ _ _ _ hold).grows hgrows

/-- Whatever the tasks download, in whatever order they make their steps: outside the download
directory nothing changes in a run, and every file keeps its bytes at the beginning. -/
theorem writes_confined (hnone : d.tasks = []) (actions : List Action) :
    EachState (step downloadDir) (fun d' ↦
      (∀ q, d'.fs.node q ≠ d.fs.node q → InDownloadDir d'.fs downloadDir q) ∧
      ∀ q, d.fs.content q <+: d'.fs.content q) d actions := by
  have hfree : EachStep (step downloadDir) (fun _ _ ↦ True) d actions :=
    eachStep_of_forall fun _ _ ↦ trivial
  refine (eachState_of_invariant (I := fun d' ↦ d'.Aims downloadDir ∧
      d.fs.Extends (InDownloadDir d'.fs downloadDir) d'.fs) ⟨?_, Fs.Extends.refl _ _⟩ hfree ?_).mono
    fun d' h ↦ ⟨h.2.changed, h.2.content⟩
  · intro t ht
    rw [hnone] at ht
    cases ht
  · rintro d' a ⟨haims, hext⟩ -
    have hstep := extends_step haims a
    exact ⟨haims.step a, hext.trans hstep fun q hq ↦ hq.grows hstep.grows⟩

/-! ### What is downloaded is on the disk -/

/-- A block that is accepted is stored in full. -/
def Action.Stores : Action → Prop
  | .receive _ pass => pass.accepted = true → pass.block.length ≤ pass.stored
  | _ => True

/-- A download handler records files that are not downloaded (`src/lib.rs:300`). -/
def Action.RecordsOutstanding : Action → Prop
  | .record (.addRequestedFile f) _ => f.downloaded = false
  | .record (.fileCompleted _) _ => False
  | _ => True

/-- The bytes that a task counts are in the local file of its request. -/
structure Counts (downloadDir : Bytes) (d : Downloads) : Prop where
  receiving : ∀ t ∈ d.tasks, ∀ request associatedRequest file p,
    t.stage = .receiving request associatedRequest file p →
      p.bytesRead.toNat + p.sinceLastUiUpdate.toNat ≤ (d.fs.content file).length
  received : ∀ t ∈ d.tasks, ∀ request associatedRequest p,
    t.stage = .received request associatedRequest p →
      OnDisk d.fs downloadDir request.path p.bytesRead.toNat

private theorem toNat_add_le (a b : UInt64) : (a + b).toNat ≤ a.toNat + b.toNat := by
  rw [UInt64.toNat_add]
  exact Nat.mod_le _ _

/-- A download never starts behind the end of the local file. -/
private theorem startOffset_behind (length : Nat) (size : UInt64) :
    ((startOffset (UInt64.ofNat length) size).getD 0).toNat ≤ length := by
  have hmod : (UInt64.ofNat length).toNat ≤ length := by
    rw [UInt64.toNat_ofNat']
    exact Nat.mod_le _ _
  unfold startOffset
  split
  · next hless => exact Nat.le_trans (Nat.le_of_lt (UInt64.lt_iff_toNat_lt.mp hless)) hmod
  · split
    · exact Nat.zero_le _
    · exact hmod

section Pass

variable {event : UInt64 → UInt64 → UInt32 → UiEvent} {file : List Name} {p p' : Peer.Progress}
  {pass : Peer.Pass}

/-- A block that is refused is not counted. -/
private theorem bytesRead_refused (hpass : p' = Peer.downloadPass event file p pass)
    (hrefused : pass.accepted = false) : p'.bytesRead = p.bytesRead := by
  rw [hpass, Peer.downloadPass]
  dsimp only
  rw [if_pos hrefused]

/-- A block that is stored in full is counted. -/
private theorem counts_accepted {n : Nat} (hpass : p' = Peer.downloadPass event file p pass)
    (haccepted : ¬pass.accepted = false) (hstored : pass.block.length ≤ pass.stored)
    (hcount : p.bytesRead.toNat + p.sinceLastUiUpdate.toNat ≤ n) :
    p'.bytesRead.toNat + p'.sinceLastUiUpdate.toNat ≤
      n + (pass.block.take pass.stored).length := by
  have hblock : (UInt64.ofNat pass.block.length).toNat ≤ pass.block.length := by
    rw [UInt64.toNat_ofNat']
    exact Nat.mod_le _ _
  have hsince := toNat_add_le p.sinceLastUiUpdate (UInt64.ofNat pass.block.length)
  rw [hpass, Peer.downloadPass, List.length_take, Nat.min_eq_right hstored]
  dsimp only
  rw [if_neg haccepted]
  split
  · have hread := toNat_add_le p.bytesRead
      (p.sinceLastUiUpdate + UInt64.ofNat pass.block.length)
    have hzero : (0 : UInt64).toNat = 0 := rfl
    dsimp only
    omega
  · dsimp only
    omega

end Pass

/-- Whatever happens next, the bytes that the tasks count are on the disk. -/
theorem Counts.step (h : d.Counts downloadDir) (haims : d.Aims downloadDir) (hstores : a.Stores) :
    (d.step downloadDir a).Counts downloadDir := by
  have hext := extends_step haims a
  constructor
  · intro t' ht' request associatedRequest file p hstage
    have hcame := stage_step ht'
    rw [hstage] at hcame
    generalize hs : RequestTask.Stage.receiving request associatedRequest file p = stage at hcame
    cases hcame with
    | kept ht =>
      exact (h.receiving _ ht _ _ _ _ hs.symm).trans (hext.content file).length_le
    | waiting | starting | ended | there | atEnd => cases hs
    | opened hrun hfs hread hsince =>
      cases hs
      rw [hfs, hread, hsince, (setupDownload_target hrun).2]
      exact startOffset_behind _ _
    | received ht hold hfs hpass =>
      split at hs
      · cases hs
      · next haccepted =>
        cases hs
        obtain ⟨c, hc⟩ := (haims _ ht _ _ _ _ hold).regular
        have hbefore := h.receiving _ ht _ _ _ _ hold
        rw [hfs, Fs.content_append hc, List.length_append]
        exact counts_accepted hpass haccepted (hstores (by simpa using haccepted)) hbefore
  · intro t' ht' request associatedRequest p hstage
    have hcame := stage_step ht'
    rw [hstage] at hcame
    generalize hs : RequestTask.Stage.received request associatedRequest p = stage at hcame
    cases hcame with
    | kept ht => exact (h.received _ ht _ _ _ hs.symm).extends hext
    | waiting | starting | ended | opened => cases hs
    | there hrun hfs hread =>
      cases hs
      obtain ⟨htarget, hoffset⟩ := setupDownload_target hrun
      rw [hfs, hread, hoffset]
      exact htarget.onDisk (startOffset_behind _ _)
    | received ht hold hfs hpass =>
      split at hs
      · next hrefused =>
        cases hs
        have hbefore := h.receiving _ ht _ _ _ _ hold
        rw [bytesRead_refused hpass hrefused]
        refine ((haims _ ht _ _ _ _ hold).onDisk ?_).extends hext
        exact (Nat.le_add_right _ _).trans hbefore
      · cases hs
    | atEnd ht hold =>
      cases hs
      refine ((haims _ ht _ _ _ _ hold).onDisk ?_).extends hext
      exact (toNat_add_le _ _).trans (h.receiving _ ht _ _ _ _ hold)

/-- Every file whose record is marked as downloaded is on the disk with its size. -/
def RecordsOnDisk (downloadDir : Bytes) (d : Downloads) : Prop :=
  ∀ k b f, d.wishlist.requestedFilesByRequestId[k]? = some b →
    fromDbByRequestIdKeyValue k b = .ok f → f.downloaded = true →
      OnDisk d.fs downloadDir f.path f.size.toNat

/-- An operation inserts at most the record of its file. -/
theorem byRequestId_run {w : WishList} {op : WishList.Operation} {k b : Bytes}
    (h : (op.run w).requestedFilesByRequestId[k]? = some b) :
    w.requestedFilesByRequestId[k]? = some b ∨
      ∃ f, (op = .addRequestedFile f ∨ op = .fileCompleted f) ∧
        k = requestKey f.requestId f.path ∧ b = requestValue f.size f.downloaded := by
  have inserted {f : RequestedFile} (h : (w.requestedFilesByRequestId.insert
      (requestKey f.requestId f.path) (requestValue f.size f.downloaded))[k]? = some b) :
      w.requestedFilesByRequestId[k]? = some b ∨
        k = requestKey f.requestId f.path ∧ b = requestValue f.size f.downloaded := by
    rw [getElem?_insert] at h
    split at h
    · next hk =>
      cases h
      exact Or.inr ⟨hk, rfl⟩
    · exact Or.inl h
  cases op with
  | addRequest r => exact Or.inl h
  | addRequestedFile f =>
    rw [WishList.Operation.run, WishList.addRequestedFile] at h
    split at h
    · exact Or.inl h
    · exact (inserted h).imp_right fun hnew ↦ ⟨f, Or.inl rfl, hnew⟩
  | fileCompleted f =>
    rw [WishList.Operation.run, WishList.fileCompleted] at h
    split at h
    · exact Or.inl h
    · split at h
      · exact Or.inl h
      · dsimp only at h
        split at h
        · exact Or.inl h
        · exact (inserted h).imp_right fun hnew ↦ ⟨f, Or.inr rfl, hnew⟩

/-- A file is marked as downloaded only when the bytes of its size are on the disk. -/
theorem RecordsOnDisk.step (h : d.RecordsOnDisk downloadDir) (haims : d.Aims downloadDir)
    (hcounts : d.Counts downloadDir) (hrecords : a.RecordsOutstanding) :
    (d.step downloadDir a).RecordsOnDisk downloadDir := by
  have hext := extends_step haims a
  have kept (hwishlist : (d.step downloadDir a).wishlist = d.wishlist) :
      (d.step downloadDir a).RecordsOnDisk downloadDir := by
    intro k b f hb hf hdownloaded
    rw [hwishlist] at hb
    exact (h k b f hb hf hdownloaded).extends hext
  have ran (op : WishList.Operation) (hwishlist : (d.step downloadDir a).wishlist =
        op.run d.wishlist)
      (hop : ∀ f, op = .addRequestedFile f ∨ op = .fileCompleted f → f.downloaded = true →
        OnDisk d.fs downloadDir f.path f.size.toNat) :
      (d.step downloadDir a).RecordsOnDisk downloadDir := by
    intro k b f hb hf hdownloaded
    rw [hwishlist] at hb
    refine OnDisk.extends ?_ hext
    rcases byRequestId_run hb with hold | ⟨g, hg, rfl, rfl⟩
    · exact h k b f hold hf hdownloaded
    · rw [fromDbByRequestId_requestKey] at hf
      cases hf
      exact hop g hg hdownloaded
  have onTask {run : RequestTask → Downloads} (i : Nat)
      (hstep : d.step downloadDir a = d.onTask i run)
      (hrun : ∀ t, d.tasks[i]? = some t → (run t).wishlist = d.wishlist) :
      (d.step downloadDir a).RecordsOnDisk downloadDir := by
    refine kept ?_
    rw [hstep]
    cases hi : d.tasks[i]? with
    | none => rw [onTask_of_none hi]
    | some t =>
      rw [onTask_of_some hi]
      exact hrun t hi
  cases a with
  | record op told =>
    refine ran op rfl fun f hf hdownloaded ↦ ?_
    rcases hf with rfl | rfl
    · cases hdownloaded.symm.trans hrecords
    · exact hrecords.elim
  | connect publicKey peerName => exact kept rfl
  | close i => exact onTask i rfl fun _ _ ↦ rfl
  | next i reread => exact onTask i rfl fun _ _ ↦ rfl
  | setUp i answer => exact onTask i rfl fun t hi ↦ (setUp_tasks hi answer).1
  | receive i pass => exact onTask i rfl fun t hi ↦ (receive_tasks hi pass).1
  | streamEnd i finalSpeed => exact onTask i rfl fun t hi ↦ (streamEnd_tasks hi finalSpeed).1
  | conclude i told now =>
    cases hi : d.tasks[i]? with
    | none => exact kept (by rw [Downloads.step, onTask_of_none hi])
    | some t =>
      obtain ⟨_, -, ⟨-, hwishlist, -⟩ | ⟨request, r, p, hstage, hreached, -, hwishlist, -⟩⟩ :=
        conclude_tasks hi told now
      · exact kept (by rw [Downloads.step, onTask_of_some hi, hwishlist])
      · refine ran (WishList.completion request)
          (by rw [Downloads.step, onTask_of_some hi, hwishlist]) fun f hf _ ↦ ?_
        -- all bytes of the file were counted
        obtain ⟨c, hc, hread⟩ := hcounts.received t (List.mem_of_getElem? hi) _ _ _ hstage
        have hsize : request.size.toNat ≤ p.bytesRead.toNat := by
          rw [UInt64.lt_iff_toNat_lt] at hreached
          omega
        rcases hf with hf | hf
        · cases hf
        · cases hf
          exact ⟨c, hc, hsize.trans hread⟩

/-- If the file system stores in full what it accepts, then in every state of a run every file
that the UI shows as downloaded is on the disk, with at least its size. -/
theorem downloaded_on_disk (hnone : d.tasks = [])
    (hdisk : ∀ id, ∀ f ∈ (d.wishlist.requestedFiles id).flatten, f.downloaded = true →
      OnDisk d.fs downloadDir f.path f.size.toNat) {actions : List Action}
    (hrecords : ∀ a ∈ actions, a.RecordsOutstanding) (hstores : ∀ a ∈ actions, a.Stores) :
    EachState (step downloadDir) (fun d' ↦ ∀ id,
      ∀ f ∈ (d'.wishlist.requestedFiles id).flatten, f.downloaded = true →
        OnDisk d'.fs downloadDir f.path f.size.toNat) d actions := by
  have hstart : d.RecordsOnDisk downloadDir := by
    intro k b f hb hf hdownloaded
    have hkey := RequestedFile.eq_requestKey hf
    subst hkey
    exact hdisk f.requestId f.intoUiRequestedFile
      (WishList.mem_requestedFiles_iff.mpr ⟨rfl, b, f, hb, hf, rfl⟩) hdownloaded
  have hempty {P : RequestTask → Prop} : ∀ t ∈ d.tasks, P t := by
    intro t ht
    rw [hnone] at ht
    cases ht
  refine (eachState_of_invariant (I := fun d' ↦ d'.Aims downloadDir ∧ d'.Counts downloadDir ∧
    d'.RecordsOnDisk downloadDir) ⟨hempty, ⟨hempty, hempty⟩, hstart⟩
    ((eachStep_of_forall hrecords).and (eachStep_of_forall hstores)) ?_).mono ?_
  · rintro d' a ⟨haims, hcounts, hlisted⟩ ⟨hrecords, hstores⟩
    exact ⟨haims.step a, hcounts.step haims hstores, hlisted.step haims hcounts hrecords⟩
  · rintro d' ⟨-, -, hrecords⟩ id f hf hdownloaded
    obtain ⟨-, b, g, hb, hg, rfl⟩ := WishList.mem_requestedFiles_iff.mp hf
    exact hrecords _ b g hb hg hdownloaded

section Example

open Attempt

/-- Two files are downloaded into a file system that has the download directory only. -/
theorem writes_confined_twoFiles :
    EachState (step exampleJob.downloadDir) (fun d' ↦
      (∀ q, d'.fs.node q ≠ exampleFs.node q → InDownloadDir d'.fs exampleJob.downloadDir q) ∧
      ∀ q, exampleFs.content q <+: d'.fs.content q) idleNode
      (twoFiles ++ .connect WishList.exampleKey "peer" :: twoDownloads) :=
  writes_confined (d := idleNode) rfl _

/-- The block of the file that a listing names twice is stored in full. -/
theorem downloaded_on_disk_repeated :
    EachState (step exampleJob.downloadDir) (fun d' ↦ ∀ id,
      ∀ f ∈ (d'.wishlist.requestedFiles id).flatten, f.downloaded = true →
        OnDisk d'.fs exampleJob.downloadDir f.path f.size.toNat) idleNode repeatedListing := by
  refine downloaded_on_disk rfl (fun id f hf ↦ ?_) (fun a ha ↦ ?_) fun a ha ↦ ?_
  · obtain ⟨-, b, g, hb, -⟩ := WishList.mem_requestedFiles_iff.mp hf
    have hnone : (WishList.empty.requestedFilesByRequestId)[requestKey id f.path]? = none :=
      Std.ExtTreeMap.getElem?_empty
    cases hnone.symm.trans hb
  · revert a
    simp [repeatedListing, Action.RecordsOutstanding]
  · revert a
    simp [repeatedListing, Action.Stores]

end Example

end Downloads

end HarddriveParty
