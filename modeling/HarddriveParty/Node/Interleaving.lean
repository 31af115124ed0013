import HarddriveParty.Base.Runs
import HarddriveParty.Node.PeerTasks

/-!
# A download among others

The download of one task ends as `download` does when it runs alone, whatever the other tasks and
the download handlers do between its steps: it counts the same bytes, reports them in the same
last event, and is completed or given up in the same cases.
-/

namespace HarddriveParty

open UnixPath UnixFs Runs

namespace Peer

/-- The counters of two downloads are the same. -/
structure SameCounters (p q : Progress) : Prop where
  bytesRead : p.bytesRead = q.bytesRead
  totalBytesRead : p.totalBytesRead = q.totalBytesRead
  sinceLastUiUpdate : p.sinceLastUiUpdate = q.sinceLastUiUpdate
  finalSpeed : p.finalSpeed = q.finalSpeed

section Loop

variable {event event' : UInt64 → UInt64 → UInt32 → UiEvent} {file file' : List Name}
  {finalSpeed : UInt32} {p q : Progress}

theorem SameCounters.trans {r : Progress} (h : SameCounters p q) (h' : SameCounters q r) :
    SameCounters p r where
  bytesRead := h.bytesRead.trans h'.bytesRead
  totalBytesRead := h.totalBytesRead.trans h'.totalBytesRead
  sinceLastUiUpdate := h.sinceLastUiUpdate.trans h'.sinceLastUiUpdate
  finalSpeed := h.finalSpeed.trans h'.finalSpeed

/-- A pass counts without looking at the file system. -/
theorem SameCounters.downloadPass (h : SameCounters p q) (pass : Pass) :
    SameCounters (Peer.downloadPass event file p pass)
      (Peer.downloadPass event' file' q pass) := by
  obtain ⟨hread, htotal, hsince, hspeed⟩ := h
  unfold Peer.downloadPass
  dsimp only
  rw [hsince]
  split
  · exact ⟨hread, htotal, rfl, hspeed⟩
  · split
    · exact ⟨by rw [hread], by rw [htotal], rfl, hspeed⟩
    · exact ⟨hread, htotal, rfl, hspeed⟩

/-- The loop makes one pass after another, until a write is refused. -/
theorem downloadLoop_cons (p : Progress) (pass : Pass) (rest : List Pass) :
    downloadLoop event file finalSpeed p (pass :: rest) =
      if pass.accepted = false then Peer.downloadPass event file p pass
      else downloadLoop event file finalSpeed (Peer.downloadPass event file p pass) rest := by
  rw [downloadLoop, Peer.downloadPass]
  dsimp only
  split
  · rfl
  · show (if updateDue _ _ = true then _ else _) = _
    split <;> rfl

end Loop

end Peer

namespace Downloads

variable {d : Downloads} {t : RequestTask} {i : Nat} {downloadDir : Bytes} {a : Action}
  {request : RequestedFile} {associatedRequest : DownloadRequest}

/-- A step of the task itself; that its connection is closed is not one. -/
def Action.isOf (i : Nat) : Action → Bool
  | .close _ => false
  | a => decide (a.task = some i)

/-- The step of another task, or of a download handler, leaves the stage of the task. -/
theorem other_step (downloadDir : Bytes) (h : d.tasks[i]? = some t) (ha : a.isOf i = false) :
    ∃ t', (d.step downloadDir a).tasks[i]? = some t' ∧ t'.stage = t.stage ∧
      t'.failed = t.failed ∧ t'.peerName = t.peerName := by
  by_cases htask : a.task = some i
  · cases a with
    | close j =>
      cases htask
      refine ⟨{ t with closed := true }, ?_, rfl, rfl, rfl⟩
      rw [step, onTask_of_some h, getElem?_setTask h]
    | record | connect => cases htask
    | next | setUp | receive | streamEnd | conclude =>
      exact absurd (of_decide_eq_false ha) (not_not.mpr htask)
  · obtain ⟨t', hi', ⟨reread, rfl, -⟩ | ⟨-, t₁, -, hsame, rfl⟩⟩ :=
      task_step downloadDir h a
    · exact absurd rfl htask
    · obtain rfl := hsame htask
      refine ⟨_, hi', ?_, ?_, ?_⟩ <;> rw [RequestTask.observe_eq]

/-- The rest of a download that only receives. -/
def OnlyReceives (i : Nat) (rest : List Action) : Prop :=
  ∀ a ∈ rest, a.isOf i = true → (∃ pass, a = .receive i pass) ∨ ∃ speed, a = .streamEnd i speed

/-- A task that does not receive anything stays where it is. -/
theorem stays_of_onlyReceives {rest : List Action} (h : d.tasks[i]? = some t)
    (hnot : ∀ request associatedRequest file p,
      t.stage ≠ .receiving request associatedRequest file p)
    (hrest : OnlyReceives i rest) :
    ∃ t', (finalState (step downloadDir) d rest).tasks[i]? = some t' ∧ t'.stage = t.stage ∧
      t'.failed = t.failed ∧ t'.peerName = t.peerName := by
  induction rest generalizing d t with
  | nil => exact ⟨t, h, rfl, rfl, rfl⟩
  | cons a rest ih =>
    have hstep : ∃ t', (d.step downloadDir a).tasks[i]? = some t' ∧ t'.stage = t.stage ∧
        t'.failed = t.failed ∧ t'.peerName = t.peerName := by
      cases ha : a.isOf i with
      | false => exact other_step downloadDir h ha
      | true =>
        refine ⟨t, ?_, rfl, rfl, rfl⟩
        rcases hrest a List.mem_cons_self ha with ⟨pass, rfl⟩ | ⟨speed, rfl⟩
        · rw [step, onTask_of_some h, receive]
          split
          · next hstage => exact absurd hstage (hnot _ _ _ _)
          · exact h
        · rw [step, onTask_of_some h, streamEnd]
          split
          · next hstage => exact absurd hstage (hnot _ _ _ _)
          · exact h
    obtain ⟨t', hi', hstage, hfailed, hname⟩ := hstep
    obtain ⟨t'', hi'', hstage', hfailed', hname'⟩ :=
      ih hi' (by rw [hstage]; exact hnot) fun a ha ↦ hrest a (List.mem_cons_of_mem _ ha)
    exact ⟨t'', hi'', hstage'.trans hstage, hfailed'.trans hfailed, hname'.trans hname⟩

/-- A task that receives comes to the end of its loop with the counters of the loop, whatever the
others do between its steps. -/
theorem receives_interleaved {passes : List Peer.Pass} {finalSpeed : UInt32} {rest : List Action}
    {file : List Name} {p q : Peer.Progress} (h : d.tasks[i]? = some t)
    (hstage : t.stage = .receiving request associatedRequest file p)
    (hsame : Peer.SameCounters p q)
    (hown : rest.filter (Action.isOf i) =
      passes.map (Action.receive i) ++ [.streamEnd i finalSpeed])
    (event : UInt64 → UInt64 → UInt32 → UiEvent) (file' : List Name) :
    ∃ t' p', (finalState (step downloadDir) d rest).tasks[i]? = some t' ∧
      t'.stage = .received request associatedRequest p' ∧
      Peer.SameCounters p' (Peer.downloadLoop event file' finalSpeed q passes) ∧
      t'.failed = t.failed ∧ t'.peerName = t.peerName := by
  induction rest generalizing d t p q passes with
  | nil => simp at hown
  | cons a rest ih =>
    cases ha : a.isOf i with
    | false =>
      rw [List.filter_cons_of_neg (by simp [ha])] at hown
      obtain ⟨t₁, hi₁, hstage₁, hfailed₁, hname₁⟩ := other_step downloadDir h ha
      obtain ⟨t', p', hi', hstage', hcounters, hfailed, hname⟩ :=
        ih hi₁ (hstage₁.trans hstage) hsame hown
      exact ⟨t', p', hi', hstage', hcounters, hfailed.trans hfailed₁, hname.trans hname₁⟩
    | true =>
      rw [List.filter_cons_of_pos ha] at hown
      have hreceives {own : List Action} (hrest : rest.filter (Action.isOf i) = own)
          (hall : ∀ a ∈ own, (∃ pass, a = .receive i pass) ∨ ∃ speed, a = .streamEnd i speed) :
          OnlyReceives i rest := by
        intro b hb hown
        refine hall b ?_
        rw [← hrest]
        exact List.mem_filter.mpr ⟨hb, hown⟩
      -- the task is through with receiving, so nothing more changes it
      have finish (p' : Peer.Progress)
          (hstep : (d.step downloadDir a).tasks[i]? =
            some { t with stage := .received request associatedRequest p' })
          (hrest : OnlyReceives i rest) :
          ∃ t', (finalState (step downloadDir) d (a :: rest)).tasks[i]? = some t' ∧
            t'.stage = .received request associatedRequest p' ∧
            t'.failed = t.failed ∧ t'.peerName = t.peerName :=
        stays_of_onlyReceives hstep (fun _ _ _ _ heq ↦ by cases heq) hrest
      cases passes with
      | nil =>
        obtain ⟨rfl, hrest⟩ := List.cons.inj hown
        obtain ⟨t', hi', hstage', hfailed, hname⟩ := finish (Peer.downloadEnd finalSpeed p)
          (by rw [step, onTask_of_some h, streamEnd, hstage, getElem?_setTask h])
          (hreceives hrest fun b hb ↦ by cases hb)
        refine ⟨t', _, hi', hstage', ?_, hfailed, hname⟩
        exact ⟨by rw [Peer.downloadEnd, hsame.bytesRead, hsame.sinceLastUiUpdate]; rfl,
          hsame.totalBytesRead, hsame.sinceLastUiUpdate, rfl⟩
      | cons pass passes =>
        obtain ⟨rfl, hrest⟩ := List.cons.inj hown
        have hfresh : Peer.SameCounters { p with fs := d.fs, events := [] } q :=
          ⟨hsame.bytesRead, hsame.totalBytesRead, hsame.sinceLastUiUpdate, hsame.finalSpeed⟩
        have hpass : Peer.SameCounters (Peer.downloadPass
              (Peer.progressEvent request t.peerName associatedRequest) file
              { p with fs := d.fs, events := [] } pass)
            (Peer.downloadPass event file' q pass) := hfresh.downloadPass pass
        have hstep : (d.step downloadDir (.receive i pass)).tasks[i]? = some { t with
            stage := if pass.accepted = false then
                .received request associatedRequest (Peer.downloadPass
                  (Peer.progressEvent request t.peerName associatedRequest) file
                  { p with fs := d.fs, events := [] } pass)
              else .receiving request associatedRequest file (Peer.downloadPass
                (Peer.progressEvent request t.peerName associatedRequest) file
                { p with fs := d.fs, events := [] } pass) } := by
          rw [step, onTask_of_some h, receive, hstage]
          exact getElem?_setTask h _
        rw [Peer.downloadLoop_cons]
        split
        · next hrefused =>
          rw [if_pos hrefused] at hstep
          have honly : OnlyReceives i rest := hreceives hrest fun b hb ↦ by
            rcases List.mem_append.mp hb with hreceive | hend
            · obtain ⟨pass', -, rfl⟩ := List.mem_map.mp hreceive
              exact Or.inl ⟨pass', rfl⟩
            · exact Or.inr ⟨finalSpeed, List.mem_singleton.mp hend⟩
          obtain ⟨t', hi', hstage', hfailed, hname⟩ := finish _ hstep honly
          exact ⟨t', _, hi', hstage', hpass, hfailed, hname⟩
        · next haccepted =>
          rw [if_neg haccepted] at hstep
          obtain ⟨t', p', hi', hstage', hcounters, hfailed, hname⟩ := ih hstep rfl hpass hrest
          exact ⟨t', p', hi', hstage', hcounters, hfailed, hname⟩

/-- Between the two states the task has ended its download with this result: it is completed with
the events of a completion, or given up, and the last event of the download was sent. -/
def EndsAs (now : UInt64) (request : RequestedFile) (associatedRequest : DownloadRequest)
    (result : Fs × List UiEvent × Except TransferError Unit) (t : RequestTask)
    (before after : Downloads) (t' : RequestTask) : Prop :=
  match result.2.2 with
  | .ok () =>
    t'.failed = t.failed ∧ after.wishlist = (WishList.completion request).run before.wishlist ∧
      after.events = before.events ++ result.2.1.getLast?.toList ++
        WishList.completedEvents ⟨request.requestId, associatedRequest.path, t.peerName,
          .completed now⟩ (before.wishlist.fileCompleted { request with downloaded := true }).2
  | .error _ =>
    t'.failed = t.failed ++ [request] ∧ after.wishlist = before.wishlist ∧
      after.events = before.events ++ result.2.1.getLast?.toList

/-- A task that was given up at once has nothing to conclude. -/
private theorem ends_given_up {result : Fs × List UiEvent × Except TransferError Unit}
    {e : TransferError} {before : Downloads} {t' : RequestTask} (h : before.tasks[i]? = some t')
    (hstage : t'.stage = (t.fail request).stage) (hfailed : t'.failed = t.failed ++ [request])
    (hresult : result.2 = ([], .error e)) (told : Bool) (now : UInt64) :
    ∃ t', (before.step downloadDir (.conclude i told now)).tasks[i]? = some t' ∧
      EndsAs now request associatedRequest result t before
        (before.step downloadDir (.conclude i told now)) t' := by
  have hstep : before.step downloadDir (.conclude i told now) = before := by
    rw [step, onTask_of_some h, conclude, hstage, RequestTask.fail]
    cases t.closed with
    | false => rfl
    | true => rfl
  rw [hstep]
  refine ⟨t', h, ?_⟩
  rw [EndsAs, hresult]
  exact ⟨hfailed, rfl, (List.append_nil _).symm⟩

/-- A task that is through with its loop sends its last event, and is completed or given up. -/
private theorem ends_concluded {result : Fs × List UiEvent × Except TransferError Unit}
    {before : Downloads} {t' : RequestTask} {p q : Peer.Progress}
    (h : before.tasks[i]? = some t')
    (hstage : t'.stage = .received request associatedRequest p) (hsame : Peer.SameCounters p q)
    (hfailed : t'.failed = t.failed) (hname : t'.peerName = t.peerName)
    (hresult : result =
      let events := q.events ++ [Peer.progressEvent request t.peerName associatedRequest
        q.bytesRead q.totalBytesRead q.finalSpeed]
      if q.bytesRead < request.size then
        (q.fs, events, .error (.message (Peer.incompleteMessage q.bytesRead request.size)))
      else (q.fs, events, .ok ())) (told : Bool) (now : UInt64) :
    ∃ t', (before.step downloadDir (.conclude i told now)).tasks[i]? = some t' ∧
      EndsAs now request associatedRequest result t before
        (before.step downloadDir (.conclude i told now)) t' := by
  have hlast (events : List UiEvent) : (events ++ [Peer.progressEvent request t.peerName
      associatedRequest q.bytesRead q.totalBytesRead q.finalSpeed]).getLast?.toList =
        [Peer.progressEvent request t'.peerName associatedRequest p.bytesRead p.totalBytesRead
          p.finalSpeed] := by
    rw [List.getLast?_concat, hsame.bytesRead, hsame.totalBytesRead, hsame.finalSpeed, hname]
    rfl
  have hstep : before.step downloadDir (.conclude i told now) = before.conclude i t' told now := by
    rw [step, onTask_of_some h]
  rw [hstep, conclude, hstage]
  dsimp only at hresult ⊢
  split
  · next hless =>
    rw [if_pos (hsame.bytesRead ▸ hless)] at hresult
    refine ⟨t'.fail request, getElem?_setTask h _, ?_⟩
    rw [EndsAs, hresult]
    dsimp only
    rw [hlast]
    exact ⟨by rw [RequestTask.fail, hfailed], rfl, rfl⟩
  · next hreached =>
    rw [if_neg (hsame.bytesRead ▸ hreached)] at hresult
    have hwaiting : (before.setTask i (t'.succeed request)).tasks[i]? =
        some (t'.succeed request) := getElem?_setTask h _
    refine ⟨(t'.succeed request).observe
      ((WishList.completion request).byPeerWrite before.wishlist) told, ?_, ?_⟩
    · show ((before.setTask i _).tasks.map _)[i]? = _
      rw [List.getElem?_map, hwaiting]
      rfl
    · rw [EndsAs, hresult]
      dsimp only
      rw [hlast, ← hname]
      exact ⟨by rw [RequestTask.observe_eq]; exact hfailed, rfl, rfl⟩

/-- A download whose steps are a part of a run ends as `download` does when it runs alone on the
file system as it was at its start. -/
theorem download_interleaved {progress : UInt64} (h : d.tasks[i]? = some t)
    (hstage : t.stage = .starting request progress associatedRequest)
    (answer : Except TransferError Unit) {passes : List Peer.Pass} {finalSpeed : UInt32}
    {rest : List Action}
    (hown : rest.filter (Action.isOf i) =
      passes.map (Action.receive i) ++ [.streamEnd i finalSpeed]) (told : Bool) (now : UInt64) :
    let result := Peer.download d.fs request (fun _ ↦ answer.map fun _ ↦ ⟨passes, finalSpeed⟩)
      downloadDir t.peerName progress associatedRequest
    let before := finalState (step downloadDir) (d.step downloadDir (.setUp i answer)) rest
    let after := before.step downloadDir (.conclude i told now)
    ∃ t', after.tasks[i]? = some t' ∧
      EndsAs now request associatedRequest result t before after t' := by
  intro result before after
  have hreceives : OnlyReceives i rest := by
    intro b hb hisOf
    have hmem : b ∈ rest.filter (Action.isOf i) := List.mem_filter.mpr ⟨hb, hisOf⟩
    rw [hown] at hmem
    rcases List.mem_append.mp hmem with hreceive | hend
    · obtain ⟨pass, -, rfl⟩ := List.mem_map.mp hreceive
      exact Or.inl ⟨pass, rfl⟩
    · exact Or.inr ⟨finalSpeed, List.mem_singleton.mp hend⟩
  have hfail : ∀ request' r file p, (t.fail request).stage ≠ .receiving request' r file p := by
    intro request' r file p heq
    rw [RequestTask.fail] at heq
    cases hclosed : t.closed <;> simp [hclosed] at heq
  have hsetUp : d.step downloadDir (.setUp i answer) = d.setUp downloadDir i t answer := by
    rw [step, onTask_of_some h]
  have hresult : result = Peer.download d.fs request
    (fun _ ↦ answer.map fun _ ↦ ⟨passes, finalSpeed⟩) downloadDir t.peerName progress
    associatedRequest := rfl
  rw [Downloads.setUp, hstage] at hsetUp
  rw [Peer.download] at hresult
  dsimp only at hsetUp hresult
  cases hrun : setupDownload d.fs downloadDir request.path request.size with
  | mk fs opened =>
    rw [hrun] at hsetUp hresult
    cases opened with
    | error e =>
      -- the target cannot be set up
      have hi : (d.step downloadDir (.setUp i answer)).tasks[i]? = some (t.fail request) := by
        rw [hsetUp]
        exact getElem?_setTask h _
      obtain ⟨t', hi', hstage', hfailed, -⟩ := stays_of_onlyReceives hi hfail hreceives
      exact ends_given_up hi' hstage' hfailed (by rw [hresult]) told now
    | ok opened =>
      obtain ⟨file, offset⟩ := opened
      dsimp only at hsetUp hresult
      by_cases hthere : Peer.alreadyDownloaded offset request.size = true
      · -- the file is there already
        rw [if_pos hthere] at hsetUp hresult
        have hi : (d.step downloadDir (.setUp i answer)).tasks[i]? = some { t with
            stage := .received request associatedRequest
              ⟨fs, offset.getD 0, progress, 0, 0, []⟩ } := by
          rw [hsetUp]
          exact getElem?_setTask h _
        obtain ⟨t', hi', hstage', hfailed, hname⟩ :=
          stays_of_onlyReceives hi (fun _ _ _ _ heq ↦ by cases heq) hreceives
        exact ends_concluded (t := t) hi' hstage' ⟨rfl, rfl, rfl, rfl⟩ hfailed hname hresult told
          now
      · rw [if_neg hthere] at hsetUp hresult
        cases answer with
        | error e =>
          have hi : (d.step downloadDir (.setUp i (.error e))).tasks[i]? =
              some (t.fail request) := by
            rw [hsetUp]
            exact getElem?_setTask h _
          obtain ⟨t', hi', hstage', hfailed, -⟩ := stays_of_onlyReceives hi hfail hreceives
          exact ends_given_up hi' hstage' hfailed (by rw [hresult]; rfl) told now
        | ok =>
          have hi : (d.step downloadDir (.setUp i (.ok ()))).tasks[i]? = some { t with
              stage := .receiving request associatedRequest file
                ⟨fs, offset.getD 0, progress, 0, 0, []⟩ } := by
            rw [hsetUp]
            exact getElem?_setTask h _
          obtain ⟨t', p', hi', hstage', hsame, hfailed, hname⟩ :=
            receives_interleaved hi rfl ⟨rfl, rfl, rfl, rfl⟩ hown
              (Peer.progressEvent request t.peerName associatedRequest) file
          exact ends_concluded (t := t) hi' hstage' hsame hfailed hname hresult told now

section Example

open Attempt WishList

/-- A task that is about to download a file of one byte. -/
def startingTask : RequestTask where
  publicKey := exampleKey
  peerName := "peer"
  requestStream := WishList.empty.requestsForPeer exampleKey
  closed := false
  failed := []
  succeeded := []
  stage := .starting exampleJob.requestedFile 0 exampleJob.associatedRequest

/-- The node with this task only. -/
def startingNode : Downloads := ⟨.empty, exampleFs, [], [startingTask]⟩

/-- Another peer connects while the byte is on its way. -/
def meanwhile : List Action :=
  [.receive 0 ⟨[7], 1, true, 0, 0⟩, .connect exampleKey "other", .streamEnd 0 0]

/-- The download ends as if nobody had connected. -/
theorem download_interleaved_connect :
    let result := Peer.download exampleFs exampleJob.requestedFile
      (fun _ ↦ (Except.ok ()).map fun _ ↦ ⟨[⟨[7], 1, true, 0, 0⟩], 0⟩) exampleJob.downloadDir
      "peer" 0 exampleJob.associatedRequest
    let before := finalState (step exampleJob.downloadDir)
      (startingNode.step exampleJob.downloadDir (.setUp 0 (.ok ()))) meanwhile
    let after := before.step exampleJob.downloadDir (.conclude 0 true 0)
    ∃ t', after.tasks[0]? = some t' ∧
      EndsAs 0 exampleJob.requestedFile exampleJob.associatedRequest result startingTask before
        after t' := by
  have hown : meanwhile.filter (Action.isOf 0) =
      [(⟨[7], 1, true, 0, 0⟩ : Peer.Pass)].map (Action.receive 0) ++ [.streamEnd 0 0] := rfl
  exact download_interleaved (d := startingNode) (t := startingTask) rfl rfl (.ok ()) hown true 0

end Example

end Downloads

end HarddriveParty
