import HarddriveParty.Node.RequestLoops
import Mathlib.Data.List.Perm.Lattice

/-!
# Every peer gets the answer to its own request

What is left to write of the answers is with the loops of the connections, in the queue of the
uploader or with the uploader, and each response has one owner at a time. So in every state, in
whatever order loops and uploader go on, the bytes on a stream are a beginning of the answer to
the request that came on it. When the read of a file fails, the stream is finished nevertheless,
and its reader cannot tell.
-/

namespace HarddriveParty

open Answers Runs

/-- What a read request has to be answered with. -/
def ReadRequest.job (served : Served) (readRequest : ReadRequest) : Job UInt8 :=
  ⟨readRequest.output, served.readAnswer readRequest.query⟩

/-- The response that a loop has to write or to pass on. -/
def RequestLoop.Stage.jobs (served : Served) : RequestLoop.Stage → List (Job UInt8)
  | .answering output left => [⟨output, left⟩]
  | .queueing readRequest => [readRequest.job served]
  | .accepting | .ended _ => []

/-- The response that the uploader has to write. -/
def Uploader.Stage.jobs : Uploader.Stage → List (Job UInt8)
  | .waiting => []
  | .uploading readRequest _ left buf _ _ => [⟨readRequest.output, buf ++ left⟩]
  | .refusing readRequest left => [⟨readRequest.output, left⟩]

namespace Serving

variable {served : Served} {cut : Nat → Prop} {r : Serving} {c : Nat} {loop : RequestLoop}

/-- Everything that is left to write. -/
def jobs (served : Served) (r : Serving) : List (Job UInt8) :=
  r.uploader.jobs ++ r.uploadQueue.map (ReadRequest.job served) ++
    r.loops.flatMap (·.stage.jobs served)

/-- The responses and what is left to write of them belong together, and the finished ones are
whole, apart from those that may be cut short. -/
def SoundBut (served : Served) (cut : Nat → Prop) (r : Serving) : Prop :=
  Answers.Sound served.answer cut r.responses (r.jobs served)

/-- The responses and what is left to write of them belong together. -/
def Sound (served : Served) (r : Serving) : Prop := r.SoundBut served fun _ ↦ True

/-- The step is a read of the file of this response, and it fails. -/
def ReadFails (r : Serving) (a : Action) (output : Nat) : Prop :=
  ∃ finalSpeed readRequest size left bytesRead sinceLastUiUpdate,
    a = .uploadEnd true finalSpeed ∧ readRequest.output = output ∧
      r.uploader = .uploading readRequest size left [] bytesRead sinceLastUiUpdate

theorem onLoop_of_none {run : RequestLoop → Serving} (h : r.loops[c]? = none) :
    r.onLoop c run = r := by
  rw [onLoop, h]

theorem onLoop_of_some {run : RequestLoop → Serving} (h : r.loops[c]? = some loop) :
    r.onLoop c run = run loop := by
  rw [onLoop, h]

/-- The job of one loop stands apart from those of the others. -/
private theorem jobs_set (served : Served) {loops : List RequestLoop} (h : loops[c]? = some loop) :
    ∃ rest, (loops.flatMap (·.stage.jobs served)).Perm (loop.stage.jobs served ++ rest) ∧
      ∀ stage, ((loops.set c { loop with stage := stage }).flatMap (·.stage.jobs served)).Perm
        (stage.jobs served ++ rest) := by
  obtain ⟨rest, hperm, hset⟩ := exists_perm_set h
  exact ⟨rest.flatMap (·.stage.jobs served), hperm.flatMap_right _,
    fun stage ↦ (hset _).flatMap_right _⟩

/-- The job of one loop can be taken in front, and the others stay when the loop goes on. -/
theorem jobs_setLoop (served : Served) (h : r.loops[c]? = some loop) :
    ∃ rest, (r.jobs served).Perm (loop.stage.jobs served ++ rest) ∧
      ∀ r' : Serving, r'.uploader = r.uploader → r'.uploadQueue = r.uploadQueue →
        r'.loops = r.loops → ∀ stage,
          ((r'.setLoop c { loop with stage := stage }).jobs served).Perm
            (stage.jobs served ++ rest) := by
  obtain ⟨rest, hperm, hset⟩ := jobs_set served h
  refine ⟨r.uploader.jobs ++ r.uploadQueue.map (ReadRequest.job served) ++ rest, ?_, ?_⟩
  · exact (hperm.append_left _).trans (List.perm_append_comm_assoc _ _ _)
  · intro r' huploader hqueue hloops stage
    rw [jobs, setLoop, huploader, hqueue, hloops]
    exact ((hset stage).append_left _).trans (List.perm_append_comm_assoc _ _ _)

/-! ### What one step changes -/

/-- A request that arrives gets a response and a job of its own, or is through at once. -/
theorem SoundBut.accept (h : r.SoundBut served cut) (hc : r.loops[c]? = some loop)
    (accepted : Except String Quinn.RecvStream) :
    (r.accept served c loop accepted).SoundBut served cut := by
  obtain ⟨rest, hperm, hset⟩ := jobs_setLoop served hc
  unfold Serving.accept
  split
  · next haccepting =>
    rw [haccepting] at hperm
    split
    · next err _ => exact (Answers.Sound.perm h hperm).perm (hset r rfl rfl rfl (.ended err)).symm
    · next buf _ =>
      have hstart := (Answers.Sound.perm h hperm).start (⟨c, buf⟩ : IncomingRequest)
      -- a message that needs no answer has its response finished at once
      have hthrough {responses : List (Response IncomingRequest UInt8)}
          (hsound : Answers.Sound served.answer cut responses (⟨r.responses.length, []⟩ :: rest)) :
          Answers.Sound served.answer cut
            (responses.modify r.responses.length (·.stop .finished)) (r.jobs served) :=
        (hsound.stop .finished (by decide) fun _ ↦ Or.inl rfl).perm hperm.symm
      dsimp only
      split
      · next query hquery =>
        rw [Served.answer_ls hquery] at hstart
        exact hstart.perm (hset _ rfl rfl rfl (.answering _ _)).symm
      · next query hquery =>
        rw [Served.answer_read hquery] at hstart
        exact hstart.perm (hset _ rfl rfl rfl
          (.queueing ⟨query, r.responses.length, loop.peerName⟩)).symm
      · next announce hquery =>
        rw [Served.answer_announcePeer hquery] at hstart
        exact hthrough hstart
      · next err hquery =>
        rw [Served.answer_error hquery] at hstart
        exact hthrough hstart
  · exact h

/-- A part of the answer to an index query is written. -/
theorem SoundBut.write (h : r.SoundBut served cut) (hc : r.loops[c]? = some loop) (n : Nat) :
    (r.write c loop n).SoundBut served cut := by
  obtain ⟨rest, hperm, hset⟩ := jobs_setLoop served hc
  unfold Serving.write
  split
  · next output left hanswering =>
    rw [hanswering] at hperm
    exact ((Answers.Sound.perm h hperm).write n).perm (hset _ rfl rfl rfl (.answering _ _)).symm
  · exact h

/-- The answer to an index query ends. -/
theorem SoundBut.endAnswer (h : r.SoundBut served cut) (hc : r.loops[c]? = some loop)
    (failed : Bool) :
    (r.endAnswer c loop failed).SoundBut served cut := by
  obtain ⟨rest, hperm, hset⟩ := jobs_setLoop served hc
  unfold Serving.endAnswer
  split
  · next output left hanswering =>
    rw [hanswering] at hperm
    have hfront := Answers.Sound.perm h hperm
    split
    · exact (hfront.stop .brokenOff (by decide) fun h ↦ by cases h).perm
        (hset _ rfl rfl rfl .accepting).symm
    · split
      · next hleft =>
        exact (hfront.stop .finished (by decide) fun _ ↦
          Or.inl (List.isEmpty_iff.mp hleft)).perm (hset _ rfl rfl rfl .accepting).symm
      · exact h
  · exact h

/-- A read request is passed on to the queue. -/
theorem SoundBut.send (h : r.SoundBut served cut) (hc : r.loops[c]? = some loop) :
    (r.send c loop).SoundBut served cut := by
  obtain ⟨rest, hperm, hset⟩ := jobs_set served hc
  unfold Serving.send
  split
  · next readRequest hqueueing =>
    rw [hqueueing] at hperm
    split
    · refine (Answers.Sound.perm h (hperm.append_left _)).perm ?_
      have hnext := (hset .accepting).append_left
        (r.uploader.jobs ++ (r.uploadQueue ++ [readRequest]).map (ReadRequest.job served))
      refine List.Perm.trans (List.Perm.of_eq ?_) hnext.symm
      simp [RequestLoop.Stage.jobs]
    · exact h
  · exact h

/-- The uploader takes a read request from the queue. -/
theorem SoundBut.receive (h : r.SoundBut served cut) : (r.receive served).SoundBut served cut := by
  unfold Serving.receive
  split
  · next readRequest rest hwaiting hqueue =>
    have hjobs : r.jobs served = (readRequest.job served :: rest.map (ReadRequest.job served)) ++
        r.loops.flatMap (·.stage.jobs served) := by
      rw [jobs, hwaiting, hqueue]
      rfl
    rw [SoundBut, hjobs, ReadRequest.job, Served.readAnswer] at h
    split
    · next bytes size hportion =>
      rw [hportion] at h
      exact h
    · next err hportion =>
      rw [hportion] at h
      exact h
  · exact h

/-- A block is read from the file. -/
theorem SoundBut.read (h : r.SoundBut served cut) (n elapsed speed : Nat) :
    (r.read n elapsed speed).SoundBut served cut := by
  unfold Serving.read
  split
  · next readRequest size left bytesRead sinceLastUiUpdate huploading =>
    dsimp only
    split
    · exact h
    · rw [SoundBut, jobs, huploading] at h
      rw [SoundBut, jobs]
      simp only [Uploader.Stage.jobs, List.take_append_drop]
      exact h
  · exact h

/-- A part of what the uploader has to write is written. -/
theorem SoundBut.upload (h : r.SoundBut served cut) (n : Nat) :
    (r.upload n).SoundBut served cut := by
  unfold Serving.upload
  split
  · next readRequest size left buf bytesRead sinceLastUiUpdate huploading =>
    rw [SoundBut, jobs, huploading] at h
    have hwrite := Answers.Sound.write h (min n buf.length)
    rw [List.take_append_of_le_length (Nat.min_le_right _ _),
      List.drop_append_of_le_length (Nat.min_le_right _ _)] at hwrite
    have htake : buf.take (min n buf.length) = buf.take n := by
      rw [List.take_eq_take_iff, Nat.min_assoc, Nat.min_self]
    have hdrop : buf.drop (min n buf.length) = buf.drop n := by
      rcases Nat.le_total n buf.length with hle | hle
      · rw [Nat.min_eq_left hle]
      · rw [Nat.min_eq_right hle, List.drop_length, List.drop_eq_nil_of_le hle]
    rw [htake, hdrop] at hwrite
    exact hwrite
  · next readRequest left hrefusing =>
    rw [SoundBut, jobs, hrefusing] at h
    exact Answers.Sound.write h n
  · exact h

/-- The uploader gives up a response. -/
theorem SoundBut.uploadError (h : r.SoundBut served cut) : r.uploadError.SoundBut served cut := by
  unfold Serving.uploadError
  split
  · next readRequest size left b buf bytesRead sinceLastUiUpdate huploading =>
    rw [SoundBut, jobs, huploading] at h
    exact Answers.Sound.stop h .brokenOff (by decide) fun h ↦ by cases h
  · next readRequest b left hrefusing =>
    rw [SoundBut, jobs, hrefusing] at h
    exact Answers.Sound.stop h .brokenOff (by decide) fun h ↦ by cases h
  · exact h

/-- The uploader comes to the end of a response, or gets no further with its file. -/
theorem SoundBut.uploadEnd (h : r.SoundBut served cut) {failed : Bool} {finalSpeed : Nat}
    (hcut : ∀ output, r.ReadFails (.uploadEnd failed finalSpeed) output → cut output) :
    (r.uploadEnd failed finalSpeed).SoundBut served cut := by
  unfold Serving.uploadEnd
  split
  · next readRequest size left bytesRead sinceLastUiUpdate huploading =>
    rw [SoundBut, jobs, huploading] at h
    split
    · next hends =>
      refine Answers.Sound.stop h .finished (by decide) fun _ ↦ ?_
      rw [Bool.or_eq_true] at hends
      refine hends.imp (fun hleft ↦ List.isEmpty_iff.mp hleft) fun hfailed ↦ ?_
      exact hcut _ ⟨_, _, _, _, _, _, by rw [hfailed], rfl, huploading⟩
    · next hgoes => rw [SoundBut, jobs, huploading]; exact h
  · next readRequest hrefusing =>
    rw [SoundBut, jobs, hrefusing] at h
    exact Answers.Sound.stop h .finished (by decide) fun _ ↦ Or.inl rfl
  · exact h

/-- Whatever happens next, responses and jobs belong together. -/
theorem SoundBut.step (h : r.SoundBut served cut) (a : Action)
    (hcut : ∀ output, r.ReadFails a output → cut output) :
    (r.step served a).SoundBut served cut := by
  have onLoop (c : Nat) (run : RequestLoop → Serving)
      (hrun : ∀ loop, r.loops[c]? = some loop → (run loop).SoundBut served cut) :
      (r.onLoop c run).SoundBut served cut := by
    cases hc : r.loops[c]? with
    | none =>
      rw [onLoop_of_none hc]
      exact h
    | some loop =>
      rw [onLoop_of_some hc]
      exact hrun loop hc
  cases a with
  | connect peerName =>
    have hjobs : (r.step served (.connect peerName)).jobs served = r.jobs served := by
      simp [jobs, Serving.step, RequestLoop.Stage.jobs]
    rw [SoundBut, hjobs]
    exact h
  | accept c accepted => exact onLoop c _ fun _ hc ↦ h.accept hc accepted
  | write c n => exact onLoop c _ fun _ hc ↦ h.write hc n
  | endAnswer c failed => exact onLoop c _ fun _ hc ↦ h.endAnswer hc failed
  | send c => exact onLoop c _ fun _ hc ↦ h.send hc
  | receive => exact h.receive
  | read n elapsed speed => exact h.read n elapsed speed
  | upload n => exact h.upload n
  | uploadError => exact h.uploadError
  | uploadEnd failed finalSpeed => exact h.uploadEnd hcut

theorem Sound.step (h : r.Sound served) (a : Action) : (r.step served a).Sound served :=
  SoundBut.step h a fun _ _ ↦ trivial

theorem sound_start (served : Served) : start.Sound served := Answers.sound_nil

/-- Responses and jobs belong together in every state of every run. -/
theorem eachState_sound (served : Served) (as : List Action) :
    EachState (step served) (Sound served) start as :=
  eachState_of_invariant (A := fun _ _ ↦ True) (sound_start served)
    (eachStep_of_forall fun _ _ ↦ trivial) fun _ a hsound _ ↦ hsound.step a

/-- At the end of every run, so in every state of every run, each response is a beginning of the
answer to its own request. It is all of it once it is finished, unless a read of its file failed
in the run. A response that is still written is held by exactly one loop, by the queue or by the
uploader. -/
theorem responses_own (served : Served) (as : List Action) :
    let r := finalState (step served) start as
    (∀ output response, r.responses[output]? = some response →
      response.written <+: served.answer response.request ∧
      (response.progress = .finished → response.written = served.answer response.request ∨
        ∃ s ∈ trace (step served) start as, s.1.ReadFails s.2 output) ∧
      (response.progress = .writing ↔ output ∈ (r.jobs served).map Job.output)) ∧
    ((r.jobs served).map Job.output).Nodup := by
  intro r
  have hfree : EachStep (step served) (fun _ _ ↦ True) start as :=
    eachStep_of_forall fun _ _ ↦ trivial
  -- the responses that may be cut short are those of which a read failed so far
  have hstart : start.SoundBut served fun output ↦
      ∃ s ∈ ([] : List (Serving × Action)), s.1.ReadFails s.2 output := Answers.sound_nil
  have h := finalState_trace (H := fun r done ↦ r.SoundBut served fun output ↦
      ∃ s ∈ done, s.1.ReadFails s.2 output) hstart hfree fun r a done h _ ↦ by
    refine SoundBut.step (Answers.Sound.mono h fun output hcut ↦ ?_) a fun output hfails ↦ ?_
    · obtain ⟨s, hs, hfails⟩ := hcut
      exact ⟨s, List.mem_append_left _ hs, hfails⟩
    · exact ⟨(r, a), List.mem_append_right _ (List.mem_singleton.mpr rfl), hfails⟩
  rw [List.nil_append] at h
  refine ⟨fun output response hresponse ↦ ?_, h.nodup⟩
  obtain ⟨hwritten, hfinished⟩ := h.stopped output response hresponse
  refine ⟨hwritten, hfinished, h.owned output response hresponse, fun hmem ↦ ?_⟩
  obtain ⟨j, hj, rfl⟩ := List.mem_map.mp hmem
  obtain ⟨response', hresponse', hwriting, -⟩ := h.job j hj
  obtain rfl := Option.some.inj (hresponse.symm.trans hresponse')
  exact hwriting

/-! ### Every answer comes to its end -/

/-- The step is one of the node itself: no peer connects and no request arrives. -/
def Action.isOwn : Action → Bool
  | .connect _ | .accept _ _ => false
  | _ => true

/-- Something cannot be written or read. -/
def Action.fails : Action → Bool
  | .endAnswer _ failed | .uploadEnd failed _ => failed
  | .uploadError => true
  | _ => false

/-- What a step does to the responses: a new one is added, or one is written on or stopped. -/
inductive ResponsesStep (responses : List (Response IncomingRequest UInt8)) (fails : Bool) :
    List (Response IncomingRequest UInt8) → Prop where
  | keep : ResponsesStep responses fails responses
  | start (request : IncomingRequest) :
      ResponsesStep responses fails (responses ++ [Response.start request])
  | through (request : IncomingRequest) :
      ResponsesStep responses fails
        ((responses ++ [Response.start request]).modify responses.length (·.stop .finished))
  | write (output : Nat) (block : Bytes) :
      ResponsesStep responses fails (responses.modify output (·.write block))
  | stop (output : Nat) (progress : Progress)
      (h : progress = .finished ∨ progress = .brokenOff ∧ fails = true) :
      ResponsesStep responses fails (responses.modify output (·.stop progress))

theorem responses_step (served : Served) (r : Serving) (a : Action) :
    ResponsesStep r.responses a.fails (r.step served a).responses := by
  have onLoop (c : Nat) (run : RequestLoop → Serving)
      (hrun : ∀ loop, ResponsesStep r.responses a.fails (run loop).responses) :
      ResponsesStep r.responses a.fails (r.onLoop c run).responses := by
    unfold Serving.onLoop
    split
    · exact hrun _
    · exact .keep
  cases a with
  | connect peerName => exact .keep
  | accept c accepted =>
    refine onLoop c _ fun loop ↦ ?_
    unfold Serving.accept
    split
    · split
      · exact .keep
      · dsimp only
        split
        · exact .start _
        · exact .start _
        · exact .through _
        · exact .through _
    · exact .keep
  | write c n =>
    refine onLoop c _ fun loop ↦ ?_
    unfold Serving.write
    split
    · exact .write _ _
    · exact .keep
  | endAnswer c failed =>
    refine onLoop c _ fun loop ↦ ?_
    unfold Serving.endAnswer
    split
    · split
      · next hfailed => exact .stop _ _ (Or.inr ⟨rfl, hfailed⟩)
      · split
        · exact .stop _ _ (Or.inl rfl)
        · exact .keep
    · exact .keep
  | send c =>
    refine onLoop c _ fun loop ↦ ?_
    unfold Serving.send
    split
    · split <;> exact .keep
    · exact .keep
  | receive =>
    rw [Serving.step, Serving.receive]
    split
    · split <;> exact .keep
    · exact .keep
  | read n elapsed speed =>
    rw [Serving.step, Serving.read]
    split
    · dsimp only
      split <;> exact .keep
    · exact .keep
  | upload n =>
    rw [Serving.step, Serving.upload]
    split
    · exact .write _ _
    · exact .write _ _
    · exact .keep
  | uploadError =>
    rw [Serving.step, Serving.uploadError]
    split
    · exact .stop _ _ (Or.inr ⟨rfl, rfl⟩)
    · exact .stop _ _ (Or.inr ⟨rfl, rfl⟩)
    · exact .keep
  | uploadEnd failed finalSpeed =>
    rw [Serving.step, Serving.uploadEnd]
    split
    · split
      · exact .stop _ _ (Or.inl rfl)
      · exact .keep
    · exact .stop _ _ (Or.inl rfl)
    · exact .keep

/-- A step keeps the request of a response and what was written; unless something fails it breaks
off no response. -/
theorem ResponsesStep.response {responses responses' : List (Response IncomingRequest UInt8)}
    {fails : Bool} (h : ResponsesStep responses fails responses') {output : Nat}
    {response : Response IncomingRequest UInt8} (hresponse : responses[output]? = some response) :
    ∃ response', responses'[output]? = some response' ∧ response'.request = response.request ∧
      response.written <+: response'.written ∧
      (fails = false → response'.progress = .brokenOff → response.progress = .brokenOff) := by
  have hlt := (List.getElem?_eq_some_iff.mp hresponse).1
  have hsame : ∃ response', responses[output]? = some response' ∧
      response'.request = response.request ∧ response.written <+: response'.written ∧
      (fails = false → response'.progress = .brokenOff → response.progress = .brokenOff) :=
    ⟨response, hresponse, rfl, List.prefix_rfl, fun _ ↦ id⟩
  have hmodify (i : Nat) (f : Response IncomingRequest UInt8 → Response IncomingRequest UInt8)
      (hf : (f response).request = response.request ∧ response.written <+: (f response).written ∧
        (fails = false → (f response).progress = .brokenOff → response.progress = .brokenOff)) :
      ∃ response', (responses.modify i f)[output]? = some response' ∧
        response'.request = response.request ∧ response.written <+: response'.written ∧
        (fails = false → response'.progress = .brokenOff → response.progress = .brokenOff) := by
    by_cases hi : i = output
    · subst hi
      exact ⟨f response, by rw [List.getElem?_modify_eq, hresponse]; rfl, hf⟩
    · rw [List.getElem?_modify_ne _ _ hi]
      exact hsame
  cases h with
  | keep => exact hsame
  | start request =>
    rw [List.getElem?_append_left hlt]
    exact hsame
  | through request =>
    rw [List.getElem?_modify_ne _ _ (Nat.ne_of_gt hlt), List.getElem?_append_left hlt]
    exact hsame
  | write i block => exact hmodify i _ ⟨rfl, List.prefix_append _ _, fun _ ↦ id⟩
  | stop i progress hprogress =>
    refine hmodify i _ ⟨rfl, List.prefix_rfl, fun hfails hbroken ↦ ?_⟩
    rcases hprogress with rfl | ⟨-, hfailed⟩
    · cases hbroken
    · rw [hfails] at hfailed
      cases hfailed

end Serving

end HarddriveParty
