import HarddriveParty.Node.AnswersEnd
import HarddriveParty.Node.UploadOrder

/-!
# An upload that stalls

There is one uploader for all connections, and nothing limits how long a stream may take to accept
what it has to write. While one upload stalls, no read request of any peer is answered, and only so
many more of them are accepted: those for which there is room in the queue, and one for each
connection, which then accepts nothing more, not even an index query. On the other hand the number
of requests that are not answered yet is bounded.
-/

namespace HarddriveParty

open Answers Runs

namespace Serving

variable {served : Served} {r r' r'' : Serving} {c : Nat} {loop : RequestLoop} {a : Action}

/-! ### Requests that are not answered yet -/

/-- The queue of the uploader never holds more than it may. -/
theorem length_uploadQueue_step (h : r.uploadQueue.length ≤ uploadQueueSize) (a : Action) :
    (r.step served a).uploadQueue.length ≤ uploadQueueSize := by
  have onLoop (c : Nat) (run : RequestLoop → Serving)
      (hrun : ∀ loop, (run loop).uploadQueue.length ≤ uploadQueueSize) :
      (r.onLoop c run).uploadQueue.length ≤ uploadQueueSize := by
    unfold Serving.onLoop
    split
    · exact hrun _
    · exact h
  cases a with
  | connect peerName => exact h
  | accept c accepted =>
    refine onLoop c _ fun loop ↦ ?_
    unfold Serving.accept
    split
    · split
      · exact h
      · dsimp only
        split <;> exact h
    · exact h
  | write c n =>
    refine onLoop c _ fun loop ↦ ?_
    unfold Serving.write
    split <;> exact h
  | endAnswer c failed =>
    refine onLoop c _ fun loop ↦ ?_
    unfold Serving.endAnswer
    split
    · split
      · exact h
      · split <;> exact h
    · exact h
  | send c =>
    refine onLoop c _ fun loop ↦ ?_
    unfold Serving.send
    split
    · split
      · next hroom =>
        rw [setLoop, List.length_append, List.length_singleton]
        exact hroom
      · exact h
    · exact h
  | receive =>
    rw [Serving.step, Serving.receive]
    split
    · next hqueue =>
      rw [hqueue, List.length_cons] at h
      split <;> exact Nat.le_of_succ_le h
    · exact h
  | read n elapsed speed =>
    rw [Serving.step, Serving.read]
    split
    · dsimp only
      split <;> exact h
    · exact h
  | upload n =>
    rw [Serving.step, Serving.upload]
    split <;> exact h
  | uploadError =>
    rw [Serving.step, Serving.uploadError]
    split <;> exact h
  | uploadEnd failed finalSpeed =>
    rw [Serving.step, Serving.uploadEnd]
    split
    · split <;> exact h
    · exact h
    · exact h

/-- The responses that are still written. -/
def unanswered (r : Serving) : Nat :=
  r.responses.countP fun response ↦ response.progress == .writing

/-- There is a job for each response that is still written. -/
theorem Sound.unanswered_le (h : r.Sound served) : r.unanswered ≤ (r.jobs served).length := by
  have hsubset : (r.responses.findIdxs fun response ↦ response.progress == .writing) ⊆
      (r.jobs served).map Job.output := fun output houtput ↦ by
    obtain ⟨hlt, hwriting⟩ := List.mem_findIdxs_iff_exists_getElem_pos.mp houtput
    exact h.owned output _ (List.getElem?_eq_getElem hlt) (beq_iff_eq.mp hwriting)
  have hle := (List.subperm_of_subset List.nodup_findIdxs hsubset).length_le
  rwa [List.length_findIdxs, List.length_map] at hle

private theorem length_jobs_le (served : Served) (r : Serving) :
    (r.jobs served).length ≤ r.uploadQueue.length + r.loops.length + 1 := by
  have huploader : r.uploader.jobs.length ≤ 1 := by
    cases r.uploader <;> simp [Uploader.Stage.jobs]
  have hloops : (r.loops.flatMap (·.stage.jobs served)).length ≤ r.loops.length := by
    rw [List.length_flatMap]
    refine (List.sum_le_card_nsmul _ 1 fun n hn ↦ ?_).trans (by simp)
    obtain ⟨loop, -, rfl⟩ := List.mem_map.mp hn
    cases loop.stage <;> simp [RequestLoop.Stage.jobs]
  rw [jobs, List.length_append, List.length_append, List.length_map]
  omega

/-- In every state of every run the number of requests that were accepted and not answered is
bounded by the number of connections and the size of the queue. -/
theorem unanswered_bounded (served : Served) (as : List Action) :
    EachState (step served) (fun r ↦ r.unanswered ≤ uploadQueueSize + r.loops.length + 1)
      start as := by
  have hall : EachState (step served) (fun r ↦ r.Sound served ∧
      r.uploadQueue.length ≤ uploadQueueSize) start as :=
    eachState_of_invariant (A := fun _ _ ↦ True) ⟨sound_start served, Nat.zero_le _⟩
      (eachStep_of_forall fun _ _ ↦ trivial)
      fun _ a h _ ↦ ⟨h.1.step a, length_uploadQueue_step h.2 a⟩
  refine hall.mono fun r h ↦ ?_
  have hle := h.1.unanswered_le.trans (length_jobs_le served r)
  have hqueue := h.2
  omega

/-! ### While an upload stalls -/

/-- The step is one of the uploader. -/
def Action.isUploader : Action → Bool
  | .receive | .read .. | .upload _ | .uploadError | .uploadEnd .. => true
  | _ => false

/-- The read requests that were accepted. -/
def readCount (served : Served) (r : Serving) : Nat := r.requests.countP served.isRead

/-- The read requests that the uploader has not taken. -/
def backlog (r : Serving) : Nat :=
  r.uploadQueue.length + r.loops.countP fun loop ↦ loop.stage.queueing?.isSome

/-- Nothing was written for a read request, and each one that was accepted is in the backlog. -/
structure Stalls (served : Served) (r r' : Serving) : Prop where
  reads : ∀ output response', r'.responses[output]? = some response' →
    served.isRead response'.request = true →
      r.responses[output]? = some response' ∨
        r.responses.length ≤ output ∧ response' = .start response'.request
  length : r.responses.length ≤ r'.responses.length
  count : r'.readCount served + r.backlog = r.readCount served + r'.backlog

theorem Stalls.refl (served : Served) (r : Serving) : r.Stalls served r :=
  ⟨fun _ _ h _ ↦ Or.inl h, Nat.le_refl _, rfl⟩

theorem Stalls.trans (h : r.Stalls served r') (h' : r'.Stalls served r'') :
    r.Stalls served r'' where
  reads output response'' hresponse hread := by
    rcases h'.reads output response'' hresponse hread with hmid | ⟨hle, hstart⟩
    · exact h.reads output response'' hmid hread
    · exact Or.inr ⟨h.length.trans hle, hstart⟩
  length := h.length.trans h'.length
  count := by
    have hcount := h.count
    have hcount' := h'.count
    omega

/-- The backlog changes with the loop that goes on. -/
private theorem backlog_setLoop (h : r.loops[c]? = some loop) (stage : RequestLoop.Stage) :
    (r.setLoop c { loop with stage := stage }).backlog +
        (if loop.stage.queueing?.isSome then 1 else 0) =
      r.backlog + if stage.queueing?.isSome then 1 else 0 := by
  obtain ⟨rest, hperm, hset⟩ := exists_perm_set h
  rw [backlog, backlog, setLoop, (hset _).countP_eq, hperm.countP_eq, List.countP_cons,
    List.countP_cons]
  dsimp only
  omega

/-- The response to an index query changes, and the loop that answers it goes on. -/
private theorem InLine.stalls_goOn (h : r.InLine served) (hc : r.loops[c]? = some loop)
    {output : Nat} {left : Bytes} (hanswering : loop.stage = .answering output left)
    {f : Response IncomingRequest UInt8 → Response IncomingRequest UInt8}
    (hf : ∀ response, (f response).request = response.request) {stage : RequestLoop.Stage}
    (hstage : stage = .accepting ∨ ∃ left', stage = .answering output left') :
    r.Stalls served ((r.setResponse output f).setLoop c { loop with stage := stage }) where
  reads i response' hresponse hread := by
    left
    rw [setLoop, setResponse, List.getElem?_modify] at hresponse
    obtain ⟨response, hi, rfl⟩ := Option.map_eq_some_iff.mp hresponse
    split at hread
    · next heq =>
      subst heq
      obtain ⟨⟨request, hrequest, -, hother⟩, -⟩ := h.answering c loop output left hc hanswering
      rw [requests, List.getElem?_map, hi, Option.map_some] at hrequest
      obtain rfl := Option.some.inj hrequest
      rw [hf, hother] at hread
      cases hread
    · next hne =>
      rw [if_neg hne]
      exact hi
  length := by simp [setLoop, setResponse]
  count := by
    have hbacklog := backlog_setLoop (r := r.setResponse output f) hc stage
    have hsame : (r.setResponse output f).backlog = r.backlog := rfl
    have hreads : ((r.setResponse output f).setLoop c { loop with stage := stage }).readCount
        served = r.readCount served := by
      rw [readCount, readCount]
      exact congrArg _ (requests_setResponse r output hf)
    rw [hanswering, hsame] at hbacklog
    rw [hreads]
    rcases hstage with rfl | ⟨left', rfl⟩
    · exact congrArg _ hbacklog.symm
    · exact congrArg _ hbacklog.symm

/-- A request arrives: a read request joins the backlog. -/
private theorem stalls_accept (hc : r.loops[c]? = some loop)
    (accepted : Except String Quinn.RecvStream) :
    r.Stalls served (r.accept served c loop accepted) := by
  unfold Serving.accept
  split
  · next haccepting =>
    have hbacklog (responses : List (Response IncomingRequest UInt8))
        (stage : RequestLoop.Stage) :
        (({ r with responses := responses } : Serving).setLoop c
          { loop with stage := stage }).backlog =
            r.backlog + if stage.queueing?.isSome then 1 else 0 := by
      have h := backlog_setLoop (r := { r with responses := responses }) hc stage
      rw [haccepting] at h
      exact h
    split
    · next err _ =>
      refine ⟨fun _ _ h _ ↦ Or.inl h, Nat.le_refl _, ?_⟩
      exact congrArg _ (hbacklog r.responses (.ended err)).symm
    · next buf _ =>
      have hreads (i : Nat) (response' : Response IncomingRequest UInt8)
          (h : (r.responses ++ [Response.start ⟨c, buf⟩])[i]? = some response') :
          r.responses[i]? = some response' ∨
            r.responses.length ≤ i ∧ response' = .start response'.request := by
        by_cases hlt : i < r.responses.length
        · rw [List.getElem?_append_left hlt] at h
          exact Or.inl h
        · rw [List.getElem?_append_right (Nat.not_lt.mp hlt)] at h
          obtain rfl := List.mem_singleton.mp (List.mem_of_getElem? h)
          exact Or.inr ⟨Nat.not_lt.mp hlt, rfl⟩
      have hlength : r.responses.length ≤
          (r.responses ++ [Response.start (⟨c, buf⟩ : IncomingRequest)]).length := by
        rw [List.length_append]
        exact Nat.le_add_right _ _
      have hcount :
          (r.responses ++ [Response.start (⟨c, buf⟩ : IncomingRequest)]).map Response.request =
            r.requests ++ [(⟨c, buf⟩ : IncomingRequest)] := by
        rw [List.map_append]
        rfl
      have hreadCount : (r.requests ++ [(⟨c, buf⟩ : IncomingRequest)]).countP served.isRead =
          r.readCount served + if served.isRead (⟨c, buf⟩ : IncomingRequest) then 1 else 0 := by
        rw [List.countP_append, List.countP_singleton]
        rfl
      -- a message that needs no answer
      have hthrough (hother : served.isRead ⟨c, buf⟩ = false) :
          r.Stalls served (({ r with responses := r.responses ++ [Response.start ⟨c, buf⟩] } :
            Serving).setResponse r.responses.length (·.stop .finished)) := by
        refine ⟨fun i response' hresponse hread ↦ ?_, ?_, ?_⟩
        · rw [setResponse, List.getElem?_modify] at hresponse
          obtain ⟨response, hi, rfl⟩ := Option.map_eq_some_iff.mp hresponse
          split at hread
          · next heq =>
            rw [← heq, List.getElem?_append_right (Nat.le_refl _), Nat.sub_self] at hi
            obtain rfl := Option.some.inj hi
            exact absurd (hother.symm.trans hread) (by decide)
          · next hne =>
            rw [if_neg hne]
            exact hreads i response hi
        · rw [setResponse, List.length_modify]
          exact hlength
        · rw [readCount, requests_setResponse _ _ (·.request_stop _), requests, hcount,
            hreadCount, hother]
          rfl
      dsimp only
      split
      · next query hquery =>
        refine ⟨fun i response' h _ ↦ hreads i response' h, hlength, ?_⟩
        rw [hbacklog, readCount, setLoop, requests, hcount, hreadCount, Served.isRead_ls hquery]
        rfl
      · next query hquery =>
        refine ⟨fun i response' h _ ↦ hreads i response' h, hlength, ?_⟩
        rw [hbacklog, readCount, setLoop, requests, hcount, hreadCount, Served.isRead_read hquery]
        simp only [RequestLoop.Stage.queueing?, Option.isSome_some, if_true]
        omega
      · next announce hquery => exact hthrough (Served.isRead_announcePeer hquery)
      · next err hquery => exact hthrough (Served.isRead_error hquery)
  · exact Stalls.refl served r

/-- A step that is not one of the uploader answers no read request. -/
theorem InLine.stalls_step (h : r.InLine served) (ha : a.isUploader = false) :
    r.Stalls served (r.step served a) := by
  have onLoop (c : Nat) (run : RequestLoop → Serving)
      (hrun : ∀ loop, r.loops[c]? = some loop → r.Stalls served (run loop)) :
      r.Stalls served (r.onLoop c run) := by
    cases hc : r.loops[c]? with
    | none =>
      rw [onLoop_of_none hc]
      exact Stalls.refl served r
    | some loop =>
      rw [onLoop_of_some hc]
      exact hrun loop hc
  cases a with
  | connect peerName =>
    refine ⟨fun _ _ h _ ↦ Or.inl h, Nat.le_refl _, ?_⟩
    simp [Serving.step, readCount, backlog, requests, RequestLoop.Stage.queueing?]
  | accept c accepted => exact onLoop c _ fun loop hc ↦ stalls_accept hc accepted
  | write c n =>
    refine onLoop c _ fun loop hc ↦ ?_
    unfold Serving.write
    split
    · next output left hanswering =>
      exact h.stalls_goOn hc hanswering (·.request_write _) (Or.inr ⟨_, rfl⟩)
    · exact Stalls.refl served r
  | endAnswer c failed =>
    refine onLoop c _ fun loop hc ↦ ?_
    unfold Serving.endAnswer
    split
    · next output left hanswering =>
      split
      · exact h.stalls_goOn hc hanswering (·.request_stop _) (Or.inl rfl)
      · split
        · exact h.stalls_goOn hc hanswering (·.request_stop _) (Or.inl rfl)
        · exact Stalls.refl served r
    · exact Stalls.refl served r
  | send c =>
    refine onLoop c _ fun loop hc ↦ ?_
    unfold Serving.send
    split
    · next readRequest hqueueing =>
      split
      · refine ⟨fun _ _ h _ ↦ Or.inl h, Nat.le_refl _, ?_⟩
        have hbacklog := backlog_setLoop
          (r := { r with uploadQueue := r.uploadQueue ++ [readRequest] }) hc .accepting
        have hqueue : ({ r with uploadQueue := r.uploadQueue ++ [readRequest] } : Serving).backlog =
            r.backlog + 1 := by
          rw [backlog, backlog, List.length_append, List.length_singleton, Nat.add_right_comm]
        rw [hqueueing, hqueue] at hbacklog
        exact congrArg _ (Nat.add_right_cancel hbacklog).symm
      · exact Stalls.refl served r
    · exact Stalls.refl served r
  | receive | read | upload | uploadError | uploadEnd => cases ha

/-- The queue is full, and the loop of the connection waits for room in it. -/
structure WaitsForRoom (c : Nat) (r : Serving) : Prop where
  full : r.uploadQueue.length = uploadQueueSize
  queueing : (r.queueingAt c).isSome = true

/-- A loop that accepts requests, or answers one, is not the one that waits. -/
private theorem WaitsForRoom.other (h : r.WaitsForRoom c) {i : Nat} (hi : r.loops[i]? = some loop)
    (hstage : loop.stage.queueing? = none) : c ≠ i := by
  rintro rfl
  have hqueueing := h.queueing
  rw [queueingAt, hi, Option.bind_some, hstage] at hqueueing
  cases hqueueing

/-- Another loop goes on. -/
private theorem WaitsForRoom.setLoop (h : r.WaitsForRoom c) {i : Nat}
    (hi : r.loops[i]? = some loop) (hstage : loop.stage.queueing? = none)
    (responses : List (Response IncomingRequest UInt8)) (loop' : RequestLoop) :
    (({ r with responses := responses } : Serving).setLoop i loop').WaitsForRoom c := by
  refine ⟨h.full, ?_⟩
  rw [queueingAt_setLoop (r := { r with responses := responses }) hi, if_neg (h.other hi hstage)]
  exact h.queueing

/-- Without the uploader the loop goes on waiting, and its connection accepts nothing. -/
theorem WaitsForRoom.step (h : r.WaitsForRoom c) (served : Served) (ha : a.isUploader = false) :
    (r.step served a).WaitsForRoom c ∧
      ∀ (output : Nat) (response : Response IncomingRequest UInt8), r.responses.length ≤ output →
        (r.step served a).responses[output]? = some response → response.request.connection ≠ c := by
  have hnone {responses : List (Response IncomingRequest UInt8)}
      (hlength : responses.length = r.responses.length) {output : Nat}
      {response : Response IncomingRequest UInt8} (hle : r.responses.length ≤ output)
      (hresponse : responses[output]? = some response) : response.request.connection ≠ c := by
    rw [List.getElem?_eq_none (by omega)] at hresponse
    cases hresponse
  have same : r.WaitsForRoom c ∧ ∀ (output : Nat) (response : Response IncomingRequest UInt8),
      r.responses.length ≤ output → r.responses[output]? = some response →
        response.request.connection ≠ c := ⟨h, fun _ _ ↦ hnone rfl⟩
  have onLoop (i : Nat) (run : RequestLoop → Serving)
      (hrun : ∀ loop, r.loops[i]? = some loop → (run loop).WaitsForRoom c ∧
        ∀ (output : Nat) (response : Response IncomingRequest UInt8),
          r.responses.length ≤ output → (run loop).responses[output]? = some response →
            response.request.connection ≠ c) :
      (r.onLoop i run).WaitsForRoom c ∧
        ∀ (output : Nat) (response : Response IncomingRequest UInt8),
          r.responses.length ≤ output → (r.onLoop i run).responses[output]? = some response →
            response.request.connection ≠ c := by
    cases hi : r.loops[i]? with
    | none =>
      rw [onLoop_of_none hi]
      exact same
    | some loop =>
      rw [onLoop_of_some hi]
      exact hrun loop hi
  cases a with
  | connect peerName =>
    refine ⟨⟨h.full, ?_⟩, fun _ _ ↦ hnone rfl⟩
    have hqueueing := h.queueing
    rw [queueingAt] at hqueueing
    cases hc : r.loops[c]? with
    | none =>
      rw [hc] at hqueueing
      cases hqueueing
    | some loop =>
      rw [hc] at hqueueing
      rw [queueingAt, Serving.step,
        List.getElem?_append_left (List.getElem?_eq_some_iff.mp hc).1, hc]
      exact hqueueing
  | accept i accepted =>
    refine onLoop i _ fun loop hi ↦ ?_
    unfold Serving.accept
    split
    · next haccepting =>
      have hstage : loop.stage.queueing? = none := by rw [haccepting]; rfl
      have hne := h.other hi hstage
      split
      · exact ⟨h.setLoop hi hstage _ _, fun _ _ ↦ hnone rfl⟩
      · next buf _ =>
        have hnew (output : Nat) (response : Response IncomingRequest UInt8)
            (hle : r.responses.length ≤ output)
            (hresponse : (r.responses ++
              [Response.start (⟨i, buf⟩ : IncomingRequest)])[output]? = some response) :
            response.request.connection ≠ c := by
          rw [List.getElem?_append_right hle] at hresponse
          obtain rfl := List.mem_singleton.mp (List.mem_of_getElem? hresponse)
          exact Ne.symm hne
        have hthrough (output : Nat) (response : Response IncomingRequest UInt8)
            (hle : r.responses.length ≤ output)
            (hresponse : ((r.responses ++ [Response.start (⟨i, buf⟩ : IncomingRequest)]).modify
              r.responses.length (·.stop .finished))[output]? = some response) :
            response.request.connection ≠ c := by
          rw [List.getElem?_modify] at hresponse
          obtain ⟨response₁, h₁, rfl⟩ := Option.map_eq_some_iff.mp hresponse
          have hconnection := hnew output response₁ hle h₁
          split
          · exact hconnection
          · exact hconnection
        dsimp only
        split
        · exact ⟨h.setLoop hi hstage _ _, hnew⟩
        · exact ⟨h.setLoop hi hstage _ _, hnew⟩
        · exact ⟨⟨h.full, h.queueing⟩, hthrough⟩
        · exact ⟨⟨h.full, h.queueing⟩, hthrough⟩
    · exact same
  | write i n =>
    refine onLoop i _ fun loop hi ↦ ?_
    unfold Serving.write
    split
    · next hanswering =>
      exact ⟨h.setLoop hi (by rw [hanswering]; rfl) _ _,
        fun _ _ ↦ hnone (List.length_modify _ _ _)⟩
    · exact same
  | endAnswer i failed =>
    refine onLoop i _ fun loop hi ↦ ?_
    unfold Serving.endAnswer
    split
    · next hanswering =>
      have hstage : loop.stage.queueing? = none := by rw [hanswering]; rfl
      split
      · exact ⟨h.setLoop hi hstage _ _, fun _ _ ↦ hnone (List.length_modify _ _ _)⟩
      · split
        · exact ⟨h.setLoop hi hstage _ _, fun _ _ ↦ hnone (List.length_modify _ _ _)⟩
        · exact same
    · exact same
  | send i =>
    refine onLoop i _ fun loop hi ↦ ?_
    unfold Serving.send
    split
    · rw [if_neg (by rw [h.full]; exact Nat.lt_irrefl _)]
      exact same
    · exact same
  | receive | read | upload | uploadError | uploadEnd => cases ha

/-- As long as the uploader does not go on, nothing is written for any read request of any peer;
no more of them are accepted than there is room for in the queue and, one each, at the loops; and
a connection whose loop waits for room in the full queue accepts no request at all. -/
theorem stalled_upload (served : Served) (before after : List Action)
    (hstalled : ∀ a ∈ after, a.isUploader = false) :
    (∀ (output : Nat) (response : Response IncomingRequest UInt8),
      (finalState (step served) start (before ++ after)).responses[output]? = some response →
      served.isRead response.request = true →
        (finalState (step served) start before).responses[output]? = some response ∨
          (finalState (step served) start before).responses.length ≤ output ∧
            response = .start response.request) ∧
    (finalState (step served) start (before ++ after)).readCount served +
        (finalState (step served) start before).uploadQueue.length ≤
      (finalState (step served) start before).readCount served + uploadQueueSize +
        (finalState (step served) start (before ++ after)).loops.length ∧
    ∀ c, (finalState (step served) start before).WaitsForRoom c →
      ∀ (output : Nat) (response : Response IncomingRequest UInt8),
        (finalState (step served) start before).responses.length ≤ output →
        (finalState (step served) start (before ++ after)).responses[output]? = some response →
          response.request.connection ≠ c := by
  have hbefore : EachState (step served) (fun r ↦ (r.Sound served ∧ r.InLine served) ∧
      r.uploadQueue.length ≤ uploadQueueSize) start before :=
    eachState_of_invariant (A := fun _ _ ↦ True)
      ⟨(eachState_inLine served []).final, Nat.zero_le _⟩ (eachStep_of_forall fun _ _ ↦ trivial)
      fun _ a h _ ↦ ⟨⟨h.1.1.step a, h.1.2.step h.1.1 a⟩, length_uploadQueue_step h.2 a⟩
  have hfrom := hbefore.final
  rw [finalState_append]
  generalize finalState (step served) start before = r at hfrom ⊢
  -- what the steps without the uploader keep
  have hall : EachState (step served) (fun r' ↦ ((r'.Sound served ∧ r'.InLine served) ∧
      r'.uploadQueue.length ≤ uploadQueueSize) ∧ r.Stalls served r' ∧
      ∀ c, r.WaitsForRoom c → r'.WaitsForRoom c ∧
        ∀ (output : Nat) (response : Response IncomingRequest UInt8),
          r.responses.length ≤ output → r'.responses[output]? = some response →
            response.request.connection ≠ c) r after := by
    refine eachState_of_invariant (A := fun _ a ↦ a.isUploader = false) ⟨hfrom, .refl served r,
      fun c hwaits ↦ ⟨hwaits, fun output response hle hresponse ↦ ?_⟩⟩
      (eachStep_of_forall hstalled) fun r' a h ha ↦ ?_
    · rw [List.getElem?_eq_none hle] at hresponse
      cases hresponse
    · obtain ⟨⟨⟨hsound, hline⟩, hroom⟩, hstalls, hwait⟩ := h
      refine ⟨⟨⟨hsound.step a, hline.step hsound a⟩, length_uploadQueue_step hroom a⟩,
        hstalls.trans (hline.stalls_step ha), fun c hwaits ↦ ?_⟩
      obtain ⟨hwaits', hothers⟩ := hwait c hwaits
      obtain ⟨hnext, hnew⟩ := hwaits'.step served ha
      refine ⟨hnext, fun output response hle hresponse ↦ ?_⟩
      cases hold : r'.responses[output]? with
      | none => exact hnew output response (List.getElem?_eq_none_iff.mp hold) hresponse
      | some response' =>
        obtain ⟨response'', hresponse'', hrequest, -⟩ := (responses_step served r' a).response hold
        obtain rfl := Option.some.inj (hresponse.symm.trans hresponse'')
        rw [hrequest]
        exact hothers output response' hle hold
  obtain ⟨⟨-, hroom⟩, hstalls, hwait⟩ := hall.final
  refine ⟨hstalls.reads, ?_, fun c hwaits ↦ (hwait c hwaits).2⟩
  have hcount := hstalls.count
  have hle : (finalState (step served) r after).backlog ≤
      uploadQueueSize + (finalState (step served) r after).loops.length :=
    Nat.add_le_add hroom List.countP_le_length
  have hqueue : r.uploadQueue.length ≤ r.backlog := Nat.le_add_right _ _
  omega

/-- The stream of a peer takes one byte of a file, and then another peer asks for it. -/
def twoTxtStalled : List Action :=
  twoTxtRequested ++ [.receive, .read 9 0 0, .upload 1, .connect "other"]

/-- What the first peer has got is what it had before the second one asked. -/
theorem stalled_upload_two_txt :
    (finalState (step twoMusicServed) start twoTxtStalled).responses[0]? =
      some ⟨twoTxtMessage, [2], .writing⟩ := by
  have h := stalled_upload twoMusicServed twoTxtStalled
    [.accept 1 (.ok ⟨[twoTxtMessage.message], false⟩), .send 1] (by decide)
  rcases h.1 0 ⟨twoTxtMessage, [2], .writing⟩ (by decide +kernel) (by decide +kernel) with
    hsame | ⟨hle, -⟩
  · exact hsame
  · exact absurd hle (by decide +kernel)

end Serving

end HarddriveParty
