import HarddriveParty.Node.Answering
import Mathlib.Algebra.BigOperators.Group.List.Basic

/-!
# Every answer comes to its end

However the loops and the uploader take turns, they can only do so much for the requests that have
arrived, and they do not get stuck before all of it is done. If nothing fails, each peer has then
got the whole answer to each of its requests.
-/

namespace HarddriveParty

open Answers Runs

namespace Served

/-- A bound on the steps of the uploader for a read request. -/
def readWork (served : Served) (query : ReadQuery) : Nat :=
  2 * (served.readAnswer query).length + 2

end Served

/-- A bound on the steps for the request that a loop is at. -/
def RequestLoop.Stage.work (served : Served) : RequestLoop.Stage → Nat
  | .answering _ left => left.length + 1
  | .queueing readRequest => served.readWork readRequest.query + 1
  | .accepting | .ended _ => 0

/-- A bound on the steps for the request that the uploader is at. -/
def Uploader.Stage.work : Uploader.Stage → Nat
  | .waiting => 0
  | .uploading _ _ left buf _ _ => buf.length + 2 * left.length + 1
  | .refusing _ left => left.length + 1

namespace Serving

variable {served : Served} {r : Serving} {c : Nat} {loop : RequestLoop} {a : Action}

/-- A bound on the steps for all requests that have arrived. -/
def work (served : Served) (r : Serving) : Nat :=
  r.uploader.work + (r.uploadQueue.map fun readRequest ↦ served.readWork readRequest.query).sum +
    (r.loops.map (·.stage.work served)).sum

/-! ### A step does some of the work -/

/-- The work of one loop stands apart from that of the others. -/
private theorem work_set (served : Served) {loops : List RequestLoop} (h : loops[c]? = some loop) :
    ∃ rest, (loops.map (·.stage.work served)).sum = loop.stage.work served + rest ∧
      ∀ stage, ((loops.set c { loop with stage := stage }).map (·.stage.work served)).sum =
        stage.work served + rest := by
  obtain ⟨rest, hperm, hset⟩ := exists_perm_set h
  refine ⟨(rest.map (·.stage.work served)).sum, ?_, fun stage ↦ ?_⟩
  · rw [(hperm.map _).sum_eq, List.map_cons, List.sum_cons]
  · rw [((hset _).map _).sum_eq, List.map_cons, List.sum_cons]

theorem setLoop_self (h : r.loops[c]? = some loop) : r.setLoop c loop = r := by
  obtain ⟨hlt, rfl⟩ := List.getElem?_eq_some_iff.mp h
  rw [setLoop, List.set_getElem_self]

/-- Writing nothing changes nothing. -/
theorem setResponse_write_nil (r : Serving) (output : Nat) :
    r.setResponse output (·.write []) = r := by
  have hid : (fun s : Response IncomingRequest UInt8 ↦ s.write []) = id := by
    funext s
    rw [Response.write, List.append_nil]
    rfl
  rw [setResponse, hid, List.modify_id]

private theorem drop_of_take_nil {left : Bytes} {n : Nat} (h : left.take n = []) :
    left.drop n = left := by
  have happ := List.take_append_drop n left
  rwa [h, List.nil_append] at happ

private theorem length_drop_lt {left : Bytes} {n : Nat} (h : left.take n ≠ []) :
    (left.drop n).length < left.length := by
  have hlen := congrArg List.length (List.take_append_drop n left)
  have hpos := List.length_pos_iff.mpr h
  rw [List.length_append] at hlen
  omega

/-- A step of the node itself changes nothing, or does some of the work. -/
theorem work_step (served : Served) (r : Serving) (ha : a.isOwn = true) :
    r.step served a = r ∨ (r.step served a).work served < r.work served := by
  have onLoop (c : Nat) (run : RequestLoop → Serving)
      (hrun : ∀ loop, r.loops[c]? = some loop →
        run loop = r ∨ (run loop).work served < r.work served) :
      r.onLoop c run = r ∨ (r.onLoop c run).work served < r.work served := by
    cases hc : r.loops[c]? with
    | none => exact Or.inl (onLoop_of_none hc)
    | some loop =>
      rw [onLoop_of_some hc]
      exact hrun loop hc
  cases a with
  | connect | accept => cases ha
  | write c n =>
    refine onLoop c _ fun loop hc ↦ ?_
    unfold Serving.write
    split
    · next output left hanswering =>
      by_cases htake : left.take n = []
      · left
        have hloop : { loop with stage := .answering output left } = loop := by rw [← hanswering]
        rw [htake, drop_of_take_nil htake, setResponse_write_nil, hloop, setLoop_self hc]
      · right
        obtain ⟨rest, hsum, hset⟩ := work_set served hc
        have hlt := length_drop_lt htake
        rw [hanswering] at hsum
        simp only [work, setLoop, setResponse, hset, hsum]
        simp only [RequestLoop.Stage.work]
        omega
    · exact Or.inl rfl
  | endAnswer c failed =>
    refine onLoop c _ fun loop hc ↦ ?_
    obtain ⟨rest, hsum, hset⟩ := work_set served hc
    unfold Serving.endAnswer
    split
    · next output left hanswering =>
      rw [hanswering] at hsum
      split
      · right
        simp only [work, setLoop, setResponse, hset, hsum]
        simp only [RequestLoop.Stage.work]
        omega
      · split
        · right
          simp only [work, setLoop, setResponse, hset, hsum]
          simp only [RequestLoop.Stage.work]
          omega
        · exact Or.inl rfl
    · exact Or.inl rfl
  | send c =>
    refine onLoop c _ fun loop hc ↦ ?_
    obtain ⟨rest, hsum, hset⟩ := work_set served hc
    unfold Serving.send
    split
    · next readRequest hqueueing =>
      rw [hqueueing] at hsum
      split
      · right
        simp only [work, setLoop, hset, hsum, List.map_append, List.map_cons, List.map_nil,
          List.sum_append, List.sum_cons, List.sum_nil]
        simp only [RequestLoop.Stage.work]
        omega
      · exact Or.inl rfl
    · exact Or.inl rfl
  | receive =>
    rw [Serving.step, Serving.receive]
    split
    · next readRequest rest hwaiting hqueue =>
      right
      rw [work, work, hwaiting, hqueue, List.map_cons, List.sum_cons, Served.readWork,
        Served.readAnswer]
      split
      · simp only [Uploader.Stage.work, List.length_nil]
        omega
      · simp only [Uploader.Stage.work, List.length_singleton]
        omega
    · exact Or.inl rfl
  | read n elapsed speed =>
    rw [Serving.step, Serving.read]
    split
    · next readRequest size left bytesRead sinceLastUiUpdate huploading =>
      dsimp only
      split
      · exact Or.inl rfl
      · next hsome =>
        right
        have hlen := congrArg List.length
          (List.take_append_drop (min n Uploader.uploadBlockSize) left)
        have hpos := List.length_pos_iff.mpr fun h ↦ hsome (List.isEmpty_iff.mpr h)
        rw [List.length_append] at hlen
        simp only [work, huploading, Uploader.Stage.work, List.length_nil]
        omega
    · exact Or.inl rfl
  | upload n =>
    rw [Serving.step, Serving.upload]
    split
    · next readRequest size left buf bytesRead sinceLastUiUpdate huploading =>
      by_cases htake : buf.take n = []
      · left
        rw [htake, drop_of_take_nil htake, setResponse_write_nil, ← huploading]
      · right
        have hlt := length_drop_lt htake
        simp only [work, setResponse, huploading, Uploader.Stage.work]
        omega
    · next readRequest left hrefusing =>
      by_cases htake : left.take n = []
      · left
        rw [htake, drop_of_take_nil htake, setResponse_write_nil, ← hrefusing]
      · right
        have hlt := length_drop_lt htake
        simp only [work, setResponse, hrefusing, Uploader.Stage.work]
        omega
    · exact Or.inl rfl
  | uploadError =>
    rw [Serving.step, Serving.uploadError]
    split
    · next huploading =>
      right
      simp only [work, setResponse, huploading, Uploader.Stage.work]
      omega
    · next hrefusing =>
      right
      simp only [work, setResponse, hrefusing, Uploader.Stage.work]
      omega
    · exact Or.inl rfl
  | uploadEnd failed finalSpeed =>
    rw [Serving.step, Serving.uploadEnd]
    split
    · next huploading =>
      split
      · right
        simp only [work, setResponse, huploading, Uploader.Stage.work]
        omega
      · exact Or.inl rfl
    · next hrefusing =>
      right
      simp only [work, setResponse, hrefusing, Uploader.Stage.work]
      omega
    · exact Or.inl rfl

/-! ### As long as something is left to write, the node can go on -/

/-- While the uploader has something to do, it can go on without a failure. -/
private theorem uploader_goes_on (served : Served)
    (h : r.uploader ≠ .waiting ∨ r.uploadQueue ≠ []) :
    ∃ a : Action, a.isOwn = true ∧ a.fails = false ∧
      (r.step served a).work served < r.work served := by
  cases huploader : r.uploader with
  | waiting =>
    obtain ⟨readRequest, rest, hqueue⟩ :=
      List.exists_cons_of_ne_nil (h.resolve_left fun hne ↦ hne huploader)
    refine ⟨.receive, rfl, rfl, (work_step served r rfl).resolve_left fun hsame ↦ ?_⟩
    have hlen := congrArg (·.uploadQueue.length) hsame
    simp only [step, receive, huploader, hqueue] at hlen
    split at hlen
    · simp at hlen
    · simp at hlen
  | uploading readRequest size left buf bytesRead sinceLastUiUpdate =>
    cases buf with
    | cons b buf =>
      refine ⟨.upload 1, rfl, rfl, ?_⟩
      simp only [step, upload, work, setResponse, huploader, Uploader.Stage.work, List.drop_one,
        List.tail_cons, List.length_cons]
      omega
    | nil =>
      cases left with
      | cons b left =>
        refine ⟨.read 1 0 0, rfl, rfl, ?_⟩
        have hone : min 1 Uploader.uploadBlockSize = 1 := rfl
        simp only [step, read, work, huploader, hone, Uploader.Stage.work, List.take_succ_cons,
          List.take_zero, List.isEmpty_cons, Bool.false_eq_true, if_false, List.drop_one,
          List.tail_cons, List.length_cons, List.length_nil]
        omega
      | nil =>
        refine ⟨.uploadEnd false 0, rfl, rfl, ?_⟩
        simp only [step, uploadEnd, work, setResponse, huploader, Uploader.Stage.work,
          List.isEmpty_nil, Bool.true_or, if_true, List.length_nil]
        omega
  | refusing readRequest left =>
    cases left with
    | cons b left =>
      refine ⟨.upload 1, rfl, rfl, ?_⟩
      simp only [step, upload, work, setResponse, huploader, Uploader.Stage.work, List.drop_one,
        List.tail_cons, List.length_cons]
      omega
    | nil =>
      refine ⟨.uploadEnd false 0, rfl, rfl, ?_⟩
      simp only [step, uploadEnd, work, setResponse, huploader, Uploader.Stage.work,
        List.length_nil]
      omega

/-- While something is left to write, the node can go on without a failure. -/
theorem goes_on (served : Served) (h : r.jobs served ≠ []) :
    ∃ a : Action, a.isOwn = true ∧ a.fails = false ∧ r.step served a ≠ r := by
  have hne {a : Action} (hlt : (r.step served a).work served < r.work served) :
      r.step served a ≠ r := fun hsame ↦ by
    rw [hsame] at hlt
    exact Nat.lt_irrefl _ hlt
  by_cases hbusy : r.uploader ≠ .waiting ∨ r.uploadQueue ≠ []
  · obtain ⟨a, hown, hfails, hlt⟩ := uploader_goes_on served hbusy
    exact ⟨a, hown, hfails, hne hlt⟩
  · -- the queue is empty, so no loop waits for room in it
    obtain ⟨hwaiting, hqueue⟩ := not_or.mp hbusy
    rw [not_not] at hwaiting hqueue
    rw [jobs, hwaiting, hqueue, List.map_nil, List.append_nil] at h
    obtain ⟨job, hjob⟩ := List.exists_mem_of_ne_nil _ h
    obtain ⟨loop, hloop, hjob⟩ := List.mem_flatMap.mp hjob
    obtain ⟨c, hc⟩ := List.getElem?_of_mem hloop
    obtain ⟨rest, hsum, hset⟩ := work_set served hc
    cases hstage : loop.stage with
    | accepting | ended =>
      rw [hstage] at hjob
      cases hjob
    | answering output left =>
      rw [hstage] at hsum
      cases left with
      | cons b left =>
        refine ⟨.write c 1, rfl, rfl, hne ?_⟩
        rw [step, onLoop_of_some hc]
        simp only [write, hstage, work, setLoop, setResponse, hset, hsum]
        simp only [RequestLoop.Stage.work, List.drop_one, List.tail_cons, List.length_cons]
        omega
      | nil =>
        refine ⟨.endAnswer c false, rfl, rfl, hne ?_⟩
        rw [step, onLoop_of_some hc]
        simp only [endAnswer, hstage, work, setLoop, setResponse, List.isEmpty_nil,
          Bool.false_eq_true, if_false, if_true, hset, hsum]
        simp only [RequestLoop.Stage.work, List.length_nil]
        omega
    | queueing readRequest =>
      rw [hstage] at hsum
      refine ⟨.send c, rfl, rfl, hne ?_⟩
      have hroom : r.uploadQueue.length < uploadQueueSize := by
        rw [hqueue]
        decide
      rw [step, onLoop_of_some hc]
      simp only [send, hstage, if_pos hroom]
      simp only [work, setLoop, hset, hsum, List.map_append, List.map_cons, List.map_nil,
        List.sum_append, List.sum_cons, List.sum_nil]
      simp only [RequestLoop.Stage.work]
      omega

/-! ### Runs without further requests -/

/-- Steps of the node itself that do something are no more than the work to be done. -/
theorem length_le_work (served : Served) {as : List Action} (hown : ∀ a ∈ as, a.isOwn = true)
    (hdo : EachStep (step served) (fun r a ↦ r.step served a ≠ r) r as) :
    as.length ≤ r.work served := by
  induction as generalizing r with
  | nil => exact Nat.zero_le _
  | cons a as ih =>
    have hlt := (work_step served r (hown a List.mem_cons_self)).resolve_left hdo.1
    have hrest := ih (fun b hb ↦ hown b (List.mem_cons_of_mem _ hb)) hdo.2
    rw [List.length_cons]
    exact Nat.lt_of_le_of_lt hrest hlt

/-- When all work is done no step of the node itself changes anything. -/
theorem stuck_of_done (h : r.work served = 0) (ha : a.isOwn = true) : r.step served a = r :=
  (work_step served r ha).resolve_right (by omega)

/-- Unless something fails, no response is broken off that was not before. -/
theorem response_finalState (served : Served) (as : List Action) {output : Nat}
    {response : Response IncomingRequest UInt8} (h : r.responses[output]? = some response) :
    ∃ response', (finalState (step served) r as).responses[output]? = some response' ∧
      response'.request = response.request ∧ response.written <+: response'.written ∧
      ((∀ a ∈ as, a.fails = false) → response'.progress = .brokenOff →
        response.progress = .brokenOff) := by
  induction as generalizing r response with
  | nil => exact ⟨response, h, rfl, List.prefix_rfl, fun _ ↦ id⟩
  | cons a as ih =>
    obtain ⟨mid, hmid, hrequest, hwritten, hbroken⟩ := (responses_step served r a).response h
    obtain ⟨last, hlast, hrequest', hwritten', hbroken'⟩ := ih hmid
    refine ⟨last, hlast, hrequest'.trans hrequest, hwritten.trans hwritten', fun hfails hlast ↦ ?_⟩
    exact hbroken (hfails a List.mem_cons_self)
      (hbroken' (fun b hb ↦ hfails b (List.mem_cons_of_mem _ hb)) hlast)

/-- Unless something fails, no further response is cut short. -/
private theorem soundBut_finalState {cut : Nat → Prop} (h : r.SoundBut served cut)
    {as : List Action} (hfails : ∀ a ∈ as, a.fails = false) :
    (finalState (step served) r as).SoundBut served cut := by
  refine (eachState_of_invariant (A := fun _ a ↦ a.fails = false) h
    (eachStep_of_forall hfails) fun r a h ha ↦ SoundBut.step h a fun output hread ↦ ?_).final
  obtain ⟨_, _, _, _, _, _, rfl, -⟩ := hread
  cases ha

/-- From every reachable state on, the steps by which the loops and the uploader go on come to an
end, in whatever order they are made. Then every response has ended, and unless something failed
meanwhile those that were still written have become the whole answers. -/
theorem answers_end (served : Served) (before own : List Action)
    (hown : ∀ a ∈ own, a.isOwn = true)
    (hdo : EachStep (step served) (fun r a ↦ r.step served a ≠ r)
      (finalState (step served) start before) own) :
    own.length ≤ (finalState (step served) start before).work served ∧
    ((∀ a : Action, a.isOwn = true →
        (finalState (step served) start (before ++ own)).step served a =
          finalState (step served) start (before ++ own)) →
      (∀ response ∈ (finalState (step served) start (before ++ own)).responses,
        response.progress ≠ .writing) ∧
      ((∀ a ∈ own, a.fails = false) →
        ∀ (output : Nat) (response : Response IncomingRequest UInt8),
          (finalState (step served) start before).responses[output]? = some response →
          response.progress = .writing →
          (finalState (step served) start (before ++ own)).responses[output]? =
            some ⟨response.request, served.answer response.request, .finished⟩)) := by
  refine ⟨length_le_work served hown hdo, fun hstuck ↦ ?_⟩
  have hsound := (eachState_sound served (before ++ own)).final
  have hjobs : (finalState (step served) start (before ++ own)).jobs served = [] := by
    by_contra hne
    obtain ⟨a, hown, -, hchange⟩ := goes_on served hne
    exact hchange (hstuck a hown)
  rw [Sound, SoundBut, hjobs] at hsound
  refine ⟨fun response hresponse ↦ ?_, fun hfails output response hresponse hwriting ↦ ?_⟩
  · obtain ⟨output, houtput⟩ := List.getElem?_of_mem hresponse
    exact hsound.of_no_jobs houtput
  · obtain ⟨last, hlast, hrequest, -, hbroken⟩ := response_finalState served own hresponse
    rw [← finalState_append] at hlast
    have hfinished : last.progress = .finished := by
      cases hprogress : last.progress with
      | writing => exact absurd hprogress (hsound.of_no_jobs hlast)
      | brokenOff =>
        exact absurd (hwriting.symm.trans (hbroken hfails hprogress)) (by decide)
      | finished => rfl
    have hbut := soundBut_finalState (Answers.Sound.renew (eachState_sound served before).final)
      hfails
    rw [← finalState_append] at hbut
    have hwhole : last.written = served.answer last.request := by
      refine ((hbut.stopped output last hlast).2 hfinished).resolve_right ?_
      rintro ⟨s, hs, hstopped⟩
      obtain rfl := Option.some.inj (hresponse.symm.trans hs)
      exact hstopped hwriting
    rw [hlast, ← hrequest, ← hwhole, ← hfinished]

/-- A node with two shares of which the second is on its disk. -/
def twoMusicServed : Served where
  shares := (finalState Origins.run (Shares.empty, fun _ ↦ none) twoMusicShares).1
  fs := Uploader.secondMusicFs
  codec := LsResponseStream.exampleCodec
  errorText _ := "UnexpectedEnd"
  toLowercase := id

/-- A peer asks for the end of a file. -/
def twoTxtMessage : IncomingRequest :=
  ⟨0, Request.serialize (.read ⟨"second - Music/two.txt", some 1, none⟩)⟩

/-- The request waits for the uploader. -/
def twoTxtRequested : List Action :=
  [.connect "peer", .accept 0 (.ok ⟨[twoTxtMessage.message], false⟩), .send 0]

/-- The file is uploaded. -/
def twoTxtUploaded : List Action :=
  [.receive, .read 9 0 0, .upload 1, .upload 1, .uploadEnd false 0]

/-- A file that is asked for is uploaded to its end. -/
theorem answers_end_two_txt :
    (finalState (step twoMusicServed) start (twoTxtRequested ++ twoTxtUploaded)).responses[0]? =
      some ⟨twoTxtMessage, [2, 3], .finished⟩ := by
  have hdo : EachStep (step twoMusicServed) (fun r a ↦ r.step twoMusicServed a ≠ r)
      (finalState (step twoMusicServed) start twoTxtRequested) twoTxtUploaded := by decide +kernel
  have hdone : (finalState (step twoMusicServed) start
      (twoTxtRequested ++ twoTxtUploaded)).work twoMusicServed = 0 := by decide +kernel
  have hwriting : (finalState (step twoMusicServed) start twoTxtRequested).responses[0]? =
      some (.start twoTxtMessage) := by decide +kernel
  have hanswer : twoMusicServed.answer twoTxtMessage = [2, 3] := by decide +kernel
  have h := ((answers_end twoMusicServed twoTxtRequested twoTxtUploaded (by decide) hdo).2
    fun a ha ↦ stuck_of_done hdone ha).2 (by decide) 0 _ hwriting rfl
  rwa [Response.start, hanswer] at h

end Serving

end HarddriveParty
