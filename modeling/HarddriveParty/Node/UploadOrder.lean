import HarddriveParty.Node.Answering

/-!
# The order of the answers

The read requests of a connection are answered one after the other, in the order in which they
came, although they pass through a queue that all connections share; an index query is answered
before the connection accepts its next request. What carries the proof is that the read requests
of a connection that are waiting (with the uploader, in its queue and at the loop, in this order)
are always the last ones that it has accepted.
-/

namespace HarddriveParty

open Answers Runs

namespace Served

/-- The message is a read request. -/
def isRead (served : Served) (request : IncomingRequest) : Bool :=
  match Request.deserialize served.errorText request.message with
  | .ok (.read _) => true
  | _ => false

variable {served : Served} {request : IncomingRequest}

theorem isRead_ls {query : IndexQuery}
    (h : Request.deserialize served.errorText request.message = .ok (.ls query)) :
    served.isRead request = false := by
  rw [isRead, h]

theorem isRead_read {query : ReadQuery}
    (h : Request.deserialize served.errorText request.message = .ok (.read query)) :
    served.isRead request = true := by
  rw [isRead, h]

theorem isRead_announcePeer {announce : AnnouncePeer}
    (h : Request.deserialize served.errorText request.message = .ok (.announcePeer announce)) :
    served.isRead request = false := by
  rw [isRead, h]

theorem isRead_error {err : String}
    (h : Request.deserialize served.errorText request.message = .error err) :
    served.isRead request = false := by
  rw [isRead, h]

end Served

/-- The read request that a loop wants to put into the queue. -/
def RequestLoop.Stage.queueing? : RequestLoop.Stage → Option ReadRequest
  | .queueing readRequest => some readRequest
  | _ => none

namespace Serving

variable {served : Served} {r r' : Serving} {c : Nat} {loop : RequestLoop} {a : Action}

/-- The requests that were accepted. -/
def requests (r : Serving) : List IncomingRequest := r.responses.map Response.request

/-- The read requests of a connection, in the order in which they came. -/
def reads (served : Served) (r : Serving) (c : Nat) : List Nat :=
  r.requests.findIdxs fun request ↦ request.connection == c && served.isRead request

/-- What the uploader has to write, in this order. -/
def pipeline (r : Serving) : List Nat :=
  r.uploader.jobs.map Job.output ++ r.uploadQueue.map ReadRequest.output

/-- The response is to a request of the connection. -/
def belongs (r : Serving) (c output : Nat) : Bool :=
  (r.requests[output]?.map IncomingRequest.connection) == some c

/-- The read request that the loop of a connection wants to put into the queue. -/
def queueingAt (r : Serving) (c : Nat) : Option ReadRequest :=
  r.loops[c]?.bind fun loop ↦ loop.stage.queueing?

/-- The read requests of a connection that are not through: with the uploader, in its queue, and
at the loop. -/
def waiting (r : Serving) (c : Nat) : List Nat :=
  r.pipeline.filter (r.belongs c) ++ ((r.queueingAt c).map ReadRequest.output).toList

/-- The waiting read requests of each connection are its last ones; what waits to be uploaded is
what was asked for; and a loop that answers an index query has accepted nothing since. -/
structure InLine (served : Served) (r : Serving) : Prop where
  line : ∀ c, r.waiting c <:+ r.reads served c
  decoded : ∀ readRequest, (readRequest ∈ r.uploadQueue ∨ ∃ c, r.queueingAt c = some readRequest) →
    ∃ request, r.requests[readRequest.output]? = some request ∧
      Request.deserialize served.errorText request.message = .ok (.read readRequest.query)
  answering : ∀ (c : Nat) (loop : RequestLoop) (output : Nat) (left : Bytes),
    r.loops[c]? = some loop → loop.stage = .answering output left →
    (∃ request, r.requests[output]? = some request ∧ request.connection = c ∧
      served.isRead request = false) ∧
    ∀ (i : Nat) (request : IncomingRequest), r.requests[i]? = some request →
      request.connection = c → i ≤ output

theorem mem_reads {output : Nat} : output ∈ r.reads served c ↔
    ∃ request, r.requests[output]? = some request ∧ request.connection = c ∧
      served.isRead request = true := by
  rw [reads, List.mem_findIdxs_iff_exists_getElem_pos]
  constructor
  · rintro ⟨hlt, hread⟩
    rw [Bool.and_eq_true, beq_iff_eq] at hread
    exact ⟨_, List.getElem?_eq_getElem hlt, hread⟩
  · rintro ⟨request, hrequest, hread⟩
    obtain ⟨hlt, rfl⟩ := List.getElem?_eq_some_iff.mp hrequest
    exact ⟨hlt, by rw [Bool.and_eq_true, beq_iff_eq]; exact hread⟩

/-! ### What one step changes -/

/-- A step that accepts no request, passes none on and ends none leaves the lines. -/
theorem InLine.quiet (h : r.InLine served) (hrequests : r'.requests = r.requests)
    (huploader : r'.uploader.jobs.map Job.output = r.uploader.jobs.map Job.output)
    (hqueue : r'.uploadQueue = r.uploadQueue) (hqueueing : ∀ c, r'.queueingAt c = r.queueingAt c)
    (hanswering : ∀ (c : Nat) (loop' : RequestLoop) (output : Nat) (left' : Bytes),
      r'.loops[c]? = some loop' → loop'.stage = .answering output left' →
        ∃ loop left, r.loops[c]? = some loop ∧ loop.stage = .answering output left) :
    r'.InLine served where
  line c := by
    have hpipeline : r'.pipeline = r.pipeline := by rw [pipeline, pipeline, huploader, hqueue]
    have hbelongs : r'.belongs c = r.belongs c := by
      funext output
      rw [belongs, belongs, hrequests]
    rw [waiting, reads, hpipeline, hbelongs, hqueueing, hrequests]
    exact h.line c
  decoded readRequest hread := by
    simp only [hqueue, hqueueing] at hread
    rw [hrequests]
    exact h.decoded readRequest hread
  answering c loop' output left' hloop hstage := by
    obtain ⟨loop, left, hloop, hstage⟩ := hanswering c loop' output left' hloop hstage
    rw [hrequests]
    exact h.answering c loop output left hloop hstage

/-- A change of a response keeps its request. -/
theorem requests_setResponse (r : Serving) (output : Nat)
    {f : Response IncomingRequest UInt8 → Response IncomingRequest UInt8}
    (hf : ∀ response, (f response).request = response.request) :
    (r.setResponse output f).requests = r.requests := by
  refine List.ext_getElem? fun i ↦ ?_
  simp only [requests, setResponse, List.getElem?_map, List.getElem?_modify]
  cases r.responses[i]? with
  | none => rfl
  | some response =>
    simp only [Option.map_eq_map, Option.map_some]
    split
    · rw [hf]
    · rfl

/-- The loop that goes on, and the others. -/
theorem getElem?_setLoop (h : r.loops[c]? = some loop) (loop' : RequestLoop) (i : Nat) :
    (r.setLoop c loop').loops[i]? = if i = c then some loop' else r.loops[i]? := by
  have hlt := (List.getElem?_eq_some_iff.mp h).1
  split
  · next hi =>
    subst hi
    exact List.getElem?_set_self hlt
  · next hi => exact List.getElem?_set_ne (Ne.symm hi)

theorem queueingAt_setLoop (h : r.loops[c]? = some loop) (loop' : RequestLoop) (i : Nat) :
    (r.setLoop c loop').queueingAt i =
      if i = c then loop'.stage.queueing? else r.queueingAt i := by
  rw [queueingAt, getElem?_setLoop h]
  split <;> rfl

/-- What is waiting has a response. -/
private theorem requests_of_pipeline (h : r.Sound served) {output : Nat}
    (hmem : output ∈ r.pipeline) : output < r.requests.length := by
  have hjob : output ∈ (r.jobs served).map Job.output := by
    rw [jobs, List.map_append, List.map_append, List.map_map]
    exact List.mem_append_left _ hmem
  obtain ⟨job, hj, rfl⟩ := List.mem_map.mp hjob
  obtain ⟨response, hresponse, -⟩ := h.job job hj
  rw [requests, List.length_map]
  exact (List.getElem?_eq_some_iff.mp hresponse).1

/-- A request arrives at a loop that accepts requests: a read request joins the line of its
connection, and behind another one the line is empty. -/
private theorem InLine.arrive (h : r.InLine served) (hsound : r.Sound served)
    (hc : r.loops[c]? = some loop) (haccepting : loop.stage = .accepting)
    {request : IncomingRequest} (hconnection : request.connection = c)
    (hrequests : r'.requests = r.requests ++ [request]) (huploader : r'.uploader = r.uploader)
    (hqueue : r'.uploadQueue = r.uploadQueue) (stage : RequestLoop.Stage)
    (hloops : r'.loops = r.loops.set c { loop with stage := stage })
    (hread : served.isRead request = true → ∃ readRequest, stage = .queueing readRequest ∧
      readRequest.output = r.requests.length ∧
      Request.deserialize served.errorText request.message = .ok (.read readRequest.query))
    (hother : served.isRead request = false → stage.queueing? = none ∧
      ∀ output left, stage = .answering output left → output = r.requests.length) :
    r'.InLine served := by
  have hold {i : Nat} (hi : i < r.requests.length) : r'.requests[i]? = r.requests[i]? := by
    rw [hrequests, List.getElem?_append_left hi]
  have hnew : r'.requests[r.requests.length]? = some request := by
    rw [hrequests, List.getElem?_append_right (Nat.le_refl _), Nat.sub_self]
    rfl
  have hqueueing (i : Nat) :
      r'.queueingAt i = if i = c then stage.queueing? else r.queueingAt i := by
    have hset := queueingAt_setLoop hc { loop with stage := stage } i
    rw [queueingAt, setLoop, ← hloops] at hset
    exact hset
  have hnone : r.queueingAt c = none := by
    rw [queueingAt, hc, Option.bind_some, haccepting]
    rfl
  have hpipeline : r'.pipeline = r.pipeline := by rw [pipeline, pipeline, huploader, hqueue]
  have hfilter (i : Nat) : r'.pipeline.filter (r'.belongs i) = r.pipeline.filter (r.belongs i) := by
    rw [hpipeline]
    refine List.filter_congr fun output hmem ↦ ?_
    rw [belongs, belongs, hold (requests_of_pipeline hsound hmem)]
  have hreads (i : Nat) : r'.reads served i = r.reads served i ++
      if i = c ∧ served.isRead request = true then [r.requests.length] else [] := by
    rw [reads, reads, hrequests, List.findIdxs_append, List.findIdxs_singleton, Nat.zero_add]
    congr 1
    by_cases hi : i = c
    · simp [hi, hconnection]
    · simp [hi, hconnection, Ne.symm hi]
  refine ⟨fun i ↦ ?_, fun readRequest hmem ↦ ?_, fun i loop' output left hloop hstage ↦ ?_⟩
  · have hline := h.line i
    rw [waiting, hfilter, hreads, hqueueing]
    rw [waiting] at hline
    by_cases hi : i = c
    · subst hi
      rw [hnone, Option.map_none, Option.toList_none, List.append_nil] at hline
      cases hisRead : served.isRead request with
      | true =>
        obtain ⟨readRequest, rfl, houtput, -⟩ := hread hisRead
        rw [if_pos rfl, if_pos ⟨rfl, rfl⟩, RequestLoop.Stage.queueing?, Option.map_some,
          houtput, Option.toList_some]
        obtain ⟨before, hbefore⟩ := hline
        exact ⟨before, by rw [← List.append_assoc, hbefore]⟩
      | false =>
        rw [if_pos rfl, (hother hisRead).1, if_neg (by simp), Option.map_none,
          Option.toList_none, List.append_nil, List.append_nil]
        exact hline
    · rw [if_neg hi, if_neg (fun h ↦ hi h.1), List.append_nil]
      exact hline
  · have hcases : (readRequest ∈ r.uploadQueue ∨ ∃ i, r.queueingAt i = some readRequest) ∨
        stage.queueing? = some readRequest := by
      rw [hqueue] at hmem
      rcases hmem with hmem | ⟨i, hi⟩
      · exact Or.inl (Or.inl hmem)
      · rw [hqueueing] at hi
        split at hi
        · exact Or.inr hi
        · exact Or.inl (Or.inr ⟨i, hi⟩)
    rcases hcases with hmem | hstage
    · obtain ⟨q, hq, hdecoded⟩ := h.decoded readRequest hmem
      exact ⟨q, by rw [hold (List.getElem?_eq_some_iff.mp hq).1, hq], hdecoded⟩
    · cases hisRead : served.isRead request with
      | true =>
        obtain ⟨readRequest', rfl, houtput, hdecoded⟩ := hread hisRead
        obtain rfl : readRequest' = readRequest := Option.some.inj hstage
        exact ⟨request, by rw [houtput, hnew], hdecoded⟩
      | false =>
        rw [(hother hisRead).1] at hstage
        cases hstage
  · rw [hloops] at hloop
    by_cases hi : i = c
    · subst hi
      rw [List.getElem?_set_self (List.getElem?_eq_some_iff.mp hc).1] at hloop
      cases hloop
      have hisRead : served.isRead request = false := by
        rw [← Bool.not_eq_true]
        intro hisRead
        obtain ⟨readRequest, hqueueing, -⟩ := hread hisRead
        rw [hqueueing] at hstage
        cases hstage
      obtain rfl := (hother hisRead).2 output left hstage
      refine ⟨⟨request, hnew, hconnection, hisRead⟩, fun j q hq _ ↦ ?_⟩
      have hlt := (List.getElem?_eq_some_iff.mp hq).1
      rw [hrequests, List.length_append, List.length_singleton] at hlt
      omega
    · rw [List.getElem?_set_ne (Ne.symm hi)] at hloop
      obtain ⟨⟨q, hq, hisRead⟩, hlast⟩ := h.answering i loop' output left hloop hstage
      refine ⟨⟨q, by rw [hold (List.getElem?_eq_some_iff.mp hq).1, hq], hisRead⟩,
        fun j q' hq' hj ↦ ?_⟩
      by_cases hlt : j < r.requests.length
      · rw [hold hlt] at hq'
        exact hlast j q' hq' hj
      · -- the new request came on another connection
        exfalso
        rw [hrequests, List.getElem?_append_right (Nat.not_lt.mp hlt)] at hq'
        obtain rfl := List.mem_singleton.mp (List.mem_of_getElem? hq')
        exact hi (hj.symm.trans hconnection)

/-- A read request is passed on to the queue: it stays where it is in the line. -/
private theorem InLine.passOn (h : r.InLine served) (hc : r.loops[c]? = some loop)
    {readRequest : ReadRequest} (hstage : loop.stage = .queueing readRequest) :
    ({ r with uploadQueue := r.uploadQueue ++ [readRequest] }.setLoop c
      { loop with stage := .accepting }).InLine served := by
  have hat : r.queueingAt c = some readRequest := by
    rw [queueingAt, hc, Option.bind_some, hstage]
    rfl
  have hset (i : Nat) : ({ r with uploadQueue := r.uploadQueue ++ [readRequest] }.setLoop c
      { loop with stage := .accepting }).queueingAt i = if i = c then none else r.queueingAt i :=
    queueingAt_setLoop (r := { r with uploadQueue := r.uploadQueue ++ [readRequest] }) hc _ i
  have hbelongs (i : Nat) : r.belongs i readRequest.output = decide (i = c) := by
    have hmem : readRequest.output ∈ r.reads served c := by
      refine (h.line c).subset ?_
      rw [waiting, hat, Option.map_some, Option.toList_some]
      exact List.mem_append_right _ (List.mem_singleton.mpr rfl)
    obtain ⟨request, hrequest, hconnection, -⟩ := mem_reads.mp hmem
    rw [belongs, hrequest, Option.map_some, hconnection]
    by_cases hi : i = c
    · simp [hi]
    · simp [hi, Ne.symm hi]
  refine ⟨fun i ↦ ?_, fun readRequest' hmem ↦ ?_, fun i loop' output left hloop hstage' ↦ ?_⟩
  · have hline := h.line i
    rw [waiting, pipeline] at hline
    rw [waiting, hset, pipeline]
    have hfilter : (r.uploader.jobs.map Job.output ++
        (r.uploadQueue ++ [readRequest]).map ReadRequest.output).filter (r.belongs i) =
      (r.uploader.jobs.map Job.output ++ r.uploadQueue.map ReadRequest.output).filter
        (r.belongs i) ++ if i = c then [readRequest.output] else [] := by
      rw [List.map_append, ← List.append_assoc, List.filter_append]
      congr 1
      by_cases hi : i = c
      · simp [hbelongs, hi]
      · simp [hbelongs, hi]
    by_cases hi : i = c
    · subst hi
      rw [hat] at hline
      rw [if_pos rfl] at hfilter ⊢
      rw [Option.map_none, Option.toList_none, List.append_nil]
      exact hfilter ▸ hline
    · rw [if_neg hi, List.append_nil] at hfilter
      rw [if_neg hi]
      exact hfilter ▸ hline
  · refine h.decoded readRequest' ?_
    rcases hmem with hmem | ⟨i, hi⟩
    · rcases List.mem_append.mp hmem with hold | hnew
      · exact Or.inl hold
      · obtain rfl := List.mem_singleton.mp hnew
        exact Or.inr ⟨c, hat⟩
    · rw [hset] at hi
      split at hi
      · cases hi
      · exact Or.inr ⟨i, hi⟩
  · rw [getElem?_setLoop
      (r := { r with uploadQueue := r.uploadQueue ++ [readRequest] }) hc] at hloop
    split at hloop
    · cases hloop
      cases hstage'
    · exact h.answering i loop' output left hloop hstage'

/-- The uploader is through with its read request: the first one leaves the line. -/
private theorem InLine.leave (h : r.InLine served) (hrequests : r'.requests = r.requests)
    (huploader : r'.uploader = .waiting) (hqueue : r'.uploadQueue = r.uploadQueue)
    (hloops : r'.loops = r.loops) : r'.InLine served := by
  have hqueueing (c : Nat) : r'.queueingAt c = r.queueingAt c := by
    rw [queueingAt, queueingAt, hloops]
  have hbelongs (c : Nat) : r'.belongs c = r.belongs c := by
    funext output
    rw [belongs, belongs, hrequests]
  refine ⟨fun c ↦ ?_, fun readRequest hmem ↦ ?_, fun c loop output left hloop hstage ↦ ?_⟩
  · have hpipeline : r'.pipeline <:+ r.pipeline := by
      rw [pipeline, pipeline, huploader, hqueue]
      exact List.suffix_append _ _
    have hreads : r'.reads served c = r.reads served c := by rw [reads, reads, hrequests]
    obtain ⟨before, hbefore⟩ := hpipeline
    refine List.IsSuffix.trans ?_ (hreads ▸ h.line c)
    rw [waiting, waiting, hbelongs, hqueueing, ← hbefore, List.filter_append, List.append_assoc]
    exact List.suffix_append _ _
  · rw [hqueue] at hmem
    simp only [hqueueing] at hmem
    rw [hrequests]
    exact h.decoded readRequest hmem
  · rw [hloops] at hloop
    rw [hrequests]
    exact h.answering c loop output left hloop hstage

/-- A request is accepted and handled. -/
private theorem InLine.accept (h : r.InLine served) (hsound : r.Sound served)
    (hc : r.loops[c]? = some loop) (accepted : Except String Quinn.RecvStream) :
    (r.accept served c loop accepted).InLine served := by
  unfold Serving.accept
  split
  · next haccepting =>
    split
    · next err _ =>
      refine h.quiet rfl rfl rfl (fun i ↦ ?_) fun i loop' output left hloop hstage ↦ ?_
      · rw [queueingAt_setLoop hc]
        split
        · next hi =>
          rw [hi, queueingAt, hc, Option.bind_some, haccepting]
          rfl
        · rfl
      · rw [getElem?_setLoop hc] at hloop
        split at hloop
        · cases hloop
          cases hstage
        · exact ⟨loop', left, hloop, hstage⟩
    · next buf _ =>
      have hrequests : ({ r with responses := r.responses ++ [Response.start ⟨c, buf⟩] } :
          Serving).requests = r.requests ++ [⟨c, buf⟩] := by
        rw [requests, List.map_append]
        rfl
      have hlength : r.responses.length = r.requests.length := by rw [requests, List.length_map]
      have hself : r.loops = r.loops.set c { loop with stage := .accepting } := by
        obtain ⟨hlt, rfl⟩ := List.getElem?_eq_some_iff.mp hc
        rw [← haccepting, List.set_getElem_self]
      -- a message that needs no answer
      have hthrough (hother : served.isRead ⟨c, buf⟩ = false) :
          (({ r with responses := r.responses ++ [Response.start ⟨c, buf⟩] } :
            Serving).setResponse r.responses.length (·.stop .finished)).InLine served := by
        refine h.arrive hsound hc haccepting rfl
          ((requests_setResponse _ _ (·.request_stop _)).trans hrequests) rfl rfl .accepting hself
          (fun hread ↦ ?_) fun _ ↦ ⟨rfl, fun output left hstage ↦ by cases hstage⟩
        rw [hother] at hread
        cases hread
      dsimp only
      split
      · next query hquery =>
        refine h.arrive hsound hc haccepting rfl hrequests rfl rfl _ rfl
          (fun hread ↦ ?_) fun _ ↦ ⟨rfl, fun output left hstage ↦ ?_⟩
        · rw [Served.isRead_ls hquery] at hread
          cases hread
        · cases hstage
          exact hlength
      · next query hquery =>
        refine h.arrive hsound hc haccepting rfl hrequests rfl rfl _ rfl
          (fun _ ↦ ⟨_, rfl, hlength, hquery⟩) fun hread ↦ ?_
        rw [Served.isRead_read hquery] at hread
        cases hread
      · next announce hquery => exact hthrough (Served.isRead_announcePeer hquery)
      · next err hquery => exact hthrough (Served.isRead_error hquery)
  · exact h

/-- A loop that answers an index query goes on with it, or accepts requests again. -/
private theorem InLine.goOn (h : r.InLine served) (hc : r.loops[c]? = some loop) {output : Nat}
    {left : Bytes} (hanswering : loop.stage = .answering output left)
    {f : Response IncomingRequest UInt8 → Response IncomingRequest UInt8}
    (hf : ∀ response, (f response).request = response.request) {stage : RequestLoop.Stage}
    (hstage : stage = .accepting ∨ ∃ left', stage = .answering output left') :
    ((r.setResponse output f).setLoop c { loop with stage := stage }).InLine served := by
  refine h.quiet (requests_setResponse r output hf) rfl rfl (fun i ↦ ?_) ?_
  · rw [queueingAt_setLoop (r := r.setResponse output f) hc]
    split
    · next hi =>
      rw [hi, queueingAt, hc, Option.bind_some, hanswering]
      rcases hstage with rfl | ⟨left', rfl⟩ <;> rfl
    · rfl
  · intro i loop' output' left' hloop hstage'
    rw [getElem?_setLoop (r := r.setResponse output f) hc] at hloop
    split at hloop
    · next hi =>
      cases hloop
      rcases hstage with rfl | ⟨left'', rfl⟩
      · cases hstage'
      · cases hstage'
        exact ⟨loop, left, hi ▸ hc, hanswering⟩
    · exact ⟨loop', left', hloop, hstage'⟩

/-- Whatever happens next, the lines stay as they should. -/
theorem InLine.step (h : r.InLine served) (hsound : r.Sound served) (a : Action) :
    (r.step served a).InLine served := by
  have onLoop (c : Nat) (run : RequestLoop → Serving)
      (hrun : ∀ loop, r.loops[c]? = some loop → (run loop).InLine served) :
      (r.onLoop c run).InLine served := by
    cases hc : r.loops[c]? with
    | none =>
      rw [onLoop_of_none hc]
      exact h
    | some loop =>
      rw [onLoop_of_some hc]
      exact hrun loop hc
  have same : ∀ (c : Nat) (loop : RequestLoop) (output : Nat) (left : Bytes),
      r.loops[c]? = some loop → loop.stage = .answering output left →
        ∃ loop left, r.loops[c]? = some loop ∧ loop.stage = .answering output left :=
    fun c loop output left hloop hstage ↦ ⟨loop, left, hloop, hstage⟩
  cases a with
  | connect peerName =>
    have hnew {c : Nat} {loop : RequestLoop} (hlt : ¬c < r.loops.length)
        (hloop : (r.loops ++ [⟨peerName, .accepting⟩])[c]? = some loop) :
        loop.stage = .accepting := by
      rw [List.getElem?_append_right (Nat.not_lt.mp hlt)] at hloop
      obtain rfl := List.mem_singleton.mp (List.mem_of_getElem? hloop)
      rfl
    refine h.quiet rfl rfl rfl (fun c ↦ ?_) fun c loop output left hloop hstage ↦ ?_
    · rw [queueingAt, queueingAt, Serving.step]
      by_cases hlt : c < r.loops.length
      · rw [List.getElem?_append_left hlt]
      · rw [List.getElem?_eq_none (Nat.not_lt.mp hlt)]
        cases hloop : (r.loops ++ [⟨peerName, .accepting⟩])[c]? with
        | none => rfl
        | some loop =>
          rw [Option.bind_some, hnew hlt hloop]
          rfl
    · by_cases hlt : c < r.loops.length
      · rw [Serving.step, List.getElem?_append_left hlt] at hloop
        exact ⟨loop, left, hloop, hstage⟩
      · rw [hnew hlt hloop] at hstage
        cases hstage
  | accept c accepted => exact onLoop c _ fun loop hc ↦ h.accept hsound hc accepted
  | write c n =>
    refine onLoop c _ fun loop hc ↦ ?_
    unfold Serving.write
    split
    · next output left hanswering =>
      exact h.goOn hc hanswering (·.request_write _) (Or.inr ⟨_, rfl⟩)
    · exact h
  | endAnswer c failed =>
    refine onLoop c _ fun loop hc ↦ ?_
    unfold Serving.endAnswer
    split
    · next output left hanswering =>
      split
      · exact h.goOn hc hanswering (·.request_stop _) (Or.inl rfl)
      · split
        · exact h.goOn hc hanswering (·.request_stop _) (Or.inl rfl)
        · exact h
    · exact h
  | send c =>
    refine onLoop c _ fun loop hc ↦ ?_
    unfold Serving.send
    split
    · next readRequest hqueueing =>
      split
      · exact h.passOn hc hqueueing
      · exact h
    · exact h
  | receive =>
    rw [Serving.step, Serving.receive]
    split
    · next readRequest rest hwaiting hqueue =>
      have hline (c : Nat) : ([readRequest.output] ++ rest.map ReadRequest.output).filter
          (r.belongs c) ++ ((r.queueingAt c).map ReadRequest.output).toList <:+
            r.reads served c := by
        have hline := h.line c
        rw [waiting, pipeline, hwaiting, hqueue] at hline
        exact hline
      have hdecoded (q : ReadRequest) (hq : q ∈ rest ∨ ∃ c, r.queueingAt c = some q) :=
        h.decoded q (hq.imp_left fun hmem ↦ hqueue ▸ List.mem_cons_of_mem _ hmem)
      split
      · exact ⟨hline, hdecoded, h.answering⟩
      · exact ⟨hline, hdecoded, h.answering⟩
    · exact h
  | read n elapsed speed =>
    rw [Serving.step, Serving.read]
    split
    · next huploading =>
      dsimp only
      split
      · exact h
      · refine h.quiet rfl ?_ rfl (fun _ ↦ rfl) same
        rw [huploading]
        rfl
    · exact h
  | upload n =>
    rw [Serving.step, Serving.upload]
    split
    · next huploading =>
      refine h.quiet (requests_setResponse r _ (·.request_write _)) ?_ rfl (fun _ ↦ rfl) same
      rw [huploading]
      rfl
    · next hrefusing =>
      refine h.quiet (requests_setResponse r _ (·.request_write _)) ?_ rfl (fun _ ↦ rfl) same
      rw [hrefusing]
      rfl
    · exact h
  | uploadError =>
    rw [Serving.step, Serving.uploadError]
    split
    · exact h.leave (requests_setResponse r _ (·.request_stop _)) rfl rfl rfl
    · exact h.leave (requests_setResponse r _ (·.request_stop _)) rfl rfl rfl
    · exact h
  | uploadEnd failed finalSpeed =>
    rw [Serving.step, Serving.uploadEnd]
    split
    · split
      · exact h.leave (requests_setResponse r _ (·.request_stop _)) rfl rfl rfl
      · exact h
    · exact h.leave (requests_setResponse r _ (·.request_stop _)) rfl rfl rfl
    · exact h

/-- Responses, jobs and lines are as they should in every state of every run. -/
theorem eachState_inLine (served : Served) (as : List Action) :
    EachState (step served) (fun r ↦ r.Sound served ∧ r.InLine served) start as := by
  have hstart : start.InLine served := by
    refine ⟨fun c ↦ List.nil_suffix, fun readRequest hmem ↦ ?_, fun c loop output left hloop ↦ ?_⟩
    · rcases hmem with hmem | ⟨c, hc⟩
      · cases hmem
      · cases hc
    · cases hloop
  exact eachState_of_invariant (A := fun _ _ ↦ True) ⟨sound_start served, hstart⟩
    (eachStep_of_forall fun _ _ ↦ trivial) fun _ a h _ ↦ ⟨h.1.step a, h.2.step h.1 a⟩

/-- What the uploader has to write are answers to read requests. -/
theorem InLine.isRead_of_pipeline (h : r.InLine served) (hsound : r.Sound served) {output : Nat}
    (hmem : output ∈ r.pipeline) :
    ∃ response, r.responses[output]? = some response ∧
      served.isRead response.request = true := by
  have hlt := requests_of_pipeline hsound hmem
  have hbelongs : r.belongs r.requests[output].connection output = true := by
    rw [belongs, List.getElem?_eq_getElem hlt, Option.map_some, beq_self_eq_true]
  have hwaits : output ∈ r.waiting r.requests[output].connection :=
    List.mem_append_left _ (List.mem_filter.mpr ⟨hmem, hbelongs⟩)
  obtain ⟨request, hrequest, -, hread⟩ := mem_reads.mp ((h.line _).subset hwaits)
  rw [requests, List.getElem?_map] at hrequest
  obtain ⟨response, hresponse, rfl⟩ := Option.map_eq_some_iff.mp hrequest
  exact ⟨response, hresponse, hread⟩

/-- The answer to a read request. -/
def IsRead (served : Served) (r : Serving) (output : Nat) : Prop :=
  ∃ response, r.responses[output]? = some response ∧ served.isRead response.request = true

theorem IsRead.step {output : Nat} (h : r.IsRead served output) (a : Action) :
    (r.step served a).IsRead served output := by
  obtain ⟨response, hresponse, hread⟩ := h
  obtain ⟨response', hresponse', hrequest, -⟩ := (responses_step served r a).response hresponse
  exact ⟨response', hresponse', by rw [hrequest]; exact hread⟩

/-- In every state of every run only answers to read requests may be cut short. -/
theorem eachState_soundBut (served : Served) (as : List Action) :
    EachState (step served) (fun r ↦ r.SoundBut served (r.IsRead served)) start as := by
  have hfree : EachStep (step served) (fun _ _ ↦ True) start as :=
    eachStep_of_forall fun _ _ ↦ trivial
  have hstart : start.Sound served ∧ start.InLine served := (eachState_inLine served []).final
  refine (eachState_of_invariant (I := fun r ↦ (r.Sound served ∧ r.InLine served) ∧
    r.SoundBut served (r.IsRead served)) ⟨hstart, Answers.sound_nil⟩ hfree ?_).mono
      fun _ h ↦ h.2
  rintro r a ⟨⟨hsound, hline⟩, hbut⟩ -
  refine ⟨⟨hsound.step a, hline.step hsound a⟩, ?_⟩
  refine SoundBut.step (Answers.Sound.mono hbut fun output h ↦ h.step a) a fun output hfails ↦ ?_
  obtain ⟨_, readRequest, _, _, _, _, -, rfl, huploading⟩ := hfails
  refine IsRead.step (hline.isRead_of_pipeline hsound (List.mem_append_left _ ?_)) a
  rw [huploading]
  exact List.mem_singleton.mpr rfl

/-! ### The order of the answers -/

/-- Where a response is that is still written: in the line of its connection, or with the loop of
its connection. -/
theorem InLine.owner (h : r.InLine served) (hsound : r.Sound served) {output : Nat}
    {response : Response IncomingRequest UInt8} (hresponse : r.responses[output]? = some response)
    (hwriting : response.progress = .writing) :
    output ∈ r.waiting response.request.connection ∨
      ∃ loop left, r.loops[response.request.connection]? = some loop ∧
        loop.stage = .answering output left := by
  have hrequest : r.requests[output]? = some response.request := by
    rw [requests, List.getElem?_map, hresponse, Option.map_some]
  have hmem := hsound.owned output response hresponse hwriting
  rw [jobs, List.map_append, List.map_append, List.map_map] at hmem
  rcases List.mem_append.mp hmem with hpipeline | hloops
  · left
    refine List.mem_append_left _ (List.mem_filter.mpr ⟨hpipeline, ?_⟩)
    rw [belongs, hrequest, Option.map_some, beq_self_eq_true]
  · obtain ⟨job, hjob, rfl⟩ := List.mem_map.mp hloops
    obtain ⟨loop, hloop, hjob⟩ := List.mem_flatMap.mp hjob
    obtain ⟨c, hc⟩ := List.getElem?_of_mem hloop
    cases hstage : loop.stage with
    | accepting | ended =>
      rw [hstage] at hjob
      cases hjob
    | answering output left =>
      rw [hstage] at hjob
      obtain rfl := List.mem_singleton.mp hjob
      obtain ⟨⟨request, hrequest', hconnection, -⟩, -⟩ := h.answering c loop output left hc hstage
      obtain rfl := Option.some.inj (hrequest.symm.trans hrequest')
      exact Or.inr ⟨loop, left, hconnection ▸ hc, hstage⟩
    | queueing readRequest =>
      rw [hstage] at hjob
      obtain rfl := List.mem_singleton.mp hjob
      have hqueueing : r.queueingAt c = some readRequest := by
        rw [queueingAt, hc, Option.bind_some, hstage]
        rfl
      have hwaits : readRequest.output ∈ r.waiting c := by
        rw [waiting, hqueueing, Option.map_some, Option.toList_some]
        exact List.mem_append_right _ (List.mem_singleton.mpr rfl)
      obtain ⟨request, hrequest', hconnection, -⟩ := mem_reads.mp ((h.line c).subset hwaits)
      obtain rfl := Option.some.inj (hrequest.symm.trans hrequest')
      exact Or.inl (hconnection.symm ▸ hwaits)

private theorem job_of_queueingAt {readRequest : ReadRequest}
    (h : r.queueingAt c = some readRequest) : readRequest.job served ∈ r.jobs served := by
  obtain ⟨loop, hc, hstage⟩ := Option.bind_eq_some_iff.mp h
  refine List.mem_append_right _ (List.mem_flatMap.mpr ⟨loop, List.mem_of_getElem? hc, ?_⟩)
  unfold RequestLoop.Stage.queueing? at hstage
  split at hstage
  · next heq =>
    cases hstage
    rw [heq]
    exact List.mem_singleton.mpr rfl
  · cases hstage

/-- What waits is still written. -/
theorem Sound.writing_of_waiting (h : r.Sound served) {output : Nat}
    {response : Response IncomingRequest UInt8} (hresponse : r.responses[output]? = some response)
    (hwaits : output ∈ r.waiting c) : response.progress = .writing := by
  have hjob : output ∈ (r.jobs served).map Job.output := by
    rcases List.mem_append.mp hwaits with hpipeline | hloop
    · rw [jobs, List.map_append, List.map_append, List.map_map]
      exact List.mem_append_left _ (List.mem_filter.mp hpipeline).1
    · obtain ⟨readRequest, hqueueing, rfl⟩ :=
        Option.map_eq_some_iff.mp (Option.mem_toList.mp hloop)
      exact List.mem_map_of_mem (f := Job.output) (job_of_queueingAt hqueueing)
  obtain ⟨job, hj, rfl⟩ := List.mem_map.mp hjob
  obtain ⟨response', hresponse', hwriting, -⟩ := h.job job hj
  obtain rfl := Option.some.inj (hresponse.symm.trans hresponse')
  exact hwriting

/-- A read request on which something was written is with the uploader. -/
theorem InLine.first (h : r.InLine served) (hsound : r.Sound served) {output : Nat}
    {response : Response IncomingRequest UInt8} (hresponse : r.responses[output]? = some response)
    (hwaits : output ∈ r.waiting c) (hwritten : response.written ≠ []) :
    ∃ rest, r.waiting c = output :: rest := by
  -- behind the uploader no response is begun
  have hbehind (readRequest : ReadRequest) (houtput : readRequest.output = output)
      (hmem : readRequest ∈ r.uploadQueue ∨ ∃ c, r.queueingAt c = some readRequest)
      (hjob : readRequest.job served ∈ r.jobs served) : False := by
    obtain ⟨request, hrequest, hdecoded⟩ := h.decoded readRequest hmem
    obtain ⟨response', hresponse', -, hanswer⟩ := hsound.job _ hjob
    obtain rfl : response' = response := by
      rw [show (readRequest.job served).output = output from houtput, hresponse] at hresponse'
      exact (Option.some.inj hresponse').symm
    rw [requests, List.getElem?_map, houtput, hresponse, Option.map_some] at hrequest
    obtain rfl := Option.some.inj hrequest
    have hread : served.answer response'.request = served.readAnswer readRequest.query := by
      rw [Served.answer, hdecoded]
    rw [hread] at hanswer
    exact hwritten (List.append_left_eq_self.mp hanswer)
  rw [waiting, pipeline, List.filter_append, List.append_assoc] at hwaits ⊢
  rcases List.mem_append.mp hwaits with huploader | hothers
  · obtain ⟨hjob, hbelongs⟩ := List.mem_filter.mp huploader
    cases hstage : r.uploader with
    | waiting =>
      rw [hstage] at hjob
      cases hjob
    | uploading | refusing =>
      rw [hstage] at hjob
      obtain rfl := List.mem_singleton.mp hjob
      rw [Uploader.Stage.jobs, List.map_singleton, List.filter_cons_of_pos hbelongs]
      exact ⟨_, rfl⟩
  · exfalso
    rcases List.mem_append.mp hothers with hqueue | hloop
    · obtain ⟨readRequest, hmem, houtput⟩ := List.mem_map.mp (List.mem_filter.mp hqueue).1
      refine hbehind readRequest houtput (Or.inl hmem) ?_
      exact List.mem_append_left _ (List.mem_append_right _ (List.mem_map_of_mem hmem))
    · obtain ⟨readRequest, hqueueing, houtput⟩ :=
        Option.map_eq_some_iff.mp (Option.mem_toList.mp hloop)
      exact hbehind readRequest houtput (Or.inr ⟨c, hqueueing⟩) (job_of_queueingAt hqueueing)

/-- In every state of every run: before a connection accepts its next request, the answer to an
index query has ended; and before the first byte of the answer to a read request, the answers to
all earlier read requests of the connection have. -/
theorem answers_in_order (served : Served) (as : List Action) :
    EachState (step served) (fun r ↦ ∀ (i j : Nat) (earlier later : Response IncomingRequest UInt8),
      i < j → r.responses[i]? = some earlier → r.responses[j]? = some later →
      earlier.request.connection = later.request.connection →
      (served.isRead earlier.request = true → served.isRead later.request = true ∧
        (later.written ≠ [] ∨ later.progress ≠ .writing)) →
      earlier.progress ≠ .writing) start as := by
  refine (eachState_inLine served as).mono fun r h ↦ ?_
  obtain ⟨hsound, hline⟩ := h
  intro i j earlier later hij hi hj hconnection hbegun hwriting
  have hrequest {n : Nat} {response : Response IncomingRequest UInt8}
      (hn : r.responses[n]? = some response) : r.requests[n]? = some response.request := by
    rw [requests, List.getElem?_map, hn, Option.map_some]
  rcases hline.owner hsound hi hwriting with hwaits | ⟨loop, left, hc, hstage⟩
  · have hread : served.isRead earlier.request = true := by
      obtain ⟨request, hi', -, hread⟩ := mem_reads.mp ((hline.line _).subset hwaits)
      obtain rfl := Option.some.inj ((hrequest hi).symm.trans hi')
      exact hread
    obtain ⟨hread', hbegun⟩ := hbegun hread
    obtain ⟨ended, hends⟩ := hline.line earlier.request.connection
    have hsorted : (r.reads served earlier.request.connection).Pairwise (· < ·) :=
      List.pairwise_findIdxs
    have hmem : j ∈ r.reads served earlier.request.connection :=
      mem_reads.mpr ⟨_, hrequest hj, hconnection.symm, hread'⟩
    rw [← hends] at hsorted hmem
    obtain ⟨-, hsortedWaiting, hbefore⟩ := List.pairwise_append.mp hsorted
    rcases List.mem_append.mp hmem with hended | hjwaits
    · have hlt := hbefore j hended i hwaits
      omega
    · have hwritten : later.written ≠ [] :=
        hbegun.resolve_right fun hstopped ↦ hstopped (hsound.writing_of_waiting hj hjwaits)
      obtain ⟨rest, hfirst⟩ := hline.first hsound hj hjwaits hwritten
      rw [hfirst] at hwaits hsortedWaiting
      rcases List.mem_cons.mp hwaits with rfl | hrest
      · exact Nat.lt_irrefl _ hij
      · have hlt := List.rel_of_pairwise_cons hsortedWaiting hrest
        omega
  · have hle := (hline.answering _ loop i left hc hstage).2 j _ (hrequest hj) hconnection.symm
    omega

end Serving

end HarddriveParty
