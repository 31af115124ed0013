import HarddriveParty.Node.Channels

/-!
# The channel of an answer that is not read yet

`post_files` sends cached answers into a bounded channel, whose other end it hands out only when
it returns. It returns exactly when it never has more messages to send than the channel takes
without a reader.
-/

namespace HarddriveParty

open Bincode

variable {codec : Codec LsResponse} {uiCodec : Codec (Except UiServerError (LsResponse × String))}

/-- How many messages the channel of a response takes, apart from one for each sender
(`src/ui_server/api.rs:59`). -/
def responseBuffer : Nat := 256

/-- A task that holds a sender of a channel. -/
def FilesTask.sends (channel : Nat) : FilesTask → Bool
  | .postFiles _ (.returned _) => false
  | .postFiles channel' _ => channel' = channel
  | .collector _ .finished => false
  | .collector c _ => c.channel = channel

/-- The task of an answer sends a message, or drops its sender: its channel takes one message
less. -/
def Collector.TakesPlace (codec : Codec LsResponse) (input : FilesInput) :
    Collector.Stage → Prop
  | .collect stream _ _ _ =>
    input = .send .sent ∧ ∃ lsResponse, (stream.next codec).1 = some (.ok lsResponse)
  | .write _ _ _ => True
  | .finished => False

/-- The task has not dropped its sender. -/
def Collector.Stage.isOpen : Collector.Stage → Bool
  | .finished => false
  | .collect _ _ _ _ | .write _ _ _ => true

theorem FilesTask.sends_collector (c : Collector) (stage : Collector.Stage) :
    (FilesTask.collector c stage).sends c.channel = stage.isOpen := by
  cases stage with
  | finished => rfl
  | collect stream unread cachedEntries cacheFull => exact decide_eq_true rfl
  | write unread cachedEntries cacheFull => exact decide_eq_true rfl

variable (codec uiCodec) in
/-- The task of an answer takes a place in its channel with each message, and gives the place
of its sender up in the end. -/
theorem Collector.places_next (c : Collector) (node : FilesNode) (input : FilesInput)
    (stage : Stage) :
    ∃ places, (TakesPlace codec input stage ∧ places = 1 ∨
        ¬TakesPlace codec input stage ∧ places = 0) ∧
      ((c.next codec uiCodec node input stage).1.bodies c.channel).length + stage.isOpen.toNat =
        (node.bodies c.channel).length +
          (c.next codec uiCodec node input stage).2.isOpen.toNat + places := by
  cases stage with
  | finished => exact ⟨0, Or.inr ⟨id, rfl⟩, rfl⟩
  | write unread cachedEntries cacheFull =>
    refine ⟨1, Or.inl ⟨trivial, rfl⟩, ?_⟩
    show ((c.write node cachedEntries cacheFull).bodies c.channel).length + 1 = _
    rw [write_bodies]
    rfl
  | collect stream unread cachedEntries cacheFull =>
    by_cases hsent : TakesPlace codec input (.collect stream unread cachedEntries cacheFull)
    · refine ⟨1, Or.inl ⟨hsent, rfl⟩, ?_⟩
      obtain ⟨rfl, lsResponse, hnext⟩ := hsent
      rw [next, collect_of_sent (Prod.ext hnext rfl), FilesNode.send_bodies, List.length_append]
      rfl
    · refine ⟨0, Or.inr ⟨hsent, rfl⟩, ?_⟩
      have hnot : input ≠ .send .sent ∨
          ∀ lsResponse, (stream.next codec).1 ≠ some (.ok lsResponse) := by
        by_cases hinput : input = .send .sent
        · exact Or.inr fun lsResponse hnext ↦ hsent ⟨hinput, lsResponse, hnext⟩
        · exact Or.inl hinput
      have hstops : ∃ unread' cachedEntries' cacheFull',
          c.collect codec uiCodec node input stream unread cachedEntries cacheFull =
            (node, .write unread' cachedEntries' cacheFull') :=
        collect_of_not_sent hnot unread cachedEntries cacheFull
      obtain ⟨unread', cachedEntries', cacheFull', hcollect⟩ := hstops
      rw [next, hcollect]
      rfl

namespace FilesRuntime

/-- The messages in a channel from which nothing has been read. -/
def queued (r : FilesRuntime) (channel : Nat) : Nat := (r.node.bodies channel).length

/-- What a channel takes without a reader: a send waits when as many messages are queued. -/
def accepts (r : FilesRuntime) (channel : Nat) : Nat :=
  responseBuffer + r.tasks.countP (FilesTask.sends channel)

/-- The call has these chunks of a cached answer still to send. -/
def Serving (r : FilesRuntime) (i : Nat) (responses : List (List Entry)) : Prop :=
  ∃ peerName rest, r.stageOf i = some (.serve peerName responses rest)

/-- The call waits to send on its own channel, which nobody reads. -/
def Blocked (r : FilesRuntime) (i : Nat) : Prop :=
  ∃ entries responses, r.Serving i (entries :: responses) ∧ r.accepts i ≤ r.queued i

/-- The call has returned, and hands its channel to the body of the response. -/
def Returned (r : FilesRuntime) (i : Nat) : Prop :=
  ∃ result, r.stageOf i = some (.returned result)

/-- A task sends only what its channel takes, as long as the call has not returned, and the
receiver that the call holds is not dropped. -/
def AcceptsTask (r : FilesRuntime) (input : FilesInput) : Option FilesTask → Prop
  | some (.postFiles channel (.serve _ (_ :: _) _)) =>
    input = .send .sent ∧ r.queued channel < r.accepts channel
  | some (.collector c _) =>
    input = .send .sent → r.Returned c.channel ∨ r.queued c.channel < r.accepts c.channel
  | _ => True

/-- The task that runs does. -/
def Accepts (r : FilesRuntime) : Action → Prop
  | .run i input => r.AcceptsTask input r.tasks[i]?
  | .connect _ | .disconnect _ | .query _ => True

/-- There is room in the channel of a call for what the call serves. When it finds an answer in
a cache, all of it fits, and while it serves the answer no other task takes the place of what is
left. -/
def RoomFor (codec : Codec LsResponse) (i : Nat) (r : FilesRuntime) (input : FilesInput) :
    Option FilesTask → Prop
  | some (.postFiles channel (.readCache request peerName connection _)) =>
    channel = i → ∀ entries responses,
      ((r.node.indexCache peerName connection).get request).1 = some (entries :: responses) →
      r.queued i + (entries :: responses).length ≤ r.accepts i
  | some (.collector c stage) =>
    c.channel = i → Collector.TakesPlace codec input stage → ∀ entries responses,
      r.Serving i (entries :: responses) →
      r.queued i + (entries :: responses).length + 1 ≤ r.accepts i
  | _ => True

/-- The task that runs leaves room in the channel of a call for what the call serves. -/
def Room (codec : Codec LsResponse) (i : Nat) (r : FilesRuntime) : Action → Prop
  | .run k input => r.RoomFor codec i input r.tasks[k]?
  | .connect _ | .disconnect _ | .query _ => True

/-- What the call has still to send of a cached answer fits into its channel. -/
def FitsAt (r : FilesRuntime) (i : Nat) : Prop :=
  ∀ entries responses, r.Serving i (entries :: responses) →
    r.queued i + (entries :: responses).length ≤ r.accepts i

variable {r : FilesRuntime} {i j : Nat} {input : FilesInput}

/-! ### What one step changes -/

/-- What a channel takes changes by the senders of the task that makes a step. -/
private theorem countP_sends_set {task : FilesTask} (h : r.tasks[i]? = some task)
    (task' : FilesTask) (j : Nat) :
    (r.tasks.set i task').countP (FilesTask.sends j) + (task.sends j).toNat =
      r.tasks.countP (FilesTask.sends j) + (task'.sends j).toNat := by
  obtain ⟨hlt, hget⟩ := List.getElem?_eq_some_iff.mp h
  have hle := List.boole_getElem_le_countP (p := FilesTask.sends j) (h := hlt)
  rw [hget] at hle
  rw [List.countP_set hlt, hget]
  cases hold : task.sends j <;> cases hnew : task'.sends j <;> simp_all

/-- A call that stays where it is on a channel that stays as it is has as much room as
before. -/
private theorem fitsAt_congr {r' : FilesRuntime} (hstage : r'.stageOf j = r.stageOf j)
    (hqueued : r'.queued j = r.queued j) (haccepts : r'.accepts j = r.accepts j) :
    r'.FitsAt j ↔ r.FitsAt j := by
  unfold FitsAt Serving
  rw [hstage, hqueued, haccepts]

/-- A call that serves no cached answer needs no room. -/
private theorem fitsAt_of_stage {stage : PostFiles.Stage} (h : r.stageOf i = some stage)
    (hstage : ∀ peerName entries responses rest,
      stage ≠ .serve peerName (entries :: responses) rest) : r.FitsAt i := by
  rintro entries responses ⟨peerName, rest, hserve⟩
  rw [h] at hserve
  injection hserve with hserve
  exact absurd hserve (hstage peerName entries responses rest)

/-- A call that serves a cached answer needs room for the rest of it. -/
private theorem fitsAt_serve {peerName : String} {entries : List Entry}
    {responses : List (List Entry)} {rest : List (Request × String)}
    (h : r.stageOf i = some (.serve peerName (entries :: responses) rest)) :
    r.FitsAt i ↔ r.queued i + (entries :: responses).length ≤ r.accepts i := by
  constructor
  · exact fun hfits ↦ hfits entries responses ⟨peerName, rest, h⟩
  · rintro hroom entries' responses' ⟨peerName', rest', hserve⟩
    rw [h] at hserve
    cases hserve
    exact hroom

variable (codec uiCodec input) in
/-- The task of an answer takes at most one place in the channel of its call. -/
private theorem places_collector {c : Collector} {stage : Collector.Stage}
    (htask : r.tasks[i]? = some (.collector c stage)) :
    ∃ places, (Collector.TakesPlace codec input stage ∧ places = 1 ∨
        ¬Collector.TakesPlace codec input stage ∧ places = 0) ∧
      (r.runTask codec uiCodec i input).queued c.channel + r.accepts c.channel =
        r.queued c.channel + (r.runTask codec uiCodec i input).accepts c.channel + places := by
  obtain ⟨places, htakes, hplaces⟩ :=
    c.places_next codec uiCodec r.node input stage
  have hsends := countP_sends_set htask
    (.collector c (c.next codec uiCodec r.node input stage).2) c.channel
  rw [FilesTask.sends_collector, FilesTask.sends_collector] at hsends
  refine ⟨places, htakes, ?_⟩
  rw [runTask_collector htask]
  unfold queued accepts
  simp only
  omega

/-- What a channel takes while a call makes a step that starts no task. -/
private theorem accepts_postFiles {stage : PostFiles.Stage}
    (htask : r.tasks[i]? = some (.postFiles i stage))
    (hspawned : (PostFiles.step uiCodec codec r.node i input stage).2.2 = none)
    (hsends : (FilesTask.postFiles i (PostFiles.step uiCodec codec r.node i input stage).2.1).sends
      i = (FilesTask.postFiles i stage).sends i) :
    (r.runTask codec uiCodec i input).accepts i = r.accepts i := by
  have hcount := countP_sends_set htask
    (.postFiles i (PostFiles.step uiCodec codec r.node i input stage).2.1) i
  rw [hsends] at hcount
  rw [runTask_postFiles htask, hspawned]
  unfold accepts
  rw [Option.map_none, Option.toList_none, List.append_nil]
  simp only
  omega

/-- A call takes places in its own channel only. -/
private theorem fitsAt_postFiles_of_ne {stage : PostFiles.Stage} (hne : j ≠ i)
    (htask : r.tasks[i]? = some (.postFiles i stage)) :
    (r.runTask codec uiCodec i input).FitsAt j ↔ r.FitsAt j := by
  apply fitsAt_congr (stageOf_runTask_of_ne hne)
  · unfold queued
    rw [runTask_postFiles htask, (PostFiles.sends_step input stage).bodies_of_ne hne]
  · have hother (stage : PostFiles.Stage) : (FilesTask.postFiles i stage).sends j = false := by
      cases stage <;> first | rfl | exact decide_eq_false hne.symm
    have hcount := countP_sends_set htask
      (.postFiles i (PostFiles.step uiCodec codec r.node i input stage).2.1) j
    rw [hother, hother] at hcount
    have hspawned : (((PostFiles.step uiCodec codec r.node i input stage).2.2.map
        fun task ↦ FilesTask.collector task.1 task.2).toList).countP (FilesTask.sends j) = 0 := by
      rw [List.countP_eq_zero]
      intro task hmem
      obtain ⟨⟨c, cstage⟩, hspawned, rfl⟩ := Option.map_eq_some_iff.mp (Option.mem_toList.mp hmem)
      have hchannel : c.channel = i := PostFiles.step_spawned input stage _ hspawned
      have hnot : ¬ c.channel = j := fun h ↦ hne (h.symm.trans hchannel)
      cases cstage <;> simp [FilesTask.sends, hnot]
    rw [runTask_postFiles htask]
    unfold accepts
    simp only
    rw [List.countP_append, hspawned]
    omega

/-- A call that is at no cached answer does not start to serve one. -/
private theorem step_ne_serve {node : FilesNode} {stage : PostFiles.Stage}
    (hcache : ∀ request peerName connection rest,
      stage ≠ .readCache request peerName connection rest)
    (hserve : ∀ peerName entries responses rest,
      stage ≠ .serve peerName (entries :: responses) rest) :
    ∀ peerName entries responses rest,
      (PostFiles.step uiCodec codec node i input stage).2.1 ≠
        .serve peerName (entries :: responses) rest := by
  intro peerName entries responses rest h
  cases stage with
  | start filesQuery =>
    obtain ⟨name, query⟩ := filesQuery
    cases name <;> cases h
  | next requests =>
    cases requests with
    | nil => cases h
    | cons request rest =>
      rw [PostFiles.step] at h
      split at h <;> cases h
  | readCache request peerName connection rest => exact hcache _ _ _ _ rfl
  | serve peerName responses rest =>
    cases responses with
    | nil => cases h
    | cons entries responses => exact hserve _ _ _ _ rfl
  | ask request peerName rest =>
    replace h : (PostFiles.ask codec node i request peerName rest input).2.1 = _ := h
    unfold PostFiles.ask at h
    split at h
    · cases h
    · split at h <;> cases h
  | returned result => cases h

/-- When a call finds a cached answer there is room for it exactly when it fits. -/
private theorem fitsAt_readCache {request : Request} {peerName : String} {connection : Nat}
    {rest : List (Request × String)}
    (htask : r.tasks[i]? = some (.postFiles i (.readCache request peerName connection rest))) :
    (r.runTask codec uiCodec i input).FitsAt i ↔ r.FitsAt i ∧ r.RoomFor codec i input
      (some (.postFiles i (.readCache request peerName connection rest))) := by
  have hold : r.FitsAt i :=
    fitsAt_of_stage (stageOf_eq_some.mpr ⟨i, htask⟩) fun _ _ _ _ heq ↦ by cases heq
  have hnext : (r.runTask codec uiCodec i input).stageOf i =
      some (PostFiles.readCache r.node request peerName connection rest).2 :=
    stageOf_eq_some.mpr ⟨i, task_runTask_self htask⟩
  have hqueued : (r.runTask codec uiCodec i input).queued i = r.queued i := by
    unfold queued
    rw [runTask_postFiles htask]
    exact congrArg List.length (congrFun (PostFiles.readCache_bodies _ _ _ _) i)
  rw [and_iff_right hold]
  rw [PostFiles.readCache_stage] at hnext
  cases hget : ((r.node.indexCache peerName connection).get request).1 with
  | none =>
    rw [hget] at hnext
    have hfits := fitsAt_of_stage hnext fun _ _ _ _ heq ↦ by cases heq
    exact iff_of_true hfits fun _ entries responses hsome ↦
      absurd (hget.symm.trans hsome) (fun heq ↦ by cases heq)
  | some cached =>
    rw [hget] at hnext
    have haccepts : (r.runTask codec uiCodec i input).accepts i = r.accepts i := by
      apply accepts_postFiles htask rfl
      show (FilesTask.postFiles i (PostFiles.readCache r.node request peerName connection
        rest).2).sends i = _
      rw [PostFiles.readCache_stage, hget]
      rfl
    cases cached with
    | nil =>
      have hfits := fitsAt_of_stage hnext fun _ _ _ _ heq ↦ by cases heq
      exact iff_of_true hfits fun _ entries responses hsome ↦
        absurd (hget.symm.trans hsome) (fun heq ↦ by cases heq)
    | cons entries responses =>
      rw [fitsAt_serve hnext, hqueued, haccepts]
      constructor
      · rintro hroom - entries' responses' hsome
        rw [hget] at hsome
        cases hsome
        exact hroom
      · exact fun hroom ↦ hroom rfl entries responses hget

variable (codec uiCodec) in
/-- A chunk that is sent is queued. -/
private theorem queued_runTask_sent {peerName : String} {entries : List Entry}
    {responses : List (List Entry)} {rest : List (Request × String)}
    (htask : r.tasks[i]? =
      some (.postFiles i (.serve peerName (entries :: responses) rest))) :
    (r.runTask codec uiCodec i (.send .sent)).queued i = r.queued i + 1 := by
  unfold queued
  rw [runTask_postFiles htask]
  show ((r.node.send uiCodec i (.success entries) peerName).bodies i).length = _
  rw [FilesNode.send_bodies]
  exact List.length_append

/-- A chunk that is sent moves from what is left to what is queued. -/
private theorem fitsAt_sent {peerName : String} {entries : List Entry}
    {responses : List (List Entry)} {rest : List (Request × String)}
    (htask : r.tasks[i]? =
      some (.postFiles i (.serve peerName (entries :: responses) rest)))
    (hroom : r.queued i < r.accepts i) :
    (r.runTask codec uiCodec i (.send .sent)).FitsAt i ↔ r.FitsAt i := by
  have hnext : (r.runTask codec uiCodec i (.send .sent)).stageOf i =
      some (.serve peerName responses rest) :=
    stageOf_eq_some.mpr ⟨i, task_runTask_self htask⟩
  have hqueued := queued_runTask_sent codec uiCodec htask
  have haccepts : (r.runTask codec uiCodec i (.send .sent)).accepts i = r.accepts i :=
    accepts_postFiles htask rfl rfl
  rw [fitsAt_serve (stageOf_eq_some.mpr ⟨i, htask⟩)]
  cases responses with
  | nil =>
    exact iff_of_true (fitsAt_of_stage hnext fun _ _ _ _ heq ↦ by cases heq) hroom
  | cons entries' responses =>
    rw [fitsAt_serve hnext, hqueued, haccepts, List.length_cons, List.length_cons,
      List.length_cons]
    omega

/-- A step of a call leaves room in its channel exactly when there was room, and there is room
for the cached answer that it may find. -/
private theorem fitsAt_postFiles {stage : PostFiles.Stage}
    (htask : r.tasks[i]? = some (.postFiles i stage))
    (haccepts : r.AcceptsTask input (some (.postFiles i stage))) :
    (r.runTask codec uiCodec i input).FitsAt i ↔
      r.FitsAt i ∧ r.RoomFor codec i input (some (.postFiles i stage)) := by
  have hstage : r.stageOf i = some stage := stageOf_eq_some.mpr ⟨i, htask⟩
  have hnext : (r.runTask codec uiCodec i input).stageOf i =
      some (PostFiles.step uiCodec codec r.node i input stage).2.1 :=
    stageOf_eq_some.mpr ⟨i, task_runTask_self htask⟩
  by_cases hcache : ∃ request peerName connection rest,
      stage = .readCache request peerName connection rest
  · obtain ⟨request, peerName, connection, rest, rfl⟩ := hcache
    exact fitsAt_readCache htask
  · by_cases hserve : ∃ peerName entries responses rest,
        stage = .serve peerName (entries :: responses) rest
    · obtain ⟨peerName, entries, responses, rest, rfl⟩ := hserve
      obtain ⟨rfl, hroom⟩ := haccepts
      rw [fitsAt_sent htask hroom]
      exact (and_iff_left trivial).symm
    · push Not at hcache hserve
      have hold : r.FitsAt i := fitsAt_of_stage hstage hserve
      have hnew := fitsAt_of_stage hnext (step_ne_serve hcache hserve)
      have hroom : r.RoomFor codec i input (some (.postFiles i stage)) := by
        cases stage with
        | readCache request peerName connection rest => exact absurd rfl (hcache _ _ _ _)
        | _ => trivial
      exact iff_of_true hnew ⟨hold, hroom⟩

/-- A step of the task of an answer leaves room exactly when there was room, and it takes no
place that the call needs. -/
private theorem fitsAt_collector {c : Collector} {stage : Collector.Stage}
    (htask : r.tasks[i]? = some (.collector c stage)) :
    (r.runTask codec uiCodec i input).FitsAt j ↔
      r.FitsAt j ∧ r.RoomFor codec j input (some (.collector c stage)) := by
  by_cases hne : c.channel = j
  · subst hne
    obtain ⟨places, htakes, hplaces⟩ :=
      places_collector codec uiCodec input htask
    have hserving (responses : List (List Entry)) :
        (r.runTask codec uiCodec i input).Serving c.channel responses ↔
          r.Serving c.channel responses := by
      unfold Serving
      rw [stageOf_runTask_collector htask]
    constructor
    · intro hfits
      constructor
      · intro entries responses hserve
        have hnew := hfits entries responses ((hserving _).mpr hserve)
        omega
      · rintro - htakes' entries responses hserve
        obtain ⟨-, rfl⟩ := htakes.resolve_right fun h ↦ h.1 htakes'
        have hnew := hfits entries responses ((hserving _).mpr hserve)
        omega
    · rintro ⟨hfits, hroom⟩ entries responses hnew
      have hserve := (hserving _).mp hnew
      have hold := hfits entries responses hserve
      rcases htakes with ⟨htakes, rfl⟩ | ⟨-, rfl⟩
      · have hplace := hroom rfl htakes entries responses hserve
        omega
      · omega
  · have hroom : r.RoomFor codec j input (some (.collector c stage)) := fun h ↦ absurd h hne
    rw [and_iff_left hroom]
    apply fitsAt_congr (stageOf_runTask_collector htask)
    · unfold queued
      rw [runTask_collector htask, (Collector.sends_next input stage).bodies_of_ne (Ne.symm hne)]
    · have hnot (stage : Collector.Stage) : (FilesTask.collector c stage).sends j = false := by
        cases stage <;> first | rfl | exact decide_eq_false hne
      have hcount := countP_sends_set htask
        (.collector c (c.next codec uiCodec r.node input stage).2) j
      rw [hnot, hnot] at hcount
      rw [runTask_collector htask]
      unfold accepts
      simp only
      omega

/-- A new call needs no room yet. -/
private theorem fitsAt_query (filesQuery : FilesQuery) :
    (r.step codec uiCodec (.query filesQuery)).FitsAt j ↔ r.FitsAt j := by
  by_cases hlt : j < r.tasks.length
  · apply fitsAt_congr (stageOf_query filesQuery hlt) rfl
    show responseBuffer + (r.tasks ++ [_]).countP _ = _
    rw [List.countP_append, List.countP_singleton, if_neg]
    · rfl
    · exact fun h ↦ Nat.ne_of_gt hlt (of_decide_eq_true h)
  · have hge : r.tasks.length ≤ j := Nat.not_lt.mp hlt
    apply iff_of_true
    · rintro entries responses ⟨peerName, rest, hserve⟩
      obtain ⟨channel, htask⟩ := stageOf_eq_some.mp hserve
      replace htask : (r.tasks ++ [_])[j]? = _ := htask
      rw [List.getElem?_append_right hge, List.getElem?_singleton] at htask
      split at htask <;> cases htask
    · rintro entries responses ⟨peerName, rest, hserve⟩
      obtain ⟨channel, htask⟩ := stageOf_eq_some.mp hserve
      rw [List.getElem?_eq_none hge] at htask
      cases htask

/-- A step leaves room in the channel of a call exactly when there was room, and there is room
for what the step sends. -/
theorem fitsAt_step (hown : r.OwnChannels) {a : Action} (haccepts : r.Accepts a) :
    (r.step codec uiCodec a).FitsAt j ↔ r.FitsAt j ∧ r.Room codec j a := by
  cases a with
  | connect peerName => exact (and_iff_left trivial).symm
  | disconnect peerName => exact (and_iff_left trivial).symm
  | query filesQuery =>
    rw [fitsAt_query]
    exact (and_iff_left trivial).symm
  | run i input =>
    show (r.runTask codec uiCodec i input).FitsAt j ↔
      r.FitsAt j ∧ r.RoomFor codec j input r.tasks[i]?
    replace haccepts : r.AcceptsTask input r.tasks[i]? := haccepts
    cases htask : r.tasks[i]? with
    | none =>
      rw [runTask_none htask]
      exact (and_iff_left trivial).symm
    | some task =>
      rw [htask] at haccepts
      cases task with
      | collector c stage => exact fitsAt_collector htask
      | postFiles channel stage =>
        obtain rfl := hown i channel stage htask
        by_cases hne : j = channel
        · rw [hne]
          exact fitsAt_postFiles htask haccepts
        · have hroom : r.RoomFor codec j input (some (.postFiles channel stage)) := by
            cases stage with
            | readCache request peerName connection rest => exact fun h ↦ absurd h.symm hne
            | _ => trivial
          rw [fitsAt_postFiles_of_ne hne htask, and_iff_left hroom]

/-! ### Whole runs -/

/-- A call with room in its channel does not wait. -/
theorem FitsAt.not_blocked (h : r.FitsAt i) : ¬ r.Blocked i := by
  rintro ⟨entries, responses, hserve, hfull⟩
  have hfits := h entries responses hserve
  rw [List.length_cons] at hfits
  omega

/-- A call that has returned needs no more room. -/
theorem Returned.fitsAt (h : r.Returned i) : r.FitsAt i := by
  obtain ⟨result, hreturned⟩ := h
  exact fitsAt_of_stage hreturned fun _ _ _ _ heq ↦ by cases heq

/-- Until a call returns there has always been room in its channel. -/
theorem Returned.eachState_fitsAt {actions : List Action} (hown : r.OwnChannels)
    (haccepts : Runs.EachStep (step codec uiCodec) Accepts r actions)
    (h : (Runs.finalState (step codec uiCodec) r actions).Returned i) :
    Runs.EachState (step codec uiCodec) (fun r ↦ r.FitsAt i) r actions := by
  apply Runs.eachState_of_finalState hown haccepts (fun r a hr _ ↦ hr.step a) _ h.fitsAt
  exact fun r a hr ha hnext ↦ ((fitsAt_step hr ha).mp hnext).1

/-- A call that waits on its own channel never returns. -/
theorem Blocked.not_returned (hown : r.OwnChannels) (h : r.Blocked i) {actions : List Action}
    (haccepts : Runs.EachStep (step codec uiCodec) Accepts r actions) :
    ¬ (Runs.finalState (step codec uiCodec) r actions).Returned i := fun hreturned ↦
  (Runs.eachState_iff.mp (hreturned.eachState_fitsAt hown haccepts)).1.not_blocked h

/-! ### Calls that find a cached answer -/

/-- A peer of which the answer to the query of all its files is in the cache. -/
def cachedNode (chunks : List (List Entry)) : FilesNode where
  peers := (∅ : AList fun _ : String ↦ Nat).insert "n" 0
  connections := 1
  indexCache := fun _ _ ↦ LruCache.empty.put (.ls ⟨none, none, true⟩) chunks
  bodies := fun _ ↦ []
  sent := []
  served := []

/-- The query is asked, and the call runs up to the cached answer. -/
def findCached : List Action :=
  [.query ⟨some "n", ⟨none, none, true⟩⟩, .run 0 .lock, .run 0 .lock, .run 0 .lock]

/-- The chunks that a channel takes without a reader can be sent. -/
private theorem send_chunks (codec : Codec LsResponse)
    (uiCodec : Codec (Except UiServerError (LsResponse × String))) {peerName : String}
    {rest : List (Request × String)} (responses more : List (List Entry))
    (htasks : r.tasks = [.postFiles 0 (.serve peerName (responses ++ more) rest)])
    (hroom : r.queued 0 + responses.length ≤ responseBuffer + 1) :
    let sends := responses.map fun _ ↦ Action.run 0 (.send .sent)
    let final := Runs.finalState (step codec uiCodec) r sends
    Runs.EachStep (step codec uiCodec) Accepts r sends ∧
      final.tasks = [.postFiles 0 (.serve peerName more rest)] ∧
      final.queued 0 = r.queued 0 + responses.length := by
  induction responses generalizing r with
  | nil => exact ⟨trivial, htasks, rfl⟩
  | cons entries responses ih =>
    have htask : r.tasks[0]? =
        some (.postFiles 0 (.serve peerName (entries :: (responses ++ more)) rest)) := by
      rw [htasks]
      rfl
    have hnext : (r.runTask codec uiCodec 0 (.send .sent)).tasks =
        [.postFiles 0 (.serve peerName (responses ++ more) rest)] := by
      rw [runTask_postFiles htask, htasks]
      rfl
    have hqueued := queued_runTask_sent codec uiCodec htask
    rw [List.length_cons] at hroom
    obtain ⟨hrun, hlast, hlength⟩ := ih hnext (by omega)
    refine ⟨⟨?_, hrun⟩, hlast, ?_⟩
    · show r.AcceptsTask (.send .sent) r.tasks[0]?
      rw [htask]
      refine ⟨rfl, ?_⟩
      unfold accepts
      rw [htasks]
      show r.queued 0 < responseBuffer + 1
      omega
    · apply hlength.trans
      rw [List.length_cons]
      omega

/-- The call is at the cached answer when it has run so far. -/
private theorem findCached_tasks (codec : Codec LsResponse)
    (uiCodec : Codec (Except UiServerError (LsResponse × String)))
    (chunks : List (List Entry)) :
    let r := Runs.finalState (step codec uiCodec) (idle (cachedNode chunks)) findCached
    r.tasks = [.postFiles 0 (.serve "n" chunks [])] ∧ r.queued 0 = 0 := by
  constructor <;> rfl

/-- A call that finds one chunk more than the channel takes waits to send it. -/
private theorem blocked_of_cached (codec : Codec LsResponse)
    (uiCodec : Codec (Except UiServerError (LsResponse × String)))
    (chunks : List (List Entry)) (last : List Entry) (hfull : chunks.length = responseBuffer + 1) :
    let start := idle (cachedNode (chunks ++ [last]))
    let actions := findCached ++ chunks.map fun _ ↦ Action.run 0 (.send .sent)
    Runs.EachStep (step codec uiCodec) Accepts start actions ∧
      (Runs.finalState (step codec uiCodec) start actions).Blocked 0 := by
  intro start actions
  obtain ⟨hfound, hempty⟩ := findCached_tasks codec uiCodec (chunks ++ [last])
  obtain ⟨hrun, htasks, hqueued⟩ := send_chunks codec uiCodec chunks [last] hfound
    (by rw [hempty, hfull, Nat.zero_add])
  rw [← Runs.finalState_append] at htasks hqueued
  refine ⟨⟨trivial, trivial, trivial, trivial, hrun⟩, last, [], ⟨"n", [], ?_⟩, ?_⟩
  · exact stageOf_eq_some.mpr ⟨0, congrArg (·[0]?) htasks⟩
  · rw [hqueued, hempty, hfull]
    unfold accepts
    rw [htasks]
    exact Nat.le_add_left _ _

/-! ### When a call returns -/

/-- As long as the steps leave room in the channel of a call for the cached answers that it
serves, the call never waits on this channel. When it has been run until it returned or waits
on its own channel, it has returned exactly when all steps left room. -/
theorem post_files_returns_iff (codec : Codec LsResponse)
    (uiCodec : Codec (Except UiServerError (LsResponse × String))) (node : FilesNode)
    (actions : List Action) (i : Nat)
    (haccepts : Runs.EachStep (step codec uiCodec) Accepts (idle node) actions) :
    let final := Runs.finalState (step codec uiCodec) (idle node) actions
    (Runs.EachStep (step codec uiCodec) (Room codec i) (idle node) actions →
      Runs.EachState (step codec uiCodec) (fun r ↦ ¬ r.Blocked i) (idle node) actions) ∧
    (final.Returned i ∨ final.Blocked i →
      (final.Returned i ↔
        Runs.EachStep (step codec uiCodec) (Room codec i) (idle node) actions)) := by
  intro final
  have hown := ownChannels_idle node
  have hfits : (idle node).FitsAt i := by
    rintro entries responses ⟨peerName, rest, hserve⟩
    cases hserve
  have hroom : Runs.EachState (step codec uiCodec) (fun r ↦ r.FitsAt i) (idle node) actions ↔
      Runs.EachStep (step codec uiCodec) (Room codec i) (idle node) actions := by
    rw [Runs.eachState_iff, and_iff_right hfits]
    apply Runs.eachStep_iff (I := fun r ↦ r.OwnChannels ∧ r.FitsAt i) ⟨hown, hfits⟩ haccepts
    · intro r a hr ha
      rw [fitsAt_step hr.1 ha, and_iff_right hr.2]
    · exact fun r a hr ha hnext ↦ ⟨hr.1.step a, hnext⟩
  constructor
  · intro h
    exact (hroom.mpr h).mono fun r hr ↦ hr.not_blocked
  · intro hend
    constructor
    · exact fun hreturned ↦ hroom.mp (hreturned.eachState_fitsAt hown haccepts)
    · intro h
      exact hend.resolve_right (hroom.mpr h).final.not_blocked

/-- A call returns that finds an answer of two chunks. -/
theorem post_files_returns_two_chunks :
    let sends := [[], []].map fun _ : List Entry ↦ Action.run 0 (.send .sent)
    let actions := findCached ++ (sends ++ [.run 0 .lock, .run 0 .lock])
    Runs.EachStep (step LsResponseStream.exampleCodec LengthPrefixedStream.exampleCodec)
      (Room LsResponseStream.exampleCodec 0) (idle (cachedNode [[], []])) actions := by
  intro sends actions
  have haccepts : Runs.EachStep
      (step LsResponseStream.exampleCodec LengthPrefixedStream.exampleCodec) Accepts
      (idle (cachedNode [[], []])) actions :=
    ⟨trivial, trivial, trivial, trivial, ⟨rfl, by decide⟩, ⟨rfl, by decide⟩, trivial, trivial,
      trivial⟩
  have hiff := post_files_returns_iff LsResponseStream.exampleCodec
    LengthPrefixedStream.exampleCodec (cachedNode [[], []]) actions 0 haccepts
  have hreturned : (Runs.finalState
      (step LsResponseStream.exampleCodec LengthPrefixedStream.exampleCodec)
      (idle (cachedNode [[], []])) actions).Returned 0 := ⟨.ok (), rfl⟩
  exact (hiff.2 (Or.inl hreturned)).mp hreturned

/-- A call that finds an answer of 258 chunks fills its channel with the first 257, and waits
for ever to send the last one. -/
theorem unread_channel_fills :
    let step := step LsResponseStream.exampleCodec LengthPrefixedStream.exampleCodec
    let start := idle (cachedNode (List.replicate 258 []))
    ∃ actions, Runs.EachStep step Accepts start actions ∧
      (Runs.finalState step start actions).Blocked 0 ∧
      ∀ more, Runs.EachStep step Accepts (Runs.finalState step start actions) more →
        ¬ (Runs.finalState step (Runs.finalState step start actions) more).Returned 0 := by
  intro step start
  have hchunks : List.replicate 258 ([] : List Entry) = List.replicate 257 [] ++ [[]] :=
    List.replicate_succ'
  obtain ⟨hrun, hblocked⟩ := blocked_of_cached LsResponseStream.exampleCodec
    LengthPrefixedStream.exampleCodec (List.replicate 257 []) [] List.length_replicate
  rw [← hchunks] at hrun hblocked
  exact ⟨_, hrun, hblocked, fun more ↦ hblocked.not_returned ((ownChannels_idle _).run _)⟩

end FilesRuntime

end HarddriveParty
