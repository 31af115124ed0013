import HarddriveParty.Node.PostFiles

/-!
# Calls and their channels

Each call of `post_files` has a channel of its own, on which only the call and the tasks of the
answers to it send. A step of one of them leaves the other calls and channels as they were.
-/

namespace HarddriveParty

open Bincode

variable {codec : Codec LsResponse} {uiCodec : Codec (Except UiServerError (LsResponse × String))}

namespace FilesNode

/-- The message about a response of a peer, as it is sent to the UI. -/
def message (uiCodec : Codec (Except UiServerError (LsResponse × String))) (peerName : String)
    (lsResponse : LsResponse) : Bytes :=
  createLengthPrefixedMessage (uiCodec.serialize (.ok (lsResponse, peerName)))

variable (node : FilesNode) (channel : Nat) (lsResponse : LsResponse) (peerName : String)

/-- A message is added behind the others of its channel. -/
theorem send_bodies :
    (node.send uiCodec channel lsResponse peerName).bodies channel =
      node.bodies channel ++ [message uiCodec peerName lsResponse] :=
  Function.update_self channel _ node.bodies

/-- The other channels stay as they are. -/
theorem send_bodies_of_ne {j : Nat} (h : j ≠ channel) :
    (node.send uiCodec channel lsResponse peerName).bodies j = node.bodies j :=
  Function.update_of_ne h _ node.bodies

/-- At most one message is sent, and on this channel. -/
def Sends (uiCodec : Codec (Except UiServerError (LsResponse × String))) (channel : Nat)
    (node node' : FilesNode) : Prop :=
  node'.bodies = node.bodies ∨
    ∃ lsResponse peerName, node'.bodies = (node.send uiCodec channel lsResponse peerName).bodies

variable {node channel} {node' : FilesNode} {j : Nat}

theorem Sends.bodies_of_ne (h : Sends uiCodec channel node node') (hne : j ≠ channel) :
    node'.bodies j = node.bodies j := by
  rcases h with hsame | ⟨lsResponse, peerName, hsent⟩
  · rw [hsame]
  · rw [hsent, send_bodies_of_ne node channel lsResponse peerName hne]

/-- What is in a channel stays in front of what is sent. -/
theorem Sends.bodies_kept (h : Sends uiCodec channel node node') (j : Nat) :
    node.bodies j <+: node'.bodies j := by
  rcases h with hsame | ⟨lsResponse, peerName, hsent⟩
  · rw [hsame]
  · by_cases hne : j = channel
    · subst hne
      rw [hsent, send_bodies]
      exact List.prefix_append _ _
    · rw [hsent, send_bodies_of_ne node channel lsResponse peerName hne]

end FilesNode

/-! ### What a step sends -/

namespace PostFiles

variable {node : FilesNode} {channel j : Nat}

/-- A look into a cache sends nothing. -/
theorem readCache_bodies (request : Request) (peerName : String) (connection : Nat)
    (rest : List (Request × String)) :
    (readCache node request peerName connection rest).1.bodies = node.bodies := by
  unfold readCache
  simp only
  split <;> rfl

/-- What is found in a cache is served next, and otherwise the peer is asked. -/
theorem readCache_stage (request : Request) (peerName : String) (connection : Nat)
    (rest : List (Request × String)) :
    (readCache node request peerName connection rest).2 =
      match ((node.indexCache peerName connection).get request).1 with
      | some responses => .serve peerName responses rest
      | none => .ask request peerName rest := by
  unfold readCache
  cases hget : ((node.indexCache peerName connection).get request).1 with
  | none => simp only [hget]
  | some responses => simp only [hget]

/-- A request to a peer sends nothing to the UI. -/
theorem ask_bodies (request : Request) (peerName : String) (rest : List (Request × String))
    (input : FilesInput) :
    (ask codec node channel request peerName rest input).1.bodies = node.bodies := by
  unfold ask
  split
  · rfl
  · split <;> rfl

/-- A chunk that cannot be sent is the last of its answer. -/
theorem step_serve_of_not_sent {input : FilesInput} (h : input ≠ .send .sent) (peerName : String)
    (entries : List Entry) (responses : List (List Entry)) (rest : List (Request × String)) :
    step uiCodec codec node channel input (.serve peerName (entries :: responses) rest) =
      (node, .next rest, none) := by
  rw [step]
  exact h

/-- A call sends on its own channel only. -/
theorem sends_step (input : FilesInput) (stage : Stage) :
    FilesNode.Sends uiCodec channel node (step uiCodec codec node channel input stage).1 := by
  cases stage with
  | start filesQuery =>
    obtain ⟨name, query⟩ := filesQuery
    cases name <;> exact Or.inl rfl
  | next requests =>
    cases requests with
    | nil => exact Or.inl rfl
    | cons request rest =>
      rw [step]
      split <;> exact Or.inl rfl
  | readCache request peerName connection rest =>
    exact Or.inl (readCache_bodies request peerName connection rest)
  | serve peerName responses rest =>
    cases responses with
    | nil => exact Or.inl rfl
    | cons entries responses =>
      by_cases hsent : input = .send .sent
      · subst hsent
        exact Or.inr ⟨.success entries, peerName, rfl⟩
      · rw [step_serve_of_not_sent hsent]
        exact Or.inl rfl
  | ask request peerName rest => exact Or.inl (ask_bodies request peerName rest input)
  | returned result => exact Or.inl rfl

/-- A task that a call starts sends on the channel of the call. -/
theorem step_spawned (input : FilesInput) (stage : Stage) :
    ∀ task ∈ (step uiCodec codec node channel input stage).2.2, task.1.channel = channel := by
  intro task htask
  cases stage with
  | start filesQuery =>
    obtain ⟨name, query⟩ := filesQuery
    cases name <;> cases htask
  | next requests =>
    cases requests with
    | nil => cases htask
    | cons request rest =>
      rw [step] at htask
      split at htask <;> cases htask
  | readCache request peerName connection rest => cases htask
  | serve peerName responses rest =>
    cases responses with
    | nil => cases htask
    | cons entries responses =>
      by_cases hsent : input = .send .sent
      · subst hsent
        cases htask
      · rw [step_serve_of_not_sent hsent] at htask
        cases htask
  | ask request peerName rest =>
    replace htask : task ∈ (ask codec node channel request peerName rest input).2.2 := htask
    unfold ask at htask
    split at htask
    · cases htask
    · split at htask
      · cases htask
        rfl
      · cases htask
      · cases htask
  | returned result => cases htask

end PostFiles

namespace Collector

variable {c : Collector} {node : FilesNode} {j : Nat}

/-- A write to a cache sends nothing. -/
theorem write_bodies (cachedEntries : List (List Entry)) (cacheFull : Bool) :
    (c.write node cachedEntries cacheFull).bodies = node.bodies := by
  unfold write
  split
  · split <;> rfl
  · rfl

/-- A response that is sent is followed by the next one. -/
theorem collect_of_sent {stream stream' : LsResponseStream} {lsResponse : LsResponse}
    (h : stream.next codec = (some (.ok lsResponse), stream')) (unread : List Bytes)
    (cachedEntries : List (List Entry)) (cacheFull : Bool) :
    c.collect codec uiCodec node (.send .sent) stream unread cachedEntries cacheFull =
      (node.send uiCodec c.channel lsResponse c.peerName,
        .collect stream' unread.tail (cacheResponse cachedEntries cacheFull lsResponse).1
          (cacheResponse cachedEntries cacheFull lsResponse).2) := by
  rw [collect, h]

/-- Without a response, or when it is not sent, the loop ends. -/
theorem collect_of_not_sent {input : FilesInput} {stream : LsResponseStream}
    (h : input ≠ .send .sent ∨ ∀ lsResponse, (stream.next codec).1 ≠ some (.ok lsResponse))
    (unread : List Bytes) (cachedEntries : List (List Entry)) (cacheFull : Bool) :
    ∃ unread' cachedEntries' cacheFull',
      c.collect codec uiCodec node input stream unread cachedEntries cacheFull =
        (node, .write unread' cachedEntries' cacheFull') := by
  unfold collect
  split
  · next lsResponse stream' hnext =>
    split
    · rw [hnext] at h
      exact (h.resolve_left (fun hne ↦ hne rfl) lsResponse rfl).elim
    · exact ⟨_, _, _, rfl⟩
  · exact ⟨_, _, _, rfl⟩
  · exact ⟨_, _, _, rfl⟩

/-- A task sends on the channel of its call only. -/
theorem sends_next (input : FilesInput) (stage : Stage) :
    FilesNode.Sends uiCodec c.channel node (c.next codec uiCodec node input stage).1 := by
  cases stage with
  | collect stream unread cachedEntries cacheFull =>
    show FilesNode.Sends uiCodec c.channel node
      (c.collect codec uiCodec node input stream unread cachedEntries cacheFull).1
    unfold collect
    split
    · split
      · exact Or.inr ⟨_, c.peerName, rfl⟩
      · exact Or.inl rfl
    · exact Or.inl rfl
    · exact Or.inl rfl
  | write unread cachedEntries cacheFull => exact Or.inl (write_bodies cachedEntries cacheFull)
  | finished => exact Or.inl rfl

end Collector

/-! ### What a step leaves as it was -/

namespace FilesRuntime

/-- Any peers and index caches, before the first call. -/
def idle (node : FilesNode) : FilesRuntime := ⟨{ node with bodies := fun _ ↦ [] }, []⟩

/-- Where the call with index `i` is. -/
def stageOf (r : FilesRuntime) (i : Nat) : Option PostFiles.Stage :=
  match r.tasks[i]? with
  | some (.postFiles _ stage) => some stage
  | some (.collector _ _) | none => none

/-- The channel of each call is its own. -/
def OwnChannels (r : FilesRuntime) : Prop :=
  ∀ i channel stage, r.tasks[i]? = some (FilesTask.postFiles channel stage) → channel = i

variable {r : FilesRuntime} {i j : Nat} {input : FilesInput} {stage : PostFiles.Stage}

theorem runTask_postFiles {channel : Nat} (h : r.tasks[i]? = some (.postFiles channel stage)) :
    r.runTask codec uiCodec i input =
      ⟨(PostFiles.step uiCodec codec r.node channel input stage).1,
        r.tasks.set i (.postFiles channel
            (PostFiles.step uiCodec codec r.node channel input stage).2.1) ++
          ((PostFiles.step uiCodec codec r.node channel input stage).2.2.map
            fun task ↦ FilesTask.collector task.1 task.2).toList⟩ := by
  rw [runTask, h]

theorem runTask_collector {c : Collector} {stage : Collector.Stage}
    (h : r.tasks[i]? = some (.collector c stage)) :
    r.runTask codec uiCodec i input =
      ⟨(c.next codec uiCodec r.node input stage).1,
        r.tasks.set i (.collector c (c.next codec uiCodec r.node input stage).2)⟩ := by
  rw [runTask, h]

theorem runTask_none (h : r.tasks[i]? = none) : r.runTask codec uiCodec i input = r := by
  rw [runTask, h]

/-- The stage of a call is that of its task. -/
theorem stageOf_eq_some :
    r.stageOf i = some stage ↔ ∃ channel, r.tasks[i]? = some (.postFiles channel stage) := by
  unfold stageOf
  constructor
  · intro h
    split at h
    · next channel stage' htask =>
      cases h
      exact ⟨channel, htask⟩
    · cases h
    · cases h
  · rintro ⟨channel, htask⟩
    rw [htask]

/-- A call that is at some stage is a task with its own channel. -/
theorem OwnChannels.task (hown : r.OwnChannels) (h : r.stageOf i = some stage) :
    r.tasks[i]? = some (.postFiles i stage) := by
  obtain ⟨channel, htask⟩ := stageOf_eq_some.mp h
  rw [htask, hown i channel stage htask]

/-- The tasks that a step starts are no calls. -/
private theorem not_postFiles_of_spawned {spawned : Option (Collector × Collector.Stage)}
    {k channel : Nat} :
    (spawned.map fun task ↦ FilesTask.collector task.1 task.2).toList[k]? ≠
      some (.postFiles channel stage) := by
  intro h
  obtain ⟨task, -, htask⟩ := Option.map_eq_some_iff.mp
    (Option.mem_toList.mp (List.mem_of_getElem? h))
  cases htask

/-- What was a task before a step of another one is the same task afterwards. -/
theorem task_runTask_of_ne (hne : j ≠ i) {task : FilesTask} (h : r.tasks[j]? = some task) :
    (r.runTask codec uiCodec i input).tasks[j]? = some task := by
  have hlt : j < r.tasks.length := (List.getElem?_eq_some_iff.mp h).1
  cases htask : r.tasks[i]? with
  | none => rwa [runTask_none htask]
  | some task =>
    cases task with
    | postFiles channel stage =>
      rw [runTask_postFiles htask]
      show (List.set _ _ _ ++ _)[j]? = _
      rwa [List.getElem?_append_left (by rwa [List.length_set]), List.getElem?_set_ne hne.symm]
    | collector c stage =>
      rw [runTask_collector htask]
      show (List.set _ _ _)[j]? = _
      rwa [List.getElem?_set_ne hne.symm]

/-- What is a call after a step of another task was the same call before. -/
theorem postFiles_of_runTask (hne : j ≠ i) {channel : Nat}
    (h : (r.runTask codec uiCodec i input).tasks[j]? = some (.postFiles channel stage)) :
    r.tasks[j]? = some (.postFiles channel stage) := by
  cases htask : r.tasks[i]? with
  | none => rwa [runTask_none htask] at h
  | some task =>
    cases task with
    | postFiles channel' stage' =>
      rw [runTask_postFiles htask] at h
      replace h : (List.set _ _ _ ++ _)[j]? = _ := h
      rcases Nat.lt_or_ge j r.tasks.length with hlt | hge
      · rwa [List.getElem?_append_left (by rwa [List.length_set]),
          List.getElem?_set_ne hne.symm] at h
      · rw [List.getElem?_append_right (by rwa [List.length_set])] at h
        exact absurd h not_postFiles_of_spawned
    | collector c stage' =>
      rw [runTask_collector htask] at h
      replace h : (List.set _ _ _)[j]? = _ := h
      rwa [List.getElem?_set_ne hne.symm] at h

/-- A step leaves the other calls where they were. -/
theorem stageOf_runTask_of_ne (hne : j ≠ i) :
    (r.runTask codec uiCodec i input).stageOf j = r.stageOf j := by
  ext stage
  rw [stageOf_eq_some, stageOf_eq_some]
  apply exists_congr
  exact fun channel ↦ ⟨postFiles_of_runTask hne, task_runTask_of_ne hne⟩

/-- A step of a call takes it to the next stage. -/
theorem task_runTask_self {channel : Nat} (h : r.tasks[i]? = some (.postFiles channel stage)) :
    (r.runTask codec uiCodec i input).tasks[i]? = some (.postFiles channel
      (PostFiles.step uiCodec codec r.node channel input stage).2.1) := by
  have hlt : i < r.tasks.length := (List.getElem?_eq_some_iff.mp h).1
  rw [runTask_postFiles h]
  show (List.set _ _ _ ++ _)[i]? = _
  rw [List.getElem?_append_left (by rwa [List.length_set]), List.getElem?_set_self hlt]

/-- A step of the task of an answer leaves all calls where they were. -/
theorem stageOf_runTask_collector {c : Collector} {stage : Collector.Stage}
    (h : r.tasks[i]? = some (.collector c stage)) :
    (r.runTask codec uiCodec i input).stageOf j = r.stageOf j := by
  by_cases hne : j = i
  · subst hne
    have hlt : j < r.tasks.length := (List.getElem?_eq_some_iff.mp h).1
    rw [runTask_collector h]
    unfold stageOf
    simp only
    rw [List.getElem?_set_self hlt, h]
  · exact stageOf_runTask_of_ne hne

/-- A new call leaves the others where they were. -/
theorem stageOf_query (filesQuery : FilesQuery) (h : j < r.tasks.length) :
    (r.step codec uiCodec (.query filesQuery)).stageOf j = r.stageOf j := by
  have htask : (r.step codec uiCodec (.query filesQuery)).tasks[j]? = r.tasks[j]? :=
    List.getElem?_append_left h
  unfold stageOf
  rw [htask]

variable (codec uiCodec) in
/-- What is in a channel stays in front of what a step sends. -/
theorem bodies_kept (a : Action) (j : Nat) :
    r.node.bodies j <+: (r.step codec uiCodec a).node.bodies j := by
  cases a with
  | connect peerName => exact List.prefix_refl _
  | disconnect peerName => exact List.prefix_refl _
  | query filesQuery => exact List.prefix_refl _
  | run i input =>
    show r.node.bodies j <+: (r.runTask codec uiCodec i input).node.bodies j
    cases htask : r.tasks[i]? with
    | none => rw [runTask_none htask]
    | some task =>
      cases task with
      | postFiles channel stage =>
        rw [runTask_postFiles htask]
        exact (PostFiles.sends_step input stage).bodies_kept j
      | collector c stage =>
        rw [runTask_collector htask]
        exact (Collector.sends_next input stage).bodies_kept j

/-- Every step keeps the channels apart. -/
theorem OwnChannels.step (hown : r.OwnChannels) (a : Action) :
    (r.step codec uiCodec a).OwnChannels := by
  intro j channel stage h
  cases a with
  | connect peerName => exact hown j channel stage h
  | disconnect peerName => exact hown j channel stage h
  | query filesQuery =>
    replace h : (r.tasks ++ [_])[j]? = _ := h
    rcases Nat.lt_or_ge j r.tasks.length with hlt | hge
    · rw [List.getElem?_append_left hlt] at h
      exact hown j channel stage h
    · rw [List.getElem?_append_right hge, List.getElem?_singleton] at h
      split at h
      · next hzero =>
        cases h
        omega
      · cases h
  | run i input =>
    replace h : (r.runTask codec uiCodec i input).tasks[j]? = _ := h
    by_cases hne : j = i
    · subst hne
      cases htask : r.tasks[j]? with
      | none =>
        rw [runTask_none htask] at h
        exact hown j channel stage h
      | some task =>
        cases task with
        | postFiles channel' stage' =>
          rw [task_runTask_self htask] at h
          cases h
          exact hown j _ _ htask
        | collector c stage' =>
          rw [runTask_collector htask] at h
          replace h : (List.set _ _ _)[j]? = _ := h
          rw [List.getElem?_set_self (List.getElem?_eq_some_iff.mp htask).1] at h
          cases h
    · exact hown j channel stage (postFiles_of_runTask hne h)

/-- Before the first call there are no channels to keep apart. -/
theorem ownChannels_idle (node : FilesNode) : (idle node).OwnChannels := by
  intro i channel stage htask
  cases htask

/-- In every run the channels are kept apart. -/
theorem OwnChannels.run (hown : r.OwnChannels) (actions : List Action) :
    (Runs.finalState (FilesRuntime.step codec uiCodec) r actions).OwnChannels := by
  induction actions generalizing r with
  | nil => exact hown
  | cons a actions ih => exact ih (hown.step a)

end FilesRuntime

end HarddriveParty
