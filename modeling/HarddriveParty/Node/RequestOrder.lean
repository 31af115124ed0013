import HarddriveParty.Base.Runs
import HarddriveParty.Node.OutstandingFiles

/-!
# The order in which a task gets its requests

A task first gets the files that are outstanding when its peer connects, by the second of their
request and then by path, and after them the files that are added later, in the order in which
they are added. Without a new request it gets no file twice: a download that has failed waits for
the next connection.
-/

namespace HarddriveParty

open OrderedTree RequestedFile Watch Runs

section Keys

/-- What two keys have in common at their beginning does not count for their order. -/
private theorem compare_append_left (p a b : Bytes) :
    compare (p ++ a) (p ++ b) = compare a b := by
  induction p with
  | nil => rfl
  | cons c p ih =>
    have hself : compare c c = .eq := Std.ReflCmp.compare_self
    rw [List.cons_append, List.cons_append, List.compare_cons_cons, hself, Ordering.eq_then, ih]

/-- Beginnings of one length that differ decide the order. -/
private theorem compare_append_of_gt {a b : Bytes} (hlen : a.length = b.length)
    (h : compare a b = .gt) (x y : Bytes) : compare (a ++ x) (b ++ y) = .gt := by
  induction a generalizing b with
  | nil =>
    rw [List.eq_nil_of_length_eq_zero hlen.symm] at h
    cases h
  | cons c a ih =>
    obtain ⟨d, b, rfl⟩ := List.exists_cons_of_length_eq_add_one hlen.symm
    rw [List.cons_append, List.cons_append, List.compare_cons_cons]
    rw [List.compare_cons_cons] at h
    cases hcd : compare c d with
    | lt =>
      rw [hcd] at h
      cases h
    | eq =>
      rw [hcd, Ordering.eq_then] at h
      rw [Ordering.eq_then]
      exact ih (Nat.succ_inj.mp hlen) h
    | gt => rfl

/-- The keys of a peer are ordered by the second of the request. -/
theorem secs_le_of_compare {publicKey : PublicKey} {t t' : Duration} {path path' : String}
    (h : compare (peerKey publicKey t path) (peerKey publicKey t' path') = .lt) :
    t.secs ≤ t'.secs := by
  rw [peerKey, peerKey, compare_append_left] at h
  have hlen : (Bytes.beU64 t.secs).length = (Bytes.beU64 t'.secs).length := by
    rw [Bytes.length_beU64, Bytes.length_beU64]
  rw [UInt64.le_iff_toNat_le]
  cases hcmp : compare (Bytes.beU64 t.secs) (Bytes.beU64 t'.secs) with
  | lt =>
    have hless := ofBe_lt_of_compare hlen hcmp
    rw [Bytes.ofBe_beU64, Bytes.ofBe_beU64] at hless
    exact Nat.le_of_lt hless
  | eq =>
    rw [beU64_inj.mp (Std.LawfulEqCmp.eq_of_compare hcmp)]
  | gt =>
    rw [compare_append_of_gt hlen hcmp] at h
    cases h

end Keys

namespace RequestTask

/-- The record that the stream of a task hands out next, if the task waits for one. -/
def handsOut (t : RequestTask) (wishlist : WishList) (reread : Bool) : Option (Bytes × Bytes) :=
  match t.stage with
  | .waiting =>
    (if reread then t.requestStream.refresh wishlist.requestedFilesByPeer
      else t.requestStream).poll.1
  | _ => none

variable {t : RequestTask} {w : WishList}

/-- A task that does not wait takes nothing from its stream. -/
theorem next_of_not_waiting (h : t.stage ≠ .waiting) (reread : Bool) :
    t.next w reread = t ∧ t.handsOut w reread = none := by
  unfold next handsOut
  cases hstage : t.stage with
  | waiting => exact absurd hstage h
  | starting | receiving | received | ended => exact ⟨rfl, rfl⟩

/-- Taking a request leaves the stream as it is. -/
theorem requestStream_take (t : RequestTask) (w : WishList) (f : RequestedFile) :
    (t.take w f).requestStream = t.requestStream := by
  unfold take
  split
  · rfl
  · dsimp only
    split <;> rfl

/-- A task that waits polls its stream, whatever it does with the record. -/
theorem next_of_waiting (h : t.stage = .waiting) (reread : Bool) :
    (t.next w reread).requestStream = (if reread then
        t.requestStream.refresh w.requestedFilesByPeer else t.requestStream).poll.2 ∧
      t.handsOut w reread = (if reread then
        t.requestStream.refresh w.requestedFilesByPeer else t.requestStream).poll.1 := by
  unfold next handsOut
  rw [h]
  refine ⟨?_, rfl⟩
  dsimp only
  generalize (if reread then t.requestStream.refresh w.requestedFilesByPeer
    else t.requestStream) = stream
  split
  · rfl
  · rw [requestStream_take]

/-- What the stream hands out next comes behind what it handed out before. -/
theorem inOrder_next {inserted handed scanned taken : List (Bytes × Bytes)}
    (h : t.requestStream.InOrder inserted handed scanned taken) (w : WishList) (reread : Bool) :
    ∃ scanned taken, (t.next w reread).requestStream.InOrder inserted
      (handed ++ (t.handsOut w reread).toList) scanned taken := by
  by_cases hwaiting : t.stage = .waiting
  · obtain ⟨hstream, hhands⟩ := next_of_waiting (w := w) hwaiting reread
    rw [hstream, hhands]
    split
    · exact (h.refresh _).poll
    · exact h.poll
  · obtain ⟨hsame, hhands⟩ := next_of_not_waiting (w := w) hwaiting reread
    rw [hsame, hhands, Option.toList_none, List.append_nil]
    exact ⟨scanned, taken, h⟩

end RequestTask

namespace Downloads

/-- The record that a task gets at a step. -/
def handsOut (i : Nat) : Downloads × Action → List (Bytes × Bytes)
  | (d, .next j reread) =>
    if j = i then (d.tasks[i]?.bind fun t ↦ t.handsOut d.wishlist reread).toList else []
  | _ => []

/-- The record of a file of the peer that a step adds and reports. -/
def adds (publicKey : PublicKey) : Downloads × Action → List (Bytes × Bytes)
  | (d, a) =>
    if a.told then ((d.write a).bind Write.inserted).toList.filter
      fun kv ↦ publicKey.val.isPrefixOf kv.1
    else []

/-- The record of a file of the peer comes before another one: its key is less, so it was not
requested later. -/
def ComesBefore (publicKey : PublicKey) (a b : Bytes × Bytes) : Prop :=
  compare a.1 b.1 = .lt ∧ ∀ t t' path path', a.1 = peerKey publicKey t path →
    b.1 = peerKey publicKey t' path' → t.secs ≤ t'.secs

/-- The records that a task gets: those that the scan finds, the oldest requests first, and then a
beginning of those that are added. -/
structure GetsInOrder (publicKey : PublicKey) (gets adds : List (Bytes × Bytes)) : Prop where
  split : ∃ found later, gets = found ++ later ∧ found.Pairwise (ComesBefore publicKey) ∧
    later <+: adds
  once : ∀ key, (gets.map Prod.fst).count key ≤ 1 + (adds.map Prod.fst).count key

variable {d : Downloads} {t : RequestTask} {i : Nat} {capacity : Nat} {downloadDir : Bytes}
  {publicKey : PublicKey} {a : Action}

/-- The stream of the task has handed out what the steps so far say. -/
def StreamInOrder (i : Nat) (publicKey : PublicKey) (d : Downloads)
    (done : List (Downloads × Action)) : Prop :=
  ∃ t inserted scanned taken, d.tasks[i]? = some t ∧
    t.requestStream.selects = (fun key ↦ publicKey.val.isPrefixOf key) ∧
    t.requestStream.InOrder inserted (done.flatMap (handsOut i)) scanned taken ∧
    inserted <+: done.flatMap (adds publicKey) ∧
    (t.hasEnded = false → inserted = done.flatMap (adds publicKey))

private theorem handsOut_next (h : d.tasks[i]? = some t) (reread : Bool) :
    handsOut i (d, .next i reread) = (t.handsOut d.wishlist reread).toList := by
  rw [handsOut, if_pos rfl, h, Option.bind_some]

private theorem handsOut_of_ne (h : ∀ reread, a ≠ .next i reread) : handsOut i (d, a) = [] := by
  cases a with
  | next j reread => exact if_neg fun he ↦ h reread (by rw [he])
  | record | connect | close | setUp | receive | streamEnd | conclude => rfl

private theorem adds_next (reread : Bool) : adds publicKey (d, .next i reread) = [] := rfl

/-- A step hands out at most the next record, and a file that is added is handed out last. -/
theorem StreamInOrder.step {done : List (Downloads × Action)}
    (h : StreamInOrder i publicKey d done) (a : Action) :
    StreamInOrder i publicKey (d.step downloadDir a) (done ++ [(d, a)]) := by
  obtain ⟨t, inserted, scanned, taken, hi, hselects, horder, hadded, hall⟩ := h
  obtain ⟨t', hi', ⟨reread, rfl, rfl⟩ | ⟨hne, t₁, hkeeps, -, rfl⟩⟩ := task_step downloadDir hi a
  · -- the task takes its next request
    obtain ⟨scanned', taken', hnext⟩ := RequestTask.inOrder_next horder d.wishlist reread
    refine ⟨_, inserted, scanned', taken', hi', ?_, ?_, ?_, ?_⟩
    · by_cases hwaiting : t.stage = .waiting
      · rw [(RequestTask.next_of_waiting hwaiting reread).1, Subscription.selects_poll]
        split
        · exact hselects
        · exact hselects
      · rw [(RequestTask.next_of_not_waiting hwaiting reread).1, hselects]
    · rw [List.flatMap_append, List.flatMap_singleton, handsOut_next hi]
      exact hnext
    · rw [List.flatMap_append, List.flatMap_singleton, adds_next, List.append_nil]
      exact hadded
    · rw [List.flatMap_append, List.flatMap_singleton, adds_next, List.append_nil]
      intro hlive
      apply hall
      cases hstage : t.stage with
      | ended result =>
        have hnot : t.stage ≠ .waiting := by
          rw [hstage]
          exact fun heq ↦ by cases heq
        rw [(RequestTask.next_of_not_waiting hnot reread).1] at hlive
        exact hlive
      | waiting | starting | receiving | received => rw [RequestTask.hasEnded, hstage]
  · -- another step, whose write may reach the stream
    have hgets : (done ++ [(d, a)]).flatMap (handsOut i) = done.flatMap (handsOut i) := by
      rw [List.flatMap_append, List.flatMap_singleton, handsOut_of_ne hne, List.append_nil]
    have hadds : (done ++ [(d, a)]).flatMap (adds publicKey) =
        done.flatMap (adds publicKey) ++ adds publicKey (d, a) := by
      rw [List.flatMap_append, List.flatMap_singleton]
    rw [← hkeeps.requestStream] at hselects horder
    unfold StreamInOrder
    rw [hgets, hadds]
    rcases RequestTask.requestStream_observe t₁ (d.write a) a.told with
      ⟨hsame, hreason⟩ | ⟨w, hw, htold, hlive, hstream⟩
    · refine ⟨_, inserted, scanned, taken, hi', ?_, ?_, ?_, ?_⟩
      · rw [hsame, hselects]
      · rw [hsame]
        exact horder
      · exact hadded.trans (List.prefix_append _ _)
      · intro hlive
        rw [RequestTask.hasEnded_observe] at hlive
        have hnone : adds publicKey (d, a) = [] := by
          rcases hreason with hended | hsilent | hnone
          · rw [hlive] at hended
            cases hended
          · rw [adds, hsilent]
            rfl
          · rw [adds, hnone]
            simp
        rw [hnone, List.append_nil]
        exact hall (hkeeps.live hlive)
    · have hsame : inserted = done.flatMap (adds publicKey) := hall (hkeeps.live hlive)
      have hnew : adds publicKey (d, a) =
          if t₁.requestStream.selects w.key then w.inserted.toList else [] := by
        rw [adds, htold, hw, hselects]
        cases w with
        | insert key value => simp [Write.inserted, Write.key, List.filter_cons]
        | remove key => simp [Write.inserted]
      have hdelivered := horder.deliver w
      rw [← hnew, hsame] at hdelivered
      refine ⟨_, _, scanned, taken, hi', ?_, ?_, List.prefix_rfl, fun _ ↦ rfl⟩
      · rw [hstream, Subscription.selects_deliver, hselects]
      · rw [hstream]
        exact hdelivered

/-- From the moment at which its peer connects, a task gets first the outstanding files in the
order of their records and then those that are added, and no file more often than once and once
for each time that it is added. -/
theorem requests_in_order (d : Downloads) (publicKey : PublicKey) (peerName : String)
    (actions : List Action) :
    let connected := d.step downloadDir (.connect publicKey peerName)
    let run := trace (step downloadDir) connected actions
    GetsInOrder publicKey (run.flatMap (handsOut d.tasks.length))
      (run.flatMap (adds publicKey)) := by
  intro connected run
  have hstart : StreamInOrder d.tasks.length publicKey connected [] :=
    ⟨_, [], [], [], List.getElem?_concat_length, rfl, Subscription.inOrder_subscribe _ _,
      List.prefix_rfl, fun _ ↦ rfl⟩
  have hfree : EachStep (step downloadDir) (fun _ _ ↦ True) connected actions :=
    eachStep_of_forall fun _ _ ↦ trivial
  obtain ⟨t, inserted, scanned, taken, -, -, horder, hadded, -⟩ :=
    finalState_trace hstart hfree fun d a done h _ ↦ h.step a
  rw [List.nil_append] at horder hadded
  have hbefore : scanned.Pairwise (ComesBefore publicKey) := by
    refine horder.increasing.imp fun {a b} hless ↦ ⟨hless, fun t t' path path' ha hb ↦ ?_⟩
    rw [ha, hb] at hless
    exact secs_le_of_compare hless
  refine ⟨⟨scanned, taken, horder.split, hbefore, ?_⟩, fun key ↦ ?_⟩
  · refine List.IsPrefix.trans ?_ hadded
    rw [horder.later]
    exact List.prefix_append _ _
  · have hmore := (hadded.map Prod.fst).sublist.count_le key
    exact (horder.count_le key).trans (Nat.add_le_add_left hmore 1)

end Downloads

end HarddriveParty
