import HarddriveParty.Base.Frames
import HarddriveParty.Base.Polling
import HarddriveParty.Shared.Codec

/-!
# Response bodies of the UI server

Model of the streamed answers of `src/ui_server/api.rs` and of the client's
`LengthPrefixedStream` (`shared/src/client/mod.rs`), which puts the messages together from
the chunks of an HTTP body. What the body gives at each poll is an input.
-/

namespace HarddriveParty

open Bincode Polling

/-- Frame a message for a streamed answer (`src/ui_server/api.rs:315`). -/
def createLengthPrefixedMessage (message : Bytes) : Bytes :=
  Bytes.beU32 (UInt32.ofNat message.length) ++ message

/-- The chunks that `stream_response` (`src/ui_server/api.rs:324`) sends for the values of an
iterator while the client is there. -/
def streamResponse {α : Type} (codec : Codec (Except UiServerError α)) (values : List α) :
    List Bytes :=
  values.map fun res ↦ createLengthPrefixedMessage (codec.serialize (.ok res))

/-- What a poll of the body of a response gives, as long as it has not ended. -/
inductive BodyPoll where
  | chunk (bytes : Bytes)
  | error (text : String)
  | pending
  deriving DecidableEq, Repr

/-- The bytes of the chunks. -/
def BodyPoll.bytes : BodyPoll → Bytes
  | chunk bytes => bytes
  | error _ | pending => []

/-- `LengthPrefixedStream` (`shared/src/client/mod.rs:312`): what the polls of the body will
give before its end, and the buffer. -/
structure LengthPrefixedStream where
  inner : List BodyPoll
  buffer : Bytes

namespace LengthPrefixedStream

variable {α : Type} (codec : Codec (Except UiServerError α))

/-- The result in a message. -/
def decode (msg : Bytes) : Except UiServerError α :=
  match codec.deserialize msg with
  | .ok res => res
  | .error err => .error (.serialization err)

/-- A complete message at the start of the buffer, and the buffer behind it. -/
def parse (buffer : Bytes) : Option (Bytes × Bytes) :=
  if 4 ≤ buffer.length then
    let msgLen := Bytes.ofBe (buffer.take 4)
    if 4 + msgLen ≤ buffer.length then
      let buffer := buffer.drop 4 -- discard the length prefix
      some (buffer.take msgLen, buffer.drop msgLen)
    else none
  else none

/-- The loop of `poll_next` (`shared/src/client/mod.rs:342`). -/
def pollLoop (inner : List BodyPoll) (buffer : Bytes) :
    Poll (Except UiServerError α) × LengthPrefixedStream :=
  -- Try to parse a complete message
  match parse buffer with
  | some (msg, buffer) => (.ready (some (decode codec msg)), ⟨inner, buffer⟩)
  | none =>
    -- Not enough data - try to pull the next chunk
    match inner with
    | .chunk bytes :: inner => pollLoop inner (buffer ++ bytes)
    | .error e :: inner => (.ready (some (.error (.requestError e))), ⟨inner, buffer⟩)
    | [] =>
      if buffer.isEmpty then (.ready none, ⟨[], buffer⟩)
      else
        (.ready (some (.error (.requestError "Incomlete message at end of stream"))),
          ⟨[], buffer⟩)
    | .pending :: inner => (.pending, ⟨inner, buffer⟩)

/-- `poll_next`. -/
def pollNext (s : LengthPrefixedStream) :
    Poll (Except UiServerError α) × LengthPrefixedStream :=
  pollLoop codec s.inner s.buffer

/-- The stream of a response before the first poll. -/
def new (inner : List BodyPoll) : LengthPrefixedStream := ⟨inner, []⟩

/-! ### One poll -/

/-- The bytes that have not been given out as part of a message. -/
def unread (s : LengthPrefixedStream) : Bytes := s.buffer ++ s.inner.flatMap BodyPoll.bytes

/-- The error of a poll after the end of a body that stops within a message. -/
def incomplete : Except UiServerError α :=
  .error (.requestError "Incomlete message at end of stream")

/-- A message is complete exactly when a frame is. -/
theorem parse_eq_splitFirst (buffer : Bytes) : parse buffer = Frames.splitFirst buffer := by
  unfold parse Frames.splitFirst Frames.announced
  split
  · next h =>
    simp only [h, true_and]
  · next h =>
    rw [if_neg (fun hboth ↦ h hboth.1)]

/-- What a poll can do: report the end, take a message off the unread bytes, pass on what the
body gave without a change to these bytes, or get stuck behind the end of the body. -/
inductive PollCases (s : LengthPrefixedStream)
    (r : Poll (Except UiServerError α) × LengthPrefixedStream) : Prop where
  | ended (hitem : r.1 = .ready none) (hunread : s.unread = [])
  | message (msg : Bytes) (hitem : r.1 = .ready (some (decode codec msg)))
      (hunread : Frames.splitFirst s.unread = some (msg, r.2.unread))
      (hinner : r.2.inner <:+ s.inner)
  | passedOn (p : BodyPoll) (hmem : p ∈ s.inner)
      (hitem : r.1 = .pending ∧ p = .pending ∨
        ∃ e, r.1 = .ready (some (.error (.requestError e))) ∧ p = .error e)
      (hunread : r.2.unread = s.unread) (hinner : r.2.inner <:+ s.inner)
      (hshorter : r.2.inner.length < s.inner.length)
  | stuck (hitem : r.1 = .ready (some incomplete)) (hnone : Frames.splitFirst s.unread = none)
      (hne : s.unread ≠ []) (hunread : r.2.unread = s.unread)

variable {codec}

private theorem PollCases.of_chunk {inner : List BodyPoll} {buffer bytes : Bytes}
    {r : Poll (Except UiServerError α) × LengthPrefixedStream}
    (h : PollCases codec ⟨inner, buffer ++ bytes⟩ r) :
    PollCases codec ⟨.chunk bytes :: inner, buffer⟩ r := by
  have hsame : unread ⟨.chunk bytes :: inner, buffer⟩ = unread ⟨inner, buffer ++ bytes⟩ := by
    simp only [unread, List.flatMap_cons, BodyPoll.bytes, List.append_assoc]
  cases h with
  | ended hitem hunread => exact .ended hitem (hsame.trans hunread)
  | message msg hitem hunread hinner =>
    apply PollCases.message msg hitem
    · rw [hsame, hunread]
    · exact hinner.trans (List.suffix_cons _ _)
  | passedOn p hmem hitem hunread hinner hshorter =>
    apply PollCases.passedOn p (List.mem_cons_of_mem _ hmem) hitem
    · rw [hsame, hunread]
    · exact hinner.trans (List.suffix_cons _ _)
    · exact Nat.lt_succ_of_lt hshorter
  | stuck hitem hnone hne hunread =>
    apply PollCases.stuck hitem
    · rw [hsame, hnone]
    · rwa [hsame]
    · rw [hsame, hunread]

private theorem pollLoop_cases (inner : List BodyPoll) (buffer : Bytes) :
    PollCases codec ⟨inner, buffer⟩ (pollLoop codec inner buffer) := by
  induction inner generalizing buffer with
  | nil =>
    unfold pollLoop
    rw [parse_eq_splitFirst]
    split
    · next msg rest h =>
      apply PollCases.message msg rfl
      · simpa [unread] using h
      · exact List.suffix_refl _
    · next h =>
      cases buffer with
      | nil => exact .ended rfl rfl
      | cons byte buffer =>
        apply PollCases.stuck rfl
        · simpa [unread] using h
        · simp [unread]
        · rfl
  | cons p inner ih =>
    unfold pollLoop
    rw [parse_eq_splitFirst]
    split
    · next msg rest h =>
      apply PollCases.message msg rfl
      · exact Frames.splitFirst_append h _
      · exact List.suffix_refl _
    · cases p with
      | chunk bytes => exact .of_chunk (ih (buffer ++ bytes))
      | error e =>
        apply PollCases.passedOn (.error e) List.mem_cons_self (Or.inr ⟨e, rfl, rfl⟩)
        · rfl
        · exact List.suffix_cons _ _
        · exact Nat.lt_succ_self _
      | pending =>
        apply PollCases.passedOn .pending List.mem_cons_self (Or.inl ⟨rfl, rfl⟩)
        · rfl
        · exact List.suffix_cons _ _
        · exact Nat.lt_succ_self _

variable (codec)

/-- Every poll does one of these. -/
theorem pollNext_cases (s : LengthPrefixedStream) : PollCases codec s (pollNext codec s) :=
  pollLoop_cases s.inner s.buffer

/-! ### Whole messages -/

/-- The polls of a body that gives frames and nothing else come to the end. Without an error
of the body the items are what the frames hold. -/
theorem gives_of_stream {s : LengthPrefixedStream} {payloads : List Bytes}
    (hfits : ∀ p ∈ payloads, Frames.Fits p) (h : s.unread = Frames.stream payloads) :
    ∃ items, Gives (pollNext codec) s items ∧
      ((∀ e, .error e ∉ s.inner) → items = payloads.map (decode codec)) := by
  -- each poll that is not the last takes a frame off or leaves less of the body
  induction hn : payloads.length + s.inner.length using Nat.strong_induction_on
    generalizing s payloads with
  | _ n ih =>
    cases pollNext_cases codec s with
    | ended hitem hunread =>
      refine ⟨[], .ended hitem, fun _ ↦ ?_⟩
      rw [hunread] at h
      cases payloads with
      | nil => rfl
      | cons p ps =>
        have hlen := congrArg List.length h
        simp only [List.length_nil, Frames.stream_cons, List.length_append,
          Frames.length_frame] at hlen
        omega
    | message msg hitem hunread hinner =>
      cases payloads with
      | nil =>
        rw [h, Frames.stream_nil, Frames.splitFirst_nil] at hunread
        cases hunread
      | cons p ps =>
        rw [h, Frames.stream_cons, Frames.splitFirst_frame (hfits p (by simp))] at hunread
        injection hunread with hpair
        obtain ⟨hmsg, hrest⟩ := Prod.mk.injEq .. ▸ hpair
        have hlen := hinner.length_le
        rw [List.length_cons] at hn
        obtain ⟨items, hgives, hitems⟩ :=
          ih _ (by omega) (fun q hq ↦ hfits q (by simp [hq])) hrest.symm rfl
        refine ⟨_ :: items, .item hitem hgives, fun hno ↦ ?_⟩
        rw [List.map_cons, hmsg, hitems fun e he ↦ hno e (hinner.subset he)]
    | passedOn p hmem hitem hunread hinner hshorter =>
      obtain ⟨items, hgives, hitems⟩ :=
        ih _ (by omega) hfits (hunread.trans h) rfl
      rcases hitem with ⟨hitem, -⟩ | ⟨e, hitem, rfl⟩
      · exact ⟨items, .pending hitem hgives, fun hno ↦
          hitems fun e he ↦ hno e (hinner.subset he)⟩
      · exact ⟨_ :: items, .item hitem hgives, fun hno ↦ absurd hmem (hno e)⟩
    | stuck hitem hnone hne hunread =>
      cases payloads with
      | nil => exact absurd h hne
      | cons p ps =>
        rw [h, Frames.stream_cons, Frames.splitFirst_frame (hfits p (by simp))] at hnone
        cases hnone

/-! ### Bodies of the server -/

variable {codec} in
private theorem decode_serialize {r : Except UiServerError α}
    (hlen : (codec.serialize r).length < 2 ^ 64) : decode codec (codec.serialize r) = r := by
  rw [decode, codec.deserialize_serialize r hlen]

/-- However the body of a streamed answer is cut into chunks, polling until the end gives the
values, each once and in order. -/
theorem gives_streamResponse (codec : Codec (Except UiServerError α)) (values : List α)
    (hsize : ∀ v ∈ values, (codec.serialize (.ok v)).length < 2 ^ 32) (inner : List BodyPoll)
    (hinner : ∀ e, .error e ∉ inner)
    (hcut : inner.flatMap BodyPoll.bytes = (streamResponse codec values).flatten) :
    Gives (pollNext codec) (new inner) (values.map .ok) := by
  have hstream : (new inner).unread =
      Frames.stream (values.map fun v ↦ codec.serialize (.ok v)) := by
    rw [unread, new, List.nil_append, hcut, Frames.stream, List.flatMap_map,
      List.flatMap_def]
    rfl
  have hfits : ∀ p ∈ values.map fun v ↦ codec.serialize (.ok v), Frames.Fits p := by
    intro p hp
    obtain ⟨v, hv, rfl⟩ := List.mem_map.mp hp
    exact hsize v hv
  obtain ⟨items, hgives, hitems⟩ := gives_of_stream codec hfits hstream
  have hdecode : items = values.map .ok := by
    rw [hitems hinner, List.map_map]
    apply List.map_congr_left
    intro v hv
    exact decode_serialize (Nat.lt_trans (hsize v hv) (by decide))
  rwa [hdecode] at hgives

/-- The codec of the answers to index queries, for which the UI polls. -/
def exampleCodec : Codec (Except UiServerError (LsResponse × String)) :=
  (Codec.uiResult (Codec.lsResponse.seq .string)).codec fun _ ↦ "UnexpectedEnd"

/-- One answer, cut within its length, with an empty chunk and a wait between the pieces. -/
theorem gives_streamResponse_cut :
    let values := [(LsResponse.success [⟨"a", 1, false⟩], "n")]
    let body := (streamResponse exampleCodec values).flatten
    Gives (pollNext exampleCodec)
      (new [.chunk (body.take 3), .pending, .chunk [], .chunk (body.drop 3)])
      (values.map .ok) := by
  apply gives_streamResponse
  · intro v hv
    rw [List.mem_singleton.mp hv]
    decide
  · simp
  · simp [BodyPoll.bytes]

/-! ### Malformed bodies -/

/-- Behind bytes that are not frames the end never comes. -/
theorem not_ends_of_not_complete {s : LengthPrefixedStream}
    (h : ¬ Frames.Complete s.unread) : ¬ Ends (pollNext codec) s := by
  apply not_ends (I := fun s ↦ ¬ Frames.Complete s.unread) h
  · intro s hs
    cases pollNext_cases codec s with
    | ended hitem hunread => exact absurd (hunread ▸ Frames.complete_nil) hs
    | message msg hitem hunread hinner =>
      rwa [← Frames.complete_iff_of_splitFirst hunread]
    | passedOn p hmem hitem hunread hinner hshorter => rwa [hunread]
    | stuck hitem hnone hne hunread => rwa [hunread]
  · intro s hs hend
    cases pollNext_cases codec s with
    | ended hitem hunread => exact hs (hunread ▸ Frames.complete_nil)
    | message msg hitem hunread hinner => rw [hitem] at hend; cases hend
    | passedOn p hmem hitem hunread hinner hshorter =>
      rcases hitem with ⟨hitem, -⟩ | ⟨e, hitem, -⟩
      · rw [hitem] at hend
        cases hend
      · rw [hitem] at hend
        cases hend
    | stuck hitem hnone hne hunread => rw [hitem] at hend; cases hend

/-- Polling comes to an end exactly when the bytes of the body are complete messages, whatever
the messages hold and whatever errors the body gave. -/
theorem ends_iff_complete (codec : Codec (Except UiServerError α)) (inner : List BodyPoll) :
    Ends (pollNext codec) (new inner) ↔ Frames.Complete (inner.flatMap BodyPoll.bytes) := by
  constructor
  · intro h
    by_contra hnot
    exact not_ends_of_not_complete _ (s := new inner) hnot h
  · rintro ⟨payloads, hfits, hbytes⟩
    obtain ⟨items, hgives, -⟩ := gives_of_stream codec (s := new inner) hfits hbytes
    exact hgives.ends

/-- A body of a single zero byte is polled for ever. -/
theorem not_ends_zero_byte :
    ¬ ∀ inner : List BodyPoll, Ends (pollNext exampleCodec) (new inner) := by
  intro h
  have hnot : ¬ Frames.Complete [0] := by
    rw [Frames.complete_iff_of_splitFirst_none rfl]
    exact List.cons_ne_nil _ _
  exact not_ends_of_not_complete _ (s := new [.chunk [0]]) hnot (h [.chunk [0]])

end LengthPrefixedStream

end HarddriveParty
