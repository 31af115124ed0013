import HarddriveParty.Base.Bytes
import Mathlib.Data.List.Infix

/-!
# Length-prefixed frames

Library module. A frame is a payload behind its length, which is written as four big-endian
bytes. `splitFirst` takes the first complete frame off a byte string; what it finds does not
depend on what follows, so a stream of frames is read the same way however it is cut.
-/

namespace Frames

/-- A payload behind its length as four big-endian bytes. The length is cut to 32 bits. -/
def frame (payload : Bytes) : Bytes := Bytes.beU32 (UInt32.ofNat payload.length) ++ payload

/-- Frames one after another. -/
def stream (payloads : List Bytes) : Bytes := payloads.flatMap frame

/-- The length that the first four bytes announce. -/
def announced (b : Bytes) : Nat := Bytes.ofBe (b.take 4)

/-- The payload of the first frame and what follows it, once the frame is complete. -/
def splitFirst (b : Bytes) : Option (Bytes × Bytes) :=
  if 4 ≤ b.length ∧ 4 + announced b ≤ b.length then
    some ((b.drop 4).take (announced b), (b.drop 4).drop (announced b))
  else none

/-- The length of the payload fits its four bytes. -/
def Fits (payload : Bytes) : Prop := payload.length < 2 ^ 32

variable {payload rest b c : Bytes} {payloads : List Bytes}

/-- A stream starts with its first frame. -/
@[simp] theorem stream_cons (payload : Bytes) (payloads : List Bytes) :
    stream (payload :: payloads) = frame payload ++ stream payloads := List.flatMap_cons

/-- A stream without frames is empty. -/
@[simp] theorem stream_nil : stream [] = [] := rfl

/-- Streams are joined frame by frame. -/
theorem stream_append (ps qs : List Bytes) : stream (ps ++ qs) = stream ps ++ stream qs :=
  List.flatMap_append

/-- A frame is four bytes longer than its payload. -/
@[simp] theorem length_frame (payload : Bytes) : (frame payload).length = 4 + payload.length := by
  rw [frame, List.length_append, Bytes.length_beU32]

/-- A frame announces the length of its payload. -/
theorem announced_frame (h : Fits payload) (rest : Bytes) :
    announced (frame payload ++ rest) = payload.length := by
  have hmod : payload.length % 2 ^ 32 = payload.length := Nat.mod_eq_of_lt h
  have hlt : payload.length < 256 ^ 4 := h
  rw [announced, frame, List.append_assoc, List.take_left' (Bytes.length_beU32 _), Bytes.beU32,
    UInt32.toNat_ofNat', hmod, Bytes.ofBe_toBe 4 _ hlt]

/-- The first frame of a stream is found. -/
theorem splitFirst_frame (h : Fits payload) (rest : Bytes) :
    splitFirst (frame payload ++ rest) = some (payload, rest) := by
  have hdrop : (frame payload ++ rest).drop 4 = payload ++ rest := by
    rw [frame, List.append_assoc, List.drop_left' (Bytes.length_beU32 _)]
  rw [splitFirst, announced_frame h, hdrop, List.take_left, List.drop_left, if_pos]
  simp only [List.length_append, length_frame]
  omega

/-- What is found is the first frame. -/
theorem eq_of_splitFirst (h : splitFirst b = some (payload, rest)) :
    b = frame payload ++ rest ∧ Fits payload := by
  unfold splitFirst at h
  split at h
  · next hlen =>
    cases h
    have htake : (b.take 4).length = 4 := by
      rw [List.length_take]
      omega
    have hlt : announced b < 2 ^ 32 := by
      have hbound := Bytes.ofBe_lt (b.take 4)
      rw [htake] at hbound
      exact hbound
    have hsize : ((b.drop 4).take (announced b)).length = announced b := by
      rw [List.length_take, List.length_drop]
      omega
    have hhead : Bytes.beU32 (UInt32.ofNat (announced b)) = b.take 4 := by
      have hmod : announced b % 2 ^ 32 = announced b := Nat.mod_eq_of_lt hlt
      have hbe := Bytes.toBe_ofBe (b.take 4)
      rw [htake] at hbe
      rw [Bytes.beU32, UInt32.toNat_ofNat', hmod, announced, hbe]
    refine ⟨?_, by rwa [Fits, hsize]⟩
    rw [frame, hsize, hhead, List.append_assoc, List.take_append_drop, List.take_append_drop]
  · cases h

/-- A complete first frame stays the first frame when more follows. -/
theorem splitFirst_append (h : splitFirst b = some (payload, rest)) (c : Bytes) :
    splitFirst (b ++ c) = some (payload, rest ++ c) := by
  obtain ⟨rfl, hfits⟩ := eq_of_splitFirst h
  rw [List.append_assoc, splitFirst_frame hfits]

/-- When as many bytes are there as are announced, there is a first frame. -/
theorem exists_splitFirst (hfour : 4 ≤ b.length) (hall : 4 + announced b ≤ b.length) :
    ∃ payload rest, splitFirst b = some (payload, rest) ∧ payload.length = announced b := by
  refine ⟨_, _, if_pos ⟨hfour, hall⟩, ?_⟩
  rw [List.length_take, List.length_drop]
  omega

/-- Without bytes there is no frame. -/
theorem splitFirst_nil : splitFirst [] = none := rfl

/-- A beginning of a frame that is not all of it is no frame. -/
theorem splitFirst_of_prefix (hfits : Fits payload) (h : b <+: frame payload)
    (hne : b ≠ frame payload) :
    splitFirst b = none ∧ (4 ≤ b.length → announced b = payload.length) := by
  obtain ⟨c, hc⟩ := h
  have hlen : b.length < 4 + payload.length := by
    have hcpos : c ≠ [] := by
      rintro rfl
      exact hne (by simpa using hc)
    have hcount := congrArg List.length hc
    rw [List.length_append, length_frame] at hcount
    have := List.length_pos_iff.mpr hcpos
    omega
  have hannounced : 4 ≤ b.length → announced b = payload.length := by
    intro hfour
    have htake : announced b = announced (frame payload ++ []) := by
      rw [List.append_nil, ← hc, announced, announced, List.take_append_of_le_length hfour]
    rw [htake, announced_frame hfits]
  refine ⟨?_, hannounced⟩
  rw [splitFirst, if_neg]
  rintro ⟨hfour, hle⟩
  rw [hannounced hfour] at hle
  omega

/-- A beginning of a stream is some of its frames and a beginning of the next one. -/
theorem exists_of_prefix_stream (h : b <+: stream payloads) :
    ∃ ps qs tail, payloads = ps ++ qs ∧ b = stream ps ++ tail ∧
      (tail = [] ∨ ∃ p rest, qs = p :: rest ∧ tail <+: frame p ∧ tail ≠ frame p) := by
  induction payloads generalizing b with
  | nil =>
    rw [stream_nil, List.prefix_nil] at h
    exact ⟨[], [], [], rfl, h, Or.inl rfl⟩
  | cons p rest ih =>
    rw [stream_cons] at h
    by_cases hshort : b.length < (frame p).length
    · refine ⟨[], p :: rest, b, rfl, rfl, Or.inr ⟨p, rest, rfl, ?_, ?_⟩⟩
      · exact List.prefix_of_prefix_length_le h (List.prefix_append _ _) hshort.le
      · rintro rfl
        omega
    · obtain ⟨c, rfl⟩ : frame p <+: b :=
        List.prefix_of_prefix_length_le (List.prefix_append _ _) h (not_lt.mp hshort)
      obtain ⟨ps, qs, tail, rfl, rfl, htail⟩ := ih ((List.prefix_append_right_inj _).mp h)
      exact ⟨p :: ps, qs, tail, rfl, by rw [stream_cons, List.append_assoc], htail⟩

/-- The bytes are frames one after another, with nothing left over. -/
def Complete (b : Bytes) : Prop := ∃ payloads, (∀ p ∈ payloads, Fits p) ∧ b = stream payloads

/-- No bytes are no frames. -/
theorem complete_nil : Complete [] := ⟨[], by simp, rfl⟩

/-- Taking the first frame off does not change whether the bytes are complete. -/
theorem complete_iff_of_splitFirst (h : splitFirst b = some (payload, rest)) :
    Complete b ↔ Complete rest := by
  constructor
  · rintro ⟨payloads, hfits, rfl⟩
    cases payloads with
    | nil =>
      rw [stream_nil, splitFirst_nil] at h
      cases h
    | cons p ps =>
      rw [stream_cons, splitFirst_frame (hfits p (by simp))] at h
      cases h
      exact ⟨ps, fun q hq ↦ hfits q (by simp [hq]), rfl⟩
  · rintro ⟨payloads, hfits, rfl⟩
    obtain ⟨rfl, hp⟩ := eq_of_splitFirst h
    refine ⟨payload :: payloads, ?_, (stream_cons _ _).symm⟩
    rintro q hq
    rcases List.mem_cons.mp hq with rfl | hq
    · exact hp
    · exact hfits q hq

/-- Bytes that start with no complete frame are complete only if there are none. -/
theorem complete_iff_of_splitFirst_none (h : splitFirst b = none) : Complete b ↔ b = [] := by
  constructor
  · rintro ⟨payloads, hfits, rfl⟩
    cases payloads with
    | nil => rfl
    | cons p ps =>
      rw [stream_cons, splitFirst_frame (hfits p (by simp))] at h
      cases h
  · rintro rfl
    exact complete_nil

end Frames
