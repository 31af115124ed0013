import HarddriveParty.Shared.Codec
import HarddriveParty.Wishlist.Records

/-!
# The binary form of the events

The messages of a websocket: `serialize` and `deserialize` of `shared/src/codec.rs` at `UiEvent`.
The time of a completed download is a `std::time::Duration`, of which the event of the model keeps
the seconds; the fraction of the second that is written with them is an input. The node and its UI
are programs of different sizes: a `usize` is written as a number of 64 bits, and the UI, which runs
in a browser, refuses one that does not fit its 32 bits.
-/

namespace HarddriveParty

open Bincode

/-- The nanoseconds of a second. -/
abbrev Nanos := {nanos : UInt32 // nanos.toNat < 1000000000}

namespace Codec

/-- A number of four bytes. -/
def u32 : Format UInt32 :=
  .fixed 4 (fun x ↦ Bytes.toLe 4 x.toNat) (fun b ↦ UInt32.ofNat (Bytes.ofLe b))
    (fun _ ↦ Bytes.length_toLe 4 _) (by
      intro x
      have hx : x.toNat < 256 ^ 4 := x.toNat_lt
      rw [Bytes.ofLe_toLe 4 _ hx, UInt32.ofNat_toNat])

/-- `std::time::Duration`: seconds and nanoseconds. Nanoseconds of a second and more are carried
when they are read, unless the seconds overflow. -/
def duration : Format (UInt64 × Nanos) where
  write d := (Format.u64.seq u32).write (d.1, d.2.1)
  read b := do
    let ((secs, nanos), rest) ← (Format.u64.seq u32).read b
    let carried := secs.toNat + nanos.toNat / 1000000000
    if carried < 2 ^ 64 then
      some ((UInt64.ofNat carried, ⟨UInt32.ofNat (nanos.toNat % 1000000000), by
        have hlt : nanos.toNat % 1000000000 < 1000000000 := Nat.mod_lt _ (by decide)
        rw [UInt32.toNat_ofNat', Nat.mod_eq_of_lt (Nat.lt_trans hlt (by decide))]
        exact hlt⟩), rest)
    else none
  read_write := by
    rintro ⟨secs, nanos, hnanos⟩ rest h
    have hsecs : secs.toNat < 2 ^ 64 := secs.toNat_lt
    simp only [(Format.u64.seq u32).read_write (secs, nanos) rest h, Option.bind_eq_bind,
      Option.bind_some, Nat.div_eq_of_lt hnanos, Nat.mod_eq_of_lt hnanos, Nat.add_zero,
      if_pos hsecs, UInt64.ofNat_toNat, UInt32.ofNat_toNat]

/-- A `usize` where addresses have 32 bits: eight bytes are read, and a larger number is refused. -/
def usize32 : Format UInt32 where
  write x := Bytes.leU64 x.toUInt64
  read b := do
    let (x, rest) ← Format.u64.read b
    if x.toNat < 2 ^ 32 then some (x.toUInt32, rest) else none
  read_write := by
    intro x rest _
    have hx : x.toUInt64.toNat < 2 ^ 32 := x.toNat_lt
    simp only [Format.u64_read, Option.bind_eq_bind, Option.bind_some, if_pos hx,
      UInt32.toUInt32_toUInt64]

/-- `UploadInfo` as it is written; the speed is a `usize`. -/
def uploadInfo {α : Type} (usize : Format α) : Format (String × UInt64 × UInt64 × α × String) :=
  Format.string.seq (Format.u64.seq (Format.u64.seq (usize.seq .string)))

/-- `DownloadInfo` as it is written. -/
def downloadInfo : Format ((String × UInt64 × UInt64 × UInt32) ⊕ (UInt64 × Nanos)) :=
  (Variants.cons (Format.string.seq (Format.u64.seq (Format.u64.seq u32)))
    (.last duration)).format (by decide)

/-- `DownloadEvent` as it is written. -/
def downloadEvent :
    Format (UInt32 × String × String × ((String × UInt64 × UInt64 × UInt32) ⊕ (UInt64 × Nanos))) :=
  u32.seq (Format.string.seq (Format.string.seq downloadInfo))

/-- `UiEvent` as it is written. -/
def uiEvent {α : Type} (usize : Format α) : Format (String ⊕ (String × String) ⊕
    (String × String) ⊕ (String × UInt64 × UInt64 × α × String) ⊕
    (UInt32 × String × String × ((String × UInt64 × UInt64 × UInt32) ⊕ (UInt64 × Nanos)))) :=
  (Variants.cons .string (.cons (Format.string.seq .string) (.cons (Format.string.seq .string)
    (.cons (uploadInfo usize) (.last downloadEvent))))).format (by
      show 5 ≤ 2 ^ 32
      decide)

end Codec

namespace UiEvent

/-- The parts of an event as they are written, with the speed as a `usize`. -/
def parts {α : Type} (usize : Nat → α) (nanos : Nanos) : UiEvent → String ⊕ (String × String) ⊕
    (String × String) ⊕ (String × UInt64 × UInt64 × α × String) ⊕
    (UInt32 × String × String × ((String × UInt64 × UInt64 × UInt32) ⊕ (UInt64 × Nanos)))
  | peerConnected name => .inl name
  | peerDisconnected name error => .inr (.inl (name, error))
  | peerConnectionFailed name error => .inr (.inr (.inl (name, error)))
  | uploaded info => .inr (.inr (.inr (.inl
      (info.path, info.bytesRead, info.totalSize, usize info.speed, info.peerName))))
  | download event => .inr (.inr (.inr (.inr
      (event.requestId, event.path, event.peerName, match event.downloadInfo with
        | .downloading path bytesRead totalBytesRead speed =>
          .inl (path, bytesRead, totalBytesRead, speed)
        | .completed secs => .inr (secs, nanos)))))

/-- `serialize` of an event by the node, whose addresses have 64 bits. -/
def serialize (nanos : Nanos) (event : UiEvent) : Bytes :=
  (Codec.uiEvent Format.u64).write (event.parts UInt64.ofNat nanos)

/-- `deserialize` to an event by the UI. The text of an error is the binary decoder's. -/
def deserialize (errorText : Bytes → String) (b : Bytes) : Except String UiEvent :=
  (((Codec.uiEvent Codec.usize32).codec errorText).deserialize b).map fun
    | .inl name => peerConnected name
    | .inr (.inl (name, error)) => peerDisconnected name error
    | .inr (.inr (.inl (name, error))) => peerConnectionFailed name error
    | .inr (.inr (.inr (.inl (path, bytesRead, totalSize, speed, peerName)))) =>
      uploaded ⟨path, bytesRead, totalSize, speed.toNat, peerName⟩
    | .inr (.inr (.inr (.inr (requestId, path, peerName, info)))) =>
      download ⟨requestId, path, peerName, match info with
        | .inl (path, bytesRead, totalBytesRead, speed) =>
          .downloading path bytesRead totalBytesRead speed
        | .inr (secs, _) => .completed secs⟩

/-- The event is one that the UI has room for: the speed is a `usize` of 32 bits, and no message is
longer than the memory. -/
structure Fits (event : UiEvent) : Prop where
  speed : ∀ info, event = .uploaded info → info.speed < 2 ^ 32
  length : ∀ nanos, (event.serialize nanos).length < 2 ^ 32

/-- A speed of 32 bits is written as the UI would write it. -/
theorem Fits.serialize {event : UiEvent} (h : event.Fits) (nanos : Nanos) :
    event.serialize nanos =
      (Codec.uiEvent Codec.usize32).write (event.parts UInt32.ofNat nanos) := by
  cases event with
  | uploaded info =>
    have hspeed : UInt64.ofNat info.speed = (UInt32.ofNat info.speed).toUInt64 := by
      rw [← UInt64.toNat_inj, UInt64.toNat_ofNat', UInt32.toNat_toUInt64, UInt32.toNat_ofNat']
      have hlt := h.speed info rfl
      omega
    have hbytes : Format.u64.write (UInt64.ofNat info.speed) =
        Codec.usize32.write (UInt32.ofNat info.speed) := congrArg Bytes.leU64 hspeed
    show Bytes.toLe 4 3 ++ (Format.string.write info.path ++ (Format.u64.write info.bytesRead ++
      (Format.u64.write info.totalSize ++ (Format.u64.write (UInt64.ofNat info.speed) ++
        Format.string.write info.peerName)))) = _
    rw [hbytes]
    rfl
  | _ => rfl

/-- What the node writes of an event, the UI reads. -/
theorem deserialize_serialize {event : UiEvent} (h : event.Fits) (errorText : Bytes → String)
    (nanos : Nanos) : deserialize errorText (event.serialize nanos) = .ok event := by
  have hlength := h.length nanos
  have hwrite := h.serialize nanos
  rw [hwrite] at hlength ⊢
  have hread := ((Codec.uiEvent Codec.usize32).codec errorText).deserialize_serialize
    (event.parts UInt32.ofNat nanos) (Nat.lt_trans hlength (by decide))
  unfold deserialize
  simp only [Format.codec] at hread ⊢
  rw [hread]
  cases event with
  | uploaded info =>
    have hspeed : (UInt32.ofNat info.speed).toNat = info.speed := by
      rw [UInt32.toNat_ofNat', Nat.mod_eq_of_lt (h.speed info rfl)]
    simp only [Except.map, parts, hspeed]
  | download event =>
    obtain ⟨requestId, path, peerName, info⟩ := event
    cases info <;> rfl
  | _ => rfl

end UiEvent

end HarddriveParty
