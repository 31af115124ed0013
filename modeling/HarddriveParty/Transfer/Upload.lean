import HarddriveParty.Base.UnixFs
import HarddriveParty.Shared.UiMessages
import HarddriveParty.Shared.WireMessages

/-!
# Answering a read request

Model of the uploader in `src/connections/rpc.rs`. A requested file is streamed from its
start offset; every error is answered with one zero byte. How the reads of the file go, how
much time passes and which writes to the stream succeed, that of the zero byte included, are
inputs.
-/

namespace HarddriveParty

open UnixFs

/-- `RpcError` (`src/connections/rpc.rs:443`). -/
inductive RpcError where
  | dbError
  | pathNotFound
  | badOffset
  | readError
  | writeError
  | serializeError
  | channelClosed
  | u64ConvertError
  | closedStream
  deriving DecidableEq, Repr

namespace Uploader

/-- Minimum bytes written before emitting upload progress (`src/connections/rpc.rs:40`). -/
def minUploadUiUpdateBytes : UInt64 := 256 * 1024

/-- Minimum milliseconds between upload progress updates on fast links. -/
def minUploadUiUpdateInterval : Nat := 300

/-- Maximum milliseconds between upload progress updates on slow links. -/
def maxUploadUiUpdateInterval : Nat := 2000

/-- One pass of the upload loop: the block that was read, the milliseconds since the last
update, the measured speed, and whether the block could be written to the stream. -/
structure Pass where
  block : Bytes
  elapsed : Nat
  speed : Nat
  written : Bool

/-- What an answer puts on the stream, the events it sends, and how it ends. -/
structure Answer where
  bytes : Bytes
  events : List UiEvent
  outcome : Except RpcError Unit

/-- Get the portion of the file we want to upload (`src/connections/rpc.rs:367`).
`resolved` is what the index says about the path. An offset is a signed number for the
operating system. A directory can be opened, but gives no bytes. -/
def getFilePortion (fs : Fs) (resolved : Option (Bytes × UInt64))
    (start endOffset : Option UInt64) : Except RpcError (Bytes × UInt64) :=
  let startOffset := start.getD 0
  if endOffset.any fun e ↦ decide (e < startOffset) then .error .badOffset
  else
    match resolved with
    | none => .error .pathNotFound
    | some (resolvedPath, size) =>
      let opened := match fs.read resolvedPath with
        | .ok content => some content
        | .error .isADirectory => some []
        | .error _ => none
      match opened with
      | none => .error .pathNotFound
      | some content =>
        if 2 ^ 63 ≤ startOffset.toNat then .error .badOffset
        else
          match endOffset with
          | none => .ok (content.drop startOffset.toNat, size)
          | some e => .ok ((content.drop startOffset.toNat).take (e - startOffset).toNat, size)

/-- Respond with an error to a read query (`src/connections/rpc.rs:408`). If the zero byte cannot
be written the error of the write is returned. -/
def sendReadError (error : RpcError) (written : Bool) : Answer :=
  if written then ⟨[0], [], .error error⟩ else ⟨[], [], .error .writeError⟩

/-- The loop over the blocks of the file, and the last event. -/
def uploadLoop (path requesterName : String) (size : UInt64) (finalSpeed : Nat) :
    UInt64 → UInt64 → List Pass → Answer
  | bytesRead, _, [] =>
    ⟨[], [.uploaded ⟨path, bytesRead, size, finalSpeed, requesterName⟩], .ok ()⟩
  | bytesRead, sinceLastUiUpdate, pass :: rest =>
    let bytesRead := bytesRead + UInt64.ofNat pass.block.length
    let sinceLastUiUpdate := sinceLastUiUpdate + UInt64.ofNat pass.block.length
    let shouldEmit := (decide (minUploadUiUpdateBytes ≤ sinceLastUiUpdate) &&
      decide (minUploadUiUpdateInterval ≤ pass.elapsed)) ||
        decide (maxUploadUiUpdateInterval ≤ pass.elapsed)
    let events := if shouldEmit then
        [.uploaded ⟨path, bytesRead, size, pass.speed, requesterName⟩]
      else []
    if pass.written then
      let answer := uploadLoop path requesterName size finalSpeed bytesRead
        (if shouldEmit then 0 else sinceLastUiUpdate) rest
      ⟨pass.block ++ answer.bytes, events ++ answer.events, answer.outcome⟩
    else ⟨[], events, .error .writeError⟩

/-- Upload a file portion (`src/connections/rpc.rs:282`). `reads` cuts the bytes of the
portion into the blocks that the reads of the file return. -/
def doRead (portion : Except RpcError (Bytes × UInt64)) (path requesterName : String)
    (start : Option UInt64) (reads : Bytes → List Pass) (errorWritten : Bool) (finalSpeed : Nat) :
    Answer :=
  match portion with
  | .ok (bytes, size) =>
    uploadLoop path requesterName size finalSpeed (start.getD 0) 0 (reads bytes)
  | .error rpcError => sendReadError rpcError errorWritten

/-- The stream gets a beginning of the blocks that were read. -/
theorem uploadLoop_bytes (path requesterName : String) (size : UInt64) (finalSpeed : Nat)
    (bytesRead sinceLastUiUpdate : UInt64) (passes : List Pass) :
    (uploadLoop path requesterName size finalSpeed bytesRead sinceLastUiUpdate passes).bytes <+:
      passes.flatMap Pass.block := by
  induction passes generalizing bytesRead sinceLastUiUpdate with
  | nil => exact List.nil_prefix
  | cons pass rest ih =>
    rw [uploadLoop, List.flatMap_cons]
    cases pass.written with
    | true => exact (List.prefix_append_right_inj pass.block).mpr (ih _ _)
    | false => exact List.nil_prefix

/-- A portion is answered with a beginning of its bytes. -/
theorem doRead_ok {bytes : Bytes} {reads : Bytes → List Pass}
    (hreads : ∀ b, (reads b).flatMap Pass.block <+: b) (size : UInt64)
    (path requesterName : String) (start : Option UInt64) (errorWritten : Bool)
    (finalSpeed : Nat) :
    (doRead (.ok (bytes, size)) path requesterName start reads errorWritten finalSpeed).bytes <+:
      bytes :=
  (uploadLoop_bytes path requesterName size finalSpeed _ _ _).trans (hreads bytes)

/-- An error is answered with a zero byte, where the stream takes it. -/
theorem doRead_error (rpcError : RpcError) (path requesterName : String) (start : Option UInt64)
    (reads : Bytes → List Pass) (errorWritten : Bool) (finalSpeed : Nat) :
    (doRead (.error rpcError) path requesterName start reads errorWritten finalSpeed).bytes =
      if errorWritten then [0] else [] := by
  cases errorWritten <;> rfl

end Uploader

end HarddriveParty
