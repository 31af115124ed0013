import HarddriveParty.Base.UnixWalk
import HarddriveParty.Transfer.RemotePath

/-!
# Setting up a download

Model of `setup_download` in `src/peer.rs` and the checks that it makes: the directories
above the target are created one by one, none of them may be a link, and the target is
opened for appending.
-/

namespace HarddriveParty

open UnixPath UnixFs

/-- An error of the transfer code: an input or output error, or a message. -/
inductive TransferError where
  | io (kind : ErrorKind)
  | message (text : String)
  deriving DecidableEq, Repr

/-- `Path::display`. The paths here are UTF-8. -/
def display (path : Bytes) : String := (Utf8.decode path).getD ""

/-- `output_path_for_remote_path` (`src/peer.rs:339`). -/
def outputPathForRemotePath (downloadDir : Bytes) (remotePath : String) :
    Except TransferError Bytes :=
  match safeRemoteRelativePath remotePath with
  | .error text => .error (.message text)
  | .ok relativePath =>
    if relativePath = [] then .error (.message "Remote file path is empty")
    else .ok (join downloadDir relativePath)

/-- Ensure an existing path is a real directory and not a symlink (`src/peer.rs:457`). -/
def ensureExistingDirectory (fs : Fs) (path : Bytes) : Except TransferError Unit :=
  match fs.symlinkMetadata path with
  | .error kind => .error (.io kind)
  | .ok (.symlink _) =>
    .error (.message ("Download path directory is a symlink: " ++ display path))
  | .ok (.file _) =>
    .error (.message ("Download path directory is not a directory: " ++ display path))
  | .ok .dir => .ok ()

/-- Ensure the configured download root exists and is a real directory
(`src/peer.rs:414`). -/
def ensureDownloadRoot (fs : Fs) (downloadDir : Bytes) : Fs × Except TransferError Unit :=
  match fs.symlinkMetadata downloadDir with
  | .ok _ => (fs, ensureExistingDirectory fs downloadDir)
  | .error .notFound =>
    match fs.createDirAll downloadDir with
    | (fs, .ok ()) => (fs, ensureExistingDirectory fs downloadDir)
    | (fs, .error kind) => (fs, .error (.io kind))
  | .error kind => (fs, .error (.io kind))

/-- Create and validate each parent directory component for a download target
(`src/peer.rs:425`), from the directory `current` on. -/
def ensureSafeParentDirs (fs : Fs) (current : Bytes) :
    List Component → Fs × Except TransferError Unit
  | [] => (fs, .ok ())
  | .normal part :: rest =>
    let current := join current part
    match fs.symlinkMetadata current with
    | .ok _ =>
      match ensureExistingDirectory fs current with
      | .ok () => ensureSafeParentDirs fs current rest
      | .error e => (fs, .error e)
    | .error .notFound =>
      match fs.createDir current with
      | (fs, .ok ()) | (fs, .error .alreadyExists) =>
        match ensureExistingDirectory fs current with
        | .ok () => ensureSafeParentDirs fs current rest
        | .error e => (fs, .error e)
      | (fs, .error kind) => (fs, .error (.io kind))
    | .error kind => (fs, .error (.io kind))
  | _ :: _ => (fs, .error (.message "Remote path contains an unsafe parent component"))

/-- Reject an existing final download target if it is a symlink or directory
(`src/peer.rs:474`). -/
def rejectExistingSymlinkOrDirectory (fs : Fs) (path : Bytes) : Except TransferError Unit :=
  match fs.symlinkMetadata path with
  | .ok (.symlink _) => .error (.message ("Download target is a symlink: " ++ display path))
  | .ok .dir => .error (.message ("Download target is a directory: " ++ display path))
  | .ok (.file _) => .ok ()
  | .error .notFound => .ok ()
  | .error kind => .error (.io kind)

/-- Where to start writing when a file of the given size exists. A file that is bigger than
the remote source counts as already downloaded. -/
def startOffset (existingFileSize size : UInt64) : Option UInt64 :=
  if size < existingFileSize then some size
  else if existingFileSize = 0 then none
  else some existingFileSize

/-- Setup download and return the file as well as the offset if the file is already partially
downloaded (`src/peer.rs:369`). -/
def setupDownload (fs : Fs) (downloadDir : Bytes) (remotePath : String) (size : UInt64) :
    Fs × Except TransferError (List Name × Option UInt64) :=
  match safeRemoteRelativePath remotePath with
  | .error text => (fs, .error (.message text))
  | .ok relativePath =>
    if relativePath = [] then (fs, .error (.message "Remote file path is empty"))
    else
      match outputPathForRemotePath downloadDir remotePath with
      | .error e => (fs, .error e)
      | .ok filePath =>
        match ensureDownloadRoot fs downloadDir with
        | (fs, .error e) => (fs, .error e)
        | (fs, .ok ()) =>
          match ensureSafeParentDirs fs downloadDir
              (components ((UnixPath.parent relativePath).getD [])) with
          | (fs, .error e) => (fs, .error e)
          | (fs, .ok ()) =>
            match rejectExistingSymlinkOrDirectory fs filePath with
            | .error e => (fs, .error e)
            | .ok () =>
              match fs.openAppend filePath with
              | (fs, .error kind) => (fs, .error (.io kind))
              | (fs, .ok file) =>
                (fs, .ok (file, startOffset (UInt64.ofNat (fs.content file).length) size))

end HarddriveParty
