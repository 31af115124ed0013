import HarddriveParty.Base.UnixPath

/-!
# A Unix file system

Library module. A file system is a tree of directories, regular files and symbolic links;
paths are resolved the way the kernel does, one piece after the other, following links.
The calls take the file system and return it with their outcome.
-/

namespace UnixFs

open UnixPath

/-- What a directory entry is. -/
inductive Node where
  | dir
  | file (content : Bytes)
  | symlink (target : Bytes)
  deriving DecidableEq, Repr

/-- The errors of `std::io::ErrorKind` that the calls below give. -/
inductive ErrorKind where
  | notFound
  | alreadyExists
  | invalidInput
  | notADirectory
  | isADirectory
  | filesystemLoop
  | other
  deriving DecidableEq, Repr

/-- A tree of nodes by their names below the root, with the working directory of the
process. Only directories have entries. -/
structure Fs where
  node : List Name → Option Node
  root : node [] = some .dir
  parent : ∀ ns n, (node (ns ++ [n])).isSome → node ns = some .dir
  cwd : List Name
  cwd_dir : node cwd = some .dir

namespace Fs

variable {fs : Fs}

/-- The file system that has only a root directory. -/
def rootOnly : Fs where
  node q := if q = [] then some .dir else none
  root := rfl
  parent ns n h := by simp at h
  cwd := []
  cwd_dir := rfl

/-- Put a node at a location in a directory; an existing directory is not replaced. -/
def put (fs : Fs) (q : List Name) (x : Node) : Fs :=
  if h : q ≠ [] ∧ fs.node q.dropLast = some .dir ∧ fs.node q ≠ some .dir then
    { fs with
      node := fun r ↦ if r = q then some x else fs.node r
      root := by
        rw [if_neg (Ne.symm h.1), fs.root]
      parent := by
        intro ns n hn
        by_cases hq : ns ++ [n] = q
        · have hns : ns = q.dropLast := by rw [← hq, List.dropLast_concat]
          have hne : ns ≠ q := by
            intro he
            have hl := congrArg List.length hq
            rw [he, List.length_append, List.length_singleton] at hl
            omega
          rw [if_neg hne, hns]
          exact h.2.1
        · rw [if_neg hq] at hn
          have hdir := fs.parent ns n hn
          have hne : ns ≠ q := by
            rintro rfl
            exact h.2.2 hdir
          rw [if_neg hne, hdir]
      cwd_dir := by
        have hne : fs.cwd ≠ q := by
          intro he
          exact h.2.2 (he ▸ fs.cwd_dir)
        rw [if_neg hne, fs.cwd_dir] }
  else fs

/-- A node that is put into a directory changes its own location only. -/
theorem node_put {ns : List Name} {n : Name} (hdir : fs.node ns = some .dir)
    (hfree : fs.node (ns ++ [n]) ≠ some .dir) (x : Node) (r : List Name) :
    (fs.put (ns ++ [n]) x).node r = if r = ns ++ [n] then some x else fs.node r := by
  rw [put, dif_pos]
  refine ⟨by simp, ?_, hfree⟩
  rw [List.dropLast_concat, hdir]

/-- Putting a node keeps the working directory. -/
@[simp] theorem cwd_put (q : List Name) (x : Node) : (fs.put q x).cwd = fs.cwd := by
  unfold put
  split <;> rfl

/-- How many links one resolution follows, `MAXSYMLINKS`. -/
def maxLinks : Nat := 40

/-- Where the resolution of a path starts. -/
def start (cwd : List Name) (path : Bytes) : List Name :=
  if path.head? = some slash then [] else cwd

section Walk

variable (fs) (followLast : Bool)

/-- Walk the pieces of a path from a directory; `follow` goes on behind a link. -/
def walkPieces (follow : List Name → Bytes → List Bytes → Except ErrorKind (List Name)) :
    List Name → List Bytes → Except ErrorKind (List Name)
  | dir, [] => .ok dir
  | dir, piece :: rest =>
    if piece = [] ∨ piece = [dot] then walkPieces follow dir rest
    else if piece = [dot, dot] then walkPieces follow dir.dropLast rest
    else if h : IsName piece then
      let q := dir ++ [⟨piece, h⟩]
      match fs.node q with
      | none => if rest = [] then .ok q else .error .notFound
      | some .dir => walkPieces follow q rest
      | some (.file _) => if rest = [] then .ok q else .error .notADirectory
      | some (.symlink target) =>
        if rest = [] ∧ followLast = false then .ok q else follow dir target rest
    else .error .invalidInput

/-- Walk the pieces of a path, following at most the given number of links. -/
def walk : Nat → List Name → List Bytes → Except ErrorKind (List Name)
  | 0 => walkPieces fs followLast fun _ _ _ ↦ .error .filesystemLoop
  | links + 1 => walkPieces fs followLast fun dir target rest ↦
    walk links (start dir target) (pieces target ++ rest)

/-- The location that a path leads to. -/
def resolve (path : Bytes) : Except ErrorKind (List Name) :=
  if path = [] then .error .notFound
  else if 0 ∈ path then .error .invalidInput
  else walk fs followLast maxLinks (start fs.cwd path) (pieces path)

end Walk

/-- The node at a location. -/
def nodeAt (fs : Fs) (q : List Name) : Except ErrorKind Node :=
  match fs.node q with
  | some x => .ok x
  | none => .error .notFound

/-- `std::fs::symlink_metadata`: the node of a path, without following a link at its end. -/
def symlinkMetadata (fs : Fs) (path : Bytes) : Except ErrorKind Node :=
  fs.resolve false path >>= fs.nodeAt

/-- `std::fs::metadata`: the node that a path leads to. -/
def metadata (fs : Fs) (path : Bytes) : Except ErrorKind Node :=
  fs.resolve true path >>= fs.nodeAt

/-- `Path::is_dir`. -/
def isDir (fs : Fs) (path : Bytes) : Bool := decide (fs.metadata path = .ok .dir)

/-- `std::fs::create_dir`. Separators at the end of the path are skipped. -/
def createDir (fs : Fs) (path : Bytes) : Fs × Except ErrorKind Unit :=
  if path = [] then (fs, .error .notFound)
  else if 0 ∈ path then (fs, .error .invalidInput)
  else
    match walk fs false maxLinks (start fs.cwd path)
        ((pieces path).rdropWhile fun piece ↦ decide (piece = [])) with
    | .error e => (fs, .error e)
    | .ok q =>
      match fs.node q with
      | some _ => (fs, .error .alreadyExists)
      | none => (fs.put q .dir, .ok ())

/-- `createDirAll` with a bound on the number of parents. -/
def createDirAllWithin : Nat → Fs → Bytes → Fs × Except ErrorKind Unit
  | 0, fs, _ => (fs, .error .other)
  | fuel + 1, fs, path =>
    if path = [] then (fs, .ok ())
    else
      match fs.createDir path with
      | (fs, .ok ()) => (fs, .ok ())
      | (fs, .error .notFound) =>
        match UnixPath.parent path with
        | none => (fs, .error .other)
        | some p =>
          match createDirAllWithin fuel fs p with
          | (fs, .error e) => (fs, .error e)
          | (fs, .ok ()) =>
            match fs.createDir path with
            | (fs, .ok ()) => (fs, .ok ())
            | (fs, .error e) => if fs.isDir path then (fs, .ok ()) else (fs, .error e)
      | (fs, .error e) => if fs.isDir path then (fs, .ok ()) else (fs, .error e)

/-- `std::fs::create_dir_all`. A parent is shorter than its path. -/
def createDirAll (fs : Fs) (path : Bytes) : Fs × Except ErrorKind Unit :=
  createDirAllWithin (path.length + 1) fs path

/-- Open a file for appending and create it if it is missing; the handle is its location. -/
def openAppend (fs : Fs) (path : Bytes) : Fs × Except ErrorKind (List Name) :=
  match fs.resolve true path with
  | .error e => (fs, .error e)
  | .ok q =>
    match fs.node q with
    | none => (fs.put q (.file []), .ok q)
    | some (.file _) => (fs, .ok q)
    | some .dir => (fs, .error .isADirectory)
    | some (.symlink _) => (fs, .error .filesystemLoop)

/-- The bytes of the open file at a location. -/
def content (fs : Fs) (q : List Name) : Bytes :=
  match fs.node q with
  | some (.file c) => c
  | _ => []

/-- Append to the open file at a location. -/
def append (fs : Fs) (q : List Name) (b : Bytes) : Fs :=
  match fs.node q with
  | some (.file c) => fs.put q (.file (c ++ b))
  | _ => fs

/-- `std::fs::read`. -/
def read (fs : Fs) (path : Bytes) : Except ErrorKind Bytes :=
  match fs.metadata path with
  | .error e => .error e
  | .ok (.file c) => .ok c
  | .ok _ => .error .isADirectory

end Fs

end UnixFs
