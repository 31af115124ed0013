import HarddriveParty.Base.OrderedTree
import HarddriveParty.Base.Outcome
import HarddriveParty.Base.UnixPath
import HarddriveParty.Base.Utf8

/-!
# The share index

Model of `src/shares.rs`: three trees that map file paths to sizes, directory paths to
cumulative sizes and share names to paths on disk. `scan` walks a directory and adds the
files it meets; `removeShareDir` takes the entries of one share out again. The walk is an
input, a list of what the directory walker yields. Tree operations do not fail here, and
sizes wrap as in a build without overflow checks.
-/

namespace HarddriveParty

open UnixPath

/-- A `sled::Tree`. -/
abbrev Tree := Std.ExtTreeMap Bytes Bytes compare

/-- `std::io::Error`, by its message. -/
structure IoError where
  message : String
  deriving DecidableEq, Repr

/-- The share index (`src/shares.rs:18`). -/
structure Shares where
  files : Tree
  dirs : Tree
  shareNames : Tree

/-- The errors of a scan that do not come from the database (`src/shares.rs:383`). -/
inductive ScanDirError where
  | ioError (e : IoError)
  | osStringError
  | getParentError
  | prefixError
  | utf8Error
  | noShare
  deriving DecidableEq, Repr

/-- What `DirEntry::metadata` says about an entry; symbolic links are not followed. -/
structure Metadata where
  isDir : Bool
  len : UInt64
  deriving DecidableEq, Repr

/-- What the walker yields: an error, or an entry below the walked directory with the
results of the two metadata calls, the second of which is made for the log line. -/
inductive WalkItem where
  | failed (e : IoError)
  | entry (names : List Name) (metadata : Except IoError Metadata) (logged : Except IoError Unit)

/-- A finite directory tree: its entries by their path below the root, each once, each
below the root itself or below a directory of the tree. -/
structure DirTree where
  entries : List (List Name × Metadata)
  nodup : (entries.map Prod.fst).Nodup
  ne_nil : ∀ e ∈ entries, e.1 ≠ []
  closed : ∀ e ∈ entries, e.1.dropLast ≠ [] →
    ∃ d ∈ entries, d.1 = e.1.dropLast ∧ d.2.isDir = true

namespace WalkItem

/-- The path of the entry below the walked directory. -/
def names? : WalkItem → Option (List Name)
  | failed _ => none
  | entry names _ _ => some names

/-- The item is an error or reports an entry of the tree. -/
def From (t : DirTree) : WalkItem → Prop
  | failed _ => True
  | entry names (.ok metadata) _ => (names, metadata) ∈ t.entries
  | entry names (.error _) _ => names ∈ t.entries.map Prod.fst

instance (t : DirTree) : DecidablePred (From t)
  | failed _ => inferInstanceAs (Decidable True)
  | entry names (.ok metadata) _ => inferInstanceAs (Decidable ((names, metadata) ∈ t.entries))
  | entry names (.error _) _ => inferInstanceAs (Decidable (names ∈ t.entries.map Prod.fst))

end WalkItem

/-- A walk of a tree: it reports every entry at most once, in any order, and may fail and
stop at any point. -/
structure Walk (t : DirTree) where
  items : List WalkItem
  fromTree : ∀ item ∈ items, item.From t
  once : (items.filterMap WalkItem.names?).Nodup

/-- To make cumulative directory sizes by adding the size of their containing files
(`src/shares.rs:363`). A value that is not eight bytes long counts as zero. -/
def additionMerge (_key : Bytes) (oldValue : Option Bytes) (mergedBytes : Bytes) :
    Option Bytes :=
  let oldSize := match oldValue with
    | some v => (Bytes.readLeU64 v).getD 0
    | none => 0
  let toAdd := (Bytes.readLeU64 mergedBytes).getD 0
  some (Bytes.leU64 (oldSize + toAdd))

/-- `share_key_matches` (`src/shares.rs:294`). -/
def shareKeyMatches (entry : Bytes) (shareName : String) : Bool :=
  entry == Utf8.encode shareName || (Utf8.encode shareName ++ [slash]).isPrefixOf entry

/-- The file system path of an entry that the walker found below `root`. -/
def entryPath (root : Bytes) (names : List Name) : Bytes :=
  names.foldl (fun p n ↦ join p n.val) root

/-- The `i`-th alias made from a counter, counted from `i` up to the largest `i32`. -/
def numberedName (taken : String → Bool) (basename : String) : Nat → Nat → Option String
  | 0, _ => none
  | fuel + 1, i =>
    let candidate := basename ++ " - " ++ toString i
    if taken candidate then numberedName taken basename fuel (i + 1) else some candidate

/-- The aliases made of the last two, three, … components. -/
def suffixNames (components : List String) : List String :=
  (List.range' 2 (components.length - 1)).map fun suffixLen ↦
    String.intercalate " - " (components.drop (components.length - suffixLen))

/-- The normal ones of some components as strings, when they are UTF-8. -/
def normalComponents : List Component → Option (List String)
  | [] => some []
  | .normal name :: rest =>
    (Utf8.decode name).bind fun s ↦ (normalComponents rest).map (s :: ·)
  | _ :: rest => normalComponents rest

namespace Shares

/-- The index of an empty database. -/
def empty : Shares := ⟨∅, ∅, ∅⟩

/-- Return the stable root alias used to expose a shared directory in the index
(`src/shares.rs:113`). When the counter of the last loop leaves its type the call panics. -/
def shareNameForPath (shareNames : Tree) (path : String) : Outcome ScanDirError String :=
  match shareNames.toList.find? fun kv ↦ kv.2 == Utf8.encode path with
  | some (existingName, _) => Outcome.okOr .utf8Error (Utf8.decode existingName)
  | none =>
    match fileName (Utf8.encode path) with
    | none => .error (.error .getParentError)
    | some name =>
      match Utf8.decode name with
      | none => .error (.error .osStringError)
      | some basename =>
        let taken := fun candidate ↦ shareNames[Utf8.encode candidate]?.isSome
        if taken basename then
          match normalComponents (components (Utf8.encode path)) with
          | none => .error (.error .osStringError)
          | some components =>
            match (suffixNames components).find? fun candidate ↦ !taken candidate with
            | some candidate => .ok candidate
            | none =>
              Outcome.orPanic "counter overflow"
                (numberedName taken basename (2 ^ 31 - 2) 2)
        else .ok basename

/-- `get_dir_size` (`src/shares.rs:288`). -/
def getDirSize (s : Shares) (dirName : String) : Option UInt64 :=
  s.dirs[Utf8.encode dirName]?.bind Bytes.readLeU64

/-- The size left for the root entry when a share is taken out. -/
def rootSizeWithout (existingSize : UInt64) (rootSizeOption : Option Bytes) : UInt64 :=
  match rootSizeOption with
  | some rootSizeBuf =>
    match Bytes.readLeU64 rootSizeBuf with
    | some rootSize => rootSize - existingSize
    | none => 0
  | none => 0

/-- Remove the entries of a share from one tree. -/
def removeMatching (t : Tree) (shareName : String) : Tree :=
  OrderedTree.eraseKeys t
    (((OrderedTree.scanPrefix t (Utf8.encode shareName)).map Prod.fst).filter
      (shareKeyMatches · shareName))

/-- Stop sharing a directory by removing related entries from the database
(`src/shares.rs:245`). -/
def removeShareDir (s : Shares) (shareName : String) : Shares × Except ScanDirError Unit :=
  match s.getDirSize shareName with
  | some existingSize =>
    let dirs := OrderedTree.update s.dirs [] fun rootSizeOption ↦
      some (Bytes.leU64 (rootSizeWithout existingSize rootSizeOption))
    ({ files := removeMatching s.files shareName
       dirs := removeMatching dirs shareName
       shareNames := s.shareNames.erase (Utf8.encode shareName) }, .ok ())
  | none => (s, .error .noShare)

/-- For each component of the path, add the size into the directory sizes index. -/
def mergeAncestors (size : Bytes) : Tree → List Bytes → Tree × Except ScanDirError Unit
  | dirs, [] => (dirs, .ok ())
  | dirs, subPath :: rest =>
    match Utf8.decode subPath with
    | none => (dirs, .error .osStringError)
    | some subPathStr =>
      let key := Utf8.encode subPathStr
      mergeAncestors size (OrderedTree.update dirs key fun old ↦ additionMerge key old size) rest

/-- Index one file of the walk. -/
def scanFile (root shareName : String) (s : Shares) (names : List Name) (len : UInt64) :
    Shares × Except ScanDirError Unit :=
  -- Remove the `path` portion of the entry, and join it with `share_name`
  match stripPrefix (entryPath (Utf8.encode root) names) (Utf8.encode root) with
  | none => (s, .error .prefixError)
  | some relative =>
    let entryPathWithShareName := join (Utf8.encode shareName) relative
    match Utf8.decode entryPathWithShareName with
    | none => (s, .error .osStringError)
    | some filepath =>
      match parent entryPathWithShareName with
      | none => (s, .error .getParentError)
      | some dir =>
        match mergeAncestors (Bytes.leU64 len) s.dirs (ancestors dir) with
        | (dirs, .error e) => ({ s with dirs := dirs }, .error e)
        | (dirs, .ok ()) =>
          ({ s with dirs := dirs
                    files := s.files.insert (Utf8.encode filepath) (Bytes.leU64 len) }, .ok ())

/-- One turn of the scan loop, with the number of entries it added. -/
def scanEntry (root shareName : String) (s : Shares) :
    WalkItem → Shares × Except ScanDirError UInt32
  | .failed e => (s, .error (.ioError e))
  | .entry _ (.error e) _ => (s, .error (.ioError e))
  | .entry names (.ok metadata) logged =>
    if metadata.isDir then (s, .ok 0)
    else
      match scanFile root shareName s names metadata.len, logged with
      | (s, .error e), _ => (s, .error e)
      | (s, .ok ()), .error e => (s, .error (.ioError e))
      | (s, .ok ()), .ok () => (s, .ok 1)

/-- The loop of `scan` over the items of the walk. -/
def scanLoop (root shareName : String) :
    Shares → UInt32 → List WalkItem → Shares × Except ScanDirError UInt32
  | s, addedEntries, [] => (s, .ok addedEntries)
  | s, addedEntries, item :: rest =>
    match scanEntry root shareName s item with
    | (s, .error e) => (s, .error e)
    | (s, .ok added) => scanLoop root shareName s (addedEntries + added) rest

/-- The part of `scan` before the walk: choose the share name, remove existing entries and
record the path. -/
def scanStart (s : Shares) (root : String) : Shares × Outcome ScanDirError String :=
  match shareNameForPath s.shareNames root with
  | .error e => (s, .error e)
  | .ok shareName =>
    match s.removeShareDir shareName with
    -- Ignore the error if it didn't exist
    | (s, .ok ()) | (s, .error .noShare) =>
      ({ s with shareNames := s.shareNames.insert (Utf8.encode shareName) (Utf8.encode root) },
        .ok shareName)
    | (s, .error e) => (s, .error (.error e))

/-- Index a given directory and return the number of entries added to the database
(`src/shares.rs:49`). Its path is given as a string, so it is always UTF-8. -/
def scan (s : Shares) (root : String) (items : List WalkItem) :
    Shares × Outcome ScanDirError UInt32 :=
  match s.scanStart root with
  | (s, .error e) => (s, .error e)
  | (s, .ok shareName) =>
    match scanLoop root shareName s 0 items with
    | (s, .error e) => (s, .error (.error e))
    | (s, .ok addedEntries) => (s, .ok addedEntries)

end Shares

end HarddriveParty
