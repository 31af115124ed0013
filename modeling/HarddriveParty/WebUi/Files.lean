import HarddriveParty.Base.KeyRange
import HarddriveParty.Base.Utf8
import HarddriveParty.Shared.UiMessages
import HarddriveParty.Wishlist.Records

/-!
# The files map of the web UI

Model of the `BTreeMap<PeerPath, File>` that the web UI keeps (`web-ui/src/lib.rs`,
`web-ui/src/file.rs`), and of the updates that replies of the node make to it. Signals are
their current values. Keys are ordered as in the derived `Ord` of `PeerPath`: by the bytes of
the peer name, then by the bytes of the path. Every update puts a file under its own name, so
the map carries that as a field.
-/

namespace HarddriveParty

open OrderedTree

namespace PeerPath

/-- Compare the peer names of two keys. -/
def cmpPeerName (a b : PeerPath) : Ordering := Utf8.compareBytes a.peerName b.peerName

/-- Compare the paths of two keys. -/
def cmpPath (a b : PeerPath) : Ordering := Utf8.compareBytes a.path b.path

/-- The derived order of `PeerPath` (`shared/src/ui_messages.rs:151`). -/
def cmp : PeerPath → PeerPath → Ordering := compareLex cmpPeerName cmpPath

instance : Std.TransCmp cmpPeerName :=
  inferInstanceAs (Std.TransCmp (compareOn fun k : PeerPath ↦ Utf8.encode k.peerName))

instance : Std.TransCmp cmpPath :=
  inferInstanceAs (Std.TransCmp (compareOn fun k : PeerPath ↦ Utf8.encode k.path))

instance : Std.TransCmp cmp := inferInstanceAs (Std.TransCmp (compareLex _ _))

instance : Std.LawfulEqCmp cmp where
  eq_of_compare {a b} h := by
    obtain ⟨hname, hpath⟩ := compareLex_eq_eq.mp h
    obtain ⟨peerName, path⟩ := a
    exact congrArg₂ PeerPath.mk (Std.LawfulEqCmp.eq_of_compare hname)
      (Std.LawfulEqCmp.eq_of_compare hpath)

/-- The texts between a text and the same with a tilde are those that go on behind it with a
byte below the tilde, or not at all. -/
theorem inRange_tilde {s t : String} :
    InRange Utf8.compareBytes s (s ++ "~") t ↔
      ∃ r, Utf8.encode t = Utf8.encode s ++ r ∧ ∀ x ∈ r.head?, x < 126 := by
  have hbound : Utf8.encode (s ++ "~") = Utf8.encode s ++ [126] := Utf8.encode_append s "~"
  show InRange compare (Utf8.encode s) (Utf8.encode (s ++ "~")) (Utf8.encode t) ↔ _
  rw [hbound, inRange_append_singleton]
  simp only [compareOfLessAndEq_eq_lt, compare]

end PeerPath

/-- `DownloadStatus` (`web-ui/src/file.rs:292`). -/
inductive DownloadStatus where
  | nothing
  | requested (requestId : UInt32)
  | downloading (bytesRead : UInt64) (requestId : UInt32)
  | uploading (bytesRead totalSize speed : UInt64)
  | downloaded (requestId : UInt32)
  deriving DecidableEq, Repr

/-- Progress of a request is not undone by an older snapshot of the same request
(`web-ui/src/file.rs:308`). -/
def DownloadStatus.mergeRequestSnapshot : DownloadStatus → DownloadStatus → DownloadStatus
  | downloading bytesRead currentId, requested incomingId =>
    if currentId = incomingId then downloading bytesRead currentId else requested incomingId
  | downloaded currentId, requested incomingId =>
    if currentId = incomingId then downloaded currentId else requested incomingId
  | downloaded currentId, downloading bytesRead incomingId =>
    if currentId = incomingId then downloaded currentId else downloading bytesRead incomingId
  | _, incoming => incoming

/-- Ui representation of a file (`web-ui/src/file.rs:17`). -/
structure File where
  name : String
  peerName : String
  size : Option UInt64
  isDir : Option Bool
  isExpanded : Bool
  downloadStatus : DownloadStatus
  request : Option UiDownloadRequest
  deriving DecidableEq, Repr

namespace File

/-- `File::from_entry` (`web-ui/src/file.rs:31`). -/
def fromEntry (entry : Entry) (peerName : String) : File :=
  { name := entry.name
    peerName
    size := some entry.size
    isDir := some entry.isDir
    isExpanded := false
    downloadStatus := .nothing
    request := none }

/-- `File::from_downloading_file` (`web-ui/src/file.rs:43`). -/
def fromDownloadingFile (name peerName : String) (downloadStatus : DownloadStatus) : File :=
  { name
    peerName
    size := none
    isDir := some false
    isExpanded := false
    downloadStatus
    request := none }

/-- The key under which the file belongs. -/
abbrev key (f : File) : PeerPath := ⟨f.peerName, f.name⟩

end File

/-- The files map: every file is kept under its own peer name and path. -/
structure FilesMap where
  tree : Std.ExtTreeMap PeerPath File PeerPath.cmp
  keyed : ∀ (k : PeerPath) (f : File), tree[k]? = some f → f.key = k

namespace FilesMap

/-- The map of a freshly loaded page. -/
def empty : FilesMap where
  tree := ∅
  keyed := by simp

/-- `files.get(key)`. -/
def get? (m : FilesMap) (k : PeerPath) : Option File := m.tree[k]?

/-- `files.entry(key).and_modify(modify)`, then `or_insert(new)` if there is a new file. -/
def entry (m : FilesMap) (k : PeerPath) (modify : File → File) (new : Option File)
    (hmodify : ∀ f, (modify f).key = f.key) (hnew : ∀ f ∈ new, f.key = k) : FilesMap where
  tree := update m.tree k fun
    | some f => some (modify f)
    | none => new
  keyed := by
    intro j f hf
    rw [getElem?_update] at hf
    by_cases hj : j = k
    · subst hj
      rw [if_pos rfl] at hf
      cases hold : m.tree[j]? with
      | some old =>
        rw [hold, Option.some.injEq] at hf
        rw [← hf, hmodify, m.keyed j old hold]
      | none =>
        rw [hold] at hf
        exact hnew f hf
    · rw [if_neg hj] at hf
      exact m.keyed j f hf

/-- A loop over `files.range_mut(..)` that changes each file it meets. -/
def updateRange (m : FilesMap) (lo hi : PeerPath) (modify : File → File)
    (hmodify : ∀ f, (modify f).key = f.key) : FilesMap where
  tree := updateSelected m.tree (InRange PeerPath.cmp lo hi) modify
  keyed := by
    intro k f hf
    rw [getElem?_updateSelected, Option.map_eq_some_iff] at hf
    obtain ⟨old, hold, rfl⟩ := hf
    split
    · rw [hmodify, m.keyed k old hold]
    · exact m.keyed k old hold

/-- `files.range(lo..hi)`, with the keys. -/
def range (m : FilesMap) (lo hi : PeerPath) : List (PeerPath × File) :=
  select m.tree (InRange PeerPath.cmp lo hi)

/-- `files.range(lo..=hi)`, with the keys. -/
def rangeInclusive (m : FilesMap) (lo hi : PeerPath) : List (PeerPath × File) :=
  select m.tree (InClosedRange PeerPath.cmp lo hi)

/-- `files.retain(..)`: the files of some peers are dropped. -/
def retain (m : FilesMap) (keep : PeerPath → Bool) : FilesMap where
  tree := m.tree.filter fun k _ ↦ keep k
  keyed := by
    intro k f hf
    rw [Std.ExtTreeMap.getElem?_filter', Option.filter_eq_some_iff] at hf
    exact m.keyed k f hf.1

@[simp] theorem get?_empty (k : PeerPath) : empty.get? k = none := by simp [get?, empty]

variable (m : FilesMap)

/-- An entry changes its own key only. -/
theorem get?_entry (k j : PeerPath) (modify : File → File) (new : Option File)
    (hmodify : ∀ f, (modify f).key = f.key) (hnew : ∀ f ∈ new, f.key = k) :
    (m.entry k modify new hmodify hnew).get? j =
      if j = k then ((m.get? k).map modify).or new else m.get? j := by
  unfold get? entry
  rw [getElem?_update]
  cases m.tree[k]? with
  | some f => rfl
  | none => rfl

/-- A loop over a range changes the files in it only. -/
theorem get?_updateRange (lo hi k : PeerPath) (modify : File → File)
    (hmodify : ∀ f, (modify f).key = f.key) :
    (m.updateRange lo hi modify hmodify).get? k =
      (m.get? k).map fun f ↦ if InRange PeerPath.cmp lo hi k then modify f else f :=
  getElem?_updateSelected m.tree _ modify k

/-- Of the peers that are dropped no file is left, and the others keep theirs. -/
theorem get?_retain (keep : PeerPath → Bool) (k : PeerPath) :
    (m.retain keep).get? k = (m.get? k).filter fun _ ↦ keep k :=
  Std.ExtTreeMap.getElem?_filter'

/-- A file is kept under its key. -/
theorem key_of_get? {k : PeerPath} {f : File} (h : m.get? k = some f) : f.key = k :=
  m.keyed k f h

end FilesMap

end HarddriveParty
