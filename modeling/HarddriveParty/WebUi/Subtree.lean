import HarddriveParty.WebUi.Model
import HarddriveParty.WebUi.Paths

/-!
# The files under a request

The UI takes for the files under a requested path those of the peer from that path up to the
path and a tilde. In bytes these are the paths that go on behind it with a byte below the
tilde, whether or not that byte is a slash; under the root, a path that starts with the tilde
or a later byte is left out. Where there is no such path, marking, merging and listing all
concern exactly the requested path and what it is an ancestor of.
-/

namespace HarddriveParty

open OrderedTree FilesMap

/-- The entry is the requested one, or the requested path is a proper ancestor of its path. -/
def InSubtree (requested k : PeerPath) : Prop :=
  k.peerName = requested.peerName ∧
    (k.path = requested.path ∨ IsPathAncestor requested.path k.path)

instance (requested : PeerPath) : DecidablePred (InSubtree requested) :=
  fun _ ↦ inferInstanceAs (Decidable (_ ∧ _))

/-- The path goes on behind the requested one with a byte below `~` that is no slash; or the
requested path is the root and the path starts with `~` or a later byte. -/
def Misplaced (requested k : PeerPath) : Prop :=
  k.peerName = requested.peerName ∧ ∃ x rest,
    Utf8.encode k.path = Utf8.encode requested.path ++ x :: rest ∧
      if requested.path = "" then 126 ≤ x else x < 126 ∧ x ≠ 47

/-- The key range of a request in bytes. -/
theorem underRequest_iff {requested k : PeerPath} :
    UnderRequest requested k ↔ k.peerName = requested.peerName ∧
      ∃ r, Utf8.encode k.path = Utf8.encode requested.path ++ r ∧ ∀ x ∈ r.head?, x < 126 := by
  have hname : PeerPath.cmpPeerName requested k = .eq ↔ k.peerName = requested.peerName := by
    unfold PeerPath.cmpPeerName
    rw [Std.LawfulEqCmp.compare_eq_iff_eq, eq_comm]
  have hself : PeerPath.cmpPeerName requested (upperBound requested) = .eq :=
    Std.ReflCmp.compare_self
  rw [UnderRequest, PeerPath.cmp, inRange_compareLex hself, hname]
  exact and_congr_right fun _ ↦ PeerPath.inRange_tilde

/-- The subtree of a request in bytes. -/
theorem inSubtree_iff {requested k : PeerPath} :
    InSubtree requested k ↔ k.peerName = requested.peerName ∧
      ∃ r, Utf8.encode k.path = Utf8.encode requested.path ++ r ∧
        (requested.path ≠ "" → ∀ x ∈ r.head?, x = 47) := by
  unfold InSubtree
  rw [eq_or_isPathAncestor_iff]
  refine and_congr_right fun _ ↦ ?_
  by_cases hroot : requested.path = ""
  · rw [hroot]
    simp [pathComponents]
  · rw [pathComponents_prefix_iff_bytes hroot]
    simp [hroot]

private theorem exists_append_eq {p b : Bytes} {P : Bytes → Prop} (r : Bytes) (h : p ++ r = b) :
    (∃ r', b = p ++ r' ∧ P r') ↔ P r := by
  subst h
  simp

/-- The key range is right about a key unless that is misplaced. -/
theorem underRequest_iff_inSubtree_iff {requested k : PeerPath} :
    (UnderRequest requested k ↔ InSubtree requested k) ↔ ¬ Misplaced requested k := by
  rw [underRequest_iff, inSubtree_iff, Misplaced]
  by_cases hname : k.peerName = requested.peerName
  · by_cases hpre : Utf8.encode requested.path <+: Utf8.encode k.path
    · obtain ⟨r, hr⟩ := hpre
      rw [exists_append_eq r hr, exists_append_eq r hr, ← hr]
      cases r with
      | nil => simp [hname]
      | cons x rest =>
        by_cases hroot : requested.path = ""
        · simp [hname, hroot]
        · by_cases hx : x = 47
          · simp [hname, hroot, hx]
          · simp [hname, hroot, hx]
    · have hno : ∀ r, Utf8.encode k.path ≠ Utf8.encode requested.path ++ r :=
        fun r hr ↦ hpre ⟨r, hr.symm⟩
      simp [hno]
  · simp [hname]

/-- A requested path is not misplaced under itself. -/
theorem not_misplaced_self (requested : PeerPath) : ¬ Misplaced requested requested := by
  rintro ⟨-, x, rest, h, -⟩
  simp at h

namespace FilesMap

section Exactness

variable (m : FilesMap) (requested : PeerPath)

/-- `download` sets the status of exactly the subtree, under every id of the request. -/
def MarksExactly : Prop :=
  ∀ ui : AppContext, ui.files = m → ∀ id k,
    (ui.download requested id).files.get? k =
      ((m.enterRequested requested id).get? k).map fun f ↦
        if InSubtree requested k then { f with downloadStatus := .requested id } else f

/-- `requests` merges the status of exactly the subtree, for every request of that path. -/
def MergesExactly : Prop :=
  ∀ ui : AppContext, ui.files = m → ∀ request : UiDownloadRequest,
    request.peerPath = requested → ∀ k, (ui.receiveRequests [request]).files.get? k =
      ((m.enterRequest request).get? k).map fun f ↦
        if InSubtree requested k then
          { f with
            downloadStatus := f.downloadStatus.mergeRequestSnapshot request.downloadStatus }
        else f

/-- `request_files` lists the files of exactly the subtree, each once. -/
def ListsSubtree : Prop :=
  (m.requestFiles requested).Perm ((select m.tree (InSubtree requested)).map Prod.snd)

/-- No file of the map is misplaced under the requested path. -/
def NoneMisplaced : Prop := ∀ k f, m.get? k = some f → ¬ Misplaced requested k

end Exactness

section Marking

variable {m m' : FilesMap} {requested : PeerPath}

/-- Entering the requested path changes no other key. -/
private theorem range_update_exact (h : NoneMisplaced m requested)
    (hframe : ∀ k, k ≠ requested → m'.get? k = m.get? k) (modify : File → File) (k : PeerPath) :
    ((m'.get? k).map fun f ↦ if UnderRequest requested k then modify f else f) =
      (m'.get? k).map fun f ↦ if InSubtree requested k then modify f else f := by
  cases hf : m'.get? k with
  | none => rfl
  | some f =>
    have hk : ¬ Misplaced requested k := by
      by_cases he : k = requested
      · rw [he]
        exact not_misplaced_self requested
      · exact h k f (by rw [← hframe k he, hf])
    have hiff := underRequest_iff_inSubtree_iff.mpr hk
    simp only [Option.map_some, hiff]

/-- A change that shows is right about a key only if the key is not misplaced. -/
private theorem not_misplaced_of_exact {k : PeerPath} {f : File} {modify : File → File}
    (hf : m'.get? k = some f) (hmodify : modify f ≠ f)
    (h : ((m'.get? k).map fun f ↦ if UnderRequest requested k then modify f else f) =
      (m'.get? k).map fun f ↦ if InSubtree requested k then modify f else f) :
    ¬ Misplaced requested k := by
  rw [hf, Option.map_some, Option.map_some, Option.some.injEq] at h
  apply underRequest_iff_inSubtree_iff.mp
  by_cases hu : UnderRequest requested k
  · by_cases hs : InSubtree requested k
    · exact iff_of_true hu hs
    · rw [if_pos hu, if_neg hs] at h
      exact absurd h hmodify
  · by_cases hs : InSubtree requested k
    · rw [if_neg hu, if_pos hs] at h
      exact absurd h.symm hmodify
    · exact iff_of_false hu hs

/-- No file has the status that a fresh id gives. -/
private theorem exists_other_id (status : DownloadStatus) (mark : UInt32 → DownloadStatus)
    (hmark : mark 0 ≠ mark 1) : ∃ id, mark id ≠ status := by
  by_cases h : mark 0 = status
  · exact ⟨1, fun h1 ↦ hmark (h.trans h1.symm)⟩
  · exact ⟨0, h⟩

private theorem ne_of_misplaced {k : PeerPath} (h : Misplaced requested k) : k ≠ requested := by
  rintro rfl
  exact not_misplaced_self k h

/-- Marking concerns exactly the subtree when no file is misplaced. -/
theorem marksExactly_iff : MarksExactly m requested ↔ NoneMisplaced m requested := by
  constructor
  · intro h k f hf hmis
    have hk := ne_of_misplaced hmis
    obtain ⟨id, hid⟩ := exists_other_id f.downloadStatus .requested (by decide)
    have hexact := h { AppContext.empty with files := m } rfl id k
    rw [AppContext.download, m.get?_markRequested] at hexact
    refine not_misplaced_of_exact ((m.get?_enterRequested id hk).trans hf) ?_ hexact hmis
    intro he
    exact hid (congrArg File.downloadStatus he)
  · rintro h ui rfl id k
    rw [AppContext.download, ui.files.get?_markRequested]
    exact range_update_exact h (fun j hj ↦ ui.files.get?_enterRequested id hj) _ k

/-- Merging concerns exactly the subtree when no file is misplaced. -/
theorem mergesExactly_iff : MergesExactly m requested ↔ NoneMisplaced m requested := by
  constructor
  · intro h k f hf hmis
    have hk := ne_of_misplaced hmis
    obtain ⟨id, hid⟩ := exists_other_id f.downloadStatus .downloaded (by decide)
    -- a completed request replaces every status
    let request : UiDownloadRequest :=
      { path := requested.path
        progress := 0
        totalSize := 0
        requestId := id
        timestamp := Duration.fromSecs 0
        peerName := requested.peerName
        isDir := false }
    have hmerge : f.downloadStatus.mergeRequestSnapshot request.downloadStatus =
        .downloaded id := by
      cases f.downloadStatus <;> rfl
    have hexact := h { AppContext.empty with files := m } rfl request rfl k
    rw [AppContext.receiveRequests, List.foldl_cons, List.foldl_nil,
      m.get?_mergeRequest] at hexact
    refine not_misplaced_of_exact ((m.get?_enterRequest request hk).trans hf) ?_ hexact hmis
    intro he
    exact hid (hmerge.symm.trans (congrArg File.downloadStatus he))
  · rintro h ui rfl request rfl k
    rw [AppContext.receiveRequests, List.foldl_cons, List.foldl_nil, ui.files.get?_mergeRequest]
    exact range_update_exact h (fun j hj ↦ ui.files.get?_enterRequest request hj) _ k

end Marking

section Listing

variable {m : FilesMap} {requested : PeerPath}

/-- A selection holds a file exactly when it is kept under a selected key. -/
private theorem mem_select_files {sel : PeerPath → Prop} [DecidablePred sel] {f : File} :
    f ∈ (select m.tree sel).map Prod.snd ↔ m.get? f.key = some f ∧ sel f.key := by
  rw [List.mem_map]
  constructor
  · rintro ⟨⟨k, f⟩, hmem, rfl⟩
    obtain ⟨hf, hsel⟩ := mem_select.mp hmem
    rw [m.key_of_get? hf]
    exact ⟨hf, hsel⟩
  · rintro ⟨hf, hsel⟩
    exact ⟨(f.key, f), mem_select.mpr ⟨hf, hsel⟩, rfl⟩

/-- A selection holds each file once. -/
private theorem nodup_select_files (sel : PeerPath → Prop) [DecidablePred sel] :
    ((select m.tree sel).map Prod.snd).Nodup := by
  refine (nodup_select m.tree sel).map_on ?_
  rintro ⟨j, f⟩ hj ⟨k, g⟩ hk rfl
  rw [← m.key_of_get? (mem_select.mp hj).1, ← m.key_of_get? (mem_select.mp hk).1]

/-- The list under a request without the requested path itself. -/
private theorem requestFiles_eq :
    m.requestFiles requested = (m.get? requested).toList ++
      ((select m.tree (UnderRequest requested)).map Prod.snd).filter fun f ↦
        f.name ≠ requested.path := by
  rw [List.filter_map]
  rfl

/-- The list under a request holds the files of the key range. -/
theorem mem_requestFiles {f : File} :
    f ∈ m.requestFiles requested ↔ m.get? f.key = some f ∧ UnderRequest requested f.key := by
  have hself : UnderRequest requested requested :=
    (underRequest_iff_inSubtree_iff.mpr (not_misplaced_self requested)).mpr ⟨rfl, Or.inl rfl⟩
  rw [requestFiles_eq, List.mem_append, Option.mem_toList, List.mem_filter, mem_select_files,
    decide_eq_true_eq]
  constructor
  · rintro (h | h)
    · rw [m.key_of_get? h]
      exact ⟨h, hself⟩
    · exact h.1
  · rintro ⟨hf, hrange⟩
    by_cases hname : f.name = requested.path
    · have hkey : f.key = requested := by
        obtain ⟨hpeer, -⟩ := underRequest_iff.mp hrange
        exact congrArg₂ PeerPath.mk hpeer hname
      rw [hkey] at hf
      exact Or.inl hf
    · exact Or.inr ⟨⟨hf, hrange⟩, hname⟩

/-- The list under a request holds each file once. -/
theorem nodup_requestFiles : (m.requestFiles requested).Nodup := by
  rw [requestFiles_eq, List.nodup_append']
  refine ⟨?_, (nodup_select_files _).filter _, ?_⟩
  · cases m.get? requested <;> simp
  · intro f hf hrest
    rw [Option.mem_toList] at hf
    rw [List.mem_filter, decide_eq_true_eq] at hrest
    exact hrest.2 (congrArg PeerPath.path (m.key_of_get? hf))

/-- The list is the subtree when no file is misplaced. -/
theorem listsSubtree_iff : ListsSubtree m requested ↔ NoneMisplaced m requested := by
  unfold ListsSubtree
  rw [List.perm_ext_iff_of_nodup nodup_requestFiles (nodup_select_files _)]
  constructor
  · intro h k f hf
    have hkey := m.key_of_get? hf
    have hmem := h f
    rw [mem_requestFiles, mem_select_files, hkey] at hmem
    simp only [hf, true_and] at hmem
    exact underRequest_iff_inSubtree_iff.mp hmem
  · intro h f
    rw [mem_requestFiles, mem_select_files]
    refine and_congr_right fun hf ↦ ?_
    exact underRequest_iff_inSubtree_iff.mpr (h f.key f hf)

end Listing

/-- Marking, merging and listing each concern exactly the requested path and what it is an
ancestor of, if and only if no path of that peer goes on behind the requested one with a byte
below `~` other than a slash (for the root: starts with `~` or a later byte). -/
theorem exact_iff_noneMisplaced (m : FilesMap) (requested : PeerPath) :
    (MarksExactly m requested ↔ NoneMisplaced m requested) ∧
    (MergesExactly m requested ↔ NoneMisplaced m requested) ∧
    (ListsSubtree m requested ↔ NoneMisplaced m requested) :=
  ⟨marksExactly_iff, mergesExactly_iff, listsSubtree_iff⟩

/-- Requesting `foo` marks the file `foo.txt` beside it. -/
theorem foo_marks_sibling :
    ¬ ∀ m requested, MarksExactly m requested ∧ MergesExactly m requested ∧
      ListsSubtree m requested := by
  intro h
  let siblings := empty.insertEntry "ann" ⟨"foo.txt", 1, false⟩
  have hf : siblings.get? ⟨"ann", "foo.txt"⟩ =
      some (File.fromEntry ⟨"foo.txt", 1, false⟩ "ann") := by
    simp only [siblings, insertEntry, get?_entry]
    rfl
  refine marksExactly_iff.mp (h siblings ⟨"ann", "foo"⟩).1 _ _ hf ?_
  exact ⟨rfl, 46, Utf8.encode "txt", by decide, by decide⟩

end FilesMap

end HarddriveParty
